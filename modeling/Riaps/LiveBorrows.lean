import Riaps.LiveGraphs

/-! What a call has borrowed stays where it is. A step of any thread leaves the
guards and boxes it does not take, so the address behind a borrow keeps its graph;
and two borrows of one address are the same borrow, because a box is shielded
from every guard and a graph is pinned through one handle only. -/
namespace Riaps.Live
open Library.Checks Library.Machine Library.Pools Library.Replay Riaps.Graph

def Lent (s : Publication.Shared) (pointer : Nat) (graph : Option Nat) : Borrow → Prop
  | .guard handle => ∃ g ∈ s.guards, g.handle = handle ∧ g.pointer = pointer ∧ g.graph = graph
  | .box p => p = pointer ∧ pointer ∈ s.boxes ∧ s.heap pointer = graph

/- Only a re-load that succeeds makes a guard, and then the address has its owner in that handle. -/
def Apart (s : Publication.Shared) : Prop :=
  ∀ g ∈ s.guards, ∀ g' ∈ s.guards, g.pointer = g'.pointer → g.handle = g'.handle

section Lending
variable {s s' : Publication.Shared} {action : Publication.Action} {out : List Publication.Event}

def makes : Publication.Action → Nat
  | .compile _ => 1
  | _ => 0

/-- What a step may take from the pools of boxes and guards, and what it leaves there. -/
structure Leaves (s s' : Publication.Shared) (taken : List Borrow) (made : Nat) : Prop where
  boxes : ∀ p ∈ s.boxes, .box p ∉ taken → p ∈ s'.boxes
  guards : ∀ g ∈ s.guards, .guard g.handle ∉ taken → g ∈ s'.guards
  created : s'.created = s.created + made

theorem takenLeaves {α : Type} {pool rest : List α} {i : Nat} {x y : α} {f : α → Borrow}
    (picked : pick pool i = some (x,rest)) (mem : y ∈ pool) (kept : f y ∉ (pool[i]?).toList.map f) : y ∈ rest := by
  obtain ⟨found,there,same⟩ := Option.map_eq_some_iff.mp picked
  cases same
  have apart : y ≠ x := fun same => kept (by simp [there,same])
  exact (List.mem_cons.mp ((pickPerm picked).mem_iff.mp mem)).resolve_left apart

theorem releaseLeaves {handle : Nat} (ok : Publication.release s handle = some (s',out)) (taken : List Borrow) :
    Leaves s s' taken 0 := by
  obtain ⟨q,_,cases_⟩ := Publication.releaseCases ok
  rcases cases_ with ⟨_,_,rfl,_⟩ | ⟨_,_,rfl,_⟩ | ⟨_,rfl,_⟩ <;> exact ⟨fun _ mem _ => mem,fun _ mem _ => mem,rfl⟩

theorem advanceLeaves {c : Publication.Call} (ok : Publication.advance s c = some (s',out)) (taken : List Borrow) :
    Leaves s s' taken 0 := by
  cases c with
  | recover state pointer reclaim =>
    obtain ⟨⟨s₁,out₁⟩,released,last⟩ := Option.bind_eq_some_iff.mp ok
    cases Option.some.inj last
    obtain ⟨boxes,guards,created⟩ := releaseLeaves released taken
    cases reclaim with
    | true => exact ⟨boxes,guards,created⟩
    | false => exact ⟨fun p mem => boxes p (List.mem_cons_of_mem pointer mem),guards,created⟩
  | pinValidate call handle pointer =>
    obtain ⟨q,found,last⟩ := Option.bind_eq_some_iff.mp ok
    split at last <;> cases Option.some.inj last
    · exact ⟨fun _ mem _ => mem,fun _ mem _ => List.mem_cons_of_mem _ mem,rfl⟩
    · exact ⟨fun _ mem _ => mem,fun _ mem _ => mem,rfl⟩
  | discard pointer =>
    cases Option.some.inj ok
    exact ⟨fun _ mem _ => mem,fun _ mem _ => mem,rfl⟩
  | _ =>
    obtain ⟨q,found,last⟩ := Option.bind_eq_some_iff.mp ok
    cases Option.some.inj last
    exact ⟨fun _ mem _ => mem,fun _ mem _ => mem,rfl⟩

theorem stepLeaves (ok : Publication.step s action = some (s',out)) : Leaves s s' (takes s action) (makes action) := by
  cases action with
  | compile address =>
    simp only [Publication.step] at ok
    split at ok <;> try contradiction
    cases Option.some.inj ok
    exact ⟨fun _ mem _ => List.mem_cons_of_mem _ mem,fun _ mem _ => mem,rfl⟩
  | dropBox box =>
    obtain ⟨⟨pointer,rest⟩,picked,last⟩ := Option.bind_eq_some_iff.mp ok
    cases Option.some.inj last
    exact ⟨fun _ mem kept => takenLeaves picked mem kept,fun _ mem _ => mem,rfl⟩
  | new box =>
    obtain ⟨⟨pointer,rest⟩,picked,last⟩ := Option.bind_eq_some_iff.mp ok
    cases Option.some.inj last
    exact ⟨fun _ mem kept => takenLeaves picked mem kept,fun _ mem _ => mem,rfl⟩
  | tryPin handle =>
    obtain ⟨q,found,last⟩ := Option.bind_eq_some_iff.mp ok
    split at last <;> try contradiction
    split at last <;> cases Option.some.inj last <;> exact ⟨fun _ mem _ => mem,fun _ mem _ => mem,rfl⟩
  | dropGuard guard =>
    obtain ⟨⟨g,rest⟩,picked,ok⟩ := Option.bind_eq_some_iff.mp ok
    obtain ⟨q,found,last⟩ := Option.bind_eq_some_iff.mp ok
    cases Option.some.inj last
    exact ⟨fun _ mem _ => mem,fun _ mem kept => takenLeaves (f := fun g => .guard g.handle) picked mem kept,rfl⟩
  | swap handle box =>
    obtain ⟨q,found,ok⟩ := Option.bind_eq_some_iff.mp ok
    split at ok <;> try contradiction
    obtain ⟨⟨pointer,rest⟩,picked,last⟩ := Option.bind_eq_some_iff.mp ok
    cases Option.some.inj last
    exact ⟨fun _ mem kept => takenLeaves picked mem kept,fun _ mem _ => mem,rfl⟩
  | tryIntoBox token reclaim =>
    obtain ⟨⟨t,rest⟩,picked,ok⟩ := Option.bind_eq_some_iff.mp ok
    obtain ⟨q,found,last⟩ := Option.bind_eq_some_iff.mp ok
    split at last <;> cases Option.some.inj last <;> exact ⟨fun _ mem _ => mem,fun _ mem _ => mem,rfl⟩
  | dropToken token =>
    obtain ⟨⟨t,rest⟩,picked,released⟩ := Option.bind_eq_some_iff.mp ok
    obtain ⟨boxes,guards,created⟩ := releaseLeaves released (takes s (.dropToken token))
    exact ⟨boxes,guards,created⟩
  | dropHandle handle =>
    obtain ⟨q,found,last⟩ := Option.bind_eq_some_iff.mp ok
    split at last <;> try contradiction
    obtain ⟨boxes,guards,created⟩ := releaseLeaves last (takes s (.dropHandle handle))
    exact ⟨boxes,guards,created⟩
  | version handle =>
    obtain ⟨q,found,last⟩ := Option.bind_eq_some_iff.mp ok
    split at last <;> try contradiction
    cases Option.some.inj last
    exact ⟨fun _ mem _ => mem,fun _ mem _ => mem,rfl⟩
  | advance call =>
    obtain ⟨⟨c,rest⟩,picked,moved⟩ := Option.bind_eq_some_iff.mp ok
    obtain ⟨boxes,guards,created⟩ := advanceLeaves moved (takes s (.advance call))
    exact ⟨boxes,guards,created⟩

theorem boxHeap (safe : Publication.Safe s) (moved : Publication.Moves s out s') {p : Nat} (before : p ∈ s.boxes)
    (after : p ∈ s'.boxes) : s'.heap p = s.heap p := by
  have owned : 0 < Publication.owning s p := Nat.add_pos_left (Nat.add_pos_left (Nat.add_pos_left
    (List.count_pos_iff.mpr before) _) _) _
  have owned' : 0 < Publication.owning s' p := Nat.add_pos_left (Nat.add_pos_left (Nat.add_pos_left
    (List.count_pos_iff.mpr after) _) _) _
  rcases Publication.moveEffect safe.owned safe.pinned.borrowed moved with ⟨address,made,_⟩ | ⟨lost,effect,_⟩
  · have apart : p ≠ address := fun same => safe.owned.ledger.backed p owned (same ▸ made.unused)
    rw [made.heap,Function.update_of_ne apart]
  · have one := safe.owned.ledger.sole p
    have counts := effect.owning p
    have kept : p ∉ Publication.gonePointers out := List.count_eq_zero.mp (by omega)
    rw [effect.heap,if_neg kept]

theorem lentHeap (safe : Publication.Safe s) {p : Nat} {graph : Option Nat} {borrow : Borrow} (lent : Lent s p graph borrow) :
    s.heap p = graph ∧ ∃ n, graph = some n := by
  cases borrow with
  | guard handle =>
    obtain ⟨g,mem,_,rfl,rfl⟩ := lent
    have guarded := safe.guarded g mem
    exact ⟨guarded.graph,Option.ne_none_iff_exists'.mp guarded.live⟩
  | box q =>
    obtain ⟨_,mem,rfl⟩ := lent
    have owned : 0 < Publication.owning s p := Nat.add_pos_left (Nat.add_pos_left (Nat.add_pos_left
      (List.count_pos_iff.mpr mem) _) _) _
    exact ⟨rfl,Option.ne_none_iff_exists'.mp (safe.owned.ledger.backed p owned)⟩

theorem lentApart (safe : Publication.Safe s) (apart : Apart s) {p : Nat} {graph graph' : Option Nat} {b b' : Borrow}
    (left : Lent s p graph b) (right : Lent s p graph' b') : b = b' := by
  cases b with
  | guard handle =>
    obtain ⟨g,mem,rfl,at_,_⟩ := left
    cases b' with
    | guard handle' =>
      obtain ⟨g',mem',rfl,at',_⟩ := right
      rw [apart g mem g' mem' (at_.trans at'.symm)]
    | box q => exact absurd (at_ ▸ right.2.1) (safe.guarded g mem).shield.boxes
  | box q =>
    cases b' with
    | guard handle' =>
      obtain ⟨g',mem',_,at',_⟩ := right
      exact absurd (at' ▸ left.2.1) (safe.guarded g' mem').shield.boxes
    | box q' => rw [left.1,right.1]

theorem lentKept (safe : Publication.Safe s) (ok : Publication.step s action = some (s',out)) {p : Nat} {graph : Option Nat}
    {borrow : Borrow} (lent : Lent s p graph borrow) (kept : borrow ∉ takes s action) : Lent s' p graph borrow := by
  have leaves := stepLeaves ok
  cases borrow with
  | guard handle =>
    obtain ⟨g,mem,rfl,rest⟩ := lent
    exact ⟨g,leaves.guards g mem kept,rfl,rest⟩
  | box q =>
    obtain ⟨rfl,mem,held⟩ := lent
    have still := leaves.boxes q mem kept
    exact ⟨rfl,still,(boxHeap safe (Publication.stepMoves ok) mem still).trans held⟩

theorem pinnedApart (safe : Publication.Safe s) {g g' : Publication.DspGraphReadGuard} {q : Publication.PublicationState}
    {rest : List Publication.Call} (taken : s.calls.Perm (.pinValidate g.call g.handle g.pointer :: rest))
    (found : s.handles[g.handle]? = some q) (current : q.current = g.pointer) (mem : g' ∈ s.guards)
    (same : g.pointer = g'.pointer) : g.handle = g'.handle := by
  have count := safe.owned.alive safe.pinned.borrowed (Publication.callBorrows taken (List.mem_singleton.mpr rfl)) found
  have held : g'.pointer ∈ q.holding := by simp [Publication.PublicationState.holding,count,current,same]
  exact (safe.guarded g' mem).shield.handles g.handle q found held

theorem stepApart (safe : Publication.Safe s) (apart : Apart s) (moved : Publication.Moves s out s') : Apart s' := by
  intro g mem g' mem' same
  rcases Publication.guardsKept moved mem with old | ⟨rest,q,taken,found,current,_,later⟩
  · rcases Publication.guardsKept moved mem' with old' | ⟨rest,q,taken,found,current,_,_⟩
    · exact apart g old g' old' same
    · exact (pinnedApart safe taken found current old same.symm).symm
  · rw [later] at mem'
    rcases List.mem_cons.mp mem' with rfl | old'
    · rfl
    · exact pinnedApart safe taken found current old' same

end Lending

section Transitions
variable {σ α : Type} [Zero α] [Add α] (resetNode : σ → σ) (w : Nat) (methods : DspNode σ α)

inductive Moves (s : Stage σ α) : List (Event σ α) → Stage σ α → Prop where
  | compilePanic {maxBlock b panic} (built : Built maxBlock b) (failed : Graph.compile w methods b = .error panic) :
      Moves s [.panicked panic] s
  | rejected {error} : Moves s [.rejected error] s
  | compile {address maxBlock b g shared out} (built : Built maxBlock b) (made : Graph.compile w methods b = .ok (.ok g))
      (stepped : Publication.step s.shared (.compile address) = some (shared,out)) :
      Moves s [.compiled s.shared.created g] {s with shared := shared, memory := Function.update s.memory address (some g)}
  | publish {action shared out} (other : makes action = 0) (kept : ∀ x ∈ takes s.shared action, x ∉ borrowed s)
      (stepped : Publication.step s.shared action = some (shared,out)) :
      Moves s (out.map .shared) {s with shared := shared, memory := forget s.memory (Publication.gonePointers out)}
  | absent {borrow pointer graph} (lent : Lent s.shared pointer graph borrow) (gone : s.memory pointer = none) :
      Moves s [.dangling pointer] s
  | begin {borrow pointer graph job g} (lent : Lent s.shared pointer graph borrow) (free : borrow ∉ borrowed s)
      (found : s.memory pointer = some g) :
      Moves s [] {s with works := ⟨borrow,pointer,graph,extent g job,plan g job,job⟩ :: s.works}
  | lost {wk others} (taken : s.works.Perm (wk :: others)) (gone : s.memory wk.pointer = none) :
      Moves s [.dangling wk.pointer] {s with works := others}
  | visit {wk others g v rest g' done} (taken : s.works.Perm (wk :: others)) (found : s.memory wk.pointer = some g)
      (left : wk.rest = v :: rest) (visited : visit resetNode w methods wk.count wk.job g v = .ok (g',done)) :
      Moves s [] {s with memory := Function.update s.memory wk.pointer (some g'), works := {wk with rest := rest} :: others}
  | visitPanic {wk others g v rest panic} (taken : s.works.Perm (wk :: others)) (found : s.memory wk.pointer = some g)
      (left : wk.rest = v :: rest) (failed : visit resetNode w methods wk.count wk.job g v = .error panic) :
      Moves s [.panicked panic] {s with works := others}
  | finish {wk others g output} (taken : s.works.Perm (wk :: others)) (found : s.memory wk.pointer = some g)
      (left : wk.rest = []) (finished : finish w wk.count g wk.job = .ok output) :
      Moves s [.performed wk.graph wk.job output] {s with works := others}
  | finishPanic {wk others g panic} (taken : s.works.Perm (wk :: others)) (found : s.memory wk.pointer = some g)
      (left : wk.rest = []) (failed : finish w wk.count g wk.job = .error panic) :
      Moves s [.panicked panic] {s with works := others}

variable {resetNode w methods} {s s' : Stage σ α} {out : List (Event σ α)}

theorem compileMoves {address maxBlock : Nat} {changes : List (Edit σ)}
    (ok : compile w methods s address maxBlock changes = some (s',out)) : Moves resetNode w methods s out s' := by
  unfold compile at ok
  split at ok <;> try contradiction
  rename_i b made
  have built : Built maxBlock (changes.foldl edit b) := ⟨b,changes,made,rfl⟩
  split at ok
  · rename_i failed
    cases Option.some.inj ok
    exact .compilePanic built failed
  · cases Option.some.inj ok
    exact .rejected
  · rename_i compiled
    obtain ⟨⟨shared,silent⟩,stepped,last⟩ := Option.bind_eq_some_iff.mp ok
    cases Option.some.inj last
    exact .compile built compiled stepped

theorem publishMoves {action : Publication.Action} (other : makes action = 0) (ok : publish s action = some (s',out)) :
    Moves resetNode w methods s out s' := by
  unfold publish at ok
  split at ok <;> try contradiction
  rename_i kept
  obtain ⟨⟨shared,published⟩,stepped,last⟩ := Option.bind_eq_some_iff.mp ok
  cases Option.some.inj last
  exact .publish other (by simpa using kept) stepped

theorem beginMoves {borrow : Borrow} {pointer : Nat} {graph : Option Nat} {job : Job α}
    (lent : Lent s.shared pointer graph borrow) (ok : begin s borrow pointer graph job = some (s',out)) :
    Moves resetNode w methods s out s' := by
  unfold begin at ok
  split at ok <;> try contradiction
  rename_i free
  split at ok <;> cases Option.some.inj ok
  · exact .absent lent (by assumption)
  · exact .begin lent free (by assumption)

theorem advanceMoves {wk : Work α} {others : List (Work α)} (taken : s.works.Perm (wk :: others)) :
    Moves resetNode w methods s (advance resetNode w methods s wk others).2 (advance resetNode w methods s wk others).1 := by
  unfold advance
  split
  · exact .lost taken (by assumption)
  · split
    · split
      · exact .visitPanic taken (by assumption) (by assumption) (by assumption)
      · exact .visit taken (by assumption) (by assumption) (by assumption)
    · split
      · exact .finishPanic taken (by assumption) (by assumption) (by assumption)
      · exact .finish taken (by assumption) (by assumption) (by assumption)

theorem stepMoves {action : Action σ α} (ok : step resetNode w methods s action = some (s',out)) :
    Moves resetNode w methods s out s' := by
  cases action with
  | compile address maxBlock changes => exact compileMoves ok
  | publish action =>
    cases action with
    | compile address => cases ok
    | _ => exact publishMoves rfl ok
  | process guard c =>
    obtain ⟨g,found,begun⟩ := Option.bind_eq_some_iff.mp ok
    refine beginMoves ?_ begun
    exact ⟨g,List.mem_of_getElem? found,rfl,rfl,rfl⟩
  | onBox box job =>
    obtain ⟨pointer,found,begun⟩ := Option.bind_eq_some_iff.mp ok
    refine beginMoves ?_ begun
    exact ⟨rfl,List.mem_of_getElem? found,rfl⟩
  | visit work =>
    obtain ⟨⟨wk,others⟩,picked,last⟩ := Option.bind_eq_some_iff.mp ok
    have moved : Moves resetNode w methods s _ _ := advanceMoves (pickPerm picked)
    rw [Option.some.inj last] at moved
    exact moved

end Transitions
end Riaps.Live
