import Riaps.GraphReplay
import Riaps.PublicationPlaces

/-! Publication and processing together. A call of `process` or `reset` borrows a
guard or an owned box and goes through the graph behind the address node by node;
between two nodes any other thread may compile, swap, pin, reclaim or free. What
lies at an address is read anew at every node, so a graph that was freed or that
two calls change at once would be seen. -/
namespace Riaps.Live
open Library.Checks Library.Machine Library.Pools Library.Replay Riaps.Graph

section Visits
variable {σ α : Type} [Zero α] [Add α] (resetNode : σ → σ) (w : Nat) (methods : DspNode σ α)

def extent (g : DspGraphInner σ α) : Job α → Nat
  | .block c => min (min c.input.length c.output.length) g.maxBlock
  | .reset => 0

def plan (g : DspGraphInner σ α) : Job α → List Nat
  | .block _ => g.order
  | .reset => List.range g.nodes.length

def visit (count : Nat) (job : Job α) : Perform (DspGraphInner σ α) Nat Unit := fun g v =>
  match job with
  | .block c => (runNode w methods count c.input c.ctx g v).map (Prod.map id (fun _ => ()))
  | .reset => .ok ({g with nodes := g.nodes.modify v resetNode},())

def finish (count : Nat) (g : DspGraphInner σ α) : Job α → Checked (List α)
  | .block c => gather w g.maxBlock count g.nodeOutputs g.sinks (List.replicate c.output.length 0)
  | .reset => .ok []

end Visits

section Parts
variable {σ α : Type} [Zero α] [Add α] {resetNode : σ → σ} {w : Nat} {methods : DspNode σ α}

omit [Zero α] [Add α] in
theorem resetVisits (g : DspGraphInner σ α) (front back : List σ) (split : g.nodes = front.map resetNode ++ back) :
    replay (fun g v => .ok ({g with nodes := g.nodes.modify v resetNode},())) g (List.range' front.length back.length) =
      .ok ({g with nodes := (front ++ back).map resetNode},List.replicate back.length ()) := by
  induction back generalizing g front with
  | nil =>
    rw [List.append_nil] at split ⊢
    rw [← split]
    rfl
  | cons node back ih =>
    have written : g.nodes.modify front.length resetNode = (front ++ [node]).map resetNode ++ back := by
      have past : (front.map resetNode ++ node :: back).drop (front.length + 1) = back := by
        rw [← List.drop_drop,List.drop_left' (List.length_map _),List.drop_one,List.tail_cons]
      rw [split,List.modify_eq_take_cons_drop (by simp),past]
      simp
    have next := ih {g with nodes := g.nodes.modify front.length resetNode} (front ++ [node]) written
    rw [List.length_cons,List.range'_succ]
    exact replayCons rfl (by simpa using next)

theorem performParts {g after : DspGraphInner σ α} {job : Job α} {output : List α} :
    perform resetNode w methods g job = .ok (after,output) ↔ ∃ visited,
      replay (visit resetNode w methods (extent g job) job) g (plan g job) = .ok (after,visited) ∧
      finish w (extent g job) after job = .ok output := by
  cases job with
  | block c =>
    have forgotten := replayMap (runNode w methods (extent g (.block c)) c.input c.ctx) (fun _ => ()) g g.order
    rw [← runNodesReplay] at forgotten
    constructor
    · intro ok
      obtain ⟨done,ran,rfl,rfl⟩ := processBlockOk.mp ok
      obtain ⟨after,calls,out,visited,gathered,rfl⟩ := processParts.mp ran
      change runNodes w methods (extent g (.block c)) c.input c.ctx g.order g = _ at visited
      rw [visited] at forgotten
      exact ⟨_,forgotten,gathered⟩
    · rintro ⟨visited,ran,gathered⟩
      have same := forgotten.symm.trans ran
      cases walked : runNodes w methods (extent g (.block c)) c.input c.ctx g.order g with
      | error panic =>
        rw [walked] at same
        cases same
      | ok r =>
        rw [walked] at same
        cases Except.ok.inj same
        have done := processParts.mpr ⟨r.1,r.2,output,walked,gathered,rfl⟩
        exact processBlockOk.mpr ⟨_,done,rfl,rfl⟩
  | reset =>
    have visited : replay (visit resetNode w methods (extent g .reset) .reset) g (plan g .reset) =
        .ok (reset resetNode g,List.replicate g.nodes.length ()) := by
      unfold plan
      rw [List.range_eq_range']
      exact resetVisits g [] g.nodes rfl
    constructor
    · intro ok
      cases Except.ok.inj ok
      exact ⟨_,visited,rfl⟩
    · rintro ⟨_,ran,last⟩
      cases Except.ok.inj (visited.symm.trans ran)
      cases Except.ok.inj last
      rfl

end Parts

/- What a call holds by mutable reference for as long as it lasts; a handle has at most one guard. -/
inductive Borrow where
  | guard (handle : Nat)
  | box (pointer : Nat)
  deriving DecidableEq, Repr

/- `graph` is what the guard found at its address when it was pinned, or the box when the call began. -/
structure Work (α : Type) where
  borrow : Borrow
  pointer : Nat
  graph : Option Nat
  count : Nat
  rest : List Nat
  job : Job α

structure Stage (σ α : Type) where
  shared : Publication.Shared
  memory : Nat → Option (DspGraphInner σ α)
  works : List (Work α)

inductive Action (σ α : Type) where
  | compile (address maxBlock : Nat) (changes : List (Edit σ))
  | publish (action : Publication.Action)
  | process (guard : Nat) (c : Block α)
  | onBox (box : Nat) (job : Job α)
  | visit (work : Nat)

inductive Event (σ α : Type) where
  | compiled (graph : Nat) (inner : DspGraphInner σ α)
  | rejected (error : GraphError)
  | shared (event : Publication.Event)
  | performed (graph : Option Nat) (job : Job α) (output : List α)
  | dangling (pointer : Nat)
  | panicked (panic : Panic)

def takes (s : Publication.Shared) : Publication.Action → List Borrow
  | .dropBox box => (s.boxes[box]?).toList.map .box
  | .new box => (s.boxes[box]?).toList.map .box
  | .swap _ box => (s.boxes[box]?).toList.map .box
  | .dropGuard guard => (s.guards[guard]?).toList.map (fun g => .guard g.handle)
  | _ => []

section Machine
variable {σ α : Type} [Zero α] [Add α] (resetNode : σ → σ) (w : Nat) (methods : DspNode σ α)

def init : Stage σ α := ⟨Publication.init,fun _ => none,[]⟩

def borrowed (s : Stage σ α) : List Borrow := s.works.map Work.borrow

def forget (memory : Nat → Option (DspGraphInner σ α)) (gone : List Nat) : Nat → Option (DspGraphInner σ α) :=
  fun p => if p ∈ gone then none else memory p

/- `max_block` 0 stops the caller before there is a builder. -/
def compile (s : Stage σ α) (address maxBlock : Nat) (changes : List (Edit σ)) : Option (Stage σ α × List (Event σ α)) :=
  match Graph.new σ maxBlock with
  | .error _ => none
  | .ok b =>
      match Graph.compile w methods (changes.foldl edit b) with
      | .error panic => some (s,[.panicked panic])
      | .ok (.error error) => some (s,[.rejected error])
      | .ok (.ok g) => do
          let (shared,_) ← Publication.step s.shared (.compile address)
          some ({s with shared := shared, memory := Function.update s.memory address (some g)},
            [.compiled s.shared.created g])

def publish (s : Stage σ α) (action : Publication.Action) : Option (Stage σ α × List (Event σ α)) :=
  if (takes s.shared action).any (fun x => decide (x ∈ borrowed s)) then none
  else do
    let (shared,out) ← Publication.step s.shared action
    some ({s with shared := shared, memory := forget s.memory (Publication.gonePointers out)},out.map .shared)

def begin (s : Stage σ α) (borrow : Borrow) (pointer : Nat) (graph : Option Nat) (job : Job α) :
    Option (Stage σ α × List (Event σ α)) :=
  if borrow ∈ borrowed s then none
  else
    match s.memory pointer with
    | none => some (s,[.dangling pointer])
    | some g => some ({s with works := ⟨borrow,pointer,graph,extent g job,plan g job,job⟩ :: s.works},[])

def advance (s : Stage σ α) (wk : Work α) (others : List (Work α)) : Stage σ α × List (Event σ α) :=
  match s.memory wk.pointer with
  | none => ({s with works := others},[.dangling wk.pointer])
  | some g =>
      match wk.rest with
      | v :: rest =>
          match visit resetNode w methods wk.count wk.job g v with
          | .error panic => ({s with works := others},[.panicked panic])
          | .ok (g',_) => ({s with memory := Function.update s.memory wk.pointer (some g'),
                                   works := {wk with rest := rest} :: others},[])
      | [] =>
          match finish w wk.count g wk.job with
          | .error panic => ({s with works := others},[.panicked panic])
          | .ok output => ({s with works := others},[.performed wk.graph wk.job output])

def step (s : Stage σ α) : Action σ α → Option (Stage σ α × List (Event σ α))
  | .compile address maxBlock changes => compile w methods s address maxBlock changes
  | .publish (.compile _) => none
  | .publish action => publish s action
  | .process guard c => do
      let g ← s.shared.guards[guard]?
      begin s (.guard g.handle) g.pointer g.graph (.block c)
  | .onBox box job => do
      let pointer ← s.shared.boxes[box]?
      begin s (.box pointer) pointer (s.shared.heap pointer) job
  | .visit work => do
      let (wk,others) ← pick s.works work
      some (advance resetNode w methods s wk others)

end Machine
end Riaps.Live
