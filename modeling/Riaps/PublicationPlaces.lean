import Mathlib.Data.List.Nodup
import Riaps.PublicationHazard

/-! Where every graph is. Nothing in the shared state says that a graph was leaked or
freed, so both are written down beside it: a graph is leaked when its token is
dropped and freed when its address is. Ownership moves by counting: a step takes
away exactly the owners of the addresses it leaks or frees. -/
namespace Riaps.Publication
open Library.Machine Library.Pools

structure Fate where
  leaked : List Nat
  freed : List Nat
  deriving DecidableEq, Repr

def droppedPointers (s : Shared) : Action → List Nat
  | .dropToken token => (s.tokens[token]?.map RetiredDspGraph.pointer).toList
  | _ => []

def note (s : Shared) (f : Fate) (action : Action) (out : List Event) : Fate :=
  ⟨f.leaked ++ (droppedPointers s action).filterMap s.heap,f.freed ++ (gonePointers out).filterMap s.heap⟩

section Effects
variable {s s' : Shared}

theorem advanceTokens {c : Call} {out : List Event} (ok : advance s c = some (s',out)) :
    s.tokens.length ≤ s'.tokens.length := by
  cases c with
  | recover state pointer reclaim =>
    obtain ⟨⟨s₁,out₁⟩,released,last⟩ := Option.bind_eq_some_iff.mp ok
    cases Option.some.inj last
    rw [(releaseKeeps released).2.1]
    split <;> exact Nat.le_refl _
  | _ =>
    simp only [advance,bind,Option.bind_eq_some_iff] at ok
    grind [update,free]

theorem stepTokens {action : Action} {out : List Event} (ok : step s action = some (s',out))
    (other : ∀ token, action ≠ .dropToken token) :
    s.tokens.length ≤ s'.tokens.length ∨ s.calls.length < s'.calls.length := by
  cases action with
  | dropToken token => exact absurd rfl (other token)
  | dropHandle handle =>
    obtain ⟨q,found,last⟩ := Option.bind_eq_some_iff.mp ok
    split at last <;> try contradiction
    rw [(releaseKeeps last).2.1]
    exact .inl (Nat.le_refl _)
  | advance call =>
    obtain ⟨⟨c,rest⟩,picked,moved⟩ := Option.bind_eq_some_iff.mp ok
    have kept : s.tokens.length ≤ s'.tokens.length := advanceTokens (s := {s with calls := rest}) moved
    exact .inl kept
  | _ =>
    simp only [step,bind,Option.bind_eq_some_iff] at ok
    grind [update,free,Option.bind_eq_some_iff]

theorem stepEffect {action : Action} {out : List Event} (inv : Owned s) (borrowed : Borrowed s)
    (ok : step s action = some (s',out)) :
    (∃ address, Makes s s' address ∧ droppedPointers s action = [] ∧ out = []) ∨
      Effect s s' (droppedPointers s action) (gonePointers out) := by
  by_cases drops : ∃ token, action = .dropToken token
  · obtain ⟨token,rfl⟩ := drops
    obtain ⟨⟨t,rest⟩,picked,released⟩ := Option.bind_eq_some_iff.mp ok
    obtain ⟨t',found,same⟩ := Option.map_eq_some_iff.mp picked
    cases same
    have effect := dropTokenEffect inv (pickPerm picked) released
    exact .inr (by simpa [droppedPointers,found] using effect)
  · have other : ∀ token, action ≠ .dropToken token := fun token same => drops ⟨token,same⟩
    have none_ : droppedPointers s action = [] := by
      cases action <;> first | rfl | exact absurd rfl (other _)
    rw [none_]
    rcases moveEffect inv borrowed (stepMoves ok) with ⟨address,makes,silent⟩ | ⟨lost,effect,rfl | ⟨shrinks,same⟩⟩
    · exact .inl ⟨address,makes,rfl,silent⟩
    · exact .inr effect
    · have kept := stepTokens ok other
      omega

end Effects

structure Booked (s : Shared) (f : Fate) : Prop where
  named : ∀ p i, s.heap p = some i → i < s.created
  single : ∀ p r i, s.heap p = some i → s.heap r = some i → p = r
  leaked : ∀ i, i ∈ f.leaked ↔ ∃ p, s.heap p = some i ∧ owning s p = 0
  freed : ∀ i, i ∈ f.freed ↔ i < s.created ∧ ∀ p, s.heap p ≠ some i
  once : f.freed.Nodup

section Books
variable {s s' : Shared} {f : Fate}

theorem initBooked : Booked init ⟨[],[]⟩ := by
  refine ⟨?_,?_,?_,?_,List.nodup_nil⟩ <;> simp [init]

theorem Makes.holds {address : Nat} (makes : Makes s s' address) (p i : Nat) :
    s'.heap p = some i ↔ (p = address ∧ i = s.created) ∨ s.heap p = some i := by
  rw [makes.heap]
  by_cases same : p = address
  · simp [same,makes.unused,eq_comm]
  · simp [same]

theorem Makes.leaked {address : Nat} (makes : Makes s s' address) (i : Nat) :
    (∃ p, s.heap p = some i ∧ Publication.owning s p = 0) ↔
      ∃ p, s'.heap p = some i ∧ Publication.owning s' p = 0 := by
  constructor
  · rintro ⟨p,held,alone⟩
    have apart : address ≠ p := by
      intro same
      rw [← same,makes.unused] at held
      cases held
    refine ⟨p,(makes.holds p i).mpr (.inr held),?_⟩
    rw [makes.owning,alone,List.count_singleton,if_neg (by simpa using apart)]
  · rintro ⟨p,held,alone⟩
    have own := makes.owning p
    rcases (makes.holds p i).mp held with ⟨rfl,_⟩ | before
    · simp only [List.count_singleton_self] at own
      omega
    · exact ⟨p,before,by omega⟩

theorem Makes.freed {address : Nat} (makes : Makes s s' address) (i : Nat) :
    (i < s.created ∧ ∀ p, s.heap p ≠ some i) ↔ i < s'.created ∧ ∀ p, s'.heap p ≠ some i := by
  rw [makes.created]
  constructor
  · rintro ⟨low,gone⟩
    refine ⟨Nat.lt_succ_of_lt low,?_⟩
    intro p held
    rcases (makes.holds p i).mp held with ⟨_,rfl⟩ | before
    · exact absurd low (Nat.lt_irrefl _)
    · exact gone p before
  · rintro ⟨low,gone⟩
    refine ⟨?_,fun p held => gone p ((makes.holds p i).mpr (.inr held))⟩
    by_contra high
    have last : i = s.created := by omega
    exact gone address ((makes.holds address i).mpr (.inl ⟨rfl,last⟩))

theorem Booked.made {address : Nat} (booked : Booked s f) (makes : Makes s s' address) : Booked s' f := by
  refine ⟨?_,?_,fun i => (booked.leaked i).trans (makes.leaked i),fun i => (booked.freed i).trans (makes.freed i),
    booked.once⟩
  · intro p i held
    rw [makes.created]
    rcases (makes.holds p i).mp held with ⟨_,rfl⟩ | before
    · exact Nat.lt_succ_self _
    · exact Nat.lt_succ_of_lt (booked.named p i before)
  · intro p r i left right
    rcases (makes.holds p i).mp left with ⟨rfl,rfl⟩ | left
    · rcases (makes.holds r s.created).mp right with ⟨rfl,_⟩ | right
      · rfl
      · exact absurd (booked.named r _ right) (Nat.lt_irrefl _)
    · rcases (makes.holds r i).mp right with ⟨_,rfl⟩ | right
      · exact absurd (booked.named p _ left) (Nat.lt_irrefl _)
      · exact booked.single p r i left right

theorem Effect.holds {lost gone : List Nat} (effect : Effect s s' lost gone) (p i : Nat) :
    s'.heap p = some i ↔ p ∉ gone ∧ s.heap p = some i := by
  rw [effect.heap]
  by_cases freed : p ∈ gone <;> simp [freed]

theorem Effect.leaked {lost gone : List Nat} (effect : Effect s s' lost gone)
    (ledger : Ledger s.heap (Publication.owning s)) (i : Nat) :
    ((∃ p, s.heap p = some i ∧ Publication.owning s p = 0) ∨ ∃ p ∈ lost, s.heap p = some i) ↔
      ∃ p, s'.heap p = some i ∧ Publication.owning s' p = 0 := by
  constructor
  · rintro (⟨p,held,alone⟩ | ⟨p,dropped,held⟩)
    · have counts := effect.owning p
      have kept : p ∉ gone := List.count_eq_zero.mp (by omega)
      exact ⟨p,(effect.holds p i).mpr ⟨kept,held⟩,by omega⟩
    · have counts := effect.owning p
      have one := ledger.sole p
      have taken := List.count_pos_iff.mpr dropped
      have kept : p ∉ gone := List.count_eq_zero.mp (by omega)
      exact ⟨p,(effect.holds p i).mpr ⟨kept,held⟩,by omega⟩
  · rintro ⟨p,held,alone⟩
    obtain ⟨kept,before⟩ := (effect.holds p i).mp held
    have counts := effect.owning p
    have none_ : gone.count p = 0 := List.count_eq_zero.mpr kept
    by_cases owned : Publication.owning s p = 0
    · exact .inl ⟨p,before,owned⟩
    · exact .inr ⟨p,List.count_pos_iff.mp (by omega),before⟩

theorem Booked.gone {lost gone : List Nat} (booked : Booked s f) (effect : Effect s s' lost gone) (i : Nat) :
    ((i < s.created ∧ ∀ p, s.heap p ≠ some i) ∨ ∃ p ∈ gone, s.heap p = some i) ↔
      i < s'.created ∧ ∀ p, s'.heap p ≠ some i := by
  rw [effect.created]
  constructor
  · rintro (⟨low,nowhere⟩ | ⟨p,freed,held⟩)
    · exact ⟨low,fun p now => nowhere p ((effect.holds p i).mp now).2⟩
    · refine ⟨booked.named p i held,?_⟩
      intro r now
      obtain ⟨kept,before⟩ := (effect.holds r i).mp now
      exact kept (booked.single p r i held before ▸ freed)
  · rintro ⟨low,nowhere⟩
    by_cases somewhere : ∃ p, s.heap p = some i
    · obtain ⟨p,held⟩ := somewhere
      have freed : p ∈ gone := by
        by_contra kept
        exact nowhere p ((effect.holds p i).mpr ⟨kept,held⟩)
      exact .inr ⟨p,freed,held⟩
    · exact .inl ⟨low,fun p held => somewhere ⟨p,held⟩⟩

theorem Booked.notAgain {lost gone : List Nat} (booked : Booked s f) (ledger : Ledger s.heap (owning s))
    (effect : Effect s s' lost gone) : (f.freed ++ gone.filterMap s.heap).Nodup := by
  have distinct : gone.Nodup := by
    apply List.nodup_iff_count.mpr
    intro p
    have counts := effect.owning p
    have one := ledger.sole p
    omega
  refine List.nodup_append.mpr ⟨booked.once,?_,?_⟩
  · exact List.Nodup.filterMap (fun p r i left right => booked.single p r i left right) distinct
  · intro i freed j now same
    obtain ⟨p,_,held⟩ := List.mem_filterMap.mp now
    exact ((booked.freed i).mp freed).2 p (same ▸ held)

theorem Booked.spent {lost gone : List Nat} (booked : Booked s f) (ledger : Ledger s.heap (owning s))
    (effect : Effect s s' lost gone) :
    Booked s' ⟨f.leaked ++ lost.filterMap s.heap,f.freed ++ gone.filterMap s.heap⟩ := by
  refine ⟨?_,?_,?_,?_,booked.notAgain ledger effect⟩
  · intro p i held
    rw [effect.created]
    exact booked.named p i ((effect.holds p i).mp held).2
  · intro p r i left right
    exact booked.single p r i ((effect.holds p i).mp left).2 ((effect.holds r i).mp right).2
  · intro i
    rw [List.mem_append,List.mem_filterMap,booked.leaked i]
    exact effect.leaked ledger i
  · intro i
    rw [List.mem_append,List.mem_filterMap,booked.freed i]
    exact booked.gone effect i

theorem stepBooked {action : Action} {out : List Event} (inv : Owned s) (borrowed : Borrowed s) (booked : Booked s f)
    (ok : step s action = some (s',out)) : Booked s' (note s f action out) := by
  rcases stepEffect inv borrowed ok with ⟨address,makes,none_,rfl⟩ | effect
  · simpa [note,none_,gonePointers] using booked.made makes
  · exact booked.spent inv.ledger effect

theorem runBooked {actions : List Action} {events : List Event}
    (ok : run (beside step note) (init,⟨[],[]⟩) actions = some ((s,f),events)) : Safe s ∧ Booked s f := by
  refine runInvariant (P := fun r _ => Safe r.1 ∧ Booked r.1 r.2) ⟨initSafe,initBooked⟩ ?_ ok
  rintro ⟨s,f⟩ past action ⟨s',f'⟩ out ⟨safe,booked⟩ moved
  obtain ⟨stepped,rfl⟩ := besideStep moved
  exact ⟨stepSafe safe (stepMoves stepped),stepBooked safe.owned safe.pinned.borrowed booked stepped⟩

end Books

inductive Hand where
  | pool (k : Nat)
  | call (k : Nat)
  deriving DecidableEq, Repr

/-- A box or a token lies in its pool or in the hands of a call that has not
returned: the box that `try_reclaim` is about to drop, the token that `swap` is
about to return or that `try_into_box` has checked and is using up. -/
inductive Place where
  | box (hand : Hand)
  | current (handle : Nat)
  | token (hand : Hand)
  | leaked
  | freed
  deriving DecidableEq, Repr

def Place.has (s : Shared) (p : Nat) : Place → Prop
  | .box (.pool k) => s.boxes[k]? = some p
  | .box (.call k) => s.calls[k]? = some (.discard p)
  | .current handle => ∃ q, s.handles[handle]? = some q ∧ q.strong ≠ 0 ∧ q.current = p
  | .token (.pool k) => ∃ t, s.tokens[k]? = some t ∧ t.pointer = p
  | .token (.call k) => (∃ handle, s.calls[k]? = some (.swapCount handle p)) ∨
      ∃ state reclaim, s.calls[k]? = some (.recover state p reclaim)
  | .leaked => False
  | .freed => False

def Lies (s : Shared) (f : Fate) (graph : Nat) : Place → Prop
  | .leaked => graph ∈ f.leaked
  | .freed => graph ∈ f.freed
  | place => ∃ p, place.has s p ∧ s.heap p = some graph

inductive Pool where
  | boxes
  | tokens
  | handles
  | calls

def Pool.share (s : Shared) (p : Nat) : Pool → Nat
  | .boxes => s.boxes.count p
  | .tokens => tally RetiredDspGraph.holding s.tokens p
  | .handles => tally PublicationState.holding s.handles p
  | .calls => tally Call.holding s.calls p

def Place.pool : Place → Pool
  | .box (.pool _) => .boxes
  | .token (.pool _) => .tokens
  | .current _ => .handles
  | _ => .calls

section Places
variable {s : Shared} {p : Nat}

theorem poolsApart (sole : owning s p ≤ 1) {a b : Pool} (left : 0 < a.share s p) (right : 0 < b.share s p) : a = b := by
  unfold owning at sole
  cases a <;> cases b <;> first | rfl | (simp only [Pool.share] at left right; omega)

theorem hasShare {place : Place} (has : place.has s p) : 0 < place.pool.share s p := by
  match place with
  | .box (.pool k) => exact List.count_pos_iff.mpr (List.mem_of_getElem? has)
  | .box (.call k) => exact (tallyPositive _).mpr ⟨_,List.mem_of_getElem? has,by simp [Call.holding]⟩
  | .current handle =>
    obtain ⟨q,found,some_,rfl⟩ := has
    exact (tallyPositive _).mpr ⟨q,List.mem_of_getElem? found,by simp [PublicationState.holding,some_]⟩
  | .token (.pool k) =>
    obtain ⟨t,found,rfl⟩ := has
    exact (tallyPositive _).mpr ⟨t,List.mem_of_getElem? found,by simp [RetiredDspGraph.holding]⟩
  | .token (.call k) =>
    rcases has with ⟨_,found⟩ | ⟨_,_,found⟩ <;>
      exact (tallyPositive _).mpr ⟨_,List.mem_of_getElem? found,by simp [Call.holding]⟩

theorem shareOwning (place : Pool) : place.share s p ≤ owning s p := by
  unfold owning
  cases place <;> simp only [Pool.share] <;> omega

theorem sameEntry {α : Type} {names : α → List Nat} {pool : List α} {i j : Nat} {a b : α} (sole : tally names pool p ≤ 1)
    (left : pool[i]? = some a) (right : pool[j]? = some b) (inLeft : p ∈ names a) (inRight : p ∈ names b) : i = j := by
  by_contra apart
  have both := tallyApart names left right apart p
  have one := List.count_pos_iff.mpr inLeft
  have two := List.count_pos_iff.mpr inRight
  omega

theorem placeUnique (sole : owning s p ≤ 1) {a b : Place} (left : a.has s p) (right : b.has s p) : a = b := by
  have few : ∀ pool : Pool, pool.share s p ≤ 1 := fun pool => (shareOwning pool).trans sole
  have calls : ∀ {i j : Nat} {c d : Call}, s.calls[i]? = some c → s.calls[j]? = some d → p ∈ c.holding → p ∈ d.holding →
      i = j := fun l r => sameEntry (few .calls) l r
  have pools := poolsApart sole (hasShare left) (hasShare right)
  match a, b with
  | .box (.pool k), .box (.pool l) =>
    have one : tally (fun x => [x]) s.boxes p ≤ 1 := by
      rw [tally,List.flatMap_singleton']
      exact few .boxes
    rw [sameEntry one left right (List.mem_singleton.mpr rfl) (List.mem_singleton.mpr rfl)]
  | .box (.call k), .box (.call l) =>
    rw [calls left right (List.mem_singleton.mpr rfl) (List.mem_singleton.mpr rfl)]
  | .box (.call k), .token (.call l) =>
    rcases right with ⟨_,right⟩ | ⟨_,_,right⟩ <;>
      · cases calls left right (List.mem_singleton.mpr rfl) (List.mem_singleton.mpr rfl)
        cases left.symm.trans right
  | .token (.call k), .box (.call l) =>
    rcases left with ⟨_,left⟩ | ⟨_,_,left⟩ <;>
      · cases calls left right (List.mem_singleton.mpr rfl) (List.mem_singleton.mpr rfl)
        cases left.symm.trans right
  | .token (.call k), .token (.call l) =>
    rcases left with ⟨_,left⟩ | ⟨_,_,left⟩ <;> rcases right with ⟨_,right⟩ | ⟨_,_,right⟩ <;>
      rw [calls left right (List.mem_singleton.mpr rfl) (List.mem_singleton.mpr rfl)]
  | .current h, .current x =>
    obtain ⟨q,found,some_,current⟩ := left
    obtain ⟨r,seen,many,same⟩ := right
    rw [sameEntry (few .handles) found seen (by simp [PublicationState.holding,some_,current])
      (by simp [PublicationState.holding,many,same])]
  | .token (.pool k), .token (.pool l) =>
    obtain ⟨t,found,pointer⟩ := left
    obtain ⟨r,seen,same⟩ := right
    rw [sameEntry (few .tokens) found seen (by simp [RetiredDspGraph.holding,pointer])
      (by simp [RetiredDspGraph.holding,same])]

theorem placeOwned (owned : 0 < owning s p) : ∃ place : Place, place.has s p := by
  have somewhere : 0 < s.boxes.count p ∨ 0 < tally RetiredDspGraph.holding s.tokens p ∨
      0 < tally PublicationState.holding s.handles p ∨ 0 < tally Call.holding s.calls p := by
    unfold owning at owned
    omega
  rcases somewhere with boxes | tokens | handles | calls
  · obtain ⟨k,found⟩ := List.mem_iff_getElem?.mp (List.count_pos_iff.mp boxes)
    exact ⟨.box (.pool k),found⟩
  · obtain ⟨t,mem,held⟩ := (tallyPositive _).mp tokens
    obtain ⟨k,found⟩ := List.mem_iff_getElem?.mp mem
    exact ⟨.token (.pool k),t,found,(List.mem_singleton.mp held).symm⟩
  · obtain ⟨q,mem,held⟩ := (tallyPositive _).mp handles
    obtain ⟨h,found⟩ := List.mem_iff_getElem?.mp mem
    unfold PublicationState.holding at held
    split at held
    · cases held
    · rename_i some_
      exact ⟨.current h,q,found,some_,(List.mem_singleton.mp held).symm⟩
  · obtain ⟨c,mem,held⟩ := (tallyPositive _).mp calls
    obtain ⟨k,found⟩ := List.mem_iff_getElem?.mp mem
    cases c with
    | swapCount handle old =>
      cases List.mem_singleton.mp held
      exact ⟨.token (.call k),.inl ⟨handle,found⟩⟩
    | recover state pointer reclaim =>
      cases List.mem_singleton.mp held
      exact ⟨.token (.call k),.inr ⟨state,reclaim,found⟩⟩
    | discard pointer =>
      cases List.mem_singleton.mp held
      exact ⟨.box (.call k),found⟩
    | _ => cases held

theorem liesHeld {f : Fate} {graph : Nat} {place : Place} (has : place.has s p) (held : s.heap p = some graph) :
    Lies s f graph place := by
  match place with
  | .box hand => exact ⟨p,has,held⟩
  | .current handle => exact ⟨p,has,held⟩
  | .token hand => exact ⟨p,has,held⟩

theorem liesCases {f : Fate} {graph : Nat} {place : Place} (lies : Lies s f graph place) :
    (place = .leaked ∧ graph ∈ f.leaked) ∨ (place = .freed ∧ graph ∈ f.freed) ∨
      ∃ p, place.has s p ∧ s.heap p = some graph := by
  match place with
  | .leaked => exact .inl ⟨rfl,lies⟩
  | .freed => exact .inr (.inl ⟨rfl,lies⟩)
  | .box hand => exact .inr (.inr lies)
  | .current handle => exact .inr (.inr lies)
  | .token hand => exact .inr (.inr lies)

theorem hasOwning {place : Place} (has : place.has s p) : 0 < owning s p :=
  Nat.lt_of_lt_of_le (hasShare has) (shareOwning place.pool)

theorem onePlace {f : Fate} {graph : Nat} (inv : Owned s) (booked : Booked s f) (made : graph < s.created) :
    ∃! place, Lies s f graph place := by
  by_cases somewhere : ∃ p, s.heap p = some graph
  · obtain ⟨p,held⟩ := somewhere
    have here : ∀ {r}, s.heap r = some graph → r = p := fun other => booked.single _ _ graph other held
    have kept : graph ∉ f.freed := fun gone => ((booked.freed graph).mp gone).2 p held
    by_cases alone : owning s p = 0
    · refine ⟨.leaked,(booked.leaked graph).mpr ⟨p,held,alone⟩,?_⟩
      intro place lies
      rcases liesCases lies with ⟨rfl,_⟩ | ⟨_,gone⟩ | ⟨r,has,other⟩
      · rfl
      · exact absurd gone kept
      · cases here other
        exact absurd alone (hasOwning has).ne'
    · obtain ⟨place,has⟩ := placeOwned (Nat.pos_of_ne_zero alone)
      refine ⟨place,liesHeld has held,?_⟩
      intro place' lies
      rcases liesCases lies with ⟨_,lost⟩ | ⟨_,gone⟩ | ⟨r,has',other⟩
      · obtain ⟨r,other,none_⟩ := (booked.leaked graph).mp lost
        cases here other
        exact absurd none_ alone
      · exact absurd gone kept
      · cases here other
        exact placeUnique (inv.ledger.sole p) has' has
  · refine ⟨.freed,(booked.freed graph).mpr ⟨made,fun p held => somewhere ⟨p,held⟩⟩,?_⟩
    intro place lies
    rcases liesCases lies with ⟨_,lost⟩ | ⟨rfl,_⟩ | ⟨p,_,held⟩
    · obtain ⟨p,held,_⟩ := (booked.leaked graph).mp lost
      exact absurd ⟨p,held⟩ somewhere
    · rfl
    · exact absurd ⟨p,held⟩ somewhere

end Places

section Steps
variable {s s' : Shared} {out : List Event}

theorem refusedKept {token : Nat} {reclaim : Bool} {t : RetiredDspGraph}
    (ok : step s (.tryIntoBox token reclaim) = some (s',out)) (refused : .refused t ∈ out) :
    s.tokens[token]? = some t ∧ s' = s := by
  obtain ⟨⟨t',rest⟩,picked,ok⟩ := Option.bind_eq_some_iff.mp ok
  obtain ⟨q,_,last⟩ := Option.bind_eq_some_iff.mp ok
  obtain ⟨_,found,same⟩ := Option.map_eq_some_iff.mp picked
  cases same
  split at last <;> cases Option.some.inj last
  · cases List.mem_singleton.mp refused
    exact ⟨found,rfl⟩
  · cases refused

theorem lastDrop {action : Action} (inv : Owned s) (borrowed : Borrowed s) (ok : step s action = some (s',out)) {h : Nat}
    {q q' : PublicationState} (found : s.handles[h]? = some q) (after : s'.handles[h]? = some q') (some_ : q.strong ≠ 0)
    (none_ : q'.strong = 0) : gonePointers out = [q.current] := by
  rcases stepEffect inv borrowed ok with ⟨_,makes,_⟩ | effect
  · rw [makes.handles] at after
    cases Option.some.inj (found.symm.trans after)
    exact absurd none_ some_
  · exact effect.final h q q' found after some_ none_

theorem freedAllocated {action : Action} (inv : Owned s) (borrowed : Borrowed s) (ok : step s action = some (s',out))
    {pointer : Nat} (freed : .freed pointer ∈ out) : s.heap pointer ≠ none := by
  have gone : pointer ∈ gonePointers out := List.mem_filterMap.mpr ⟨_,freed,rfl⟩
  rcases stepEffect inv borrowed ok with ⟨_,_,_,rfl⟩ | effect
  · cases freed
  · have own := effect.owning pointer
    have taken := List.count_pos_iff.mpr gone
    exact inv.ledger.backed pointer (by omega)

end Steps

theorem graphsConserved {actions : List Action} {s : Shared} {events : List Event}
    (ok : run step init actions = some (s,events)) :
    ∃ f, run (beside step note) (init,⟨[],[]⟩) actions = some ((s,f),events) ∧
      (∀ graph, graph < s.created → ∃! place, Lies s f graph place) ∧ f.freed.Nodup ∧
      (∀ (h : Nat) (q : PublicationState), s.handles[h]? = some q → q.strong ≠ 0 →
        ∃ graph, s.heap q.current = some graph ∧ graph ∉ f.freed) ∧
      (∀ token reclaim s' out t, step s (.tryIntoBox token reclaim) = some (s',out) → .refused t ∈ out →
        s.tokens[token]? = some t ∧ s' = s) ∧
      (∀ action s' out pointer, step s action = some (s',out) → .freed pointer ∈ out → s.heap pointer ≠ none) ∧
      (∀ (action : Action) (s' : Shared) (out : List Event) (h : Nat) (q q' : PublicationState),
        step s action = some (s',out) → s.handles[h]? = some q → s'.handles[h]? = some q' → q.strong ≠ 0 →
        q'.strong = 0 → gonePointers out = [q.current]) := by
  obtain ⟨f,noted⟩ := runBeside note ok ⟨[],[]⟩
  obtain ⟨safe,booked⟩ := runBooked noted
  have borrowed := safe.pinned.borrowed
  refine ⟨f,noted,fun graph made => onePlace safe.owned booked made,booked.once,?_,fun _ _ _ _ _ => refusedKept,
    fun _ _ _ _ moved => freedAllocated safe.owned borrowed moved,
    fun _ _ _ _ _ _ moved => lastDrop safe.owned borrowed moved⟩
  intro h q found some_
  have has : (Place.current h).has s q.current := ⟨q,found,some_,rfl⟩
  obtain ⟨graph,held⟩ := Option.ne_none_iff_exists'.mp (safe.owned.ledger.backed q.current (hasOwning has))
  exact ⟨graph,held,fun gone => ((booked.freed graph).mp gone).2 q.current held⟩

/- Graph 0 is leaked with its token, graph 1 is reclaimed, graph 2 is current and
graph 3 lies in a box at the address that graph 1 had. -/
def scattered : List Action :=
  [.compile 1,.new 0,.compile 2,.swap 0 0,.advance 0,.compile 3,.swap 0 0,.advance 0,.dropToken 1,.tryIntoBox 0 true,
    .advance 0,.advance 0,.compile 2]

theorem graphsConservedScattered : ∃ s events f, run step init scattered = some (s,events) ∧
    run (beside step note) (init,⟨[],[]⟩) scattered = some ((s,f),events) ∧ s.created = 4 ∧ f = ⟨[0],[1]⟩ ∧
    ∀ graph, graph < 4 → ∃! place, Lies s f graph place := by
  have tested : (run (beside step note) (init,⟨[],[]⟩) scattered).any (fun r =>
      decide (r.1.1.created = 4 ∧ r.1.2 = ⟨[0],[1]⟩)) = true := by decide
  have runs : (run step init scattered).isSome = true := by decide
  obtain ⟨⟨s,events⟩,ran⟩ := Option.isSome_iff_exists.mp runs
  obtain ⟨⟨⟨s',f'⟩,_⟩,noted',facts⟩ := (Option.any_eq_true _ _).mp tested
  obtain ⟨f,noted,places,_⟩ := graphsConserved ran
  cases Option.some.inj (noted.symm.trans noted')
  obtain ⟨four,fate⟩ := of_decide_eq_true facts
  exact ⟨s,events,f',ran,noted,four,fate,fun graph low => places graph (four.symm ▸ low)⟩

end Riaps.Publication
