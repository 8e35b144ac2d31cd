import Riaps.Publication

/-! Who owns a graph. Boxes, tokens, the current slots and some calls in flight own
one address each; no address has two owners and an owned address is allocated. A
step makes a graph, or it takes away exactly the owners of what it leaks and frees.
The reference count of a state is the handle, if it is still there, and every
token or recovery that refers to it. -/
namespace Riaps.Publication
open Library.Pools

def PublicationState.holding (q : PublicationState) : List Nat := if q.strong = 0 then [] else [q.current]

def RetiredDspGraph.holding (t : RetiredDspGraph) : List Nat := [t.pointer]

def RetiredDspGraph.claims (t : RetiredDspGraph) : List Nat := [t.state]

def Call.holding : Call → List Nat
  | .swapCount _ old => [old]
  | .recover _ pointer _ => [pointer]
  | .discard pointer => [pointer]
  | _ => []

def Call.claims : Call → List Nat
  | .recover state _ _ => [state]
  | _ => []

def owning (s : Shared) (p : Nat) : Nat :=
  s.boxes.count p + tally RetiredDspGraph.holding s.tokens p + tally PublicationState.holding s.handles p +
    tally Call.holding s.calls p

def claiming (s : Shared) (h : Nat) : Nat := tally RetiredDspGraph.claims s.tokens h + tally Call.claims s.calls h

structure Ledger (heap : Nat → Option Nat) (own : Nat → Nat) : Prop where
  null : heap 0 = none
  sole : ∀ p, own p ≤ 1
  backed : ∀ p, 0 < own p → heap p ≠ none

section Ledgers
variable {heap : Nat → Option Nat} {own own' : Nat → Nat}

theorem Ledger.fewer (ledger : Ledger heap own) (less : ∀ p, own' p ≤ own p) : Ledger heap own' :=
  ⟨ledger.null,fun p => (less p).trans (ledger.sole p),fun p held => ledger.backed p (Nat.lt_of_lt_of_le held (less p))⟩

theorem Ledger.spent {heap' : Nat → Option Nat} {lost gone : List Nat} (ledger : Ledger heap own)
    (after : ∀ p, heap' p = if p ∈ gone then none else heap p)
    (less : ∀ p, own' p + lost.count p + gone.count p = own p) : Ledger heap' own' := by
  have fewer : ∀ p, own' p ≤ own p := fun p => by have counts := less p; omega
  refine ⟨?_,fun p => (fewer p).trans (ledger.sole p),?_⟩
  · rw [after,ledger.null,ite_self]
  · intro p held
    have one := ledger.sole p
    have counts := less p
    have kept : p ∉ gone := List.count_eq_zero.mp (by omega)
    rw [after,if_neg kept]
    exact ledger.backed p (by omega)

theorem Ledger.created (ledger : Ledger heap own) {pointer graph : Nat} (nonnull : pointer ≠ 0)
    (unused : heap pointer = none) (more : ∀ p, own' p = own p + [pointer].count p) :
    Ledger (Function.update heap pointer (some graph)) own' := by
  have unheld : own pointer = 0 := by
    by_contra held
    exact ledger.backed pointer (Nat.pos_of_ne_zero held) unused
  refine ⟨by rw [Function.update_of_ne nonnull.symm]; exact ledger.null,?_,?_⟩
  · intro p
    rw [more]
    by_cases same : p = pointer
    · simp [same,unheld]
    · simpa [List.count_singleton,Ne.symm same] using ledger.sole p
  · intro p held
    by_cases same : p = pointer
    · simp [same]
    · rw [Function.update_of_ne same]
      rw [more] at held
      exact ledger.backed p (by simpa [List.count_singleton,Ne.symm same] using held)

end Ledgers

structure Counted (handles : List PublicationState) (claims : Nat → Nat) : Prop where
  strong : ∀ h q, handles[h]? = some q → q.strong = (if q.owned then 1 else 0) + claims h
  placed : ∀ h, 0 < claims h → h < handles.length

section Handles
variable {handles : List PublicationState} {claims claims' : Nat → Nat} {h : Nat} {q q' : PublicationState}

theorem Counted.write (counted : Counted handles claims) (found : handles[h]? = some q)
    (others : ∀ x, x ≠ h → claims' x = claims x) (here : q'.strong = (if q'.owned then 1 else 0) + claims' h) :
    Counted (handles.set h q') claims' := by
  constructor
  · intro x r seen
    rcases lookupSet seen with ⟨rfl,rfl⟩ | ⟨apart,old⟩
    · exact here
    · rw [others x apart]
      exact counted.strong x r old
  · intro x held
    rw [List.length_set]
    by_cases same : x = h
    · subst same
      exact (List.getElem?_eq_some_iff.mp found).1
    · exact counted.placed x (others x same ▸ held)

theorem Counted.grow (counted : Counted handles claims) (here : q'.strong = if q'.owned then 1 else 0) :
    Counted (handles ++ [q']) claims := by
  constructor
  · intro x r seen
    rcases lookupSnoc seen with old | ⟨rfl,rfl⟩
    · exact counted.strong x r old
    · have none_ : claims handles.length = 0 := by
        by_contra held
        exact Nat.lt_irrefl _ (counted.placed _ (Nat.pos_of_ne_zero held))
      rw [none_,here]
      rfl
  · intro x held
    have old := counted.placed x held
    simp
    omega

theorem Counted.same {handles' : List PublicationState} (counted : Counted handles claims) (equal : handles' = handles)
    (kept : ∀ x, claims' x = claims x) : Counted handles' claims' := by
  rw [equal,funext kept]
  exact counted

theorem Counted.rewrite (counted : Counted handles claims) (found : handles[h]? = some q) (strong : q'.strong = q.strong)
    (owned : q'.owned = q.owned) (kept : ∀ x, claims' x = claims x) : Counted (handles.set h q') claims' := by
  refine counted.write found (fun x _ => kept x) ?_
  rw [strong,owned,kept]
  exact counted.strong h q found

end Handles

structure Owned (s : Shared) : Prop where
  ledger : Ledger s.heap (owning s)
  counted : Counted s.handles (claiming s)

theorem releaseCases {s s' : Shared} {h : Nat} {out : List Event} (ok : release s h = some (s',out)) :
    ∃ q, s.handles[h]? = some q ∧
      ((q.strong = 1 ∧ q.current = 0 ∧ s' = update s h {q with strong := 0} ∧ ∀ e ∈ out, Quiet e) ∨
       (q.strong = 1 ∧ q.current ≠ 0 ∧ s' = free (update s h {q with strong := 0}) q.current ∧
         ∀ e ∈ out, Quiet e ∨ e = .freed q.current) ∨
       (q.strong ≠ 1 ∧ s' = update s h {q with strong := q.strong - 1} ∧ out = [])) := by
  obtain ⟨q,found,last⟩ := Option.bind_eq_some_iff.mp ok
  refine ⟨q,found,?_⟩
  split at last
  · rename_i single
    have same := Option.some.inj last
    by_cases null : q.current = 0
    · simp only [dropState,if_pos null] at same
      cases same
      refine .inl ⟨single,null,rfl,?_⟩
      split <;> simp [Quiet]
    · simp only [dropState,if_neg null] at same
      cases same
      refine .inr (.inl ⟨single,null,rfl,?_⟩)
      split <;> simp [Quiet]
  · rename_i several
    cases Option.some.inj last
    exact .inr (.inr ⟨several,rfl,rfl⟩)

section Alive
variable {s : Shared}

def Borrowed (s : Shared) : Prop := ∀ h ∈ borrows s, ∃ q, s.handles[h]? = some q ∧ q.owned = true

theorem Owned.alive (inv : Owned s) (borrowed : Borrowed s) {h : Nat} {q : PublicationState} (mem : h ∈ borrows s)
    (found : s.handles[h]? = some q) : q.strong = 1 + claiming s h := by
  have strong := inv.counted.strong h q found
  obtain ⟨r,same,owned⟩ := borrowed h mem
  cases Option.some.inj (found.symm.trans same)
  rwa [if_pos owned] at strong

theorem callBorrows {c : Call} {rest : List Call} {h : Nat} (taken : s.calls.Perm (c :: rest)) (mem : h ∈ c.borrows) :
    h ∈ borrows s :=
  List.mem_append_right _ (List.mem_flatMap.mpr ⟨c,taken.mem_iff.mpr List.mem_cons_self,mem⟩)

end Alive

def gonePointers (out : List Event) : List Nat := out.filterMap (fun e =>
  match e with
  | .freed pointer => some pointer
  | _ => none)

structure Effect (s s' : Shared) (lost gone : List Nat) : Prop where
  created : s'.created = s.created
  heap : ∀ p, s'.heap p = if p ∈ gone then none else s.heap p
  owning : ∀ p, owning s' p + lost.count p + gone.count p = owning s p
  final : ∀ (h : Nat) (q q' : PublicationState), s.handles[h]? = some q → s'.handles[h]? = some q' → q.strong ≠ 0 →
    q'.strong = 0 → gone = [q.current]

structure Makes (s s' : Shared) (address : Nat) : Prop where
  nonnull : address ≠ 0
  unused : s.heap address = none
  created : s'.created = s.created + 1
  handles : s'.handles = s.handles
  heap : s'.heap = Function.update s.heap address (some s.created)
  owning : ∀ p, owning s' p = owning s p + [address].count p

section Effects
variable {s s' : Shared}

def Survives (s s' : Shared) : Prop :=
  ∀ (h : Nat) (q q' : PublicationState), s.handles[h]? = some q → s'.handles[h]? = some q' → q.strong ≠ 0 →
    q'.strong ≠ 0

theorem survivesSame (handles : s'.handles = s.handles) : Survives s s' := by
  intro h q q' found after some_
  rw [handles] at after
  cases Option.some.inj (found.symm.trans after)
  exact some_

theorem survivesWrite {h : Nat} {q q' : PublicationState} (found : s.handles[h]? = some q)
    (handles : s'.handles = s.handles.set h q') (more : q.strong ≤ q'.strong) : Survives s s' := by
  intro x r r' before after some_
  rw [handles] at after
  rcases lookupSet after with ⟨rfl,rfl⟩ | ⟨_,old⟩
  · cases Option.some.inj (found.symm.trans before)
    omega
  · cases Option.some.inj (before.symm.trans old)
    exact some_

theorem Effect.still (created : s'.created = s.created) (heap : s'.heap = s.heap)
    (own : ∀ p, Publication.owning s' p = Publication.owning s p) (survives : Survives s s') : Effect s s' [] [] := by
  refine ⟨created,by simp [heap],by simpa using own,?_⟩
  intro h q q' found after some_ none_
  exact absurd none_ (survives h q q' found after some_)

theorem Effect.free {moved : Shared} {pointer : Nat} (created : moved.created = s.created) (heap : moved.heap = s.heap)
    (own : ∀ p, Publication.owning moved p + [pointer].count p = Publication.owning s p) (survives : Survives s moved) :
    Effect s (Publication.free moved pointer) [] [pointer] := by
  refine ⟨created,?_,own,?_⟩
  · intro p
    by_cases same : p = pointer
    · simp [Publication.free,same]
    · simp [Publication.free,same,heap]
  · intro h q q' found after some_ none_
    exact absurd none_ (survives h q q' found after some_)

theorem Effect.after {moved : Shared} {lost gone : List Nat} (effect : Effect moved s' [] gone)
    (created : moved.created = s.created) (heap : moved.heap = s.heap)
    (own : ∀ p, Publication.owning moved p + lost.count p = Publication.owning s p)
    (kept : ∀ (h : Nat) (q : PublicationState), s.handles[h]? = some q →
      ∃ r : PublicationState, moved.handles[h]? = some r ∧ r.strong = q.strong ∧ r.current = q.current) :
    Effect s s' lost gone := by
  refine ⟨effect.created.trans created,heap ▸ effect.heap,?_,?_⟩
  · intro p
    have before := own p
    have after := effect.owning p
    simp only [List.count_nil] at after
    omega
  · intro h q q' found after some_ none_
    obtain ⟨r,seen,strong,current⟩ := kept h q found
    rw [← current]
    exact effect.final h r q' seen after (strong ▸ some_) none_

theorem keptSame (h : Nat) (q : PublicationState) (found : s.handles[h]? = some q) :
    ∃ r : PublicationState, s.handles[h]? = some r ∧ r.strong = q.strong ∧ r.current = q.current := ⟨q,found,rfl,rfl⟩

theorem releaseEffect {h : Nat} {out : List Event} (ledger : Ledger s.heap (owning s))
    (ok : release s h = some (s',out)) : Effect s s' [] (gonePointers out) := by
  obtain ⟨q,found,last⟩ := Option.bind_eq_some_iff.mp ok
  have holding : ∀ (n p : Nat), tally PublicationState.holding (s.handles.set h {q with strong := n}) p + q.holding.count p =
      tally PublicationState.holding s.handles p + ({q with strong := n} : PublicationState).holding.count p :=
    fun n p => tallySet PublicationState.holding found _ p
  split at last
  · rename_i single
    have mine : 0 < tally PublicationState.holding s.handles q.current :=
      (tallyPositive _).mpr ⟨q,List.mem_of_getElem? found,by simp [PublicationState.holding,single]⟩
    have nonnull : q.current ≠ 0 := by
      intro null
      rw [null] at mine
      exact ledger.backed 0 (by unfold owning; omega) ledger.null
    have result := Option.some.inj last
    simp only [dropState,if_neg nonnull] at result
    obtain ⟨rfl,rfl⟩ := Prod.mk.inj result
    have gone : gonePointers ((if q.pinActive then [.assertionFailed h] else []) ++ [.freed q.current]) = [q.current] := by
      split <;> rfl
    rw [gone]
    refine ⟨rfl,?_,?_,?_⟩
    · intro p
      by_cases same : p = q.current
      · simp [free,update,same]
      · simp [free,update,same]
    · intro p
      have moved := holding 0 p
      simp only [PublicationState.holding,single] at moved
      simp only [owning,update,free]
      simp at moved ⊢
      omega
    · intro x r r' before after some_ none_
      rcases lookupSet after with ⟨rfl,rfl⟩ | ⟨_,old⟩
      · cases Option.some.inj (found.symm.trans before)
        rfl
      · cases Option.some.inj (before.symm.trans old)
        exact absurd none_ some_
  · rename_i several
    cases Option.some.inj last
    refine Effect.still rfl rfl ?_ ?_
    · intro p
      have moved := holding (q.strong - 1) p
      have same : ({q with strong := q.strong - 1} : PublicationState).holding = q.holding := by
        have both : q.strong - 1 = 0 ↔ q.strong = 0 := by omega
        simp only [PublicationState.holding,both]
      rw [same] at moved
      simp only [owning,update]
      omega
    · intro x r r' before after some_
      rcases lookupSet after with ⟨rfl,rfl⟩ | ⟨_,old⟩
      · cases Option.some.inj (found.symm.trans before)
        simp only
        omega
      · cases Option.some.inj (before.symm.trans old)
        exact some_

theorem dropTokenEffect {t : RetiredDspGraph} {rest : List RetiredDspGraph} {out : List Event} (inv : Owned s)
    (taken : s.tokens.Perm (t :: rest)) (released : release {s with tokens := rest} t.state = some (s',out)) :
    Effect s s' [t.pointer] (gonePointers out) := by
  have own : ∀ p, owning {s with tokens := rest} p + [t.pointer].count p = owning s p := by
    intro p
    have pool := tallyPerm RetiredDspGraph.holding taken p
    simp only [owning,tallyCons,RetiredDspGraph.holding] at pool ⊢
    omega
  have ledger : Ledger s.heap (owning {s with tokens := rest}) :=
    inv.ledger.fewer (fun p => Nat.le_of_add_right_le (own p).le)
  exact (releaseEffect ledger released).after rfl rfl own keptSame

theorem releaseKeeps {h : Nat} {out : List Event} (ok : release s h = some (s',out)) :
    s'.boxes = s.boxes ∧ s'.tokens = s.tokens ∧ s'.guards = s.guards ∧ s'.calls = s.calls := by
  obtain ⟨q,_,cases_⟩ := releaseCases ok
  rcases cases_ with ⟨_,_,rfl,_⟩ | ⟨_,_,rfl,_⟩ | ⟨_,rfl,_⟩ <;> exact ⟨rfl,rfl,rfl,rfl⟩

theorem rewriteHolding {h : Nat} {q : PublicationState} (found : s.handles[h]? = some q) (q' : PublicationState)
    (same : q'.holding = q.holding) (p : Nat) :
    tally PublicationState.holding (s.handles.set h q') p = tally PublicationState.holding s.handles p := by
  have moved := tallySet PublicationState.holding found q' p
  rw [same] at moved
  omega

theorem gonePointersQuiet {out : List Event} (quiet : ∀ e ∈ out, Quiet e) : gonePointers out = [] := by
  apply List.filterMap_eq_nil_iff.mpr
  intro e mem
  have silent := quiet e mem
  cases e <;> first | rfl | exact silent.elim

theorem Effect.recall (guards : List DspGraphReadGuard) (calls : List Call) (pins : Nat)
    (held : ∀ p, tally Call.holding calls p = tally Call.holding s.calls p) :
    Effect s {s with guards := guards, calls := calls, pins := pins} [] [] := by
  refine .still rfl rfl ?_ (survivesSame rfl)
  intro p
  simp only [Publication.owning,held]

theorem Effect.rewrite {h : Nat} {q : PublicationState} (found : s.handles[h]? = some q) (q' : PublicationState)
    (strong : q'.strong = q.strong) (current : q'.current = q.current) (guards : List DspGraphReadGuard)
    (calls : List Call) (pins : Nat) (held : ∀ p, tally Call.holding calls p = tally Call.holding s.calls p) :
    Effect s {update s h q' with guards := guards, calls := calls, pins := pins} [] [] := by
  have same : q'.holding = q.holding := by simp only [PublicationState.holding,strong,current]
  refine .still rfl rfl ?_ (survivesWrite found rfl strong.ge)
  intro p
  simp only [Publication.owning,update,held,rewriteHolding found q' same p]

/-- What a step does to the owners: it makes a graph, or it takes away the owners of
what it leaks and frees. Only a dropped token leaves its pool for nothing. -/
theorem moveEffect {out : List Event} (inv : Owned s) (borrowed : Borrowed s) (moved : Moves s out s') :
    (∃ address, Makes s s' address ∧ out = []) ∨ ∃ lost, Effect s s' lost (gonePointers out) ∧
      (lost = [] ∨ s'.tokens.length < s.tokens.length ∧ s'.calls.length = s.calls.length) := by
  cases moved with
  | idle quiet =>
    rw [gonePointersQuiet quiet]
    exact .inr ⟨[],.still rfl rfl (fun _ => rfl) (survivesSame rfl),.inl rfl⟩
  | @compile address nonnull unused =>
    refine .inl ⟨address,⟨nonnull,unused,rfl,rfl,rfl,?_⟩,rfl⟩
    intro p
    simp only [owning,List.count_cons,List.count_nil]
    omega
  | @dropBox pointer rest taken =>
    refine .inr ⟨[],.free rfl rfl ?_ (survivesSame rfl),.inl rfl⟩
    intro p
    have pool := taken.count_eq p
    simp only [owning,List.count_cons,List.count_nil] at pool ⊢
    omega
  | @new pointer rest taken =>
    refine .inr ⟨[],.still rfl rfl ?_ ?_,.inl rfl⟩
    · intro p
      have pool := taken.count_eq p
      have fresh : (⟨pointer,1,0,false,1,true⟩ : PublicationState).holding = [pointer] := rfl
      simp only [owning,tallySnoc,fresh,List.count_cons,List.count_nil] at pool ⊢
      omega
    · intro h q q' found after some_
      rcases lookupSnoc after with old | ⟨rfl,rfl⟩
      · cases Option.some.inj (found.symm.trans old)
        exact some_
      · exact Nat.one_ne_zero
  | @tryPin handle q found owned free =>
    exact .inr ⟨[],.rewrite found {q with pinActive := true} rfl rfl _ (.pinLoad s.pins handle :: s.calls) _
      (by simp [Call.holding]),.inl rfl⟩
  | @dropGuard g rest q taken found =>
    exact .inr ⟨[],.rewrite found {q with hazard := 0} rfl rfl _ (.unpin g.handle :: s.calls) _
      (by simp [Call.holding]),.inl rfl⟩
  | @swap handle q pointer rest found owned taken =>
    have some_ : q.strong ≠ 0 := by
      rw [inv.counted.strong handle q found,if_pos owned]
      omega
    refine .inr ⟨[],.still rfl rfl ?_ (survivesWrite found rfl (Nat.le_refl _)),.inl rfl⟩
    intro p
    have pool := taken.count_eq p
    have moved := tallySet PublicationState.holding found {q with current := pointer} p
    simp only [PublicationState.holding,some_,if_false] at moved
    simp only [owning,update,tallyCons,Call.holding,List.count_cons,List.count_nil] at pool moved ⊢
    omega
  | @tryIntoBox t rest q reclaim taken found clear =>
    refine .inr ⟨[],.still rfl rfl ?_ (survivesSame rfl),.inl rfl⟩
    intro p
    have pool := tallyPerm RetiredDspGraph.holding taken p
    simp only [owning,tallyCons,Call.holding,RetiredDspGraph.holding] at pool ⊢
    omega
  | @dropToken t rest s' out taken released =>
    obtain ⟨_,tokens,_,calls⟩ := releaseKeeps released
    have fewer := taken.length_eq
    refine .inr ⟨[t.pointer],dropTokenEffect inv taken released,.inr ⟨?_,by rw [calls]⟩⟩
    rw [tokens,fewer]
    exact Nat.lt_succ_self _
  | @dropHandle handle q s' out found owned unused released =>
    have own : ∀ p, owning (update s handle {q with owned := false}) p = owning s p := by
      intro p
      simp only [owning,update,rewriteHolding found {q with owned := false} rfl p]
    have ledger : Ledger s.heap (owning (update s handle {q with owned := false})) := inv.ledger.fewer (fun p => (own p).le)
    refine .inr ⟨[],(releaseEffect ledger released).after rfl rfl own ?_,.inl rfl⟩
    intro h r seen
    by_cases same : h = handle
    · subst same
      cases Option.some.inj (found.symm.trans seen)
      exact ⟨{q with owned := false},List.getElem?_set_self (List.getElem?_eq_some_iff.mp found).1,rfl,rfl⟩
    · exact ⟨r,(List.getElem?_set_ne (Ne.symm same)).trans seen,rfl,rfl⟩
  | pinLoad taken found =>
    exact .inr ⟨[],.recall _ _ _ (fun p => by simp [tallyPerm Call.holding taken p,Call.holding]),.inl rfl⟩
  | @pinPublish call handle pointer q rest taken found =>
    exact .inr ⟨[],.rewrite found {q with hazard := pointer} rfl rfl _ (.pinValidate call handle pointer :: rest) _
      (fun p => by simp [tallyPerm Call.holding taken p,Call.holding]),.inl rfl⟩
  | pinValid taken found current =>
    exact .inr ⟨[],.recall _ _ _ (fun p => by simp [tallyPerm Call.holding taken p,Call.holding]),.inl rfl⟩
  | pinRetry taken =>
    exact .inr ⟨[],.recall _ _ _ (fun p => by simp [tallyPerm Call.holding taken p,Call.holding]),.inl rfl⟩
  | @unpin handle q rest taken found =>
    exact .inr ⟨[],.rewrite found {q with pinActive := false} rfl rfl _ rest _
      (fun p => by simp [tallyPerm Call.holding taken p,Call.holding]),.inl rfl⟩
  | @swapCount handle old q rest taken found =>
    have some_ : q.strong ≠ 0 := by
      have count := inv.alive borrowed (callBorrows taken (List.mem_singleton.mpr rfl)) found
      omega
    refine .inr ⟨[],.still rfl rfl ?_ (survivesWrite found rfl (Nat.le_succ _)),.inl rfl⟩
    intro p
    have pool := tallyPerm Call.holding taken p
    have moved := tallySet PublicationState.holding found
      {q with version := Library.Wrapping.wrappingAdd 64 q.version 1, strong := q.strong + 1} p
    simp only [PublicationState.holding,some_,if_false,Nat.add_one_ne_zero] at moved
    simp only [owning,update,tallyCons,Call.holding,RetiredDspGraph.holding] at pool ⊢
    omega
  | @recoverBox state pointer rest s' out taken released =>
    have own : ∀ p, owning {s with boxes := pointer :: s.boxes, calls := rest} p = owning s p := by
      intro p
      have pool := tallyPerm Call.holding taken p
      simp only [owning,tallyCons,Call.holding,List.count_cons,List.count_nil] at pool ⊢
      omega
    have ledger : Ledger s.heap (owning {s with boxes := pointer :: s.boxes, calls := rest}) :=
      inv.ledger.fewer (fun p => (own p).le)
    exact .inr ⟨[],(releaseEffect ledger released).after rfl rfl own keptSame,.inl rfl⟩
  | @reclaimBox state pointer rest s' out taken released =>
    have own : ∀ p, owning {s with calls := .discard pointer :: rest} p = owning s p := by
      intro p
      have pool := tallyPerm Call.holding taken p
      simp only [owning,tallyCons,Call.holding] at pool ⊢
      omega
    have ledger : Ledger s.heap (owning {s with calls := .discard pointer :: rest}) :=
      inv.ledger.fewer (fun p => (own p).le)
    exact .inr ⟨[],(releaseEffect ledger released).after rfl rfl own keptSame,.inl rfl⟩
  | @discard pointer rest taken =>
    refine .inr ⟨[],.free rfl rfl ?_ (survivesSame rfl),.inl rfl⟩
    intro p
    have pool := tallyPerm Call.holding taken p
    simp only [owning,tallyCons,Call.holding] at pool ⊢
    omega

theorem stepLedger {out : List Event} (inv : Owned s) (borrowed : Borrowed s) (moved : Moves s out s') :
    Ledger s'.heap (owning s') := by
  rcases moveEffect inv borrowed moved with ⟨address,makes,_⟩ | ⟨lost,effect,_⟩
  · rw [makes.heap]
    exact inv.ledger.created makes.nonnull makes.unused makes.owning
  · exact inv.ledger.spent effect.heap effect.owning

end Effects

section Claims
variable {s s' : Shared}

theorem releaseCounted {h : Nat} {out : List Event} (counted : Counted s.handles (fun x => claiming s x + [h].count x))
    (ok : release s h = some (s',out)) : Counted s'.handles (claiming s') := by
  obtain ⟨q,found,cases_⟩ := releaseCases ok
  have strong := counted.strong h q found
  simp only [List.count_singleton_self] at strong
  have others : ∀ x, x ≠ h → claiming s x = claiming s x + [h].count x := by
    intro x apart
    simp [Ne.symm apart]
  rcases cases_ with ⟨single,_,rfl,_⟩ | ⟨single,_,rfl,_⟩ | ⟨several,rfl,_⟩
  · have here : 0 = (if q.owned then 1 else 0) + claiming s h := by omega
    exact counted.write found others here
  · have here : 0 = (if q.owned then 1 else 0) + claiming s h := by omega
    exact counted.write found others here
  · have here : q.strong - 1 = (if q.owned then 1 else 0) + claiming s h := by omega
    exact counted.write found others here

theorem stepCounted {out : List Event} (inv : Counted s.handles (claiming s)) (moved : Moves s out s') :
    Counted s'.handles (claiming s') := by
  cases moved with
  | idle quiet => exact inv
  | compile nonnull unused => exact inv
  | dropBox taken => exact inv
  | new taken => exact inv.grow rfl
  | tryPin found owned free => exact inv.rewrite found rfl rfl (fun x => by simp [claiming,update,Call.claims])
  | dropGuard taken found => exact inv.rewrite found rfl rfl (fun x => by simp [claiming,update,Call.claims])
  | swap found owned taken => exact inv.rewrite found rfl rfl (fun x => by simp [claiming,update,Call.claims])
  | @tryIntoBox t rest q reclaim taken found clear =>
    refine inv.same rfl ?_
    intro x
    have pool := tallyPerm RetiredDspGraph.claims taken x
    simp only [claiming,tallyCons,Call.claims,RetiredDspGraph.claims] at pool ⊢
    omega
  | @dropToken t rest s' out taken released =>
    refine releaseCounted (s := {s with tokens := rest}) (inv.same rfl ?_) released
    intro x
    have pool := tallyPerm RetiredDspGraph.claims taken x
    simp only [claiming,tallyCons,RetiredDspGraph.claims] at pool ⊢
    omega
  | @dropHandle handle q s' out found owned unused released =>
    have strong := inv.strong handle q found
    rw [if_pos owned] at strong
    refine releaseCounted (s := update s handle {q with owned := false}) (inv.write found ?_ ?_) released
    · intro x apart
      simp [claiming,update,Ne.symm apart]
    · simp only [claiming,update,List.count_singleton_self] at strong ⊢
      simp
      omega
  | pinLoad taken found => exact inv.same rfl (fun x => by simp [claiming,tallyPerm _ taken,Call.claims])
  | pinPublish taken found =>
    exact inv.rewrite found rfl rfl (fun x => by simp [claiming,update,tallyPerm _ taken,Call.claims])
  | pinValid taken found current => exact inv.same rfl (fun x => by simp [claiming,tallyPerm _ taken,Call.claims])
  | pinRetry taken => exact inv.same rfl (fun x => by simp [claiming,tallyPerm _ taken,Call.claims])
  | unpin taken found =>
    exact inv.rewrite found rfl rfl (fun x => by simp [claiming,update,tallyPerm _ taken,Call.claims])
  | @swapCount handle old q rest taken found =>
    have strong := inv.strong handle q found
    refine inv.write found ?_ ?_
    · intro x apart
      have pool := tallyPerm Call.claims taken x
      simp only [claiming,tallyCons,Call.claims,RetiredDspGraph.claims,List.count_nil] at pool ⊢
      rw [List.count_singleton,if_neg (by simpa using apart.symm)]
      omega
    · have pool := tallyPerm Call.claims taken handle
      simp only [claiming,tallyCons,Call.claims,RetiredDspGraph.claims,List.count_nil,
        List.count_singleton_self] at pool strong ⊢
      omega
  | @recoverBox state pointer rest s' out taken released =>
    refine releaseCounted (s := {s with boxes := pointer :: s.boxes, calls := rest}) (inv.same rfl ?_) released
    intro x
    have pool := tallyPerm Call.claims taken x
    simp only [claiming,tallyCons,Call.claims] at pool ⊢
    omega
  | @reclaimBox state pointer rest s' out taken released =>
    refine releaseCounted (s := {s with calls := .discard pointer :: rest}) (inv.same rfl ?_) released
    intro x
    have pool := tallyPerm Call.claims taken x
    simp only [claiming,tallyCons,Call.claims,List.count_nil] at pool ⊢
    omega
  | @discard pointer rest taken =>
    refine inv.same rfl ?_
    intro x
    have pool := tallyPerm Call.claims taken x
    simp only [claiming,free,tallyCons,Call.claims,List.count_nil] at pool ⊢
    omega

theorem stepOwned {out : List Event} (inv : Owned s) (borrowed : Borrowed s) (moved : Moves s out s') : Owned s' :=
  ⟨stepLedger inv borrowed moved,stepCounted inv.counted moved⟩

end Claims
end Riaps.Publication
