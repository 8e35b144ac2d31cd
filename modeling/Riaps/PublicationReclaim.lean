import Riaps.PublicationProgress

/-! When a retired graph can be had back. A token is refused only while its own handle is
being read: the hazard names its graph, so a guard stands on that very graph or a pin
has not been validated yet. No two tokens of a handle wait at once. And a graph that
nobody reads any more is never read again: the token owns it, so it cannot be current. -/
namespace Riaps.Publication
open Library.Pools Library.Machine

def Hazarded (s : Shared) (t : RetiredDspGraph) : Prop := ∃ q, s.handles[t.state]? = some q ∧ q.hazard = t.pointer

def Watched (s : Shared) (h p : Nat) : Prop :=
  (∃ g ∈ s.guards, g.handle = h ∧ g.pointer = p) ∨ ∃ c ∈ s.calls, c.pinsOn h = true

structure Unread (s : Shared) (t : RetiredDspGraph) : Prop where
  guards : ∀ g ∈ s.guards, g.handle = t.state → g.pointer ≠ t.pointer
  calls : ∀ c ∈ s.calls, c.pinsOn t.state = false

/- No hazard names the graph, and no pin is about to announce it. -/
structure Cleared (s : Shared) (t : RetiredDspGraph) : Prop where
  hazard : ∀ q, s.handles[t.state]? = some q → q.hazard ≠ t.pointer
  publish : ∀ call, .pinPublish call t.state t.pointer ∉ s.calls

def Hazards (s : Shared) : Prop := ∀ h q, s.handles[h]? = some q → q.hazard ≠ 0 → Watched s h q.hazard

section Watch
variable {s s' : Shared} {h p : Nat} {out : List Event}

theorem Watched.pass (watched : Watched s h p) (guards : ∀ g ∈ s.guards, g.handle = h → g ∈ s'.guards)
    (calls : ∀ c ∈ s.calls, c.pinsOn h = true → ∃ d ∈ s'.calls, d.pinsOn h = true) : Watched s' h p := by
  rcases watched with ⟨g,mem,here,same⟩ | ⟨c,mem,on⟩
  · exact .inl ⟨g,guards g mem here,here,same⟩
  · exact .inr (calls c mem on)

theorem Hazards.pass (inv : Hazards s) (handles : ∀ (x : Nat) (r : PublicationState), s'.handles[x]? = some r → r.hazard ≠ 0 →
      ∃ q, s.handles[x]? = some q ∧ q.hazard = r.hazard) (guards : ∀ g ∈ s.guards, g ∈ s'.guards)
    (calls : ∀ (x : Nat), ∀ c ∈ s.calls, c.pinsOn x = true → ∃ d ∈ s'.calls, d.pinsOn x = true) : Hazards s' := by
  intro x r seen some_
  obtain ⟨q,found,same⟩ := handles x r seen some_
  rw [← same] at some_ ⊢
  exact (inv x q found some_).pass (fun g mem _ => guards g mem) (calls x)

theorem sameHazard {x : Nat} {q r : PublicationState} (found : s.handles[x]? = some q) (same : r.hazard = q.hazard)
    (handles : s'.handles = s.handles.set x r) (y : Nat) (t : PublicationState) (seen : s'.handles[y]? = some t) :
    ∃ q, s.handles[y]? = some q ∧ q.hazard = t.hazard := by
  rw [handles] at seen
  rcases lookupSet seen with ⟨rfl,rfl⟩ | ⟨_,old⟩
  · exact ⟨q,found,same.symm⟩
  · exact ⟨t,old,rfl⟩

theorem releaseHazard {x : Nat} (ok : release s x = some (s',out)) (y : Nat) (t : PublicationState)
    (seen : s'.handles[y]? = some t) : ∃ q, s.handles[y]? = some q ∧ q.hazard = t.hazard := by
  obtain ⟨q,found,cases_⟩ := releaseCases ok
  rcases cases_ with ⟨_,_,rfl,_⟩ | ⟨_,_,rfl,_⟩ | ⟨_,rfl,_⟩
  · exact sameHazard (r := {q with strong := 0}) found rfl rfl y t seen
  · exact sameHazard (r := {q with strong := 0}) found rfl rfl y t seen
  · exact sameHazard (r := {q with strong := q.strong - 1}) found rfl rfl y t seen

theorem stepHazards (inv : Hazards s) (pinned : Pinned s) (moved : Moves s out s') : Hazards s' := by
  cases moved with
  | idle quiet => exact inv
  | compile nonnull unused => exact inv
  | dropBox taken => exact inv
  | new taken =>
    refine inv.pass ?_ (fun _ mem => mem) (fun _ c mem on => ⟨c,mem,on⟩)
    intro x r seen some_
    rcases lookupSnoc seen with old | ⟨_,rfl⟩
    · exact ⟨r,old,rfl⟩
    · exact absurd rfl some_
  | @tryPin handle q found owned free =>
    exact inv.pass (fun x r seen _ => sameHazard (r := {q with pinActive := true}) found rfl rfl x r seen) (fun _ mem => mem)
      (fun _ => intoAdded _)
  | @dropGuard g rest q taken found =>
    intro x r seen some_
    rcases lookupSet seen with ⟨rfl,rfl⟩ | ⟨apart,old⟩
    · exact absurd rfl some_
    · refine (inv x r old some_).pass ?_ (intoAdded _)
      intro g' mem here
      rcases List.mem_cons.mp (taken.mem_iff.mp mem) with rfl | kept
      · exact absurd here.symm apart
      · exact kept
  | @swap handle q pointer rest found owned taken =>
    exact inv.pass (fun x r seen _ => sameHazard (r := {q with current := pointer}) found rfl rfl x r seen) (fun _ mem => mem)
      (fun _ => intoAdded _)
  | tryIntoBox taken found clear => exact inv.pass (fun x r seen _ => ⟨r,seen,rfl⟩) (fun _ mem => mem) (fun _ => intoAdded _)
  | dropToken taken released =>
    obtain ⟨_,_,guards,calls⟩ := releaseKeeps released
    refine inv.pass (fun x r seen _ => releaseHazard released x r seen) ?_ ?_
    · rw [guards]
      exact fun _ mem => mem
    · rw [calls]
      exact fun _ c mem on => ⟨c,mem,on⟩
  | @dropHandle handle q s' out found owned unused released =>
    obtain ⟨_,_,guards,calls⟩ := releaseKeeps released
    refine inv.pass ?_ ?_ ?_
    · intro x r seen _
      obtain ⟨t,there,same⟩ := releaseHazard released x r seen
      rw [← same]
      exact sameHazard (r := {q with owned := false}) found rfl rfl x t there
    · rw [guards]
      exact fun _ mem => mem
    · rw [calls]
      exact fun _ c mem on => ⟨c,mem,on⟩
  | @pinLoad call handle q rest taken found =>
    exact inv.pass (fun x r seen _ => ⟨r,seen,rfl⟩) (fun _ mem => mem) (fun _ => intoTurned taken id)
  | @pinPublish call handle pointer q rest taken found =>
    intro x r seen some_
    rcases lookupSet seen with ⟨rfl,rfl⟩ | ⟨apart,old⟩
    · exact .inr ⟨_,List.mem_cons_self,beq_self_eq_true _⟩
    · exact (inv x r old some_).pass (fun _ mem _ => mem) (intoTurned taken id)
  | @pinValid call handle pointer q rest taken found current =>
    intro x r seen some_
    by_cases here : handle = x
    · subst here
      obtain ⟨t,there,same⟩ := pinned.announced handle pointer
        (memAnnounces.mpr (.inr ⟨_,taken.mem_iff.mpr List.mem_cons_self,List.mem_singleton.mpr rfl⟩))
      cases Option.some.inj (there.symm.trans seen)
      exact .inl ⟨_,List.mem_cons_self,rfl,same.symm⟩
    · exact (inv x r seen some_).pass (fun _ mem _ => List.mem_cons_of_mem _ mem)
        (intoTaken taken (by simpa [Call.pinsOn] using here))
  | @pinRetry call handle pointer rest taken =>
    exact inv.pass (fun x r seen _ => ⟨r,seen,rfl⟩) (fun _ mem => mem) (fun _ => intoTurned taken id)
  | @unpin handle q rest taken found =>
    exact inv.pass (fun x r seen _ => sameHazard (r := {q with pinActive := false}) found rfl rfl x r seen) (fun _ mem => mem)
      (fun _ => intoTaken taken Bool.false_ne_true)
  | @swapCount handle old q rest taken found =>
    exact inv.pass (fun x r seen _ => sameHazard (r := {q with version := _, strong := q.strong + 1}) found rfl rfl x r seen)
      (fun _ mem => mem) (fun _ => intoTaken taken Bool.false_ne_true)
  | @recoverBox state pointer rest s' out taken released =>
    obtain ⟨_,_,guards,calls⟩ := releaseKeeps released
    refine inv.pass (fun x r seen _ => releaseHazard released x r seen) ?_ ?_
    · rw [guards]
      exact fun _ mem => mem
    · rw [calls]
      exact fun _ => intoTaken taken Bool.false_ne_true
  | @reclaimBox state pointer rest s' out taken released =>
    obtain ⟨_,_,guards,calls⟩ := releaseKeeps released
    refine inv.pass (fun x r seen _ => releaseHazard released x r seen) ?_ ?_
    · rw [guards]
      exact fun _ mem => mem
    · rw [calls]
      exact fun _ => intoTurned taken (absurd · Bool.false_ne_true)
  | discard taken => exact inv.pass (fun x r seen _ => ⟨r,seen,rfl⟩) (fun _ mem => mem) (fun _ => intoTaken taken Bool.false_ne_true)

end Watch

section Clear
variable {s s' : Shared} {t : RetiredDspGraph} {out : List Event}

theorem tokenOwns (inv : Safe s) (mem : t ∈ s.tokens) : t.pointer ≠ 0 ∧
    ∀ (x : Nat) (q : PublicationState), s.handles[x]? = some q → t.pointer ∉ q.holding := by
  have held : 0 < tally RetiredDspGraph.holding s.tokens t.pointer :=
    (tallyPositive _).mpr ⟨t,mem,List.mem_singleton.mpr rfl⟩
  have one := inv.owned.ledger.sole t.pointer
  have mine : 0 < owning s t.pointer := by unfold owning; omega
  refine ⟨?_,?_⟩
  · intro null
    rw [null] at mine
    exact inv.owned.ledger.backed 0 mine inv.owned.ledger.null
  · intro x q found other
    have more : 0 < tally PublicationState.holding s.handles t.pointer :=
      (tallyPositive _).mpr ⟨q,List.mem_of_getElem? found,other⟩
    unfold owning at one
    omega

theorem tokenPlaced (inv : Safe s) (mem : t ∈ s.tokens) : t.state < s.handles.length := by
  have held : 0 < tally RetiredDspGraph.claims s.tokens t.state := (tallyPositive _).mpr ⟨t,mem,List.mem_singleton.mpr rfl⟩
  exact inv.owned.counted.placed t.state (Nat.lt_of_lt_of_le held (Nat.le_add_right _ _))

theorem Cleared.pass (clear : Cleared s t) (handles : ∀ r, s'.handles[t.state]? = some r →
      (∃ q, s.handles[t.state]? = some q ∧ q.hazard = r.hazard) ∨ r.hazard ≠ t.pointer)
    (calls : ∀ c ∈ s'.calls, c ∈ s.calls ∨ ∀ call, c ≠ .pinPublish call t.state t.pointer) : Cleared s' t := by
  constructor
  · intro r seen
    rcases handles r seen with ⟨q,found,same⟩ | other
    · rw [← same]
      exact clear.hazard q found
    · exact other
  · intro call mem
    rcases calls _ mem with old | other
    · exact clear.publish call old
    · exact other call rfl

theorem stepCleared (inv : Safe s) (mem : t ∈ s.tokens) (clear : Cleared s t) (moved : Moves s out s') : Cleared s' t := by
  obtain ⟨nonnull,alone⟩ := tokenOwns inv mem
  cases moved with
  | idle quiet => exact clear
  | compile nonnull unused => exact clear.pass (fun r seen => .inl ⟨r,seen,rfl⟩) (fun _ => .inl)
  | dropBox taken => exact clear.pass (fun r seen => .inl ⟨r,seen,rfl⟩) (fun _ => .inl)
  | new taken =>
    refine clear.pass ?_ (fun _ => .inl)
    intro r seen
    rcases lookupSnoc seen with old | ⟨_,rfl⟩
    · exact .inl ⟨r,old,rfl⟩
    · exact .inr nonnull.symm
  | @tryPin handle q found owned free =>
    exact clear.pass (fun r seen => .inl (sameHazard (r := {q with pinActive := true}) found rfl rfl _ r seen))
      (fromAdded (by simp))
  | @dropGuard g rest q taken found =>
    refine clear.pass ?_ (fromAdded (by simp))
    intro r seen
    rcases lookupSet seen with ⟨_,rfl⟩ | ⟨_,old⟩
    · exact .inr nonnull.symm
    · exact .inl ⟨r,old,rfl⟩
  | @swap handle q pointer rest found owned taken =>
    exact clear.pass (fun r seen => .inl (sameHazard (r := {q with current := pointer}) found rfl rfl _ r seen))
      (fromAdded (by simp))
  | tryIntoBox taken found clear_ => exact clear.pass (fun r seen => .inl ⟨r,seen,rfl⟩) (fromAdded (by simp))
  | dropToken taken released =>
    refine clear.pass (fun r seen => .inl (releaseHazard released _ r seen)) ?_
    rw [(releaseKeeps released).2.2.2]
    exact fun _ => .inl
  | @dropHandle handle q s' out found owned unused released =>
    refine clear.pass ?_ ?_
    · intro r seen
      obtain ⟨u,there,same⟩ := releaseHazard released _ r seen
      rw [← same]
      exact .inl (sameHazard (r := {q with owned := false}) found rfl rfl _ u there)
    · rw [(releaseKeeps released).2.2.2]
      exact fun _ => .inl
  | @pinLoad call handle q rest taken found =>
    refine clear.pass (fun r seen => .inl ⟨r,seen,rfl⟩) (fromTurned taken ?_)
    -- the graph that is loaded is current, and the token's is not
    intro call' same
    injection same with _ _ current
    have strong := inv.owned.alive inv.pinned.borrowed (callBorrows taken (List.mem_singleton.mpr rfl)) found
    exact alone handle q found (by simp [PublicationState.holding,strong,current])
  | @pinPublish call handle pointer q rest taken found =>
    refine clear.pass ?_ (fromTurned taken (by simp))
    intro r seen
    rcases lookupSet seen with ⟨here,rfl⟩ | ⟨_,old⟩
    · refine .inr ?_
      rintro rfl
      exact clear.publish call (taken.mem_iff.mpr (here ▸ List.mem_cons_self))
    · exact .inl ⟨r,old,rfl⟩
  | pinValid taken found current => exact clear.pass (fun r seen => .inl ⟨r,seen,rfl⟩) (fromTaken taken)
  | pinRetry taken => exact clear.pass (fun r seen => .inl ⟨r,seen,rfl⟩) (fromTurned taken (by simp))
  | @unpin handle q rest taken found =>
    exact clear.pass (fun r seen => .inl (sameHazard (r := {q with pinActive := false}) found rfl rfl _ r seen))
      (fromTaken taken)
  | @swapCount handle old q rest taken found =>
    exact clear.pass (fun r seen => .inl (sameHazard (r := {q with version := _, strong := q.strong + 1}) found rfl rfl _ r seen))
      (fromTaken taken)
  | recoverBox taken released =>
    refine clear.pass (fun r seen => .inl (releaseHazard released _ r seen)) ?_
    rw [(releaseKeeps released).2.2.2]
    exact fromTaken taken
  | reclaimBox taken released =>
    refine clear.pass (fun r seen => .inl (releaseHazard released _ r seen)) ?_
    rw [(releaseKeeps released).2.2.2]
    exact fromTurned taken (by simp)
  | discard taken => exact clear.pass (fun r seen => .inl ⟨r,seen,rfl⟩) (fromTaken taken)

theorem unreadCleared (inv : Safe s) (hazards : Hazards s) (mem : t ∈ s.tokens) (unread : Unread s t) : Cleared s t := by
  obtain ⟨nonnull,_⟩ := tokenOwns inv mem
  constructor
  · intro q found same
    rcases hazards t.state q found (same ▸ nonnull) with ⟨g,listed,here,pointer⟩ | ⟨c,listed,on⟩
    · exact unread.guards g listed here (pointer.trans same)
    · rw [unread.calls c listed] at on
      cases on
  · intro call listed
    have off := unread.calls _ listed
    simp [Call.pinsOn] at off

theorem runHazards {actions : List Action} {s : Shared} {events : List Event} (ok : run step init actions = some (s,events)) :
    Safe s ∧ Hazards s := by
  refine runInvariant (P := fun s _ => Safe s ∧ Hazards s) ⟨initSafe,?_⟩ ?_ ok
  · intro h q found
    simp [init] at found
  · intro s past action s' out inv moved
    exact ⟨stepSafe inv.1 (stepMoves moved),stepHazards inv.2 inv.1.pinned (stepMoves moved)⟩

theorem guardedCleared {actions : List Action} (inv : Safe s) (clear : Cleared s t)
    (kept : run (guarded step (fun s _ => decide (t ∈ s.tokens))) s actions = some (s',out)) : Safe s' ∧ Cleared s' t := by
  refine runInvariant (P := fun s _ => Safe s ∧ Cleared s t) ⟨inv,clear⟩ ?_ kept
  intro s past action s' out inv moved
  obtain ⟨mem,moved⟩ := guardedStep.mp moved
  exact ⟨stepSafe inv.1 (stepMoves moved),stepCleared inv.1 (of_decide_eq_true mem) inv.2 (stepMoves moved)⟩

/- What one attempt at the token in place `i` answers. -/
theorem attemptAnswered (inv : Safe s) {i : Nat} (listed : s.tokens[i]? = some t) (reclaim : Bool) :
    (Hazarded s t ∧ step s (.tryIntoBox i reclaim) = some (s,[.refused t])) ∨
    (¬Hazarded s t ∧ step s (.tryIntoBox i reclaim) =
      some ({s with tokens := s.tokens.eraseIdx i, calls := .recover t.state t.pointer reclaim :: s.calls},[])) := by
  obtain ⟨q,found⟩ : ∃ q, s.handles[t.state]? = some q :=
    ⟨_,List.getElem?_eq_getElem (tokenPlaced inv (List.mem_of_getElem? listed))⟩
  by_cases same : q.hazard = t.pointer
  · exact .inl ⟨⟨_,found,same⟩,by simp [step,pick,listed,found,same]⟩
  · refine .inr ⟨?_,by simp [step,pick,listed,found,same]⟩
    rintro ⟨r,seen,other⟩
    cases Option.some.inj (found.symm.trans seen)
    exact same other

theorem refusedHazarded (inv : Safe s) {i : Nat} {reclaim : Bool} (listed : s.tokens[i]? = some t)
    (refused : step s (.tryIntoBox i reclaim) = some (s,[.refused t])) : Hazarded s t := by
  rcases attemptAnswered inv listed reclaim with ⟨hazarded,_⟩ | ⟨_,taken⟩
  · exact hazarded
  · rw [taken] at refused
    cases congrArg Prod.snd (Option.some.inj refused)

end Clear

theorem refusedOnlyWhileRead {actions : List Action} {s : Shared} {events : List Event}
    (ok : run step init actions = some (s,events)) :
    (∀ i t reclaim, s.tokens[i]? = some t →
      (Watched s t.state t.pointer ∧ step s (.tryIntoBox i reclaim) = some (s,[.refused t])) ∨
      ∃ s', step s (.tryIntoBox i reclaim) = some (s',[]) ∧ s'.calls = .recover t.state t.pointer reclaim :: s.calls) ∧
    (∀ i j t u, i ≠ j → s.tokens[i]? = some t → s.tokens[j]? = some u → t.state = u.state →
      step s (.tryIntoBox i true) = some (s,[.refused t]) → step s (.tryIntoBox j true) ≠ some (s,[.refused u])) ∧
    ∀ t ∈ s.tokens, Unread s t → ∀ after s' out,
      run (guarded step (fun s _ => decide (t ∈ s.tokens))) s after = some (s',out) →
      ∀ i reclaim, s'.tokens[i]? = some t → ∃ u, step s' (.tryIntoBox i reclaim) = some (u,[]) := by
  obtain ⟨inv,hazards⟩ := runHazards ok
  refine ⟨?_,?_,?_⟩
  · intro i t reclaim listed
    rcases attemptAnswered inv listed reclaim with ⟨⟨q,found,same⟩,refused⟩ | ⟨_,taken⟩
    · have nonnull := (tokenOwns inv (List.mem_of_getElem? listed)).1
      exact .inl ⟨same ▸ hazards t.state q found (same ▸ nonnull),refused⟩
    · exact .inr ⟨_,taken,rfl⟩
  · intro i j t u apart left right state first second
    obtain ⟨q,found,same⟩ := refusedHazarded inv left first
    obtain ⟨r,seen,other⟩ := refusedHazarded inv right second
    rw [← state,found] at seen
    cases Option.some.inj seen
    have both := tallyApart RetiredDspGraph.holding left right apart t.pointer
    have one := inv.owned.ledger.sole t.pointer
    simp only [RetiredDspGraph.holding,← same.symm.trans other,List.count_singleton_self] at both
    unfold owning at one
    omega
  · intro t mem unread after s' out kept i reclaim listed
    obtain ⟨inv',clear⟩ := guardedCleared inv (unreadCleared inv hazards mem unread) kept
    rcases attemptAnswered inv' listed reclaim with ⟨⟨q,found,same⟩,_⟩ | ⟨_,taken⟩
    · exact absurd same (clear.hazard q found)
    · exact ⟨_,taken⟩

/- A guard stands on the first of two retired graphs. -/
def readOne : List Action :=
  [.compile 1,.new 0,.compile 2,.compile 3,.tryPin 0,.advance 0,.advance 0,.advance 0,.swap 0 0,.advance 0,.swap 0 0,.advance 0]

theorem refusedOnlyWhileReadOne :
    ∃ s events s' out u, run step init readOne = some (s,events) ∧ s.tokens = [⟨3,3,0⟩,⟨1,2,0⟩] ∧
      run (guarded step (fun s _ => decide (⟨3,3,0⟩ ∈ s.tokens))) s [.tryPin 0,.dropGuard 0] = some (s',out) ∧
      step s' (.tryIntoBox 0 true) = some (u,[]) := by
  have tested : (run step init readOne).any (fun r => (decide (r.1.tokens = [⟨3,3,0⟩,⟨1,2,0⟩]) &&
      (decide (∀ g ∈ r.1.guards, g.handle = 0 → g.pointer ≠ 3) && decide (∀ c ∈ r.1.calls, c.pinsOn 0 = false))) &&
      (run (guarded step (fun s _ => decide (⟨3,3,0⟩ ∈ s.tokens))) r.1 [.tryPin 0,.dropGuard 0]).any (fun q =>
        decide (q.1.tokens = [⟨3,3,0⟩,⟨1,2,0⟩]))) = true := by
    decide +kernel
  obtain ⟨⟨s,events⟩,ran,tested⟩ := (Option.any_eq_true _ _).mp tested
  obtain ⟨first,tested⟩ := Bool.and_eq_true_iff.mp tested
  obtain ⟨tokens,unread⟩ := Bool.and_eq_true_iff.mp first
  obtain ⟨guards,calls⟩ := Bool.and_eq_true_iff.mp unread
  obtain ⟨⟨s',out⟩,kept,still⟩ := (Option.any_eq_true _ _).mp tested
  have tokens := of_decide_eq_true tokens
  obtain ⟨u,taken⟩ := (refusedOnlyWhileRead ran).2.2 ⟨3,3,0⟩ (by rw [tokens]; exact List.mem_cons_self)
    ⟨of_decide_eq_true guards,of_decide_eq_true calls⟩ _ s' out kept 0 true (by rw [of_decide_eq_true still]; rfl)
  exact ⟨s,events,s',out,u,ran,tokens,kept,taken⟩

end Riaps.Publication
