import Mathlib.Algebra.BigOperators.Group.List.Basic
import Riaps.Library.Progress
import Riaps.PublicationHazard
import Riaps.PublicationVersions

/-! The audio thread's pin against any number of swaps. A call of `try_pin` loads,
announces and validates; it starts over only if the graph it announced was replaced in
between. So each publication costs it at most one more round, and nothing else that
happens anywhere costs it anything: the other calls, refused retries, other handles. -/
namespace Riaps.Publication
open Library.Pools Library.Machine Library.Progress

/- The accesses a pin of `h` has to make while `current` stays what it is. -/
def Call.pinLeft (h current : Nat) : Call → Nat
  | .pinLoad _ handle => if handle = h then 3 else 0
  | .pinPublish _ handle pointer => if handle = h then if pointer = current then 2 else 5 else 0
  | .pinValidate _ handle pointer => if handle = h then if pointer = current then 1 else 4 else 0
  | _ => 0

def Call.pinsOn (h : Nat) : Call → Bool
  | .pinLoad _ handle => handle == h
  | .pinPublish _ handle _ => handle == h
  | .pinValidate _ handle _ => handle == h
  | _ => false

def currentOf (s : Shared) (h : Nat) : Nat := (s.handles[h]?.map PublicationState.current).getD 0

def pinLeft (h : Nat) (s : Shared) : Nat := (s.calls.map (Call.pinLeft h (currentOf s h))).sum

def pinStep (h : Nat) (s : Shared) : Action → Bool
  | .advance call => s.calls[call]?.any (Call.pinsOn h)
  | _ => false

def Action.pinsOn (h : Nat) : Action → Bool
  | .tryPin handle => handle == h
  | _ => false

section Left
variable {s s' : Shared} {h : Nat} {out : List Event}

theorem leftPerm {calls calls' : List Call} (perm : calls.Perm calls') (current : Nat) :
    (calls.map (Call.pinLeft h current)).sum = (calls'.map (Call.pinLeft h current)).sum := (perm.map _).sum_eq

theorem currentFound {q : PublicationState} (found : s.handles[h]? = some q) : currentOf s h = q.current := by
  simp [currentOf,found]

theorem currentWrite {x : Nat} {q r : PublicationState} (found : s.handles[x]? = some q) (same : r.current = q.current)
    (handles : s'.handles = s.handles.set x r) : currentOf s' h = currentOf s h := by
  have bound := (List.getElem?_eq_some_iff.mp found).1
  unfold currentOf
  rw [handles]
  by_cases here : x = h
  · subst here
    rw [List.getElem?_set_self bound,found]
    simp [same]
  · rw [List.getElem?_set_ne here]

theorem releaseCurrent {x : Nat} (ok : release s x = some (s',out)) : currentOf s' h = currentOf s h ∧ s'.calls = s.calls := by
  obtain ⟨q,found,cases_⟩ := releaseCases ok
  refine ⟨?_,(releaseKeeps ok).2.2.2⟩
  rcases cases_ with ⟨_,_,rfl,_⟩ | ⟨_,_,rfl,_⟩ | ⟨_,rfl,_⟩
  · exact currentWrite (r := {q with strong := 0}) found rfl rfl
  · exact currentWrite (r := {q with strong := 0}) found rfl rfl
  · exact currentWrite (r := {q with strong := q.strong - 1}) found rfl rfl

theorem leftNot {c : Call} (other : c.pinsOn h = false) (current : Nat) : c.pinLeft h current = 0 := by
  cases c <;> simp_all [Call.pinsOn,Call.pinLeft]

theorem pinsOnPins {c : Call} (on : c.pinsOn h = true) : h ∈ c.pins := by
  cases c <;> simp_all [Call.pinsOn,Call.pins]

theorem leftOthers {calls : List Call} (others : ∀ c ∈ calls, c.pinsOn h = false) (current : Nat) :
    (calls.map (Call.pinLeft h current)).sum = 0 := by
  induction calls with
  | nil => rfl
  | cons c calls ih =>
    obtain ⟨here,there⟩ := List.forall_mem_cons.mp others
    rw [List.map_cons,List.sum_cons,leftNot here,ih there]

theorem leftNone {calls : List Call} (none_ : tally Call.pins calls h = 0) (current : Nat) :
    (calls.map (Call.pinLeft h current)).sum = 0 := by
  refine leftOthers ?_ current
  intro c mem
  by_contra on
  have held := (tallyPositive _).mpr ⟨c,mem,pinsOnPins (Bool.of_not_eq_false on)⟩
  omega

theorem leftRound (c : Call) (h before after : Nat) : c.pinLeft h after ≤ c.pinLeft h before + 3 := by
  cases c with
  | pinPublish call handle pointer =>
    simp only [Call.pinLeft]
    split_ifs <;> omega
  | pinValidate call handle pointer =>
    simp only [Call.pinLeft]
    split_ifs <;> omega
  | _ => exact Nat.le_add_right _ 3

/- One party at most has a pin of the handle, so another graph behind it costs one round. -/
theorem leftSwapped {calls : List Call} (few : tally Call.pins calls h ≤ 1) (before after : Nat) :
    (calls.map (Call.pinLeft h after)).sum ≤ (calls.map (Call.pinLeft h before)).sum + 3 := by
  induction calls with
  | nil => simp
  | cons c calls ih =>
    rw [tallyCons] at few
    rw [List.map_cons,List.sum_cons,List.map_cons,List.sum_cons]
    cases on : c.pinsOn h with
    | false =>
      have later := ih (by omega)
      rw [leftNot on,leftNot on]
      omega
    | true =>
      have mine := List.count_pos_iff.mpr (pinsOnPins on)
      rw [leftNone (by omega),leftNone (by omega)]
      have round := leftRound c h before after
      omega

theorem leftTurn {c : Call} {rest : List Call} (more : List Call) (taken : s.calls.Perm (c :: rest)) (calls : s'.calls = more ++ rest)
    (same : currentOf s' h = currentOf s h)
    (pays : (if c.pinsOn h then 1 else 0) + (more.map (Call.pinLeft h (currentOf s h))).sum ≤ c.pinLeft h (currentOf s h)) :
    (if c.pinsOn h then 1 else 0) + pinLeft h s' ≤ pinLeft h s := by
  rw [pinLeft,pinLeft,calls,same,leftPerm taken,List.map_cons,List.sum_cons,List.map_append,List.sum_append]
  omega

theorem advanceLeft {c : Call} {rest : List Call} (taken : s.calls.Perm (c :: rest))
    (ok : advance {s with calls := rest} c = some (s',out)) : (if c.pinsOn h then 1 else 0) + pinLeft h s' ≤ pinLeft h s := by
  cases c with
  | pinLoad call handle =>
    obtain ⟨q,found,last⟩ := Option.bind_eq_some_iff.mp ok
    cases Option.some.inj last
    refine leftTurn [.pinPublish call handle q.current] taken rfl rfl ?_
    by_cases on : handle = h
    · subst on
      have seen : s.handles[handle]? = some q := found
      simp [Call.pinLeft,Call.pinsOn,currentFound seen]
    · simp [Call.pinLeft,Call.pinsOn,on]
  | pinPublish call handle pointer =>
    obtain ⟨q,found,last⟩ := Option.bind_eq_some_iff.mp ok
    cases Option.some.inj last
    refine leftTurn [.pinValidate call handle pointer] taken rfl
      (currentWrite (r := {q with hazard := pointer}) found rfl rfl) ?_
    by_cases on : handle = h
    · by_cases current : pointer = currentOf s h <;> simp [Call.pinLeft,Call.pinsOn,on,current]
    · simp [Call.pinLeft,Call.pinsOn,on]
  | pinValidate call handle pointer =>
    obtain ⟨q,found,last⟩ := Option.bind_eq_some_iff.mp ok
    have seen : s.handles[handle]? = some q := found
    split at last <;> cases Option.some.inj last
    · refine leftTurn [] taken rfl rfl ?_
      by_cases on : handle = h
      · by_cases current : pointer = currentOf s h <;> simp [Call.pinLeft,Call.pinsOn,on,current]
      · simp [Call.pinLeft,Call.pinsOn,on]
    · rename_i moved
      refine leftTurn [.pinLoad call handle] taken rfl rfl ?_
      by_cases on : handle = h
      · subst on
        simp [Call.pinLeft,Call.pinsOn,currentFound seen,Ne.symm moved]
      · simp [Call.pinLeft,Call.pinsOn,on]
  | unpin handle =>
    obtain ⟨q,found,last⟩ := Option.bind_eq_some_iff.mp ok
    cases Option.some.inj last
    exact leftTurn [] taken rfl (currentWrite (r := {q with pinActive := false}) found rfl rfl) (by simp [Call.pinsOn])
  | swapCount handle old =>
    obtain ⟨q,found,last⟩ := Option.bind_eq_some_iff.mp ok
    cases Option.some.inj last
    exact leftTurn [] taken rfl
      (currentWrite (r := {q with version := _, strong := q.strong + 1}) found rfl rfl) (by simp [Call.pinsOn])
  | recover state pointer reclaim =>
    obtain ⟨⟨s₁,out₁⟩,released,last⟩ := Option.bind_eq_some_iff.mp ok
    cases Option.some.inj last
    have kept := releaseCurrent (h := h) released
    cases reclaim with
    | true => exact leftTurn [.discard pointer] taken kept.2 kept.1 (by simp [Call.pinsOn,Call.pinLeft])
    | false => exact leftTurn [] taken kept.2 kept.1 (by simp [Call.pinsOn])
  | discard pointer =>
    cases Option.some.inj ok
    exact leftTurn [] taken rfl rfl (by simp [Call.pinsOn])

theorem leftSame (more : List Call) (calls : s'.calls = more ++ s.calls) (others : ∀ c ∈ more, c.pinsOn h = false)
    (same : currentOf s' h = currentOf s h) : pinLeft h s' = pinLeft h s := by
  rw [pinLeft,pinLeft,calls,same,List.map_append,List.sum_append,leftOthers others,Nat.zero_add]

theorem callAdvances (inv : Safe s) {i : Nat} (bound : i < s.calls.length) : ∃ r, step s (.advance i) = some r := by
  have found : s.calls[i]? = some s.calls[i] := List.getElem?_eq_getElem bound
  have picked : pick s.calls i = some (s.calls[i],s.calls.eraseIdx i) := by simp [pick,found]
  have borrowed : ∀ h, h ∈ s.calls[i].borrows → ∃ q, s.handles[h]? = some q := by
    intro h mem
    obtain ⟨q,seen,_⟩ := inv.pinned.borrowed h (callBorrows (pickPerm picked) mem)
    exact ⟨q,seen⟩
  have claimed : ∀ h, h ∈ s.calls[i].claims → ∃ q, s.handles[h]? = some q := by
    intro h mem
    have held : 0 < tally Call.claims s.calls h := (tallyPositive _).mpr ⟨_,List.getElem_mem bound,mem⟩
    exact ⟨_,List.getElem?_eq_getElem (inv.owned.counted.placed h (Nat.lt_of_lt_of_le held (Nat.le_add_left _ _)))⟩
  simp only [step,picked]
  change ∃ r, advance {s with calls := s.calls.eraseIdx i} s.calls[i] = some r
  generalize s.calls[i] = c at borrowed claimed
  cases c with
  | pinLoad call handle =>
    obtain ⟨q,seen⟩ := borrowed handle (List.mem_singleton.mpr rfl)
    simp [advance,seen]
  | pinPublish call handle pointer =>
    obtain ⟨q,seen⟩ := borrowed handle (List.mem_singleton.mpr rfl)
    simp [advance,seen]
  | pinValidate call handle pointer =>
    obtain ⟨q,seen⟩ := borrowed handle (List.mem_singleton.mpr rfl)
    by_cases current : q.current = pointer <;> simp [advance,seen,current]
  | unpin handle =>
    obtain ⟨q,seen⟩ := borrowed handle (List.mem_singleton.mpr rfl)
    simp [advance,seen]
  | swapCount handle old =>
    obtain ⟨q,seen⟩ := borrowed handle (List.mem_singleton.mpr rfl)
    simp [advance,seen]
  | recover state pointer reclaim =>
    obtain ⟨q,seen⟩ := claimed state (List.mem_singleton.mpr rfl)
    cases reclaim <;> by_cases last : q.strong = 1 <;> simp [advance,release,seen,last]
  | discard pointer => exact ⟨_,rfl⟩

theorem newLeft (inv : Safe s) {q : PublicationState} (handles : s'.handles = s.handles ++ [q]) (calls : s'.calls = s.calls) :
    pinLeft h s' ≤ pinLeft h s := by
  rcases Nat.lt_or_ge h s.handles.length with old | young
  · have same : currentOf s' h = currentOf s h := by rw [currentOf,handles,List.getElem?_append_left old,currentOf]
    exact (leftSame [] calls (by simp) same).le
  · have none_ : tally Call.pins s.calls h = 0 := by
      by_contra held
      obtain ⟨q,found,_⟩ := inv.pinned.borrowed h (pinningBorrows (by unfold pinning; omega))
      exact absurd (List.getElem?_eq_some_iff.mp found).1 (Nat.not_lt.mpr young)
    rw [pinLeft,calls,leftNone none_]
    exact Nat.zero_le _

theorem swapLeft (inv : Safe s) {x : Nat} {q r : PublicationState} {c : Call} (found : s.handles[x]? = some q)
    (handles : s'.handles = s.handles.set x r) (calls : s'.calls = c :: s.calls) (other : c.pinsOn h = false) :
    pinLeft h s' ≤ pinLeft h s + 3 * (publications h [.published x r.current]).length := by
  have bound := (List.getElem?_eq_some_iff.mp found).1
  by_cases here : x = h
  · subst here
    have one : tally Call.pins s.calls x ≤ 1 := (Nat.le_add_left _ _).trans (inv.pinned.atMostOne x)
    have round := leftSwapped one (currentOf s x) (currentOf s' x)
    rw [pinLeft,pinLeft,calls,List.map_cons,List.sum_cons,leftNot other]
    simp [publications,publishes]
    omega
  · have same : currentOf s' h = currentOf s h := by rw [currentOf,handles,List.getElem?_set_ne here,currentOf]
    exact Nat.le_add_right_of_le (leftSame [c] calls (by simpa using other) same).le

theorem stepLeft {action : Action} (inv : Safe s) (ok : step s action = some (s',out)) :
    (if pinStep h s action then 1 else 0) + pinLeft h s' ≤
      pinLeft h s + ((if action.pinsOn h then 3 else 0) + 3 * (publications h out).length) := by
  cases action with
  | compile address =>
    simp only [step] at ok
    split at ok <;> try contradiction
    cases Option.some.inj ok
    simp [pinStep,pinLeft,currentOf]
  | dropBox box =>
    obtain ⟨⟨pointer,rest⟩,picked,last⟩ := Option.bind_eq_some_iff.mp ok
    cases Option.some.inj last
    simp [pinStep,pinLeft,currentOf,free]
  | new box =>
    obtain ⟨⟨pointer,rest⟩,picked,last⟩ := Option.bind_eq_some_iff.mp ok
    cases Option.some.inj last
    have kept : pinLeft h {s with boxes := rest, handles := s.handles ++ [⟨pointer,1,0,false,1,true⟩]} ≤ pinLeft h s :=
      newLeft inv rfl rfl
    simpa [pinStep] using Nat.le_add_right_of_le kept
  | tryPin handle =>
    obtain ⟨q,found,last⟩ := Option.bind_eq_some_iff.mp ok
    split at last <;> try contradiction
    split at last <;> cases Option.some.inj last
    · simp [pinStep]
    · have same : currentOf (update s handle {q with pinActive := true}) h = currentOf s h :=
        currentWrite (r := {q with pinActive := true}) found rfl rfl
      change 0 + (List.map (Call.pinLeft h (currentOf (update s handle _) h)) (.pinLoad s.pins handle :: s.calls)).sum ≤ _
      rw [same,List.map_cons,List.sum_cons]
      by_cases on : handle = h
      · simp [Call.pinLeft,Action.pinsOn,on,pinLeft]
        omega
      · simp [Call.pinLeft,Action.pinsOn,on,pinLeft]
  | dropGuard guard =>
    obtain ⟨⟨g,rest⟩,picked,ok⟩ := Option.bind_eq_some_iff.mp ok
    obtain ⟨q,found,last⟩ := Option.bind_eq_some_iff.mp ok
    cases Option.some.inj last
    simpa [pinStep] using Nat.le_add_right_of_le (leftSame [.unpin g.handle] rfl (by simp [Call.pinsOn])
      (currentWrite (r := {q with hazard := 0}) found rfl rfl)).le
  | swap handle box =>
    obtain ⟨q,found,ok⟩ := Option.bind_eq_some_iff.mp ok
    split at ok <;> try contradiction
    obtain ⟨⟨pointer,rest⟩,picked,last⟩ := Option.bind_eq_some_iff.mp ok
    cases Option.some.inj last
    simpa [pinStep,Action.pinsOn] using swapLeft (r := {q with current := pointer}) inv found rfl rfl rfl
  | tryIntoBox token reclaim =>
    obtain ⟨⟨t,rest⟩,picked,ok⟩ := Option.bind_eq_some_iff.mp ok
    obtain ⟨q,found,last⟩ := Option.bind_eq_some_iff.mp ok
    split at last <;> cases Option.some.inj last
    · simp [pinStep]
    · have kept : pinLeft h {s with tokens := rest, calls := .recover t.state t.pointer reclaim :: s.calls} = pinLeft h s :=
        leftSame [.recover t.state t.pointer reclaim] rfl (by simp [Call.pinsOn]) rfl
      simp [pinStep,kept]
  | dropToken token =>
    obtain ⟨⟨t,rest⟩,picked,released⟩ := Option.bind_eq_some_iff.mp ok
    have kept := releaseCurrent (h := h) released
    simpa [pinStep] using Nat.le_add_right_of_le (leftSame [] kept.2 (by simp) kept.1).le
  | dropHandle handle =>
    obtain ⟨q,found,last⟩ := Option.bind_eq_some_iff.mp ok
    split at last <;> try contradiction
    have kept := releaseCurrent (h := h) last
    have same : currentOf (update s handle {q with owned := false}) h = currentOf s h :=
      currentWrite (r := {q with owned := false}) found rfl rfl
    simpa [pinStep] using Nat.le_add_right_of_le (leftSame [] kept.2 (by simp) (kept.1.trans same)).le
  | version handle =>
    obtain ⟨q,found,last⟩ := Option.bind_eq_some_iff.mp ok
    split at last <;> try contradiction
    cases Option.some.inj last
    simp [pinStep]
  | advance call =>
    obtain ⟨⟨c,rest⟩,picked,moved⟩ := Option.bind_eq_some_iff.mp ok
    obtain ⟨d,found,same⟩ := Option.map_eq_some_iff.mp picked
    cases same
    have paid := advanceLeft (h := h) (pickPerm picked) moved
    simp only [pinStep,found,Option.any_some]
    omega

end Left

def pinAccesses (h : Nat) (s : Shared) (actions : List Action) : Nat :=
  total step (fun s a _ => if pinStep h s a then 1 else 0) s actions

theorem pinDelayedOnlyBySwaps {before after : List Action} {s s' : Shared} {past out : List Event}
    (reached : run step init before = some (s,past)) (continued : run step s after = some (s',out)) (h : Nat) :
    pinAccesses h s after + pinLeft h s' ≤
      pinLeft h s + (3 * after.countP (Action.pinsOn h) + 3 * (publications h out).length) ∧
    ∀ i < s'.calls.length, ∃ r, step s' (.advance i) = some r := by
  have paid := runPaysUnder (P := fun s _ => Safe s) (pinLeft h)
    (fun _ _ _ _ _ inv moved => stepSafe inv (stepMoves moved)) (fun _ _ _ _ _ _ inv moved => stepLeft inv moved)
    past (runSafe reached) continued
  rw [totalAdd,totalCount continued,totalEvents (f := publications h) rfl (publicationsAppend h) continued] at paid
  exact ⟨paid,fun i bound => callAdvances (runSafe (runThen reached continued)) bound⟩

/- Two graphs are published while a pin is being taken, each just before it would have validated. -/
def outpaced : List Action :=
  [.advance 0,.swap 0 0,.advance 1,.advance 0,.advance 0,.advance 0,.swap 0 0,.advance 1,.advance 0,.advance 0,.advance 0]

theorem pinDelayedOnlyBySwapsTwice :
    ∃ s past s' out, run step init [.compile 1,.new 0,.compile 2,.compile 3,.tryPin 0] = some (s,past) ∧
      run step s outpaced = some (s',out) ∧ pinAccesses 0 s outpaced = 9 ∧ publications 0 out = [3,2] ∧
      pinAccesses 0 s outpaced + pinLeft 0 s' ≤ pinLeft 0 s + (3 * 0 + 3 * (publications 0 out).length) := by
  have tested : (run step init [.compile 1,.new 0,.compile 2,.compile 3,.tryPin 0]).any (fun r =>
      decide (pinAccesses 0 r.1 outpaced = 9) && (run step r.1 outpaced).any (fun q =>
        decide (publications 0 q.2 = [3,2]))) = true := by
    decide +kernel
  obtain ⟨⟨s,past⟩,first,tested⟩ := (Option.any_eq_true _ _).mp tested
  obtain ⟨spent,tested⟩ := Bool.and_eq_true_iff.mp tested
  obtain ⟨⟨s',out⟩,second,published⟩ := (Option.any_eq_true _ _).mp tested
  exact ⟨s,past,s',out,first,second,of_decide_eq_true spent,of_decide_eq_true published,
    (pinDelayedOnlyBySwaps first second 0).1⟩

end Riaps.Publication
