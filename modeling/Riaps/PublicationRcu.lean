import Riaps.Library.Simulation
import Riaps.PublicationHazard
import Riaps.PublicationVersions
import Riaps.Rcu

/-! The graph handle is an RCU handle. Looked at from one handle, the whole system of
boxes, guards, tokens and calls does nothing but load, exchange and count: what a pin
settles on is a load, and what a retired token carries is what the exchange took out. -/
namespace Riaps.Publication
open Library.Machine Library.Pools Library.Simulation

def rcuEvent (h : Nat) : Event → Option Rcu.Event
  | .published handle pointer => if handle = h then some (.published pointer) else none
  | .retired token => if token.state = h then some (.returned token.pointer) else none
  | .versionRead handle version => if handle = h then some (.versionRead version) else none
  | .pinned guard => if guard.handle = h then some (.loaded guard.pointer) else none
  | _ => none

def rcuEvents (h : Nat) (events : List Event) : List Rcu.Event := events.filterMap (rcuEvent h)

def rcuHandle (h : Nat) (s : Shared) (q : PublicationState) : Rcu.RcuHandle := ⟨q.current,q.version,flight h s.calls⟩

structure Seen (h : Nat) (s : Shared) (r : Rcu.RcuHandle) : Prop where
  safe : Safe s
  shown : ∃ q, s.handles[h]? = some q ∧ r = rcuHandle h s q

section Steps
variable {s s' : Shared} {h : Nat} {past out : List Event}

theorem rcuEventsAppend (past out : List Event) : rcuEvents h (past ++ out) = rcuEvents h past ++ rcuEvents h out :=
  List.filterMap_append

/- What leaves the handle as it is can be read off it. -/
theorem asideReplays {q : PublicationState} (found : s.handles[h]? = some q) (aside : ∀ e ∈ out, Aside s e) :
    ∃ js, run Rcu.step (rcuHandle h s q) js = some (rcuHandle h s q,rcuEvents h out) := by
  induction out with
  | nil => exact ⟨[],rfl⟩
  | cons e out ih =>
    obtain ⟨here,there⟩ := List.forall_mem_cons.mp aside
    obtain ⟨js,ran⟩ := ih there
    simp only [rcuEvents,rcuHandle] at ran ⊢
    cases e with
    | versionRead x v =>
      by_cases same : x = h
      · subst same
        obtain ⟨r,seen,rfl⟩ := here
        cases Option.some.inj (found.symm.trans seen)
        exact ⟨.version :: js,by simp [rcuEvent,run,Rcu.step,ran]⟩
      · exact ⟨js,by simp [rcuEvent,same,ran]⟩
    | pinned g =>
      by_cases same : g.handle = h
      · obtain ⟨r,seen,current⟩ := here
        rw [same] at seen
        cases Option.some.inj (found.symm.trans seen)
        exact ⟨.load :: js,by simp [rcuEvent,run,Rcu.step,ran,same,← current]⟩
      · exact ⟨js,by simp [rcuEvent,same,ran]⟩
    | published x p => exact here.elim
    | retired t => exact here.elim
    | _ => exact ⟨js,ran⟩

theorem currentNonnull (inv : Safe s) {q : PublicationState} (found : s.handles[h]? = some q) (held : h ∈ borrows s) :
    q.current ≠ 0 := by
  have strong := inv.owned.alive inv.pinned.borrowed held found
  have mine : 0 < tally PublicationState.holding s.handles q.current :=
    (tallyPositive _).mpr ⟨q,List.mem_of_getElem? found,by simp [PublicationState.holding,strong]⟩
  intro null
  refine inv.owned.ledger.backed q.current ?_ (null ▸ inv.owned.ledger.null)
  unfold owning
  omega

theorem playsSame {r : Rcu.RcuHandle} (safe : Safe s') (kept : ∃ q, s'.handles[h]? = some q ∧ r = rcuHandle h s' q)
    (silent : rcuEvents h out = []) : Plays Rcu.step (rcuEvents h) (Seen h) s' r out :=
  ⟨r,[],by rw [silent]; rfl,safe,kept⟩

theorem stepPlays {r : Rcu.RcuHandle} {action : Action} (seen : Seen h s r) (ok : step s action = some (s',out)) :
    Plays Rcu.step (rcuEvents h) (Seen h) s' r out := by
  obtain ⟨safe,q,found,rfl⟩ := seen
  have bound := (List.getElem?_eq_some_iff.mp found).1
  have safe' := stepSafe safe (stepMoves ok)
  cases stepPublishes ok with
  | still same =>
    obtain ⟨js,ran⟩ := asideReplays found same.aside
    have there := List.getElem?_eq_getElem (same.size ▸ bound : h < s'.handles.length)
    obtain ⟨o,origin,current,version⟩ := same.faces h _ there
    cases Option.some.inj (found.symm.trans origin)
    refine ⟨_,js,ran,safe',_,there,?_⟩
    simp only [rcuHandle,current,version,same.flights]
  | new handles fresh calls =>
    refine playsSame safe' ⟨q,by rw [handles,List.getElem?_append_left bound]; exact found,?_⟩ ?_
    · simp only [rcuHandle,calls]
    · have other : s.handles.length ≠ h := by omega
      simp [rcuEvents,rcuEvent,other]
  | @swap _ x o pointer there handles calls =>
    by_cases same : x = h
    · subst same
      cases Option.some.inj (found.symm.trans there)
      have here : s'.handles[x]? = some {q with current := pointer} := by rw [handles,List.getElem?_set_self bound]
      have borrow : x ∈ borrows s' := memBorrows.mpr (.inr ⟨_,by rw [calls]; exact List.mem_cons_self,List.mem_singleton.mpr rfl⟩)
      have nonnull := currentNonnull safe' here borrow
      refine ⟨_,[.swap pointer],?_,safe',_,here,rfl⟩
      simp [run,Rcu.step,rcuHandle,rcuEvents,rcuEvent,calls,flight,Call.exchanged]
      exact nonnull
    · refine playsSame safe' ⟨q,by rw [handles,List.getElem?_set_ne same]; exact found,?_⟩
        (by simp [rcuEvents,rcuEvent,same])
      simp only [rcuHandle,calls]
      rw [flightCons (by simp [Call.exchanged,same])]
  | @count _ i x old o t _ taken there handles current version calls =>
    by_cases same : x = h
    · subst same
      cases Option.some.inj (found.symm.trans there)
      have here : s'.handles[x]? = some t := by rw [handles,List.getElem?_set_self bound]
      obtain ⟨before,after⟩ := flightTaken (h := x) taken
      refine ⟨_,[.count (flight x (s.calls.take i)).length],?_,safe',_,here,rfl⟩
      have erased : (flight x s.calls).eraseIdx (flight x (s.calls.take i)).length = flight x (s.calls.eraseIdx i) := by
        rw [before,after,List.eraseIdx_append_of_length_le (Nat.le_refl _),Nat.sub_self]
        rfl
      have picked : pick (flight x s.calls) (flight x (s.calls.take i)).length = some (old,flight x (s.calls.eraseIdx i)) := by
        rw [pick,erased,before]
        simp
      simp [run,Rcu.step,rcuHandle,rcuEvents,rcuEvent,calls,picked,current,version]
    · refine playsSame safe' ⟨q,by rw [handles,List.getElem?_set_ne same]; exact found,?_⟩
        (by simp [rcuEvents,rcuEvent,same])
      simp only [rcuHandle,calls]
      rw [flightElsewhere taken (Ne.symm same)]

theorem newHandle (numbered : Numbered s past) {box : Nat} (ok : step s (.new box) = some (s',out)) :
    ∃ initial q, out = [.published s.handles.length initial] ∧ s'.handles[s.handles.length]? = some q ∧
      rcuHandle s.handles.length s' q = Rcu.new initial := by
  obtain ⟨⟨pointer,rest⟩,picked,last⟩ := Option.bind_eq_some_iff.mp ok
  cases Option.some.inj last
  refine ⟨pointer,_,rfl,List.getElem?_concat_length,?_⟩
  simp [rcuHandle,Rcu.new,(numbered.unborn s.handles.length (Nat.le_refl _)).2.2]

end Steps

theorem graphHandleRefinesRcu {before : List Action} {s : Shared} {past : List Event}
    (reached : run step init before = some (s,past)) :
    (∀ box s' out, step s (.new box) = some (s',out) → ∃ initial q, out = [.published s.handles.length initial] ∧
      s'.handles[s.handles.length]? = some q ∧ rcuHandle s.handles.length s' q = Rcu.new initial) ∧
    ∀ h q after s' out, s.handles[h]? = some q → run step s after = some (s',out) →
      ∃ js q', s'.handles[h]? = some q' ∧ run Rcu.step (rcuHandle h s q) js = some (rcuHandle h s' q',rcuEvents h out) := by
  refine ⟨fun box s' out => newHandle (runNumbered reached),?_⟩
  intro h q after s' out found continued
  obtain ⟨r,js,ran,_,q',there,rfl⟩ := runSimulates (R := Seen h) (rcuEvents h) rfl rcuEventsAppend
    (fun _ _ _ _ _ seen moved => stepPlays seen moved) ⟨runSafe reached,q,found,rfl⟩ continued
  exact ⟨js,q',there,ran⟩

/- Two swaps of one handle overlap, and the later one counts first. -/
def overlapping : List Action := [.swap 0 0,.swap 0 0,.version 0,.advance 0,.tryPin 0,.advance 0,.advance 0,.advance 0,.advance 0]

theorem graphHandleRefinesRcuOverlapping :
    ∃ s past s' out js q', run step init [.compile 1,.new 0,.compile 2,.compile 3] = some (s,past) ∧
      run step s overlapping = some (s',out) ∧ s'.handles[0]? = some q' ∧
      run Rcu.step (Rcu.new 1) js = some (rcuHandle 0 s' q',rcuEvents 0 out) ∧
      rcuEvents 0 out = [.published 3,.published 2,.versionRead 1,.returned 3,.loaded 2,.returned 1] := by
  have tested : (run step init [.compile 1,.new 0,.compile 2,.compile 3]).any (fun r =>
      (decide (r.1.handles[0]? = some ⟨1,1,0,false,1,true⟩) && decide (r.1.calls = [])) && (run step r.1 overlapping).any
        (fun q => decide (rcuEvents 0 q.2 = [.published 3,.published 2,.versionRead 1,.returned 3,.loaded 2,.returned 1]))) =
      true := by
    decide +kernel
  obtain ⟨⟨s,past⟩,first,tested⟩ := (Option.any_eq_true _ _).mp tested
  obtain ⟨begun,tested⟩ := Bool.and_eq_true_iff.mp tested
  obtain ⟨found,calls⟩ := Bool.and_eq_true_iff.mp begun
  obtain ⟨⟨s',out⟩,second,seen⟩ := (Option.any_eq_true _ _).mp tested
  obtain ⟨js,q',there,ran⟩ := (graphHandleRefinesRcu first).2 0 _ _ s' out (of_decide_eq_true found) second
  rw [rcuHandle,of_decide_eq_true calls] at ran
  exact ⟨s,past,s',out,js,q',first,second,there,ran,of_decide_eq_true seen⟩

end Riaps.Publication
