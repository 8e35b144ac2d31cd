import Mathlib.Data.List.Nodup
import Riaps.PublicationHazard

/-! The version of a handle against its publications. A swap publishes with the exchange
of `current` and counts with a later increment of `version`, so the version is behind by
the swaps that stand between the two. Publications are numbered by the history: the n-th
graph that became current has number n, and one that is published again its latest one. -/
namespace Riaps.Publication
open Library.Machine Library.Pools Library.Wrapping

def publishes (h : Nat) : Event → Option Nat
  | .published handle pointer => if handle = h then some pointer else none
  | _ => none

def retires (h : Nat) : Event → Option RetiredDspGraph
  | .retired token => if token.state = h then some token else none
  | _ => none

def publications (h : Nat) (events : List Event) : List Nat := events.filterMap (publishes h)

def retirements (h : Nat) (events : List Event) : List RetiredDspGraph := events.filterMap (retires h)

/- The last place of the pointer, counted from one. -/
def numberOf (published : List Nat) (pointer : Nat) : Nat := published.length - published.reverse.idxOf pointer

def Call.exchanged (h : Nat) : Call → Option Nat
  | .swapCount handle old => if handle = h then some old else none
  | _ => none

/- The graphs taken out by the swaps that have not counted yet, newest first. -/
def flight (h : Nat) (calls : List Call) : List Nat := calls.filterMap (Call.exchanged h)

def Aside (s : Shared) : Event → Prop
  | .published _ _ => False
  | .retired _ => False
  | .versionRead h v => ∃ q, s.handles[h]? = some q ∧ v = q.version
  | .pinned g => ∃ q, s.handles[g.handle]? = some q ∧ q.current = g.pointer
  | _ => True

structure Still (s s' : Shared) (out : List Event) : Prop where
  size : s'.handles.length = s.handles.length
  faces : ∀ (h : Nat) (r : PublicationState), s'.handles[h]? = some r →
    ∃ q, s.handles[h]? = some q ∧ r.current = q.current ∧ r.version = q.version
  flights : ∀ h, flight h s'.calls = flight h s.calls
  aside : ∀ e ∈ out, Aside s e

inductive Publishes (s : Shared) (action : Action) : List Event → Shared → Prop where
  | still {s' out} (same : Still s s' out) : Publishes s action out s'
  | new {s' q} (handles : s'.handles = s.handles ++ [q]) (fresh : q.version = 1) (calls : s'.calls = s.calls) :
      Publishes s action [.published s.handles.length q.current] s'
  | swap {s' h q pointer} (found : s.handles[h]? = some q) (handles : s'.handles = s.handles.set h {q with current := pointer})
      (calls : s'.calls = .swapCount h q.current :: s.calls) : Publishes s action [.published h pointer] s'
  | count {s' i h old q r} (same : action = .advance i) (taken : s.calls[i]? = some (.swapCount h old))
      (found : s.handles[h]? = some q) (handles : s'.handles = s.handles.set h r)
      (current : r.current = q.current) (version : r.version = wrappingAdd 64 q.version 1)
      (calls : s'.calls = s.calls.eraseIdx i) :
      Publishes s action [.retired ⟨old,wrappingAdd 64 q.version 1,h⟩] s'

section Steps
variable {s s' : Shared} {out : List Event}

theorem flightErase {calls : List Call} {i : Nat} {c : Call} (found : calls[i]? = some c) {h : Nat}
    (other : c.exchanged h = none) : flight h (calls.eraseIdx i) = flight h calls := by
  induction calls generalizing i with
  | nil => rfl
  | cons d calls ih =>
    cases i with
    | zero =>
      cases Option.some.inj found
      simp [flight,other]
    | succ i =>
      have later := ih found
      unfold flight at later ⊢
      rw [List.eraseIdx_cons_succ,List.filterMap_cons,List.filterMap_cons,later]

theorem flightCons {c : Call} {calls : List Call} {h : Nat} (other : c.exchanged h = none) :
    flight h (c :: calls) = flight h calls := by
  simp [flight,other]

theorem Still.same (calls : ∀ h, flight h s'.calls = flight h s.calls) (handles : s'.handles = s.handles)
    (aside : ∀ e ∈ out, Aside s e) : Still s s' out := by
  refine ⟨by rw [handles],?_,calls,aside⟩
  intro h r seen
  rw [handles] at seen
  exact ⟨r,seen,rfl,rfl⟩

theorem Still.write {x : Nat} {q r : PublicationState} (calls : ∀ h, flight h s'.calls = flight h s.calls)
    (found : s.handles[x]? = some q) (handles : s'.handles = s.handles.set x r)
    (faces : r.current = q.current ∧ r.version = q.version) (aside : ∀ e ∈ out, Aside s e) : Still s s' out := by
  refine ⟨by rw [handles,List.length_set],?_,calls,aside⟩
  intro h t seen
  rw [handles] at seen
  rcases lookupSet seen with ⟨rfl,rfl⟩ | ⟨_,old⟩
  · exact ⟨q,found,faces⟩
  · exact ⟨t,old,rfl,rfl⟩

theorem releaseStill {x : Nat} (ok : release s x = some (s',out)) : Still s s' out := by
  obtain ⟨q,found,last⟩ := Option.bind_eq_some_iff.mp ok
  split at last
  · have same := Option.some.inj last
    have asserted : ∀ e ∈ (if q.pinActive then [Event.assertionFailed x] else []), Aside s e := by
      split <;> simp [Aside]
    by_cases null : q.current = 0
    · simp only [dropState,if_pos null] at same
      cases same
      exact .write (fun _ => rfl) found rfl ⟨rfl,rfl⟩ asserted
    · simp only [dropState,if_neg null] at same
      cases same
      refine .write (fun _ => rfl) found rfl ⟨rfl,rfl⟩ ?_
      intro e mem
      rcases List.mem_append.mp mem with front | back
      · exact asserted e front
      · rw [List.mem_singleton.mp back]
        trivial
  · cases Option.some.inj last
    exact .write (fun _ => rfl) found rfl ⟨rfl,rfl⟩ (by simp)

theorem Still.trans {s₁ : Shared} (first : Still s s₁ []) (later : Still s₁ s' out) : Still s s' out := by
  refine ⟨later.size.trans first.size,?_,fun h => (later.flights h).trans (first.flights h),?_⟩
  · intro h r seen
    obtain ⟨q,found,current,version⟩ := later.faces h r seen
    obtain ⟨o,origin,current',version'⟩ := first.faces h q found
    exact ⟨o,origin,current.trans current',version.trans version'⟩
  · intro e mem
    have told := later.aside e mem
    cases e with
    | versionRead h v =>
      obtain ⟨q,found,rfl⟩ := told
      obtain ⟨o,origin,_,version⟩ := first.faces h q found
      exact ⟨o,origin,version⟩
    | pinned g =>
      obtain ⟨q,found,current⟩ := told
      obtain ⟨o,origin,same,_⟩ := first.faces g.handle q found
      exact ⟨o,origin,same.symm.trans current⟩
    | _ => exact told

theorem advancePublishes {action : Action} {i : Nat} {c : Call} (same : action = .advance i) (taken : s.calls[i]? = some c)
    (ok : advance {s with calls := s.calls.eraseIdx i} c = some (s',out)) : Publishes s action out s' := by
  cases c with
  | pinLoad call handle =>
    obtain ⟨q,found,last⟩ := Option.bind_eq_some_iff.mp ok
    cases Option.some.inj last
    exact .still (.same (fun h => (flightCons rfl).trans (flightErase taken rfl)) rfl (by simp))
  | pinPublish call handle pointer =>
    obtain ⟨q,found,last⟩ := Option.bind_eq_some_iff.mp ok
    cases Option.some.inj last
    exact .still (.write (fun h => (flightCons rfl).trans (flightErase taken rfl)) found rfl ⟨rfl,rfl⟩ (by simp))
  | pinValidate call handle pointer =>
    obtain ⟨q,found,last⟩ := Option.bind_eq_some_iff.mp ok
    split at last <;> cases Option.some.inj last
    · rename_i current
      refine .still (.same (fun h => flightErase taken rfl) rfl ?_)
      intro e mem
      cases List.mem_singleton.mp mem
      exact ⟨q,found,current⟩
    · exact .still (.same (fun h => (flightCons rfl).trans (flightErase taken rfl)) rfl (by simp))
  | unpin handle =>
    obtain ⟨q,found,last⟩ := Option.bind_eq_some_iff.mp ok
    cases Option.some.inj last
    exact .still (.write (fun h => flightErase taken rfl) found rfl ⟨rfl,rfl⟩ (by simp))
  | swapCount handle old =>
    obtain ⟨q,found,last⟩ := Option.bind_eq_some_iff.mp ok
    cases Option.some.inj last
    exact .count same taken found rfl rfl rfl rfl
  | recover state pointer reclaim =>
    obtain ⟨⟨s₁,inner⟩,released,last⟩ := Option.bind_eq_some_iff.mp ok
    cases Option.some.inj last
    have whole : Still s s' inner := by
      refine Still.trans ?_ (releaseStill released)
      cases reclaim with
      | true => exact .same (fun h => (flightCons rfl).trans (flightErase taken rfl)) rfl (by simp)
      | false => exact .same (fun h => flightErase taken rfl) rfl (by simp)
    exact .still {whole with aside := List.forall_mem_cons.mpr ⟨trivial,whole.aside⟩}
  | discard pointer =>
    cases Option.some.inj ok
    exact .still (.same (fun h => flightErase taken rfl) rfl (by simp [Aside]))

theorem stepPublishes {action : Action} (ok : step s action = some (s',out)) : Publishes s action out s' := by
  cases action with
  | compile address =>
    simp only [step] at ok
    split at ok <;> try contradiction
    cases Option.some.inj ok
    exact .still (.same (fun _ => rfl) rfl (by simp))
  | dropBox box =>
    obtain ⟨⟨pointer,rest⟩,_,last⟩ := Option.bind_eq_some_iff.mp ok
    cases Option.some.inj last
    exact .still (.same (fun _ => rfl) rfl (by simp [Aside]))
  | new box =>
    obtain ⟨⟨pointer,rest⟩,_,last⟩ := Option.bind_eq_some_iff.mp ok
    cases Option.some.inj last
    exact .new (q := ⟨pointer,1,0,false,1,true⟩) rfl rfl rfl
  | tryPin handle =>
    obtain ⟨q,found,last⟩ := Option.bind_eq_some_iff.mp ok
    split at last <;> try contradiction
    split at last <;> cases Option.some.inj last
    · exact .still (.same (fun _ => rfl) rfl (by simp [Aside]))
    · exact .still (.write (fun h => flightCons rfl) found rfl ⟨rfl,rfl⟩ (by simp))
  | dropGuard guard =>
    obtain ⟨⟨g,rest⟩,_,ok⟩ := Option.bind_eq_some_iff.mp ok
    obtain ⟨q,found,last⟩ := Option.bind_eq_some_iff.mp ok
    cases Option.some.inj last
    exact .still (.write (fun h => flightCons rfl) found rfl ⟨rfl,rfl⟩ (by simp))
  | swap handle box =>
    obtain ⟨q,found,ok⟩ := Option.bind_eq_some_iff.mp ok
    split at ok <;> try contradiction
    obtain ⟨⟨pointer,rest⟩,_,last⟩ := Option.bind_eq_some_iff.mp ok
    cases Option.some.inj last
    exact .swap found rfl rfl
  | tryIntoBox token reclaim =>
    obtain ⟨⟨t,rest⟩,_,ok⟩ := Option.bind_eq_some_iff.mp ok
    obtain ⟨q,found,last⟩ := Option.bind_eq_some_iff.mp ok
    split at last <;> cases Option.some.inj last
    · exact .still (.same (fun _ => rfl) rfl (by simp [Aside]))
    · exact .still (.same (fun h => flightCons rfl) rfl (by simp))
  | dropToken token =>
    obtain ⟨⟨t,rest⟩,_,released⟩ := Option.bind_eq_some_iff.mp ok
    have first : Still s {s with tokens := rest} [] := .same (fun _ => rfl) rfl (by simp)
    exact .still (first.trans (releaseStill released))
  | dropHandle handle =>
    obtain ⟨q,found,last⟩ := Option.bind_eq_some_iff.mp ok
    split at last <;> try contradiction
    have first : Still s (update s handle {q with owned := false}) [] :=
      .write (fun _ => rfl) found rfl ⟨rfl,rfl⟩ (by simp)
    exact .still (first.trans (releaseStill last))
  | version handle =>
    obtain ⟨q,found,last⟩ := Option.bind_eq_some_iff.mp ok
    split at last <;> try contradiction
    cases Option.some.inj last
    refine .still (.same (fun _ => rfl) rfl ?_)
    intro e mem
    cases List.mem_singleton.mp mem
    exact ⟨q,found,rfl⟩
  | advance call =>
    obtain ⟨⟨c,rest⟩,picked,moved⟩ := Option.bind_eq_some_iff.mp ok
    obtain ⟨d,found,same⟩ := Option.map_eq_some_iff.mp picked
    cases same
    exact advancePublishes rfl found moved

end Steps

def Told (past : List Event) : Event → Prop
  | .versionRead h v => v ≤ (publications h past).length
  | .pinned g => (publications g.handle past).getLast? = some g.pointer
  | _ => True

structure Tallied (events : List Event) (calls : List Call) (h : Nat) (q : PublicationState) : Prop where
  current : (publications h events).getLast? = some q.current
  version : q.version = (1 + (retirements h events).length) % 2^64
  balance : (publications h events).length = 1 + (retirements h events).length + (flight h calls).length

structure Numbered (s : Shared) (events : List Event) : Prop where
  unborn : ∀ h, s.handles.length ≤ h →
    publications h events = [] ∧ retirements h events = [] ∧ flight h s.calls = []
  tallied : ∀ (h : Nat) (q : PublicationState), s.handles[h]? = some q → Tallied events s.calls h q
  stamps : ∀ h, (retirements h events).map RetiredDspGraph.retiredAtVersion =
    (List.range (retirements h events).length).map (fun i => (i + 2) % 2^64)
  law : Everywhere Told events

theorem initNumbered : Numbered init [] := by
  refine ⟨fun _ _ => ⟨rfl,rfl,rfl⟩,?_,fun _ => rfl,everywhereNil⟩
  intro h q found
  simp [init] at found

section Kept
variable {s s' : Shared} {events out : List Event}

theorem publicationsAppend (h : Nat) (past out : List Event) :
    publications h (past ++ out) = publications h past ++ publications h out := List.filterMap_append

theorem retirementsAppend (h : Nat) (past out : List Event) :
    retirements h (past ++ out) = retirements h past ++ retirements h out := List.filterMap_append

theorem asideSilent (aside : ∀ e ∈ out, Aside s e) (h : Nat) : publications h out = [] ∧ retirements h out = [] := by
  refine ⟨List.filterMap_eq_nil_iff.mpr ?_,List.filterMap_eq_nil_iff.mpr ?_⟩
  · intro e mem
    have told := aside e mem
    cases e <;> first | rfl | exact told.elim
  · intro e mem
    have told := aside e mem
    cases e <;> first | rfl | exact told.elim

theorem flightTaken {calls : List Call} {i h old : Nat} (found : calls[i]? = some (.swapCount h old)) :
    flight h calls = flight h (calls.take i) ++ old :: flight h (calls.drop (i + 1)) ∧
    flight h (calls.eraseIdx i) = flight h (calls.take i) ++ flight h (calls.drop (i + 1)) := by
  obtain ⟨bound,same⟩ := List.getElem?_eq_some_iff.mp found
  have split : calls = calls.take i ++ .swapCount h old :: calls.drop (i + 1) := by
    rw [← same,List.getElem_cons_drop,List.take_append_drop]
  refine ⟨?_,?_⟩
  · conv_lhs => rw [split]
    simp [flight,Call.exchanged]
  · rw [List.eraseIdx_eq_take_drop_succ]
    simp [flight]

theorem flightElsewhere {calls : List Call} {i h x old : Nat} (found : calls[i]? = some (.swapCount h old)) (apart : x ≠ h) :
    flight x (calls.eraseIdx i) = flight x calls := flightErase found (by simp [Call.exchanged,Ne.symm apart])

theorem Tallied.unmoved {calls calls' : List Call} {h : Nat} {q r : PublicationState} (inv : Tallied events calls h q)
    (pubs : publications h out = []) (rets : retirements h out = []) (flights : flight h calls' = flight h calls)
    (current : r.current = q.current) (version : r.version = q.version) : Tallied (events ++ out) calls' h r := by
  have pubs' : publications h (events ++ out) = publications h events := by rw [publicationsAppend,pubs,List.append_nil]
  have rets' : retirements h (events ++ out) = retirements h events := by rw [retirementsAppend,rets,List.append_nil]
  refine ⟨?_,?_,?_⟩
  · rw [pubs',current]
    exact inv.current
  · rw [rets',version]
    exact inv.version
  · rw [pubs',rets',flights]
    exact inv.balance

theorem Numbered.still (inv : Numbered s events) (same : Still s s' out) : Numbered s' (events ++ out) := by
  have quiet := asideSilent same.aside
  refine ⟨?_,?_,?_,everywhereAppend inv.law ?_⟩
  · intro h beyond
    rw [publicationsAppend,retirementsAppend,(quiet h).1,(quiet h).2,List.append_nil,List.append_nil,same.flights]
    exact inv.unborn h (same.size ▸ beyond)
  · intro h r seen
    obtain ⟨q,found,current,version⟩ := same.faces h r seen
    exact (inv.tallied h q found).unmoved (quiet h).1 (quiet h).2 (same.flights h) current version
  · intro h
    rw [retirementsAppend,(quiet h).2,List.append_nil]
    exact inv.stamps h
  · intro front e rest there
    have early : ∀ h, publications h (events ++ front) = publications h events := by
      intro h
      have part : ∀ e ∈ front, Aside s e := fun x mem => same.aside x (by rw [there]; exact List.mem_append_left _ mem)
      rw [publicationsAppend,(asideSilent part h).1,List.append_nil]
    have told := same.aside e (by rw [there]; simp)
    cases e with
    | versionRead h v =>
      obtain ⟨q,found,rfl⟩ := told
      have tallied := inv.tallied h q found
      change q.version ≤ (publications h (events ++ front)).length
      rw [early,tallied.version,tallied.balance]
      exact (Nat.mod_le _ _).trans (Nat.le_add_right _ _)
    | pinned g =>
      obtain ⟨q,found,current⟩ := told
      change (publications g.handle (events ++ front)).getLast? = some g.pointer
      rw [early,← current]
      exact (inv.tallied g.handle q found).current
    | _ => trivial

theorem Numbered.new (inv : Numbered s events) {q : PublicationState} (handles : s'.handles = s.handles ++ [q])
    (fresh : q.version = 1) (calls : s'.calls = s.calls) :
    Numbered s' (events ++ [.published s.handles.length q.current]) := by
  have other : ∀ h, h ≠ s.handles.length → publications h [.published s.handles.length q.current] = [] := by
    intro h apart
    simp [publications,publishes,Ne.symm apart]
  refine ⟨?_,?_,?_,everywhereSnoc inv.law trivial⟩
  · intro h beyond
    rw [handles,List.length_append,List.length_singleton] at beyond
    obtain ⟨pubs,rets,flights⟩ := inv.unborn h (by omega)
    rw [publicationsAppend,retirementsAppend,other h (by omega),pubs,rets,calls]
    exact ⟨rfl,rfl,flights⟩
  · intro h r seen
    rw [handles] at seen
    rw [calls]
    rcases lookupSnoc seen with old | ⟨rfl,rfl⟩
    · have bound := (List.getElem?_eq_some_iff.mp old).1
      exact (inv.tallied h r old).unmoved (other h (by omega)) rfl rfl rfl rfl
    · obtain ⟨pubs,rets,flights⟩ := inv.unborn s.handles.length (Nat.le_refl _)
      have now : publications s.handles.length [.published s.handles.length r.current] = [r.current] := by
        simp [publications,publishes]
      have none_ : retirements s.handles.length [.published s.handles.length r.current] = [] := rfl
      refine ⟨?_,?_,?_⟩
      · rw [publicationsAppend,pubs,now]
        rfl
      · rw [retirementsAppend,rets,none_,fresh]
        rfl
      · rw [publicationsAppend,retirementsAppend,pubs,rets,now,none_,flights]
        rfl
  · intro h
    have none_ : retirements h [.published s.handles.length q.current] = [] := rfl
    rw [retirementsAppend,none_,List.append_nil]
    exact inv.stamps h

theorem Numbered.swap (inv : Numbered s events) {h pointer : Nat} {q : PublicationState} (found : s.handles[h]? = some q)
    (handles : s'.handles = s.handles.set h {q with current := pointer})
    (calls : s'.calls = .swapCount h q.current :: s.calls) : Numbered s' (events ++ [.published h pointer]) := by
  have bound := (List.getElem?_eq_some_iff.mp found).1
  have other : ∀ x, x ≠ h → publications x [.published h pointer] = [] ∧ flight x s'.calls = flight x s.calls := by
    intro x apart
    rw [calls]
    exact ⟨by simp [publications,publishes,Ne.symm apart],flightCons (by simp [Call.exchanged,Ne.symm apart])⟩
  refine ⟨?_,?_,?_,everywhereSnoc inv.law trivial⟩
  · intro x beyond
    rw [handles,List.length_set] at beyond
    obtain ⟨pubs,rets,flights⟩ := inv.unborn x beyond
    have apart : x ≠ h := by omega
    rw [publicationsAppend,retirementsAppend,(other x apart).1,(other x apart).2,pubs,rets]
    exact ⟨rfl,rfl,flights⟩
  · intro x r seen
    rw [handles] at seen
    rcases lookupSet seen with ⟨rfl,rfl⟩ | ⟨apart,old⟩
    · have tallied := inv.tallied x q found
      have now : publications x [.published x pointer] = [pointer] := by simp [publications,publishes]
      have none_ : retirements x [.published x pointer] = [] := rfl
      have more : flight x s'.calls = q.current :: flight x s.calls := by
        rw [calls]
        simp [flight,Call.exchanged]
      refine ⟨?_,?_,?_⟩
      · rw [publicationsAppend,now]
        simp
      · rw [retirementsAppend,none_,List.append_nil]
        exact tallied.version
      · have balance := tallied.balance
        rw [publicationsAppend,retirementsAppend,now,none_,List.append_nil,more,List.length_append,List.length_cons,
          List.length_cons,List.length_nil]
        omega
    · exact (inv.tallied x r old).unmoved (other x apart).1 rfl (other x apart).2 rfl rfl
  · intro x
    have none_ : retirements x [.published h pointer] = [] := rfl
    rw [retirementsAppend,none_,List.append_nil]
    exact inv.stamps x

theorem Numbered.count (inv : Numbered s events) {i h old : Nat} {q r : PublicationState}
    (taken : s.calls[i]? = some (.swapCount h old)) (found : s.handles[h]? = some q)
    (handles : s'.handles = s.handles.set h r) (current : r.current = q.current)
    (version : r.version = wrappingAdd 64 q.version 1) (calls : s'.calls = s.calls.eraseIdx i) :
    Numbered s' (events ++ [.retired ⟨old,wrappingAdd 64 q.version 1,h⟩]) := by
  have bound := (List.getElem?_eq_some_iff.mp found).1
  have tallied := inv.tallied h q found
  have now : retirements h [.retired ⟨old,wrappingAdd 64 q.version 1,h⟩] = [⟨old,wrappingAdd 64 q.version 1,h⟩] := by
    simp [retirements,retires]
  have other : ∀ x, x ≠ h → retirements x [.retired ⟨old,wrappingAdd 64 q.version 1,h⟩] = [] ∧
      flight x s'.calls = flight x s.calls := by
    intro x apart
    rw [calls]
    exact ⟨by simp [retirements,retires,Ne.symm apart],flightElsewhere taken apart⟩
  have next : wrappingAdd 64 q.version 1 = ((retirements h events).length + 2) % 2^64 := by
    rw [tallied.version,wrappingAddCount]
    congr 1
    omega
  have silent : ∀ x, publications x [.retired ⟨old,wrappingAdd 64 q.version 1,h⟩] = [] := fun _ => rfl
  refine ⟨?_,?_,?_,everywhereSnoc inv.law trivial⟩
  · intro x beyond
    rw [handles,List.length_set] at beyond
    obtain ⟨pubs,rets,flights⟩ := inv.unborn x beyond
    have apart : x ≠ h := by omega
    rw [publicationsAppend,retirementsAppend,silent,(other x apart).1,(other x apart).2,pubs,rets]
    exact ⟨rfl,rfl,flights⟩
  · intro x t seen
    rw [handles] at seen
    rcases lookupSet seen with ⟨rfl,rfl⟩ | ⟨apart,before⟩
    · have fewer := flightTaken taken
      have balance := tallied.balance
      rw [fewer.1,List.length_append,List.length_cons] at balance
      refine ⟨?_,?_,?_⟩
      · rw [publicationsAppend,silent,List.append_nil,current]
        exact tallied.current
      · rw [retirementsAppend,now,List.length_append,List.length_singleton,version,next]
        congr 1
        omega
      · rw [publicationsAppend,silent,List.append_nil,retirementsAppend,now,calls,fewer.2]
        simp only [List.length_append,List.length_singleton]
        omega
    · exact (inv.tallied x t before).unmoved (silent x) (other x apart).1 (other x apart).2 rfl rfl
  · intro x
    rw [retirementsAppend]
    by_cases same : x = h
    · subst same
      rw [now,List.map_append,inv.stamps,List.length_append,List.length_singleton,List.range_succ,List.map_append,next]
      simp
    · rw [(other x same).1,List.append_nil]
      exact inv.stamps x

theorem stepNumbered {action : Action} (inv : Numbered s events) (ok : step s action = some (s',out)) :
    Numbered s' (events ++ out) := by
  cases stepPublishes ok with
  | still same => exact inv.still same
  | new handles fresh calls => exact inv.new handles fresh calls
  | swap found handles calls => exact inv.swap found handles calls
  | count _ taken found handles current version calls => exact inv.count taken found handles current version calls

theorem runNumbered {actions : List Action} (ok : run step init actions = some (s,events)) : Numbered s events :=
  runInvariant (P := Numbered) initNumbered (fun _ _ _ _ _ inv moved => stepNumbered inv moved) ok

end Kept

theorem numberSplit {front back : List Nat} {pointer : Nat} (latest : pointer ∉ back) :
    numberOf (front ++ pointer :: back) pointer = front.length + 1 := by
  have place : (front ++ pointer :: back).reverse.idxOf pointer = back.length := by
    simp [List.idxOf_append,latest]
  rw [numberOf,place,List.length_append,List.length_cons]
  omega

theorem numberLast {published : List Nat} {pointer : Nat} (last : published.getLast? = some pointer) :
    numberOf published pointer = published.length := by
  obtain ⟨front,rfl⟩ := List.getLast?_eq_some_iff.mp last
  rw [numberSplit (by simp)]
  simp

theorem versionsBehindPublications {actions : List Action} {s : Shared} {events : List Event}
    (ok : run step init actions = some (s,events)) (h : Nat) (few : (publications h events).tail.length < 2^64 - 1) :
    (∀ past v middle g rest, events = past ++ .versionRead h v :: middle ++ .pinned g :: rest → g.handle = h →
      v ≤ numberOf (publications h (past ++ .versionRead h v :: middle)) g.pointer) ∧
    ((retirements h events).map RetiredDspGraph.retiredAtVersion).Nodup ∧
    (∀ t ∈ retirements h events, 1 < t.retiredAtVersion) ∧
    ∀ q, s.handles[h]? = some q → flight h s.calls = [] →
      q.version = 1 + (publications h events).tail.length ∧ numberOf (publications h events) q.current = q.version := by
  have inv := runNumbered ok
  have small : (retirements h events).length < 2^64 - 1 := by
    cases found : s.handles[h]? with
    | none =>
      rw [(inv.unborn h (List.getElem?_eq_none_iff.mp found)).2.1]
      decide
    | some q =>
      have balance := (inv.tallied h q found).balance
      rw [List.length_tail] at few
      omega
  have stamps : (retirements h events).map RetiredDspGraph.retiredAtVersion =
      (List.range (retirements h events).length).map (fun i => i + 2) := by
    rw [inv.stamps]
    refine List.map_congr_left ?_
    intro i mem
    have bound := List.mem_range.mp mem
    exact Nat.mod_eq_of_lt (by omega)
  refine ⟨?_,?_,?_,?_⟩
  · intro past v middle g rest same here
    have read : v ≤ (publications h past).length := inv.law past (.versionRead h v) (middle ++ .pinned g :: rest) (by simp [same])
    have pinned := inv.law (past ++ .versionRead h v :: middle) (.pinned g) rest same
    change (publications g.handle _).getLast? = some g.pointer at pinned
    rw [here] at pinned
    rw [numberLast pinned,publicationsAppend,List.length_append]
    omega
  · rw [stamps]
    exact List.nodup_range.map (fun i j same => Nat.add_right_cancel same)
  · intro t mem
    have stamped := List.mem_map_of_mem (f := RetiredDspGraph.retiredAtVersion) mem
    rw [stamps] at stamped
    obtain ⟨i,_,same⟩ := List.mem_map.mp stamped
    omega
  · intro q found nobody
    have tallied := inv.tallied h q found
    have balance := tallied.balance
    have version := tallied.version
    rw [nobody,List.length_nil] at balance
    rw [Nat.mod_eq_of_lt (by omega)] at version
    rw [numberLast tallied.current,List.length_tail]
    omega

/- The version is read between the two steps of a swap and after them, then the new graph is pinned. -/
def readHalfway : List Action :=
  [.compile 1,.new 0,.compile 2,.swap 0 0,.version 0,.advance 0,.version 0,.tryPin 0,.advance 0,.advance 0,.advance 0]

theorem versionsBehindPublicationsHalfway :
    ∃ s, run step init readHalfway = some (s,[.published 0 1,.published 0 2,.versionRead 0 1,.retired ⟨1,2,0⟩,
        .versionRead 0 2,.pinned ⟨0,0,2,some 1⟩]) ∧
      2 ≤ numberOf (publications 0 [.published 0 1,.published 0 2,.versionRead 0 1,.retired ⟨1,2,0⟩,.versionRead 0 2]) 2 := by
  have ran : ∃ s, run step init readHalfway = some (s,[.published 0 1,.published 0 2,.versionRead 0 1,.retired ⟨1,2,0⟩,
      .versionRead 0 2,.pinned ⟨0,0,2,some 1⟩]) := ⟨_,rfl⟩
  obtain ⟨s,ran⟩ := ran
  have law := (versionsBehindPublications ran 0 (by decide)).1
  exact ⟨s,ran,law [.published 0 1,.published 0 2,.versionRead 0 1,.retired ⟨1,2,0⟩] 2 [] _ [] rfl rfl⟩

end Riaps.Publication
