import Riaps.ProbeAccount
import Riaps.SpscBatch

/-! Exporting a batch of records. `drain_batch` is the batch pop of the ring with the
audio thread around it: a step of that thread moves the ring by steps of its producer
or not at all, and does the same to the probe whatever the other side has done. So
the account of the ring's batch pop is that of the probe. -/
namespace Riaps.Probe
open Library.Checks Library.Wrapping Library.Machine Spsc

def Action.isReader : Action → Bool
  | .drain => true
  | .drainBatch _ => true
  | .consume => true
  | _ => false

def exporting (w : Nat) : Holder PerformanceProbe Action Event ProbeRecord where
  step := step w
  ring := PerformanceProbe.ring
  put := fun s r => {s with ring := r}
  consume := .consume
  isReader := Action.isReader
  heard := List.filterMap Event.inner
  tell := .ring

abbrev AudioTurn (w : Nat) := Turn w PROBE_RING_CAP (exporting w) (fun s => s.draining = false)

section Turns
variable {w : Nat} {s s' : PerformanceProbe} {action : Action} {out : List Event}

theorem stillTurn (silent : out.filterMap Event.inner = []) (ring : s'.ring = s.ring) (quiet : s'.draining = s.draining)
    (anywhere : ∀ r, step w {s with ring := r} action = some ({s' with ring := r},out)) :
    AudioTurn w s action s' out [] := by
  refine ⟨by simp,?_,by rw [quiet],?_⟩
  · change some (s.ring,[]) = some (s'.ring,out.filterMap Event.inner)
    rw [ring,silent]
  · intro r r' ran
    change some (r,[]) = some (r',out.filterMap Event.inner) at ran
    rw [silent] at ran
    cases Option.some.inj ran
    exact anywhere r

theorem ringTurn {a : Spsc.Action ProbeRecord} {inner : List (Spsc.Event ProbeRecord)} (writer : a.isReader = false)
    (told : out.filterMap Event.inner = inner) (moved : Spsc.step w PROBE_RING_CAP s.ring a = some (s'.ring,inner))
    (quiet : s'.draining = s.draining) (anywhere : ∀ r r', Spsc.step w PROBE_RING_CAP r a = some (r',inner) →
      step w {s with ring := r} action = some ({s' with ring := r'},out)) : AudioTurn w s action s' out [a] := by
  refine ⟨by simp [writer],by simp [run,exporting,moved,told],by rw [quiet],?_⟩
  intro r r' ran
  obtain ⟨r₁,first,rest,here,later,split⟩ := runCons ran
  cases Option.some.inj later
  rw [List.append_nil] at split
  change out.filterMap Event.inner = _ at split
  exact anywhere r r' (by rw [here,← split,told])

theorem writerTurn (writer : action.isReader = false) (ok : step w s action = some (s',out)) :
    ∃ ws, AudioTurn w s action s' out ws := by
  cases action with
  | setEnabled on =>
    cases Option.some.inj ok
    exact ⟨_,stillTurn rfl rfl rfl (fun _ => rfl)⟩
  | measure nodeId =>
    simp only [step] at ok
    split at ok <;> try contradiction
    rename_i ready
    cases Option.some.inj ok
    exact ⟨_,stillTurn rfl rfl rfl (fun _ => if_pos ready)⟩
  | produce tick =>
    simp only [step,produce] at ok
    split at ok
    · rename_i top
      cases Option.some.inj ok
      exact ⟨_,stillTurn rfl rfl rfl (fun _ => by simp [step,produce,top])⟩
    · rename_i top
      obtain ⟨⟨ring,inner⟩,moved,last⟩ := Option.bind_eq_some_iff.mp ok
      cases Option.some.inj last
      exact ⟨_,ringTurn rfl (innerRing inner) moved rfl (fun _ _ there => by simp [step,produce,top,there])⟩
    · rename_i top
      cases Option.some.inj ok
      exact ⟨_,stillTurn rfl rfl rfl (fun _ => by simp [step,produce,top])⟩
    · rename_i top
      cases Option.some.inj ok
      exact ⟨_,stillTurn rfl rfl rfl (fun _ => by simp [step,produce,top])⟩
    · cases ok
  | finish tick =>
    simp only [step,finish] at ok
    split at ok
    · rename_i top
      cases Option.some.inj ok
      exact ⟨_,stillTurn rfl rfl rfl (fun _ => by simp [step,finish,top])⟩
    · rename_i top
      cases Option.some.inj ok
      exact ⟨_,stillTurn rfl rfl rfl (fun _ => by simp [step,finish,top])⟩
    · rename_i top
      obtain ⟨⟨ring,inner⟩,moved,last⟩ := Option.bind_eq_some_iff.mp ok
      cases Option.some.inj last
      exact ⟨_,ringTurn rfl (innerRing inner) moved rfl (fun _ _ there => by simp [step,finish,top,there])⟩
    · cases ok
  | _ => cases writer

theorem drainBusy (reader : action.isReader = true) (busy : s.ring.consumer ≠ .idle)
    (ok : step w s action = some (s',out)) : action = .consume := by
  cases action with
  | drain =>
    simp only [step] at ok
    split at ok <;> try contradiction
    obtain ⟨_,moved,_⟩ := Option.bind_eq_some_iff.mp ok
    cases readerBusy rfl busy moved
  | drainBatch count =>
    simp only [step] at ok
    split at ok <;> try contradiction
    obtain ⟨_,moved,_⟩ := Option.bind_eq_some_iff.mp ok
    cases readerBusy rfl busy moved
  | consume => rfl
  | _ => cases reader

theorem consumeRing (quiet : s.draining = false) {ring : SpscRing ProbeRecord} {inner : List (Spsc.Event ProbeRecord)}
    (moved : Spsc.step w PROBE_RING_CAP s.ring .consume = some (ring,inner)) :
    step w s .consume = some ({s with ring := ring},inner.map .ring) := by
  simp [step,quiet,moved]

end Turns

section Rings
variable {w : Nat} {s s' : PerformanceProbe} {events : List Event}

theorem ringFollows {out : List Event} (moved : Moves w s out s') :
    (s'.ring = s.ring ∧ out.filterMap Event.inner = []) ∨
    ∃ a, Spsc.step w PROBE_RING_CAP s.ring a = some (s'.ring,out.filterMap Event.inner) := by
  cases moved with
  | push top moved =>
    rw [innerRing]
    exact .inr ⟨_,moved⟩
  | attempt top moved =>
    rw [List.filterMap_cons_none rfl,innerRing]
    exact .inr ⟨_,moved⟩
  | read moved reader =>
    rw [innerRing]
    exact .inr ⟨_,moved⟩
  | _ => exact .inl ⟨rfl,rfl⟩

theorem capAligned (fits : PROBE_RING_CAP < 2^w) (count : Nat) : Aligned w PROBE_RING_CAP count :=
  .inr (powerDivides (k := 10) fits)

theorem stepRing (fits : PROBE_RING_CAP < 2^w) {past out : List Event}
    (inv : Consistent w PROBE_RING_CAP (accepted past) (delivered past) s.ring) (moved : Moves w s out s') :
    Consistent w PROBE_RING_CAP (accepted (past ++ out)) (delivered (past ++ out)) s'.ring := by
  rcases ringFollows moved with ⟨same,silent⟩ | ⟨a,turned⟩
  · simpa [accepted,delivered,silent,same] using inv
  · rw [acceptedAppend,deliveredAppend]
    exact stepConsistent fits inv (capAligned fits _) turned

theorem runRing (fits : PROBE_RING_CAP < 2^w) {s₀ : PerformanceProbe} {actions : List Action} (made : new = .ok s₀)
    (ok : run (step w) s₀ actions = some (s,events)) :
    Consistent w PROBE_RING_CAP (accepted events) (delivered events) s.ring :=
  runInvariant (P := fun s events => Consistent w PROBE_RING_CAP (accepted events) (delivered events) s.ring)
    (newRecorded made).ring (fun _ _ _ _ _ inv moved => stepRing fits inv (stepMoves moved)) ok

end Rings

section Exporting
variable {w count : Nat} {s : PerformanceProbe}

theorem memInner {event : Spsc.Event ProbeRecord} {events : List Event} (mem : event ∈ events.filterMap Event.inner) :
    .ring event ∈ events := by
  obtain ⟨e,there,same⟩ := List.mem_filterMap.mp mem
  cases e with
  | ring inner =>
    cases Option.some.inj same
    exact there
  | _ => cases same

theorem exportingLawful (w : Nat) : Lawful w PROBE_RING_CAP (exporting w) (fun s => s.draining = false) := by
  refine ⟨fun _ _ => rfl,fun _ _ _ => rfl,fun _ => rfl,fun _ _ => id,fun _ _ => List.filterMap_append,rfl,fun _ _ => memInner,
    ?_,?_,?_⟩
  · intro s action s' out reader busy ok
    exact drainBusy reader busy ok
  · intro s r out quiet moved
    exact consumeRing quiet moved
  · intro s action s' out writer ok
    exact writerTurn writer ok

theorem batchCalled (fits : PROBE_RING_CAP < 2^w) {s₀ t : PerformanceProbe} {before early : List Action}
    {past pushed : List Event} (made : new = .ok s₀) (ran : run (step w) s₀ before = some (s,past))
    (writers : ∀ a ∈ early, a.isReader = false)
    (called : run (step w) s (.drainBatch count :: early) = some (t,pushed)) :
    BatchCall w PROBE_RING_CAP (exporting w) (fun _ => True) count s t early past pushed := by
  have inv := runRing fits made (runThen ran called)
  obtain ⟨c,out,rest,first,later,rfl⟩ := runCons called
  simp only [step] at first
  split at first <;> try contradiction
  rename_i quiet
  obtain ⟨⟨ring,inner⟩,moved,last⟩ := Option.bind_eq_some_iff.mp first
  cases Option.some.inj last
  simp only [Spsc.step] at moved
  split at moved <;> try contradiction
  rename_i idle
  cases Option.some.inj moved
  exact batchBegun (exportingLawful w) fits (fun _ _ => capAligned fits _) (capAligned fits _) (by simpa using quiet) idle
    writers later inv

end Exporting

theorem batchPopsAgree (w : Nat) :
    (∀ (α : Type) (size count : Nat) (s₀ s t : SpscRing α) (before early : List (Spsc.Action α))
      (past pushed : List (Spsc.Event α)), size < 2^w → Spsc.new α size = .ok s₀ →
      run (Spsc.step w size) s₀ before = some (s,past) → (∀ a ∈ early, a.isReader = false) →
      run (Spsc.step w size) s (.popSliceCopy count :: early) = some (t,pushed) →
      Aligned w size (Spsc.accepted (past ++ pushed)).length → BatchCall w size (alone w size α)
        (fun events => Aligned w size (Spsc.accepted events).length) count s t early past pushed) ∧
    (∀ (count : Nat) (s₀ s t : PerformanceProbe) (before early : List Action) (past pushed : List Event),
      PROBE_RING_CAP < 2^w → new = .ok s₀ → run (step w) s₀ before = some (s,past) →
      (∀ a ∈ early, a.isReader = false) → run (step w) s (.drainBatch count :: early) = some (t,pushed) →
      BatchCall w PROBE_RING_CAP (exporting w) (fun _ => True) count s t early past pushed) := by
  refine ⟨?_,?_⟩
  · intro α size count s₀ s t before early past pushed fits made ran writers called aligned
    exact Spsc.batchCalled fits made ran writers called aligned
  · intro count s₀ s t before early past pushed fits made ran writers called
    exact batchCalled fits made ran writers called

def recordedOnce : List Action :=
  [.setEnabled true,.measure 1,.produce 10,.finish 20,.produce 0,.produce 0,.produce 0,.produce 0]

/- The full ring refuses 9 while 7 and 8 are copied out, and the probe has one record to export. -/
theorem batchPopsAgreeWhileRefusing :
    (∃ dst u, Spsc.step 2 2 ⟨0,2,[some 7,some 8],.idle,.sliceReading 2 0 [7,8]⟩ .consume = some (u,[.sliceOk dst]) ∧
      BatchPopped 2 2 (alone 2 2 Nat) 2 ⟨0,2,[some 7,some 8],.loadedTail 9 2,.idle⟩ u [.produce] [.pushErr 9] dst) ∧
    ∃ s past t pushed, run (step 11) ⟨empty ProbeRecord 1024,false,0,0,[],false⟩ recordedOnce = some (s,past) ∧
      run (step 11) s [.drainBatch 1,.setEnabled false] = some (t,pushed) ∧ accepted (past ++ pushed) = [⟨1,10,20⟩] ∧
      BatchCall 11 PROBE_RING_CAP (exporting 11) (fun _ => True) 1 s t [.setEnabled false] past pushed := by
  obtain ⟨onRing,_⟩ := batchPopsAgree 2
  obtain ⟨_,onProbe⟩ := batchPopsAgree 11
  refine ⟨?_,?_⟩
  · have fits : 2 < 2^2 := by decide
    have divides : 2 ∣ 2^2 := by decide
    have ran : run (Spsc.step 2 2) (empty Nat 2) (pushWhole 7 ++ pushWhole 8) =
        some (⟨0,2,[some 7,some 8],.idle,.idle⟩,[.pushOk 7,.pushOk 8]) := rfl
    have called : run (Spsc.step 2 2) ⟨0,2,[some 7,some 8],.idle,.idle⟩ [.popSliceCopy 2,.push 9] =
        some (⟨0,2,[some 7,some 8],.loadedTail 9 2,.sliceLoadedHead 2 0⟩,[]) := rfl
    have call := onRing Nat 2 2 _ _ _ _ [.push 9] _ _ fits rfl ran (by simp [Spsc.Action.isReader]) called (.inr divides)
    obtain ⟨m,t',alone,loaded,goes⟩ := call.granted (by decide)
    cases Option.some.inj alone
    cases Option.some.inj loaded
    exact (goes [.consume,.produce,.consume] _ _ rfl (.inr divides)).2 rfl
  · have tested : (run (step 11) ⟨empty ProbeRecord 1024,false,0,0,[],false⟩ recordedOnce).any (fun r =>
        (run (step 11) r.1 [.drainBatch 1,.setEnabled false]).any (fun c =>
          decide (accepted (r.2 ++ c.2) = [⟨1,10,20⟩]))) = true := by
      decide +kernel
    obtain ⟨⟨s,past⟩,ran,tested⟩ := (Option.any_eq_true _ _).mp tested
    obtain ⟨⟨t,pushed⟩,called,tested⟩ := (Option.any_eq_true _ _).mp tested
    have fits : PROBE_RING_CAP < 2^11 := by decide
    have exported := onProbe 1 _ _ _ _ [.setEnabled false] _ _ fits rfl ran (by simp [Action.isReader]) called
    exact ⟨s,past,t,pushed,ran,called,of_decide_eq_true tested,exported⟩

end Riaps.Probe
