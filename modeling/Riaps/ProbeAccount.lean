import Mathlib.Data.List.Infix
import Riaps.ProbeNesting

/-! Every attempt of the probe to write a record comes out one way. The outcomes stand
in the history in the order of the attempts: what was kept is what the monitor got and
what the ring still holds, what was refused is in the overflow counter. -/
namespace Riaps.Probe
open Library.Checks Library.Wrapping Library.Machine Spsc

def Event.inner : Event → Option (Spsc.Event ProbeRecord)
  | .ring event => some event
  | _ => none

def accepted (events : List Event) : List ProbeRecord := Spsc.accepted (events.filterMap Event.inner)

def delivered (events : List Event) : List ProbeRecord := Spsc.delivered (events.filterMap Event.inner)

def outcomes (events : List Event) : List (ProbeRecord × Bool) := events.flatMap (fun e =>
  match e with
  | .ring (.pushOk record) => [(record,true)]
  | .ring (.pushErr record) => [(record,false)]
  | _ => [])

def kept (marks : List (ProbeRecord × Bool)) : List ProbeRecord := (marks.filter Prod.snd).map Prod.fst

def rejected (marks : List (ProbeRecord × Bool)) : List ProbeRecord := (marks.filter (fun m => !m.2)).map Prod.fst

def uncounted : List Frame → Nat
  | .counting :: _ => 1
  | _ => 0

structure Recorded (w : Nat) (s : PerformanceProbe) (events : List Event) : Prop where
  ring : Consistent w PROBE_RING_CAP (accepted events) (delivered events) s.ring
  settled : attempts events = (outcomes events).map Prod.fst ++ s.ring.producer.value.toList
  producing : s.stack.head? = some .pushing ∨ s.ring.producer.value = none
  counted : ∃ c, (rejected (outcomes events)).length = c + uncounted s.stack ∧ s.overflowCounter = c % 2^32

@[simp] theorem acceptedAppend (past out : List Event) : accepted (past ++ out) = accepted past ++ accepted out := by
  simp [accepted]

@[simp] theorem deliveredAppend (past out : List Event) : delivered (past ++ out) = delivered past ++ delivered out := by
  simp [delivered]

theorem innerRing (out : List (Spsc.Event ProbeRecord)) : (out.map Event.ring).filterMap Event.inner = out := by
  simp [List.filterMap_map,Function.comp_def,Event.inner]

@[simp] theorem acceptedRing (out : List (Spsc.Event ProbeRecord)) : accepted (out.map .ring) = Spsc.accepted out := by
  rw [accepted,innerRing]

@[simp] theorem deliveredRing (out : List (Spsc.Event ProbeRecord)) : delivered (out.map .ring) = Spsc.delivered out := by
  rw [delivered,innerRing]

theorem attemptsAppend (past out : List Event) : attempts (past ++ out) = attempts past ++ attempts out := by
  simp [attempts]

theorem outcomesAppend (past out : List Event) : outcomes (past ++ out) = outcomes past ++ outcomes out := by
  simp [outcomes]

theorem rejectedAppend (past out : List (ProbeRecord × Bool)) : rejected (past ++ out) = rejected past ++ rejected out := by
  simp [rejected]

theorem keptOutcomes (events : List Event) : kept (outcomes events) = accepted events := by
  induction events with
  | nil => rfl
  | cons e events ih =>
    have split : kept (outcomes (e :: events)) = kept (outcomes [e]) ++ kept (outcomes events) := by
      simp [kept,outcomes]
    have parts : accepted (e :: events) = accepted [e] ++ accepted events := acceptedAppend [e] events
    rw [split,parts,ih]
    rcases e with _ | _ | _ | (_ | _ | _ | _ | _ | _) <;> rfl

theorem readerOutcomes {w : Nat} {ring ring' : SpscRing ProbeRecord} {action : Spsc.Action ProbeRecord}
    {out : List (Spsc.Event ProbeRecord)} (reader : action.isReader = true)
    (moved : Spsc.step w PROBE_RING_CAP ring action = some (ring',out)) : outcomes (out.map .ring) = [] := by
  cases action with
  | push value => cases reader
  | produce => cases reader
  | consume => cases consumeMoves moved <;> rfl
  | _ =>
    simp only [Spsc.step] at moved
    split at moved <;> try contradiction
    cases Option.some.inj moved
    rfl

theorem newRecorded {w : Nat} {s : PerformanceProbe} (made : new = .ok s) : Recorded w s [] := by
  unfold new at made
  obtain ⟨ring,ringMade,made⟩ := bindOk made
  cases made
  obtain ⟨_,rfl⟩ := newEmpty ringMade
  exact ⟨emptyConsistent w _,rfl,.inr rfl,0,rfl,rfl⟩

section Kept
variable {w : Nat} {s : PerformanceProbe} {events : List Event}

theorem Recorded.aside (inv : Recorded w s events) {s' : PerformanceProbe} {out : List Event}
    (quiet : out.filterMap Event.inner = [] ∧ attempts out = [] ∧ outcomes out = []) (ring : s'.ring = s.ring)
    (idle : s.stack.head? ≠ some .pushing) (count : s'.overflowCounter = s.overflowCounter)
    (before : uncounted s.stack = 0) (after : uncounted s'.stack = 0) : Recorded w s' (events ++ out) := by
  have none_ : s.ring.producer.value = none := inv.producing.resolve_left idle
  refine ⟨?_,?_,.inr (by rw [ring]; exact none_),?_⟩
  · simpa [accepted,delivered,quiet.1,ring] using inv.ring
  · rw [attemptsAppend,outcomesAppend,quiet.2.1,quiet.2.2,ring,List.append_nil,List.append_nil]
    exact inv.settled
  · rw [outcomesAppend,quiet.2.2,List.append_nil,count,after,← before]
    exact inv.counted

theorem uncountedRunning {stack : List Frame} (ready : stack.head?.all Frame.running = true) :
    uncounted stack = 0 ∧ stack.head? ≠ some .pushing := by
  cases stack with
  | nil => exact ⟨rfl,by simp⟩
  | cons f rest =>
    cases f with
    | passing => exact ⟨rfl,by simp⟩
    | nested => exact ⟨rfl,by simp⟩
    | measuring nodeId start => exact ⟨rfl,by simp⟩
    | _ => simp [Frame.running] at ready

theorem Recorded.push (inv : Recorded w s events) {ring : SpscRing ProbeRecord} {rest : List Frame}
    {out : List (Spsc.Event ProbeRecord)} (top : s.stack = .pushing :: rest)
    (consistent : Consistent w PROBE_RING_CAP (accepted events ++ Spsc.accepted out)
      (delivered events ++ Spsc.delivered out) ring)
    (moved : Produces w PROBE_RING_CAP s.ring out ring) :
    Recorded w {s with ring := ring, stack := settle out :: rest} (events ++ out.map .ring) := by
  have settled := inv.settled
  obtain ⟨c,known,counter⟩ := inv.counted
  have none_ : uncounted s.stack = 0 := by rw [top]; rfl
  have quiet : attempts (events ++ out.map .ring) = attempts events := by
    rw [attemptsAppend,(ringFollow out ([],[])).2,List.append_nil]
  have whole : Consistent w PROBE_RING_CAP (accepted (events ++ out.map .ring)) (delivered (events ++ out.map .ring)) ring := by
    simpa using consistent
  rw [none_,Nat.add_zero] at known
  rcases produceValue moved with ⟨rfl,same⟩ | ⟨value,carried,free,rfl | rfl⟩
  · refine ⟨whole,?_,.inl rfl,c,?_,counter⟩
    · rw [quiet,same]
      simpa using settled
    · simpa [uncounted,settle] using known
  · have idle : ring.producer.value = none := by rw [free]; rfl
    rw [carried] at settled
    refine ⟨whole,?_,.inr idle,c,?_,counter⟩
    · rw [quiet,idle,outcomesAppend,settled]
      simp [outcomes]
    · rw [outcomesAppend,rejectedAppend,List.length_append,known]
      rfl
  · have idle : ring.producer.value = none := by rw [free]; rfl
    rw [carried] at settled
    refine ⟨whole,?_,.inr idle,c,?_,counter⟩
    · rw [quiet,idle,outcomesAppend,settled]
      simp [outcomes]
    · rw [outcomesAppend,rejectedAppend,List.length_append,known]
      rfl

theorem Recorded.attempt (inv : Recorded w s events) {record : ProbeRecord} {start : UInt64} {ring : SpscRing ProbeRecord}
    {rest : List Frame} {out : List (Spsc.Event ProbeRecord)} (top : s.stack = .measuring record.nodeId start :: rest)
    (consistent : Consistent w PROBE_RING_CAP (accepted events ++ Spsc.accepted out)
      (delivered events ++ Spsc.delivered out) ring)
    (moved : Spsc.step w PROBE_RING_CAP s.ring (.push record) = some (ring,out)) :
    Recorded w {s with ring := ring, stack := .pushing :: rest} (events ++ Event.attempted record :: out.map .ring) := by
  have settled := inv.settled
  have known := inv.counted
  simp only [Spsc.step] at moved
  split at moved <;> try contradiction
  rename_i free
  cases Option.some.inj moved
  have none_ : s.ring.producer.value = none := by rw [free]; rfl
  have quiet : outcomes (events ++ [Event.attempted record]) = outcomes events := by simp [outcomes]
  rw [top] at known
  refine ⟨?_,?_,.inl rfl,?_⟩
  · rw [acceptedAppend,deliveredAppend]
    exact consistent
  · rw [List.map_nil,quiet,attemptsAppend,settled,none_]
    simp [attempts,Producer.value]
  · rw [List.map_nil,quiet]
    exact known

theorem Recorded.read (inv : Recorded w s events) {action : Spsc.Action ProbeRecord} {ring : SpscRing ProbeRecord}
    {out : List (Spsc.Event ProbeRecord)} {draining : Bool} (reader : action.isReader = true)
    (consistent : Consistent w PROBE_RING_CAP (accepted events ++ Spsc.accepted out)
      (delivered events ++ Spsc.delivered out) ring)
    (moved : Spsc.step w PROBE_RING_CAP s.ring action = some (ring,out)) :
    Recorded w {s with ring := ring, draining := draining} (events ++ out.map .ring) := by
  have same := (readerFrame reader moved).1
  have quiet : outcomes (events ++ out.map .ring) = outcomes events := by
    rw [outcomesAppend,readerOutcomes reader moved,List.append_nil]
  have silent : attempts (events ++ out.map .ring) = attempts events := by
    rw [attemptsAppend,(ringFollow out ([],[])).2,List.append_nil]
  refine ⟨by simpa using consistent,?_,?_,?_⟩
  · rw [silent,quiet,same]
    exact inv.settled
  · rw [same]
    exact inv.producing
  · rw [quiet]
    exact inv.counted

theorem Recorded.count (inv : Recorded w s events) {rest : List Frame} (top : s.stack = .counting :: rest) :
    Recorded w {s with overflowCounter := wrappingAdd 32 s.overflowCounter 1, stack := .leaving :: rest} events := by
  obtain ⟨c,known,counter⟩ := inv.counted
  have idle := inv.producing
  rw [top] at known idle
  refine ⟨inv.ring,inv.settled,.inr (idle.resolve_left (by simp)),c + 1,known,?_⟩
  rw [counter,wrappingAddCount]

theorem stepRecorded (fits : PROBE_RING_CAP < 2^w) (nest : Nested s events) (inv : Recorded w s events)
    (few : (accepted events).length < 2^w) {s' : PerformanceProbe} {out : List Event} (moved : Moves w s out s') :
    Recorded w s' (events ++ out) := by
  have next {action : Spsc.Action ProbeRecord} {ring : SpscRing ProbeRecord} {inner : List (Spsc.Event ProbeRecord)}
      (moved : Spsc.step w PROBE_RING_CAP s.ring action = some (ring,inner)) :=
    stepConsistent fits inv.ring (.inl few) moved
  have below {f : Frame} {rest : List Frame} (top : s.stack = f :: rest) : uncounted rest = 0 := by
    have inside := nest.inside
    rw [top] at inside
    refine (uncountedRunning ?_).1
    cases rest with
    | nil => rfl
    | cons g rest => simpa using inside g (List.mem_cons_self ..)
  cases moved with
  | toggle =>
    rw [List.append_nil]
    exact ⟨inv.ring,inv.settled,inv.producing,inv.counted⟩
  | enter ready =>
    obtain ⟨none_,idle⟩ := uncountedRunning ready
    exact inv.aside ⟨rfl,rfl,rfl⟩ rfl idle rfl none_ (by cases s.enabled <;> rfl)
  | begin top => exact inv.aside ⟨rfl,rfl,rfl⟩ rfl (by simp [top]) rfl (by simp [top,uncounted]) rfl
  | pass top => exact inv.aside ⟨rfl,rfl,rfl⟩ rfl (by simp [top]) rfl (by simp [top,uncounted]) rfl
  | push top moved => exact inv.push top (next moved) (Spsc.produceMoves moved)
  | count top =>
    rw [List.append_nil]
    exact inv.count top
  | leave top => exact inv.aside ⟨rfl,rfl,rfl⟩ rfl (by simp [top]) rfl (by simp [top,uncounted]) (below top)
  | returnPassing top => exact inv.aside ⟨rfl,rfl,rfl⟩ rfl (by simp [top]) rfl (by simp [top,uncounted]) (below top)
  | returnNested top => exact inv.aside ⟨rfl,rfl,rfl⟩ rfl (by simp [top]) rfl (by simp [top,uncounted]) rfl
  | attempt top moved => exact inv.attempt top (next moved) moved
  | read moved reader => exact inv.read reader (next moved) moved

theorem runRecorded (fits : PROBE_RING_CAP < 2^w) {s₀ : PerformanceProbe} {actions : List Action} (made : new = .ok s₀)
    (ok : run (step w) s₀ actions = some (s,events)) (few : (accepted events).length < 2^w)
    (shallow : ∀ past, past <+: events → (openCalls past).length < 2^32) : Nested s events ∧ Recorded w s events := by
  refine runInvariant
    (P := fun s events => (accepted events).length < 2^w → (∀ past, past <+: events → (openCalls past).length < 2^32) →
      Nested s events ∧ Recorded w s events)
    (fun _ _ => ⟨newNested made,newRecorded made⟩) ?_ ok few shallow
  intro s past action s' out held moved few shallow
  have grown : past <+: past ++ out := List.prefix_append _ _
  rw [acceptedAppend,List.length_append] at few
  obtain ⟨nest,inv⟩ := held (by omega) (fun front early => shallow front (early.trans grown))
  exact ⟨stepNested nest (shallow past grown) (stepMoves moved),stepRecorded fits nest inv (by omega) (stepMoves moved)⟩

end Kept

theorem outermostRecorded {w : Nat} (fits : PROBE_RING_CAP < 2^w) {s₀ s : PerformanceProbe} {actions : List Action}
    {events : List Event} (made : new = .ok s₀) (ok : run (step w) s₀ actions = some (s,events))
    (few : (accepted events).length < 2^w) (shallow : ∀ past, past <+: events → (openCalls past).length < 2^32) :
    openCalls events = s.stack.map Frame.found ∧ (s.stack = [] → s.nestingDepth = 0) ∧
    (attempts events).map ProbeRecord.nodeId ++ owed s.stack = outermost events ∧
    attempts events = (outcomes events).map Prod.fst ++ s.ring.producer.value.toList ∧
    (s.stack = [] → s.ring.producer.value = none) ∧
    delivered events ++ contents w PROBE_RING_CAP s.ring = kept (outcomes events) ∧
    s.overflowCounter = ((rejected (outcomes events)).length - uncounted s.stack) % 2^32 := by
  obtain ⟨nest,inv⟩ := runRecorded fits made ok few shallow
  refine ⟨nest.calls,?_,nest.owes,inv.settled,?_,?_,?_⟩
  · intro nobody
    rw [nest.depth,nobody]
    rfl
  · intro nobody
    exact inv.producing.resolve_left (by simp [nobody])
  · rw [inv.ring.contents fits (.inl few),keptOutcomes]
    exact List.prefix_iff_eq_append.mp inv.ring.order
  · obtain ⟨c,known,counter⟩ := inv.counted
    rw [counter,known,Nat.add_sub_cancel]

/- The flag is raised inside call 1 and lowered inside call 3, which is nested in call 2. -/
def toggledInside : List Action :=
  [.measure 1,.setEnabled true,.measure 2,.produce 10,.measure 3,.produce 11,.setEnabled false,.measure 4,.finish 0,
    .finish 12,.produce 0,.finish 13,.produce 0,.produce 0,.produce 0,.produce 0,.finish 0,.drain,.consume,.consume,.consume]

theorem outermostRecordedToggled : ∃ s events, run (step 11) ⟨empty ProbeRecord 1024,false,0,0,[],false⟩ toggledInside =
      some (s,events) ∧ outermost events = [2] ∧ delivered events = [⟨2,10,13⟩] ∧ s.nestingDepth = 0 ∧
    (attempts events).map ProbeRecord.nodeId ++ owed s.stack = outermost events := by
  have tested : (run (step 11) ⟨empty ProbeRecord 1024,false,0,0,[],false⟩ toggledInside).any (fun r =>
      decide ((accepted r.2).length < 2^11) && decide (∀ past ∈ r.2.inits, (openCalls past).length < 2^32) &&
        decide (r.1.stack = []) && decide (outermost r.2 = [2] ∧ delivered r.2 = [⟨2,10,13⟩])) = true := by
    decide +kernel
  obtain ⟨⟨s,events⟩,ran,tested⟩ := (Option.any_eq_true _ _).mp tested
  obtain ⟨tested,history⟩ := Bool.and_eq_true_iff.mp tested
  obtain ⟨tested,nobody⟩ := Bool.and_eq_true_iff.mp tested
  obtain ⟨few,shallow⟩ := Bool.and_eq_true_iff.mp tested
  obtain ⟨ids,given⟩ := of_decide_eq_true history
  have fits : PROBE_RING_CAP < 2^11 := by decide
  have law := outermostRecorded fits rfl ran (of_decide_eq_true few)
    (fun past early => of_decide_eq_true shallow past ((List.mem_inits past events).mpr early))
  exact ⟨s,events,ran,ids,given,law.2.1 (of_decide_eq_true nobody),law.2.2.1⟩

end Riaps.Probe
