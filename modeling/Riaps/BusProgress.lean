import Riaps.BusReserve
import Riaps.SpscProgress

/-! The event bus never holds a thread up. `emit` makes at most five accesses after its
first, and each of them is possible at once, whether the ring is full, contested or
about to be drained. `drain` runs against a producer that goes on emitting: it makes
four accesses for each event it finds or is given meanwhile, and two to see the end. -/
namespace Riaps.Bus
open Library.Checks Library.Wrapping Library.Machine Library.Progress Spsc

def Action.emits : Action → Bool
  | .emit _ => true
  | _ => false

def Action.produces : Action → Bool
  | .produce => true
  | _ => false

def Action.drains : Action → Bool
  | .drain => true
  | _ => false

def Action.consumes : Action → Bool
  | .consume => true
  | _ => false

def emitLeft (s : EventBus) : Nat :=
  match s.emitting with
  | .idle => 0
  | .loadedTail _ _ => 5
  | .passed _ => 4
  | .pushing => s.ring.producer.left
  | .counting => 1

def drainLeft (w : Nat) (s : EventBus) : Nat := loopLeft w s.draining s.ring

structure Looping (w size : Nat) (s : EventBus) (past : List BusEvent) : Prop where
  stocked : Stocked w size (accepted past).length (delivered past).length s.ring
  pushing : s.ring.producer = .idle ↔ s.emitting ≠ .pushing
  loop : s.draining = true → 0 < toDrain w s.ring

section Steps
variable {w size : Nat} {s s' : EventBus} {past out : List BusEvent} {action : Action}

theorem nextPop (ring : SpscRing KernelEvent) : (if ring.consumer = .idle then Spsc.Action.pop else .consume) = nextAccess ring := by
  unfold nextAccess
  cases ring.consumer <;> rfl

theorem readerEmits {action : Spsc.Action KernelEvent} {ring : SpscRing KernelEvent}
    {inner : List (Spsc.Event KernelEvent)} (reader : action.isReader = true)
    (moved : Spsc.step w size s.ring action = some (ring,inner)) (draining : Bool) :
    emitLeft {s with ring := ring, draining := draining} = emitLeft s := by
  simp only [emitLeft,(readerFrame reader moved).1]

theorem producePays (ok : produce w size s = some (s',out)) : 1 + emitLeft s' ≤ emitLeft s := by
  unfold produce at ok
  unfold emitLeft
  cases pc : s.emitting with
  | idle => simp [pc] at ok
  | loadedTail event tail =>
    simp only [pc] at ok
    split at ok <;> cases Option.some.inj ok <;> simp
  | passed event =>
    simp only [pc] at ok
    obtain ⟨⟨ring,inner⟩,moved,last⟩ := Option.bind_eq_some_iff.mp ok
    cases Option.some.inj last
    simp only [Spsc.step] at moved
    split at moved <;> try contradiction
    cases Option.some.inj moved
    simp [Producer.left]
  | pushing =>
    simp only [pc] at ok
    obtain ⟨⟨ring,inner⟩,moved,last⟩ := Option.bind_eq_some_iff.mp ok
    cases Option.some.inj last
    cases Spsc.produceMoves moved with
    | full at_ held => simp [settle,Producer.left,at_]
    | room at_ held => simp [settle,Producer.left,at_]
    | write at_ => simp [settle,Producer.left,at_]
    | publish at_ => simp [settle,Producer.left,at_]
  | counting =>
    simp only [pc] at ok
    cases Option.some.inj ok
    simp

theorem emitPays (ok : step w size s action = some (s',out)) :
    (if action.produces then 1 else 0) + emitLeft s' ≤ emitLeft s + if action.emits then 5 else 0 := by
  cases action with
  | emit event =>
    simp only [step] at ok
    split at ok <;> try contradiction
    cases Option.some.inj ok
    simp [Action.produces,Action.emits,emitLeft]
  | produce => simpa [Action.produces,Action.emits] using producePays ok
  | drain =>
    simp only [step] at ok
    split at ok <;> try contradiction
    obtain ⟨⟨ring,inner⟩,moved,last⟩ := Option.bind_eq_some_iff.mp ok
    cases Option.some.inj last
    simp [Action.produces,readerEmits rfl moved]
  | consume =>
    simp only [step,consume,nextPop] at ok
    split at ok <;> try contradiction
    obtain ⟨⟨ring,inner⟩,moved,last⟩ := Option.bind_eq_some_iff.mp ok
    cases Option.some.inj last
    simp [Action.produces,readerEmits (nextReads _) moved]

theorem emitMoves (inv : Looping w size s past) (busy : s.emitting ≠ .idle) : ∃ r, step w size s .produce = some r := by
  have current := inv.pushing
  simp only [step,produce]
  cases pc : s.emitting with
  | idle => exact absurd pc busy
  | loadedTail event tail =>
    simp only
    split <;> exact ⟨_,rfl⟩
  | passed event =>
    have free : s.ring.producer = .idle := current.mpr (by simp [pc])
    simp [Spsc.step,free]
  | pushing =>
    have started : s.ring.producer ≠ .idle := fun idle => current.mp idle pc
    obtain ⟨⟨ring,inner⟩,moved⟩ := producerMoves w size started
    exact ⟨_,by simp only [moved]; rfl⟩
  | counting => exact ⟨_,rfl⟩

theorem produceTurns (ok : produce w size s = some (s',out)) :
    ∃ inner, LoopTurn w size s.ring s'.ring s.draining s'.draining inner false false ∧
      accepted out = Spsc.accepted inner ∧ delivered out = Spsc.delivered inner := by
  unfold produce at ok
  cases pc : s.emitting with
  | idle => simp [pc] at ok
  | loadedTail event tail =>
    simp only [pc] at ok
    split at ok <;> cases Option.some.inj ok
    · exact ⟨[],.still rfl rfl rfl,rfl,rfl⟩
    · exact ⟨[],.still rfl rfl rfl,rfl,rfl⟩
  | passed event =>
    simp only [pc] at ok
    obtain ⟨⟨ring,inner⟩,moved,last⟩ := Option.bind_eq_some_iff.mp ok
    cases Option.some.inj last
    exact ⟨inner,.write rfl moved rfl,acceptedRing inner,deliveredRing inner⟩
  | pushing =>
    simp only [pc] at ok
    obtain ⟨⟨ring,inner⟩,moved,last⟩ := Option.bind_eq_some_iff.mp ok
    cases Option.some.inj last
    exact ⟨inner,.write rfl moved rfl,by simp [settleQuiet],by simp [settleQuiet]⟩
  | counting =>
    simp only [pc] at ok
    cases Option.some.inj ok
    exact ⟨[],.still rfl rfl rfl,rfl,rfl⟩

theorem stepTurns (ok : step w size s action = some (s',out)) : ∃ inner,
    LoopTurn w size s.ring s'.ring s.draining s'.draining inner action.drains action.consumes ∧
    accepted out = Spsc.accepted inner ∧ delivered out = Spsc.delivered inner := by
  cases action with
  | emit event =>
    simp only [step] at ok
    split at ok <;> try contradiction
    cases Option.some.inj ok
    exact ⟨[],.still rfl rfl rfl,rfl,rfl⟩
  | produce => exact produceTurns ok
  | drain =>
    simp only [step] at ok
    split at ok <;> try contradiction
    obtain ⟨⟨ring,inner⟩,moved,last⟩ := Option.bind_eq_some_iff.mp ok
    cases Option.some.inj last
    exact ⟨inner,.enter moved,acceptedRing inner,deliveredRing inner⟩
  | consume =>
    simp only [step,consume,nextPop] at ok
    split at ok <;> try contradiction
    rename_i busy
    obtain ⟨⟨ring,inner⟩,moved,last⟩ := Option.bind_eq_some_iff.mp ok
    cases Option.some.inj last
    exact ⟨inner,.next busy moved (by simp),acceptedRing inner,deliveredRing inner⟩

theorem stepPushing (current : s.ring.producer = .idle ↔ s.emitting ≠ .pushing) (moved : Moves w size s out s') :
    s'.ring.producer = .idle ↔ s'.emitting ≠ .pushing := by
  cases moved with
  | emit pc => simpa [pc] using current
  | refuse pc few mild => simpa [pc] using current
  | pass pc enough => simpa [pc] using current
  | push pc moved =>
    simp only [Spsc.step] at moved
    split at moved <;> try contradiction
    cases Option.some.inj moved
    simp
  | pushing pc moved => cases Spsc.produceMoves moved <;> simp [settle]
  | count pc => simpa [pc] using current
  | drain resting moved =>
    rw [(readerFrame rfl moved).1]
    exact current
  | consume busy moved =>
    rw [nextPop] at moved
    rw [(readerFrame (nextReads _) moved).1]
    exact current

theorem stepLooping (fits : size < 2^w) (inv : Looping w size s past) (ok : step w size s action = some (s',out)) :
    Looping w size s' (past ++ out) := by
  obtain ⟨inner,turn,taken,given⟩ := stepTurns ok
  have stocked := turnStocked fits inv.stocked turn
  refine ⟨?_,stepPushing inv.pushing (stepMoves ok),turnLoops fits inv.stocked.toIndexed inv.loop turn stocked.known⟩
  rw [acceptedAppend,deliveredAppend,List.length_append,List.length_append,taken,given]
  exact stocked

theorem loopPays (fits : size < 2^w) (inv : Looping w size s past) (same : action.drains = false)
    (ok : step w size s action = some (s',out)) :
    (if action.consumes then 1 else 0) + drainLeft w s' ≤ drainLeft w s + 4 * (accepted out).length := by
  obtain ⟨inner,turn,taken,_⟩ := stepTurns ok
  have stocked := turnStocked fits inv.stocked turn
  rw [same] at turn
  rw [taken]
  exact turnPays fits inv.stocked.toIndexed inv.loop turn stocked.known

theorem newLooping {s : EventBus} (made : new size = .ok s) : Looping w size s [] := by
  unfold new at made
  obtain ⟨_,_,made⟩ := bindOk made
  obtain ⟨ring,fresh,made⟩ := bindOk made
  obtain ⟨_,rfl⟩ := newEmpty fresh
  cases made
  exact ⟨emptyStocked w size,by simp [empty],by simp⟩

theorem runLooping (fits : size < 2^w) {actions : List Action} {s₀ : EventBus} (made : new size = .ok s₀)
    (ok : run (step w size) s₀ actions = some (s,past)) : Looping w size s past :=
  runInvariant (P := Looping w size) (newLooping made) (fun _ _ _ _ _ inv moved => stepLooping fits inv moved) ok

end Steps

theorem emitAndDrainReturn {w size : Nat} (fits : size < 2^w) {s₀ s s' : EventBus} {before after : List Action}
    {past out : List BusEvent} (made : new size = .ok s₀) (reached : run (step w size) s₀ before = some (s,past))
    (continued : run (step w size) s after = some (s',out)) :
    after.countP Action.produces + emitLeft s' ≤ emitLeft s + 5 * after.countP Action.emits ∧
    (s'.emitting ≠ .idle → ∃ r, step w size s' .produce = some r) ∧
    ((∀ a ∈ after, a.drains = false) →
      after.countP Action.consumes + drainLeft w s' ≤ drainLeft w s + 4 * (accepted out).length) ∧
    (s'.draining = true → ∃ r, step w size s' .consume = some r) := by
  have inv := runLooping fits made reached
  have inv' := runLooping fits made (runThen reached continued)
  have emits := runPays emitLeft (fun _ _ _ _ => emitPays (w := w)) continued
  rw [totalCount continued,totalCount continued,Nat.one_mul] at emits
  refine ⟨emits,emitMoves inv',?_,?_⟩
  · intro same
    have drains := runPaysUnder (P := Looping w size) (drainLeft w) (fun _ _ _ _ _ inv moved => stepLooping fits inv moved)
      (fun a mem _ _ _ _ inv moved => loopPays fits inv (same a mem) moved) past inv continued
    rwa [totalCount continued,totalEvents rfl acceptedAppend continued,Nat.one_mul] at drains
  · intro busy
    obtain ⟨⟨ring,inner⟩,moved⟩ := drainMoves size (inv'.loop busy)
    exact ⟨_,by simp only [step,consume,nextPop,busy,if_true,moved]; rfl⟩

def emitOver : List Action := [.consume] ++ emitWhole (.spscOverflow 1) ++ List.replicate 8 .consume

theorem emitAndDrainReturnLate :
    ∃ s past s' out, run (step 4 9) ⟨empty KernelEvent 9,0,.idle,false⟩ (emitWhole .audioThreadStarted ++ [.drain]) =
        some (s,past) ∧ run (step 4 9) s emitOver = some (s',out) ∧ drainLeft 4 s = 5 ∧ drainLeft 4 s' = 0 ∧
      emitOver.countP Action.consumes + drainLeft 4 s' ≤ drainLeft 4 s + 4 * (accepted out).length := by
  have tested : (run (step 4 9) ⟨empty KernelEvent 9,0,.idle,false⟩ (emitWhole .audioThreadStarted ++ [.drain])).any (fun r =>
      decide (drainLeft 4 r.1 = 5) && (run (step 4 9) r.1 emitOver).any (fun q =>
        decide (drainLeft 4 q.1 = 0))) = true := by
    decide +kernel
  obtain ⟨⟨s,past⟩,first,tested⟩ := (Option.any_eq_true _ _).mp tested
  obtain ⟨early,tested⟩ := Bool.and_eq_true_iff.mp tested
  obtain ⟨⟨s',out⟩,second,late⟩ := (Option.any_eq_true _ _).mp tested
  have fits : 9 < 2^4 := by decide
  have bound := emitAndDrainReturn fits rfl first second
  exact ⟨s,past,s',out,first,second,of_decide_eq_true early,of_decide_eq_true late,bound.2.2.1 (by decide)⟩

end Riaps.Bus
