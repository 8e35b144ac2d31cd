import Riaps.GainNode
import Riaps.SpscProgress

/-! A gain node always gets through its block. `process` begins with a drain of the
parameter queue while the interface may go on pushing: the drain makes four accesses
for each value it finds or is given meanwhile, never waits, and the interface's own
`try_push` is over after three accesses whether the audio thread moves or not. -/
namespace Riaps.Gain
open Library.Checks Library.Machine Library.Progress Spsc Parameter

section Turns
variable {α : Type}

def drains : Parameter.Action α → Bool
  | .drainTo => true
  | _ => false

def consumes : Parameter.Action α → Bool
  | .consume => true
  | _ => false

theorem queueTurns {w size : Nat} {q q' : ParameterQueue α} {action : Parameter.Action α} {out : List (Parameter.Event α)}
    (popping : Popping q.ring.consumer) (ok : Parameter.step w size q action = some (q',out)) : ∃ inner,
    LoopTurn w size q.ring q'.ring q.draining.isSome q'.draining.isSome inner (drains action) (consumes action) ∧
    Parameter.accepted out = Spsc.accepted inner := by
  cases action with
  | tryPush value =>
    obtain ⟨⟨ring,inner⟩,moved,last⟩ := Option.bind_eq_some_iff.mp ok
    cases Option.some.inj last
    exact ⟨inner,.write rfl moved rfl,Parameter.acceptedRing inner⟩
  | produce =>
    obtain ⟨⟨ring,inner⟩,moved,last⟩ := Option.bind_eq_some_iff.mp ok
    cases Option.some.inj last
    exact ⟨inner,.write rfl moved rfl,Parameter.acceptedRing inner⟩
  | drainTo =>
    simp only [Parameter.step] at ok
    split at ok <;> try contradiction
    obtain ⟨⟨ring,inner⟩,moved,last⟩ := Option.bind_eq_some_iff.mp ok
    cases Option.some.inj last
    exact ⟨inner,.enter moved,Parameter.acceptedRing inner⟩
  | consume =>
    simp only [Parameter.step] at ok
    split at ok <;> try contradiction
    rename_i updated busy
    obtain ⟨⟨ring,inner⟩,moved,last⟩ := Option.bind_eq_some_iff.mp ok
    cases Option.some.inj last
    obtain ⟨_,rfl | ⟨value,rfl⟩ | rfl⟩ := popMoves popping moved
    · exact ⟨_,.next (by simp [busy]) moved (by simp [settle]),rfl⟩
    · exact ⟨_,.next (by simp [busy]) moved (by simp [settle]),rfl⟩
    · exact ⟨_,.next (by simp [busy]) moved (by simp [settle]),rfl⟩

def Action.pushes : Action α → Bool
  | .tryPush _ => true
  | _ => false

def Action.produces : Action α → Bool
  | .produce => true
  | _ => false

def Action.processes : Action α → Bool
  | .process _ _ => true
  | _ => false

def Action.consumes : Action α → Bool
  | .consume => true
  | _ => false

def processLeft (w : Nat) (s : GainNode α) : Nat := loopLeft w s.paramDb.draining.isSome s.paramDb.ring

variable {w : Nat} {dbToLinear : α → α} {mul : α → α → α} {initial : α} {s s' : GainNode α} {past out : List (Event α)}
  {action : Action α}

theorem applyQueue (s : GainNode α) (updated : Bool) (db : α) :
    (apply dbToLinear s updated db).paramDb = s.paramDb ∧ (apply dbToLinear s updated db).block = s.block := by
  unfold apply
  split <;> exact ⟨rfl,rfl⟩

theorem stepTurns (popping : Popping s.paramDb.ring.consumer) (ok : step w dbToLinear mul s action = some (s',out)) : ∃ inner,
    LoopTurn w PARAM_CAPACITY s.paramDb.ring s'.paramDb.ring s.paramDb.draining.isSome s'.paramDb.draining.isSome inner
      action.processes action.consumes ∧ Parameter.accepted (queueEvents out) = Spsc.accepted inner := by
  cases action with
  | tryPush value =>
    obtain ⟨⟨queue,inner⟩,moved,last⟩ := Option.bind_eq_some_iff.mp ok
    cases Option.some.inj last
    rw [queueEventsMap]
    exact queueTurns popping moved
  | produce =>
    obtain ⟨⟨queue,inner⟩,moved,last⟩ := Option.bind_eq_some_iff.mp ok
    cases Option.some.inj last
    rw [queueEventsMap]
    exact queueTurns popping moved
  | process inputs outputs =>
    simp only [step] at ok
    split at ok <;> try contradiction
    obtain ⟨⟨queue,inner⟩,moved,last⟩ := Option.bind_eq_some_iff.mp ok
    cases Option.some.inj last
    rw [queueEventsMap]
    exact queueTurns (q := {s.paramDb with dst := s.gainDb}) popping moved
  | consume =>
    simp only [step] at ok
    split at ok <;> try contradiction
    obtain ⟨⟨queue,inner⟩,moved,last⟩ := Option.bind_eq_some_iff.mp ok
    simp only at last
    split at last <;> cases Option.some.inj last
    · rw [(applyQueue _ _ _).1,queueEventsAppend,queueEventsMap,queueEventsProcessed,List.append_nil]
      exact queueTurns popping moved
    · rw [queueEventsMap]
      exact queueTurns popping moved

theorem consumeBlock {inputs outputs : List α} (popping : Popping s.paramDb.ring.consumer)
    (block : s.block = some (inputs,outputs)) (ok : consume w dbToLinear mul s inputs outputs = some (s',out)) :
    s'.block.isSome = s'.paramDb.draining.isSome := by
  obtain ⟨⟨queue,inner⟩,moved,last⟩ := Option.bind_eq_some_iff.mp ok
  simp only [Parameter.step] at moved
  split at moved <;> try contradiction
  obtain ⟨⟨ring,told⟩,popped,same⟩ := Option.bind_eq_some_iff.mp moved
  cases Option.some.inj same
  obtain ⟨_,rfl | ⟨value,rfl⟩ | rfl⟩ := popMoves popping popped
  · cases Option.some.inj last
    simp [block,settle]
  · cases Option.some.inj last
    simp [block,settle]
  · cases Option.some.inj last
    rw [(applyQueue _ _ _).1,(applyQueue _ _ _).2]
    rfl

theorem stepBlock (popping : Popping s.paramDb.ring.consumer) (same : s.block.isSome = s.paramDb.draining.isSome)
    (ok : step w dbToLinear mul s action = some (s',out)) : s'.block.isSome = s'.paramDb.draining.isSome := by
  cases action with
  | tryPush value =>
    obtain ⟨⟨queue,inner⟩,moved,last⟩ := Option.bind_eq_some_iff.mp ok
    cases Option.some.inj last
    obtain ⟨_,_,kept⟩ := writerQueue (.inl ⟨value,rfl⟩) moved
    exact same.trans (congrArg Option.isSome kept.symm)
  | produce =>
    obtain ⟨⟨queue,inner⟩,moved,last⟩ := Option.bind_eq_some_iff.mp ok
    cases Option.some.inj last
    obtain ⟨_,_,kept⟩ := writerQueue (.inr rfl) moved
    exact same.trans (congrArg Option.isSome kept.symm)
  | process inputs outputs =>
    simp only [step] at ok
    split at ok <;> try contradiction
    obtain ⟨⟨queue,inner⟩,moved,last⟩ := Option.bind_eq_some_iff.mp ok
    cases Option.some.inj last
    simp only [Parameter.step] at moved
    split at moved <;> try contradiction
    obtain ⟨⟨ring,told⟩,_,last⟩ := Option.bind_eq_some_iff.mp moved
    cases Option.some.inj last
    rfl
  | consume =>
    simp only [step] at ok
    split at ok <;> try contradiction
    exact consumeBlock popping (by assumption) ok

structure Looping (w : Nat) (dbToLinear : α → α) (mul : α → α → α) (initial : α) (s : GainNode α)
    (past : List (Event α)) : Prop where
  steady : Steady w dbToLinear mul initial s past
  block : s.block.isSome = s.paramDb.draining.isSome
  loop : s.paramDb.draining.isSome = true → 0 < toDrain w s.paramDb.ring

theorem stepLooping (fits : PARAM_CAPACITY < 2^w) (inv : Looping w dbToLinear mul initial s past)
    (ok : step w dbToLinear mul s action = some (s',out)) : Looping w dbToLinear mul initial s' (past ++ out) := by
  have drained := inv.steady.drained
  obtain ⟨inner,turn,_⟩ := stepTurns drained.popping ok
  have steady := stepSteady fits inv.steady ok
  refine ⟨steady,stepBlock drained.popping inv.block ok,?_⟩
  exact turnLoops fits drained.consistent.toIndexed inv.loop turn steady.drained.consistent.known

theorem loopPays (fits : PARAM_CAPACITY < 2^w) (inv : Looping w dbToLinear mul initial s past)
    (same : action.processes = false) (ok : step w dbToLinear mul s action = some (s',out)) :
    (if action.consumes then 1 else 0) + processLeft w s' ≤
      processLeft w s + 4 * (Parameter.accepted (queueEvents out)).length := by
  have drained := inv.steady.drained
  obtain ⟨inner,turn,taken⟩ := stepTurns drained.popping ok
  rw [same] at turn
  rw [taken]
  exact turnPays fits drained.consistent.toIndexed inv.loop turn (stepSteady fits inv.steady ok).drained.consistent.known

theorem newResting (made : new dbToLinear initial = .ok s) : s.block = none ∧ s.paramDb.draining = none := by
  unfold new at made
  obtain ⟨queue,queueMade,made⟩ := bindOk made
  cases made
  unfold Parameter.new at queueMade
  obtain ⟨ring,_,queueMade⟩ := bindOk queueMade
  cases queueMade
  exact ⟨rfl,rfl⟩

theorem runLooping (fits : PARAM_CAPACITY < 2^w) {actions : List (Action α)} {s₀ : GainNode α}
    (made : new dbToLinear initial = .ok s₀) (ok : run (step w dbToLinear mul) s₀ actions = some (s,past)) :
    Looping w dbToLinear mul initial s past := by
  obtain ⟨free,resting⟩ := newResting made
  exact runInvariant (P := Looping w dbToLinear mul initial) ⟨newSteady made,by simp [free,resting],by simp [resting]⟩
    (fun _ _ _ _ _ inv moved => stepLooping fits inv moved) ok

theorem writerPays {q q' : ParameterQueue α} {a : Parameter.Action α} {told : List (Parameter.Event α)} {b : Spsc.Action α}
    (same : Parameter.step w PARAM_CAPACITY q a = (do
      let (ring,out) ← Spsc.step w PARAM_CAPACITY q.ring b
      some ({q with ring := ring},out.map .ring)))
    (moved : Parameter.step w PARAM_CAPACITY q a = some (q',told)) :
    (if b.produces then 1 else 0) + q'.ring.producer.left ≤ q.ring.producer.left + if b.pushes then 3 else 0 := by
  rw [same] at moved
  obtain ⟨⟨ring,inner⟩,turned,last⟩ := Option.bind_eq_some_iff.mp moved
  cases Option.some.inj last
  exact producerPays turned

theorem pushPays (popping : Popping s.paramDb.ring.consumer) (ok : step w dbToLinear mul s action = some (s',out)) :
    (if action.produces then 1 else 0) + s'.paramDb.ring.producer.left ≤
      s.paramDb.ring.producer.left + if action.pushes then 3 else 0 := by
  cases action with
  | tryPush value =>
    obtain ⟨⟨queue,inner⟩,moved,last⟩ := Option.bind_eq_some_iff.mp ok
    cases Option.some.inj last
    exact writerPays rfl moved
  | produce =>
    obtain ⟨⟨queue,inner⟩,moved,last⟩ := Option.bind_eq_some_iff.mp ok
    cases Option.some.inj last
    exact writerPays rfl moved
  | process inputs outputs =>
    obtain ⟨inner,turn,_⟩ := stepTurns popping ok
    cases turn with
    | enter moved => simp [Action.produces,(readerFrame rfl moved).1]
  | consume =>
    obtain ⟨inner,turn,_⟩ := stepTurns popping ok
    cases turn with
    | next looping moved loop => simp [Action.produces,(readerFrame (nextReads _) moved).1]

theorem consumeMoves (w : Nat) (dbToLinear : α → α) (mul : α → α → α) (block : s.block.isSome = true)
    (busy : s.paramDb.draining.isSome = true) (loop : 0 < toDrain w s.paramDb.ring) :
    ∃ r, step w dbToLinear mul s .consume = some r := by
  obtain ⟨⟨inputs,outputs⟩,at_⟩ := Option.isSome_iff_exists.mp block
  obtain ⟨updated,looping⟩ := Option.isSome_iff_exists.mp busy
  obtain ⟨⟨ring,inner⟩,moved⟩ := drainMoves PARAM_CAPACITY loop
  have queue : ∃ r, Parameter.step w PARAM_CAPACITY s.paramDb .consume = some r := by
    simp [Parameter.step,looping,moved]
  obtain ⟨⟨queue,told⟩,turned⟩ := queue
  simp only [step,at_,consume,turned,bind,Option.bind_some]
  split <;> exact ⟨_,rfl⟩

theorem produceMoves (w : Nat) (dbToLinear : α → α) (mul : α → α → α) (busy : s.paramDb.ring.producer ≠ .idle) :
    ∃ r, step w dbToLinear mul s .produce = some r := by
  obtain ⟨⟨ring,inner⟩,moved⟩ := producerMoves w PARAM_CAPACITY busy
  simp [step,Parameter.step,moved]

end Turns

theorem processReturns {α : Type} {w : Nat} {dbToLinear : α → α} {mul : α → α → α} {initial : α}
    (fits : PARAM_CAPACITY < 2^w) {s₀ s s' : GainNode α} {before after : List (Action α)} {past out : List (Event α)}
    (made : new dbToLinear initial = .ok s₀) (reached : run (step w dbToLinear mul) s₀ before = some (s,past))
    (continued : run (step w dbToLinear mul) s after = some (s',out)) :
    ((∀ a ∈ after, a.processes = false) → after.countP Action.consumes + processLeft w s' ≤
      processLeft w s + 4 * (Parameter.accepted (queueEvents out)).length) ∧
    (s'.block.isSome = true → ∃ r, step w dbToLinear mul s' .consume = some r) ∧
    after.countP Action.produces + s'.paramDb.ring.producer.left ≤
      s.paramDb.ring.producer.left + 3 * after.countP Action.pushes ∧
    (s'.paramDb.ring.producer ≠ .idle → ∃ r, step w dbToLinear mul s' .produce = some r) := by
  have inv := runLooping fits made reached
  have inv' := runLooping fits made (runThen reached continued)
  refine ⟨?_,?_,?_,produceMoves w dbToLinear mul⟩
  · intro same
    have drains := runPaysUnder (P := Looping w dbToLinear mul initial) (processLeft w)
      (fun _ _ _ _ _ inv moved => stepLooping fits inv moved)
      (fun a mem _ _ _ _ inv moved => loopPays fits inv (same a mem) moved) past inv continued
    rwa [totalCount continued,totalEvents (f := fun out => Parameter.accepted (queueEvents out)) rfl (by simp) continued,
      Nat.one_mul] at drains
  · intro block
    have busy := inv'.block.symm.trans block
    exact consumeMoves w dbToLinear mul block busy (inv'.loop busy)
  · have pushes := runPaysUnder (P := Looping w dbToLinear mul initial) (fun s => s.paramDb.ring.producer.left)
      (fun _ _ _ _ _ inv moved => stepLooping fits inv moved)
      (fun _ _ _ _ _ _ inv moved => pushPays inv.steady.drained.popping moved) past inv continued
    rwa [totalCount continued,totalCount continued,Nat.one_mul] at pushes

def pushedEarly : List (Action Nat) := [.tryPush 3,.produce,.produce,.produce,.process [2,4] [0,0]]

def pushedLate : List (Action Nat) :=
  [.consume,.tryPush 5,.consume,.produce,.produce,.produce] ++ List.replicate 7 .consume

theorem processReturnsLate :
    ∃ s past s' out, run (step 5 (fun db => db + 1) (fun x g => x * g)) ⟨7,8,⟨empty Nat 16,none,7⟩,none⟩ pushedEarly =
        some (s,past) ∧ run (step 5 (fun db => db + 1) (fun x g => x * g)) s pushedLate = some (s',out) ∧
      processLeft 5 s = 5 ∧ s'.block = none ∧ pushedLate.countP Action.consumes + processLeft 5 s' ≤
        processLeft 5 s + 4 * (Parameter.accepted (queueEvents out)).length := by
  have tested : (run (step 5 (fun db => db + 1) (fun x g => x * g)) ⟨7,8,⟨empty Nat 16,none,7⟩,none⟩ pushedEarly).any (fun r =>
      decide (processLeft 5 r.1 = 5) && (run (step 5 (fun db => db + 1) (fun x g => x * g)) r.1 pushedLate).any (fun q =>
        decide (q.1.block = none))) = true := by
    decide +kernel
  obtain ⟨⟨s,past⟩,first,tested⟩ := (Option.any_eq_true _ _).mp tested
  obtain ⟨early,tested⟩ := Bool.and_eq_true_iff.mp tested
  obtain ⟨⟨s',out⟩,second,late⟩ := (Option.any_eq_true _ _).mp tested
  have fits : PARAM_CAPACITY < 2^5 := by decide
  have made : new (fun db => db + 1) 7 = .ok ⟨7,8,⟨empty Nat 16,none,7⟩,none⟩ := rfl
  have bound := processReturns fits made first second
  exact ⟨s,past,s',out,first,second,of_decide_eq_true early,of_decide_eq_true late,bound.1 (by decide)⟩

end Riaps.Gain
