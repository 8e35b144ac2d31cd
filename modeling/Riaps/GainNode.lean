import Riaps.ParameterQueue

/-! The gain node over its parameter queue. `process` drains into a local copy of
`gain_db`, writes both fields back if something came, and scales the block after
the last shared access, so that the whole block is under one gain. -/
namespace Riaps.Gain
open Library.Checks Library.Wrapping Library.Machine Spsc Parameter

def PARAM_CAPACITY : Nat := 16

/- `block` holds the inputs and outputs of the `process` call in progress; its local `db` is
the queue's `dst`. -/
structure GainNode (α : Type) where
  gainDb : α
  gainLin : α
  paramDb : ParameterQueue α
  block : Option (List α × List α)
  deriving DecidableEq, Repr

inductive Action (α : Type) where
  | tryPush (value : α)
  | produce
  | process (inputs outputs : List α)
  | consume
  deriving DecidableEq, Repr

inductive Event (α : Type) where
  | queue (event : Parameter.Event α)
  | processed (inputs outputs result : List α)
  deriving DecidableEq, Repr

section Steps
variable {α : Type} (w : Nat) (dbToLinear : α → α) (mul : α → α → α)

def new (gainDb : α) : Checked (GainNode α) := do
  let paramDb ← Parameter.new PARAM_CAPACITY gainDb
  return ⟨gainDb,dbToLinear gainDb,paramDb,none⟩

def scale (g : α) : List α → List α → List α
  | _ :: outputs,i :: inputs => mul i g :: scale g outputs inputs
  | outputs,_ => outputs

def apply (s : GainNode α) (updated : Bool) (db : α) : GainNode α :=
  if updated then {s with gainDb := db, gainLin := dbToLinear db} else s

def consume (s : GainNode α) (inputs outputs : List α) : Option (GainNode α × List (Event α)) := do
  let (queue,out) ← Parameter.step w PARAM_CAPACITY s.paramDb .consume
  match out.getLast? with
  | some (.returned updated db) =>
      let s' := apply dbToLinear {s with paramDb := queue, block := none} updated db
      some (s',out.map .queue ++ [.processed inputs outputs (scale mul s'.gainLin outputs inputs)])
  | _ => some ({s with paramDb := queue},out.map .queue)

def step (s : GainNode α) : Action α → Option (GainNode α × List (Event α))
  | .tryPush value => do
      let (queue,out) ← Parameter.step w PARAM_CAPACITY s.paramDb (.tryPush value)
      some ({s with paramDb := queue},out.map .queue)
  | .produce => do
      let (queue,out) ← Parameter.step w PARAM_CAPACITY s.paramDb .produce
      some ({s with paramDb := queue},out.map .queue)
  | .process inputs outputs =>
      match s.block with
      | some _ => none
      | none => do
          let (queue,out) ← Parameter.step w PARAM_CAPACITY {s.paramDb with dst := s.gainDb} .drainTo
          some ({s with paramDb := queue, block := some (inputs,outputs)},out.map .queue)
  | .consume =>
      match s.block with
      | none => none
      | some (inputs,outputs) => consume w dbToLinear mul s inputs outputs

end Steps

section Histories
variable {α : Type}

def Event.inner : Event α → Option (Parameter.Event α)
  | .queue event => some event
  | .processed _ _ _ => none

def queueEvents (events : List (Event α)) : List (Parameter.Event α) := events.filterMap Event.inner

@[simp] theorem queueEventsAppend (past out : List (Event α)) :
    queueEvents (past ++ out) = queueEvents past ++ queueEvents out := by
  simp [queueEvents]

@[simp] theorem queueEventsMap (out : List (Parameter.Event α)) : queueEvents (out.map .queue) = out := by
  simp [queueEvents,List.filterMap_map,Function.comp_def,Event.inner]

@[simp] theorem queueEventsProcessed (inputs outputs result : List α) :
    queueEvents [Event.processed inputs outputs result] = [] := rfl

structure ScaledBy (mul : α → α → α) (g : α) (inputs outputs result : List α) : Prop where
  size : result.length = outputs.length
  scaled : ∀ k x, k < outputs.length → inputs[k]? = some x → result[k]? = some (mul x g)
  rest : ∀ k, inputs.length ≤ k → result[k]? = outputs[k]?

theorem scaleScales (mul : α → α → α) (g : α) (outputs inputs : List α) :
    ScaledBy mul g inputs outputs (scale mul g outputs inputs) := by
  induction outputs generalizing inputs with
  | nil => exact ⟨by simp [scale],by simp,by simp [scale]⟩
  | cons o outputs ih =>
    cases inputs with
    | nil => exact ⟨by simp [scale],by simp,by simp [scale]⟩
    | cons i inputs =>
      have tail := ih inputs
      refine ⟨by simp [scale,tail.size],?_,?_⟩
      · intro k x bound present
        cases k with
        | zero =>
          cases Option.some.inj present
          rfl
        | succ k => exact tail.scaled k x (by simpa using bound) present
      · intro k beyond
        cases k with
        | zero => simp at beyond
        | succ k => exact tail.rest k (by simpa using beyond)

end Histories

section Law
variable {α : Type}

def OneGain (dbToLinear : α → α) (mul : α → α → α) (initial : α) (past : List (Event α)) : Event α → Prop
  | .queue _ => True
  | .processed inputs outputs result =>
      ScaledBy mul (dbToLinear ((accepted (queueEvents past)).getLastD initial)) inputs outputs result

structure Steady (w : Nat) (dbToLinear : α → α) (mul : α → α → α) (initial : α) (s : GainNode α)
    (events : List (Event α)) : Prop where
  drained : Drained w PARAM_CAPACITY initial s.paramDb (queueEvents events)
  linear : s.gainLin = dbToLinear s.gainDb
  shown : s.gainDb = (accepted (untilReturn (queueEvents events))).getLastD initial
  resting : s.block = none → s.paramDb.draining = none
  law : Everywhere (OneGain dbToLinear mul initial) events

variable {w : Nat} {dbToLinear : α → α} {mul : α → α → α} {initial : α} {s : GainNode α} {events : List (Event α)}

theorem newSteady (made : new dbToLinear initial = .ok s) : Steady w dbToLinear mul initial s [] := by
  unfold new at made
  obtain ⟨queue,queueMade,made⟩ := bindOk made
  cases made
  have drained : Drained w PARAM_CAPACITY initial queue [] := newDrained queueMade
  have idle : queue.draining = none := by
    unfold Parameter.new at queueMade
    obtain ⟨ring,_,queueMade⟩ := bindOk queueMade
    cases queueMade
    rfl
  exact ⟨drained,rfl,rfl,fun _ => idle,everywhereNil⟩

/- A drain that has found nothing so far still holds the gain it began with. -/
theorem Steady.unchanged (inv : Steady w dbToLinear mul initial s events) (still : s.paramDb.draining.getD false = false) :
    s.paramDb.dst = s.gainDb := by
  have none_ : delivered (sinceReturn (queueEvents events)) = [] := by
    by_contra some_
    simp [inv.drained.flag.mpr some_] at still
  rw [inv.drained.kept,inv.shown,inv.drained.caught]
  conv_lhs => rw [← dividedAt (queueEvents events),Parameter.deliveredAppend,none_,List.append_nil]

theorem queueQuiet (law : Everywhere (OneGain dbToLinear mul initial) events) (out : List (Parameter.Event α)) :
    Everywhere (OneGain dbToLinear mul initial) (events ++ out.map .queue) := by
  refine everywhereQuiet law ?_
  intro e mem past
  obtain ⟨event,_,rfl⟩ := List.mem_map.mp mem
  trivial

theorem Steady.queueStep (inv : Steady w dbToLinear mul initial s events) {queue : ParameterQueue α}
    {inner : List (Spsc.Event α)} {block : Option (List α × List α)}
    (drained : Drained w PARAM_CAPACITY initial queue (queueEvents events ++ inner.map .ring))
    (resting : block = none → queue.draining = none) :
    Steady w dbToLinear mul initial {s with paramDb := queue, block := block}
      (events ++ (inner.map Parameter.Event.ring).map .queue) := by
  refine ⟨?_,inv.linear,?_,resting,queueQuiet inv.law _⟩
  · rw [queueEventsAppend,queueEventsMap]
    exact drained
  · rw [queueEventsAppend,queueEventsMap,untilRing]
    exact inv.shown

theorem applyGain (inv : Steady w dbToLinear mul initial s events) {updated : Bool}
    (busy : s.paramDb.draining = some updated) {queue : ParameterQueue α} :
    apply dbToLinear {s with paramDb := queue, block := none} updated s.paramDb.dst =
      ⟨s.paramDb.dst,dbToLinear s.paramDb.dst,queue,none⟩ := by
  cases updated with
  | true => rfl
  | false =>
    have same := inv.unchanged (by rw [busy]; rfl)
    simp [apply,same,inv.linear]

theorem Steady.finish (inv : Steady w dbToLinear mul initial s events) {queue : ParameterQueue α} {updated : Bool}
    {inputs outputs : List α} {out : List (Parameter.Event α)} (told : out = [.ring .popNone,.returned updated s.paramDb.dst])
    (resting : queue.draining = none) (same : queue.dst = s.paramDb.dst)
    (drained : Drained w PARAM_CAPACITY initial queue (queueEvents events ++ out)) :
    Steady w dbToLinear mul initial ⟨s.paramDb.dst,dbToLinear s.paramDb.dst,queue,none⟩
      (events ++ (out.map .queue ++ [.processed inputs outputs (scale mul (dbToLinear s.paramDb.dst) outputs inputs)])) := by
  have whole : untilReturn (queueEvents events ++ out) = queueEvents events ++ out := by
    have split : queueEvents events ++ out =
        queueEvents events ++ [.ring .popNone] ++ [.returned updated s.paramDb.dst] := by simp [told]
    rw [split]
    exact untilReturned _ _ _
  have caught := drained.caught
  have kept := drained.kept
  rw [whole] at caught
  rw [← caught,same] at kept
  rw [← List.append_assoc]
  refine ⟨?_,rfl,?_,fun _ => resting,?_⟩
  · rw [queueEventsAppend,queueEventsAppend,queueEventsMap,queueEventsProcessed,List.append_nil]
    exact drained
  · rw [queueEventsAppend,queueEventsAppend,queueEventsMap,queueEventsProcessed,List.append_nil,whole]
    exact kept
  · refine everywhereSnoc (queueQuiet inv.law _) ?_
    change ScaledBy mul (dbToLinear ((accepted (queueEvents _)).getLastD initial)) inputs outputs _
    rw [queueEventsAppend,queueEventsMap,← kept]
    exact scaleScales mul _ outputs inputs

theorem writerQueue {queue queue' : ParameterQueue α} {action : Parameter.Action α} {out : List (Parameter.Event α)}
    (writer : (∃ value, action = .tryPush value) ∨ action = .produce)
    (moved : Parameter.step w PARAM_CAPACITY queue action = some (queue',out)) :
    ∃ inner : List (Spsc.Event α), out = inner.map .ring ∧ queue'.draining = queue.draining := by
  rcases writer with ⟨value,rfl⟩ | rfl <;>
  · obtain ⟨⟨ring,inner⟩,_,last⟩ := Option.bind_eq_some_iff.mp moved
    cases Option.some.inj last
    exact ⟨inner,rfl,rfl⟩

theorem capAligned (fits : PARAM_CAPACITY < 2^w) (count : Nat) : Aligned w PARAM_CAPACITY count :=
  .inr (powerDivides (k := 4) fits)

theorem stepSteady (fits : PARAM_CAPACITY < 2^w) (inv : Steady w dbToLinear mul initial s events) {s' : GainNode α}
    {action : Action α} {out : List (Event α)} (ok : step w dbToLinear mul s action = some (s',out)) :
    Steady w dbToLinear mul initial s' (events ++ out) := by
  have next {queue : ParameterQueue α} {action : Parameter.Action α} {inner : List (Parameter.Event α)}
      (moved : Parameter.step w PARAM_CAPACITY s.paramDb action = some (queue,inner)) :=
    stepDrained fits inv.drained (capAligned fits _) moved
  cases action with
  | tryPush value =>
    obtain ⟨⟨queue,inner⟩,moved,last⟩ := Option.bind_eq_some_iff.mp ok
    cases Option.some.inj last
    obtain ⟨inner,rfl,kept⟩ := writerQueue (.inl ⟨value,rfl⟩) moved
    exact inv.queueStep (next moved) (fun free => kept.trans (inv.resting free))
  | produce =>
    obtain ⟨⟨queue,inner⟩,moved,last⟩ := Option.bind_eq_some_iff.mp ok
    cases Option.some.inj last
    obtain ⟨inner,rfl,kept⟩ := writerQueue (.inr rfl) moved
    exact inv.queueStep (next moved) (fun free => kept.trans (inv.resting free))
  | process inputs outputs =>
    simp only [step] at ok
    split at ok <;> try contradiction
    rename_i free
    have same : {s.paramDb with dst := s.gainDb} = s.paramDb := by
      rw [← inv.unchanged (by rw [inv.resting free]; rfl)]
    rw [same] at ok
    obtain ⟨⟨queue,inner⟩,moved,last⟩ := Option.bind_eq_some_iff.mp ok
    cases Option.some.inj last
    have drained := next moved
    rcases movesReturn (stepMoves inv.drained.popping moved).1 with ⟨inner,rfl⟩ | ⟨updated,busy,_⟩
    · exact inv.queueStep drained (fun none_ => by cases none_)
    · rw [inv.resting free] at busy
      cases busy
  | consume =>
    simp only [step] at ok
    split at ok <;> try contradiction
    rename_i inputs outputs block
    obtain ⟨⟨queue,inner⟩,moved,last⟩ := Option.bind_eq_some_iff.mp ok
    have drained := next moved
    rcases movesReturn (stepMoves inv.drained.popping moved).1 with ⟨inner,rfl⟩ | ⟨updated,busy,rfl,resting,same⟩
    · have silent : ∀ updated db, (inner.map Parameter.Event.ring).getLast? = some (.returned updated db) → False := by
        simp [List.getLast?_map]
      simp only at last
      cases Option.some.inj last
      have free : s.block = none → queue.draining = none := by
        rw [block]
        intro none_
        cases none_
      exact inv.queueStep drained free
    · cases Option.some.inj last
      rw [applyGain inv busy]
      exact inv.finish rfl resting same drained

theorem runSteady (fits : PARAM_CAPACITY < 2^w) {actions : List (Action α)} {s₀ : GainNode α}
    (made : new dbToLinear initial = .ok s₀) (ok : run (step w dbToLinear mul) s₀ actions = some (s,events)) :
    Steady w dbToLinear mul initial s events :=
  runInvariant (P := Steady w dbToLinear mul initial) (newSteady made)
    (fun _ _ _ _ _ inv moved => stepSteady fits inv moved) ok

end Law

theorem latestParameterLaw {α : Type} :
    (∀ (w size : Nat) (initial : α) (s₀ s : ParameterQueue α) (actions : List (Parameter.Action α))
        (events : List (Parameter.Event α)),
      size < 2^w → Parameter.new size initial = .ok s₀ →
      run (Parameter.step w size) s₀ actions = some (s,events) → (accepted events).length < 2^w →
      Everywhere (Latest initial) events ∧
      ∀ after s' out, run (Parameter.step w size) s after = some (s',out) → (accepted (events ++ out)).length < 2^w →
        (delivered events).length ≤ (delivered (events ++ out)).length ∧
        (initial :: accepted (events ++ out))[(delivered events).length]? = some s.dst ∧
        (initial :: accepted (events ++ out))[(delivered (events ++ out)).length]? = some s'.dst) ∧
    ∀ (w : Nat) (dbToLinear : α → α) (mul : α → α → α) (initial : α) (s₀ s : GainNode α) (actions : List (Action α))
        (events : List (Event α)),
      PARAM_CAPACITY < 2^w → new dbToLinear initial = .ok s₀ →
      run (step w dbToLinear mul) s₀ actions = some (s,events) →
      s.gainLin = dbToLinear s.gainDb ∧
      s.gainDb = (accepted (untilReturn (queueEvents events))).getLastD initial ∧
      Everywhere (Latest initial) (queueEvents events) ∧
      Everywhere (OneGain dbToLinear mul initial) events := by
  refine ⟨?_,?_⟩
  · intro w size initial s₀ s actions events fits made ok few
    have now := runDrained fits made ok (.inl few)
    refine ⟨now.law,?_⟩
    intro after s' out later fewer
    have then_ := runDrained fits made (runThen ok later) (.inl fewer)
    refine ⟨by simp,?_,then_.position⟩
    have here := now.position
    have bound := (List.getElem?_eq_some_iff.mp here).1
    rw [Parameter.acceptedAppend,← List.cons_append,List.getElem?_append_left bound]
    exact here
  · intro w dbToLinear mul initial s₀ s actions events fits made ok
    have inv := runSteady fits made ok
    exact ⟨inv.linear,inv.shown,inv.drained.law,inv.law⟩

/- A push lands after the drain has started and a full queue refuses the next one. -/
def refusedWhileDraining : List (Parameter.Action Nat) :=
  [.drainTo,.tryPush 5,.produce,.produce,.produce,.consume,.tryPush 6,.produce,.consume,.consume,.consume,.consume]

def pushedWhileProcessing : List (Action Nat) :=
  [.tryPush 3,.produce,.produce,.process [2,4] [0,0,9],.produce,.tryPush 5,.consume,.consume,.consume,.produce,.produce,
    .produce,.consume,.consume,.consume,.consume,.consume,.consume]

theorem latestParameterLawWhilePushing :
    (∃ s, run (Parameter.step 2 1) ⟨empty Nat 1,none,7⟩ refusedWhileDraining =
        some (s,[.ring (.pushOk 5),.ring (.pushErr 6),.ring (.popSome 5),.ring .popNone,.returned true 5]) ∧
      Everywhere (Latest 7) [.ring (.pushOk 5),.ring (.pushErr 6),.ring (.popSome 5),.ring .popNone,.returned true 5]) ∧
    ∃ s events, run (step 5 (fun db => db + 1) (fun x g => x * g)) ⟨7,8,⟨empty Nat 16,none,7⟩,none⟩ pushedWhileProcessing =
        some (s,events) ∧ events.getLast? = some (.processed [2,4] [0,0,9] [12,24,9]) ∧ s.gainLin = s.gainDb + 1 := by
  have law := latestParameterLaw (α := Nat)
  refine ⟨⟨_,rfl,?_⟩,_,_,rfl,rfl,?_⟩
  · exact (law.1 2 1 7 _ _ refusedWhileDraining _ (by decide) rfl rfl (by decide)).1
  · exact (law.2 5 (fun db => db + 1) (fun x g => x * g) 7 _ _ pushedWhileProcessing _ (by decide) rfl rfl).1

end Riaps.Gain
