import Riaps.SpscFifo

/-! One shard of the event bus. The reserve check of `emit` loads both indices of
its own before `push` loads them again, and the consumer may move between any
two of these loads. An event counts as discarded at the step that decides it;
the increment of the overflow counter is the next step of the same call. -/
namespace Riaps.Bus
open Library.Checks Library.Wrapping Library.Machine Spsc

def RESERVED_SLOTS : Nat := 8

inductive StopReason where
  | requested
  | hostError
  | panic
  deriving DecidableEq, Repr

inductive KernelEvent where
  | spscBackpressure (occupancyPct : UInt8)
  | spscOverflow (droppedCommands : UInt32)
  | gcBackpressure (level : UInt8)
  | gcEmergencySlotUsed (slotIndex : UInt8)
  | gcOrphanReclaimed (count : UInt32)
  | logQueueOverflow (droppedRecords : UInt32)
  | logFlushComplete (recordsFlushed : UInt32)
  | fpuSubnormalDetected (count : UInt32)
  | audioThreadStarted
  | audioThreadStopped (reason : StopReason)
  | shutdownProgress (step total : UInt8)
  | hostAdapterBlockSizeChanged (old new : Nat)
  | threadProvisionerFallback (requested granted : Int32)
  | performanceProbeOverload (nodeId elapsedUs budgetUs : UInt32)
  deriving DecidableEq, Repr

def KernelEvent.isFatal : KernelEvent → Bool
  | .audioThreadStopped _ => true
  | .hostAdapterBlockSizeChanged _ _ => true
  | .spscOverflow _ => true
  | _ => false

inductive Emit where
  | idle
  | loadedTail (event : KernelEvent) (tail : Nat)
  | passed (event : KernelEvent)
  | pushing
  | counting
  deriving DecidableEq, Repr

structure EventBus where
  ring : SpscRing KernelEvent
  overflowCounter : Nat
  emitting : Emit
  draining : Bool
  deriving DecidableEq, Repr

def new (size : Nat) : Checked EventBus := do
  ensure .assertion (RESERVED_SLOTS < size)
  let ring ← Spsc.new KernelEvent size
  return ⟨ring,0,.idle,false⟩

inductive Action where
  | emit (event : KernelEvent)
  | produce
  | drain
  | consume
  deriving DecidableEq, Repr

inductive BusEvent where
  | emitted (event : KernelEvent)
  | ring (event : Spsc.Event KernelEvent)
  | discarded (event : KernelEvent)
  deriving DecidableEq, Repr

section Steps
variable (w size : Nat)

/- What `emit` does once the push it started has taken a step. -/
def settle : List (Spsc.Event KernelEvent) → Emit × List BusEvent
  | [.pushOk _] => (.idle,[])
  | [.pushErr event] => (.counting,[.discarded event])
  | _ => (.pushing,[])

def produce (s : EventBus) : Option (EventBus × List BusEvent) :=
  match s.emitting with
  | .idle => none
  | .loadedTail event tail =>
      if capacityLeft w size tail s.ring.head ≤ RESERVED_SLOTS ∧ event.isFatal = false then
        some ({s with emitting := .counting},[.discarded event])
      else some ({s with emitting := .passed event},[])
  | .passed event => do
      let (ring,out) ← Spsc.step w size s.ring (.push event)
      some ({s with ring := ring, emitting := .pushing},out.map .ring)
  | .pushing => do
      let (ring,out) ← Spsc.step w size s.ring .produce
      some ({s with ring := ring, emitting := (settle out).1},out.map .ring ++ (settle out).2)
  | .counting => some ({s with overflowCounter := wrappingAdd 32 s.overflowCounter 1, emitting := .idle},[])

def consume (s : EventBus) : Option (EventBus × List BusEvent) :=
  if s.draining then do
    let (ring,out) ← Spsc.step w size s.ring (if s.ring.consumer = .idle then .pop else .consume)
    some ({s with ring := ring, draining := decide (.popNone ∉ out)},out.map .ring)
  else none

def step (s : EventBus) : Action → Option (EventBus × List BusEvent)
  | .emit event =>
      match s.emitting with
      | .idle => some ({s with emitting := .loadedTail event s.ring.tail},[.emitted event])
      | _ => none
  | .produce => produce w size s
  | .drain =>
      if s.draining then none
      else do
        let (ring,out) ← Spsc.step w size s.ring .pop
        some ({s with ring := ring, draining := true},out.map .ring)
  | .consume => consume w size s

inductive Moves (s : EventBus) : List BusEvent → EventBus → Prop where
  | emit {event} (pc : s.emitting = .idle) :
      Moves s [.emitted event] {s with emitting := .loadedTail event s.ring.tail}
  | refuse {event tail} (pc : s.emitting = .loadedTail event tail)
      (few : capacityLeft w size tail s.ring.head ≤ RESERVED_SLOTS) (mild : event.isFatal = false) :
      Moves s [.discarded event] {s with emitting := .counting}
  | pass {event tail} (pc : s.emitting = .loadedTail event tail)
      (enough : ¬(capacityLeft w size tail s.ring.head ≤ RESERVED_SLOTS ∧ event.isFatal = false)) :
      Moves s [] {s with emitting := .passed event}
  | push {event ring out} (pc : s.emitting = .passed event)
      (moved : Spsc.step w size s.ring (.push event) = some (ring,out)) :
      Moves s (out.map .ring) {s with ring := ring, emitting := .pushing}
  | pushing {ring out} (pc : s.emitting = .pushing) (moved : Spsc.step w size s.ring .produce = some (ring,out)) :
      Moves s (out.map .ring ++ (settle out).2) {s with ring := ring, emitting := (settle out).1}
  | count (pc : s.emitting = .counting) :
      Moves s [] {s with overflowCounter := wrappingAdd 32 s.overflowCounter 1, emitting := .idle}
  | drain {ring out} (resting : s.draining = false) (moved : Spsc.step w size s.ring .pop = some (ring,out)) :
      Moves s (out.map .ring) {s with ring := ring, draining := true}
  | consume {ring out} (busy : s.draining = true)
      (moved : Spsc.step w size s.ring (if s.ring.consumer = .idle then .pop else .consume) = some (ring,out)) :
      Moves s (out.map .ring) {s with ring := ring, draining := decide (.popNone ∉ out)}

variable {w size}

theorem produceMoves {s s' : EventBus} {out : List BusEvent} (ok : produce w size s = some (s',out)) :
    Moves w size s out s' := by
  unfold produce at ok
  cases pc : s.emitting with
  | idle => simp [pc] at ok
  | loadedTail event tail =>
    simp only [pc] at ok
    split at ok <;> cases Option.some.inj ok
    · rename_i refused
      exact .refuse pc refused.1 refused.2
    · exact .pass pc (by assumption)
  | passed event =>
    simp only [pc] at ok
    obtain ⟨⟨ring,inner⟩,moved,last⟩ := Option.bind_eq_some_iff.mp ok
    cases Option.some.inj last
    exact .push pc moved
  | pushing =>
    simp only [pc] at ok
    obtain ⟨⟨ring,inner⟩,moved,last⟩ := Option.bind_eq_some_iff.mp ok
    cases Option.some.inj last
    exact .pushing pc moved
  | counting =>
    simp only [pc] at ok
    cases Option.some.inj ok
    exact .count pc

theorem stepMoves {s s' : EventBus} {action : Action} {out : List BusEvent} (ok : step w size s action = some (s',out)) :
    Moves w size s out s' := by
  cases action with
  | emit event =>
    simp only [step] at ok
    split at ok <;> try contradiction
    cases Option.some.inj ok
    exact .emit (by assumption)
  | produce => exact produceMoves ok
  | drain =>
    simp only [step] at ok
    split at ok <;> try contradiction
    rename_i resting
    obtain ⟨⟨ring,inner⟩,moved,last⟩ := Option.bind_eq_some_iff.mp ok
    cases Option.some.inj last
    exact .drain (Bool.eq_false_iff.mpr resting) moved
  | consume =>
    simp only [step,consume] at ok
    split at ok <;> try contradiction
    rename_i busy
    obtain ⟨⟨ring,inner⟩,moved,last⟩ := Option.bind_eq_some_iff.mp ok
    cases Option.some.inj last
    exact .consume busy moved

end Steps

def BusEvent.inner : BusEvent → Option (Spsc.Event KernelEvent)
  | .ring event => some event
  | _ => none

def accepted (events : List BusEvent) : List KernelEvent := Spsc.accepted (events.filterMap BusEvent.inner)

def delivered (events : List BusEvent) : List KernelEvent := Spsc.delivered (events.filterMap BusEvent.inner)

@[simp] theorem acceptedAppend (past out : List BusEvent) : accepted (past ++ out) = accepted past ++ accepted out := by
  simp [accepted]

@[simp] theorem deliveredAppend (past out : List BusEvent) : delivered (past ++ out) = delivered past ++ delivered out := by
  simp [delivered]

@[simp] theorem acceptedRing (out : List (Spsc.Event KernelEvent)) : accepted (out.map .ring) = Spsc.accepted out := by
  simp [accepted,List.filterMap_map,Function.comp_def,BusEvent.inner]

@[simp] theorem deliveredRing (out : List (Spsc.Event KernelEvent)) : delivered (out.map .ring) = Spsc.delivered out := by
  simp [delivered,List.filterMap_map,Function.comp_def,BusEvent.inner]

theorem settleQuiet (out : List (Spsc.Event KernelEvent)) :
    accepted (settle out).2 = [] ∧ delivered (settle out).2 = [] := by
  unfold settle
  split <;> exact ⟨rfl,rfl⟩

end Riaps.Bus
