import Riaps.SpscFifo

/-! The performance probe. The calls of `measure` in progress stand on a stack, the
innermost on top: below the top every call is inside its closure. The flag is loaded
once, on entry; what a call does on the way out depends on what it found then and on
the depth it saw, not on the flag at that time. -/
namespace Riaps.Probe
open Library.Checks Library.Wrapping Library.Machine Spsc

structure ProbeRecord where
  nodeId : UInt32
  startTick : UInt64
  endTick : UInt64
  deriving DecidableEq, Repr

def PROBE_RING_CAP : Nat := 1024

inductive Frame where
  | passing
  | entering (nodeId : UInt32)
  | nested
  | measuring (nodeId : UInt32) (start : UInt64)
  | pushing
  | counting
  | leaving
  deriving DecidableEq, Repr

structure PerformanceProbe where
  ring : SpscRing ProbeRecord
  enabled : Bool
  nestingDepth : Nat
  overflowCounter : Nat
  stack : List Frame
  draining : Bool
  deriving DecidableEq, Repr

def new : Checked PerformanceProbe := do
  let ring ← Spsc.new ProbeRecord PROBE_RING_CAP
  return ⟨ring,false,0,0,[],false⟩

/- `produce` is the next access of the audio thread, `finish` the return of the innermost closure;
the tick is what the clock shows if the code reads it there. -/
inductive Action where
  | setEnabled (on : Bool)
  | measure (nodeId : UInt32)
  | produce (tick : UInt64)
  | finish (tick : UInt64)
  | drain
  | drainBatch (count : Nat)
  | consume
  deriving DecidableEq, Repr

inductive Event where
  | entered (nodeId : UInt32) (found : Bool)
  | left
  | attempted (record : ProbeRecord)
  | ring (event : Spsc.Event ProbeRecord)
  deriving DecidableEq, Repr

def Frame.running : Frame → Bool
  | .passing => true
  | .nested => true
  | .measuring _ _ => true
  | _ => false

def Frame.found : Frame → Bool
  | .passing => false
  | _ => true

def Frame.counted : Frame → Bool
  | .passing => false
  | .entering _ => false
  | _ => true

section Steps
variable (w : Nat)

def settle : List (Spsc.Event ProbeRecord) → Frame
  | [.pushOk _] => .leaving
  | [.pushErr _] => .counting
  | _ => .pushing

def produce (s : PerformanceProbe) (tick : UInt64) : Option (PerformanceProbe × List Event) :=
  match s.stack with
  | .entering nodeId :: rest =>
      let frame := if 0 < s.nestingDepth then .nested else .measuring nodeId tick
      some ({s with nestingDepth := wrappingAdd 32 s.nestingDepth 1, stack := frame :: rest},[])
  | .pushing :: rest => do
      let (ring,out) ← Spsc.step w PROBE_RING_CAP s.ring .produce
      some ({s with ring := ring, stack := settle out :: rest},out.map .ring)
  | .counting :: rest =>
      some ({s with overflowCounter := wrappingAdd 32 s.overflowCounter 1, stack := .leaving :: rest},[])
  | .leaving :: rest => some ({s with nestingDepth := wrappingSub 32 s.nestingDepth 1, stack := rest},[.left])
  | _ => none

def finish (s : PerformanceProbe) (tick : UInt64) : Option (PerformanceProbe × List Event) :=
  match s.stack with
  | .passing :: rest => some ({s with stack := rest},[.left])
  | .nested :: rest => some ({s with stack := .leaving :: rest},[])
  | .measuring nodeId start :: rest => do
      let (ring,out) ← Spsc.step w PROBE_RING_CAP s.ring (.push ⟨nodeId,start,tick⟩)
      some ({s with ring := ring, stack := .pushing :: rest},.attempted ⟨nodeId,start,tick⟩ :: out.map .ring)
  | _ => none

def step (s : PerformanceProbe) : Action → Option (PerformanceProbe × List Event)
  | .setEnabled on => some ({s with enabled := on},[])
  | .measure nodeId =>
      if s.stack.head?.all Frame.running then
        some ({s with stack := (if s.enabled then .entering nodeId else .passing) :: s.stack},[.entered nodeId s.enabled])
      else none
  | .produce tick => produce w s tick
  | .finish tick => finish w s tick
  | .drain =>
      if s.draining then none
      else do
        let (ring,out) ← Spsc.step w PROBE_RING_CAP s.ring .pop
        some ({s with ring := ring, draining := true},out.map .ring)
  | .drainBatch count =>
      if s.draining then none
      else do
        let (ring,out) ← Spsc.step w PROBE_RING_CAP s.ring (.popSliceCopy count)
        some ({s with ring := ring},out.map .ring)
  | .consume => do
      let (ring,out) ← Spsc.step w PROBE_RING_CAP s.ring (if s.draining then nextAccess s.ring else .consume)
      some ({s with ring := ring, draining := s.draining && decide (.popNone ∉ out)},out.map .ring)

inductive Moves (s : PerformanceProbe) : List Event → PerformanceProbe → Prop where
  | toggle {on} : Moves s [] {s with enabled := on}
  | enter {nodeId} (ready : s.stack.head?.all Frame.running = true) :
      Moves s [.entered nodeId s.enabled]
        {s with stack := (if s.enabled then .entering nodeId else .passing) :: s.stack}
  | begin {nodeId tick rest} (top : s.stack = .entering nodeId :: rest) (outer : ¬0 < s.nestingDepth) :
      Moves s [] {s with nestingDepth := wrappingAdd 32 s.nestingDepth 1, stack := .measuring nodeId tick :: rest}
  | pass {nodeId rest} (top : s.stack = .entering nodeId :: rest) (inner : 0 < s.nestingDepth) :
      Moves s [] {s with nestingDepth := wrappingAdd 32 s.nestingDepth 1, stack := .nested :: rest}
  | push {rest ring out} (top : s.stack = .pushing :: rest)
      (moved : Spsc.step w PROBE_RING_CAP s.ring .produce = some (ring,out)) :
      Moves s (out.map .ring) {s with ring := ring, stack := settle out :: rest}
  | count {rest} (top : s.stack = .counting :: rest) :
      Moves s [] {s with overflowCounter := wrappingAdd 32 s.overflowCounter 1, stack := .leaving :: rest}
  | leave {rest} (top : s.stack = .leaving :: rest) :
      Moves s [.left] {s with nestingDepth := wrappingSub 32 s.nestingDepth 1, stack := rest}
  | returnPassing {rest} (top : s.stack = .passing :: rest) : Moves s [.left] {s with stack := rest}
  | returnNested {rest} (top : s.stack = .nested :: rest) : Moves s [] {s with stack := .leaving :: rest}
  | attempt {nodeId start tick rest ring out} (top : s.stack = .measuring nodeId start :: rest)
      (moved : Spsc.step w PROBE_RING_CAP s.ring (.push ⟨nodeId,start,tick⟩) = some (ring,out)) :
      Moves s (.attempted ⟨nodeId,start,tick⟩ :: out.map .ring) {s with ring := ring, stack := .pushing :: rest}
  | read {action ring out draining} (moved : Spsc.step w PROBE_RING_CAP s.ring action = some (ring,out))
      (reader : action.isReader = true) : Moves s (out.map .ring) {s with ring := ring, draining := draining}

variable {w}

theorem produceMoves {s s' : PerformanceProbe} {tick : UInt64} {out : List Event}
    (ok : produce w s tick = some (s',out)) : Moves w s out s' := by
  unfold produce at ok
  split at ok
  · rename_i nodeId rest top
    cases Option.some.inj ok
    split
    · exact .pass top (by assumption)
    · exact .begin top (by assumption)
  · obtain ⟨⟨ring,inner⟩,moved,last⟩ := Option.bind_eq_some_iff.mp ok
    cases Option.some.inj last
    exact .push (by assumption) moved
  · cases Option.some.inj ok
    exact .count (by assumption)
  · cases Option.some.inj ok
    exact .leave (by assumption)
  · cases ok

theorem finishMoves {s s' : PerformanceProbe} {tick : UInt64} {out : List Event}
    (ok : finish w s tick = some (s',out)) : Moves w s out s' := by
  unfold finish at ok
  split at ok
  · cases Option.some.inj ok
    exact .returnPassing (by assumption)
  · cases Option.some.inj ok
    exact .returnNested (by assumption)
  · obtain ⟨⟨ring,inner⟩,moved,last⟩ := Option.bind_eq_some_iff.mp ok
    cases Option.some.inj last
    exact .attempt (by assumption) moved
  · cases ok

theorem stepMoves {s s' : PerformanceProbe} {action : Action} {out : List Event}
    (ok : step w s action = some (s',out)) : Moves w s out s' := by
  cases action with
  | setEnabled on =>
    cases Option.some.inj ok
    exact .toggle
  | measure nodeId =>
    simp only [step] at ok
    split at ok <;> try contradiction
    cases Option.some.inj ok
    exact .enter (by assumption)
  | produce tick => exact produceMoves ok
  | finish tick => exact finishMoves ok
  | drain =>
    simp only [step] at ok
    split at ok <;> try contradiction
    obtain ⟨⟨ring,inner⟩,moved,last⟩ := Option.bind_eq_some_iff.mp ok
    cases Option.some.inj last
    exact .read moved rfl
  | drainBatch count =>
    simp only [step] at ok
    split at ok <;> try contradiction
    obtain ⟨⟨ring,inner⟩,moved,last⟩ := Option.bind_eq_some_iff.mp ok
    cases Option.some.inj last
    exact .read moved rfl
  | consume =>
    obtain ⟨⟨ring,inner⟩,moved,last⟩ := Option.bind_eq_some_iff.mp ok
    cases Option.some.inj last
    refine .read moved ?_
    split
    · exact nextReads s.ring
    · rfl

end Steps
end Riaps.Probe
