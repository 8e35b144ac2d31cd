import Riaps.AdapterQuantum

/-! What `latency_samples` says and what the delay of the stream is. The adapter
keeps the largest reserve it ever asked for, the delay is the sum of the silence
it inserted. They part at the first change of quantum that finds a block begun
but not complete, and they cannot meet again. -/
namespace Riaps.AdapterLatency
open Library.Checks SampleFifo Adapter AdapterView AdapterFlow AdapterQuantum

/-- Every call of another length than the last non-empty one comes when the
samples so far fill whole blocks. -/
def ChangesOnBoundary (block : Nat) : Nat → Option Nat → List Nat → Prop
  | _, _, [] => True
  | total, previous, h :: hs =>
      (h = 0 ∨ previous = none ∨ previous = some h ∨ block ∣ total) ∧
      ChangesOnBoundary block (total + h) (if h = 0 then previous else some h) hs

structure Tracked (z : Sizes) (total : Nat) (φ : Flow) : Prop where
  phase : φ.accumulated = total % z.block
  reported : φ.latency = φ.delay
  modest : φ.latency < z.block
  idle : φ.quantum = none → φ.delay = 0

theorem startTracked (z : Sizes) : Tracked z 0 start := ⟨by simp [start],rfl,z.positive,fun _ => rfl⟩

theorem latencyNext (z : Sizes) (φ : Flow) (m n : Nat) :
    (next z φ m n).latency = match reserveFor z.block φ.quantum n with
      | none => φ.latency
      | some reserve => max φ.latency reserve := by
  unfold next negotiated
  cases reserveFor z.block φ.quantum n <;> rfl

theorem quantumKept (z : Sizes) (φ : Flow) (m h : Nat) :
    (next z φ m h).quantum = if h = 0 then φ.quantum else some h := by
  split
  · rename_i zero
    simp [next,negotiated,reserveFor,zero]
  · rename_i some
    exact quantumNext z φ m some

section Tracking
variable {z : Sizes} {total h : Nat} {φ : Flow}

theorem Tracked.begun (tracked : Tracked z total φ) : φ.accumulated < z.block := by
  rw [tracked.phase]
  exact Nat.mod_lt _ z.positive

theorem Tracked.moved (tracked : Tracked z total φ) (clean : Clean (report z φ h h)) :
    (next z φ h h).accumulated = (total + h) % z.block := by
  rw [(cleanNext tracked.begun clean).1,tracked.phase,Nat.mod_add_mod]

theorem trackedSame (tracked : Tracked z total φ) (clean : Clean (report z φ h h))
    (same : reserveFor z.block φ.quantum h = none) : Tracked z (total + h) (next z φ h h) := by
  have nothing : inserted z.block φ h = 0 := by simp [inserted,same]
  have delay := (cleanNext tracked.begun clean).2
  have latency := latencyNext z φ h h
  rw [same] at latency
  rw [nothing,Nat.add_zero] at delay
  refine ⟨tracked.moved clean,by rw [latency,delay,tracked.reported],by rw [latency]; exact tracked.modest,?_⟩
  intro none
  rw [quantumKept] at none
  split at none
  · rw [delay]
    exact tracked.idle none
  · contradiction

theorem trackedRaised (tracked : Tracked z total φ) (clean : Clean (report z φ h h)) (some : h ≠ 0) (reserve : Nat)
    (change : reserveFor z.block φ.quantum h = Option.some reserve) (aligned : φ.accumulated = 0)
    (low : φ.pending ≤ reserve) : Tracked z (total + h) (next z φ h h) := by
  have bound := reserveBound change
  have filled : inserted z.block φ h = reserve - φ.pending := by simp [inserted,change]
  have before : φ.delay = φ.pending := by rw [Flow.delay,aligned,Nat.zero_add]
  have most : φ.latency ≤ reserve := by rw [tracked.reported,before]; exact low
  have delay := (cleanNext tracked.begun clean).2
  have latency := latencyNext z φ h h
  rw [change] at latency
  simp only [Nat.max_eq_right most] at latency
  rw [filled,before,Nat.add_sub_cancel' low] at delay
  refine ⟨tracked.moved clean,by rw [latency,delay],by rw [latency]; exact bound,?_⟩
  intro none
  rw [quantumKept,if_neg some] at none
  contradiction

theorem trackedNext (tracked : Tracked z total φ) (clean : Clean (report z φ h h))
    (boundary : h = 0 ∨ φ.quantum = none ∨ φ.quantum = some h ∨ z.block ∣ total) :
    Tracked z (total + h) (next z φ h h) := by
  have modest := tracked.modest
  rw [tracked.reported] at modest
  by_cases zero : h = 0
  · exact trackedSame tracked clean (by simp [reserveFor,zero])
  · cases before : φ.quantum with
    | none =>
      have empty := tracked.idle before
      rw [Flow.delay] at empty
      exact trackedRaised tracked clean zero (z.block - Nat.gcd h z.block)
        (by simp [reserveFor,zero,before]) (by omega) (by omega)
    | some previous =>
      by_cases same : previous = h
      · exact trackedSame tracked clean (by simp [reserveFor,before,same])
      · have whole : z.block ∣ total := by simpa [zero,before,same] using boundary
        have aligned : φ.accumulated = 0 := tracked.phase.trans (Nat.mod_eq_zero_of_dvd whole)
        rw [Flow.delay,aligned,Nat.zero_add] at modest
        exact trackedRaised tracked clean zero (z.block - 1) (by simp [reserveFor,zero,before,same]) aligned
          (by omega)

theorem untrackedNext (tracked : Tracked z total φ) (clean : Clean (report z φ h h))
    (begun : ¬ (h = 0 ∨ φ.quantum = none ∨ φ.quantum = some h ∨ z.block ∣ total)) :
    (next z φ h h).latency ≠ (next z φ h h).delay := by
  have positive := z.positive
  have modest := tracked.modest
  simp only [not_or] at begun
  obtain ⟨zero,used,changed,part⟩ := begun
  have some : φ.accumulated ≠ 0 := fun empty => part (Nat.dvd_of_mod_eq_zero (tracked.phase.symm.trans empty))
  obtain ⟨previous,before⟩ := Option.ne_none_iff_exists'.mp used
  have different : previous ≠ h := fun same => changed (by rw [before,same])
  have delay := (cleanNext tracked.begun clean).2
  rw [insertedChanged before different zero] at delay
  have sum : φ.delay = φ.accumulated + φ.pending := rfl
  have latency := latencyNext z φ h h
  have change : reserveFor z.block φ.quantum h = Option.some (z.block - 1) := by simp [reserveFor,zero,before,different]
  rw [change] at latency
  simp only at latency
  omega

end Tracking

theorem delayRun {z : Sizes} {φ : Flow} (phase : φ.accumulated < z.block) (hs : List Nat)
    (clean : ∀ r ∈ run z φ (lengths hs), Clean r.2) (k : Nat) {ψ : Flow} {x : AdapterProcessReport}
    (found : (run z φ (lengths hs))[k]? = some (ψ,x)) :
    ψ.delay = φ.delay + added ((run z φ (lengths hs)).take (k + 1)) := by
  induction hs generalizing φ k with
  | nil => simp [lengths,run] at found
  | cons h hs ih =>
    rw [runLengths] at clean found ⊢
    obtain ⟨here,later⟩ := List.forall_mem_cons.mp clean
    have delay := (cleanNext phase here).2
    cases k with
    | zero =>
      cases Option.some.inj found
      simp [added,delay,report]
    | succ k =>
      have rest := ih (nextPhase z φ h h) later k (by simpa using found)
      simp only [List.take_succ_cons,added,List.map_cons,List.sum_cons] at rest ⊢
      rw [rest,delay,Nat.add_assoc]
      rfl

theorem reportedRun {z : Sizes} {φ : Flow} {total : Nat} (tracked : Tracked z total φ) (hs : List Nat)
    (clean : ∀ r ∈ run z φ (lengths hs), Clean r.2) :
    (∀ (k h : Nat) (ψ : Flow) (x : AdapterProcessReport), hs[k]? = some h →
      (run z φ (lengths hs))[k]? = some (ψ,x) → h ≠ 0 → ψ.latency = ψ.delay) ↔
      ChangesOnBoundary z.block total φ.quantum hs := by
  induction hs generalizing φ total with
  | nil => simp [ChangesOnBoundary]
  | cons h hs ih =>
    rw [runLengths] at clean ⊢
    obtain ⟨here,later⟩ := List.forall_mem_cons.mp clean
    simp only [ChangesOnBoundary]
    constructor
    · intro faithful
      have boundary : h = 0 ∨ φ.quantum = none ∨ φ.quantum = some h ∨ z.block ∣ total := by
        by_contra begun
        exact untrackedNext tracked here begun (faithful 0 h _ _ rfl rfl (fun zero => begun (.inl zero)))
      refine ⟨boundary,?_⟩
      rw [← quantumKept z φ h h]
      exact (ih (trackedNext tracked here boundary) later).mp
        (fun k h' ψ x atCall atRun => faithful (k + 1) h' ψ x (by simpa using atCall) (by simpa using atRun))
    · rintro ⟨boundary,rest⟩ k h' ψ x atCall atRun some
      have next := trackedNext tracked here boundary
      rw [← quantumKept z φ h h] at rest
      cases k with
      | zero =>
        cases Option.some.inj atRun
        exact next.reported
      | succ k => exact (ih next later).mpr rest k h' ψ x (by simpa using atCall) (by simpa using atRun) some

variable {σ α : Type}

theorem latencyReportedExact [Sample α] {block capacity : Nat} (positive : 0 < block) (room : 2 * block ≤ capacity)
    (callback : DspCallback σ α) (s : σ) (calls : List (HostCall α))
    (equal : ∀ c ∈ calls, c.input.length = c.output.length) {r : Session σ α}
    (ran : session block capacity callback s calls = .ok r) (clean : ∀ x ∈ r.reports, Clean x) :
    (∀ k c b, calls[k]? = some c → r.blocks[k]? = some b → c.input ≠ [] →
      b.adapter.latencySamples = accumulated b.adapter + pendingOutput b.adapter ∧
      accumulated b.adapter + pendingOutput b.adapter =
        ((r.reports.take (k + 1)).map AdapterProcessReport.latencyAddedSamples).sum) ↔
    ChangesOnBoundary block 0 none (calls.map (fun c => c.input.length)) := by
  let z : Sizes := ⟨block,capacity,positive,room⟩
  obtain ⟨r',ok,flow⟩ := sessionLengths z callback s equal
  have same : r = r' := Except.ok.inj (ran.symm.trans ok)
  subst r'
  have cleans := (cleanSession flow).mp clean
  have reports := reportsOfFlow flow
  have position (k : Nat) (b : HostBlock σ α) (found : r.blocks[k]? = some b) :
      (run z start (lengths (calls.map (fun c => c.input.length))))[k]? = some (measure b.adapter,b.report) := by
    rw [← flow,List.getElem?_map,found]
    rfl
  have sums (k : Nat) (b : HostBlock σ α) (found : r.blocks[k]? = some b) :
      accumulated b.adapter + pendingOutput b.adapter =
        ((r.reports.take (k + 1)).map AdapterProcessReport.latencyAddedSamples).sum := by
    have delay := delayRun z.positive _ cleans k (position k b found)
    rw [reports,← List.map_take,List.map_map]
    exact delay.trans (Nat.zero_add _)
  have flowExact := reportedRun (startTracked z) _ cleans
  refine Iff.trans ?_ flowExact
  constructor
  · intro faithful k h ψ x atCall atRun some
    rw [List.getElem?_map] at atCall
    obtain ⟨c,hc,rfl⟩ := Option.map_eq_some_iff.mp atCall
    rw [← flow,List.getElem?_map] at atRun
    obtain ⟨b,hb,pair⟩ := Option.map_eq_some_iff.mp atRun
    cases pair
    exact (faithful k c b hc hb (fun empty => some (by simp [empty]))).1
  · intro faithful k c b atCall atBlock some
    refine ⟨?_,sums k b atBlock⟩
    refine faithful k c.input.length (measure b.adapter) b.report ?_ (position k b atBlock) ?_
    · rw [List.getElem?_map,atCall]
      rfl
    · exact fun zero => some (List.length_eq_zero_iff.mp zero)

def boundaryCalls : List (HostCall Int) := [1,1,1,2].map hostCall

theorem latencyReportedExactAtThree : ∃ r, session 3 6 passthrough () boundaryCalls = .ok r ∧
    ((∀ k c b, boundaryCalls[k]? = some c → r.blocks[k]? = some b → c.input ≠ [] →
      b.adapter.latencySamples = accumulated b.adapter + pendingOutput b.adapter ∧
      accumulated b.adapter + pendingOutput b.adapter =
        ((r.reports.take (k + 1)).map AdapterProcessReport.latencyAddedSamples).sum) ↔
    ChangesOnBoundary 3 0 none (boundaryCalls.map (fun c => c.input.length))) := by
  have run : passes (session 3 6 passthrough () boundaryCalls) (fun r => decide (∀ x ∈ r.reports, Clean x)) = true := by
    decide
  obtain ⟨r,ok,clean⟩ := passed run
  exact ⟨r,ok,latencyReportedExact (by decide) (by decide) passthrough () boundaryCalls (by decide) ok
    (of_decide_eq_true clean)⟩

/- Blocks of three: one sample, one sample, then two. The third callback inserts
two samples of silence on top of the two that are already there. -/
theorem latencyReportedTooSmall : ∃ r, session 3 6 passthrough () ([1,1,2].map hostCall) = .ok r ∧
    (∀ x ∈ r.reports, Clean x) ∧ r.adapter.latencySamples = 2 ∧
    accumulated r.adapter + pendingOutput r.adapter = 4 := by
  have run : passes (session 3 6 passthrough () ([1,1,2].map hostCall))
      (fun r => decide ((∀ x ∈ r.reports, Clean x) ∧ r.adapter.latencySamples = 2 ∧
        accumulated r.adapter + pendingOutput r.adapter = 4)) = true := by decide
  obtain ⟨r,ok,facts⟩ := passed run
  exact ⟨r,ok,of_decide_eq_true facts⟩

end Riaps.AdapterLatency
