import Mathlib.Data.Int.GCD
import Riaps.AdapterFlow

/-! Host callbacks with as many input as output samples. The delay of the stream
is what both queues hold together: a clean callback changes it by the silence it
reports and by nothing else. One callback is clean exactly when both queues have
room and the delay covers the phase that the input is left in. -/
namespace Riaps.AdapterQuantum
open Library.Checks SampleFifo Adapter AdapterView AdapterFlow

def Clean (r : AdapterProcessReport) : Prop :=
  r.droppedInputSamples = 0 ∧ r.droppedOutputSamples = 0 ∧ r.underrunSamples = 0

instance (r) : Decidable (Clean r) := by unfold Clean; infer_instance

theorem cleanExact {z : Sizes} {φ : Flow} (phase : φ.accumulated < z.block) (h : Nat) :
    Clean (report z φ h h) ↔ φ.accumulated + h ≤ z.capacity ∧
      φ.delay + inserted z.block φ h + h ≤ z.capacity + (φ.accumulated + h) % z.block ∧
      (φ.accumulated + h) % z.block ≤ φ.delay + inserted z.block φ h := by
  have room := z.room
  have split := Nat.mod_add_div' (φ.accumulated + h) z.block
  unfold Clean report offered accepted Flow.delay
  by_cases taken : φ.accumulated + h ≤ z.capacity
  · rw [Nat.min_eq_left (show h ≤ z.capacity - φ.accumulated by omega)]
    simp only
    omega
  · simp only
    omega

theorem cleanNext {z : Sizes} {φ : Flow} {h : Nat} (phase : φ.accumulated < z.block)
    (clean : Clean (report z φ h h)) :
    (next z φ h h).accumulated = (φ.accumulated + h) % z.block ∧
    (next z φ h h).delay = φ.delay + inserted z.block φ h := by
  have room := z.room
  obtain ⟨taken,fits,covered⟩ := (cleanExact phase h).mp clean
  have split := Nat.mod_add_div' (φ.accumulated + h) z.block
  unfold next offered accepted Flow.delay at *
  rw [Nat.min_eq_left (show h ≤ z.capacity - φ.accumulated by omega)]
  refine ⟨rfl,?_⟩
  simp only
  omega

theorem nextPhase (z : Sizes) (φ : Flow) (m n : Nat) : (next z φ m n).accumulated < z.block :=
  Nat.mod_lt _ z.positive

theorem insertedSame (block : Nat) {φ : Flow} {h : Nat} (same : φ.quantum = some h) : inserted block φ h = 0 := by
  simp [inserted,reserveFor,same]

theorem insertedFirst {block : Nat} {φ : Flow} {h : Nat} (first : φ.quantum = none) (some : h ≠ 0) :
    inserted block φ h = block - Nat.gcd h block - φ.pending := by
  simp [inserted,reserveFor,first,some]

theorem insertedChanged {block : Nat} {φ : Flow} {h previous : Nat} (before : φ.quantum = some previous)
    (changed : previous ≠ h) (some : h ≠ 0) : inserted block φ h = block - 1 - φ.pending := by
  simp [inserted,reserveFor,before,changed,some]

theorem insertedNone (block : Nat) (φ : Flow) : inserted block φ 0 = 0 := by simp [inserted,reserveFor]

theorem quantumNext (z : Sizes) (φ : Flow) (m : Nat) {h : Nat} (some : h ≠ 0) :
    (next z φ m h).quantum = Option.some h := by
  unfold next negotiated reserveFor
  rw [if_neg some]
  cases before : φ.quantum with
  | none => rfl
  | some previous =>
    by_cases same : previous = h
    · simp [same]
    · simp [same]

theorem phaseOfDivisor {g x block : Nat} (left : g ∣ x) (right : g ∣ block) (less : x < block) : x ≤ block - g := by
  have gap := Nat.le_of_dvd (by omega) (Nat.dvd_sub right left)
  omega

/-- A reserve that covers every phase: a whole block less one sample, or the
phases that one fixed quantum can reach. -/
structure Reserved (z : Sizes) (φ : Flow) : Prop where
  phase : φ.accumulated < z.block
  bounded : φ.delay ≤ 2 * z.block - 2
  idle : φ.quantum = none → φ.accumulated = 0 ∧ φ.pending = 0
  covered : ∀ q, φ.quantum = some q →
    z.block - 1 ≤ φ.delay ∨ (φ.delay = z.block - Nat.gcd q z.block ∧ Nat.gcd q z.block ∣ φ.accumulated)

theorem startReserved (z : Sizes) : Reserved z start :=
  ⟨z.positive,Nat.zero_le _,fun _ => ⟨rfl,rfl⟩,fun q h => by simp [start] at h⟩

structure Covers (z : Sizes) (φ : Flow) (h : Nat) : Prop where
  phase : (φ.accumulated + h) % z.block ≤ φ.delay + inserted z.block φ h
  bounded : φ.delay + inserted z.block φ h ≤ 2 * z.block - 2
  fixed : h ≠ 0 → z.block - 1 ≤ φ.delay + inserted z.block φ h ∨
    (φ.delay + inserted z.block φ h = z.block - Nat.gcd h z.block ∧
      Nat.gcd h z.block ∣ (φ.accumulated + h) % z.block)

theorem gcdDividesPhase {h block phase : Nat} (divides : Nat.gcd h block ∣ phase) :
    Nat.gcd h block ∣ (phase + h) % block :=
  (Nat.dvd_mod_iff (Nat.gcd_dvd_right h block)).mpr (Nat.dvd_add divides (Nat.gcd_dvd_left h block))

theorem reservedCovers {z : Sizes} {φ : Flow} (reserved : Reserved z φ) (h : Nat) : Covers z φ h := by
  have positive := z.positive
  have phase := reserved.phase
  have bounded := reserved.bounded
  have less : (φ.accumulated + h) % z.block < z.block := Nat.mod_lt _ positive
  have divisor : 0 < Nat.gcd h z.block := Nat.gcd_pos_of_pos_right h positive
  have divides := Nat.gcd_dvd_right h z.block
  rcases Nat.eq_zero_or_pos h with rfl | some
  · have same : (φ.accumulated + 0) % z.block = φ.accumulated := Nat.mod_eq_of_lt phase
    refine ⟨?_,?_,fun no => absurd rfl no⟩
    · rw [insertedNone,same]
      exact Nat.le_add_right _ _
    · rw [insertedNone]
      exact bounded
  · have nonzero : h ≠ 0 := by omega
    cases before : φ.quantum with
    | none =>
      -- the first callback: an empty adapter is raised to the gcd reserve
      obtain ⟨empty,drained⟩ := reserved.idle before
      have phaseDivides : Nat.gcd h z.block ∣ (φ.accumulated + h) % z.block :=
        gcdDividesPhase (by simp [empty])
      have bound := phaseOfDivisor phaseDivides divides less
      have delay : φ.delay + inserted z.block φ h = z.block - Nat.gcd h z.block := by
        rw [insertedFirst before nonzero,Flow.delay,empty,drained]
        omega
      rw [← delay] at bound
      exact ⟨bound,by omega,fun _ => .inr ⟨delay,phaseDivides⟩⟩
    | some q =>
      by_cases same : q = h
      · subst q
        rw [← Nat.add_zero φ.delay,← insertedSame z.block before] at bounded
        rcases reserved.covered h before with full | ⟨level,phaseDivides⟩
        · rw [← Nat.add_zero φ.delay,← insertedSame z.block before] at full
          exact ⟨by omega,bounded,fun _ => .inl full⟩
        · have next := gcdDividesPhase phaseDivides
          have bound := phaseOfDivisor next divides less
          rw [← level,← Nat.add_zero φ.delay,← insertedSame z.block before] at bound
          refine ⟨bound,bounded,fun _ => .inr ⟨?_,next⟩⟩
          rw [insertedSame z.block before,Nat.add_zero,level]
      · have raised : φ.delay + inserted z.block φ h = φ.accumulated + max φ.pending (z.block - 1) := by
          rw [insertedChanged before same nonzero,Flow.delay]
          omega
        rw [Flow.delay] at bounded
        exact ⟨by omega,by omega,fun _ => .inl (by omega)⟩

theorem reservedNext {z : Sizes} {φ : Flow} (reserved : Reserved z φ) {h : Nat}
    (room : 2 * z.block - 2 + h ≤ z.capacity) :
    Clean (report z φ h h) ∧ Reserved z (next z φ h h) := by
  have positive := z.positive
  have phase := reserved.phase
  have covers := reservedCovers reserved h
  have bounded := covers.bounded
  have clean : Clean (report z φ h h) := by
    refine (cleanExact phase h).mpr ⟨by omega,by omega,covers.phase⟩
  obtain ⟨moved,delay⟩ := cleanNext phase clean
  refine ⟨clean,⟨nextPhase z φ h h,by rw [delay]; exact bounded,?_,?_⟩⟩
  · intro none
    rcases Nat.eq_zero_or_pos h with rfl | some
    · have before : φ.quantum = Option.none := by simpa [next,negotiated,reserveFor] using none
      obtain ⟨empty,drained⟩ := reserved.idle before
      rw [Flow.delay,Flow.delay,insertedNone,moved,empty,drained] at delay
      have zero : (0 + 0) % z.block = 0 := Nat.zero_mod _
      rw [empty,zero] at moved
      exact ⟨moved,by omega⟩
    · rw [quantumNext z φ h (by omega)] at none
      contradiction
  · intro q after
    rcases Nat.eq_zero_or_pos h with rfl | some
    · have before : φ.quantum = Option.some q := by simpa [next,negotiated,reserveFor] using after
      rw [delay,insertedNone,Nat.add_zero,moved,Nat.add_zero,Nat.mod_eq_of_lt phase]
      exact reserved.covered q before
    · rw [quantumNext z φ h (by omega)] at after
      cases Option.some.inj after
      rw [delay,moved]
      exact covers.fixed (by omega)

def lengths (hs : List Nat) : List (Nat × Nat) := hs.map (fun h => (h,h))

def added (rs : List (Flow × AdapterProcessReport)) : Nat := (rs.map (fun r => r.2.latencyAddedSamples)).sum

theorem runLengths (z : Sizes) (φ : Flow) (h : Nat) (hs : List Nat) : run z φ (lengths (h :: hs)) =
    (next z φ h h,report z φ h h) :: run z (next z φ h h) (lengths hs) := rfl

theorem reservedRun {z : Sizes} {φ : Flow} (reserved : Reserved z φ) {bound : Nat}
    (room : 2 * z.block - 2 + bound ≤ z.capacity) (hs : List Nat) (small : ∀ h ∈ hs, h ≤ bound) :
    (∀ r ∈ run z φ (lengths hs), Clean r.2) ∧ φ.delay + added (run z φ (lengths hs)) ≤ 2 * z.block - 2 := by
  induction hs generalizing φ with
  | nil => exact ⟨by simp [lengths,run],by simpa [added,lengths,run] using reserved.bounded⟩
  | cons h hs ih =>
    have here := small h List.mem_cons_self
    obtain ⟨clean,later⟩ := reservedNext reserved (h := h) (by omega)
    obtain ⟨cleans,total⟩ := ih later (fun x mem => small x (List.mem_cons_of_mem h mem))
    have delay := (cleanNext reserved.phase clean).2
    constructor
    · intro r mem
      rcases List.mem_cons.mp mem with rfl | mem
      · exact clean
      · exact cleans r mem
    · simp only [added,lengths,run,List.map_cons,List.sum_cons,report] at total ⊢
      omega

variable {σ α : Type}

theorem sessionLengths [Sample α] (z : Sizes) (callback : DspCallback σ α) (s : σ) {calls : List (HostCall α)}
    (equal : ∀ c ∈ calls, c.input.length = c.output.length) :
    ∃ r, session z.block z.capacity callback s calls = .ok r ∧
      r.blocks.map (fun b => (AdapterFlow.measure b.adapter,b.report)) =
        run z start (lengths (calls.map (fun c => c.input.length))) := by
  obtain ⟨r,ok,flow⟩ := sessionFlow z callback s calls
  refine ⟨r,ok,?_⟩
  rw [flow,lengths,List.map_map]
  congr 1
  apply List.map_congr_left
  intro c mem
  simp [equal c mem]

theorem reportsOfFlow {z : Sizes} {φ : Flow} {r : Session σ α} {cs : List (Nat × Nat)}
    (flow : r.blocks.map (fun b => (AdapterFlow.measure b.adapter,b.report)) = run z φ cs) :
    r.reports = (run z φ cs).map Prod.snd := by
  rw [← flow,List.map_map]
  rfl

theorem cleanSession {z : Sizes} {r : Session σ α} {cs : List (Nat × Nat)}
    (flow : r.blocks.map (fun b => (AdapterFlow.measure b.adapter,b.report)) = run z start cs) :
    (∀ x ∈ r.reports, Clean x) ↔ ∀ y ∈ run z start cs, Clean y.2 := by
  rw [reportsOfFlow flow]
  exact List.forall_mem_map

theorem changingQuantaSafe [Sample α] {block bound capacity : Nat} (positive : 0 < block)
    (room : max (2 * block) (2 * block - 2 + bound) ≤ capacity) (callback : DspCallback σ α) (s : σ)
    (calls : List (HostCall α))
    (equal : ∀ c ∈ calls, c.input.length = c.output.length ∧ c.input.length ≤ bound) :
    ∃ r, session block capacity callback s calls = .ok r ∧ (∀ x ∈ r.reports, Clean x) ∧
      (r.reports.map AdapterProcessReport.latencyAddedSamples).sum ≤ 2 * block - 2 := by
  let z : Sizes := ⟨block,capacity,positive,by omega⟩
  obtain ⟨r,ok,flow⟩ := sessionLengths z callback s (fun c mem => (equal c mem).1)
  obtain ⟨cleans,total⟩ := reservedRun (startReserved z) (show 2 * block - 2 + bound ≤ capacity by omega)
    (calls.map (fun c => c.input.length)) (by simpa using fun c mem => (equal c mem).2)
  refine ⟨r,ok,(cleanSession flow).mpr cleans,?_⟩
  · rw [reportsOfFlow flow,List.map_map]
    have small : added (run z start (lengths (calls.map (fun c => c.input.length)))) ≤ 2 * block - 2 := by
      simpa [start,Flow.delay] using total
    exact small

def passthrough : DspCallback Unit Int where
  call s i o := (s,if i.length = o.length then i else o)
  keepsLength s i o := by
    simp only
    split
    · assumption
    · rfl

def hostCall (h : Nat) : HostCall Int := ⟨List.replicate h 1,List.replicate h 0⟩

theorem changingQuantaSafeAtThree : ∃ r, session 3 7 passthrough () ([1,1,2,2,3].map hostCall) = .ok r ∧
    (∀ x ∈ r.reports, Clean x) ∧ (r.reports.map AdapterProcessReport.latencyAddedSamples).sum ≤ 2 * 3 - 2 :=
  changingQuantaSafe (by decide) (show max (2 * 3) (2 * 3 - 2 + 3) ≤ 7 by decide) passthrough () _ (by decide)

def final (z : Sizes) (φ : Flow) (cs : List (Nat × Nat)) : Flow := cs.foldl (fun φ c => next z φ c.1 c.2) φ

theorem runAppend (z : Sizes) (φ : Flow) (xs ys : List (Nat × Nat)) :
    run z φ (xs ++ ys) = run z φ xs ++ run z (final z φ xs) ys := by
  induction xs generalizing φ with
  | nil => rfl
  | cons x xs ih => simp only [List.cons_append,run,ih,final,List.foldl_cons]

/-- The least favourable phase: after `block - 1` single samples the input queue
holds all of them and the output queue nothing, so the next change of quantum
raises the delay by a second block. -/
theorem singlesPhase {z : Sizes} {φ : Flow} (k : Nat) (single : φ.quantum = some 1)
    (short : φ.accumulated + k < z.block)
    (clean : ∀ r ∈ run z φ (lengths (List.replicate k 1)), Clean r.2) :
    (final z φ (lengths (List.replicate k 1))).accumulated = φ.accumulated + k ∧
    (final z φ (lengths (List.replicate k 1))).delay = φ.delay ∧
    (final z φ (lengths (List.replicate k 1))).quantum = some 1 := by
  induction k generalizing φ with
  | zero => exact ⟨rfl,rfl,single⟩
  | succ k ih =>
    rw [List.replicate_succ,runLengths] at clean
    obtain ⟨here,later⟩ := List.forall_mem_cons.mp clean
    obtain ⟨moved,delay⟩ := cleanNext (by omega) here
    rw [Nat.mod_eq_of_lt (by omega)] at moved
    rw [insertedSame z.block single,Nat.add_zero] at delay
    obtain ⟨a,d,q⟩ := ih (quantumNext z φ 1 (by decide)) (by omega) later
    exact ⟨a.trans (by omega),d.trans delay,q⟩

theorem singlesReached {z : Sizes} (three : 3 ≤ z.block)
    (clean : ∀ r ∈ run z start (lengths (1 :: List.replicate (z.block - 2) 1)), Clean r.2) :
    (final z start (lengths (1 :: List.replicate (z.block - 2) 1))).accumulated = z.block - 1 ∧
    (final z start (lengths (1 :: List.replicate (z.block - 2) 1))).delay = z.block - 1 ∧
    (final z start (lengths (1 :: List.replicate (z.block - 2) 1))).quantum = some 1 := by
  rw [runLengths] at clean
  obtain ⟨first,singles⟩ := List.forall_mem_cons.mp clean
  obtain ⟨moved,delay⟩ := cleanNext z.positive first
  rw [Nat.mod_eq_of_lt (show start.accumulated + 1 < z.block by simp [start]; omega)] at moved
  rw [insertedFirst rfl (by decide),Nat.gcd_one_left] at delay
  simp only [start,Flow.delay] at moved delay
  obtain ⟨phase,kept,quantum⟩ := singlesPhase (z.block - 2) (quantumNext z start 1 (by decide)) (by
    simp only [start]
    omega) singles
  refine ⟨phase.trans ?_,kept.trans ?_,quantum⟩
  · simp only [start]
    omega
  · simp only [start,Flow.delay]
    omega

theorem changesCost {z : Sizes} {φ : Flow} (three : 3 ≤ z.block) (phase : φ.accumulated = z.block - 1)
    (delay : φ.delay = z.block - 1) (quantum : φ.quantum = some 1)
    (clean : ∀ r ∈ run z φ (lengths [2,z.block - 1,z.block]), Clean r.2) : 3 * z.block - 2 ≤ z.capacity := by
  obtain ⟨clean₂,clean⟩ := List.forall_mem_cons.mp clean
  obtain ⟨clean₃,clean⟩ := List.forall_mem_cons.mp clean
  obtain ⟨clean₄,-⟩ := List.forall_mem_cons.mp clean
  simp only [Flow.delay] at delay
  -- the change to two samples primes a whole block less one sample
  obtain ⟨moved₂,delay₂⟩ := cleanNext (by omega) clean₂
  rw [insertedChanged quantum (by decide) (by decide)] at delay₂
  have wrap₂ : (φ.accumulated + 2) % z.block = 1 := by
    rw [show φ.accumulated + 2 = 1 + z.block by omega,Nat.add_mod_right,Nat.mod_eq_of_lt (by omega)]
  rw [wrap₂] at moved₂
  have quantum₂ := quantumNext z φ 2 (show 2 ≠ 0 by decide)
  generalize next z φ 2 2 = φ₂ at *
  -- the next two callbacks keep that delay and end on block boundaries
  obtain ⟨moved₃,delay₃⟩ := cleanNext (by omega) clean₃
  have none₃ : inserted z.block φ₂ (z.block - 1) = 0 := by
    by_cases same : 2 = z.block - 1
    · exact insertedSame z.block (by rw [quantum₂,← same])
    · rw [insertedChanged quantum₂ same (by omega)]
      simp only [Flow.delay] at delay₂
      omega
  have wrap₃ : (φ₂.accumulated + (z.block - 1)) % z.block = 0 := by
    rw [show φ₂.accumulated + (z.block - 1) = z.block by omega,Nat.mod_self]
  rw [none₃] at delay₃
  rw [wrap₃] at moved₃
  generalize next z φ₂ (z.block - 1) (z.block - 1) = φ₃ at *
  obtain ⟨-,fits,-⟩ := (cleanExact (by omega) z.block).mp clean₄
  have wrap₄ : (φ₃.accumulated + z.block) % z.block = 0 := by
    rw [moved₃,Nat.zero_add,Nat.mod_self]
  rw [wrap₄] at fits
  simp only [Flow.delay] at delay₂ delay₃ fits
  omega

theorem secondBlockNeeded {z : Sizes} (three : 3 ≤ z.block)
    (clean : ∀ r ∈ run z start (lengths (1 :: List.replicate (z.block - 2) 1 ++ [2,z.block - 1,z.block])), Clean r.2) :
    3 * z.block - 2 ≤ z.capacity := by
  rw [lengths,List.map_append,runAppend] at clean
  obtain ⟨singles,changes⟩ := List.forall_mem_append.mp clean
  obtain ⟨phase,delay,quantum⟩ := singlesReached three singles
  exact changesCost three phase delay quantum changes

theorem acceptedCapacityExact [Sample α] {block capacity : Nat} (positive : 0 < block) (room : 2 * block ≤ capacity)
    (callback : DspCallback σ α) (s : σ) :
    (∀ calls : List (HostCall α), (∀ c ∈ calls, c.input.length = c.output.length ∧ c.input.length ≤ block) →
      ∃ r, session block capacity callback s calls = .ok r ∧ ∀ x ∈ r.reports, Clean x) ↔
    3 * block - 2 ≤ capacity := by
  let z : Sizes := ⟨block,capacity,positive,room⟩
  constructor
  · intro safe
    by_cases three : 3 ≤ block
    · let calls : List (HostCall α) := (1 :: List.replicate (block - 2) 1 ++ [2,block - 1,block]).map
        (fun h => ⟨List.replicate h 0,List.replicate h 0⟩)
      have equal : ∀ c ∈ calls, c.input.length = c.output.length ∧ c.input.length ≤ block := by
        intro c mem
        obtain ⟨h,member,rfl⟩ := List.mem_map.mp mem
        refine ⟨by simp,?_⟩
        simp only [List.length_replicate]
        simp only [List.cons_append,List.mem_cons,List.mem_append,List.mem_replicate,List.not_mem_nil,or_false] at member
        omega
      obtain ⟨r,ok,cleans⟩ := safe calls equal
      obtain ⟨r',ok',flow⟩ := sessionLengths z callback s (fun c mem => (equal c mem).1)
      have same : r = r' := Except.ok.inj (ok.symm.trans ok')
      subst r'
      have sizes : calls.map (fun c => c.input.length) = 1 :: List.replicate (block - 2) 1 ++ [2,block - 1,block] := by
        simp [calls]
      rw [sizes] at flow
      exact secondBlockNeeded (z := z) three ((cleanSession flow).mp cleans)
    · omega
  · intro enough calls equal
    obtain ⟨r,ok,flow⟩ := sessionLengths z callback s (fun c mem => (equal c mem).1)
    have cleans := (reservedRun (startReserved z) (show 2 * block - 2 + block ≤ capacity by omega)
      (calls.map (fun c => c.input.length)) (by simpa using fun c mem => (equal c mem).2)).1
    exact ⟨r,ok,(cleanSession flow).mpr cleans⟩

theorem acceptedCapacityExactAtThree :
    (∀ calls : List (HostCall Int), (∀ c ∈ calls, c.input.length = c.output.length ∧ c.input.length ≤ 3) →
      ∃ r, session 3 7 passthrough () calls = .ok r ∧ ∀ x ∈ r.reports, Clean x) ↔ 3 * 3 - 2 ≤ 7 :=
  acceptedCapacityExact (by decide) (by decide) passthrough ()

/- Blocks of three in a ring of two blocks: the constructor accepts it and the
fifth callback loses a processed sample. -/
theorem acceptedCapacityDropsOutput : ∃ calls : List (HostCall Int),
    (∀ c ∈ calls, c.input.length = c.output.length ∧ c.input.length ≤ 3) ∧
    ∃ r, session 3 6 passthrough () calls = .ok r ∧ ¬ ∀ x ∈ r.reports, Clean x := by
  have run : passes (session 3 6 passthrough () ([1,1,2,2,3].map hostCall))
      (fun r => decide (¬ ∀ x ∈ r.reports, Clean x)) = true := by decide
  obtain ⟨r,ok,dirty⟩ := passed run
  exact ⟨[1,1,2,2,3].map hostCall,by decide,r,ok,of_decide_eq_true dirty⟩

end Riaps.AdapterQuantum
