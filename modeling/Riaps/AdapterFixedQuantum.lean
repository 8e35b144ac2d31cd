import Riaps.AdapterQuantum

/-! One host quantum for the whole run. After k clean callbacks the input queue
holds `k * H mod D` samples and both queues together the primed reserve, so the
run is clean exactly when the ring has room for the worst residue. -/
namespace Riaps.AdapterFixedQuantum
open Library.Checks SampleFifo Adapter AdapterView AdapterFlow AdapterQuantum

def after (z : Sizes) (quantum : Nat) (φ : Flow) : Nat → Flow
  | 0 => φ
  | k+1 => after z quantum (next z φ quantum quantum) k

theorem runFixed (z : Sizes) (quantum : Nat) (φ : Flow) (n : Nat) :
    run z φ (lengths (List.replicate n quantum)) = (List.range n).map
      (fun k => (after z quantum φ (k + 1),report z (after z quantum φ k) quantum quantum)) := by
  induction n generalizing φ with
  | zero => rfl
  | succ n ih =>
    rw [List.replicate_succ,runLengths,ih,List.range_succ_eq_map,List.map_cons,List.map_map]
    rfl

theorem afterSucc (z : Sizes) (quantum : Nat) (φ : Flow) (k : Nat) :
    after z quantum φ (k + 1) = next z (after z quantum φ k) quantum quantum := by
  induction k generalizing φ with
  | zero => rfl
  | succ k ih => exact ih (next z φ quantum quantum)

/-- Where the k-th callback starts when both queues hold a constant number of
samples together. Silence that the callback still inserts is counted in. -/
structure Held (z : Sizes) (quantum reserve k : Nat) (φ : Flow) : Prop where
  phase : φ.accumulated = k * quantum % z.block
  delay : φ.delay + inserted z.block φ quantum = reserve
  settled : 0 < k → φ.quantum = some quantum

theorem heldNext {z : Sizes} {quantum reserve k : Nat} {φ : Flow} (positive : quantum ≠ 0)
    (held : Held z quantum reserve k φ) (clean : Clean (report z φ quantum quantum)) :
    Held z quantum reserve (k + 1) (next z φ quantum quantum) := by
  have phase : φ.accumulated < z.block := by rw [held.phase]; exact Nat.mod_lt _ z.positive
  obtain ⟨moved,delay⟩ := cleanNext phase clean
  have settled := quantumNext z φ quantum positive
  refine ⟨?_,?_,fun _ => settled⟩
  · rw [moved,held.phase,Nat.mod_add_mod,Nat.succ_mul]
  · rw [insertedSame z.block settled,delay,held.delay,Nat.add_zero]

theorem heldClean {z : Sizes} {quantum reserve k : Nat} {φ : Flow} (held : Held z quantum reserve k φ) :
    Clean (report z φ quantum quantum) ↔ k * quantum % z.block + quantum ≤ z.capacity ∧
      reserve + quantum ≤ z.capacity + (k + 1) * quantum % z.block ∧ (k + 1) * quantum % z.block ≤ reserve := by
  have phase : φ.accumulated < z.block := by rw [held.phase]; exact Nat.mod_lt _ z.positive
  have residue : (φ.accumulated + quantum) % z.block = (k + 1) * quantum % z.block := by
    rw [held.phase,Nat.mod_add_mod,Nat.succ_mul]
  rw [cleanExact phase quantum,held.delay,residue,held.phase]

/- Before the first callback nothing is primed yet; it inserts the whole reserve itself. -/
theorem startHeld (z : Sizes) {quantum : Nat} (positive : quantum ≠ 0) :
    Held z quantum (z.block - Nat.gcd quantum z.block) 0 start := by
  refine ⟨by simp [start],?_,by omega⟩
  rw [insertedFirst rfl positive]
  simp [start,Flow.delay]

theorem residueCovered {block : Nat} (quantum k : Nat) (positive : 0 < block) :
    k * quantum % block ≤ block - Nat.gcd quantum block := by
  refine phaseOfDivisor ?_ (Nat.gcd_dvd_right quantum block) (Nat.mod_lt _ positive)
  exact (Nat.dvd_mod_iff (Nat.gcd_dvd_right quantum block)).mpr
    (Nat.dvd_mul_left_of_dvd (Nat.gcd_dvd_left quantum block) k)

theorem fixedClean {z : Sizes} {quantum k : Nat} {φ : Flow}
    (held : Held z quantum (z.block - Nat.gcd quantum z.block) k φ) :
    Clean (report z φ quantum quantum) ↔ k * quantum % z.block + quantum ≤ z.capacity ∧
      z.block - Nat.gcd quantum z.block + quantum ≤ z.capacity + (k + 1) * quantum % z.block := by
  have covered := residueCovered quantum (k + 1) z.positive
  rw [heldClean held]
  exact ⟨fun h => ⟨h.1,h.2.1⟩,fun h => ⟨h.1,h.2,covered⟩⟩

theorem fixedAfter {z : Sizes} {quantum : Nat} (positive : quantum ≠ 0) (k : Nat)
    (clean : ∀ j < k, Clean (report z (after z quantum start j) quantum quantum)) :
    Held z quantum (z.block - Nat.gcd quantum z.block) k (after z quantum start k) := by
  induction k with
  | zero => exact startHeld z positive
  | succ k ih =>
    rw [afterSucc]
    exact heldNext positive (ih (fun j less => clean j (by omega))) (clean k (by omega))

theorem worstResidue {block : Nat} (quantum : Nat) (positive : 0 < block) :
    ∃ k, k * quantum % block = block - Nat.gcd quantum block := by
  have divisor : 0 < Nat.gcd quantum block := Nat.gcd_pos_of_pos_right quantum positive
  have bounded : Nat.gcd quantum block ≤ block := Nat.gcd_le_right quantum positive
  rcases Nat.lt_or_ge (Nat.gcd quantum block) block with less | whole
  · obtain ⟨m,-,hm⟩ := Nat.exists_mul_mod_eq_gcd less
    obtain ⟨parts,hparts⟩ := Nat.gcd_dvd_right quantum block
    have some : 0 < parts := by
      rcases Nat.eq_zero_or_pos parts with rfl | some
      · omega
      · exact some
    -- the last multiple of the gcd below the block, from the residue that is the gcd itself
    have last : (parts - 1) * Nat.gcd quantum block = block - Nat.gcd quantum block := by
      rw [Nat.sub_mul,Nat.one_mul,Nat.mul_comm,← hparts]
    refine ⟨(parts - 1) * m,?_⟩
    calc (parts - 1) * m * quantum % block
        = (parts - 1) * (quantum * m % block) % block := by
          rw [Nat.mul_mod_mod,Nat.mul_assoc,Nat.mul_comm m quantum]
      _ = (block - Nat.gcd quantum block) % block := by rw [hm,last]
      _ = block - Nat.gcd quantum block := Nat.mod_eq_of_lt (by omega)
  · exact ⟨0,by rw [Nat.zero_mul,Nat.zero_mod]; omega⟩

theorem fixedCapacity {z : Sizes} {quantum : Nat} (positive : quantum ≠ 0) :
    (∀ k, Clean (report z (after z quantum start k) quantum quantum)) ↔
      quantum + z.block - Nat.gcd quantum z.block ≤ z.capacity := by
  have bounded : Nat.gcd quantum z.block ≤ z.block := Nat.gcd_le_right quantum z.positive
  constructor
  · intro clean
    obtain ⟨k,worst⟩ := worstResidue quantum z.positive
    have room := ((fixedClean (fixedAfter positive k (fun j _ => clean j))).mp (clean k)).1
    rw [worst] at room
    omega
  · intro room k
    induction k using Nat.strong_induction_on with
    | _ k ih =>
      have phase := residueCovered quantum k z.positive
      exact (fixedClean (fixedAfter positive k ih)).mpr ⟨by omega,by omega⟩

variable {σ α : Type}

theorem processAllFixed [Sample α] {z : Sizes} {quantum : Nat} (callback : DspCallback σ α) {a : AdapterBuffer α}
    {v : View α} (shows : Shows z a v) (s : σ) (calls : Nat → HostCall α)
    (equal : ∀ k, (calls k).input.length = quantum ∧ (calls k).output.length = quantum) (n : Nat) :
    ∃ r, processAll callback a s ((List.range n).map calls) = .ok r ∧
      r.reports = (List.range n).map (fun k => report z (after z quantum (measure a) k) quantum quantum) := by
  obtain ⟨r,ok,flow⟩ := processAllFlow callback shows s ((List.range n).map calls)
  have sizes : ((List.range n).map calls).map (fun c => (c.input.length,c.output.length)) =
      lengths (List.replicate n quantum) := by
    simp [lengths,equal,Function.comp_def]
  rw [sizes] at flow
  exact ⟨r,ok,by rw [reportsOfFlow flow,runFixed,List.map_map]; rfl⟩

theorem fixedQuantumLaw [Sample α] {block quantum capacity : Nat} (positive : 0 < block) (host : 0 < quantum)
    (room : 2 * block ≤ capacity) (callback : DspCallback σ α) (s : σ) (calls : Nat → HostCall α)
    (equal : ∀ k, (calls k).input.length = quantum ∧ (calls k).output.length = quantum) :
    ∃ reports : Nat → AdapterProcessReport,
      (∀ n, ∃ r, session block capacity callback s ((List.range n).map calls) = .ok r ∧
        r.reports = (List.range n).map reports) ∧
      ((∀ k, Clean (reports k)) ↔ quantum + block - Nat.gcd quantum block ≤ capacity) ∧
      (quantum + block - Nat.gcd quantum block ≤ capacity →
        (reports 0).latencyAddedSamples = block - Nat.gcd quantum block ∧
        ∀ k, (reports (k + 1)).latencyAddedSamples = 0) := by
  let z : Sizes := ⟨block,capacity,positive,room⟩
  refine ⟨fun k => report z (after z quantum start k) quantum quantum,?_,fixedCapacity (z := z) (by omega),?_⟩
  · intro n
    obtain ⟨a,created,shows⟩ := newShows (α := α) z
    obtain ⟨r,ok,reported⟩ := processAllFixed callback shows s calls equal n
    rw [showsMeasure shows] at reported
    exact ⟨r,by simp only [session,created,okBind,ok,z],reported⟩
  · intro enough
    have clean := (fixedCapacity (z := z) (show quantum ≠ 0 by omega)).mpr enough
    constructor
    · have fixed := (fixedAfter (z := z) (show quantum ≠ 0 by omega) 0 (fun j _ => clean j)).delay
      simpa [after,start,Flow.delay,report] using fixed
    · intro k
      have fixed := fixedAfter (show quantum ≠ 0 by omega) (k + 1) (fun j _ => clean j)
      exact insertedSame z.block (fixed.settled (by omega))

theorem fixedQuantumLawAtThree : ∃ reports : Nat → AdapterProcessReport,
    (∀ n, ∃ r, session 3 6 passthrough () ((List.range n).map (fun _ => hostCall 2)) = .ok r ∧
      r.reports = (List.range n).map reports) ∧
    ((∀ k, Clean (reports k)) ↔ 2 + 3 - Nat.gcd 2 3 ≤ 6) ∧
    (2 + 3 - Nat.gcd 2 3 ≤ 6 → (reports 0).latencyAddedSamples = 3 - Nat.gcd 2 3 ∧
      ∀ k, (reports (k + 1)).latencyAddedSamples = 0) :=
  fixedQuantumLaw (by decide) (by decide) (by decide) passthrough () (fun _ => hostCall 2)
    (fun _ => by decide)

end Riaps.AdapterFixedQuantum
