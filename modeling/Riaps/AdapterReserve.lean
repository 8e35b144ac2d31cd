import Mathlib.Order.Bounds.Basic
import Riaps.AdapterFixedQuantum

/-! Less silence than the first callback primes. An adapter keeps the reserve it
starts with until a callback leaves the input queue in a phase beyond it, and
callbacks of one quantum reach every multiple of the divisor as a phase. -/
namespace Riaps.AdapterReserve
open Library.Checks SampleFifo Adapter AdapterView AdapterFlow AdapterQuantum AdapterFixedQuantum

variable {σ α : Type}

/-- A fresh adapter that already knows its host quantum and holds a chosen reserve. -/
def reservedAdapter [Sample α] (targetBlockSize capacity quantum reserve : Nat) :
    Checked (AdapterBuffer α) := do
  let a ← new targetBlockSize capacity
  let (outputFifo,_) ← pushZeros a.outputFifo reserve
  .ok {a with outputFifo := outputFifo, hostQuantum := some quantum}

def Reports [Sample α] (callback : DspCallback σ α) (a : AdapterBuffer α) (s : σ) (calls : Nat → HostCall α)
    (reports : Nat → AdapterProcessReport) : Prop :=
  ∀ n, ∃ r, processAll callback a s ((List.range n).map calls) = .ok r ∧ r.reports = (List.range n).map reports

def AvoidsUnderruns [Sample α] (block capacity quantum : Nat) (callback : DspCallback σ α) (s : σ)
    (calls : Nat → HostCall α) (reserve : Nat) : Prop :=
  ∃ a reports, reservedAdapter block capacity quantum reserve = .ok a ∧ Reports callback a s calls reports ∧
    ∀ k, (reports k).underrunSamples = 0

def reservedFlow (quantum reserve : Nat) : Flow := ⟨0,reserve,some quantum,0⟩

theorem reservedFlowHeld (z : Sizes) (quantum reserve : Nat) :
    Held z quantum reserve 0 (reservedFlow quantum reserve) :=
  ⟨by simp [reservedFlow],by simp [reservedFlow,Flow.delay,insertedSame],by omega⟩

section Callbacks
variable {z : Sizes} {quantum reserve k : Nat} {φ : Flow}

theorem heldCovered (room : quantum + z.block - Nat.gcd quantum z.block ≤ z.capacity)
    (small : reserve ≤ z.block - Nat.gcd quantum z.block) (held : Held z quantum reserve k φ) :
    Clean (report z φ quantum quantum) ↔ (k + 1) * quantum % z.block ≤ reserve := by
  have bounded : Nat.gcd quantum z.block ≤ z.block := Nat.gcd_le_right quantum z.positive
  have covered := residueCovered quantum k z.positive
  rw [heldClean held]
  omega

/-- With a reserve this small nothing is dropped, so only an underrun can spoil a callback. -/
theorem heldMissing (room : quantum + z.block - Nat.gcd quantum z.block ≤ z.capacity)
    (small : reserve ≤ z.block - Nat.gcd quantum z.block) (held : Held z quantum reserve k φ)
    (none : (report z φ quantum quantum).underrunSamples = 0) : Clean (report z φ quantum quantum) := by
  have bounded : Nat.gcd quantum z.block ≤ z.block := Nat.gcd_le_right quantum z.positive
  have covered := residueCovered quantum k z.positive
  have phase : φ.accumulated < z.block := by rw [held.phase]; exact Nat.mod_lt _ z.positive
  have taken : accepted z φ quantum = quantum := by
    refine Nat.min_eq_left ?_
    rw [held.phase]
    omega
  have split := Nat.mod_add_div' (φ.accumulated + quantum) z.block
  have delay := held.delay
  rw [cleanExact phase quantum,delay,held.phase]
  rw [held.phase] at split
  simp only [report,offered,taken,Flow.delay,held.phase] at none delay
  omega

theorem heldAfter (positive : quantum ≠ 0)
    (room : quantum + z.block - Nat.gcd quantum z.block ≤ z.capacity)
    (small : reserve ≤ z.block - Nat.gcd quantum z.block) (k : Nat)
    (none : ∀ j < k, (report z (after z quantum (reservedFlow quantum reserve) j) quantum quantum).underrunSamples = 0) :
    Held z quantum reserve k (after z quantum (reservedFlow quantum reserve) k) := by
  induction k with
  | zero => exact reservedFlowHeld z quantum reserve
  | succ k ih =>
    have held := ih (fun j less => none j (by omega))
    rw [afterSucc]
    exact heldNext positive held (heldMissing room small held (none k (by omega)))

theorem smallReserveUnderruns (positive : quantum ≠ 0)
    (room : quantum + z.block - Nat.gcd quantum z.block ≤ z.capacity)
    (small : reserve < z.block - Nat.gcd quantum z.block) :
    ∃ k, 0 < (report z (after z quantum (reservedFlow quantum reserve) k) quantum quantum).underrunSamples := by
  by_contra never
  have none : ∀ k, (report z (after z quantum (reservedFlow quantum reserve) k) quantum quantum).underrunSamples = 0 := by
    intro k
    exact Nat.eq_zero_of_not_pos (fun some => never ⟨k,some⟩)
  obtain ⟨k,worst⟩ := worstResidue quantum z.positive
  cases k with
  | zero =>
    rw [Nat.zero_mul,Nat.zero_mod] at worst
    omega
  | succ k =>
    have held := heldAfter positive room (Nat.le_of_lt small) k (fun j _ => none j)
    have covered := (heldCovered room (Nat.le_of_lt small) held).mp (heldMissing room (Nat.le_of_lt small) held (none k))
    omega

theorem wholeReserveClean (positive : quantum ≠ 0)
    (room : quantum + z.block - Nat.gcd quantum z.block ≤ z.capacity) (k : Nat) :
    (report z (after z quantum (reservedFlow quantum (z.block - Nat.gcd quantum z.block)) k)
      quantum quantum).underrunSamples = 0 := by
  induction k using Nat.strong_induction_on with
  | _ k ih =>
    have held := heldAfter positive room (Nat.le_refl _) k ih
    exact ((heldCovered room (Nat.le_refl _) held).mpr (residueCovered quantum (k + 1) z.positive)).2.2

end Callbacks

theorem reservedShows [Sample α] (z : Sizes) (quantum : Nat) {reserve : Nat} (fits : reserve ≤ z.capacity) :
    ∃ (a : AdapterBuffer α) (v : View α), reservedAdapter z.block z.capacity quantum reserve = .ok a ∧ Shows z a v ∧
      measure a = reservedFlow quantum reserve := by
  obtain ⟨a,created,shows⟩ := newShows (α := α) z
  obtain ⟨f,pushed,holds⟩ := pushZerosHolds shows.output reserve
  have count : (List.replicate (min reserve z.capacity) (Sample.priming : α)).length = reserve := by
    rw [List.length_replicate,Nat.min_eq_left fits]
  have primed : Shows z {a with outputFifo := f, hostQuantum := some quantum}
      {fresh z with output := List.replicate (min reserve z.capacity) Sample.priming, quantum := some quantum} :=
    ⟨shows.input,holds,shows.scratchIn,shows.scratchOut,shows.scratchSize,shows.size,rfl,shows.latency⟩
  refine ⟨_,_,by simp only [reservedAdapter,created,okBind,pushed],primed,?_⟩
  rw [showsMeasure primed]
  simp [forget,fresh,reservedFlow,fits]

theorem reservedReports [Sample α] (z : Sizes) {quantum reserve : Nat} (fits : reserve ≤ z.capacity)
    (callback : DspCallback σ α) (s : σ) (calls : Nat → HostCall α)
    (equal : ∀ k, (calls k).input.length = quantum ∧ (calls k).output.length = quantum) :
    ∃ a, reservedAdapter z.block z.capacity quantum reserve = .ok a ∧ Reports callback a s calls
      (fun k => report z (after z quantum (reservedFlow quantum reserve) k) quantum quantum) := by
  obtain ⟨a,v,created,shows,flow⟩ := reservedShows (α := α) z quantum fits
  refine ⟨a,created,?_⟩
  intro n
  rw [← flow]
  exact processAllFixed callback shows s calls equal n

theorem reportsUnique [Sample α] {callback : DspCallback σ α} {a : AdapterBuffer α} {s : σ}
    {calls : Nat → HostCall α} {reports others : Nat → AdapterProcessReport}
    (left : Reports callback a s calls reports) (right : Reports callback a s calls others) (k : Nat) :
    reports k = others k := by
  obtain ⟨r,ran,told⟩ := left (k + 1)
  obtain ⟨r',ran',told'⟩ := right (k + 1)
  cases ran.symm.trans ran'
  have same : (List.range (k + 1)).map reports = (List.range (k + 1)).map others := told.symm.trans told'
  exact List.map_eq_map_iff.mp same k (List.mem_range.mpr (Nat.lt_succ_self k))

theorem reserveMinimal [Sample α] {block quantum capacity : Nat} (positive : 0 < block) (host : 0 < quantum)
    (room : max (2 * block) (quantum + block - Nat.gcd quantum block) ≤ capacity)
    (callback : DspCallback σ α) (s : σ) (calls : Nat → HostCall α)
    (equal : ∀ k, (calls k).input.length = quantum ∧ (calls k).output.length = quantum) :
    (∀ reserve < block - Nat.gcd quantum block, ∃ a reports,
      reservedAdapter block capacity quantum reserve = .ok a ∧ Reports callback a s calls reports ∧
      ∃ k, 0 < (reports k).underrunSamples) ∧
    IsLeast {reserve | AvoidsUnderruns block capacity quantum callback s calls reserve}
      (block - Nat.gcd quantum block) ∧
    ∃ a b : AdapterBuffer α, new block capacity = .ok a ∧
      primeForQuantum a quantum = .ok (b,block - Nat.gcd quantum block) := by
  let z : Sizes := ⟨block,capacity,positive,by omega⟩
  have some : quantum ≠ 0 := by omega
  have enough : quantum + z.block - Nat.gcd quantum z.block ≤ z.capacity := by
    change quantum + block - Nat.gcd quantum block ≤ capacity
    omega
  refine ⟨?_,⟨?_,?_⟩,?_⟩
  · intro reserve small
    obtain ⟨a,created,told⟩ := reservedReports z (show reserve ≤ z.capacity by change reserve ≤ capacity; omega)
      callback s calls equal
    exact ⟨a,_,created,told,smallReserveUnderruns (z := z) some enough small⟩
  · obtain ⟨a,created,told⟩ := reservedReports z
      (show block - Nat.gcd quantum block ≤ z.capacity by change _ ≤ capacity; omega) callback s calls equal
    exact ⟨a,_,created,told,wholeReserveClean (z := z) some enough⟩
  · rintro reserve ⟨a,reports,created,told,none⟩
    by_contra small
    obtain ⟨b,created',told'⟩ := reservedReports z (show reserve ≤ z.capacity by change reserve ≤ capacity; omega)
      callback s calls equal
    obtain ⟨k,missing⟩ := smallReserveUnderruns (z := z) some enough (Nat.lt_of_not_le small)
    cases created.symm.trans created'
    rw [← reportsUnique told told' k,none k] at missing
    contradiction
  · obtain ⟨a,created,shows⟩ := newShows (α := α) z
    obtain ⟨b,primes,_⟩ := primeShows shows quantum
    refine ⟨a,b,created,?_⟩
    rw [primes]
    simp [prime,reserveFor,some,fresh,z]

theorem reserveMinimalAtThree :
    (∀ reserve < 3 - Nat.gcd 2 3, ∃ a reports,
      reservedAdapter 3 6 2 reserve = .ok a ∧ Reports passthrough a () (fun _ => hostCall 2) reports ∧
      ∃ k, 0 < (reports k).underrunSamples) ∧
    IsLeast {reserve | AvoidsUnderruns 3 6 2 passthrough () (fun _ => hostCall 2) reserve} (3 - Nat.gcd 2 3) ∧
    ∃ a b : AdapterBuffer Int, new 3 6 = .ok a ∧ primeForQuantum a 2 = .ok (b,3 - Nat.gcd 2 3) :=
  reserveMinimal (by decide) (by decide) (by decide) passthrough () (fun _ => hostCall 2) (fun _ => by decide)

end Riaps.AdapterReserve
