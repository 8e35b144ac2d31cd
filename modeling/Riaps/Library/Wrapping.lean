import Mathlib.Data.Int.ModEq
import Mathlib.Data.Nat.ModEq
import Mathlib.Logic.Function.Basic

/-! Indices of a ring that never come back down: free-running counters kept in
w bits and reduced to a slot by a second remainder. A counter and its w-bit
image name the same slot exactly when the counter has not wrapped yet, or the
ring size divides the period of the counter. -/
namespace Riaps.Library.Wrapping

def wrappingAdd (w a b : Nat) : Nat := (a + b) % 2^w

def wrappingSub (w a b : Nat) : Nat := (a + 2^w - b) % 2^w

theorem wrappingAddCount (w count step : Nat) :
    wrappingAdd w (count % 2^w) step = (count + step) % 2^w := by
  simp only [wrappingAdd,Nat.mod_add_mod]

theorem wrappingSubCount {w low high : Nat} (le : low ≤ high) (gap : high - low < 2^w) :
    wrappingSub w (high % 2^w) (low % 2^w) = high - low := by
  have bound : low % 2^w < 2^w := Nat.mod_lt _ (Nat.two_pow_pos w)
  have same : (high % 2^w + 2^w - low % 2^w) ≡ (high - low) [MOD 2^w] := by
    have left : (high % 2^w + 2^w - low % 2^w) + low % 2^w ≡ (high - low) + low % 2^w [MOD 2^w] := by
      have sum : high % 2^w + 2^w - low % 2^w + low % 2^w = high % 2^w + 2^w := by omega
      rw [sum]
      calc high % 2^w + 2^w ≡ high + 0 [MOD 2^w] :=
            Nat.ModEq.add (Nat.mod_modEq _ _) (by simp [Nat.ModEq])
        _ = (high - low) + low := by omega
        _ ≡ (high - low) + low % 2^w [MOD 2^w] := Nat.ModEq.add_left _ (Nat.mod_modEq _ _).symm
    exact Nat.ModEq.add_right_cancel' _ left
  unfold wrappingSub
  rw [same,Nat.mod_eq_of_lt gap]

theorem wrappingAddSub {w low high : Nat} (left : low ≤ 2^w) (right : high < 2^w) :
    wrappingAdd w low (wrappingSub w high low) = high := by
  rw [wrappingAdd,wrappingSub,Nat.add_mod_mod,show low + (high + 2^w - low) = high + 2^w by omega,Nat.add_mod_right,
    Nat.mod_eq_of_lt right]

theorem wrappingSubPast (w low gap : Nat) :
    wrappingSub w (low % 2^w) ((low + gap) % 2^w) = (2^w - gap % 2^w) % 2^w := by
  have bound : low % 2^w < 2^w := Nat.mod_lt _ (Nat.two_pow_pos w)
  have part : gap % 2^w < 2^w := Nat.mod_lt _ (Nat.two_pow_pos w)
  rw [wrappingSub,Nat.add_mod low gap]
  rcases Nat.lt_or_ge (low % 2^w + gap % 2^w) (2^w) with inside | past
  · rw [Nat.mod_eq_of_lt inside]
    congr 1
    omega
  · have once : (low % 2^w + gap % 2^w) % 2^w = low % 2^w + gap % 2^w - 2^w := by
      rw [Nat.mod_eq_sub_mod past,Nat.mod_eq_of_lt (by omega)]
    have shifted : low % 2^w + 2^w - (low % 2^w + gap % 2^w - 2^w) = 2^w - gap % 2^w + 2^w := by omega
    rw [once,shifted,Nat.add_mod_right]

theorem wrappedSmall {w bound : Nat} (gap : Nat) :
    (2^w - gap % 2^w) % 2^w ≤ bound ↔ gap % 2^w = 0 ∨ 2^w ≤ gap % 2^w + bound := by
  have part : gap % 2^w < 2^w := Nat.mod_lt _ (Nat.two_pow_pos w)
  rcases Nat.eq_zero_or_pos (gap % 2^w) with zero | positive
  · rw [zero,Nat.sub_zero,Nat.mod_self]
    omega
  · rw [Nat.mod_eq_of_lt (by omega)]
    omega

theorem slotOfCount {w size count : Nat} (aligned : count < 2^w ∨ size ∣ 2^w) :
    count % 2^w % size = count % size := by
  rcases aligned with small | divides
  · rw [Nat.mod_eq_of_lt small]
  · exact Nat.mod_mod_of_dvd count divides

theorem powerDivides {k w : Nat} (fits : 2^k < 2^w) : 2^k ∣ 2^w := by
  have wide : k < w := (Nat.pow_lt_pow_iff_right (Nat.lt_succ_self 1)).mp fits
  exact Nat.pow_dvd_pow 2 wide.le

theorem slotsDiffer {size i j : Nat} (less : i < j) (near : j < i + size) : i % size ≠ j % size := by
  intro same
  have gap : size ∣ j - i := (Nat.modEq_iff_dvd' less.le).mp same
  have zero := Nat.eq_zero_of_dvd_of_lt gap (by omega)
  omega

def Covered (size low high slot : Nat) : Prop := ∃ i, low ≤ i ∧ i < high ∧ i % size = slot

section Ranges
variable {size low high : Nat} {live : Nat → Bool}

theorem coverLast (exact : ∀ k, live k = true ↔ Covered size low high k) (order : low ≤ high) (k : Nat) :
    Function.update live (high % size) true k = true ↔ Covered size low (high + 1) k := by
  by_cases same : k = high % size
  · rw [same,Function.update_self]
    exact ⟨fun _ => ⟨high,order,Nat.lt_succ_self high,rfl⟩,fun _ => rfl⟩
  · rw [Function.update_of_ne same,exact]
    constructor
    · rintro ⟨i,above,below,slot⟩
      exact ⟨i,above,Nat.lt_succ_of_lt below,slot⟩
    · rintro ⟨i,above,below,rfl⟩
      have other : i ≠ high := fun last => same (by rw [last])
      exact ⟨i,above,by omega,rfl⟩

theorem uncoverFirst (exact : ∀ k, live k = true ↔ Covered size low high k) (fits : high ≤ low + size) (k : Nat) :
    Function.update live (low % size) false k = true ↔ Covered size (low + 1) high k := by
  by_cases same : k = low % size
  · rw [same,Function.update_self]
    constructor
    · exact fun impossible => by cases impossible
    · rintro ⟨i,above,below,slot⟩
      exact absurd slot.symm (slotsDiffer above (by omega))
  · rw [Function.update_of_ne same,exact]
    constructor
    · rintro ⟨i,above,below,rfl⟩
      have other : i ≠ low := fun first => same (by rw [first])
      exact ⟨i,by omega,below,rfl⟩
    · rintro ⟨i,above,below,slot⟩
      exact ⟨i,Nat.le_of_succ_le above,below,slot⟩

end Ranges
end Riaps.Library.Wrapping
