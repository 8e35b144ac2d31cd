import Mathlib.Data.List.Basic

/-! A flat buffer cut into regions of equal size. Writing the front of one region
leaves every other region as it was. -/
namespace Riaps.Library.Regions

variable {α : Type}

def region (block count : Nat) (xs : List α) (index : Nat) : List α := (xs.drop (index * block)).take count

def written (block count : Nat) (xs : List α) (index : Nat) (ys : List α) : List α :=
  xs.take (index * block) ++ ys ++ xs.drop (index * block + count)

theorem regionInside {n block count index : Nat} (bound : index < n) (fits : count ≤ block) :
    index * block + count ≤ n * block := by
  calc index * block + count ≤ index * block + block := Nat.add_le_add_left fits _
    _ = (index + 1) * block := (Nat.succ_mul index block).symm
    _ ≤ n * block := Nat.mul_le_mul_right block bound

theorem regionsApart {block count i j : Nat} (fits : count ≤ block) (less : i < j) :
    i * block + count ≤ j * block := regionInside less fits

section Writes
variable {block count index : Nat} {xs ys : List α}

theorem regionLength {n : Nat} (size : xs.length = n * block) (bound : index < n) (fits : count ≤ block) :
    (region block count xs index).length = count := by
  have inside := regionInside bound fits
  simp only [region,List.length_take,List.length_drop]
  omega

theorem writtenLength (full : ys.length = count) (inside : index * block + count ≤ xs.length) :
    (written block count xs index ys).length = xs.length := by
  simp only [written,List.length_append,List.length_take,List.length_drop]
  omega

theorem regionSame (full : ys.length = count) (inside : index * block + count ≤ xs.length) :
    region block count (written block count xs index ys) index = ys := by
  have front : (xs.take (index * block)).length = index * block := by simp; omega
  unfold region written
  rw [List.append_assoc,List.drop_left' front,List.take_left' full]

theorem regionOther {other : Nat} (full : ys.length = count) (inside : index * block + count ≤ xs.length)
    (fits : count ≤ block) (apart : other ≠ index) :
    region block count (written block count xs index ys) other = region block count xs other := by
  have front : (xs.take (index * block)).length = index * block := by simp; omega
  unfold region written
  rcases Nat.lt_or_gt_of_ne apart with less | more
  · have gap := regionsApart fits less
    rw [List.append_assoc,List.drop_append_of_le_length (by omega),List.take_append_of_le_length (by simp; omega),
      List.drop_take,List.take_take,Nat.min_eq_left (by omega)]
  · have gap := regionsApart fits more
    rw [List.drop_append,List.drop_of_length_le (by simp; omega),List.nil_append,List.drop_drop]
    congr 2
    simp only [List.length_append,front,full]
    omega

end Writes
end Riaps.Library.Regions
