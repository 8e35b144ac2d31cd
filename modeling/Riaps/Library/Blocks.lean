import Mathlib.Data.List.Basic

/-! A list cut into consecutive blocks of one size, the last one padded with
zeros. Any way to produce whole blocks and a short rest in order produces them. -/
namespace Riaps.Library.Blocks

variable {α : Type} [Zero α]

def padded (size : Nat) (xs : List α) : List α := xs ++ List.replicate (size - xs.length) 0

def blocks (size : Nat) (xs : List α) : List (List α) :=
  (List.range ((xs.length + size - 1) / size)).map (fun i => padded size ((xs.drop (i * size)).take size))

def remainderBlock (size : Nat) (rest : List α) : List (List α) :=
  if rest = [] then [] else [padded size rest]

theorem paddedWhole {size : Nat} {xs : List α} (whole : xs.length = size) : padded size xs = xs := by
  simp [padded,whole]

theorem blocksMap {β : Type} [Zero β] (f : α → β) (zero : f 0 = 0) (size : Nat) (xs : List α) :
    (blocks size xs).map (List.map f) = blocks size (xs.map f) := by
  unfold blocks
  rw [List.map_map,List.length_map]
  apply List.map_congr_left
  intro i _
  simp only [Function.comp_apply,padded,List.map_append,List.map_replicate,List.map_take,List.map_drop,List.length_take,
    List.length_drop,List.length_map,zero]

theorem blocksShort {size : Nat} {rest : List α} (short : rest.length < size) :
    blocks size rest = remainderBlock size rest := by
  unfold blocks remainderBlock
  split
  · rename_i empty
    rw [empty,List.length_nil,Nat.zero_add,Nat.div_eq_of_lt (by omega)]
    rfl
  · rename_i some
    have positive : 0 < rest.length := List.length_pos_iff.mpr some
    have one : (rest.length + size - 1) / size = 1 := by
      rw [Nat.div_eq_iff (by omega)]
      omega
    rw [one]
    simp [List.take_of_length_le (Nat.le_of_lt short)]

theorem blocksCons {size : Nat} (positive : 0 < size) {b : List α} (whole : b.length = size) (xs : List α) :
    blocks size (b ++ xs) = b :: blocks size xs := by
  have more : ((b ++ xs).length + size - 1) / size = (xs.length + size - 1) / size + 1 := by
    rw [List.length_append,whole,show size + xs.length + size - 1 = xs.length + size - 1 + size by omega,
      Nat.add_div_right _ positive]
  unfold blocks
  rw [more,List.range_succ_eq_map,List.map_cons,List.map_map]
  congr 1
  · rw [Nat.zero_mul,List.drop_zero,List.take_left' whole,paddedWhole whole]
  · apply List.map_congr_left
    intro i _
    simp only [Function.comp,Nat.succ_mul]
    rw [Nat.add_comm,← List.drop_drop,List.drop_left' whole]

theorem blocksOfParts {size : Nat} (positive : 0 < size) {bs : List (List α)} {rest : List α}
    (whole : ∀ b ∈ bs, b.length = size) (short : rest.length < size) :
    blocks size (bs.flatten ++ rest) = bs ++ remainderBlock size rest := by
  induction bs with
  | nil => simpa using blocksShort short
  | cons b bs ih =>
    obtain ⟨first,later⟩ := List.forall_mem_cons.mp whole
    rw [List.flatten_cons,List.append_assoc,blocksCons positive first,ih later,List.cons_append]

/- The blocks put together again: the list and the zeros that fill the last block. -/
theorem blocksFlatten {size : Nat} (positive : 0 < size) (xs : List α) :
    ∃ missing, missing < size ∧ (blocks size xs).flatten = xs ++ List.replicate missing 0 ∧
      ∀ b ∈ blocks size xs, b.length = size := by
  induction blocked : xs.length using Nat.strongRecOn generalizing xs with
  | _ n ih =>
    by_cases short : xs.length < size
    · rw [blocksShort short,remainderBlock]
      split
      · rename_i empty
        exact ⟨0,positive,by simp [empty],by simp⟩
      · rename_i some
        have kept : 0 < xs.length := List.length_pos_iff.mpr some
        exact ⟨size - xs.length,by omega,by simp [padded],by simp [padded]; omega⟩
    · have front : (xs.take size).length = size := List.length_take_of_le (by omega)
      obtain ⟨missing,less,flat,whole⟩ := ih (xs.drop size).length (by rw [List.length_drop]; omega) (xs.drop size) rfl
      have cut := blocksCons positive front (xs.drop size)
      rw [List.take_append_drop] at cut
      refine ⟨missing,less,?_,?_⟩
      · rw [cut,List.flatten_cons,flat,← List.append_assoc,List.take_append_drop]
      · rw [cut]
        exact List.forall_mem_cons.mpr ⟨front,whole⟩

end Riaps.Library.Blocks
