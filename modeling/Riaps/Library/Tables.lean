import Mathlib.Logic.Function.Basic
import Riaps.Library.Checks

/-! A vector whose entries are known by their index. Reading and writing a table
are reading and updating the function behind it, so a loop over vectors is
proved as a fold over functions. -/
namespace Riaps.Library.Tables
open Checks

variable {α : Type}

def table (n : Nat) (f : Nat → α) : List α := (List.range n).map f

@[simp] theorem tableLength (n : Nat) (f : Nat → α) : (table n f).length = n := by simp [table]

theorem tableEntry {n i : Nat} (f : Nat → α) (bound : i < n) : (table n f)[i]? = some (f i) := by simp [table,bound]

theorem tableCongr {n : Nat} {f g : Nat → α} (same : ∀ i, i < n → f i = g i) : table n f = table n g :=
  List.map_congr_left (fun i mem => same i (List.mem_range.mp mem))

theorem tableReplicate (n : Nat) (x : α) : List.replicate n x = table n (fun _ => x) := by
  simp [table]

theorem tableGet {n i : Nat} (f : Nat → α) (bound : i < n) : get (table n f) i = .ok (f i) :=
  getOk (tableEntry f bound)

theorem tableSet {n i : Nat} (f : Nat → α) (x : α) (bound : i < n) :
    set (table n f) i x = .ok (table n (Function.update f i x)) := by
  rw [setOk x (by simpa using bound)]
  congr 1
  apply List.ext_getElem?
  intro j
  by_cases inside : j < n
  · rw [tableEntry _ inside]
    by_cases same : j = i
    · subst same
      simp [bound]
    · rw [List.getElem?_set_ne (Ne.symm same),tableEntry f inside,Function.update_of_ne same]
  · simp [inside]

theorem tableGetAll {n : Nat} (f : Nat → α) {is : List Nat} (bound : ∀ i ∈ is, i < n) :
    getAll (table n f) is = .ok (is.map f) := by
  induction is with
  | nil => rfl
  | cons i is ih =>
    simp only [getAll,tableGet f (bound i (List.mem_cons_self)),
      ih (fun j mem => bound j (List.mem_cons_of_mem i mem)),okBind,List.map_cons]
    rfl

theorem tableZipIdx (n : Nat) (f : Nat → α) (p : α → Bool) :
    (table n f).zipIdx.filterMap (fun entry => if p entry.1 then some entry.2 else none) =
      (List.range n).filter (fun i => p (f i)) := by
  induction n with
  | zero => rfl
  | succ n ih =>
    have last : table (n + 1) f = table n f ++ [f n] := by simp [table,List.range_succ]
    rw [last,List.zipIdx_append,List.filterMap_append,ih,List.range_succ,List.filter_append]
    cases keep : p (f n) <;> simp [keep]

end Riaps.Library.Tables
