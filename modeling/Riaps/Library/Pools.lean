import Mathlib.Data.List.Basic
import Mathlib.Data.List.Count
import Mathlib.Data.List.Perm.Basic

/-! Pools of values that threads hand to each other. A step takes any one entry out
of a pool; the order of the rest does not matter. `tally` counts how often a
thing is named by the entries of a pool, and so by how many it is held.
The lookup lemmas say what an index can see after one entry was written or added. -/
namespace Riaps.Library.Pools

variable {α ν : Type}

def pick (pool : List α) (i : Nat) : Option (α × List α) := pool[i]?.map (fun x => (x,pool.eraseIdx i))

theorem pickPerm {pool rest : List α} {i : Nat} {x : α} (ok : pick pool i = some (x,rest)) : pool.Perm (x :: rest) := by
  obtain ⟨y,found,same⟩ := Option.map_eq_some_iff.mp ok
  cases same
  obtain ⟨bound,rfl⟩ := List.getElem?_eq_some_iff.mp found
  exact (List.getElem_cons_eraseIdx_perm bound).symm

theorem lookupSet {pool : List α} {i j : Nat} {a b : α} (seen : (pool.set i b)[j]? = some a) :
    (j = i ∧ a = b) ∨ (j ≠ i ∧ pool[j]? = some a) := by
  by_cases same : j = i
  · subst same
    rw [List.getElem?_set] at seen
    split at seen
    · split at seen
      · exact .inl ⟨rfl,(Option.some.inj seen).symm⟩
      · cases seen
    · contradiction
  · rw [List.getElem?_set_ne (Ne.symm same)] at seen
    exact .inr ⟨same,seen⟩

theorem lookupSnoc {pool : List α} {i : Nat} {a b : α} (seen : (pool ++ [b])[i]? = some a) :
    pool[i]? = some a ∨ (i = pool.length ∧ a = b) := by
  rcases Nat.lt_or_ge i pool.length with old | past
  · rw [List.getElem?_append_left old] at seen
    exact .inl seen
  · have bound := (List.getElem?_eq_some_iff.mp seen).1
    have last : i = pool.length := by simp at bound; omega
    subst last
    simp only [List.getElem?_concat_length,Option.some.injEq] at seen
    exact .inr ⟨rfl,seen.symm⟩

section Entries
variable {pool rest : List α} {a b : α} {P Q : α → Prop}

/- Where the entries of the new pool come from, after one was added, taken out or replaced. -/
theorem fromAdded (new : Q b) : ∀ c ∈ b :: pool, c ∈ pool ∨ Q c :=
  List.forall_mem_cons.mpr ⟨.inr new,fun _ => .inl⟩

theorem fromTaken (taken : pool.Perm (a :: rest)) : ∀ c ∈ rest, c ∈ pool ∨ Q c :=
  fun _ mem => .inl (taken.mem_iff.mpr (List.mem_cons_of_mem a mem))

theorem fromTurned (taken : pool.Perm (a :: rest)) (new : Q b) : ∀ c ∈ b :: rest, c ∈ pool ∨ Q c :=
  List.forall_mem_cons.mpr ⟨.inr new,fromTaken taken⟩

/- What some entry of the old pool does, some entry of the new one does still. -/
theorem intoAdded (b : α) : ∀ c ∈ pool, P c → ∃ d ∈ b :: pool, P d :=
  fun c mem holds => ⟨c,List.mem_cons_of_mem b mem,holds⟩

theorem intoTaken (taken : pool.Perm (a :: rest)) (other : ¬P a) : ∀ c ∈ pool, P c → ∃ d ∈ rest, P d := by
  intro c mem holds
  rcases List.mem_cons.mp (taken.mem_iff.mp mem) with rfl | old
  · exact absurd holds other
  · exact ⟨c,old,holds⟩

theorem intoTurned (taken : pool.Perm (a :: rest)) (next : P a → P b) : ∀ c ∈ pool, P c → ∃ d ∈ b :: rest, P d := by
  intro c mem holds
  rcases List.mem_cons.mp (taken.mem_iff.mp mem) with rfl | old
  · exact ⟨b,List.mem_cons_self,next holds⟩
  · exact ⟨c,List.mem_cons_of_mem b old,holds⟩

end Entries

variable [DecidableEq ν] (names : α → List ν)

def tally (pool : List α) (x : ν) : Nat := (pool.flatMap names).count x

@[simp] theorem tallyCons (a : α) (pool : List α) (x : ν) :
    tally names (a :: pool) x = (names a).count x + tally names pool x := by
  simp [tally]

@[simp] theorem tallyAppend (front back : List α) (x : ν) :
    tally names (front ++ back) x = tally names front x + tally names back x := by
  simp [tally]

theorem tallySnoc (pool : List α) (a : α) (x : ν) : tally names (pool ++ [a]) x = tally names pool x + (names a).count x := by
  simp [tally]

theorem tallyPerm {pool pool' : List α} (perm : pool.Perm pool') (x : ν) : tally names pool x = tally names pool' x :=
  (perm.flatMap_right names).count_eq x

theorem tallySplit {pool : List α} {i : Nat} {a : α} (found : pool[i]? = some a) (x : ν) :
    tally names pool x = (names a).count x + tally names (pool.eraseIdx i) x := by
  have picked : pick pool i = some (a,pool.eraseIdx i) := by simp [pick,found]
  rw [tallyPerm names (pickPerm picked),tallyCons]

theorem tallySet {pool : List α} {i : Nat} {a : α} (found : pool[i]? = some a) (b : α) (x : ν) :
    tally names (pool.set i b) x + (names a).count x = tally names pool x + (names b).count x := by
  obtain ⟨bound,_⟩ := List.getElem?_eq_some_iff.mp found
  have after : (pool.set i b)[i]? = some b := List.getElem?_set_self bound
  have erased : (pool.set i b).eraseIdx i = pool.eraseIdx i := List.eraseIdx_set_eq
  rw [tallySplit names found,tallySplit names after,erased]
  omega

theorem tallyPositive {pool : List α} {x : ν} : 0 < tally names pool x ↔ ∃ a ∈ pool, x ∈ names a := by
  rw [tally,List.count_pos_iff,List.mem_flatMap]

theorem tallyApart {pool : List α} {i j : Nat} {a b : α} (left : pool[i]? = some a) (right : pool[j]? = some b)
    (apart : i ≠ j) (x : ν) : (names a).count x + (names b).count x ≤ tally names pool x := by
  rw [tallySplit names left]
  apply Nat.add_le_add_left
  have kept : b ∈ pool.eraseIdx i := List.mem_eraseIdx_iff_getElem?.mpr ⟨j,Ne.symm apart,right⟩
  obtain ⟨front,back,split⟩ := List.append_of_mem kept
  rw [split,tallyAppend,tallyCons]
  omega

end Riaps.Library.Pools
