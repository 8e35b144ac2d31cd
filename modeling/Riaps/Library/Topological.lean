import Mathlib.Data.Fintype.EquivFin
import Mathlib.Data.Fintype.Sets
import Mathlib.Data.List.Basic
import Mathlib.Logic.Relation
import Mathlib.Order.WellFounded

/-! Orders of the nodes of a directed graph in which each node comes after all of
its predecessors. A finite graph has one exactly when it has no cycle: an order
is built from the front, and where it cannot go on, every node left has a
predecessor left, which makes a cycle. -/
namespace Riaps.Library.Topological
open Relation

variable {ν : Type}

def Acyclic (edge : ν → ν → Prop) : Prop := ∀ v, ¬TransGen edge v v

def Scheduled (edge : ν → ν → Prop) (order : List ν) : Prop :=
  ∀ before v after, order = before ++ v :: after → ∀ u, edge u v → u ∈ before

theorem scheduledNil (edge : ν → ν → Prop) : Scheduled edge [] := by
  intro before v after same
  simp at same

theorem scheduledSnoc {edge : ν → ν → Prop} {order : List ν} {v : ν} (scheduled : Scheduled edge order)
    (ready : ∀ u, edge u v → u ∈ order) : Scheduled edge (order ++ [v]) := by
  intro before x after same u step
  rcases List.eq_nil_or_concat after with rfl | ⟨rest,y,rfl⟩
  · obtain ⟨rfl,last⟩ := List.append_inj' same rfl
    cases last
    exact ready u step
  · rw [List.concat_eq_append,← List.cons_append,← List.append_assoc] at same
    obtain ⟨rfl,_⟩ := List.append_inj' same rfl
    exact scheduled before x rest rfl u step

/- One order behind another, when what comes in from outside comes from the front. -/
theorem scheduledJoin {μ : Type} {edge : ν → ν → Prop} {edge' : μ → μ → Prop} {front : List ν} {back : List μ} {f : μ → ν}
    (left : Scheduled edge front) (right : Scheduled edge' back)
    (into : ∀ u v, v ∈ back → edge u (f v) → u ∈ front ∨ ∃ x, u = f x ∧ edge' x v) : Scheduled edge (front ++ back.map f) := by
  intro before v after same u step
  have later : ∀ done x rest, back = done ++ x :: rest → edge u (f x) → u ∈ front ++ done.map f := by
    intro done x rest split step
    rcases into u x (by simp [split]) step with outside | ⟨y,rfl,inner⟩
    · exact List.mem_append_left _ outside
    · exact List.mem_append_right _ (List.mem_map_of_mem (right done x rest split y inner))
  rcases List.append_eq_append_iff.mp same with ⟨done,rfl,split⟩ | ⟨rest,split,tail⟩
  · obtain ⟨done,others,whole,rfl,here⟩ := List.map_eq_append_iff.mp split
    obtain ⟨x,rest,rfl,rfl,_⟩ := List.map_eq_cons_iff.mp here
    exact later done x rest whole step
  · cases rest with
    | nil =>
      obtain ⟨x,others,whole,rfl,_⟩ := List.map_eq_cons_iff.mp tail.symm
      simpa [split] using later [] x others whole step
    | cons y rest =>
      obtain ⟨rfl,_⟩ := List.cons.inj tail
      exact left before v rest split u step

theorem scheduledInduction {edge : ν → ν → Prop} {order : List ν} {P : ν → Prop} (scheduled : Scheduled edge order)
    (step : ∀ v ∈ order, (∀ u, edge u v → P u) → P v) : ∀ v ∈ order, P v := by
  have initial : ∀ done rest, order = done ++ rest → ∀ v ∈ done, P v := by
    intro done
    induction done using List.reverseRecOn with
    | nil => simp
    | append_singleton done v ih =>
      intro rest split u mem
      have here : order = done ++ v :: rest := by simpa using split
      rcases List.mem_append.mp mem with old | last
      · exact ih (v :: rest) here u old
      · cases List.mem_singleton.mp last
        exact step v (by simp [here]) (fun x before => ih (v :: rest) here x (scheduled done v rest here x before))
  exact initial order [] (by simp)

theorem scheduledBefore [DecidableEq ν] {edge : ν → ν → Prop} {order : List ν} {u v : ν} (nodup : order.Nodup)
    (scheduled : Scheduled edge order) (step : edge u v) (listed : v ∈ order) : order.idxOf u < order.idxOf v := by
  obtain ⟨before,after,rfl⟩ := List.append_of_mem listed
  have earlier := scheduled before v after rfl u step
  have fresh : v ∉ before := fun mem => (List.nodup_append.mp nodup).2.2 v mem v List.mem_cons_self rfl
  rw [List.idxOf_append_of_mem earlier,List.idxOf_append_of_notMem fresh,List.idxOf_cons_self,Nat.add_zero]
  exact List.idxOf_lt_length_of_mem earlier

theorem scheduledAcyclic {edge : ν → ν → Prop} {order : List ν} (nodup : order.Nodup)
    (scheduled : Scheduled edge order) (all : ∀ u v, edge u v → v ∈ order) : Acyclic edge := by
  classical
  have forward : ∀ {u v}, TransGen edge u v → order.idxOf u < order.idxOf v := by
    intro u v path
    induction path with
    | single step => exact scheduledBefore nodup scheduled step (all _ _ step)
    | tail _ step ih => exact ih.trans (scheduledBefore nodup scheduled step (all _ _ step))
  exact fun v cycle => Nat.lt_irrefl _ (forward cycle)

theorem stuckCyclic {edge : ν → ν → Prop} {left : List ν} {v₀ : ν} (some_ : v₀ ∈ left)
    (stuck : ∀ v ∈ left, ∃ u ∈ left, edge u v) : ¬Acyclic edge := by
  classical
  intro acyclic
  let earlier : {v // v ∈ left} → {v // v ∈ left} → Prop := fun u v => TransGen edge u.1 v.1
  have : IsTrans {v // v ∈ left} earlier := ⟨fun _ _ _ first second => first.trans second⟩
  have : Std.Irrefl earlier := ⟨fun v cycle => acyclic v.1 cycle⟩
  have : Finite {v // v ∈ left} := Finite.of_fintype _
  have founded : WellFounded earlier := Finite.wellFounded_of_trans_of_irrefl earlier
  obtain ⟨⟨v,mem⟩,_,least⟩ := founded.has_min Set.univ ⟨⟨v₀,some_⟩,trivial⟩
  obtain ⟨u,inside,step⟩ := stuck v mem
  exact least ⟨u,inside⟩ trivial (.single step)

end Riaps.Library.Topological
