import Mathlib.Algebra.GroupWithZero.Nat
import Mathlib.Data.List.Chain
import Mathlib.Order.Bounds.Basic

/-! Heaviest paths of a directed graph with weights on its nodes. A path into a node
starts where nothing arrives; the heaviest one is the node alone, or it comes through
the heaviest of the predecessors. Sums that stop at a bound stop there in the end too. -/
namespace Riaps.Library.LongestPath

variable {ν : Type}

structure Inbound (edge : ν → ν → Prop) (v : ν) (path : List ν) : Prop where
  chain : path.IsChain edge
  source : ∀ x ∈ path.head?, ∀ u, ¬edge u x
  last : path.getLast? = some v

def weigh (weight : ν → Nat) (path : List ν) : Nat := (path.map weight).sum

def weights (edge : ν → ν → Prop) (weight : ν → Nat) (v : ν) : Set Nat :=
  {m | ∃ path, Inbound edge v path ∧ weigh weight path = m}

section Paths
variable {edge : ν → ν → Prop} {weight : ν → Nat} {v : ν}

theorem weighSnoc (weight : ν → Nat) (front : List ν) (v : ν) :
    weigh weight (front ++ [v]) = weigh weight front + weight v := by
  simp [weigh]

theorem inboundSnoc {u : ν} {front : List ν} (before : Inbound edge u front) (step : edge u v) :
    Inbound edge v (front ++ [v]) := by
  refine ⟨List.isChain_append.mpr ⟨before.chain,List.isChain_singleton v,?_⟩,?_,List.getLast?_concat⟩
  · intro x last y first
    rw [before.last] at last
    cases Option.some.inj last
    cases Option.some.inj first
    exact step
  · intro x first
    cases front with
    | nil => cases before.last
    | cons z front => exact before.source x first

theorem inboundCases {path : List ν} (inbound : Inbound edge v path) :
    (path = [v] ∧ ∀ u, ¬edge u v) ∨ ∃ u front, path = front ++ [v] ∧ edge u v ∧ Inbound edge u front := by
  obtain ⟨front,rfl⟩ := List.getLast?_eq_some_iff.mp inbound.last
  obtain ⟨chain,_,joins⟩ := List.isChain_append.mp inbound.chain
  cases ends : front.getLast? with
  | none =>
    cases List.getLast?_eq_none_iff.mp ends
    exact .inl ⟨rfl,inbound.source v rfl⟩
  | some u =>
    refine .inr ⟨u,front,rfl,joins u ends v rfl,chain,?_,ends⟩
    intro x first
    cases front with
    | nil => cases first
    | cons z front => exact inbound.source x first

theorem greatestOver {ends : List ν} {f : ν → Nat} {S : ν → Set Nat} (each : ∀ v ∈ ends, IsGreatest (S v) (f v))
    (some_ : ends ≠ []) : IsGreatest {m | ∃ v ∈ ends, m ∈ S v} ((ends.map f).max?.getD 0) := by
  cases top : (ends.map f).max? with
  | none => exact absurd (List.map_eq_nil_iff.mp (List.max?_eq_none_iff.mp top)) some_
  | some m =>
    obtain ⟨attained,bound⟩ := List.max?_eq_some_iff.mp top
    obtain ⟨v,mem,rfl⟩ := List.mem_map.mp attained
    refine ⟨⟨v,mem,(each v mem).1⟩,?_⟩
    rintro x ⟨u,listed,inside⟩
    exact ((each u listed).2 inside).trans (bound _ (List.mem_map_of_mem listed))

theorem longestSource (first : ∀ u, ¬edge u v) : IsGreatest (weights edge weight v) (weight v) := by
  refine ⟨⟨[v],⟨List.isChain_singleton v,?_,rfl⟩,by simp [weigh]⟩,?_⟩
  · intro x here
    cases Option.some.inj here
    exact first
  · rintro m ⟨path,inbound,rfl⟩
    rcases inboundCases inbound with ⟨rfl,_⟩ | ⟨u,_,_,step,_⟩
    · simp [weigh]
    · exact absurd step (first u)

theorem longestThrough {sources : List ν} {f : ν → Nat} (all : ∀ u, u ∈ sources ↔ edge u v) (some_ : sources ≠ [])
    (each : ∀ u ∈ sources, IsGreatest (weights edge weight u) (f u)) :
    IsGreatest (weights edge weight v) ((sources.map f).max?.getD 0 + weight v) := by
  obtain ⟨⟨u,listed,front,inbound,heavy⟩,bound⟩ := greatestOver each some_
  refine ⟨⟨front ++ [v],inboundSnoc inbound ((all u).mp listed),by rw [weighSnoc,heavy]⟩,?_⟩
  rintro m ⟨path,into,rfl⟩
  rcases inboundCases into with ⟨rfl,first⟩ | ⟨x,before,rfl,step,earlier⟩
  · exact absurd ((all u).mp listed) (first u)
  · rw [weighSnoc]
    exact Nat.add_le_add_right (bound ⟨x,(all x).mpr step,before,earlier,rfl⟩) _

end Paths

theorem cappedMax {ends : List ν} {f g : ν → Nat} {cap : Nat} (capped : ∀ v ∈ ends, f v = min cap (g v)) :
    (ends.map f).max?.getD 0 = min cap ((ends.map g).max?.getD 0) := by
  rw [List.map_congr_left capped]
  clear capped
  induction ends with
  | nil => simp
  | cons v ends ih =>
    rw [List.map_cons,List.map_cons,List.max?_cons,List.max?_cons]
    cases left : (ends.map (fun v => min cap (g v))).max? with
    | none =>
      cases List.map_eq_nil_iff.mp (List.max?_eq_none_iff.mp left)
      simp
    | some m =>
      cases right : (ends.map g).max? with
      | none =>
        cases List.map_eq_nil_iff.mp (List.max?_eq_none_iff.mp right)
        cases left
      | some m' =>
        rw [left,right] at ih
        simp only [Option.getD_some,Option.elim_some] at ih ⊢
        rw [ih]
        omega

end Riaps.Library.LongestPath
