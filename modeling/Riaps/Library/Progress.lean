import Mathlib.Algebra.GroupWithZero.Nat
import Mathlib.Data.List.Count
import Riaps.Library.Machine

/-! How long a party of a machine can be kept busy. `total` adds up a number that is
read off each step of a run: the accesses of one call, or what the others may add to
its work. Where every step pays for its cost out of a rank of the state and a credit,
a whole run costs at most the rank it began with and the credits it was given. -/
namespace Riaps.Library.Progress
open Library.Machine

section Totals
variable {σ ι ε : Type} (step : Step σ ι ε)

def total (weigh : σ → ι → List ε → Nat) : σ → List ι → Nat
  | _,[] => 0
  | s,i :: is =>
      match step s i with
      | none => 0
      | some (s',out) => weigh s i out + total weigh s' is

variable {step}

theorem totalCons {weigh : σ → ι → List ε → Nat} {s s' : σ} {i : ι} {out : List ε} (moved : step s i = some (s',out))
    (is : List ι) : total step weigh s (i :: is) = weigh s i out + total step weigh s' is := by
  simp [total,moved]

theorem runPaysUnder {P : σ → List ε → Prop} (rank : σ → Nat) {cost credit : σ → ι → List ε → Nat} {is : List ι}
    (kept : ∀ s past i s' out, P s past → step s i = some (s',out) → P s' (past ++ out))
    (pays : ∀ i ∈ is, ∀ s past s' out, P s past → step s i = some (s',out) →
      cost s i out + rank s' ≤ rank s + credit s i out)
    {s s' : σ} (past : List ε) {events : List ε} (holds : P s past) (ok : run step s is = some (s',events)) :
    total step cost s is + rank s' ≤ rank s + total step credit s is := by
  induction is generalizing s past events with
  | nil =>
    cases Option.some.inj ok
    simp [total]
  | cons i is ih =>
    obtain ⟨s₁,out,rest,first,later,rfl⟩ := runCons ok
    obtain ⟨here,there⟩ := List.forall_mem_cons.mp pays
    have now := here s past s₁ out holds first
    have others := ih there (past ++ out) (kept s past i s₁ out holds first) later
    rw [totalCons first,totalCons first]
    omega

theorem runPays (rank : σ → Nat) {cost credit : σ → ι → List ε → Nat}
    (pays : ∀ s i s' out, step s i = some (s',out) → cost s i out + rank s' ≤ rank s + credit s i out)
    {s s' : σ} {events : List ε} {is : List ι} (ok : run step s is = some (s',events)) :
    total step cost s is + rank s' ≤ rank s + total step credit s is :=
  runPaysUnder (P := fun _ _ => True) rank (fun _ _ _ _ _ _ _ => trivial)
    (fun i _ s _ s' out _ moved => pays s i s' out moved) [] trivial ok

theorem totalCount {own : ι → Bool} {s s' : σ} {is : List ι} {events : List ε} (ok : run step s is = some (s',events))
    (k : Nat) : total step (fun _ i _ => if own i then k else 0) s is = k * is.countP own := by
  induction is generalizing s events with
  | nil => rfl
  | cons i is ih =>
    obtain ⟨s₁,out,rest,first,later,rfl⟩ := runCons ok
    rw [totalCons first,ih later,List.countP_cons]
    split <;> simp [Nat.mul_add,Nat.add_comm]

theorem totalInputs {f : ι → Nat} {s s' : σ} {is : List ι} {events : List ε} (ok : run step s is = some (s',events)) :
    total step (fun _ i _ => f i) s is = (is.map f).sum := by
  induction is generalizing s events with
  | nil => rfl
  | cons i is ih =>
    obtain ⟨s₁,out,rest,first,later,rfl⟩ := runCons ok
    rw [totalCons first,ih later,List.map_cons,List.sum_cons]

theorem totalEvents {β : Type} {f : List ε → List β} (none_ : f [] = []) (split : ∀ past out, f (past ++ out) = f past ++ f out)
    {s s' : σ} {is : List ι} {events : List ε} (ok : run step s is = some (s',events)) (k : Nat) :
    total step (fun _ _ out => k * (f out).length) s is = k * (f events).length := by
  induction is generalizing s events with
  | nil =>
    cases Option.some.inj ok
    simp [total,none_]
  | cons i is ih =>
    obtain ⟨s₁,out,rest,first,later,rfl⟩ := runCons ok
    rw [totalCons first,ih later,split,List.length_append,Nat.mul_add]

theorem totalAdd (f g : σ → ι → List ε → Nat) (s : σ) (is : List ι) :
    total step (fun s i out => f s i out + g s i out) s is = total step f s is + total step g s is := by
  induction is generalizing s with
  | nil => rfl
  | cons i is ih =>
    simp only [total]
    cases step s i with
    | none => rfl
    | some r =>
      simp only [ih]
      omega

end Totals
end Riaps.Library.Progress
