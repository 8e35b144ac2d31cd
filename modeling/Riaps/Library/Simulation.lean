import Riaps.Library.Machine

/-! One machine plays another. Each step of the concrete machine is matched by a run of
the abstract one, of any length, that shows the same events in the abstract machine's
words; then so is every run. An invariant may be kept along with the relation. -/
namespace Riaps.Library.Simulation
open Library.Machine

section Forward
variable {σ ι ε τ κ δ : Type} {concrete : Step σ ι ε} {abstract : Step τ κ δ}

structure Plays (abstract : Step τ κ δ) (view : List ε → List δ) (R : σ → τ → Prop) (s' : σ) (t : τ) (out : List ε) : Prop where
  matched : ∃ t' js, run abstract t js = some (t',view out) ∧ R s' t'

theorem runSimulates (view : List ε → List δ) {R : σ → τ → Prop} (none_ : view [] = [])
    (split : ∀ past out, view (past ++ out) = view past ++ view out)
    (each : ∀ s t i s' out, R s t → concrete s i = some (s',out) → Plays abstract view R s' t out)
    {s s' : σ} {t : τ} {is : List ι} {events : List ε} (related : R s t) (ok : run concrete s is = some (s',events)) :
    Plays abstract view R s' t events := by
  induction is generalizing s t events with
  | nil =>
    cases Option.some.inj ok
    exact ⟨t,[],by rw [none_]; rfl,related⟩
  | cons i is ih =>
    obtain ⟨s₁,out,rest,first,later,rfl⟩ := runCons ok
    obtain ⟨t₁,js,moved,kept⟩ := each s t i s₁ out related first
    obtain ⟨t',ks,others,final_⟩ := ih kept later
    exact ⟨t',js ++ ks,by rw [split]; exact runThen moved others,final_⟩

end Forward
end Riaps.Library.Simulation
