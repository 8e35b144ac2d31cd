import Mathlib.Data.List.Forall2
import Riaps.Library.Checks

/-! One object and the operations performed on it, one after another. Each gives an
answer or stops at a failed check. `replay` is what the object does when nobody
else is there, so it is the meaning that an interleaved history is compared with. -/
namespace Riaps.Library.Replay
open Library.Checks

abbrev Perform (σ ι ο : Type) := σ → ι → Checked (σ × ο)

def replay {σ ι ο : Type} (perform : Perform σ ι ο) : σ → List ι → Checked (σ × List ο)
  | s,[] => .ok (s,[])
  | s,i :: rest => do
      let (s,answer) ← perform s i
      let (s,answers) ← replay perform s rest
      return (s,answer :: answers)

section Replays
variable {σ ι ο : Type} {perform : Perform σ ι ο}

theorem replayCons {s s' s'' : σ} {i : ι} {rest : List ι} {answer : ο} {answers : List ο}
    (first : perform s i = .ok (s',answer)) (later : replay perform s' rest = .ok (s'',answers)) :
    replay perform s (i :: rest) = .ok (s'',answer :: answers) := by
  simp only [replay,first,okBind,later]
  rfl

theorem replaySplit {s s' : σ} {i : ι} {rest : List ι} {answers : List ο}
    (ok : replay perform s (i :: rest) = .ok (s',answers)) :
    ∃ s₁ answer others, perform s i = .ok (s₁,answer) ∧ replay perform s₁ rest = .ok (s',others) ∧
      answers = answer :: others := by
  obtain ⟨⟨s₁,answer⟩,first,ok⟩ := bindOk ok
  obtain ⟨⟨s₂,others⟩,later,last⟩ := bindOk ok
  cases Except.ok.inj last
  exact ⟨s₁,answer,others,first,later,rfl⟩

theorem replayAppend {s s' s'' : σ} {before after : List ι} {answers answers' : List ο}
    (first : replay perform s before = .ok (s',answers)) (later : replay perform s' after = .ok (s'',answers')) :
    replay perform s (before ++ after) = .ok (s'',answers ++ answers') := by
  induction before generalizing s answers with
  | nil =>
    cases Except.ok.inj first
    exact later
  | cons i rest ih =>
    obtain ⟨s₁,answer,others,now,then_,rfl⟩ := replaySplit first
    exact replayCons now (ih then_)

theorem replaySnoc {s s' s'' : σ} {before : List ι} {i : ι} {answers : List ο} {answer : ο}
    (first : replay perform s before = .ok (s',answers)) (last : perform s' i = .ok (s'',answer)) :
    replay perform s (before ++ [i]) = .ok (s'',answers ++ [answer]) :=
  replayAppend first (replayCons last rfl)

theorem replayDivide {s s' : σ} {before after : List ι} {answers : List ο}
    (ok : replay perform s (before ++ after) = .ok (s',answers)) :
    ∃ s₁ front back, replay perform s before = .ok (s₁,front) ∧ replay perform s₁ after = .ok (s',back) ∧
      answers = front ++ back := by
  induction before generalizing s answers with
  | nil => exact ⟨s,[],answers,rfl,ok,rfl⟩
  | cons i rest ih =>
    obtain ⟨s₁,answer,others,first,later,rfl⟩ := replaySplit ok
    obtain ⟨s₂,front,back,earlier,last,rfl⟩ := ih later
    exact ⟨s₂,answer :: front,back,replayCons first earlier,last,rfl⟩

theorem replayMap {ν : Type} (perform : Perform σ ι ο) (f : ο → ν) (s : σ) (is : List ι) :
    replay (fun s i => (perform s i).map (Prod.map id f)) s is = (replay perform s is).map (Prod.map id (List.map f)) := by
  induction is generalizing s with
  | nil => rfl
  | cons i rest ih =>
    simp only [replay]
    cases perform s i with
    | error panic => rfl
    | ok r =>
      change (replay (fun s i => (perform s i).map (Prod.map id f)) r.1 rest >>= fun q => .ok (q.1,f r.2 :: q.2)) =
        (replay perform r.1 rest >>= fun q => .ok (q.1,r.2 :: q.2)).map (Prod.map id (List.map f))
      rw [ih]
      cases replay perform r.1 rest <;> rfl

/- No check fails, and the invariant that prevents it is kept. -/
theorem replayKeeps (perform : Perform σ ι ο) {P : σ → Prop} {A : ι → Prop}
    (kept : ∀ s i, P s → A i → ∃ s' answer, perform s i = .ok (s',answer) ∧ P s') {s : σ} (holds : P s) {is : List ι}
    (all : ∀ i ∈ is, A i) : ∃ s' answers, replay perform s is = .ok (s',answers) ∧ P s' := by
  induction is generalizing s with
  | nil => exact ⟨s,[],rfl,holds⟩
  | cons i rest ih =>
    obtain ⟨here,others⟩ := List.forall_mem_cons.mp all
    obtain ⟨s₁,answer,first,next⟩ := kept s i holds here
    obtain ⟨s₂,answers,later,last⟩ := ih next others
    exact ⟨s₂,answer :: answers,replayCons first later,last⟩

/- Two objects over two lists of inputs, with related answers to related inputs. -/
theorem replayRelated {τ κ ν : Type} {perform' : Perform τ κ ν} {R : σ → τ → Prop} {A : ι → κ → Prop}
    {B : ο → ν → Prop}
    (related : ∀ s t i k, R s t → A i k → ∃ s' t' answer answer', perform s i = .ok (s',answer) ∧
      perform' t k = .ok (t',answer') ∧ R s' t' ∧ B answer answer')
    {s : σ} {t : τ} (holds : R s t) {is : List ι} {ks : List κ} (inputs : List.Forall₂ A is ks) :
    ∃ s' t' answers answers', replay perform s is = .ok (s',answers) ∧ replay perform' t ks = .ok (t',answers') ∧
      R s' t' ∧ List.Forall₂ B answers answers' := by
  induction inputs generalizing s t with
  | nil => exact ⟨s,t,[],[],rfl,rfl,holds,.nil⟩
  | cons here _ ih =>
    obtain ⟨s₁,t₁,answer,answer',left,right,next,first⟩ := related s t _ _ holds here
    obtain ⟨s₂,t₂,answers,answers',left',right',last,others⟩ := ih next
    exact ⟨s₂,t₂,answer :: answers,answer' :: answers',replayCons left left',replayCons right right',last,
      .cons first others⟩

/- Two objects that cannot be told apart by any one operation. -/
theorem replayAlike {τ : Type} {perform' : Perform τ ι ο} {R : σ → τ → Prop}
    (alike : ∀ s t i, R s t → ∃ s' t' answer, perform s i = .ok (s',answer) ∧ perform' t i = .ok (t',answer) ∧ R s' t')
    {s : σ} {t : τ} (holds : R s t) (is : List ι) :
    ∃ s' t' answers, replay perform s is = .ok (s',answers) ∧ replay perform' t is = .ok (t',answers) ∧ R s' t' := by
  have related : ∀ s t i k, R s t → i = k → ∃ s' t' answer answer', perform s i = .ok (s',answer) ∧
      perform' t k = .ok (t',answer') ∧ R s' t' ∧ answer = answer' := by
    rintro s t i _ holds rfl
    obtain ⟨s',t',answer,left,right,next⟩ := alike s t i holds
    exact ⟨s',t',answer,answer,left,right,next,rfl⟩
  obtain ⟨s',t',answers,answers',left,right,last,same⟩ := replayRelated related holds
    (List.forall₂_same.mpr (fun i _ => Eq.refl i))
  rw [List.forall₂_eq_eq_eq] at same
  exact ⟨s',t',answers,left,same ▸ right,last⟩

end Replays
end Riaps.Library.Replay
