import Mathlib.Data.List.Basic

/-! Machines that take one atomic step after another and leave a history of
events behind. An interleaving is any list of inputs the machine accepts: the
input says which party moves. Facts about every reachable state go through
`runInvariant`, facts about the moment at which something began through `runBecame`.
What a machine does not store is written down `beside` it, step by step. A law of
the history is said of each event and what came before it, `Everywhere`. A run is
`guarded` when each of its steps meets a condition on the state before it. -/
namespace Riaps.Library.Machine

abbrev Step (σ ι ε : Type) := σ → ι → Option (σ × List ε)

def run {σ ι ε : Type} (step : Step σ ι ε) : σ → List ι → Option (σ × List ε)
  | s,[] => some (s,[])
  | s,i :: is => do
      let (s₁,out) ← step s i
      let (s₂,rest) ← run step s₁ is
      some (s₂,out ++ rest)

def beside {σ γ ι ε : Type} (step : Step σ ι ε) (note : σ → γ → ι → List ε → γ) : Step (σ × γ) ι ε := fun (s,g) i => do
  let (s',out) ← step s i
  some ((s',note s g i out),out)

def guarded {σ ι ε : Type} (step : Step σ ι ε) (ok : σ → ι → Bool) : Step σ ι ε := fun s i =>
  if ok s i then step s i else none

def Everywhere {ε : Type} (P : List ε → ε → Prop) (events : List ε) : Prop :=
  ∀ past e rest, events = past ++ e :: rest → P past e

theorem everywhereNil {ε : Type} {P : List ε → ε → Prop} : Everywhere P [] := by
  intro past e rest same
  simp at same

theorem everywhereAppend {ε : Type} {P : List ε → ε → Prop} {events out : List ε} (before : Everywhere P events)
    (now : Everywhere (fun past e => P (events ++ past) e) out) : Everywhere P (events ++ out) := by
  intro past e rest same
  rcases List.append_eq_append_iff.mp same with ⟨front,rfl,there⟩ | ⟨back,there,split⟩
  · exact now front e rest there
  · cases back with
    | nil =>
      rw [List.append_nil] at there
      subst there
      simpa using now [] e rest split.symm
    | cons x back =>
      cases (List.cons.inj split).1
      exact before past e back there

theorem everywhereSnoc {ε : Type} {P : List ε → ε → Prop} {events : List ε} {e : ε} (before : Everywhere P events)
    (now : P events e) : Everywhere P (events ++ [e]) := by
  refine everywhereAppend before ?_
  intro past x rest same
  cases past with
  | nil =>
    obtain ⟨rfl,_⟩ := List.cons.inj same
    rwa [List.append_nil]
  | cons y past => simp at same

theorem everywhereQuiet {ε : Type} {P : List ε → ε → Prop} {events out : List ε} (before : Everywhere P events)
    (quiet : ∀ e ∈ out, ∀ past, P past e) : Everywhere P (events ++ out) := by
  refine everywhereAppend before ?_
  intro past e rest same
  exact quiet e (by rw [same]; simp) _

theorem everywhereFront {ε : Type} {P : List ε → ε → Prop} {events out : List ε} (all : Everywhere P (events ++ out)) :
    Everywhere P events := by
  intro past e rest same
  exact all past e (rest ++ out) (by simp [same])

section Runs
variable {σ ι ε : Type} {step : Step σ ι ε}

theorem runCons {s s' : σ} {i : ι} {is : List ι} {events : List ε}
    (ok : run step s (i :: is) = some (s',events)) :
    ∃ s₁ out rest, step s i = some (s₁,out) ∧ run step s₁ is = some (s',rest) ∧ events = out ++ rest := by
  simp only [run,bind,Option.bind_eq_some_iff] at ok
  obtain ⟨⟨s₁,out⟩,first,⟨s₂,rest⟩,later,last⟩ := ok
  cases Option.some.inj last
  exact ⟨s₁,out,rest,first,later,rfl⟩

theorem runAfter {P : σ → List ε → Prop}
    (preserved : ∀ s past i s' out, P s past → step s i = some (s',out) → P s' (past ++ out))
    {s s' : σ} {past events : List ε} {is : List ι} (holds : P s past)
    (ok : run step s is = some (s',events)) : P s' (past ++ events) := by
  induction is generalizing s past events with
  | nil =>
    cases Option.some.inj ok
    simpa using holds
  | cons i is ih =>
    obtain ⟨s₁,out,rest,first,later,rfl⟩ := runCons ok
    rw [← List.append_assoc]
    exact ih (preserved s past i s₁ out holds first) later

theorem runMapped {f : σ → σ} {is : List ι}
    (kept : ∀ i ∈ is, ∀ s s' out, step s i = some (s',out) → step (f s) i = some (f s',out)) {s s' : σ}
    {events : List ε} (ok : run step s is = some (s',events)) : run step (f s) is = some (f s',events) := by
  induction is generalizing s events with
  | nil =>
    cases Option.some.inj ok
    rfl
  | cons i is ih =>
    obtain ⟨s₁,out,rest,first,later,rfl⟩ := runCons ok
    obtain ⟨here,others⟩ := List.forall_mem_cons.mp kept
    simp [run,here s s₁ out first,ih others later]

theorem runThen {s₀ s₁ s₂ : σ} {before after : List ι} {past out : List ε} (first : run step s₀ before = some (s₁,past))
    (second : run step s₁ after = some (s₂,out)) : run step s₀ (before ++ after) = some (s₂,past ++ out) := by
  induction before generalizing s₀ past with
  | nil =>
    cases Option.some.inj first
    exact second
  | cons i is ih =>
    obtain ⟨s,now,rest,moved,later,rfl⟩ := runCons first
    simp [run,moved,ih later]

theorem besideStep {γ : Type} {note : σ → γ → ι → List ε → γ} {s s' : σ} {g g' : γ} {i : ι} {out : List ε}
    (ok : beside step note (s,g) i = some ((s',g'),out)) : step s i = some (s',out) ∧ g' = note s g i out := by
  obtain ⟨⟨s₁,out₁⟩,moved,last⟩ := Option.bind_eq_some_iff.mp ok
  cases Option.some.inj last
  exact ⟨moved,rfl⟩

theorem runBeside {γ : Type} (note : σ → γ → ι → List ε → γ) {s s' : σ} {is : List ι} {events : List ε}
    (ok : run step s is = some (s',events)) (g : γ) :
    ∃ g', run (beside step note) (s,g) is = some ((s',g'),events) := by
  induction is generalizing s g events with
  | nil =>
    cases Option.some.inj ok
    exact ⟨g,rfl⟩
  | cons i is ih =>
    obtain ⟨s₁,out,rest,first,later,rfl⟩ := runCons ok
    obtain ⟨g',reached⟩ := ih later (note s g i out)
    exact ⟨g',by simp [run,beside,first,reached]⟩

theorem runInvariant {P : σ → List ε → Prop} {s₀ : σ} (initial : P s₀ [])
    (preserved : ∀ s past i s' out, P s past → step s i = some (s',out) → P s' (past ++ out))
    {s : σ} {events : List ε} {is : List ι} (ok : run step s₀ is = some (s,events)) : P s events := by
  simpa using runAfter preserved initial ok

theorem runBecame {Q : σ → Prop} {s₀ s : σ} {events : List ε} {is : List ι} (ok : run step s₀ is = some (s,events))
    (initially : ¬Q s₀) (finally_ : Q s) :
    ∃ before i after s₁ past s₂ out, is = before ++ i :: after ∧ run step s₀ before = some (s₁,past) ∧
      step s₁ i = some (s₂,out) ∧ ¬Q s₁ ∧ Q s₂ := by
  induction is generalizing s₀ events with
  | nil =>
    cases Option.some.inj ok
    exact absurd finally_ initially
  | cons i is ih =>
    obtain ⟨s₁,out,rest,first,later,rfl⟩ := runCons ok
    by_cases now : Q s₁
    · exact ⟨[],i,is,s₀,[],s₁,out,rfl,rfl,first,initially,now⟩
    · obtain ⟨before,j,after,s₂,past,s₃,out',rfl,reached,moved,was,became⟩ := ih later now
      refine ⟨i :: before,j,after,s₂,out ++ past,s₃,out',rfl,?_,moved,was,became⟩
      simp [run,first,reached]

theorem guardedStep {ok : σ → ι → Bool} {s s' : σ} {i : ι} {out : List ε} :
    guarded step ok s i = some (s',out) ↔ ok s i = true ∧ step s i = some (s',out) := by
  unfold guarded
  cases ok s i <;> simp

theorem runGuarded {ok : σ → ι → Bool} {s s' : σ} {is : List ι} {events : List ε}
    (ran : run (guarded step ok) s is = some (s',events)) : run step s is = some (s',events) := by
  induction is generalizing s events with
  | nil => exact ran
  | cons i is ih =>
    obtain ⟨s₁,out,rest,first,later,rfl⟩ := runCons ran
    simp [run,(guardedStep.mp first).2,ih later]

/- Where the law fails at the first step that breaks the condition, a lawful run is a guarded one. -/
theorem runObeys {ok : σ → ι → Bool} {P : σ → List ε → Prop} {Q : List ε → ε → Prop}
    (preserved : ∀ s past i s' out, P s past → guarded step ok s i = some (s',out) → P s' (past ++ out))
    (exact_ : ∀ s past i s' out, P s past → step s i = some (s',out) → Everywhere Q (past ++ out) → ok s i = true)
    {s s' : σ} {past events : List ε} {is : List ι} (holds : P s past) (ran : run step s is = some (s',events))
    (lawful : Everywhere Q (past ++ events)) : run (guarded step ok) s is = some (s',events) := by
  induction is generalizing s past events with
  | nil => exact ran
  | cons i is ih =>
    obtain ⟨s₁,out,rest,first,later,rfl⟩ := runCons ran
    rw [← List.append_assoc] at lawful
    have met := exact_ s past i s₁ out holds first (everywhereFront lawful)
    have moved := guardedStep.mpr ⟨met,first⟩
    have reached := ih (preserved s past i s₁ out holds moved) later lawful
    simp [run,moved,reached]

/- A law of every state on the way, broken by the first step that breaks the condition. -/
theorem runExact {ok : σ → ι → Bool} {P Q : σ → Prop} (lawful : ∀ s, P s → Q s)
    (kept : ∀ s i s' out, P s → step s i = some (s',out) → ok s i = true → P s')
    (broken : ∀ s i s' out, P s → step s i = some (s',out) → ok s i = false → ¬Q s') {s s' : σ} {is : List ι}
    {events : List ε} (holds : P s) (ran : run step s is = some (s',events)) :
    (∀ before after s₁ past, is = before ++ after → run step s before = some (s₁,past) → Q s₁) ↔
      run (guarded step ok) s is = some (s',events) := by
  induction is generalizing s events with
  | nil =>
    refine ⟨fun _ => ran,?_⟩
    intro _ before after s₁ past split reached
    obtain ⟨rfl,_⟩ := List.append_eq_nil_iff.mp split.symm
    cases Option.some.inj reached
    exact lawful s holds
  | cons i is ih =>
    obtain ⟨s₂,out,rest,first,later,rfl⟩ := runCons ran
    constructor
    · intro always
      have law := always [i] is s₂ out rfl (by simp [run,first])
      have met : ok s i = true := by
        by_contra off
        exact broken s i s₂ out holds first (by simpa using off) law
      have moved := guardedStep.mpr ⟨met,first⟩
      have reached := (ih (kept s i s₂ out holds first met) later).mp (by
        intro before after s₁ past split reached
        exact always (i :: before) after s₁ (out ++ past) (by rw [split,List.cons_append]) (by simp [run,first,reached]))
      simp [run,moved,reached]
    · intro ran before after s₁ past split reached
      cases before with
      | nil =>
        cases Option.some.inj reached
        exact lawful s holds
      | cons j before =>
        obtain ⟨rfl,others⟩ := List.cons.inj split
        obtain ⟨s₃,out₃,rest₃,now,next,-⟩ := runCons reached
        cases Option.some.inj (first.symm.trans now)
        obtain ⟨s₄,out₄,rest₄,moved,later',-⟩ := runCons ran
        obtain ⟨met,now'⟩ := guardedStep.mp moved
        cases Option.some.inj (first.symm.trans now')
        cases Option.some.inj (later.symm.trans (runGuarded later'))
        exact (ih (kept s i s₂ out holds first met) later).mpr later' before after s₁ rest₃ others next

end Runs
end Riaps.Library.Machine
