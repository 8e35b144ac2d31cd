import Riaps.LiveBorrows

/-! Every graph behaves as if it were alone. Whatever the threads do in between, the
calls that were performed on one graph are answered as if they had been performed
one after another on the graph that was compiled, and nobody ever reads an address
that holds no graph. -/
namespace Riaps.Live
open Library.Checks Library.Machine Library.Pools Library.Replay Riaps.Graph

section History
variable {σ α : Type}

@[simp] def Event.on (n : Nat) : Event σ α → List (Job α × List α)
  | .performed graph job output => if graph = some n then [(job,output)] else []
  | _ => []

def performedOn (n : Nat) (events : List (Event σ α)) : List (Job α × List α) := events.flatMap (Event.on n)

/- What may be told: no failure, and a performed call only of a graph that was compiled. -/
def Event.Fair (past : List (Event σ α)) : Event σ α → Prop
  | .dangling _ => False
  | .panicked _ => False
  | .performed graph _ _ => ∃ n g, graph = some n ∧ .compiled n g ∈ past
  | _ => True

theorem fairAppend {past out : List (Event σ α)} (before : ∀ e ∈ past, e.Fair past)
    (new : ∀ e ∈ out, e.Fair (past ++ out)) : ∀ e ∈ past ++ out, e.Fair (past ++ out) := by
  refine List.forall_mem_append.mpr ⟨fun e mem => ?_,new⟩
  have fair := before e mem
  cases e with
  | performed graph job output =>
    obtain ⟨n,g,same,listed⟩ := fair
    exact ⟨n,g,same,List.mem_append_left out listed⟩
  | _ => exact fair

theorem performedAppend (n : Nat) (past out : List (Event σ α)) :
    performedOn n (past ++ out) = performedOn n past ++ performedOn n out := by
  simp [performedOn]

theorem performedShared (n : Nat) (out : List Publication.Event) :
    performedOn n (out.map (Event.shared : _ → Event σ α)) = [] := by
  simp [performedOn]

theorem othersElsewhere {works : List (Work α)} (single : (works.map Work.pointer).Nodup) {wk : Work α}
    {others : List (Work α)} (taken : works.Perm (wk :: others)) :
    (∀ o ∈ others, o.pointer ≠ wk.pointer) ∧ (others.map Work.pointer).Nodup := by
  have perm := (taken.map Work.pointer).nodup_iff.mp single
  obtain ⟨absent,rest⟩ := List.nodup_cons.mp perm
  exact ⟨fun o mem same => absent (same ▸ List.mem_map_of_mem mem),rest⟩

end History

section Alone
variable {σ α : Type} [Zero α] [Add α] (resetNode : σ → σ) (w : Nat) (methods : DspNode σ α)

/-- A call in progress: the nodes it has left are those of the graph at its start, and what it did so far led to `now`. -/
structure Midway (wk : Work α) (start now : DspGraphInner σ α) : Prop where
  count : wk.count = extent start wk.job
  walked : ∃ gone visited, plan start wk.job = gone ++ wk.rest ∧
    replay (visit resetNode w methods wk.count wk.job) start gone = .ok (now,visited)

def Stands (s : Stage σ α) (p : Nat) (after : DspGraphInner σ α) : Prop :=
  ∃ now, s.memory p = some now ∧
    ((∀ wk ∈ s.works, wk.pointer ≠ p) ∧ now = after ∨
      ∃ wk ∈ s.works, wk.pointer = p ∧ Midway resetNode w methods wk after now)

structure Told (s : Stage σ α) (past : List (Event σ α)) (n : Nat) (g : DspGraphInner σ α) : Prop where
  named : n < s.shared.created
  made : ∃ maxBlock b, Built maxBlock b ∧ Graph.compile w methods b = .ok (.ok g)
  replayed : ∃ after, replay (perform resetNode w methods) g ((performedOn n past).map Prod.fst) =
      .ok (after,(performedOn n past).map Prod.snd) ∧
    ∀ p, s.shared.heap p = some n → Stands resetNode w methods s p after

structure Alone (s : Stage σ α) (past : List (Event σ α)) : Prop where
  safe : Publication.Safe s.shared
  booked : ∃ f, Publication.Booked s.shared f
  apart : Apart s.shared
  lent : ∀ wk ∈ s.works, Lent s.shared wk.pointer wk.graph wk.borrow
  single : (s.works.map Work.pointer).Nodup
  known : ∀ p n, s.shared.heap p = some n → ∃ g, .compiled n g ∈ past
  told : ∀ n g, .compiled n g ∈ past → Told resetNode w methods s past n g
  fair : ∀ e ∈ past, e.Fair past

variable {resetNode w methods} {s s' : Stage σ α} {past out : List (Event σ α)}

theorem initAlone : Alone resetNode w methods init [] := by
  refine ⟨Publication.initSafe,⟨_,Publication.initBooked⟩,?_,?_,?_,?_,?_,?_⟩ <;>
    simp [init,Publication.init,Apart]

theorem Stands.same {p : Nat} {after : DspGraphInner σ α} (stands : Stands resetNode w methods s p after)
    (memory : s'.memory p = s.memory p) (works : ∀ wk, wk.pointer = p → (wk ∈ s'.works ↔ wk ∈ s.works)) :
    Stands resetNode w methods s' p after := by
  obtain ⟨now,found,rest⟩ := stands
  refine ⟨now,memory.trans found,?_⟩
  rcases rest with ⟨none_,same⟩ | ⟨wk,mem,at_,midway⟩
  · exact .inl ⟨fun wk mem at_ => none_ wk ((works wk at_).mp mem) at_,same⟩
  · exact .inr ⟨wk,(works wk at_).mpr mem,at_,midway⟩

theorem Told.keep {n : Nat} {g : DspGraphInner σ α} (told : Told resetNode w methods s past n g)
    (silent : performedOn n out = []) (created : s.shared.created ≤ s'.shared.created)
    (stays : ∀ p, s'.shared.heap p = some n → s.shared.heap p = some n ∧
      ∀ after, Stands resetNode w methods s p after → Stands resetNode w methods s' p after) :
    Told resetNode w methods s' (past ++ out) n g := by
  obtain ⟨named,made,after,replayed,stands⟩ := told
  refine ⟨Nat.lt_of_lt_of_le named created,made,after,?_,?_⟩
  · rw [performedAppend,silent,List.append_nil]
    exact replayed
  · intro p held
    obtain ⟨before,kept⟩ := stays p held
    exact kept after (stands p before)

/- Everything that is known of a call in progress: what it still has to do succeeds. -/
theorem Alone.walk (alone : Alone resetNode w methods s past) {wk : Work α} (mem : wk ∈ s.works) :
    ∃ n g after now last visited output, wk.graph = some n ∧ s.shared.heap wk.pointer = some n ∧ .compiled n g ∈ past ∧
      replay (perform resetNode w methods) g ((performedOn n past).map Prod.fst) =
        .ok (after,(performedOn n past).map Prod.snd) ∧
      s.memory wk.pointer = some now ∧ Midway resetNode w methods wk after now ∧
      perform resetNode w methods after wk.job = .ok (last,output) ∧
      replay (visit resetNode w methods wk.count wk.job) now wk.rest = .ok (last,visited) ∧
      finish w wk.count last wk.job = .ok output := by
  obtain ⟨held,n,graph⟩ := lentHeap alone.safe (alone.lent wk mem)
  rw [graph] at held
  obtain ⟨g,listed⟩ := alone.known _ n held
  obtain ⟨_,⟨maxBlock,b,built,made⟩,after,replayed,stands⟩ := alone.told n g listed
  obtain ⟨now,found,⟨none_,_⟩ | ⟨other,among,at_,midway⟩⟩ := stands _ held
  · exact absurd rfl (none_ wk mem)
  cases List.inj_on_of_nodup_map alone.single among mem at_
  obtain ⟨last,outputs,whole⟩ := replayReturns resetNode built made ((performedOn n past).map Prod.fst ++ [wk.job])
  obtain ⟨between,front,back,first,second,_⟩ := replayDivide whole
  cases Except.ok.inj (replayed.symm.trans first)
  obtain ⟨last',output,_,performed,ends,_⟩ := replaySplit second
  cases Except.ok.inj ends
  obtain ⟨visited,ran,finished⟩ := performParts.mp performed
  obtain ⟨gone,done,split,walked⟩ := midway.walked
  rw [← midway.count,split] at ran
  obtain ⟨middle,_,later,before,after_,_⟩ := replayDivide ran
  cases Except.ok.inj (walked.symm.trans before)
  rw [← midway.count] at finished
  exact ⟨n,g,after,now,last,later,output,graph,held,listed,replayed,found,midway,performed,after_,finished⟩

theorem Alone.publish (alone : Alone resetNode w methods s past) {action : Publication.Action} {shared : Publication.Shared}
    {published : List Publication.Event} (other : makes action = 0) (kept : ∀ x ∈ takes s.shared action, x ∉ borrowed s)
    (stepped : Publication.step s.shared action = some (shared,published)) :
    Alone resetNode w methods {s with shared := shared, memory := forget s.memory (Publication.gonePointers published)}
      (past ++ published.map .shared) := by
  obtain ⟨safe,⟨f,booked⟩,apart,lent,single,known,told,fair⟩ := alone
  have moved := Publication.stepMoves stepped
  have created := (stepLeaves stepped).created
  have grown : s.shared.created ≤ shared.created := created ▸ Nat.le_add_right _ _
  obtain ⟨gone,effect⟩ : ∃ lost, Publication.Effect s.shared shared lost (Publication.gonePointers published) := by
    rcases Publication.stepEffect safe.owned safe.pinned.borrowed stepped with ⟨address,made,_⟩ | effect
    · have more := made.created
      omega
    · exact ⟨_,effect⟩
  have before : ∀ p n, shared.heap p = some n →
      s.shared.heap p = some n ∧ forget s.memory (Publication.gonePointers published) p = s.memory p := by
    intro p n held
    rw [effect.heap] at held
    split at held <;> try contradiction
    rename_i still
    exact ⟨held,if_neg still⟩
  refine ⟨Publication.stepSafe safe moved,
    ⟨_,Publication.stepBooked safe.owned safe.pinned.borrowed booked stepped⟩,stepApart safe apart moved,?_,single,?_,?_,?_⟩
  · intro wk mem
    exact lentKept safe stepped (lent wk mem) (fun taken => kept _ taken (List.mem_map_of_mem mem))
  · exact fun p n held => (known p n (before p n held).1).imp (fun _ => List.mem_append_left _)
  · intro n g listed
    have old : .compiled n g ∈ past := by simpa using listed
    refine (told n g old).keep (performedShared n published) grown ?_
    intro p held
    exact ⟨(before p n held).1,fun after stands => stands.same (before p n held).2 (fun wk _ => Iff.rfl)⟩
  · refine fairAppend fair (fun e mem => ?_)
    obtain ⟨_,_,rfl⟩ := List.mem_map.mp mem
    trivial

theorem Alone.unheld (alone : Alone resetNode w methods s past) {n : Nat} (fresh : s.shared.created ≤ n) :
    performedOn n past = [] := by
  refine List.flatMap_eq_nil_iff.mpr ?_
  intro e mem
  cases e with
  | performed graph job output =>
    obtain ⟨m,g,rfl,listed⟩ := alone.fair _ mem
    have early := (alone.told m g listed).named
    have apart : m ≠ n := by omega
    simp [apart]
  | _ => rfl

theorem Alone.compile (alone : Alone resetNode w methods s past) {address maxBlock : Nat} {b : DynamicGraphBuilder σ}
    {g : DspGraphInner σ α} {shared : Publication.Shared} {published : List Publication.Event} (built : Built maxBlock b)
    (made : Graph.compile w methods b = .ok (.ok g))
    (stepped : Publication.step s.shared (.compile address) = some (shared,published)) :
    Alone resetNode w methods {s with shared := shared, memory := Function.update s.memory address (some g)}
      (past ++ [.compiled s.shared.created g]) := by
  have unheld := alone.unheld (Nat.le_refl s.shared.created)
  obtain ⟨safe,⟨f,booked⟩,apart,lent,single,known,told,fair⟩ := alone
  have moved := Publication.stepMoves stepped
  have booked' := Publication.stepBooked safe.owned safe.pinned.borrowed booked stepped
  have lent' : ∀ wk ∈ s.works, Lent shared wk.pointer wk.graph wk.borrow :=
    fun wk mem => lentKept safe stepped (lent wk mem) (by simp [takes])
  simp only [Publication.step] at stepped
  split at stepped <;> try contradiction
  rename_i unused
  cases Option.some.inj stepped
  have elsewhere : ∀ p n, s.shared.heap p = some n → p ≠ address := by
    intro p n held same
    rw [same,unused.2] at held
    cases held
  have before : ∀ p n, Function.update s.shared.heap address (some s.shared.created) p = some n →
      p = address ∧ n = s.shared.created ∨ p ≠ address ∧ s.shared.heap p = some n := by
    intro p n held
    by_cases here : p = address
    · rw [here,Function.update_self] at held
      exact .inl ⟨here,(Option.some.inj held).symm⟩
    · rw [Function.update_of_ne here] at held
      exact .inr ⟨here,held⟩
  refine ⟨Publication.stepSafe safe moved,⟨_,booked'⟩,stepApart safe apart moved,lent',single,?_,?_,?_⟩
  · intro p n held
    rcases before p n held with ⟨_,rfl⟩ | ⟨_,old⟩
    · exact ⟨g,List.mem_append_right _ (List.mem_singleton.mpr rfl)⟩
    · obtain ⟨g',listed⟩ := known p n old
      exact ⟨g',List.mem_append_left _ listed⟩
  · intro n g' listed
    rcases List.mem_append.mp listed with old | new
    · have early := (told n g' old).named
      refine (told n g' old).keep rfl (Nat.le_succ _) ?_
      intro p held
      rcases before p n held with ⟨_,late⟩ | ⟨away,still⟩
      · omega
      · exact ⟨still,fun after stands => stands.same (Function.update_of_ne away _ _) (fun wk _ => Iff.rfl)⟩
    · cases List.mem_singleton.mp new
      refine ⟨Nat.lt_succ_self _,⟨maxBlock,b,built,made⟩,g,?_,?_⟩
      · rw [performedAppend,unheld]
        rfl
      · intro p held
        rcases before p _ held with ⟨rfl,_⟩ | ⟨_,old⟩
        · refine ⟨g,Function.update_self _ _ _,.inl ⟨?_,rfl⟩⟩
          intro wk mem at_
          obtain ⟨holds,m,graph⟩ := lentHeap safe (lent wk mem)
          rw [at_,unused.2] at holds
          rw [← holds] at graph
          cases graph
        · obtain ⟨g',listed⟩ := known p _ old
          exact absurd (told _ g' listed).named (Nat.lt_irrefl _)
  · exact fairAppend fair (List.forall_mem_singleton.mpr trivial)

theorem Alone.begin (alone : Alone resetNode w methods s past) {borrow : Borrow} {pointer : Nat} {graph : Option Nat}
    {job : Job α} {start : DspGraphInner σ α} (lent : Lent s.shared pointer graph borrow) (free : borrow ∉ borrowed s)
    (found : s.memory pointer = some start) :
    Alone resetNode w methods {s with works := ⟨borrow,pointer,graph,extent start job,plan start job,job⟩ :: s.works} past := by
  have vacant : ∀ wk ∈ s.works, wk.pointer ≠ pointer := by
    intro wk mem same
    have both := lentApart alone.safe alone.apart (same ▸ alone.lent wk mem) lent
    exact free (both ▸ List.mem_map_of_mem mem)
  obtain ⟨safe,booked,apart,others,single,known,told,fair⟩ := alone
  refine ⟨safe,booked,apart,?_,?_,known,?_,fair⟩
  · exact List.forall_mem_cons.mpr ⟨lent,others⟩
  · refine List.nodup_cons.mpr ⟨?_,single⟩
    intro mem
    obtain ⟨wk,listed,same⟩ := List.mem_map.mp mem
    exact vacant wk listed same
  · intro n g listed
    rw [← List.append_nil past]
    refine (told n g listed).keep rfl (Nat.le_refl _) (fun p held => ⟨held,fun after stands => ?_⟩)
    by_cases here : p = pointer
    · subst here
      obtain ⟨now,there,⟨_,rfl⟩ | ⟨wk,mem,at_,_⟩⟩ := stands
      · cases Option.some.inj (found.symm.trans there)
        exact ⟨start,found,.inr ⟨_,List.mem_cons_self,rfl,rfl,[],[],rfl,rfl⟩⟩
      · exact absurd at_ (vacant wk mem)
    · refine stands.same rfl (fun wk at_ => ?_)
      refine ⟨fun mem => (List.mem_cons.mp mem).resolve_left ?_,List.mem_cons_of_mem _⟩
      rintro rfl
      exact here at_.symm

theorem Alone.visit (alone : Alone resetNode w methods s past) {wk : Work α} {others : List (Work α)}
    {now now' : DspGraphInner σ α} {v : Nat} {rest : List Nat} {answer : Unit} (taken : s.works.Perm (wk :: others))
    (found : s.memory wk.pointer = some now) (left : wk.rest = v :: rest)
    (visited : visit resetNode w methods wk.count wk.job now v = .ok (now',answer)) :
    Alone resetNode w methods {s with memory := Function.update s.memory wk.pointer (some now'),
                                      works := {wk with rest := rest} :: others} past := by
  obtain ⟨safe,booked,apart,lent,single,known,told,fair⟩ := alone
  have mine : wk ∈ s.works := taken.mem_iff.mpr List.mem_cons_self
  obtain ⟨elsewhere,distinct⟩ := othersElsewhere single taken
  refine ⟨safe,booked,apart,?_,?_,known,?_,fair⟩
  · exact List.forall_mem_cons.mpr ⟨lent wk mine,fun o mem => lent o (taken.mem_iff.mpr (List.mem_cons_of_mem wk mem))⟩
  · refine List.nodup_cons.mpr ⟨?_,distinct⟩
    intro mem
    obtain ⟨o,listed,same⟩ := List.mem_map.mp mem
    exact elsewhere o listed same
  · intro n g listed
    rw [← List.append_nil past]
    refine (told n g listed).keep rfl (Nat.le_refl _) (fun p held => ⟨held,fun after stands => ?_⟩)
    by_cases here : p = wk.pointer
    · subst here
      obtain ⟨before,there,⟨none_,_⟩ | ⟨other,mem,at_,midway⟩⟩ := stands
      · exact absurd rfl (none_ wk mine)
      · cases Option.some.inj (found.symm.trans there)
        cases List.inj_on_of_nodup_map single mem mine at_
        obtain ⟨count,gone,answers,split,walked⟩ := midway
        refine ⟨now',Function.update_self _ _ _,.inr ⟨_,List.mem_cons_self,rfl,count,gone ++ [v],answers ++ [answer],?_,?_⟩⟩
        · rw [split,left,List.append_assoc]
          rfl
        · exact replaySnoc walked visited
    · refine stands.same (Function.update_of_ne here _ _) (fun o at_ => ?_)
      have apart_ : o ≠ wk := fun same => here (same ▸ at_).symm
      rw [taken.mem_iff,List.mem_cons,List.mem_cons]
      refine ⟨fun mem => .inr (mem.resolve_left ?_),fun mem => .inr (mem.resolve_left apart_)⟩
      rintro rfl
      exact here at_.symm

theorem Alone.finish (alone : Alone resetNode w methods s past) {wk : Work α} {others : List (Work α)}
    {now : DspGraphInner σ α} {output : List α} (taken : s.works.Perm (wk :: others))
    (found : s.memory wk.pointer = some now) (left : wk.rest = []) (finished : finish w wk.count now wk.job = .ok output) :
    Alone resetNode w methods {s with works := others} (past ++ [.performed wk.graph wk.job output]) := by
  have mine : wk ∈ s.works := taken.mem_iff.mpr List.mem_cons_self
  obtain ⟨n₀,g₀,start,now',last,_,output',graph,held₀,listed₀,replayed₀,found',midway,performed,ran,finished'⟩ :=
    alone.walk mine
  cases Option.some.inj (found.symm.trans found')
  rw [left] at ran
  cases Except.ok.inj ran
  cases Except.ok.inj (finished.symm.trans finished')
  obtain ⟨safe,⟨f,booked⟩,apart,lent,single,known,told,fair⟩ := alone
  obtain ⟨elsewhere,distinct⟩ := othersElsewhere single taken
  refine ⟨safe,⟨f,booked⟩,apart,fun o mem => lent o (taken.mem_iff.mpr (List.mem_cons_of_mem wk mem)),distinct,?_,?_,?_⟩
  · exact fun p n held => (known p n held).imp (fun _ => List.mem_append_left _)
  · intro n g listed
    have old : .compiled n g ∈ past := by simpa using listed
    by_cases same : n = n₀
    · subst same
      obtain ⟨named,made,after,replayed,stands⟩ := told n g old
      obtain ⟨_,there,⟨none_,_⟩ | ⟨other,mem,at_,midway'⟩⟩ := stands _ held₀
      · exact absurd rfl (none_ wk mine)
      cases Option.some.inj (found.symm.trans there)
      cases List.inj_on_of_nodup_map single mem mine at_
      obtain ⟨count,gone,answers,split,walked⟩ := midway'
      rw [left,List.append_nil] at split
      rw [← split,count] at walked
      rw [count] at finished
      have again := performParts.mpr ⟨answers,walked,finished⟩
      refine ⟨named,made,now,?_,?_⟩
      · rw [performedAppend]
        simpa [performedOn,graph] using replaySnoc replayed again
      · intro p held
        cases booked.single p wk.pointer n held held₀
        exact ⟨now,found,.inl ⟨elsewhere,rfl⟩⟩
    · refine (told n g old).keep ?_ (Nat.le_refl _) (fun p held => ⟨held,fun after stands => ?_⟩)
      · have apart_ : n₀ ≠ n := fun eq => same eq.symm
        simp [performedOn,graph,apart_]
      · refine stands.same rfl (fun o at_ => ?_)
        have apart_ : o ≠ wk := by
          rintro rfl
          rw [← at_] at held
          exact same (Option.some.inj (held.symm.trans held₀))
        rw [taken.mem_iff,List.mem_cons]
        exact ⟨.inr,fun mem => mem.resolve_left apart_⟩
  · exact fairAppend fair (List.forall_mem_singleton.mpr ⟨n₀,g₀,graph,List.mem_append_left _ listed₀⟩)

theorem Alone.aside (alone : Alone resetNode w methods s past) (e : GraphError) :
    Alone resetNode w methods s (past ++ [.rejected e]) := by
  obtain ⟨safe,booked,apart,lent,single,known,told,fair⟩ := alone
  refine ⟨safe,booked,apart,lent,single,?_,?_,fairAppend fair (List.forall_mem_singleton.mpr trivial)⟩
  · exact fun p n held => (known p n held).imp (fun _ => List.mem_append_left _)
  · intro n g listed
    have old : .compiled n g ∈ past := by simpa using listed
    exact (told n g old).keep rfl (Nat.le_refl _) (fun p held => ⟨held,fun after stands => stands⟩)

theorem Alone.present (alone : Alone resetNode w methods s past) {p : Nat} {graph : Option Nat} {borrow : Borrow}
    (lent : Lent s.shared p graph borrow) : s.memory p ≠ none := by
  obtain ⟨held,n,rfl⟩ := lentHeap alone.safe lent
  obtain ⟨g,listed⟩ := alone.known p n held
  obtain ⟨_,_,after,_,stands⟩ := alone.told n g listed
  obtain ⟨now,found,_⟩ := stands p held
  rw [found]
  exact Option.some_ne_none now

theorem stepAlone (alone : Alone resetNode w methods s past) (moved : Moves resetNode w methods s out s') :
    Alone resetNode w methods s' (past ++ out) := by
  have mine : ∀ {wk : Work α} {others : List (Work α)}, s.works.Perm (wk :: others) → wk ∈ s.works :=
    fun taken => taken.mem_iff.mpr List.mem_cons_self
  cases moved with
  | compilePanic built failed =>
    obtain ⟨_,r,done,_⟩ := compileAcceptsSchedulable w methods built
    cases failed.symm.trans done
  | rejected => exact alone.aside _
  | compile built made stepped => exact alone.compile built made stepped
  | publish other kept stepped => exact alone.publish other kept stepped
  | absent lent gone => exact absurd gone (alone.present lent)
  | begin lent free found =>
    rw [List.append_nil]
    exact alone.begin lent free found
  | lost taken gone => exact absurd gone (alone.present (alone.lent _ (mine taken)))
  | visit taken found left visited =>
    rw [List.append_nil]
    exact alone.visit taken found left visited
  | visitPanic taken found left failed =>
    obtain ⟨_,_,_,now,_,_,_,_,_,_,_,found',_,_,ran,_⟩ := alone.walk (mine taken)
    cases Option.some.inj (found.symm.trans found')
    rw [left] at ran
    obtain ⟨_,_,_,visited,_⟩ := replaySplit ran
    cases failed.symm.trans visited
  | finish taken found left finished => exact alone.finish taken found left finished
  | finishPanic taken found left failed =>
    obtain ⟨_,_,_,now,_,_,_,_,_,_,_,found',_,_,ran,finished⟩ := alone.walk (mine taken)
    cases Option.some.inj (found.symm.trans found')
    rw [left] at ran
    cases Except.ok.inj ran
    cases failed.symm.trans finished

theorem runAlone {actions : List (Action σ α)} {events : List (Event σ α)}
    (ok : run (step resetNode w methods) init actions = some (s,events)) : Alone resetNode w methods s events :=
  runInvariant (P := Alone resetNode w methods) initAlone
    (fun _ _ _ _ _ alone moved => stepAlone alone (stepMoves moved)) ok

theorem graphsBehaveAlone {actions : List (Action σ α)} {events : List (Event σ α)}
    (ok : run (step resetNode w methods) init actions = some (s,events)) :
    (∀ p, .dangling p ∉ events) ∧ (∀ panic, .panicked panic ∉ events) ∧ (s.works.map Work.pointer).Nodup ∧
    (∀ graph job output, .performed graph job output ∈ events → ∃ n g, graph = some n ∧ .compiled n g ∈ events) ∧
    ∀ n g, .compiled n g ∈ events → ∃ after,
      replay (perform resetNode w methods) g ((performedOn n events).map Prod.fst) =
        .ok (after,(performedOn n events).map Prod.snd) ∧
      ∀ p, s.shared.heap p = some n → (∀ wk ∈ s.works, wk.pointer ≠ p) → s.memory p = some after := by
  have alone := runAlone ok
  refine ⟨fun p mem => alone.fair _ mem,fun panic mem => alone.fair _ mem,alone.single,
    fun graph job output mem => alone.fair _ mem,?_⟩
  intro n g listed
  obtain ⟨_,_,after,replayed,stands⟩ := alone.told n g listed
  refine ⟨after,replayed,?_⟩
  intro p held free
  obtain ⟨now,found,⟨_,rfl⟩ | ⟨wk,mem,at_,_⟩⟩ := stands p held
  · exact found
  · exact absurd at_ (free wk mem)

end Alone

def Event.isCompiled {σ α : Type} (n : Nat) : Event σ α → Bool
  | .compiled graph _ => graph == n
  | _ => false

/- The first block is under way while the graph is swapped out; recovered and reset, the graph
is swapped in again. -/
def swappedTwice : List (Action Nat Int) :=
  [.compile 8 2 rewired,.publish (.new 0),.publish (.tryPin 0),.publish (.advance 0),.publish (.advance 0),
    .publish (.advance 0),.process 0 ⟨[10,20],[9,9],⟨48000,2⟩⟩,.visit 0,.compile 9 2 [.addNode 1],.publish (.swap 0 0),
    .visit 0,.publish (.advance 0),.publish (.tryIntoBox 0 true),.visit 0,.visit 0,.publish (.dropGuard 0),
    .publish (.tryIntoBox 0 false),.publish (.advance 0),.onBox 0 .reset,.visit 0,.publish (.advance 0),.visit 0,.visit 0,
    .visit 0,.publish (.swap 0 0),.publish (.tryPin 0),.publish (.advance 0),.publish (.advance 0),.publish (.advance 0),
    .process 0 ⟨[1,2],[0,0],⟨48000,2⟩⟩,.visit 0,.visit 0,.visit 0,.visit 0]

theorem graphsBehaveAloneSwapped : ∃ s events g after, run (step (· % 4) 8 counting) init swappedTwice = some (s,events) ∧
    .compiled 0 g ∈ events ∧ s.memory 8 = some after ∧
    replay (perform (· % 4) 8 counting) g ((performedOn 0 events).map Prod.fst) = .ok (after,[[64,84],[],[5,7]]) := by
  have tested : (run (step (· % 4) 8 counting) init swappedTwice).any (fun r => r.2.any (Event.isCompiled 0) &&
      (decide ((performedOn 0 r.2).map Prod.snd = [[64,84],[],[5,7]]) &&
        (decide (r.1.shared.heap 8 = some 0) && r.1.works.isEmpty))) = true := by decide +kernel
  obtain ⟨⟨s,events⟩,ran,tested⟩ := (Option.any_eq_true _ _).mp tested
  obtain ⟨compiled,tested⟩ := Bool.and_eq_true_iff.mp tested
  obtain ⟨outputs,tested⟩ := Bool.and_eq_true_iff.mp tested
  obtain ⟨held,idle⟩ := Bool.and_eq_true_iff.mp tested
  obtain ⟨e,mem,named⟩ := List.any_eq_true.mp compiled
  obtain ⟨_,_,_,_,alone⟩ := graphsBehaveAlone ran
  cases e with
  | compiled n g =>
    have zero : n = 0 := by simpa [Event.isCompiled] using named
    subst zero
    obtain ⟨after,replayed,stays⟩ := alone _ g mem
    rw [of_decide_eq_true outputs] at replayed
    have none_ : s.works = [] := List.isEmpty_iff.mp idle
    have nobody : ∀ wk ∈ s.works, wk.pointer ≠ 8 := by simp [none_]
    exact ⟨s,events,g,after,ran,mem,stays 8 (of_decide_eq_true held) nobody,replayed⟩
  | _ => simp [Event.isCompiled] at named

end Riaps.Live
