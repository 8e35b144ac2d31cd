import Riaps.AdapterWeaving

/-! The stream from the host inputs to the host outputs. The adapter is run on
samples that remember where they came from, with a callback that writes down
what it is given and what it returns. Erasing the tags gives back the run of the
code, so what holds of the tags holds of the samples. -/
namespace Riaps.AdapterStream
open Library.Checks Library.Replay Library.Blocks SampleFifo Adapter AdapterView AdapterWeaving

inductive Tagged (α : Type) where
  | priming
  | underrun
  | real (x : α)
  deriving DecidableEq, Repr

instance {α : Type} [Zero α] : Sample (Tagged α) where
  zero := .real 0
  priming := .priming
  underrun := .underrun

variable {σ α : Type}

def realOf : Tagged α → Option α
  | .real x => some x
  | _ => none

def isPriming : Tagged α → Bool
  | .priming => true
  | _ => false

def erase [Sample α] : Tagged α → α
  | .priming => Sample.priming
  | .underrun => Sample.underrun
  | .real x => x

def observe [Sample α] (f : DspCallback σ α) : DspCallback (σ × Log α) (Tagged α) where
  call st i o :=
    let r := f.call st.1 (i.map erase) (o.map erase)
    ((r.1,st.2 ++ [(i.map erase,r.2)]),r.2.map .real)
  keepsLength st i o := by simp [f.keepsLength]

theorem realOfReal (xs : List α) : (xs.map Tagged.real).filterMap realOf = xs := by
  rw [List.filterMap_map]
  exact List.filterMap_some

theorem noPrimingReal (xs : List α) : (xs.map Tagged.real).countP isPriming = 0 := by
  rw [List.countP_map]
  exact List.countP_eq_zero.mpr (by simp [isPriming])

section Erasure
variable [Sample α]

def eraseView (v : View (Tagged α)) : View α :=
  ⟨v.input.map erase,v.output.map erase,v.scratchOut.map erase,v.quantum,v.latency⟩

theorem eraseReal (xs : List α) : (xs.map Tagged.real).map erase = xs := by
  rw [List.map_map]
  exact List.map_id xs

theorem eraseFresh (z : Sizes) : eraseView (fresh z : View (Tagged α)) = fresh z := by
  simp only [eraseView,fresh,List.map_nil,List.map_replicate]
  rfl

theorem erasePrime (z : Sizes) (v : View (Tagged α)) (n : Nat) :
    prime z (eraseView v) n = (eraseView (prime z v n).1,(prime z v n).2) := by
  unfold prime
  simp only [eraseView]
  cases reserveFor z.block v.quantum n with
  | none => rfl
  | some reserve =>
    simp only [List.length_map,List.map_append,List.map_replicate]
    rfl

theorem eraseLoad (z : Sizes) (v : View (Tagged α)) (xs : List α) (n : Nat) :
    load z (eraseView v) xs n = eraseView (load z v (xs.map .real) n) := by
  unfold load
  rw [erasePrime]
  simp only [eraseView,List.length_map,List.map_append,← List.map_take,eraseReal]

theorem eraseFeed (z : Sizes) (f : DspCallback σ α) (v : View (Tagged α)) (st : σ × Log α) :
    feed z f (eraseView v) st.1 = (eraseView (feed z (observe f) v st).1,(feed z (observe f) v st).2.1) := by
  simp only [feed,eraseView,observe,List.length_map,List.map_take,List.map_drop,List.map_append,eraseReal]

theorem eraseDrain (z : Sizes) (f : DspCallback σ α) (k : Nat) (v : View (Tagged α)) (st : σ × Log α) :
    drain z f k (eraseView v) st.1 =
      (eraseView (drain z (observe f) k v st).1,(drain z (observe f) k v st).2.1.1,
        (drain z (observe f) k v st).2.2) := by
  induction k generalizing v st with
  | zero => rfl
  | succ k ih =>
    have size : (eraseView v).output.length = v.output.length := by simp [eraseView]
    simp only [drain,eraseFeed,ih,size]

theorem eraseHost (z : Sizes) (f : DspCallback σ α) (v : View (Tagged α)) (st : σ × Log α) (xs : List α) (n : Nat) :
    host z f (eraseView v) st.1 xs n =
      ⟨eraseView (host z (observe f) v st (xs.map .real) n).view,(host z (observe f) v st (xs.map .real) n).state.1,
        (host z (observe f) v st (xs.map .real) n).output.map erase,
        (host z (observe f) v st (xs.map .real) n).report⟩ := by
  simp only [host]
  rw [eraseLoad,erasePrime]
  have size : (eraseView (load z v (xs.map .real) n)).input.length = (load z v (xs.map .real) n).input.length := by
    simp [eraseView]
  rw [size,eraseDrain]
  simp only [eraseView,List.length_map,List.map_drop,List.map_append,List.map_take,List.map_replicate]
  rfl

theorem eraseFlushed (z : Sizes) (f : DspCallback σ α) (v : View (Tagged α)) (st : σ × Log α) :
    flushed z f (eraseView v) st.1 =
      (eraseView (flushed z (observe f) v st).1,(flushed z (observe f) v st).2.1.1,
        (flushed z (observe f) v st).2.2.map erase) := by
  have pad : (padded z.block v.input).map erase = padded z.block (v.input.map erase) := by
    simp only [padded,List.map_append,List.map_replicate,List.length_map]
    rfl
  unfold flushed
  by_cases empty : v.input = []
  · simp [eraseView,empty]
  · simp only [eraseView,List.map_eq_nil_iff,if_neg empty,observe,pad,List.length_map,List.map_nil,List.map_append,
      ← List.map_take,eraseReal]

theorem observedReplay {f : DspCallback σ α} {st st' : σ × Log α} {o o' : List (Tagged α)}
    {bs answers : List (List (Tagged α))}
    (ran : replay (called (observe f)) (st,o) bs = .ok ((st',o'),answers)) :
    ∃ entries : Log α, st'.2 = st.2 ++ entries ∧ entries.map Prod.fst = bs.map (List.map erase) ∧
      answers = entries.map (fun b => b.2.map .real) ∧
      replay (called f) (st.1,o.map erase) (bs.map (List.map erase)) =
        .ok ((st'.1,o'.map erase),entries.map Prod.snd) := by
  induction bs generalizing st o answers with
  | nil =>
    cases Except.ok.inj ran
    exact ⟨[],by simp,rfl,rfl,rfl⟩
  | cons b bs ih =>
    obtain ⟨_,_,others,first,later,rfl⟩ := replaySplit ran
    cases Except.ok.inj first
    obtain ⟨entries,grown,given,told,replayed⟩ := ih later
    refine ⟨(b.map erase,(f.call st.1 (b.map erase) (o.map erase)).2) :: entries,?_,?_,?_,?_⟩
    · simp only [grown,List.append_assoc,List.singleton_append]
    · rw [List.map_cons,List.map_cons,given]
    · rw [List.map_cons,← told]
      rfl
    · simp only [eraseReal] at replayed
      exact replayCons rfl replayed

end Erasure

section Weaving
variable [Sample α]

theorem wovenReal {block : Nat} {rs : List AdapterProcessReport} (answers : List α)
    (lossless : ∀ r ∈ rs, r.droppedOutputSamples = 0) :
    (woven block rs (answers.map Tagged.real)).filterMap realOf = answers.take (blocksOf rs * block) := by
  induction rs generalizing answers with
  | nil => simp [woven,blocksOf]
  | cons r rs ih =>
    obtain ⟨here,others⟩ := List.forall_mem_cons.mp lossless
    have counted : blocksOf (r :: rs) * block = r.processedDspBlocks * block + blocksOf rs * block := by
      simp only [blocksOf,List.map_cons,List.sum_cons,Nat.add_mul]
    rw [woven,here,Nat.sub_zero,← List.map_take,← List.map_drop,List.filterMap_append,List.filterMap_append,
      List.filterMap_replicate_of_none rfl,List.nil_append,realOfReal,ih _ others,counted,List.take_add]

theorem wovenPriming (block : Nat) (rs : List AdapterProcessReport) (answers : List α) :
    (woven block rs (answers.map Tagged.real)).countP isPriming =
      (rs.map AdapterProcessReport.latencyAddedSamples).sum := by
  induction rs generalizing answers with
  | nil => rfl
  | cons r rs ih =>
    rw [woven,← List.map_take,← List.map_drop,List.countP_append,List.countP_append,List.countP_replicate,
      noPrimingReal,ih,List.map_cons,List.sum_cons]
    rfl

/- The padding of the host blocks is neither real nor priming. -/
theorem renderedKeeps {calls : List (HostCall (Tagged α))} {bs : List (HostBlock σ (Tagged α))}
    (reported : List.Forall₂ Reported calls bs) :
    (bs.flatMap HostBlock.output).filterMap realOf = (bs.flatMap rendered).filterMap realOf ∧
      (bs.flatMap HostBlock.output).countP isPriming = (bs.flatMap rendered).countP isPriming := by
  induction reported with
  | nil => exact ⟨rfl,rfl⟩
  | @cons _ b _ _ here _ ih =>
    obtain ⟨real,silent⟩ := ih
    have none_ : (List.replicate b.report.underrunSamples (Sample.underrun : Tagged α)).filterMap realOf = [] :=
      List.filterMap_replicate_of_none rfl
    have quiet : (List.replicate b.report.underrunSamples (Sample.underrun : Tagged α)).countP isPriming = 0 := by
      rw [List.countP_replicate]
      exact if_neg Bool.false_ne_true
    simp only [List.flatMap_cons,List.filterMap_append,List.countP_append,real,silent]
    rw [here.padded,List.filterMap_append,List.countP_append,none_,quiet,List.append_nil,Nat.add_zero]
    exact ⟨rfl,rfl⟩

end Weaving

section Twins
variable [Sample α]

def tagCall (c : HostCall α) : HostCall (Tagged α) := ⟨c.input.map .real,c.output.map .real⟩

def Lossless (r : AdapterProcessReport) : Prop := r.droppedInputSamples = 0 ∧ r.droppedOutputSamples = 0

instance (r) : Decidable (Lossless r) := by unfold Lossless; infer_instance

/-- The adapter of the code and the one on tagged samples, between two calls. -/
structure Twin (z : Sizes) (p : AdapterBuffer α × σ) (q : AdapterBuffer (Tagged α) × (σ × Log α)) (v : View (Tagged α)) :
    Prop where
  plain : Shows z p.1 (eraseView v)
  tagged : Shows z q.1 v
  state : p.2 = q.2.1

def Erased (b : HostBlock σ α) (c : HostBlock (σ × Log α) (Tagged α)) : Prop :=
  c.output.map erase = b.output ∧ c.report = b.report

variable {z : Sizes} {f : DspCallback σ α} {p : AdapterBuffer α × σ} {q : AdapterBuffer (Tagged α) × (σ × Log α)}
  {v : View (Tagged α)}

theorem hostTwin (f : DspCallback σ α) (twin : Twin z p q v) (c : HostCall α) :
    ∃ p' q' b b', hostStep f p c = .ok (p',b) ∧ hostStep (observe f) q (tagCall c) = .ok (q',b') ∧
      (∃ w, Twin z p' q' w) ∧ Erased b b' := by
  obtain ⟨a',ha,plain⟩ := hostShows f twin.plain q.2.1 c.input c.output
  obtain ⟨b',hb,tagged⟩ := hostShows (observe f) twin.tagged q.2 (c.input.map .real) (c.output.map .real)
  rw [List.length_map] at hb tagged
  rw [eraseHost] at ha plain
  rw [← twin.state] at ha
  exact ⟨_,_,_,_,hostStepOk.mpr ⟨ha,rfl⟩,hostStepOk.mpr ⟨hb,rfl⟩,⟨_,plain,tagged,rfl⟩,rfl,rfl⟩

theorem sessionTwin (z : Sizes) (f : DspCallback σ α) (s : σ) (calls : List (HostCall α)) :
    ∃ r t, session z.block z.capacity f s calls = .ok r ∧
      session z.block z.capacity (observe f) (s,[]) (calls.map tagCall) = .ok t ∧
      (∃ w, Twin z (r.adapter,r.state) (t.adapter,t.state) w) ∧ List.Forall₂ Erased r.blocks t.blocks := by
  obtain ⟨a,ha,plain⟩ := newShows (α := α) z
  obtain ⟨b,hb,tagged⟩ := newShows (α := Tagged α) z
  have start : Twin z (a,s) (b,(s,[])) (fresh z) := ⟨by rw [eraseFresh]; exact plain,tagged,rfl⟩
  have inputs : List.Forall₂ (fun c k => tagCall c = k) calls (calls.map tagCall) :=
    List.forall₂_map_right_iff.mpr (List.forall₂_same.mpr (fun _ _ => rfl))
  have related : ∀ p q c k, (∃ v, Twin z p q v) → tagCall c = k → ∃ p' q' b b', hostStep f p c = .ok (p',b) ∧
      hostStep (observe f) q k = .ok (q',b') ∧ (∃ w, Twin z p' q' w) ∧ Erased b b' := by
    rintro p q c _ ⟨v,twin⟩ rfl
    exact hostTwin f twin c
  obtain ⟨⟨a',s'⟩,⟨b',st'⟩,blocks,blocks',ran,ran',twin,erased⟩ := replayRelated related ⟨_,start⟩ inputs
  refine ⟨⟨a',s',blocks⟩,⟨b',st',blocks'⟩,?_,?_,twin,erased⟩
  · simp only [session,ha,okBind]
    exact processAllOk.mpr ran
  · simp only [session,hb,okBind]
    exact processAllOk.mpr ran'

theorem erasedBlocks {bs : List (HostBlock σ α)} {cs : List (HostBlock (σ × Log α) (Tagged α))}
    (erased : List.Forall₂ Erased bs cs) :
    cs.map (fun c => c.output.map erase) = bs.map HostBlock.output ∧ cs.map HostBlock.report = bs.map HostBlock.report := by
  induction erased with
  | nil => exact ⟨rfl,rfl⟩
  | cons here _ ih => exact ⟨by rw [List.map_cons,List.map_cons,here.1,ih.1],by rw [List.map_cons,List.map_cons,here.2,ih.2]⟩

theorem flushTwin (f : DspCallback σ α) (twin : Twin z p q v) (short : Adapter.accumulated q.1 < z.block) :
    ∃ x y, flush f p.1 p.2 = .ok x ∧ flush (observe f) q.1 q.2 = .ok y ∧ y.output.map erase = x.output ∧
      y.state.1 = x.state := by
  have fed : v.input.length < z.block := twin.tagged.input.count ▸ short
  obtain ⟨a',ha,-⟩ := flushShows f twin.plain q.2.1 (by simpa [eraseView] using fed)
  obtain ⟨b',hb,-⟩ := flushShows (observe f) twin.tagged q.2 fed
  rw [eraseFlushed,← twin.state] at ha
  exact ⟨_,_,ha,hb,rfl,rfl⟩

theorem streamPreserved {block capacity : Nat} (positive : 0 < block) (enough : 2 * block ≤ capacity)
    (f : DspCallback σ α) (s : σ) (calls : List (HostCall α)) {r : Session σ α}
    (ran : session block capacity f s calls = .ok r) (lossless : ∀ x ∈ r.reports, Lossless x)
    (room : pendingOutput r.adapter + accumulated r.adapter ≤ capacity) :
    ∃ tail t tagTail, flush f r.adapter r.state = .ok tail ∧
      session block capacity (observe f) (s,[]) (calls.map tagCall) = .ok t ∧
      flush (observe f) t.adapter t.state = .ok tagTail ∧
      t.blocks.map (fun y => y.output.map erase) = r.blocks.map HostBlock.output ∧ t.reports = r.reports ∧
      tagTail.output.map erase = tail.output ∧ tagTail.state.1 = tail.state ∧
      tagTail.state.2.map Prod.fst = blocks block (calls.flatMap HostCall.input) ∧
      (∃ o, replay (called f) (s,List.replicate block 0) (blocks block (calls.flatMap HostCall.input)) =
        .ok ((tail.state,o),tagTail.state.2.map Prod.snd)) ∧
      (t.blocks.flatMap HostBlock.output ++ tagTail.output).filterMap realOf =
        ((tagTail.state.2.map Prod.snd).flatten).take (calls.flatMap HostCall.input).length ∧
      (t.blocks.flatMap HostBlock.output ++ tagTail.output).countP isPriming =
        (r.reports.map AdapterProcessReport.latencyAddedSamples).sum := by
  let z : Sizes := ⟨block,capacity,positive,enough⟩
  obtain ⟨r',t,ran',tagged,⟨v,twin⟩,erased⟩ := sessionTwin z f s calls
  cases Except.ok.inj (ran.symm.trans ran')
  obtain ⟨outputs,reports⟩ := erasedBlocks erased
  change t.reports = r.reports at reports
  obtain ⟨t',tagTail,o,answers,ranT,flushed,account⟩ := sessionAccounted z (observe f) (s,[]) (calls.map tagCall)
  cases Except.ok.inj (tagged.symm.trans ranT)
  obtain ⟨tail,tagTail',done,flushed',output,final⟩ := flushTwin f twin account.short
  cases Except.ok.inj (flushed.symm.trans flushed')
  have taken : ∀ b ∈ t.blocks, b.report.droppedInputSamples = 0 := by
    intro b mem
    exact (lossless b.report (reports ▸ List.mem_map_of_mem mem)).1
  have sent : accepted (calls.map tagCall) t.reports = (calls.flatMap HostCall.input).map Tagged.real := by
    rw [Session.reports,acceptedWhole account.reported taken,List.flatMap_map,List.map_flatMap]
    rfl
  obtain ⟨entries,grown,given,told,replayed⟩ := observedReplay account.replayed
  rw [sent,blocksMap erase rfl,eraseReal] at given replayed
  rw [List.map_replicate] at replayed
  rw [List.nil_append] at grown
  have heard : answers.flatten = ((entries.map Prod.snd).flatten).map Tagged.real := by
    rw [told,List.map_flatten,List.map_map]
    rfl
  have held : accumulated t.adapter = accumulated r.adapter := by
    rw [accumulated,accumulated,twin.tagged.input.count,twin.plain.input.count,eraseView,List.length_map]
  have pending : pendingOutput t.adapter = pendingOutput r.adapter := by
    rw [pendingOutput,pendingOutput,twin.tagged.output.count,twin.plain.output.count,eraseView,List.length_map]
  have stream := account.stream
  rw [heard,← List.map_drop,← List.map_take,List.take_of_length_le (by
    rw [List.length_map,List.length_take,held,pending]
    exact Nat.le_trans (Nat.min_le_left _ _) (Nat.le_sub_of_add_le' room))] at stream
  have counted := account.counted
  rw [sent,List.length_map] at counted
  obtain ⟨real,silent⟩ := renderedKeeps account.reported
  refine ⟨tail,t,tagTail,done,tagged,flushed,outputs,reports,output,final,?_,⟨o.map erase,?_⟩,?_,?_⟩
  · rw [grown,given]
  · rw [grown,← final]
    exact replayed
  · rw [List.filterMap_append,real,← List.filterMap_append,stream,List.filterMap_append,
      wovenReal _ (fun x mem => (lossless x (reports ▸ mem)).2),realOfReal,← List.take_add,counted,grown]
  · rw [List.countP_append,silent,← List.countP_append,stream,List.countP_append,wovenPriming,noPrimingReal,
      Nat.add_zero,reports]

end Twins

theorem doublingLength (i o : List Int) :
    ((i.map (fun x => 2 * x)).take o.length ++ o.drop i.length).length = o.length := by
  simp only [List.length_append,List.length_take,List.length_map,List.length_drop]
  omega

def doubling : DspCallback Unit Int where
  call s i o := (s,(i.map (fun x => 2 * x)).take o.length ++ o.drop i.length)
  keepsLength _ := doublingLength

def unevenCalls : List (HostCall Int) := [⟨[1,2,3],[0]⟩,⟨[],[0,0]⟩,⟨[4,5],[0,0,0]⟩]

theorem streamPreservedUneven : ∃ r, session 2 6 doubling () unevenCalls = .ok r ∧
    ∃ tail t tagTail, flush doubling r.adapter r.state = .ok tail ∧
      session 2 6 (observe doubling) ((),[]) (unevenCalls.map tagCall) = .ok t ∧
      flush (observe doubling) t.adapter t.state = .ok tagTail ∧
      t.blocks.map (fun y => y.output.map erase) = r.blocks.map HostBlock.output ∧ t.reports = r.reports ∧
      tagTail.output.map erase = tail.output ∧ tagTail.state.1 = tail.state ∧
      tagTail.state.2.map Prod.fst = blocks 2 (unevenCalls.flatMap HostCall.input) ∧
      (∃ o, replay (called doubling) ((),List.replicate 2 0) (blocks 2 (unevenCalls.flatMap HostCall.input)) =
        .ok ((tail.state,o),tagTail.state.2.map Prod.snd)) ∧
      (t.blocks.flatMap HostBlock.output ++ tagTail.output).filterMap realOf =
        ((tagTail.state.2.map Prod.snd).flatten).take (unevenCalls.flatMap HostCall.input).length ∧
      (t.blocks.flatMap HostBlock.output ++ tagTail.output).countP isPriming =
        (r.reports.map AdapterProcessReport.latencyAddedSamples).sum := by
  have run : passes (session 2 6 doubling () unevenCalls) (fun r => decide ((∀ x ∈ r.reports, Lossless x) ∧
      pendingOutput r.adapter + accumulated r.adapter ≤ 6)) = true := by decide
  obtain ⟨r,ok,facts⟩ := passed run
  obtain ⟨lossless,room⟩ := of_decide_eq_true facts
  exact ⟨r,ok,streamPreserved (by decide) (by decide) doubling () unevenCalls ok lossless room⟩

end Riaps.AdapterStream
