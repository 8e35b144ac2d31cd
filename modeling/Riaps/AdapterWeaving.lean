import Mathlib.Data.List.Forall2
import Riaps.AdapterFlow
import Riaps.Library.Blocks

/-! The stream from the host inputs to the host outputs, told from the reports.
Each callback appends the silence it reports and then the answers of the DSP
callback it reports, less the ones it reports as dropped, and pads what it cannot
fill. The DSP callback is given the accepted samples in whole blocks. -/
namespace Riaps.AdapterWeaving
open Library.Checks Library.Replay Library.Blocks SampleFifo Adapter AdapterView

section Told
variable {σ α : Type}

/- The DSP callback finds in the output block what it left there the last time. -/
def called (f : DspCallback σ α) : Perform (σ × List α) (List α) (List α) := fun p block =>
  .ok (f.call p.1 block p.2,(f.call p.1 block p.2).2)

/- The blocks the DSP callback was given, each with its answer. -/
abbrev Log (α : Type) := List (List α × List α)

def accepted : List (HostCall α) → List AdapterProcessReport → List α
  | c :: cs,r :: rs => c.input.take r.acceptedInputSamples ++ accepted cs rs
  | _,_ => []

def blocksOf (rs : List AdapterProcessReport) : Nat := (rs.map AdapterProcessReport.processedDspBlocks).sum

/- The stream behind the reports, from the answers of the DSP callback in order. -/
def woven [Sample α] (block : Nat) : List AdapterProcessReport → List α → List α
  | [],_ => []
  | r :: rs,answers =>
      List.replicate r.latencyAddedSamples Sample.priming ++
        answers.take (r.processedDspBlocks * block - r.droppedOutputSamples) ++
        woven block rs (answers.drop (r.processedDspBlocks * block))

def rendered (b : HostBlock σ α) : List α := b.output.take (b.output.length - b.report.underrunSamples)

structure Reported [Sample α] (c : HostCall α) (b : HostBlock σ α) : Prop where
  counted : b.report.acceptedInputSamples + b.report.droppedInputSamples = c.input.length
  filled : b.output.length = c.output.length
  padded : b.output = rendered b ++ List.replicate b.report.underrunSamples Sample.underrun

theorem wovenFront [Sample α] {block : Nat} {rs : List AdapterProcessReport} {front : List α}
    (enough : blocksOf rs * block ≤ front.length) (back : List α) : woven block rs (front ++ back) = woven block rs front := by
  induction rs generalizing front with
  | nil => rfl
  | cons r rs ih =>
    simp only [blocksOf,List.map_cons,List.sum_cons,Nat.add_mul] at enough
    simp only [woven]
    rw [List.take_append_of_le_length (by omega),List.drop_append_of_le_length (by omega),
      ih (by rw [List.length_drop,blocksOf]; omega)]

theorem answersLength {block : Nat} {new : Log α} (whole : ∀ b ∈ new, b.1.length = block ∧ b.2.length = block) :
    (new.map Prod.fst).flatten.length = new.length * block ∧ (new.map Prod.snd).flatten.length = new.length * block := by
  induction new with
  | nil => simp
  | cons b new ih =>
    obtain ⟨⟨given,answered⟩,others⟩ := List.forall_mem_cons.mp whole
    obtain ⟨inputs,outputs⟩ := ih others
    simp only [List.map_cons,List.flatten_cons,List.length_append,List.length_cons,Nat.succ_mul,given,answered,inputs,
      outputs]
    omega

theorem acceptedWhole [Sample α] {calls : List (HostCall α)} {bs : List (HostBlock σ α)}
    (reported : List.Forall₂ Reported calls bs) (taken : ∀ b ∈ bs, b.report.droppedInputSamples = 0) :
    accepted calls (bs.map HostBlock.report) = calls.flatMap HostCall.input := by
  induction reported with
  | nil => rfl
  | cons here _ ih =>
    obtain ⟨none_,others⟩ := List.forall_mem_cons.mp taken
    have counted := here.counted
    rw [List.map_cons,accepted,List.take_of_length_le (by omega),ih others,List.flatMap_cons]

end Told

section Views
variable {σ α : Type} [Sample α]

/- `taken` are the input samples that were accepted, `log` has the blocks the callback was given with its
answers, `heard` is what the host was given of the stream. -/
structure Woven (z : Sizes) (f : DspCallback σ α) (s₀ : σ) (taken heard : List α) (v : View α) (s : σ) (log : Log α)
    (stream : List α) : Prop where
  fed : (log.map Prod.fst).flatten ++ v.input = taken
  whole : ∀ b ∈ log, b.1.length = z.block ∧ b.2.length = z.block
  replayed : replay (called f) (s₀,List.replicate z.block 0) (log.map Prod.fst) = .ok ((s,v.scratchOut),log.map Prod.snd)
  kept : heard ++ v.output = stream
  scratch : v.scratchOut.length = z.block

variable {z : Sizes} {f : DspCallback σ α} {s₀ s : σ} {taken heard : List α} {v : View α} {log : Log α} {stream : List α}

theorem startWoven (z : Sizes) (f : DspCallback σ α) (s : σ) : Woven z f s [] [] (fresh z) s [] [] :=
  ⟨rfl,by simp,rfl,rfl,by simp [fresh]⟩

theorem feedWoven (w : Woven z f s₀ taken heard v s log stream) (complete : z.block ≤ v.input.length) :
    ∃ answer, answer.length = z.block ∧
      (feed z f v s).1.output = v.output ++ answer.take (z.capacity - v.output.length) ∧
      Woven z f s₀ taken heard (feed z f v s).1 (feed z f v s).2 (log ++ [(v.input.take z.block,answer)])
        (stream ++ answer.take (z.capacity - v.output.length)) := by
  have size := f.keepsLength s (v.input.take z.block) v.scratchOut
  rw [w.scratch] at size
  refine ⟨_,size,rfl,?_,?_,?_,?_,size⟩
  · simp only [feed,List.map_append,List.map_cons,List.map_nil,List.flatten_append,List.flatten_singleton,
      List.append_assoc,List.take_append_drop]
    exact w.fed
  · intro b mem
    rcases List.mem_append.mp mem with old | last
    · exact w.whole b old
    · rw [List.mem_singleton.mp last]
      exact ⟨List.length_take_of_le complete,size⟩
  · rw [List.map_append,List.map_append]
    exact replaySnoc w.replayed rfl
  · simp only [feed]
    rw [← List.append_assoc,w.kept]

/- A full queue drops from the first sample that does not fit to the last of the callback. -/
theorem drainWoven (k : Nat) (w : Woven z f s₀ taken heard v s log stream) (complete : k * z.block ≤ v.input.length) :
    ∃ new : Log α, new.length = k ∧
      (drain z f k v s).1.output = v.output ++ (new.map Prod.snd).flatten.take (z.capacity - v.output.length) ∧
      Woven z f s₀ taken heard (drain z f k v s).1 (drain z f k v s).2.1 (log ++ new)
        (stream ++ (new.map Prod.snd).flatten.take (z.capacity - v.output.length)) := by
  induction k generalizing v s log stream with
  | zero => exact ⟨[],rfl,by simp [drain],by simpa [drain] using w⟩
  | succ k ih =>
    rw [Nat.succ_mul] at complete
    obtain ⟨answer,size,pushed,fed⟩ := feedWoven w (by omega)
    obtain ⟨new,count,queued,drained⟩ := ih fed (by simp only [feed,List.length_drop]; omega)
    have room : z.capacity - (feed z f v s).1.output.length = z.capacity - v.output.length - answer.length := by
      rw [pushed,List.length_append,List.length_take]
      omega
    have joined : (answer ++ (new.map Prod.snd).flatten).take (z.capacity - v.output.length) =
        answer.take (z.capacity - v.output.length) ++
          (new.map Prod.snd).flatten.take (z.capacity - (feed z f v s).1.output.length) := by
      rw [List.take_append,room]
    refine ⟨(v.input.take z.block,answer) :: new,by rw [List.length_cons,count],?_,?_⟩
    · rw [drain,queued,List.map_cons,List.flatten_cons,joined,← List.append_assoc,← pushed]
    · rw [List.map_cons,List.flatten_cons,joined,← List.append_assoc]
      simpa only [drain,List.append_assoc,List.singleton_append] using drained

theorem primeWoven (w : Woven z f s₀ taken heard v s log stream) (n : Nat) :
    Woven z f s₀ taken heard (prime z v n).1 s log (stream ++ List.replicate (prime z v n).2 Sample.priming) := by
  unfold prime
  cases reserveFor z.block v.quantum n with
  | none => simpa using w
  | some reserve => exact ⟨w.fed,w.whole,w.replayed,by rw [← List.append_assoc,w.kept],w.scratch⟩

theorem hostWoven (w : Woven z f s₀ taken heard v s log stream) (fits : v.output.length ≤ z.capacity) (xs : List α)
    (n : Nat) :
    ∃ new : Log α, new.length = (host z f v s xs n).report.processedDspBlocks ∧
      (host z f v s xs n).output = (host z f v s xs n).output.take
        (n - (host z f v s xs n).report.underrunSamples) ++
          List.replicate (host z f v s xs n).report.underrunSamples Sample.underrun ∧
      Woven z f s₀ (taken ++ xs.take (host z f v s xs n).report.acceptedInputSamples)
        (heard ++ (host z f v s xs n).output.take (n - (host z f v s xs n).report.underrunSamples))
        (host z f v s xs n).view (host z f v s xs n).state (log ++ new)
        (stream ++ (List.replicate (host z f v s xs n).report.latencyAddedSamples Sample.priming ++
          (new.map Prod.snd).flatten.take (new.length * z.block - (host z f v s xs n).report.droppedOutputSamples))) := by
  have primed := primeWoven w n
  obtain ⟨-,-,-,bounded,scratch,-⟩ := AdapterFlow.loadForget z v xs n fits
  have loaded : Woven z f s₀ (taken ++ xs.take (min xs.length (z.capacity - v.input.length))) heard (load z v xs n) s log
      (stream ++ List.replicate (prime z v n).2 Sample.priming) := by
    refine ⟨?_,primed.whole,primed.replayed,primed.kept,primed.scratch⟩
    simp only [load,primeInput]
    rw [← List.append_assoc,w.fed,List.take_eq_take_min]
    simp [Nat.min_comm]
  obtain ⟨blocks,count⟩ : ∃ k, k = (load z v xs n).input.length / z.block := ⟨_,rfl⟩
  obtain ⟨-,-,lost,-⟩ := AdapterFlow.drainForget z f blocks (load z v xs n) s (by rw [scratch,w.scratch]) bounded
  obtain ⟨new,size,queued,drained⟩ := drainWoven blocks loaded (by rw [count]; exact Nat.div_mul_le_self _ _)
  have answered := (answersLength (fun b mem => drained.whole b (List.mem_append_right log mem))).2
  have kept : (new.map Prod.snd).flatten.take (z.capacity - (load z v xs n).output.length) =
      (new.map Prod.snd).flatten.take (new.length * z.block - (drain z f blocks (load z v xs n) s).2.2) := by
    rw [List.take_eq_take_iff,answered,lost,size]
    omega
  rw [kept] at drained
  have split : (host z f v s xs n).output.take (n - (host z f v s xs n).report.underrunSamples) =
      (drain z f blocks (load z v xs n) s).1.output.take n := by
    simp only [host,← count]
    rw [List.take_append_of_le_length (by rw [List.length_take]; omega),List.take_take,List.take_eq_take_iff]
    omega
  rw [split]
  subst count
  refine ⟨new,size,rfl,drained.fed,drained.whole,drained.replayed,?_,drained.scratch⟩
  have told := drained.kept
  rw [List.append_assoc stream] at told
  refine Eq.trans ?_ told
  rw [List.append_assoc]
  exact congrArg (heard ++ ·) (List.take_append_drop n _)

theorem callWoven {a : AdapterBuffer α} (shows : Shows z a v) (w : Woven z f s₀ taken heard v s log stream)
    (c : HostCall α) {b : HostBlock σ α} (ran : processHostBlock f a s c.input c.output = .ok b) :
    ∃ v' new, Shows z b.adapter v' ∧ v'.input.length < z.block ∧ new.length = b.report.processedDspBlocks ∧
      Reported c b ∧
      Woven z f s₀ (taken ++ c.input.take b.report.acceptedInputSamples) (heard ++ rendered b) v' b.state (log ++ new)
        (stream ++ (List.replicate b.report.latencyAddedSamples Sample.priming ++
          (new.map Prod.snd).flatten.take (new.length * z.block - b.report.droppedOutputSamples))) := by
  obtain ⟨adapter,done,next⟩ := hostShows f shows s c.input c.output
  cases Except.ok.inj (ran.symm.trans done)
  obtain ⟨new,count,padded,kept⟩ := hostWoven w shows.output.fits c.input c.output.length
  have moved := (AdapterFlow.hostForget z f v s c.input c.output.length shows.scratchSize shows.output.fits).1
  have phase := congrArg AdapterFlow.Flow.accumulated moved
  have filled : (host z f v s c.input c.output.length).output.length = c.output.length := by
    simp only [host,List.length_append,List.length_take,List.length_replicate]
    omega
  have counted : (host z f v s c.input c.output.length).report.acceptedInputSamples +
      (host z f v s c.input c.output.length).report.droppedInputSamples = c.input.length := by
    simp only [host]
    omega
  refine ⟨_,new,next,phase.trans_lt (Nat.mod_lt _ z.positive),count,⟨counted,filled,?_⟩,?_⟩
  · rw [rendered,filled]
    exact padded
  · rw [rendered,filled]
    exact kept

theorem callsWoven {a : AdapterBuffer α} (shows : Shows z a v) (short : v.input.length < z.block)
    (w : Woven z f s₀ taken heard v s log stream) (calls : List (HostCall α)) {r : Session σ α}
    (ran : processAll f a s calls = .ok r) :
    ∃ v' new, Shows z r.adapter v' ∧ v'.input.length < z.block ∧ new.length = blocksOf r.reports ∧
      List.Forall₂ Reported calls r.blocks ∧
      Woven z f s₀ (taken ++ accepted calls r.reports) (heard ++ r.blocks.flatMap rendered) v' r.state (log ++ new)
        (stream ++ woven z.block r.reports (new.map Prod.snd).flatten) := by
  induction calls generalizing a v s taken heard log stream r with
  | nil =>
    cases Except.ok.inj ran
    exact ⟨v,[],shows,short,rfl,.nil,by simpa [accepted,Session.reports,woven] using w⟩
  | cons c cs ih =>
    obtain ⟨b,r',first,later,rfl⟩ := processAllCons.mp ran
    obtain ⟨u,new,showsU,shortU,count,reported,next⟩ := callWoven shows w c first
    obtain ⟨v',others,showsV,shortV,counts,reporteds,final⟩ := ih showsU shortU next later
    have size : (new.map Prod.snd).flatten.length = new.length * z.block :=
      (answersLength (fun b mem => next.whole b (List.mem_append_right log mem))).2
    refine ⟨v',new ++ others,showsV,shortV,?_,.cons reported reporteds,?_⟩
    · rw [List.length_append,count,counts]
      rfl
    · have told : woven z.block (b.report :: r'.reports) ((new ++ others).map Prod.snd).flatten =
          List.replicate b.report.latencyAddedSamples Sample.priming ++
            (new.map Prod.snd).flatten.take (new.length * z.block - b.report.droppedOutputSamples) ++
            woven z.block r'.reports (others.map Prod.snd).flatten := by
        rw [woven,← count,List.map_append,List.flatten_append,List.take_append_of_le_length (by omega),
          List.drop_left' size]
      simp only [Session.reports,List.map_cons,accepted,List.flatMap_cons] at told ⊢
      rw [told]
      simpa only [List.append_assoc,Session.reports] using final

theorem sessionWoven (z : Sizes) (f : DspCallback σ α) (s : σ) (calls : List (HostCall α)) :
    ∃ r v log, session z.block z.capacity f s calls = .ok r ∧ Shows z r.adapter v ∧ v.input.length < z.block ∧
      log.length = blocksOf r.reports ∧ List.Forall₂ Reported calls r.blocks ∧
      Woven z f s (accepted calls r.reports) (r.blocks.flatMap rendered) v r.state log
        (woven z.block r.reports (log.map Prod.snd).flatten) := by
  obtain ⟨a,made,shows⟩ := newShows (α := α) z
  obtain ⟨r,ran,-⟩ := AdapterFlow.processAllFlow f shows s calls
  obtain ⟨v,log,showsV,short,count,reported,final⟩ := callsWoven shows z.positive (startWoven z f s) calls ran
  exact ⟨r,v,log,by simp only [session,made,okBind,ran],showsV,short,count,reported,by simpa using final⟩

theorem flushWoven {a : AdapterBuffer α} (shows : Shows z a v) (short : v.input.length < z.block)
    (w : Woven z f s₀ taken heard v s log stream) :
    ∃ tail o answers last, flush f a s = .ok tail ∧
      replay (called f) (s₀,List.replicate z.block 0) (blocks z.block taken) = .ok ((tail.state,o),answers) ∧
      answers.flatten = (log.map Prod.snd).flatten ++ last ∧
      tail.output = v.output ++ (last.take v.input.length).take (z.capacity - v.output.length) := by
  obtain ⟨b,done,-⟩ := flushShows f shows s short
  have cut : blocks z.block taken = log.map Prod.fst ++ remainderBlock z.block v.input := by
    rw [← w.fed]
    refine blocksOfParts z.positive ?_ short
    intro x mem
    obtain ⟨entry,listed,rfl⟩ := List.mem_map.mp mem
    exact (w.whole entry listed).1
  by_cases empty : v.input = []
  · -- no remainder: flush only empties the output queue
    rw [remainderBlock,if_pos empty,List.append_nil] at cut
    simp only [flushed,if_pos empty] at done
    exact ⟨_,_,_,[],done,by rw [cut]; exact w.replayed,by simp,by simp⟩
  · rw [remainderBlock,if_neg empty] at cut
    simp only [flushed,if_neg empty] at done
    refine ⟨_,_,_,_,done,by rw [cut]; exact replaySnoc w.replayed rfl,?_,rfl⟩
    rw [List.flatten_append,List.flatten_singleton]

/-- What a session and its flush hand out, in terms of the reports and the answers. -/
structure Accounted (z : Sizes) (f : DspCallback σ α) (s : σ) (calls : List (HostCall α)) (r : Session σ α)
    (tail : Flushed σ α) (o : List α) (answers : List (List α)) : Prop where
  replayed : replay (called f) (s,List.replicate z.block 0) (blocks z.block (accepted calls r.reports)) =
    .ok ((tail.state,o),answers)
  reported : List.Forall₂ Reported calls r.blocks
  stream : r.blocks.flatMap rendered ++ tail.output = woven z.block r.reports answers.flatten ++
    ((answers.flatten.drop (blocksOf r.reports * z.block)).take (Adapter.accumulated r.adapter)).take
      (z.capacity - pendingOutput r.adapter)
  waiting : (r.blocks.flatMap rendered).length + pendingOutput r.adapter = (woven z.block r.reports answers.flatten).length
  short : Adapter.accumulated r.adapter < z.block
  counted : blocksOf r.reports * z.block + Adapter.accumulated r.adapter = (accepted calls r.reports).length

theorem sessionAccounted (z : Sizes) (f : DspCallback σ α) (s : σ) (calls : List (HostCall α)) :
    ∃ r tail o answers, session z.block z.capacity f s calls = .ok r ∧ flush f r.adapter r.state = .ok tail ∧
      Accounted z f s calls r tail o answers := by
  obtain ⟨r,v,log,ran,shows,short,count,reported,w⟩ := sessionWoven z f s calls
  obtain ⟨tail,o,answers,last,done,replayed,flat,output⟩ := flushWoven shows short w
  obtain ⟨given,answered⟩ := answersLength w.whole
  have size : (log.map Prod.snd).flatten.length = blocksOf r.reports * z.block := by rw [answered,count]
  have held : Adapter.accumulated r.adapter = v.input.length := shows.input.count
  have pending : pendingOutput r.adapter = v.output.length := shows.output.count
  have front : woven z.block r.reports answers.flatten = woven z.block r.reports (log.map Prod.snd).flatten := by
    rw [flat,wovenFront (Nat.le_of_eq size.symm)]
  refine ⟨r,tail,o,answers,ran,done,replayed,reported,?_,?_,held ▸ short,?_⟩
  · rw [output,← List.append_assoc,w.kept,front,flat,List.drop_left' size,held,pending]
  · rw [front,← w.kept,List.length_append,pending]
  · rw [← w.fed,List.length_append,given,count,held]

end Views
end Riaps.AdapterWeaving
