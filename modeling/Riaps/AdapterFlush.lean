import Riaps.AdapterHistory

/-! What the last drain returns. The remainder goes through the bounded output
queue and its accepted count is ignored, so a queue that the host left full costs
the tail of the stream. The drain is lossless exactly when both queues together
fit into one of them. -/
namespace Riaps.AdapterFlush
open Library.Checks Library.Blocks SampleFifo Adapter AdapterView AdapterFlow AdapterQuantum AdapterHistory

variable {σ α : Type}

def queued (f : Fifo α) : List α :=
  (List.range f.len).filterMap (fun i => f.storage[(f.read + i) % f.storage.length]?)

/-- The samples that the callback makes of the remaining input, padding left out. -/
def rendered [Sample α] (callback : DspCallback σ α) (a : AdapterBuffer α) (s : σ) : List α :=
  (callback.call s (padded a.targetBlockSize (queued a.inputFifo)) a.scratchOut).2.take (accumulated a)

structure LosesNothing [Sample α] (callback : DspCallback σ α) (a : AdapterBuffer α) (s : σ)
    (f : Flushed σ α) : Prop where
  count : f.output.length = pendingOutput a + accumulated a
  samples : f.output = queued a.outputFifo ++ rendered callback a s
  inputEmpty : accumulated f.adapter = 0
  outputEmpty : pendingOutput f.adapter = 0

theorem holdsQueued {f : Fifo α} {capacity items} (holds : Holds f capacity items) : queued f = items := by
  have cell : ∀ i ∈ List.range items.length,
      f.storage[(f.read + i) % f.storage.length]? = items[i]? := by
    intro i mem
    have inside := List.mem_range.mp mem
    rw [holds.size,List.getElem?_eq_getElem inside]
    exact holds.cells i items[i] (List.getElem?_eq_getElem inside)
  rw [queued,holds.count,List.filterMap_congr cell]
  clear cell holds
  induction items with
  | nil => rfl
  | cons x items ih =>
    rw [List.length_cons,List.range_succ_eq_map,List.filterMap_cons,List.filterMap_map]
    exact congrArg (x :: ·) ih

theorem showsRendered [Sample α] {z : Sizes} (callback : DspCallback σ α) {a : AdapterBuffer α} {v : View α}
    (shows : Shows z a v) (s : σ) :
    rendered callback a s = (callback.call s (padded z.block v.input) v.scratchOut).2.take v.input.length := by
  rw [rendered,holdsQueued shows.input,shows.size,shows.scratchOut,accumulated,shows.input.count]

theorem renderedCount [Sample α] {z : Sizes} (callback : DspCallback σ α) {a : AdapterBuffer α} {v : View α}
    (shows : Shows z a v) (s : σ) (short : v.input.length < z.block) :
    (rendered callback a s).length = v.input.length := by
  have size := callback.keepsLength s (padded z.block v.input) v.scratchOut
  rw [showsRendered callback shows,List.length_take,size,shows.scratchSize]
  omega

theorem flushedOutput [Sample α] {z : Sizes} (callback : DspCallback σ α) {a : AdapterBuffer α} {v : View α}
    (shows : Shows z a v) (s : σ) :
    (flushed z callback v s).2.2 =
      v.output ++ (rendered callback a s).take (z.capacity - v.output.length) := by
  rw [showsRendered callback shows]
  unfold flushed
  split
  · rename_i empty
    simp [empty]
  · rfl

/-- Both queues end empty in either case; only the accepted part of the remainder is returned. -/
theorem flushReturns [Sample α] {z : Sizes} (callback : DspCallback σ α) {a : AdapterBuffer α}
    (settled : Settled z a) (s : σ) :
    ∃ f, flush callback a s = .ok f ∧ accumulated f.adapter = 0 ∧ pendingOutput f.adapter = 0 ∧
      f.output = queued a.outputFifo ++ (rendered callback a s).take (z.capacity - pendingOutput a) ∧
      (queued a.outputFifo).length = pendingOutput a ∧ (rendered callback a s).length = accumulated a := by
  obtain ⟨v,shows⟩ := settled.shown
  have count : accumulated a = v.input.length := shows.input.count
  have pending : pendingOutput a = v.output.length := shows.output.count
  have short : v.input.length < z.block := by
    rw [← count]
    exact settled.short
  obtain ⟨b,hb,showsB⟩ := flushShows callback shows s short
  have flow := showsMeasure showsB
  rw [flushedForget] at flow
  refine ⟨_,hb,congrArg Flow.accumulated flow,congrArg Flow.pending flow,?_,?_,?_⟩
  · rw [flushedOutput callback shows,holdsQueued shows.output,pending]
  · rw [holdsQueued shows.output,pending]
  · rw [renderedCount callback shows s short,count]

theorem flushLosesNothingExact [Sample α] {block capacity : Nat} (positive : 0 < block)
    (room : 2 * block ≤ capacity) (s : σ) (ops : List (Op σ α)) (callback : DspCallback σ α) :
    ∃ h f, history block capacity s ops = .ok h ∧ flush callback h.adapter h.state = .ok f ∧
      (LosesNothing callback h.adapter h.state f ↔
        pendingOutput h.adapter + accumulated h.adapter ≤ capacity) := by
  let z : Sizes := ⟨block,capacity,positive,room⟩
  obtain ⟨h,ran,settled,_⟩ := historyFlow z s ops
  obtain ⟨f,flushes,inputEmpty,outputEmpty,samples,pending,tail⟩ := flushReturns callback settled h.state
  refine ⟨h,f,ran,flushes,?_⟩
  have count : f.output.length = pendingOutput h.adapter +
      min (capacity - pendingOutput h.adapter) (accumulated h.adapter) := by
    rw [samples,List.length_append,List.length_take,pending,tail]
  constructor
  · intro complete
    have all := complete.count
    obtain ⟨v,shows⟩ := settled.shown
    have fits : pendingOutput h.adapter ≤ capacity := by
      rw [pendingOutput,shows.output.count]
      exact shows.output.fits
    omega
  · intro fits
    refine ⟨by omega,?_,inputEmpty,outputEmpty⟩
    rw [samples,List.take_of_length_le]
    change _ ≤ capacity - _
    omega

theorem flushLosesNothingWithOutputPending : ∃ h f,
    history 3 6 () overflowOps = .ok h ∧ flush passthrough h.adapter h.state = .ok f ∧
      (LosesNothing passthrough h.adapter h.state f ↔ pendingOutput h.adapter + accumulated h.adapter ≤ 6) :=
  flushLosesNothingExact (by decide) (by decide) () overflowOps passthrough

def unreadOps : List (Op Unit Int) := [.host passthrough ⟨[1,2,3,4],[]⟩,.host passthrough ⟨[5],[]⟩]

/- The host gives two blocks and one sample and takes nothing: the fifth sample
is processed, does not fit and is gone. -/
theorem flushLosesUnreadTail : ∃ h f, history 2 4 () unreadOps = .ok h ∧
    flush passthrough h.adapter h.state = .ok f ∧ f.output = [1,2,3,4] ∧
    ¬ LosesNothing passthrough h.adapter h.state f := by
  have run : passes (history 2 4 () unreadOps) (fun h => passes (flush passthrough h.adapter h.state)
      (fun f => decide (f.output = [1,2,3,4] ∧ pendingOutput h.adapter + accumulated h.adapter = 5))) = true := by
    decide
  obtain ⟨h,ran,drained⟩ := passed run
  obtain ⟨f,flushes,facts⟩ := passed drained
  obtain ⟨output,count⟩ := of_decide_eq_true facts
  refine ⟨h,f,ran,flushes,output,?_⟩
  intro complete
  have all := complete.count
  rw [output,count] at all
  contradiction

end Riaps.AdapterFlush
