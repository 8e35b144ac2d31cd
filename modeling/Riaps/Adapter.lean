import Riaps.Library.Replay
import Riaps.SampleFifo

/-! Host-to-DSP block adaptation as the callback runs it, check by check. Sizes
are natural numbers: every counter is bounded by a slice or by an allocated ring,
and two blocks that saturate the multiplication of the constructor cannot be
allocated. The DSP callback carries its own state and sees the old contents of
the output block, as a closure over `&mut [f32]` does. -/
namespace Riaps.Adapter
open Library.Checks Library.Replay SampleFifo

structure AdapterProcessReport where
  acceptedInputSamples : Nat := 0
  droppedInputSamples : Nat := 0
  processedDspBlocks : Nat := 0
  droppedOutputSamples : Nat := 0
  underrunSamples : Nat := 0
  latencyAddedSamples : Nat := 0
  deriving DecidableEq, Repr

structure DspCallback (σ α : Type) where
  call : σ → List α → List α → σ × List α
  keepsLength : ∀ s i o, (call s i o).2.length = o.length

structure AdapterBuffer (α : Type) where
  inputFifo : Fifo α
  outputFifo : Fifo α
  scratchIn : List α
  scratchOut : List α
  targetBlockSize : Nat
  hostQuantum : Option Nat
  latencySamples : Nat
  deriving DecidableEq, Repr

variable {σ α : Type}

def new [Sample α] (targetBlockSize capacity : Nat) : Checked (AdapterBuffer α) := do
  ensure .assertion (0 < targetBlockSize)
  ensure .assertion (targetBlockSize * 2 ≤ capacity)
  let inputFifo ← SampleFifo.new capacity
  let outputFifo ← SampleFifo.new capacity
  .ok ⟨inputFifo,outputFifo,List.replicate targetBlockSize 0,List.replicate targetBlockSize 0,
    targetBlockSize,none,0⟩

def accumulated (a : AdapterBuffer α) : Nat := a.inputFifo.len
def pendingOutput (a : AdapterBuffer α) : Nat := a.outputFifo.len

def gcdLoop : Nat → Nat → Nat → Checked Nat
  | 0, _, _ => .error .unfinished
  | fuel+1, left, right => if right = 0 then .ok left else gcdLoop fuel right (left % right)

def greatestCommonDivisor (left right : Nat) : Checked Nat := gcdLoop (right + 1) left right

/- `none` is the early return of an unchanged quantum. -/
def requiredReserve (a : AdapterBuffer α) (hostQuantum : Nat) : Checked (Option Nat) :=
  match a.hostQuantum with
  | none => do
      let gcd ← greatestCommonDivisor hostQuantum a.targetBlockSize
      let reserve ← sub a.targetBlockSize gcd
      .ok (some reserve)
  | some previous =>
      if previous = hostQuantum then .ok none
      else do
        let reserve ← sub a.targetBlockSize 1
        .ok (some reserve)

def primeForQuantum [Sample α] (a : AdapterBuffer α) (hostQuantum : Nat) : Checked (AdapterBuffer α × Nat) := do
  if hostQuantum = 0 then .ok (a,0)
  else
    match ← requiredReserve a hostQuantum with
    | none => .ok (a,0)
    | some reserve => do
        let needed := reserve - a.outputFifo.len
        let (outputFifo,inserted) ← pushZeros a.outputFifo needed
        ensure .assertion (inserted = needed)
        .ok ({a with outputFifo := outputFifo, hostQuantum := some hostQuantum,
                     latencySamples := max a.latencySamples reserve},inserted)

def popInto (f : Fifo α) : List α → Checked (Fifo α × List α)
  | [] => .ok (f,[])
  | _ :: slots => do
      let (f,sample) ← pop f
      match sample with
      | none => .error .expect
      | some x => do
          let (f,rest) ← popInto f slots
          .ok (f,x :: rest)

def drainLoop (callback : DspCallback σ α) : Nat → AdapterBuffer α → σ → Nat → Nat →
    Checked (AdapterBuffer α × σ × Nat × Nat)
  | 0, _, _, _, _ => .error .unfinished
  | fuel+1, a, s, blocks, droppedOutput =>
      if a.targetBlockSize ≤ a.inputFifo.len then do
        let (inputFifo,scratchIn) ← popInto a.inputFifo a.scratchIn
        let (s,scratchOut) := callback.call s scratchIn a.scratchOut
        let (outputFifo,written) ← pushSlice a.outputFifo scratchOut
        let lost ← sub a.targetBlockSize written
        drainLoop callback fuel
          {a with inputFifo := inputFifo, outputFifo := outputFifo, scratchIn := scratchIn, scratchOut := scratchOut}
          s (blocks + 1) (droppedOutput + lost)
      else .ok (a,s,blocks,droppedOutput)

def drainCompleteBlocks (callback : DspCallback σ α) (a : AdapterBuffer α) (s : σ) :
    Checked (AdapterBuffer α × σ × Nat × Nat) := drainLoop callback (a.inputFifo.len + 1) a s 0 0

def writeOutputs [Sample α] (f : Fifo α) : List α → Checked (Fifo α × List α × Nat)
  | [] => .ok (f,[],0)
  | _ :: rest => do
      let (f,sample) ← pop f
      let (f,written,underrun) ← writeOutputs f rest
      match sample with
      | some value => .ok (f,value :: written,underrun)
      | none => .ok (f,Sample.underrun :: written,underrun + 1)

structure HostBlock (σ α : Type) where
  adapter : AdapterBuffer α
  state : σ
  output : List α
  report : AdapterProcessReport

def processHostBlock [Sample α] (callback : DspCallback σ α) (a : AdapterBuffer α) (s : σ)
    (hostInputs hostOutputs : List α) : Checked (HostBlock σ α) := do
  let (a,latency) ← primeForQuantum a hostOutputs.length
  let (inputFifo,accepted) ← pushSlice a.inputFifo hostInputs
  let droppedInput ← sub hostInputs.length accepted
  let (a,s,blocks,droppedOutput) ← drainCompleteBlocks callback {a with inputFifo := inputFifo} s
  let (outputFifo,written,underrun) ← writeOutputs a.outputFifo hostOutputs
  .ok ⟨{a with outputFifo := outputFifo},s,written,
    ⟨accepted,droppedInput,blocks,droppedOutput,underrun,latency⟩⟩

def popAll : Nat → Fifo α → Checked (Fifo α × List α)
  | 0, _ => .error .unfinished
  | fuel+1, f => do
      let (f,sample) ← pop f
      match sample with
      | none => .ok (f,[])
      | some x => do
          let (f,rest) ← popAll fuel f
          .ok (f,x :: rest)

def flushRemainder [Sample α] (callback : DspCallback σ α) (a : AdapterBuffer α) (s : σ) :
    Checked (AdapterBuffer α × σ) := do
  let remainder := a.inputFifo.len
  if 0 < remainder then
    ensure .assertion (remainder < a.targetBlockSize)
    ensure .index (remainder ≤ a.scratchIn.length)
    let (inputFifo,front) ← popInto a.inputFifo (a.scratchIn.take remainder)
    let scratchIn := front ++ List.replicate (a.scratchIn.length - remainder) 0
    let (s,scratchOut) := callback.call s scratchIn a.scratchOut
    ensure .index (remainder ≤ scratchOut.length)
    let (outputFifo,_) ← pushSlice a.outputFifo (scratchOut.take remainder)
    .ok ({a with inputFifo := inputFifo, outputFifo := outputFifo, scratchIn := scratchIn, scratchOut := scratchOut},s)
  else .ok (a,s)

structure Flushed (σ α : Type) where
  adapter : AdapterBuffer α
  state : σ
  output : List α

def flush [Sample α] (callback : DspCallback σ α) (a : AdapterBuffer α) (s : σ) : Checked (Flushed σ α) := do
  let (a,s) ← flushRemainder callback a s
  let (outputFifo,output) ← popAll (a.outputFifo.len + 1) a.outputFifo
  .ok ⟨{a with outputFifo := outputFifo},s,output⟩

structure HostCall (α : Type) where
  input : List α
  output : List α

structure Session (σ α : Type) where
  adapter : AdapterBuffer α
  state : σ
  blocks : List (HostBlock σ α)

def hostStep [Sample α] (callback : DspCallback σ α) : Perform (AdapterBuffer α × σ) (HostCall α) (HostBlock σ α) :=
  fun p c => do
    let b ← processHostBlock callback p.1 p.2 c.input c.output
    .ok ((b.adapter,b.state),b)

def processAll [Sample α] (callback : DspCallback σ α) (a : AdapterBuffer α) (s : σ) (calls : List (HostCall α)) :
    Checked (Session σ α) := do
  let ((a,s),blocks) ← replay (hostStep callback) (a,s) calls
  .ok ⟨a,s,blocks⟩

def session [Sample α] (targetBlockSize capacity : Nat) (callback : DspCallback σ α) (s : σ)
    (calls : List (HostCall α)) : Checked (Session σ α) := do
  let a ← new targetBlockSize capacity
  processAll callback a s calls

def Session.reports (r : Session σ α) : List AdapterProcessReport := r.blocks.map HostBlock.report

theorem hostStepOk [Sample α] {callback : DspCallback σ α} {p q : AdapterBuffer α × σ} {c : HostCall α}
    {b : HostBlock σ α} : hostStep callback p c = .ok (q,b) ↔
      processHostBlock callback p.1 p.2 c.input c.output = .ok b ∧ q = (b.adapter,b.state) := by
  constructor
  · intro ok
    obtain ⟨_,ran,last⟩ := bindOk ok
    cases Except.ok.inj last
    exact ⟨ran,rfl⟩
  · rintro ⟨ran,rfl⟩
    simp only [hostStep,ran,okBind]

theorem processAllOk [Sample α] {callback : DspCallback σ α} {a : AdapterBuffer α} {s : σ} {calls : List (HostCall α)}
    {r : Session σ α} : processAll callback a s calls = .ok r ↔
      replay (hostStep callback) (a,s) calls = .ok ((r.adapter,r.state),r.blocks) := by
  constructor
  · intro ok
    obtain ⟨_,ran,last⟩ := bindOk ok
    cases Except.ok.inj last
    exact ran
  · intro ran
    simp only [processAll,ran,okBind]

theorem processAllCons [Sample α] {callback : DspCallback σ α} {a : AdapterBuffer α} {s : σ} {c : HostCall α}
    {cs : List (HostCall α)} {r : Session σ α} : processAll callback a s (c :: cs) = .ok r ↔
      ∃ b rest, processHostBlock callback a s c.input c.output = .ok b ∧
        processAll callback b.adapter b.state cs = .ok rest ∧ r = {rest with blocks := b :: rest.blocks} := by
  constructor
  · intro ok
    obtain ⟨_,b,others,first,later,blocks⟩ := replaySplit (processAllOk.mp ok)
    obtain ⟨ran,rfl⟩ := hostStepOk.mp first
    exact ⟨b,⟨r.adapter,r.state,others⟩,ran,processAllOk.mpr later,by rw [← blocks]⟩
  · rintro ⟨b,rest,ran,later,rfl⟩
    exact processAllOk.mpr (replayCons (hostStepOk.mpr ⟨ran,rfl⟩) (processAllOk.mp later))

end Riaps.Adapter
