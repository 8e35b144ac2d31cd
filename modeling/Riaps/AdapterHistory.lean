import Riaps.AdapterQuantum

/-! Callbacks and flushes in any order, each with a closure of its own over one
state. No history of a fresh adapter ends in a panic, every call leaves less than
a block in the input queue, and the reports of the callbacks balance. Whatever
came before, callbacks of equal lengths that the queues have room for underrun
by less than one block in all. -/
namespace Riaps.AdapterHistory
open Library.Checks Library.Replay SampleFifo Adapter AdapterView AdapterFlow AdapterQuantum

inductive Op (σ α : Type) where
  | host (callback : DspCallback σ α) (call : HostCall α)
  | flush (callback : DspCallback σ α)

structure Done (σ α : Type) where
  adapter : AdapterBuffer α
  state : σ
  output : List α
  report : Option AdapterProcessReport

structure History (σ α : Type) where
  adapter : AdapterBuffer α
  state : σ
  steps : List (Done σ α)

variable {σ α : Type}

def perform [Sample α] (a : AdapterBuffer α) (s : σ) : Op σ α → Checked (Done σ α)
  | .host callback c => do
      let b ← processHostBlock callback a s c.input c.output
      .ok ⟨b.adapter,b.state,b.output,some b.report⟩
  | .flush callback => do
      let f ← flush callback a s
      .ok ⟨f.adapter,f.state,f.output,none⟩

def performStep [Sample α] : Perform (AdapterBuffer α × σ) (Op σ α) (Done σ α) := fun p op => do
  let d ← perform p.1 p.2 op
  .ok ((d.adapter,d.state),d)

def performAll [Sample α] (a : AdapterBuffer α) (s : σ) (ops : List (Op σ α)) : Checked (History σ α) := do
  let ((a,s),steps) ← replay performStep (a,s) ops
  .ok ⟨a,s,steps⟩

def history [Sample α] (targetBlockSize capacity : Nat) (s : σ) (ops : List (Op σ α)) : Checked (History σ α) := do
  let a ← new targetBlockSize capacity
  performAll a s ops

def History.reports (h : History σ α) : List AdapterProcessReport := h.steps.filterMap Done.report

def Op.isHost : Op σ α → Bool
  | .host _ _ => true
  | .flush _ => false

def Op.slots : Op σ α → Nat
  | .host _ c => c.output.length
  | .flush _ => 0

def total (field : AdapterProcessReport → Nat) (rs : List AdapterProcessReport) : Nat := (rs.map field).sum

inductive Move where
  | host (m n : Nat)
  | flush

def Op.move : Op σ α → Move
  | .host _ c => .host c.input.length c.output.length
  | .flush _ => .flush

def after (z : Sizes) (φ : Flow) : Move → Flow
  | .host m n => next z φ m n
  | .flush => {φ with accumulated := 0, pending := 0}

def told (z : Sizes) (φ : Flow) : Move → Option AdapterProcessReport
  | .host m n => some (report z φ m n)
  | .flush => none

def trace (z : Sizes) : Flow → List Move → List (Flow × Option AdapterProcessReport)
  | _, [] => []
  | φ, m :: ms => (after z φ m,told z φ m) :: trace z (after z φ m) ms

def reportsFrom (z : Sizes) (φ : Flow) (moves : List Move) : List AdapterProcessReport :=
  (trace z φ moves).filterMap Prod.snd

/-- What a call finds: an adapter of a view that has less than a block to process. -/
structure Settled (z : Sizes) (a : AdapterBuffer α) : Prop where
  shown : ∃ v, Shows z a v
  short : accumulated a < z.block

theorem flushedForget [Sample α] (z : Sizes) (callback : DspCallback σ α) (v : View α) (s : σ) :
    forget (flushed z callback v s).1 = {forget v with accumulated := 0, pending := 0} := by
  unfold flushed
  split
  · rename_i empty
    simp [forget,empty]
  · simp [forget]

theorem performFlow [Sample α] {z : Sizes} {a : AdapterBuffer α} (settled : Settled z a) (s : σ) (op : Op σ α) :
    ∃ d, perform a s op = .ok d ∧ Settled z d.adapter ∧ measure d.adapter = after z (measure a) op.move ∧
      d.report = told z (measure a) op.move := by
  obtain ⟨v,shows⟩ := settled.shown
  cases op with
  | host callback c =>
    obtain ⟨b,hb,showsB⟩ := hostShows callback shows s c.input c.output
    obtain ⟨moved,reported⟩ := hostForget z callback v s c.input c.output.length shows.scratchSize shows.output.fits
    have flow : measure b = next z (measure a) c.input.length c.output.length := by
      rw [showsMeasure showsB,moved,showsMeasure shows]
    have short : (measure b).accumulated < z.block := by
      rw [flow]
      exact nextPhase z (measure a) c.input.length c.output.length
    refine ⟨⟨b,_,_,some _⟩,by simp only [perform,hb,okBind]; rfl,⟨⟨_,showsB⟩,short⟩,flow,?_⟩
    simp only [Op.move,told,reported,showsMeasure shows]
  | flush callback =>
    have short : v.input.length < z.block := by
      rw [← shows.input.count]
      exact settled.short
    obtain ⟨b,hb,showsB⟩ := flushShows callback shows s short
    have flow : measure b = {measure a with accumulated := 0, pending := 0} := by
      rw [showsMeasure showsB,flushedForget,showsMeasure shows]
    have empty : accumulated b = 0 := congrArg Flow.accumulated flow
    exact ⟨⟨b,_,_,none⟩,by simp only [perform,hb,okBind]; rfl,⟨⟨_,showsB⟩,by rw [empty]; exact z.positive⟩,flow,rfl⟩

theorem performAllCons [Sample α] {a : AdapterBuffer α} {s : σ} {op : Op σ α} {ops : List (Op σ α)} {d : Done σ α}
    {h : History σ α} (first : perform a s op = .ok d) (later : performAll d.adapter d.state ops = .ok h) :
    performAll a s (op :: ops) = .ok {h with steps := d :: h.steps} := by
  have moved : performStep (a,s) op = .ok ((d.adapter,d.state),d) := by simp only [performStep,first,okBind]
  obtain ⟨_,ran,last⟩ := bindOk later
  cases Except.ok.inj last
  simp only [performAll,replayCons moved ran,okBind]

theorem performAllFlow [Sample α] {z : Sizes} {a : AdapterBuffer α} (settled : Settled z a) (s : σ)
    (ops : List (Op σ α)) :
    ∃ h, performAll a s ops = .ok h ∧ Settled z h.adapter ∧ (∀ d ∈ h.steps, accumulated d.adapter < z.block) ∧
      h.steps.map (fun d => (AdapterFlow.measure d.adapter,d.report)) = trace z (measure a) (ops.map Op.move) ∧
      measure h.adapter = (ops.map Op.move).foldl (after z) (measure a) := by
  induction ops generalizing a s with
  | nil => exact ⟨⟨a,s,[]⟩,rfl,settled,by simp,rfl,rfl⟩
  | cons op ops ih =>
    obtain ⟨d,hd,settledD,flow,reported⟩ := performFlow settled s op
    obtain ⟨h,hh,settledH,short,steps,last⟩ := ih settledD d.state
    refine ⟨{h with steps := d :: h.steps},performAllCons hd hh,settledH,?_,?_,?_⟩
    · exact List.forall_mem_cons.mpr ⟨settledD.short,short⟩
    · simp only [List.map_cons,trace,steps,flow,reported]
    · simp only [List.map_cons,List.foldl_cons,last,flow]

theorem newSettled [Sample α] (z : Sizes) :
    ∃ a : AdapterBuffer α, Adapter.new z.block z.capacity = .ok a ∧ Settled z a ∧ measure a = start := by
  obtain ⟨a,ha,shows⟩ := newShows (α := α) z
  have flow : measure a = start := showsMeasure shows
  have empty : accumulated a = 0 := congrArg Flow.accumulated flow
  exact ⟨a,ha,⟨⟨_,shows⟩,by rw [empty]; exact z.positive⟩,flow⟩

theorem historyFlow [Sample α] (z : Sizes) (s : σ) (ops : List (Op σ α)) :
    ∃ h, history z.block z.capacity s ops = .ok h ∧ Settled z h.adapter ∧
      (∀ d ∈ h.steps, accumulated d.adapter < z.block) ∧
      h.steps.map (fun d => (AdapterFlow.measure d.adapter,d.report)) = trace z start (ops.map Op.move) ∧
      measure h.adapter = (ops.map Op.move).foldl (after z) start := by
  obtain ⟨a,ha,settled,fresh⟩ := newSettled (α := α) z
  obtain ⟨h,hh,facts⟩ := performAllFlow settled s ops
  rw [fresh] at facts
  exact ⟨h,by simp only [history,ha,okBind,hh],facts⟩

theorem balanceNext (z : Sizes) (φ : Flow) (m n : Nat) :
    (report z φ m n).acceptedInputSamples + φ.accumulated =
      z.block * (report z φ m n).processedDspBlocks + (next z φ m n).accumulated ∧
    (report z φ m n).latencyAddedSamples + z.block * (report z φ m n).processedDspBlocks + φ.pending +
        (report z φ m n).underrunSamples =
      (report z φ m n).droppedOutputSamples + n + (next z φ m n).pending := by
  have split := Nat.mod_add_div' (φ.accumulated + accepted z φ m) z.block
  have order := Nat.mul_comm z.block ((φ.accumulated + accepted z φ m) / z.block)
  simp only [report,next,offered]
  omega

theorem balanceTrace (z : Sizes) (φ : Flow) (ops : List (Op σ α)) (hosts : ∀ op ∈ ops, op.isHost) :
    total AdapterProcessReport.acceptedInputSamples (reportsFrom z φ (ops.map Op.move)) + φ.accumulated =
      z.block * total AdapterProcessReport.processedDspBlocks (reportsFrom z φ (ops.map Op.move)) +
        ((ops.map Op.move).foldl (after z) φ).accumulated ∧
    total AdapterProcessReport.latencyAddedSamples (reportsFrom z φ (ops.map Op.move)) +
        z.block * total AdapterProcessReport.processedDspBlocks (reportsFrom z φ (ops.map Op.move)) + φ.pending +
        total AdapterProcessReport.underrunSamples (reportsFrom z φ (ops.map Op.move)) =
      total AdapterProcessReport.droppedOutputSamples (reportsFrom z φ (ops.map Op.move)) + (ops.map Op.slots).sum +
        ((ops.map Op.move).foldl (after z) φ).pending := by
  induction ops generalizing φ with
  | nil => simp [reportsFrom,trace,total]
  | cons op ops ih =>
    obtain ⟨here,later⟩ := List.forall_mem_cons.mp hosts
    cases op with
    | flush callback => contradiction
    | host callback c =>
      obtain ⟨inputs,outputs⟩ := balanceNext z φ c.input.length c.output.length
      obtain ⟨restInputs,restOutputs⟩ := ih (next z φ c.input.length c.output.length) later
      simp only [reportsFrom,List.map_cons,Op.move,trace,after,told,List.filterMap_cons,total,List.sum_cons,
        List.foldl_cons,Op.slots,Nat.mul_add] at restInputs restOutputs ⊢
      omega

theorem reportsOfTrace {z : Sizes} {φ : Flow} {h : History σ α} {moves : List Move}
    (flow : h.steps.map (fun d => (AdapterFlow.measure d.adapter,d.report)) = trace z φ moves) :
    h.reports = reportsFrom z φ moves := by
  rw [reportsFrom,← flow,List.filterMap_map]
  rfl

theorem reportsBalance [Sample α] {block capacity : Nat} (positive : 0 < block) (room : 2 * block ≤ capacity)
    (s : σ) (ops : List (Op σ α)) :
    ∃ h, history block capacity s ops = .ok h ∧ (∀ d ∈ h.steps, accumulated d.adapter < block) ∧
      ((∀ op ∈ ops, op.isHost) →
        total AdapterProcessReport.acceptedInputSamples h.reports =
          block * total AdapterProcessReport.processedDspBlocks h.reports + accumulated h.adapter ∧
        (total AdapterProcessReport.latencyAddedSamples h.reports : Int) +
            block * total AdapterProcessReport.processedDspBlocks h.reports -
            total AdapterProcessReport.droppedOutputSamples h.reports =
          (ops.map Op.slots).sum - total AdapterProcessReport.underrunSamples h.reports +
            pendingOutput h.adapter) := by
  let z : Sizes := ⟨block,capacity,positive,room⟩
  obtain ⟨h,ran,_,short,flow,last⟩ := historyFlow z s ops
  refine ⟨h,ran,short,?_⟩
  intro hosts
  obtain ⟨inputs,outputs⟩ := balanceTrace z start ops hosts
  rw [← reportsOfTrace flow,← last] at inputs outputs
  simp only [AdapterFlow.measure,start,Nat.add_zero,z] at inputs outputs
  exact ⟨inputs,by omega⟩

def overflowOps : List (Op Unit Int) :=
  [.host passthrough ⟨List.replicate 9 1,[0]⟩,.host passthrough ⟨[],List.replicate 8 0⟩,
    .host passthrough ⟨[1],[0]⟩]

theorem reportsBalanceAfterOverflow : ∃ h, history 3 6 () overflowOps = .ok h ∧
    (∀ d ∈ h.steps, accumulated d.adapter < 3) ∧
    total AdapterProcessReport.acceptedInputSamples h.reports =
      3 * total AdapterProcessReport.processedDspBlocks h.reports + accumulated h.adapter ∧
    (total AdapterProcessReport.latencyAddedSamples h.reports : Int) +
        3 * total AdapterProcessReport.processedDspBlocks h.reports -
        total AdapterProcessReport.droppedOutputSamples h.reports =
      (overflowOps.map Op.slots).sum - total AdapterProcessReport.underrunSamples h.reports +
        pendingOutput h.adapter := by
  obtain ⟨h,ran,short,balance⟩ := reportsBalance (show 0 < 3 by decide) (show 2 * 3 ≤ 6 by decide) () overflowOps
  exact ⟨h,ran,short,balance (by decide)⟩

def Op.Even (most : Nat) : Op σ α → Prop
  | .host _ c => c.input.length = c.output.length ∧ c.input.length ≤ most
  | .flush _ => False

instance (most) (op : Op σ α) : Decidable (op.Even most) := by unfold Op.Even; split <;> infer_instance

def secured (z : Sizes) (φ : Flow) : Nat := min φ.delay (z.block - 1)

/-- Every missing sample raises the delay of the stream by one, and a full output
queue leaves more delay behind than an underrun can ask for. -/
theorem securedNext {z : Sizes} {φ : Flow} (phase : φ.accumulated < z.block) {h : Nat}
    (room : h + z.block - 1 ≤ z.capacity) :
    (report z φ h h).underrunSamples + secured z φ ≤ secured z (next z φ h h) := by
  have split := Nat.mod_add_div' (φ.accumulated + h) z.block
  have less : (φ.accumulated + h) % z.block < z.block := Nat.mod_lt _ z.positive
  have taken : accepted z φ h = h := Nat.min_eq_left (by omega)
  simp only [report,next,offered,secured,Flow.delay,taken]
  omega

theorem securedTrace {z : Sizes} {φ : Flow} (phase : φ.accumulated < z.block) {most : Nat}
    (room : most + z.block - 1 ≤ z.capacity) (ops : List (Op σ α)) (even : ∀ op ∈ ops, op.Even most) :
    total AdapterProcessReport.underrunSamples (reportsFrom z φ (ops.map Op.move)) + secured z φ ≤
      z.block - 1 := by
  induction ops generalizing φ with
  | nil =>
    simp only [reportsFrom,List.map_nil,trace,List.filterMap_nil,total,List.sum_nil,Nat.zero_add]
    exact Nat.min_le_right _ _
  | cons op ops ih =>
    obtain ⟨here,later⟩ := List.forall_mem_cons.mp even
    cases op with
    | flush callback => contradiction
    | host callback c =>
      obtain ⟨equal,fits⟩ := here
      have step := securedNext phase (show c.output.length + z.block - 1 ≤ z.capacity by omega)
      have rest := ih (nextPhase z φ c.output.length c.output.length) later
      simp only [reportsFrom,List.map_cons,Op.move,equal,trace,after,told,List.filterMap_cons,total,List.sum_cons] at rest ⊢
      omega

theorem underrunsBounded [Sample α] {block capacity most : Nat} (positive : 0 < block)
    (room : max (2 * block) (most + block - 1) ≤ capacity) (s : σ) (before continuation : List (Op σ α))
    (even : ∀ op ∈ continuation, op.Even most) :
    ∃ h g, history block capacity s before = .ok h ∧ performAll h.adapter h.state continuation = .ok g ∧
      total AdapterProcessReport.underrunSamples g.reports ≤ block - 1 := by
  let z : Sizes := ⟨block,capacity,positive,by omega⟩
  obtain ⟨h,ran,settled,_⟩ := historyFlow z s before
  obtain ⟨g,continued,_,_,flow,_⟩ := performAllFlow settled h.state continuation
  have phase : (measure h.adapter).accumulated < z.block := settled.short
  have fits : most + z.block - 1 ≤ z.capacity := le_trans (Nat.le_max_right _ _) room
  have bound := securedTrace phase fits continuation even
  rw [← reportsOfTrace flow] at bound
  exact ⟨h,g,ran,continued,Nat.le_of_add_right_le bound⟩

theorem underrunsBoundedAfterDrain : ∃ h g,
    history 3 6 () (overflowOps ++ [.flush passthrough]) = .ok h ∧
    performAll h.adapter h.state ([1,1,1,2,1].map (fun n => .host passthrough (hostCall n))) = .ok g ∧
      total AdapterProcessReport.underrunSamples g.reports ≤ 3 - 1 :=
  underrunsBounded (by decide) (show max (2 * 3) (2 + 3 - 1) ≤ 6 by decide) () _ _ (by decide)

end Riaps.AdapterHistory
