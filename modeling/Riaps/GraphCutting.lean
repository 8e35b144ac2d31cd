import Riaps.GraphMeaning
import Riaps.Library.Replay

/-! Graphs of nodes that work sample by sample. The outputs of all nodes and
their states after a stream are the one solution of the equations of the edges,
and solutions for two pieces of a stream add up to one for both together. The
block boundaries of the calls leave no trace in either. -/
namespace Riaps.Graph
open Library.Checks Library.Tables Library.Topological Library.Replay

def ticks {σ α : Type} (tick : σ → α → σ × α) : σ → List α → σ × List α
  | s,[] => (s,[])
  | s,x :: xs => ((ticks tick (tick s x).1 xs).1,(tick s x).2 :: (ticks tick (tick s x).1 xs).2)

/-- A node reads no context and writes every output sample, one for each input sample. -/
def BySample {σ α : Type} (methods : DspNode σ α) (tick : σ → α → σ × α) : Prop :=
  ∀ node inputs outputs ctx, outputs.length = inputs.length →
    methods.process node inputs outputs ctx = ticks tick node inputs

structure Block (α : Type) where
  input : List α
  output : List α
  ctx : ProcessContext

def Block.Within {α : Type} (maxBlock : Nat) (c : Block α) : Prop :=
  c.output.length = c.input.length ∧ c.input.length ≤ maxBlock

instance {α : Type} (maxBlock) (c : Block α) : Decidable (c.Within maxBlock) := by unfold Block.Within; infer_instance

structure Streamed (σ α : Type) where
  graph : DspGraphInner σ α
  output : List α
  deriving DecidableEq, Repr

def processBlock {σ α : Type} [Zero α] [Add α] (w : Nat) (methods : DspNode σ α) :
    Perform (DspGraphInner σ α) (Block α) (List α) := fun g c => do
  let done ← process w methods g c.input c.output c.ctx
  return (done.graph,done.output)

def processBlocks {σ α : Type} [Zero α] [Add α] (w : Nat) (methods : DspNode σ α) (blocks : List (Block α))
    (g : DspGraphInner σ α) : Checked (Streamed σ α) := do
  let (g,outputs) ← replay (processBlock w methods) g blocks
  return ⟨g,outputs.flatten⟩

def sinksOf {σ : Type} (b : DynamicGraphBuilder σ) : List Nat :=
  (List.range b.nodes.length).filter (fun v => (successorsOf b.connections v).isEmpty)

theorem sinksInside {σ : Type} {b : DynamicGraphBuilder σ} {v : Nat} (sink : v ∈ sinksOf b) : v < b.nodes.length :=
  List.mem_range.mp (List.mem_filter.mp sink).1

section Blocks
variable {σ α : Type} [Zero α] [Add α] {w : Nat} {methods : DspNode σ α} {g : DspGraphInner σ α}

theorem processBlockOk {c : Block α} {g' : DspGraphInner σ α} {output : List α} :
    processBlock w methods g c = .ok (g',output) ↔
      ∃ r, process w methods g c.input c.output c.ctx = .ok r ∧ g' = r.graph ∧ output = r.output := by
  constructor
  · intro ok
    obtain ⟨r,done,last⟩ := bindOk ok
    cases Except.ok.inj last
    exact ⟨r,done,rfl,rfl⟩
  · rintro ⟨r,done,rfl,rfl⟩
    simp only [processBlock,done,okBind]
    rfl

theorem processBlocksOk {blocks : List (Block α)} {r : Streamed σ α} :
    processBlocks w methods blocks g = .ok r ↔
      ∃ outputs, replay (processBlock w methods) g blocks = .ok (r.graph,outputs) ∧ r.output = outputs.flatten := by
  constructor
  · intro ok
    obtain ⟨⟨g',outputs⟩,ran,last⟩ := bindOk ok
    cases Except.ok.inj last
    exact ⟨outputs,ran,rfl⟩
  · rintro ⟨outputs,ran,flat⟩
    simp only [processBlocks,ran,okBind,← flat]
    rfl

theorem processBlocksCons {c : Block α} {rest : List (Block α)} {r : Streamed σ α} :
    processBlocks w methods (c :: rest) g = .ok r ↔ ∃ done later, process w methods g c.input c.output c.ctx = .ok done ∧
      processBlocks w methods rest done.graph = .ok later ∧ r = ⟨later.graph,done.output ++ later.output⟩ := by
  constructor
  · intro ok
    obtain ⟨_,ran,flat⟩ := processBlocksOk.mp ok
    obtain ⟨_,_,others,first,later,rfl⟩ := replaySplit ran
    obtain ⟨done,once,rfl,rfl⟩ := processBlockOk.mp first
    exact ⟨done,⟨r.graph,others.flatten⟩,once,processBlocksOk.mpr ⟨others,later,rfl⟩,
      by rw [← List.flatten_cons,← flat]⟩
  · rintro ⟨done,later,once,rest,rfl⟩
    obtain ⟨others,ran,flat⟩ := processBlocksOk.mp rest
    exact processBlocksOk.mpr ⟨_,replayCons (processBlockOk.mpr ⟨done,once,rfl,rfl⟩) ran,by rw [List.flatten_cons,flat]⟩

end Blocks

section Ticks
variable {σ α : Type} (tick : σ → α → σ × α)

theorem ticksAppend (s : σ) (xs ys : List α) : ticks tick s (xs ++ ys) =
    ((ticks tick (ticks tick s xs).1 ys).1,(ticks tick s xs).2 ++ (ticks tick (ticks tick s xs).1 ys).2) := by
  induction xs generalizing s with
  | nil => rfl
  | cons x xs ih => simp only [List.cons_append,ticks,ih]

theorem ticksLength (s : σ) (xs : List α) : (ticks tick s xs).2.length = xs.length := by
  induction xs generalizing s with
  | nil => rfl
  | cons x xs ih => simp only [ticks,List.length_cons,ih]

end Ticks

theorem mixedFromAppend {α ν : Type} [Add α] {left right : List α} {sources : List ν} {outs outs' : ν → List α}
    (full : ∀ u ∈ sources, (outs u).length = left.length) :
    mixedFrom (left ++ right) (sources.map (fun u => outs u ++ outs' u)) =
      mixedFrom left (sources.map outs) ++ mixedFrom right (sources.map outs') := by
  induction sources generalizing left right with
  | nil => rfl
  | cons u sources ih =>
    have here := full u List.mem_cons_self
    have joined : List.zipWith (· + ·) (left ++ right) (outs u ++ outs' u) =
        List.zipWith (· + ·) left (outs u) ++ List.zipWith (· + ·) right (outs' u) :=
      List.zipWith_append here.symm
    simp only [mixedFrom,List.map_cons,List.foldl_cons,joined] at ih ⊢
    exact ih (fun x mem => by simp [here,full x (List.mem_cons_of_mem u mem)])

theorem mixedAppend {α ν : Type} [Zero α] [Add α] {m n : Nat} {sources : List ν} {outs outs' : ν → List α}
    (full : ∀ u ∈ sources, (outs u).length = m) :
    mixed (m + n) (sources.map (fun u => outs u ++ outs' u)) =
      mixed m (sources.map outs) ++ mixed n (sources.map outs') := by
  unfold mixed
  rw [← List.replicate_append_replicate]
  exact mixedFromAppend (by simpa using full)

section Solving
variable {σ α : Type} [Zero α] [Add α] {b : DynamicGraphBuilder σ} {tick : σ → α → σ × α}

structure Solves (tick : σ → α → σ × α) (b : DynamicGraphBuilder σ) (input : List α) (states states' : List σ)
    (outs : Nat → List α) : Prop where
  count : states'.length = b.nodes.length
  full : ∀ v, v < b.nodes.length → (outs v).length = input.length
  each : ∀ v, v < b.nodes.length → ∃ old new, states[v]? = some old ∧ states'[v]? = some new ∧
    ticks tick old (fed b input.length input outs v) = (new,outs v)

theorem fedLength (good : WellFormed b) {input : List α} {outs : Nat → List α}
    (full : ∀ v, v < b.nodes.length → (outs v).length = input.length) (v : Nat) :
    (fed b input.length input outs v).length = input.length := by
  unfold fed
  split
  · simp
  · refine mixedFromLength List.length_replicate ?_
    intro row mem
    obtain ⟨u,listed,rfl⟩ := List.mem_map.mp mem
    exact full u (good.inside _ (memPredecessors.mp listed)).1

theorem solvesNothing (good : WellFormed b) {states : List σ} (count : states.length = b.nodes.length) :
    Solves tick b [] states states (fun _ => []) := by
  refine ⟨count,fun _ _ => rfl,?_⟩
  intro v low
  have present := List.getElem?_eq_getElem (count ▸ low)
  have empty : (fed b ([] : List α).length [] (fun _ => []) v).length = 0 := fedLength good (by simp) v
  exact ⟨_,_,present,present,by rw [List.length_eq_zero_iff.mp empty]; rfl⟩

theorem fedAppend (good : WellFormed b) {xs ys : List α} {outs outs' : Nat → List α}
    (full : ∀ v, v < b.nodes.length → (outs v).length = xs.length) (v : Nat) :
    fed b (xs ++ ys).length (xs ++ ys) (fun u => outs u ++ outs' u) v =
      fed b xs.length xs outs v ++ fed b ys.length ys outs' v := by
  unfold fed
  split
  · simp
  · rw [List.length_append]
    exact mixedAppend (fun u mem => full u (good.inside _ (memPredecessors.mp mem)).1)

theorem solvesAppend (good : WellFormed b) {xs ys : List α} {states states' states'' : List σ}
    {outs outs' : Nat → List α} (first : Solves tick b xs states states' outs)
    (second : Solves tick b ys states' states'' outs') :
    Solves tick b (xs ++ ys) states states'' (fun v => outs v ++ outs' v) := by
  refine ⟨second.count,?_,?_⟩
  · intro v low
    rw [List.length_append,List.length_append,first.full v low,second.full v low]
  · intro v low
    obtain ⟨old,middle,hOld,hMiddle,before⟩ := first.each v low
    obtain ⟨middle',new,hMiddle',hNew,after⟩ := second.each v low
    cases Option.some.inj (hMiddle.symm.trans hMiddle')
    refine ⟨old,new,hOld,hNew,?_⟩
    rw [fedAppend good first.full,ticksAppend,before,after]

theorem solvesUnique {order : List Nat} (scheduled : Scheduled (Edge b.connections) order)
    (all : order.Perm (List.range b.nodes.length)) {input : List α} {states left right : List σ}
    {outs outs' : Nat → List α} (one : Solves tick b input states left outs)
    (two : Solves tick b input states right outs') :
    left = right ∧ ∀ v, v < b.nodes.length → outs v = outs' v := by
  have listed : ∀ v, v ∈ order ↔ v < b.nodes.length := fun v => all.mem_iff.trans List.mem_range
  have same : ∀ v ∈ order, outs v = outs' v ∧ left[v]? = right[v]? := by
    refine scheduledInduction scheduled ?_
    intro v mem ready
    obtain ⟨old,new,hOld,hNew,runs⟩ := one.each v ((listed v).mp mem)
    obtain ⟨old',new',hOld',hNew',runs'⟩ := two.each v ((listed v).mp mem)
    cases Option.some.inj (hOld.symm.trans hOld')
    rw [fedCongr (fun u before => (ready u (memPredecessors.mp before)).1),runs'] at runs
    obtain ⟨final,output⟩ := Prod.mk.inj runs
    exact ⟨output.symm,by rw [hNew,hNew',final]⟩
  constructor
  · apply List.ext_getElem?
    intro v
    by_cases low : v < b.nodes.length
    · exact (same v ((listed v).mpr low)).2
    · rw [List.getElem?_eq_none (by rw [one.count]; omega),List.getElem?_eq_none (by rw [two.count]; omega)]
  · exact fun v low => (same v ((listed v).mpr low)).1

omit [Zero α] [Add α] in
theorem bySampleOverwrites {methods : DspNode σ α} (bySample : BySample methods tick) : Overwrites methods := by
  intro node inputs before after ctx first second
  rw [bySample node inputs before ctx first,bySample node inputs after ctx second]

theorem servedSolves {methods : DspNode σ α} (bySample : BySample methods tick) (good : WellFormed b) {input : List α}
    {ctx : ProcessContext} {states states' : List σ} {outs : Nat → List α} {calls : List (Call α)}
    (count : states'.length = b.nodes.length)
    (all : ∀ v, v < b.nodes.length → ∃ c ∈ calls, c.node = v)
    (full : ∀ c ∈ calls, c.output.length = input.length)
    (served : ∀ c ∈ calls, Served methods b input.length input ctx states outs states' c) :
    Solves tick b input states states' outs := by
  have lengths : ∀ v, v < b.nodes.length → (outs v).length = input.length := by
    intro v low
    obtain ⟨c,mem,rfl⟩ := all v low
    rw [(served c mem).output]
    exact full c mem
  refine ⟨count,lengths,?_⟩
  intro v low
  obtain ⟨c,mem,rfl⟩ := all v low
  obtain ⟨old,new,hOld,hNew,runs⟩ := (served c mem).state
  have done := runs (List.replicate input.length 0) List.length_replicate
  rw [(served c mem).input,bySample _ _ _ _ (by rw [List.length_replicate,fedLength good lengths]),
    ← (served c mem).output] at done
  exact ⟨old,new,hOld,hNew,done⟩

structure Allocated (b : DynamicGraphBuilder σ) (outputs mix : List α) : Prop where
  outputs : outputs.length = b.nodes.length * b.maxBlock
  mix : mix.length = b.maxBlock

theorem processSolves {w : Nat} {methods : DspNode σ α} (bySample : BySample methods tick) (good : WellFormed b)
    {order : List Nat} (kahn : Kahn b.nodes.length b.connections order []) (all : order.length = b.nodes.length)
    (small : b.nodes.length * b.maxBlock < 2^w) {states : List σ} {outputs mix : List α}
    (count : states.length = b.nodes.length) (allocated : Allocated b outputs mix) {c : Block α}
    (within : c.Within b.maxBlock) :
    ∃ states' outputs' mix' calls outs,
      process w methods (onBuffers (compiled w methods b order) states outputs mix) c.input c.output c.ctx =
        .ok ⟨onBuffers (compiled w methods b order) states' outputs' mix',
          mixed c.input.length ((sinksOf b).map outs),calls⟩ ∧
      Allocated b outputs' mix' ∧ Solves tick b c.input states states' outs := by
  obtain ⟨equal,fits⟩ := within
  obtain ⟨states',outputs',mix',calls,outs,ran,stateCount,outputCount,mixCount,listed,full,served⟩ :=
    compiledServed good kahn small (bySampleOverwrites bySample) count allocated.outputs allocated.mix c.input c.output
      c.ctx (show c.input.length = _ by omega)
  rw [equal,Nat.sub_self,List.replicate_zero,List.append_nil] at ran
  refine ⟨states',outputs',mix',calls,outs,ran,⟨outputCount,mixCount⟩,servedSolves bySample good stateCount ?_ full served⟩
  intro v low
  have mem : v ∈ calls.map Call.node := by
    rw [listed]
    exact (kahn.permutes all).mem_iff.mpr (List.mem_range.mpr low)
  simpa using mem

theorem processBlocksSolves {w : Nat} {methods : DspNode σ α} (bySample : BySample methods tick) (good : WellFormed b)
    {order : List Nat} (kahn : Kahn b.nodes.length b.connections order []) (all : order.length = b.nodes.length)
    (small : b.nodes.length * b.maxBlock < 2^w) {states : List σ} {outputs mix : List α}
    (count : states.length = b.nodes.length) (allocated : Allocated b outputs mix) (blocks : List (Block α))
    (within : ∀ c ∈ blocks, c.Within b.maxBlock) :
    ∃ r outs, processBlocks w methods blocks (onBuffers (compiled w methods b order) states outputs mix) = .ok r ∧
      r.output = mixed (blocks.flatMap Block.input).length ((sinksOf b).map outs) ∧
      Solves tick b (blocks.flatMap Block.input) states r.graph.nodes outs := by
  induction blocks generalizing states outputs mix with
  | nil =>
    have silent : mixed 0 ((sinksOf b).map (fun _ => ([] : List α))) = [] :=
      List.length_eq_zero_iff.mp (mixedFromLength rfl (by simp))
    exact ⟨_,_,rfl,silent.symm,solvesNothing good count⟩
  | cons c rest ih =>
    obtain ⟨here,later⟩ := List.forall_mem_cons.mp within
    obtain ⟨states',outputs',mix',calls,outs,done,allocated',solved⟩ :=
      processSolves bySample good kahn all small count allocated here
    obtain ⟨r,outs',ran,output,solves⟩ := ih solved.count allocated' later
    refine ⟨⟨r.graph,_⟩,fun v => outs v ++ outs' v,processBlocksCons.mpr ⟨_,r,done,ran,rfl⟩,?_,?_⟩
    · rw [List.flatMap_cons,List.length_append,output]
      refine (mixedAppend ?_).symm
      exact fun u sink => solved.full u (sinksInside sink)
    · exact solvesAppend good solved solves

theorem cuttingsAgree {w : Nat} {methods : DspNode σ α} (bySample : BySample methods tick) (good : WellFormed b)
    {order : List Nat} (kahn : Kahn b.nodes.length b.connections order []) (all : order.length = b.nodes.length)
    (small : b.nodes.length * b.maxBlock < 2^w) {states : List σ} {outputs mix : List α}
    (count : states.length = b.nodes.length) (allocated : Allocated b outputs mix) (left right : List (Block α))
    (leftWithin : ∀ c ∈ left, c.Within b.maxBlock) (rightWithin : ∀ c ∈ right, c.Within b.maxBlock)
    (same : left.flatMap Block.input = right.flatMap Block.input) :
    ∃ l r, processBlocks w methods left (onBuffers (compiled w methods b order) states outputs mix) = .ok l ∧
      processBlocks w methods right (onBuffers (compiled w methods b order) states outputs mix) = .ok r ∧
      l.output = r.output ∧ l.graph.nodes = r.graph.nodes := by
  obtain ⟨l,outs,ranL,outputL,solvesL⟩ := processBlocksSolves bySample good kahn all small count allocated left leftWithin
  obtain ⟨r,outs',ranR,outputR,solvesR⟩ :=
    processBlocksSolves bySample good kahn all small count allocated right rightWithin
  rw [← same] at outputR solvesR
  obtain ⟨nodes,agree⟩ := solvesUnique kahn.scheduled (kahn.permutes all) solvesL solvesR
  refine ⟨l,r,ranL,ranR,?_,nodes⟩
  have sinks : (sinksOf b).map outs = (sinksOf b).map outs' :=
    List.map_congr_left (fun u sink => agree u (sinksInside sink))
  rw [outputL,outputR,sinks]

theorem cutsImmaterial {w maxBlock : Nat} {methods : DspNode σ α} (bySample : BySample methods tick)
    {g : DspGraphInner σ α} (built : Built maxBlock b) (ok : compile w methods b = .ok (.ok g)) {states : List σ}
    {outputs mix : List α} (stateCount : states.length = b.nodes.length)
    (outputCount : outputs.length = b.nodes.length * maxBlock) (mixCount : mix.length = maxBlock) :
    (∀ (xs ys out outX outY : List α) (ctx ctxX ctxY : ProcessContext), xs.length + ys.length ≤ maxBlock →
      out.length = (xs ++ ys).length → outX.length = xs.length → outY.length = ys.length →
      ∃ whole first second, process w methods (onBuffers g states outputs mix) (xs ++ ys) out ctx = .ok whole ∧
        process w methods (onBuffers g states outputs mix) xs outX ctxX = .ok first ∧
        process w methods first.graph ys outY ctxY = .ok second ∧
        whole.output = first.output ++ second.output ∧ whole.graph.nodes = second.graph.nodes) ∧
    (∀ left right : List (Block α), (∀ c ∈ left, c.Within maxBlock) → (∀ c ∈ right, c.Within maxBlock) →
      left.flatMap Block.input = right.flatMap Block.input →
      ∃ l r, processBlocks w methods left (onBuffers g states outputs mix) = .ok l ∧
        processBlocks w methods right (onBuffers g states outputs mix) = .ok r ∧
        l.output = r.output ∧ l.graph.nodes = r.graph.nodes) := by
  obtain ⟨good,rfl⟩ := builtWellFormed built
  obtain ⟨order,kahn,all,small,rfl⟩ := compileAccepted w methods good ok
  have allocated : Allocated b outputs mix := ⟨outputCount,mixCount⟩
  have cuttings := cuttingsAgree bySample good kahn all small stateCount allocated
  refine ⟨?_,cuttings⟩
  intro xs ys out outX outY ctx ctxX ctxY fits full fullX fullY
  have joined : ∀ c ∈ [(⟨xs ++ ys,out,ctx⟩ : Block α)], c.Within b.maxBlock := by simpa [Block.Within,full] using fits
  have parted : ∀ c ∈ [(⟨xs,outX,ctxX⟩ : Block α),⟨ys,outY,ctxY⟩], c.Within b.maxBlock := by
    simp only [List.forall_mem_cons,Block.Within,fullX,fullY,true_and]
    exact ⟨by omega,by omega,by simp⟩
  obtain ⟨l,r,ranL,ranR,output,nodes⟩ := cuttings _ _ joined parted (by simp)
  obtain ⟨whole,_,once,⟨⟩,rfl⟩ := processBlocksCons.mp ranL
  obtain ⟨first,rest,before,ranRest,rfl⟩ := processBlocksCons.mp ranR
  obtain ⟨second,_,after,⟨⟩,rfl⟩ := processBlocksCons.mp ranRest
  exact ⟨whole,first,second,once,before,after,by simpa using output,nodes⟩

end Solving

theorem summingLength (sum : Int) (inputs outputs : List Int) :
    ((ticks (fun s x => (s + x,s + x)) sum (inputs.take outputs.length)).2 ++ outputs.drop inputs.length).length =
      outputs.length := by
  simp only [List.length_append,ticksLength,List.length_take,List.length_drop]
  omega

def summing : DspNode Int Int where
  process := fun sum inputs outputs _ =>
    ((ticks (fun s x => (s + x,s + x)) sum (inputs.take outputs.length)).1,
      (ticks (fun s x => (s + x,s + x)) sum (inputs.take outputs.length)).2 ++ outputs.drop inputs.length)
  keepsLength := fun sum inputs outputs _ => summingLength sum inputs outputs
  latencySamples := fun _ => 0

theorem summingBySample : BySample summing (fun s x => (s + x,s + x)) := by
  intro sum inputs outputs ctx same
  simp [summing,same,List.drop_of_length_le same.le]

def summingBlocks (inputs : List (List Int)) : List (Block Int) :=
  inputs.map (fun xs => ⟨xs,xs.map (fun _ => 9),⟨48000,xs.length⟩⟩)

theorem cutsImmaterialRewired :
    ∃ g l r, compile 8 summing ⟨[4,8,32],[(2,1),(0,1)],3⟩ = .ok (.ok g) ∧
      processBlocks 8 summing (summingBlocks [[10,20],[30,40,50]]) (onBuffers g [1,2,3] (List.replicate 9 77) [5,5,5]) =
        .ok l ∧
      processBlocks 8 summing (summingBlocks [[10],[20,30,40],[],[50]])
        (onBuffers g [1,2,3] (List.replicate 9 77) [5,5,5]) = .ok r ∧
      l.output = r.output ∧ l.graph.nodes = r.graph.nodes ∧ l.graph.nodes = [151,722,153] := by
  have built : Built 3 (⟨[4,8,32],[(2,1),(0,1)],3⟩ : DynamicGraphBuilder Int) :=
    ⟨⟨[],[],3⟩,[.addNode 4,.addNode 8,.addNode 32,.connect ⟨2⟩ ⟨1⟩,.connect ⟨0⟩ ⟨1⟩],rfl,rfl⟩
  have run : compile 8 summing ⟨[4,8,32],[(2,1),(0,1)],3⟩ = .ok (.ok ⟨[4,8,32],[0,2,1],[[],[2,0],[]],[1],
      List.replicate 9 0,List.replicate 3 0,3,0⟩) := rfl
  have stateCount : [(1 : Int),2,3].length = [(4 : Int),8,32].length := rfl
  have outputCount : (List.replicate 9 (77 : Int)).length = [(4 : Int),8,32].length * 3 := rfl
  have mixCount : [(5 : Int),5,5].length = 3 := rfl
  obtain ⟨_,cuttings⟩ := cutsImmaterial summingBySample built run stateCount outputCount mixCount
  obtain ⟨l,r,left,right,output,nodes⟩ := cuttings (summingBlocks [[10,20],[30,40,50]])
    (summingBlocks [[10],[20,30,40],[],[50]]) (by decide) (by decide) rfl
  have tested : passes (processBlocks 8 summing (summingBlocks [[10,20],[30,40,50]]) (onBuffers ⟨[4,8,32],[0,2,1],
      [[],[2,0],[]],[1],List.replicate 9 0,List.replicate 3 0,3,0⟩ [1,2,3] (List.replicate 9 77) [5,5,5]))
      (fun r => decide (r.graph.nodes = [151,722,153])) = true := by decide
  obtain ⟨l',ran,final⟩ := passed tested
  cases Except.ok.inj (left.symm.trans ran)
  exact ⟨_,l,r,run,left,right,output,nodes,of_decide_eq_true final⟩

end Riaps.Graph
