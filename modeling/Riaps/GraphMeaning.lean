import Riaps.GraphSchedule
import Riaps.Library.Regions

/-! One block through a compiled graph is the meaning of its edges. The outputs of
all nodes share one flat buffer that is never cleared; a node reads only regions
that were written in this same call, because its predecessors come earlier in
the order and the regions do not overlap. -/
namespace Riaps.Graph
open Library.Checks Library.Tables Library.Topological Library.Regions

def mixedFrom {α : Type} [Add α] (front : List α) (rows : List (List α)) : List α :=
  rows.foldl (List.zipWith (· + ·)) front

def mixed {α : Type} [Zero α] [Add α] (count : Nat) (rows : List (List α)) : List α :=
  mixedFrom (List.replicate count 0) rows

theorem mixedFromLength {α : Type} [Add α] {count : Nat} {front : List α} {rows : List (List α)}
    (size : front.length = count) (full : ∀ row ∈ rows, row.length = count) : (mixedFrom front rows).length = count := by
  induction rows generalizing front with
  | nil => exact size
  | cons row rows ih =>
    exact ih (by simp [size,full row List.mem_cons_self]) (fun r mem => full r (List.mem_cons_of_mem row mem))

theorem regionOk {w n block count index : Nat} (small : n * block < 2^w) (fits : count ≤ block) (bound : index < n) :
    index * block < 2^w ∧ index * block + count < 2^w ∧ index * block + count ≤ n * block := by
  have inside := regionInside bound fits
  omega

theorem sliceRegion {α : Type} {outputs : List α} {block count index : Nat}
    (inside : index * block + count ≤ outputs.length) :
    slice outputs (index * block) (index * block + count) = .ok (region block count outputs index) := by
  rw [sliceOk (Nat.le_add_right _ _) inside,Nat.add_sub_cancel_left]
  rfl

theorem gatherOk {α : Type} [Add α] {w n block count : Nat} {outputs : List α} (small : n * block < 2^w)
    (size : outputs.length = n * block) (fits : count ≤ block) {sources : List Nat} (bound : ∀ u ∈ sources, u < n)
    {front : List α} (full : front.length = count) (rest : List α) :
    gather w block count outputs sources (front ++ rest) =
      .ok (mixedFrom front (sources.map (region block count outputs)) ++ rest) := by
  induction sources generalizing front with
  | nil => rfl
  | cons source others ih =>
    have low := bound source List.mem_cons_self
    obtain ⟨start,stop,inside⟩ := regionOk small fits low
    have room : count ≤ (front ++ rest).length := by simp; omega
    have length := regionLength size low fits
    simp only [gather,mulOk start,addOk stop,sliceRegion (size ▸ inside),sliceFront room,spliceFront _ room,okBind]
    rw [List.take_left' full,List.drop_left' full,ih (fun u mem => bound u (List.mem_cons_of_mem source mem))
      (by simp [full,length])]
    rfl

section Running
variable {σ α : Type} {w : Nat} {b : DynamicGraphBuilder σ}

structure Fits (w : Nat) (b : DynamicGraphBuilder σ) (g : DspGraphInner σ α) : Prop where
  nodes : g.nodes.length = b.nodes.length
  outputs : g.nodeOutputs.length = b.nodes.length * b.maxBlock
  mix : g.mixBuffer.length = b.maxBlock
  block : g.maxBlock = b.maxBlock
  predecessors : g.predecessors = table b.nodes.length (predecessorsOf b.connections)
  small : b.nodes.length * b.maxBlock < 2^w

def fed [Zero α] [Add α] (b : DynamicGraphBuilder σ) (count : Nat) (input : List α) (outs : Nat → List α) (v : Nat) :
    List α :=
  if predecessorsOf b.connections v = [] then input.take count
  else mixed count ((predecessorsOf b.connections v).map outs)

/- The same plan over node states and buffers that may hold anything. -/
def onBuffers (g : DspGraphInner σ α) (nodes : List σ) (outputs mix : List α) : DspGraphInner σ α :=
  {g with nodes := nodes, nodeOutputs := outputs, mixBuffer := mix}

@[simp] theorem onBuffersTwice (g : DspGraphInner σ α) (nodes nodes' : List σ) (outputs outputs' mix mix' : List α) :
    onBuffers (onBuffers g nodes outputs mix) nodes' outputs' mix' = onBuffers g nodes' outputs' mix' := rfl

theorem runNodeOk [Zero α] [Add α] (methods : DspNode σ α) {g : DspGraphInner σ α} (good : WellFormed b)
    (fits : Fits w b g) {count : Nat} {input : List α} (within : count ≤ b.maxBlock)
    (enough : count ≤ input.length) (ctx : ProcessContext) {v : Nat} {node : σ} (present : g.nodes[v]? = some node)
    {inputs : List α} {after : σ × List α}
    (feeds : inputs = fed b count input (region g.maxBlock count g.nodeOutputs) v)
    (runs : after = methods.process node inputs (region g.maxBlock count g.nodeOutputs v) ctx) :
    ∃ mix, mix.length = b.maxBlock ∧ inputs.length = count ∧
      runNode w methods count input ctx g v = .ok (onBuffers g (g.nodes.set v after.1)
        (written g.maxBlock count g.nodeOutputs v after.2) mix,⟨v,inputs,after.2⟩) := by
  have low : v < b.nodes.length := fits.nodes ▸ (List.getElem?_eq_some_iff.mp present).1
  have size : g.nodeOutputs.length = b.nodes.length * g.maxBlock := by rw [fits.block]; exact fits.outputs
  have small : b.nodes.length * g.maxBlock < 2^w := by rw [fits.block]; exact fits.small
  have narrow : count ≤ g.maxBlock := by rw [fits.block]; exact within
  have room : count ≤ g.mixBuffer.length := by rw [fits.mix]; exact within
  have zeros : count ≤ (List.replicate count (0 : α) ++ g.mixBuffer.drop count).length := by simp
  have plain : (List.replicate count (0 : α)).length = count := List.length_replicate
  obtain ⟨start,stop,inside⟩ := regionOk small narrow low
  have sources : ∀ u ∈ predecessorsOf b.connections v, u < b.nodes.length :=
    fun u mem => (good.inside _ (memPredecessors.mp mem)).1
  have full : inputs.length = count := by
    rw [feeds,fed]
    split
    · simp [enough]
    · refine mixedFromLength plain ?_
      intro row mem
      obtain ⟨u,listed,rfl⟩ := List.mem_map.mp mem
      exact regionLength size (sources u listed) narrow
  have mixing : mixInputs w g.maxBlock count input g.nodeOutputs (predecessorsOf b.connections v)
      (List.replicate count 0 ++ g.mixBuffer.drop count) = .ok (inputs ++ g.mixBuffer.drop count) := by
    rw [feeds,fed,mixInputs]
    by_cases root : predecessorsOf b.connections v = []
    · simp only [root,List.isEmpty_nil,if_true,sliceFront enough,okBind,spliceFront _ zeros,List.drop_left' plain]
    · rw [if_neg (by simpa using root),if_neg root,gatherOk small size narrow sources plain]
      rfl
  have read : slice (inputs ++ g.mixBuffer.drop count) 0 count = .ok inputs := by
    rw [sliceFront (by simp; omega),List.take_left' full]
  refine ⟨inputs ++ g.mixBuffer.drop count,by simp [full,fits.mix,within],full,?_⟩
  have inRange : v * g.maxBlock + count ≤ g.nodeOutputs.length := size ▸ inside
  have listed : get g.predecessors v = .ok (predecessorsOf b.connections v) := by
    rw [fits.predecessors]
    exact tableGet _ low
  simp only [runNode,spliceFront _ room,listed,okBind,mixing,mulOk start,addOk stop,
    sliceRegion inRange,getOk present,read,setOk _ (List.getElem?_eq_some_iff.mp present).1,
    spliceOk _ (Nat.le_add_right _ _) inRange,← runs]
  rfl

def Overwrites (methods : DspNode σ α) : Prop :=
  ∀ node inputs before after ctx, before.length = inputs.length → after.length = inputs.length →
    methods.process node inputs before ctx = methods.process node inputs after ctx

/- What one call of a node contributes, given the node states at the start of the block. -/
structure Served [Zero α] [Add α] (methods : DspNode σ α) (b : DynamicGraphBuilder σ) (count : Nat) (input : List α)
    (ctx : ProcessContext) (states : List σ) (outs : Nat → List α) (nodes : List σ) (c : Call α) : Prop where
  input : c.input = fed b count input outs c.node
  output : outs c.node = c.output
  state : ∃ old new, states[c.node]? = some old ∧ nodes[c.node]? = some new ∧
    ∀ blank : List α, blank.length = count → methods.process old c.input blank ctx = (new,c.output)

structure Progress [Zero α] [Add α] (w : Nat) (methods : DspNode σ α) (b : DynamicGraphBuilder σ) (count : Nat)
    (input : List α) (ctx : ProcessContext) (states : List σ) (g : DspGraphInner σ α) (calls : List (Call α)) : Prop where
  fits : Fits w b g
  served : ∀ c ∈ calls, Served methods b count input ctx states (region g.maxBlock count g.nodeOutputs) g.nodes c
  earlier : ∀ c ∈ calls, ∀ u ∈ predecessorsOf b.connections c.node, u ∈ calls.map Call.node
  waiting : ∀ v, v ∉ calls.map Call.node → g.nodes[v]? = states[v]?

theorem fedCongr [Zero α] [Add α] {count : Nat} {input : List α} {outs outs' : Nat → List α} {v : Nat}
    (same : ∀ u ∈ predecessorsOf b.connections v, outs u = outs' u) :
    fed b count input outs v = fed b count input outs' v := by
  unfold fed
  rw [List.map_congr_left same]

theorem servedKept [Zero α] [Add α] {methods : DspNode σ α} {count : Nat} {input : List α} {ctx : ProcessContext}
    {states nodes nodes' : List σ} {outs outs' : Nat → List α} {c : Call α}
    (served : Served methods b count input ctx states outs nodes c) (sameState : nodes'[c.node]? = nodes[c.node]?)
    (sameOut : outs' c.node = outs c.node) (sameSources : ∀ u ∈ predecessorsOf b.connections c.node, outs' u = outs u) :
    Served methods b count input ctx states outs' nodes' c := by
  refine ⟨?_,sameOut.trans served.output,?_⟩
  · rw [served.input]
    exact fedCongr (fun u mem => (sameSources u mem).symm)
  · rw [sameState]
    exact served.state

/- Node by node along the schedule of one graph; the other has these nodes under other
numbers, in any order. -/
theorem servedAlong [Zero α] [Add α] {methods : DspNode σ α} {b' : DynamicGraphBuilder σ} (f : Nat → Nat)
    {calls calls' : List (Call α)} {count : Nat} {input input' : List α} {ctx : ProcessContext}
    {states states' after after' : List σ} {outs outs' : Nat → List α}
    (scheduled : Scheduled (Edge b.connections) (calls.map Call.node))
    (listed : ∀ v ∈ calls.map Call.node, f v ∈ calls'.map Call.node)
    (start : ∀ v ∈ calls.map Call.node, states'[f v]? = states[v]?)
    (feeds : ∀ v ∈ calls.map Call.node, (∀ u ∈ predecessorsOf b.connections v, outs' (f u) = outs u) →
      fed b' count input' outs' (f v) = fed b count input outs v)
    (served : ∀ c ∈ calls, Served methods b count input ctx states outs after c)
    (served' : ∀ c ∈ calls', Served methods b' count input' ctx states' outs' after' c) :
    ∀ v ∈ calls.map Call.node, outs' (f v) = outs v ∧ after'[f v]? = after[v]? := by
  refine scheduledInduction scheduled ?_
  intro v mem ready
  have feed := feeds v mem (fun u mem => (ready u (memPredecessors.mp mem)).1)
  have begin_ := start v mem
  obtain ⟨c,here,rfl⟩ := List.mem_map.mp mem
  obtain ⟨c',there,named⟩ := List.mem_map.mp (listed c.node mem)
  obtain ⟨fedHere,outHere,old,next,before,now,runs⟩ := served c here
  obtain ⟨fedThere,outThere,old',next',before',now',runs'⟩ := served' c' there
  rw [named] at fedThere outThere before' now'
  have inputs : c'.input = c.input := by rw [fedThere,fedHere,feed]
  have same : old' = old := Option.some.inj (before'.symm.trans (begin_.trans before))
  have blank : (List.replicate count (0 : α)).length = count := List.length_replicate
  rw [inputs,same] at runs'
  obtain ⟨sameState,sameOutput⟩ := Prod.mk.inj ((runs' _ blank).symm.trans (runs _ blank))
  exact ⟨by rw [outThere,outHere,sameOutput],by rw [now',now,sameState]⟩

theorem runNodeProgress [Zero α] [Add α] {methods : DspNode σ α} (good : WellFormed b)
    (overwrites : Overwrites methods) {count : Nat} {input : List α} (within : count ≤ b.maxBlock)
    (enough : count ≤ input.length) {ctx : ProcessContext} {states : List σ} {g : DspGraphInner σ α}
    {calls : List (Call α)} (progress : Progress w methods b count input ctx states g calls) {v : Nat}
    (low : v < b.nodes.length) (fresh : v ∉ calls.map Call.node)
    (ready : ∀ u ∈ predecessorsOf b.connections v, u ∈ calls.map Call.node) :
    ∃ nodes outputs mix c, runNode w methods count input ctx g v = .ok (onBuffers g nodes outputs mix,c) ∧ c.node = v ∧
      Progress w methods b count input ctx states (onBuffers g nodes outputs mix) (calls ++ [c]) := by
  obtain ⟨fits,served,earlier,waiting⟩ := progress
  have inNodes : v < g.nodes.length := fits.nodes ▸ low
  have present := List.getElem?_eq_getElem inNodes
  obtain ⟨mix,mixSize,full,done⟩ := runNodeOk methods good fits within enough ctx present rfl rfl
  refine ⟨_,_,mix,_,done,rfl,?_⟩
  have narrow : count ≤ g.maxBlock := fits.block ▸ within
  have size : g.nodeOutputs.length = b.nodes.length * g.maxBlock := fits.block ▸ fits.outputs
  have inside : v * g.maxBlock + count ≤ g.nodeOutputs.length := size ▸ regionInside low narrow
  have regionFull := regionLength size low narrow
  have outFull := (methods.keepsLength g.nodes[v] (fed b count input (region g.maxBlock count g.nodeOutputs) v)
    (region g.maxBlock count g.nodeOutputs v) ctx).trans regionFull
  have others : ∀ u, u ≠ v → region g.maxBlock count (written g.maxBlock count g.nodeOutputs v _) u = _ :=
    fun u apart => regionOther outFull inside narrow apart
  have known : ∀ u ∈ calls.map Call.node, u ≠ v := fun u mem same => fresh (same ▸ mem)
  refine ⟨⟨?_,?_,mixSize,fits.block,fits.predecessors,fits.small⟩,?_,?_,?_⟩
  · simpa [onBuffers] using fits.nodes
  · exact (writtenLength outFull inside).trans fits.outputs
  · intro c mem
    rcases List.mem_append.mp mem with old | last
    · have apart := known c.node (List.mem_map_of_mem old)
      refine servedKept (served c old) ?_ (others _ apart) (fun u listed => others _ (known u (earlier c old u listed)))
      exact List.getElem?_set_ne (Ne.symm apart)
    · cases List.mem_singleton.mp last
      refine ⟨fedCongr (fun u mem => (others u (known u (ready u mem))).symm),regionSame outFull inside,?_⟩
      refine ⟨g.nodes[v],_,(waiting v fresh).symm.trans present,List.getElem?_set_self inNodes,?_⟩
      intro blank same
      exact overwrites _ _ _ _ ctx (same.trans full.symm) (regionFull.trans full.symm)
  · intro c mem u listed
    rw [List.map_append]
    rcases List.mem_append.mp mem with old | last
    · exact List.mem_append_left _ (earlier c old u listed)
    · cases List.mem_singleton.mp last
      exact List.mem_append_left _ (ready u listed)
  · intro u absent
    simp only [List.map_append,List.mem_append,List.map_cons,List.map_nil,List.mem_singleton,not_or] at absent
    rw [← waiting u absent.1]
    exact List.getElem?_set_ne (Ne.symm absent.2)

theorem runNodesProgress [Zero α] [Add α] {methods : DspNode σ α} (good : WellFormed b)
    (overwrites : Overwrites methods) {count : Nat} {input : List α} (within : count ≤ b.maxBlock)
    (enough : count ≤ input.length) {ctx : ProcessContext} {states : List σ} {rest : List Nat} {g : DspGraphInner σ α}
    {calls : List (Call α)} (progress : Progress w methods b count input ctx states g calls)
    (bound : ∀ v ∈ rest, v < b.nodes.length) (nodup : (calls.map Call.node ++ rest).Nodup)
    (scheduled : Scheduled (Edge b.connections) (calls.map Call.node ++ rest)) :
    ∃ nodes outputs mix more, runNodes w methods count input ctx rest g = .ok (onBuffers g nodes outputs mix,more) ∧
      more.map Call.node = rest ∧
      Progress w methods b count input ctx states (onBuffers g nodes outputs mix) (calls ++ more) := by
  induction rest generalizing g calls with
  | nil => exact ⟨g.nodes,g.nodeOutputs,g.mixBuffer,[],rfl,rfl,by simpa [onBuffers] using progress⟩
  | cons v rest ih =>
    have fresh : v ∉ calls.map Call.node :=
      fun mem => (List.nodup_append.mp nodup).2.2 v mem v List.mem_cons_self rfl
    have ready : ∀ u ∈ predecessorsOf b.connections v, u ∈ calls.map Call.node :=
      fun u mem => scheduled _ v rest rfl u (memPredecessors.mp mem)
    obtain ⟨nodes,outputs,mix,c,done,rfl,next⟩ := runNodeProgress good overwrites within enough progress
      (bound v List.mem_cons_self) fresh ready
    have split : calls.map Call.node ++ c.node :: rest = (calls ++ [c]).map Call.node ++ rest := by simp
    rw [split] at nodup scheduled
    obtain ⟨nodes',outputs',mix',more,later,same,final⟩ := ih next
      (fun u mem => bound u (List.mem_cons_of_mem _ mem)) nodup scheduled
    refine ⟨nodes',outputs',mix',c :: more,?_,by simp [same],by simpa using final⟩
    simp only [runNodes,done,okBind,later]
    rfl

theorem compiledServed [Zero α] [Add α] {methods : DspNode σ α} (good : WellFormed b) {order : List Nat}
    (kahn : Kahn b.nodes.length b.connections order []) (small : b.nodes.length * b.maxBlock < 2^w)
    (overwrites : Overwrites methods) {states : List σ} {outputs mix : List α}
    (stateCount : states.length = b.nodes.length) (outputCount : outputs.length = b.nodes.length * b.maxBlock)
    (mixCount : mix.length = b.maxBlock) (input output : List α) (ctx : ProcessContext) {s : Nat}
    (samples : s = min (min input.length output.length) b.maxBlock) :
    ∃ states' outputs' mix' calls outs,
      process w methods (onBuffers (compiled w methods b order) states outputs mix) input output ctx =
        .ok ⟨onBuffers (compiled w methods b order) states' outputs' mix',
          mixed s (((List.range b.nodes.length).filter (fun v => (successorsOf b.connections v).isEmpty)).map outs) ++
            List.replicate (output.length - s) 0,calls⟩ ∧
      states'.length = b.nodes.length ∧ outputs'.length = b.nodes.length * b.maxBlock ∧ mix'.length = b.maxBlock ∧
      calls.map Call.node = order ∧ (∀ c ∈ calls, c.output.length = s) ∧
      ∀ c ∈ calls, Served methods b s input ctx states outs states' c := by
  have nodup : order.Nodup := by simpa using kahn.nodup
  have low : ∀ v ∈ order, v < b.nodes.length := fun v mem => kahn.inside v (by simpa using mem)
  have within : s ≤ b.maxBlock := by omega
  have enough : s ≤ input.length := by omega
  have start : Progress w methods b s input ctx states (onBuffers (compiled w methods b order) states outputs mix) [] :=
    ⟨⟨stateCount,outputCount,mixCount,rfl,rfl,small⟩,by simp,by simp,fun _ _ => rfl⟩
  obtain ⟨states',outputs',mix',calls,ran,listed,final⟩ := runNodesProgress good overwrites within enough start low
    (by simpa using nodup) (by simpa using kahn.scheduled)
  rw [onBuffersTwice,List.nil_append] at final
  rw [onBuffersTwice] at ran
  have sinks : ∀ v ∈ (compiled w methods b order).sinks, v < b.nodes.length :=
    fun v mem => List.mem_range.mp (List.mem_filter.mp mem).1
  have split : List.replicate output.length (0 : α) = List.replicate s 0 ++ List.replicate (output.length - s) 0 := by
    rw [List.replicate_append_replicate]
    congr 1
    omega
  have gathered := gatherOk small final.fits.outputs within sinks (List.length_replicate (n := s) (a := (0 : α)))
    (List.replicate (output.length - s) 0)
  refine ⟨states',outputs',mix',calls,region b.maxBlock s outputs',?_,final.fits.nodes,final.fits.outputs,final.fits.mix,
    listed,?_,final.served⟩
  · rw [samples] at ran gathered split
    unfold process
    simp only [onBuffers,compiled] at ran gathered ⊢
    simp only [ran,okBind,split,gathered,samples]
    rfl
  · intro c mem
    rw [← (final.served c mem).output]
    have inOrder : c.node ∈ order := listed ▸ List.mem_map_of_mem mem
    exact regionLength final.fits.outputs (low _ inOrder) within

theorem processMeaning [Zero α] [Add α] {methods : DspNode σ α} {maxBlock : Nat} {g : DspGraphInner σ α}
    (built : Built maxBlock b) (ok : compile w methods b = .ok (.ok g)) (overwrites : Overwrites methods)
    {states : List σ} {outputs mix : List α} (stateCount : states.length = b.nodes.length)
    (outputCount : outputs.length = b.nodes.length * maxBlock) (mixCount : mix.length = maxBlock)
    (input output : List α) (ctx : ProcessContext) {s : Nat} (samples : s = min (min input.length output.length) maxBlock) :
    ∃ states' outputs' mix' calls outs,
      process w methods (onBuffers g states outputs mix) input output ctx = .ok ⟨onBuffers g states' outputs' mix',
        mixed s (((List.range b.nodes.length).filter (fun v => (successorsOf b.connections v).isEmpty)).map outs) ++
          List.replicate (output.length - s) 0,calls⟩ ∧
      states'.length = b.nodes.length ∧ outputs'.length = b.nodes.length * maxBlock ∧ mix'.length = maxBlock ∧
      (calls.map Call.node).Perm (List.range b.nodes.length) ∧ (∀ c ∈ calls, c.output.length = s) ∧
      ∀ c ∈ calls, Served methods b s input ctx states outs states' c := by
  obtain ⟨good,rfl⟩ := builtWellFormed built
  obtain ⟨order,kahn,all,small,rfl⟩ := compileAccepted w methods good ok
  obtain ⟨states',outputs',mix',calls,outs,ran,nodes,outputs,mix,listed,rest⟩ := compiledServed good kahn small
    overwrites stateCount outputCount mixCount input output ctx samples
  refine ⟨states',outputs',mix',calls,outs,ran,nodes,outputs,mix,?_,rest⟩
  rw [listed]
  exact kahn.permutes all

end Running

theorem countingOverwrites : Overwrites counting := by
  intro calls inputs before after ctx first second
  simp [counting,first,second,List.drop_of_length_le first.le,List.drop_of_length_le second.le]

theorem processMeaningRewired :
    ∃ g r, compile 8 counting ⟨[4,8,32],[(2,1),(0,1)],2⟩ = .ok (.ok g) ∧
      process 8 counting (onBuffers g [1,2,3] (List.replicate 6 77) [5,5]) [10,20,30] [9,9,9,9] ⟨48000,4⟩ = .ok r ∧
      r.output = [26,46,0,0] ∧ (r.calls.map Call.node).Perm (List.range 3) := by
  have built : Built 2 (⟨[4,8,32],[(2,1),(0,1)],2⟩ : DynamicGraphBuilder Nat) := ⟨⟨[],[],2⟩,rewired,rfl,rfl⟩
  have run : compile 8 counting ⟨[4,8,32],[(2,1),(0,1)],2⟩ = .ok (.ok ⟨[4,8,32],[0,2,1],[[],[2,0],[]],[1],
      List.replicate 6 0,List.replicate 2 0,2,40⟩) := rfl
  have stateCount : [1,2,3].length = [4,8,32].length := rfl
  have outputCount : (List.replicate 6 (77 : Int)).length = [4,8,32].length * 2 := rfl
  have mixCount : [(5 : Int),5].length = 2 := rfl
  have tested : passes (process 8 counting (onBuffers ⟨[4,8,32],[0,2,1],[[],[2,0],[]],[1],List.replicate 6 0,
      List.replicate 2 0,2,40⟩ [1,2,3] (List.replicate 6 77) [5,5]) [10,20,30] [9,9,9,9] ⟨48000,4⟩)
      (fun r => decide (r.output = [26,46,0,0])) = true := by decide
  obtain ⟨r,ran,output⟩ := passed tested
  obtain ⟨_,_,_,calls,_,done,_,_,_,once,_⟩ := processMeaning built run countingOverwrites stateCount outputCount mixCount
    [10,20,30] [9,9,9,9] ⟨48000,4⟩ rfl
  have same := congrArg Processed.calls (Except.ok.inj (ran.symm.trans done))
  exact ⟨_,r,run,ran,of_decide_eq_true output,same ▸ once⟩

end Riaps.Graph
