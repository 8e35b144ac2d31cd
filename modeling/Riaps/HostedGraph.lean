import Riaps.AdapterDelay
import Riaps.GraphReplay

/-! A compiled graph behind the block adapter, as the host's callback runs them
together. The closure over the graph is the DSP callback; it keeps a panic of
the graph, where the code would unwind. Where the nodes work sample by sample
nothing is left of the two block sizes but the delay of the adapter. -/
namespace Riaps.HostedGraph
open Library.Checks Library.Blocks Library.Replay Riaps.Graph SampleFifo Adapter AdapterView AdapterQuantum AdapterWeaving
  AdapterStream AdapterDelay

section Lengths
variable {α : Type} [Add α]

theorem gatherLength {w maxBlock count : Nat} {nodeOutputs : List α} {sources : List Nat} {mix out : List α}
    (ok : gather w maxBlock count nodeOutputs sources mix = .ok out) : out.length = mix.length := by
  induction sources generalizing mix with
  | nil =>
    cases Except.ok.inj ok
    rfl
  | cons source rest ih =>
    obtain ⟨start,-,ok⟩ := bindOk ok
    obtain ⟨stop,added,ok⟩ := bindOk ok
    obtain ⟨samples,sliced,ok⟩ := bindOk ok
    obtain ⟨front,cut,ok⟩ := bindOk ok
    obtain ⟨next,spliced,ok⟩ := bindOk ok
    have width : stop - start = count := by
      unfold add at added
      split at added
      · cases Except.ok.inj added
        omega
      · cases added
    have size := sliceLength sliced
    have frontSize := sliceLength cut
    rw [ih ok]
    exact spliceLength spliced (by rw [List.length_zipWith]; omega)

theorem processLength [Zero α] {σ : Type} {w : Nat} {methods : DspNode σ α} {g : DspGraphInner σ α}
    {input output : List α} {ctx : ProcessContext} {r : Processed σ α}
    (ok : process w methods g input output ctx = .ok r) : r.output.length = output.length := by
  obtain ⟨after,calls,out,-,gathered,rfl⟩ := processParts.mp ok
  rw [gatherLength gathered,List.length_replicate]

end Lengths

section Hosting
variable {σ α : Type} [Zero α] [Add α]

def callback (w : Nat) (methods : DspNode σ α) (ctx : ProcessContext) (s : Checked (DspGraphInner σ α))
    (inputs outputs : List α) : Checked (DspGraphInner σ α) × List α :=
  match s with
  | .error panic => (.error panic,outputs)
  | .ok g =>
      match process w methods g inputs outputs ctx with
      | .error panic => (.error panic,outputs)
      | .ok r => (.ok r.graph,r.output)

theorem callbackLength (w : Nat) (methods : DspNode σ α) (ctx : ProcessContext) (s : Checked (DspGraphInner σ α))
    (inputs outputs : List α) : (callback w methods ctx s inputs outputs).2.length = outputs.length := by
  unfold callback
  cases s with
  | error panic => rfl
  | ok g =>
    cases ran : process w methods g inputs outputs ctx with
    | error panic => simp only [ran]
    | ok r => simpa only [ran] using processLength ran

def hosted (w : Nat) (methods : DspNode σ α) (ctx : ProcessContext) : DspCallback (Checked (DspGraphInner σ α)) α where
  call := callback w methods ctx
  keepsLength := callbackLength w methods ctx

variable {w : Nat} {methods : DspNode σ α} {b : DynamicGraphBuilder σ} {order : List Nat} {g : DspGraphInner σ α}

/- What the adapter's callback makes of whole blocks is what the graph makes of them. -/
theorem replayHosted (good : WellFormed b) (kahn : Kahn b.nodes.length b.connections order [])
    (small : b.nodes.length * b.maxBlock < 2^w) (ctx : ProcessContext) {size : Nat} (within : size ≤ b.maxBlock)
    (running : Running w methods b order g) {o : List α} (width : o.length = size) {bs : List (List α)}
    (whole : ∀ x ∈ bs, x.length = size) :
    ∃ blocks r last answers, (∀ c ∈ blocks, c.Within b.maxBlock) ∧ blocks.map Block.input = bs ∧
      processBlocks w methods blocks g = .ok r ∧
      replay (called (hosted w methods ctx)) (.ok g,o) bs = .ok ((.ok r.graph,last),answers) ∧
      answers.flatten = r.output := by
  induction bs generalizing g o with
  | nil => exact ⟨[],⟨g,[]⟩,o,[],by simp,rfl,rfl,rfl,rfl⟩
  | cons x bs ih =>
    obtain ⟨here,later⟩ := List.forall_mem_cons.mp whole
    obtain ⟨done,ran,next⟩ := processRunning good kahn small running ⟨x,o,ctx⟩
    obtain ⟨blocks,r,last,answers,fits,inputs,others,replayed,flat⟩ :=
      ih next ((processLength ran).trans width) later
    have first : called (hosted w methods ctx) (.ok g,o) x = .ok ((.ok done.graph,done.output),done.output) := by
      simp only [called,hosted,callback,show process w methods g x o ctx = .ok done from ran]
    refine ⟨⟨x,o,ctx⟩ :: blocks,⟨r.graph,done.output ++ r.output⟩,last,done.output :: answers,?_,?_,?_,?_,?_⟩
    · exact List.forall_mem_cons.mpr ⟨⟨width.trans here.symm,here.trans_le within⟩,fits⟩
    · rw [List.map_cons,inputs]
    · exact processBlocksCons.mpr ⟨done,r,ran,others,rfl⟩
    · exact replayCons first replayed
    · rw [List.flatten_cons,flat]

theorem processBlocksDivide {front back : List (Block α)} {r : Streamed σ α}
    (ok : processBlocks w methods (front ++ back) g = .ok r) :
    ∃ first second, processBlocks w methods front g = .ok first ∧
      processBlocks w methods back first.graph = .ok second ∧ r.output = first.output ++ second.output := by
  obtain ⟨_,ran,flat⟩ := processBlocksOk.mp ok
  obtain ⟨g',before,after,first,second,rfl⟩ := replayDivide ran
  exact ⟨⟨g',before.flatten⟩,⟨r.graph,after.flatten⟩,processBlocksOk.mpr ⟨before,first,rfl⟩,
    processBlocksOk.mpr ⟨after,second,rfl⟩,by rw [flat,List.flatten_append]⟩

theorem processBlocksLength {maxBlock : Nat} {blocks : List (Block α)} (within : ∀ c ∈ blocks, c.Within maxBlock)
    {r : Streamed σ α} (ok : processBlocks w methods blocks g = .ok r) :
    r.output.length = (blocks.flatMap Block.input).length := by
  induction blocks generalizing g r with
  | nil =>
    cases Except.ok.inj ok
    rfl
  | cons c blocks ih =>
    obtain ⟨here,later⟩ := List.forall_mem_cons.mp within
    obtain ⟨done,rest,ran,others,rfl⟩ := processBlocksCons.mp ok
    simp only [List.flatMap_cons,List.length_append]
    rw [ih later others,processLength ran,here.1]

end Hosting

section Delays
variable {σ α : Type} [Sample α] [Add α] {tick : σ → α → σ × α} {w : Nat} {methods : DspNode σ α}
  {b : DynamicGraphBuilder σ}

theorem hostedGraphDelayed {maxBlock : Nat} (bySample : BySample methods tick) {g : DspGraphInner σ α}
    (built : Built maxBlock b) (ok : compile w methods b = .ok (.ok g)) {states : List σ} {outputs mix : List α}
    (stateCount : states.length = b.nodes.length) (outputCount : outputs.length = b.nodes.length * maxBlock)
    (mixCount : mix.length = maxBlock) (ctx : ProcessContext) {block quantum capacity : Nat} (positive : 0 < block)
    (within : block ≤ maxBlock) (host : 0 < quantum) (room : 2 * block ≤ capacity)
    (enough : quantum + block - Nat.gcd quantum block ≤ capacity) {calls : List (HostCall α)} (some : calls ≠ [])
    (equal : ∀ c ∈ calls, c.input.length = quantum ∧ c.output.length = quantum) :
    ∃ r tail g', session block capacity (hosted w methods ctx) (.ok (onBuffers g states outputs mix)) calls = .ok r ∧
      (∀ x ∈ r.reports, Clean x) ∧ List.Forall₂ (fun c b => b.output.length = c.output.length) calls r.blocks ∧
      flush (hosted w methods ctx) r.adapter r.state = .ok tail ∧ tail.state = .ok g' ∧
      ∀ direct : List (Block α), (∀ c ∈ direct, c.Within maxBlock) →
        direct.flatMap Block.input = calls.flatMap HostCall.input →
        ∃ d, processBlocks w methods direct (onBuffers g states outputs mix) = .ok d ∧
          r.blocks.flatMap HostBlock.output ++ tail.output =
            List.replicate (block - Nat.gcd quantum block) Sample.priming ++ d.output := by
  obtain ⟨good,rfl⟩ := builtWellFormed built
  obtain ⟨order,kahn,all,small,rfl⟩ := compileAccepted w methods good ok
  obtain ⟨r,tail,o,answers,ran,clean,filled,done,replayed,kept⟩ := delaysExactly positive host room enough
    (hosted w methods ctx) (.ok (onBuffers (compiled w methods b order) states outputs mix)) some equal
  obtain ⟨missing,less,flat,whole⟩ := blocksFlatten positive (calls.flatMap HostCall.input)
  have running : Running w methods b order (onBuffers (compiled w methods b order) states outputs mix) :=
    (compiledRunning b order).write stateCount outputCount mixCount
  obtain ⟨fed,through,o',answers',fits,inputs,served,hears,output⟩ :=
    replayHosted good kahn small ctx within running (List.length_replicate (n := block) (a := (0 : α))) whole
  obtain ⟨state,-,same⟩ : tail.state = .ok through.graph ∧ o = o' ∧ answers = answers' := by
    have agree := Except.ok.inj (replayed.symm.trans hears)
    simpa only [Prod.mk.injEq,and_assoc] using agree
  refine ⟨r,tail,through.graph,ran,clean,filled,done,state,?_⟩
  intro direct inside stream
  -- the last block is filled up with zeros, so the direct run gets them as one more block
  have zeros : ∀ c ∈ direct ++ [(⟨List.replicate missing 0,List.replicate missing 0,ctx⟩ : Block α)],
      c.Within b.maxBlock := by
    intro c mem
    rcases List.mem_append.mp mem with old | last
    · exact inside c old
    · rw [List.mem_singleton.mp last]
      exact ⟨rfl,by rw [List.length_replicate]; omega⟩
  have streams : fed.flatMap Block.input =
      (direct ++ [(⟨List.replicate missing 0,List.replicate missing 0,ctx⟩ : Block α)]).flatMap Block.input := by
    rw [List.flatMap_append,stream,List.flatMap_def,inputs,flat]
    simp
  obtain ⟨l,d',ranL,ranD,agree,-⟩ := cuttingsAgree bySample good kahn all small stateCount ⟨outputCount,mixCount⟩ fed _
    fits zeros streams
  cases Except.ok.inj (ranL.symm.trans served)
  obtain ⟨first,second,before,-,joined⟩ := processBlocksDivide ranD
  refine ⟨first,before,?_⟩
  have size := processBlocksLength inside before
  rw [kept,same,output,agree,joined,List.take_left' (size.trans (by rw [stream]))]

end Delays

def twoByTwo : List (HostCall Int) := [⟨[1,2],[9,9]⟩,⟨[3,4],[9,9]⟩,⟨[5,6],[9,9]⟩,⟨[7,8],[9,9]⟩]

theorem hostedGraphDelayedRewired : ∃ g r tail g', compile 8 summing ⟨[4,8,32],[(2,1),(0,1)],3⟩ = .ok (.ok g) ∧
    session 3 6 (hosted 8 summing ⟨48000,3⟩) (.ok (onBuffers g [1,2,3] (List.replicate 9 77) [5,5,5])) twoByTwo = .ok r ∧
    (∀ x ∈ r.reports, Clean x) ∧ List.Forall₂ (fun c b => b.output.length = c.output.length) twoByTwo r.blocks ∧
    flush (hosted 8 summing ⟨48000,3⟩) r.adapter r.state = .ok tail ∧ tail.state = .ok g' ∧
    ∀ direct : List (Block Int), (∀ c ∈ direct, c.Within 3) →
      direct.flatMap Block.input = twoByTwo.flatMap HostCall.input →
      ∃ d, processBlocks 8 summing direct (onBuffers g [1,2,3] (List.replicate 9 77) [5,5,5]) = .ok d ∧
        r.blocks.flatMap HostBlock.output ++ tail.output =
          List.replicate (3 - Nat.gcd 2 3) Sample.priming ++ d.output := by
  have built : Built 3 (⟨[4,8,32],[(2,1),(0,1)],3⟩ : DynamicGraphBuilder Int) :=
    ⟨⟨[],[],3⟩,[.addNode 4,.addNode 8,.addNode 32,.connect ⟨2⟩ ⟨1⟩,.connect ⟨0⟩ ⟨1⟩],rfl,rfl⟩
  have made : compile 8 summing ⟨[4,8,32],[(2,1),(0,1)],3⟩ = .ok (.ok ⟨[4,8,32],[0,2,1],[[],[2,0],[]],[1],
      List.replicate 9 0,List.replicate 3 0,3,0⟩) := rfl
  obtain ⟨r,tail,g',facts⟩ := hostedGraphDelayed summingBySample built made
    (show [(1 : Int),2,3].length = [(4 : Int),8,32].length from rfl)
    (show (List.replicate 9 (77 : Int)).length = [(4 : Int),8,32].length * 3 from rfl)
    (show [(5 : Int),5,5].length = 3 from rfl) ⟨48000,3⟩ (by decide) (show 3 ≤ 3 by decide) (by decide)
    (show 2 * 3 ≤ 6 by decide) (show 2 + 3 - Nat.gcd 2 3 ≤ 6 by decide) (show twoByTwo ≠ [] by decide) (by decide)
  exact ⟨_,r,tail,g',made,facts⟩

end Riaps.HostedGraph
