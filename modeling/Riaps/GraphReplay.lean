import Riaps.GraphRenaming

/-! What one graph does on its own, block after block and reset after reset. No
check ever fails, whatever its nodes do. The flat buffers keep what earlier calls
left in them, but where nodes write their whole output nothing of it is heard. -/
namespace Riaps.Graph
open Library.Checks Library.Tables Library.Topological Library.Regions Library.Replay

inductive Job (α : Type) where
  | block (c : Block α)
  | reset

section Jobs
variable {σ α : Type} (resetNode : σ → σ)

def reset (g : DspGraphInner σ α) : DspGraphInner σ α := {g with nodes := g.nodes.map resetNode}

def perform [Zero α] [Add α] (w : Nat) (methods : DspNode σ α) : Perform (DspGraphInner σ α) (Job α) (List α) := fun g job =>
  match job with
  | .block c => processBlock w methods g c
  | .reset => .ok (reset resetNode g,[])

end Jobs

section Plan
variable {σ α : Type} [Zero α] {w : Nat} {methods : DspNode σ α} {b : DynamicGraphBuilder σ} {plan : List Nat}
  {g : DspGraphInner σ α}

theorem Running.fits (running : Running w methods b plan g) (small : b.nodes.length * b.maxBlock < 2^w) : Fits w b g := by
  refine ⟨running.states,running.outputs,running.mix,?_,?_,small⟩ <;> rw [running.plan] <;> rfl

theorem Running.order (running : Running w methods b plan g) : g.order = plan := by
  rw [running.plan]
  rfl

theorem Running.sinks (running : Running w methods b plan g) : g.sinks = sinksOf b := by
  rw [running.plan]
  rfl

theorem Running.block (running : Running w methods b plan g) : g.maxBlock = b.maxBlock := by
  rw [running.plan]
  rfl

theorem Running.write (running : Running w methods b plan g) {nodes : List σ} {outputs mix : List α}
    (states : nodes.length = b.nodes.length) (regions : outputs.length = b.nodes.length * b.maxBlock)
    (width : mix.length = b.maxBlock) : Running w methods b plan (onBuffers g nodes outputs mix) := by
  refine ⟨?_,states,regions,width⟩
  change onBuffers g nodes outputs mix = onBuffers (compiled w methods b plan) nodes outputs mix
  rw [running.plan]
  rfl

end Plan

section Alone
variable {σ α : Type} [Zero α] [Add α] {w : Nat} {methods : DspNode σ α} {b : DynamicGraphBuilder σ} {order : List Nat}
  {g g' : DspGraphInner σ α}

theorem runNodesReplay (count : Nat) (input : List α) (ctx : ProcessContext) (rest : List Nat) (g : DspGraphInner σ α) :
    runNodes w methods count input ctx rest g = replay (runNode w methods count input ctx) g rest := by
  induction rest generalizing g with
  | nil => rfl
  | cons v rest ih => simp only [runNodes,replay,ih]

theorem processParts {input output : List α} {ctx : ProcessContext} {r : Processed σ α} :
    process w methods g input output ctx = .ok r ↔ ∃ after calls out,
      runNodes w methods (min (min input.length output.length) g.maxBlock) input ctx g.order g = .ok (after,calls) ∧
      gather w after.maxBlock (min (min input.length output.length) g.maxBlock) after.nodeOutputs after.sinks
        (List.replicate output.length 0) = .ok out ∧ r = ⟨after,out,calls⟩ := by
  constructor
  · intro ok
    obtain ⟨⟨after,calls⟩,ran,ok⟩ := bindOk ok
    obtain ⟨out,gathered,last⟩ := bindOk ok
    exact ⟨after,calls,out,ran,gathered,(Except.ok.inj last).symm⟩
  · rintro ⟨after,calls,out,ran,gathered,rfl⟩
    simp only [process,ran,okBind,gathered]
    rfl

theorem runNodeRunning (good : WellFormed b) (small : b.nodes.length * b.maxBlock < 2^w)
    (running : Running w methods b order g) {count : Nat} {input : List α} (within : count ≤ b.maxBlock)
    (enough : count ≤ input.length) (ctx : ProcessContext) {v : Nat} (low : v < b.nodes.length) :
    ∃ g' c, runNode w methods count input ctx g v = .ok (g',c) ∧ Running w methods b order g' := by
  have inNodes : v < g.nodes.length := running.states ▸ low
  have present := List.getElem?_eq_getElem inNodes
  obtain ⟨mix,mixSize,full,done⟩ := runNodeOk methods good (running.fits small) within enough ctx present rfl rfl
  have narrow : count ≤ g.maxBlock := running.block ▸ within
  have size : g.nodeOutputs.length = b.nodes.length * g.maxBlock := running.block ▸ running.outputs
  have inside : v * g.maxBlock + count ≤ g.nodeOutputs.length := size ▸ regionInside low narrow
  have outFull := (methods.keepsLength g.nodes[v] (fed b count input (region g.maxBlock count g.nodeOutputs) v) _ ctx).trans
    (regionLength size low narrow)
  exact ⟨_,_,done,running.write (by simpa using running.states) ((writtenLength outFull inside).trans running.outputs)
    mixSize⟩

theorem processRunning (good : WellFormed b) (kahn : Kahn b.nodes.length b.connections order [])
    (small : b.nodes.length * b.maxBlock < 2^w) (running : Running w methods b order g) (c : Block α) :
    ∃ r, process w methods g c.input c.output c.ctx = .ok r ∧ Running w methods b order r.graph := by
  have low : ∀ v ∈ g.order, v < b.nodes.length := fun v mem => kahn.inside v (by simpa [running.order] using mem)
  obtain ⟨s,samples⟩ : ∃ s, s = min (min c.input.length c.output.length) g.maxBlock := ⟨_,rfl⟩
  have within : s ≤ b.maxBlock := by
    rw [samples,running.block]
    omega
  obtain ⟨after,calls,ran,kept⟩ := replayKeeps (runNode w methods s c.input c.ctx)
    (P := Running w methods b order) (A := fun v => v < b.nodes.length)
    (fun g v running low => runNodeRunning good small running within (by omega) c.ctx low) running low
  rw [← runNodesReplay] at ran
  have sinks : ∀ v ∈ after.sinks, v < b.nodes.length := by
    rw [kept.sinks]
    exact fun v => sinksInside
  have gathered := gatherOk (by rw [kept.block]; exact small) (kept.block ▸ kept.outputs) (kept.block ▸ within) sinks
    (List.length_replicate (n := s) (a := (0 : α))) (List.replicate (c.output.length - s) 0)
  rw [List.replicate_append_replicate,Nat.add_sub_cancel' (by omega)] at gathered
  exact ⟨_,processParts.mpr ⟨after,calls,_,samples ▸ ran,samples ▸ gathered,rfl⟩,kept⟩

theorem performRunning (resetNode : σ → σ) (good : WellFormed b) (kahn : Kahn b.nodes.length b.connections order [])
    (small : b.nodes.length * b.maxBlock < 2^w) (running : Running w methods b order g) (job : Job α) :
    ∃ g' output, perform resetNode w methods g job = .ok (g',output) ∧ Running w methods b order g' := by
  cases job with
  | block c =>
    obtain ⟨r,done,kept⟩ := processRunning good kahn small running c
    exact ⟨_,_,processBlockOk.mpr ⟨r,done,rfl,rfl⟩,kept⟩
  | reset =>
    exact ⟨_,_,rfl,running.write (by simpa using running.states) running.outputs running.mix⟩

theorem replayRunning (resetNode : σ → σ) (good : WellFormed b) (kahn : Kahn b.nodes.length b.connections order [])
    (small : b.nodes.length * b.maxBlock < 2^w) (running : Running w methods b order g) (jobs : List (Job α)) :
    ∃ g' outputs, replay (perform resetNode w methods) g jobs = .ok (g',outputs) ∧ Running w methods b order g' :=
  replayKeeps _ (P := Running w methods b order) (A := fun _ => True)
    (fun _ job running _ => performRunning resetNode good kahn small running job) running (fun _ _ => trivial)

theorem replayReturns (resetNode : σ → σ) {maxBlock : Nat} (built : Built maxBlock b)
    (made : compile w methods b = .ok (.ok g)) (jobs : List (Job α)) :
    ∃ g' outputs, replay (perform resetNode w methods) g jobs = .ok (g',outputs) := by
  obtain ⟨good,_⟩ := builtWellFormed built
  obtain ⟨order,kahn,all,small,rfl⟩ := compileAccepted w methods good made
  obtain ⟨g',outputs,ran,_⟩ := replayRunning resetNode good kahn small (compiledRunning b order) jobs
  exact ⟨g',outputs,ran⟩

end Alone

/-- Another builder of the same shape: node states apart, both describe one graph. -/
structure Reshaped {σ : Type} (b b' : DynamicGraphBuilder σ) : Prop where
  count : b'.nodes.length = b.nodes.length
  edges : b'.connections = b.connections
  block : b'.maxBlock = b.maxBlock

section Fresh
variable {σ α : Type} [Zero α] [Add α] {w : Nat} {methods : DspNode σ α} {b b' : DynamicGraphBuilder σ}
  {order order' : List Nat} {g g' : DspGraphInner σ α}

theorem Reshaped.wellFormed (shape : Reshaped b b') (good : WellFormed b) : WellFormed b' := by
  refine ⟨?_,shape.edges ▸ good.unique,shape.block ▸ good.positive⟩
  rw [shape.edges,shape.count]
  exact good.inside

omit [Add α] in
theorem Reshaped.compiles (w : Nat) (methods : DspNode σ α) (shape : Reshaped b b') (good : WellFormed b)
    (made : compile w methods b = .ok (.ok g)) : ∃ order, Kahn b'.nodes.length b'.connections order [] ∧
      compile w methods b' = .ok (.ok (compiled w methods b' order)) := by
  obtain ⟨order,kahn,all,small,rfl⟩ := compileAccepted w methods good made
  have some_ : b.nodes.length ≠ 0 := by
    intro none_
    simp [compile,none_] at made
  have good' := shape.wellFormed good
  obtain ⟨order',kahn',done⟩ := compileOk w methods good' (by rw [shape.count]; exact some_)
  have acyclic := (kahn.finished good.inside).mp all
  have all' := (kahn'.finished good'.inside).mpr (by rw [shape.edges]; exact acyclic)
  rw [if_neg (by simpa using all'),if_pos (by rw [shape.count,shape.block]; exact small)] at done
  exact ⟨order',kahn',done⟩

theorem Reshaped.matched (shape : Reshaped b b') (good : WellFormed b) (kahn : Kahn b.nodes.length b.connections order [])
    (kahn' : Kahn b'.nodes.length b'.connections order' []) (all : order.length = b.nodes.length)
    (all' : order'.length = b'.nodes.length) (small : b.nodes.length * b.maxBlock < 2^w) :
    Matched α w (Equiv.refl Nat) b b' order order' := by
  refine ⟨good,shape.wellFormed good,kahn,kahn',all,all',shape.block,small,
    by rw [shape.count,shape.block]; exact small,?_,?_,?_⟩
  · intro v
    rw [shape.count,Equiv.refl_apply]
  · intro count input outs outs' v ready
    simp only [Equiv.refl_apply] at ready ⊢
    simp only [fed,shape.edges,List.map_congr_left ready]
  · intro count outs outs' same
    have sinks : sinksOf b' = sinksOf b := by
      unfold sinksOf
      rw [shape.count,shape.edges]
    rw [sinks]
    exact congrArg (mixed count) (List.map_congr_left same)

theorem performMirrored {π : Equiv.Perm Nat} (resetNode : σ → σ) (matched : Matched α w π b b' order order')
    (overwrites : Overwrites methods) (mirrored : Mirrored w methods π b b' order order' g g') (job : Job α) :
    ∃ r r' answer, perform resetNode w methods g job = .ok (r,answer) ∧
      perform resetNode w methods g' job = .ok (r',answer) ∧
      Mirrored w methods π b b' order order' r r' := by
  cases job with
  | block c =>
    have same : c.Alike c := ⟨rfl,rfl,rfl⟩
    obtain ⟨r,r',ran,ran',output,next⟩ := processMirrored matched overwrites mirrored same
    exact ⟨_,_,_,processBlockOk.mpr ⟨r,ran,rfl,rfl⟩,processBlockOk.mpr ⟨r',ran',rfl,output⟩,next⟩
  | reset =>
    obtain ⟨running,running',same⟩ := mirrored
    refine ⟨_,_,[],rfl,rfl,running.write (by simpa using running.states) running.outputs running.mix,
      running'.write (by simpa using running'.states) running'.outputs running'.mix,?_⟩
    intro v
    change (g'.nodes.map resetNode)[π v]? = (g.nodes.map resetNode)[v]?
    rw [List.getElem?_map,List.getElem?_map,same]

theorem buffersHoldNoState (resetNode : σ → σ) {maxBlock : Nat} (built : Built maxBlock b)
    (made : compile w methods b = .ok (.ok g)) (overwrites : Overwrites methods) (jobs later : List (Job α)) :
    ∃ used outputs fresh last last' answers, replay (perform resetNode w methods) g jobs = .ok (used,outputs) ∧
      compile w methods {b with nodes := used.nodes} = .ok (.ok fresh) ∧
      replay (perform resetNode w methods) used later = .ok (last,answers) ∧
      replay (perform resetNode w methods) fresh later = .ok (last',answers) ∧ last'.nodes = last.nodes := by
  obtain ⟨good,_⟩ := builtWellFormed built
  obtain ⟨order,kahn,all,small,rfl⟩ := compileAccepted w methods good made
  have start : Running w methods b order (compiled w methods b order) := compiledRunning b order
  obtain ⟨used,outputs,ran,running⟩ := replayRunning resetNode good kahn small start jobs
  have shape : Reshaped b {b with nodes := used.nodes} := ⟨running.states,rfl,rfl⟩
  obtain ⟨order',kahn',done⟩ := shape.compiles w methods good made
  have all' : order'.length = used.nodes.length := by
    refine (kahn'.finished (shape.wellFormed good).inside).mpr ?_
    exact (kahn.finished good.inside).mp all
  have matched : Matched α w (Equiv.refl Nat) b {b with nodes := used.nodes} order order' :=
    shape.matched good kahn kahn' all all' small
  obtain ⟨last,last',answers,here,there,mirrored⟩ := replayAlike
    (R := Mirrored w methods (Equiv.refl Nat) b {b with nodes := used.nodes} order order')
    (fun _ _ job mirrored => performMirrored resetNode matched overwrites mirrored job)
    ⟨running,compiledRunning _ order',fun _ => rfl⟩ later
  exact ⟨used,outputs,_,last,last',answers,ran,done,here,there,List.ext_getElem? mirrored.nodes⟩

end Fresh

theorem buffersHoldNoStateRewired : ∃ g used fresh last last', compile 8 counting ⟨[4,8,32],[(2,1),(0,1)],2⟩ = .ok (.ok g) ∧
    replay (perform (· % 4) 8 counting) g [.block ⟨[10,20],[9,9],⟨48000,2⟩⟩,.reset] = .ok (used,[[64,84],[]]) ∧
    compile 8 counting ⟨used.nodes,[(2,1),(0,1)],2⟩ = .ok (.ok fresh) ∧ used.nodeOutputs ≠ fresh.nodeOutputs ∧
    replay (perform (· % 4) 8 counting) used [.block ⟨[1,2],[0,0],⟨48000,2⟩⟩] = .ok (last,[[5,7]]) ∧
    replay (perform (· % 4) 8 counting) fresh [.block ⟨[1,2],[0,0],⟨48000,2⟩⟩] = .ok (last',[[5,7]]) := by
  have built : Built 2 (⟨[4,8,32],[(2,1),(0,1)],2⟩ : DynamicGraphBuilder Nat) := ⟨⟨[],[],2⟩,rewired,rfl,rfl⟩
  have run : compile 8 counting ⟨[4,8,32],[(2,1),(0,1)],2⟩ = .ok (.ok ⟨[4,8,32],[0,2,1],[[],[2,0],[]],[1],
      List.replicate 6 0,List.replicate 2 0,2,40⟩) := rfl
  obtain ⟨used,outputs,fresh,last,last',answers,ran,made,here,there,_⟩ := buffersHoldNoState (· % 4) built run
    countingOverwrites [.block ⟨[10,20],[9,9],⟨48000,2⟩⟩,.reset] [.block ⟨[1,2],[0,0],⟨48000,2⟩⟩]
  have first : replay (perform (· % 4) 8 counting) ⟨[4,8,32],[0,2,1],[[],[2,0],[]],[1],List.replicate 6 0,
      List.replicate 2 0,2,40⟩ [.block ⟨[10,20],[9,9],⟨48000,2⟩⟩,.reset] = .ok (⟨[1,1,1],[0,2,1],[[],[2,0],[]],[1],
      [14,24,64,84,42,52],[56,76],2,40⟩,[[64,84],[]]) := by decide +kernel
  cases Except.ok.inj (ran.symm.trans first)
  have second : replay (perform (· % 4) 8 counting) ⟨[1,1,1],[0,2,1],[[],[2,0],[]],[1],[14,24,64,84,42,52],[56,76],2,40⟩
      [.block ⟨[1,2],[0,0],⟨48000,2⟩⟩] = .ok (⟨[2,2,2],[0,2,1],[[],[2,0],[]],[1],[2,3,5,7,2,3],[4,6],2,40⟩,[[5,7]]) := by
    decide +kernel
  cases Except.ok.inj (here.symm.trans second)
  have anew : compile 8 counting ⟨[1,1,1],[(2,1),(0,1)],2⟩ = .ok (.ok ⟨[1,1,1],[0,2,1],[[],[2,0],[]],[1],
      List.replicate 6 0,List.replicate 2 0,2,2⟩) := rfl
  cases Except.ok.inj (Except.ok.inj (made.symm.trans anew))
  exact ⟨_,_,_,_,last',run,ran,made,by decide,here,there⟩

end Riaps.Graph
