import Riaps.GraphJoining
import Riaps.GraphReplay

/-! What a joined graph does is what its parts do. Behind one another, the second part
hears the output of the first; beside one another, both hear the input, and the output
loop of the second adds its sinks onto the output of the first. Samples are added in the
order of the parts, so nothing is asked of the addition. -/
namespace Riaps.Graph
open Library.Checks Library.Topological Library.Regions Library.Replay

section Pairs
variable {σ α : Type} [Zero α] [Add α] (resetNode : σ → σ) (w : Nat) (methods : DspNode σ α)

abbrev Pair (σ α : Type) := DspGraphInner σ α × DspGraphInner σ α

def performInTurn : Perform (Pair σ α) (Job α) (List α) := fun p job =>
  match job with
  | .block c => do
      let done ← process w methods p.1 c.input c.output c.ctx
      let last ← process w methods p.2 (done.output.take c.input.length) c.output c.ctx
      return ((done.graph,last.graph),last.output)
  | .reset => .ok ((reset resetNode p.1,reset resetNode p.2),[])

/- The output slice of the second call is not cleared: it holds what the first call gave. -/
def performBeside : Perform (Pair σ α) (Job α) (List α) := fun p job =>
  match job with
  | .block c => do
      let left ← process w methods p.1 c.input c.output c.ctx
      let right ← process w methods p.2 c.input c.output c.ctx
      let count := min (min c.input.length c.output.length) right.graph.maxBlock
      let output ← gather w right.graph.maxBlock count right.graph.nodeOutputs right.graph.sinks left.output
      return ((left.graph,right.graph),output)
  | .reset => .ok ((reset resetNode p.1,reset resetNode p.2),[])

end Pairs

section Answers
variable {σ α : Type} [Zero α] [Add α] {w : Nat} {methods : DspNode σ α} {b : DynamicGraphBuilder σ} {order : List Nat}
  {g : DspGraphInner σ α}

def sampleCount (b : DynamicGraphBuilder σ) (c : Block α) : Nat := min (min c.input.length c.output.length) b.maxBlock

def heard (count : Nat) (r : Processed σ α) : Nat → List α := region r.graph.maxBlock count r.graph.nodeOutputs

structure Answered (w : Nat) (methods : DspNode σ α) (b : DynamicGraphBuilder σ) (order : List Nat)
    (g : DspGraphInner σ α) (c : Block α) (r : Processed σ α) : Prop where
  ran : process w methods g c.input c.output c.ctx = .ok r
  running : Running w methods b order r.graph
  output : r.output = mixed (sampleCount b c) ((sinksOf b).map (heard (sampleCount b c) r)) ++
    List.replicate (c.output.length - sampleCount b c) 0
  listed : r.calls.map Call.node = order
  served : ∀ call ∈ r.calls,
    Served methods b (sampleCount b c) c.input c.ctx g.nodes (heard (sampleCount b c) r) r.graph.nodes call

theorem answered (fit : Ordered w b order) (overwrites : Overwrites methods) (running : Running w methods b order g)
    (c : Block α) : ∃ r, Answered w methods b order g c r := by
  obtain ⟨r,done,kept⟩ := processRunning fit.good fit.kahn fit.small running c
  obtain ⟨after,calls,out,ran,gathered,rfl⟩ := processParts.mp done
  have samples : min (min c.input.length c.output.length) g.maxBlock = sampleCount b c := by rw [running.block,sampleCount]
  have within : sampleCount b c ≤ b.maxBlock := Nat.min_le_right _ _
  rw [samples,running.order] at ran
  rw [samples] at gathered
  have start : Progress w methods b (sampleCount b c) c.input c.ctx g.nodes g [] :=
    ⟨running.fits fit.small,by simp,by simp,fun _ _ => rfl⟩
  obtain ⟨nodes,outputs,mix,more,again,listed,final⟩ := runNodesProgress fit.good overwrites within
    (by unfold sampleCount; omega) start (fun v mem => fit.mem.mp mem) (by simpa using fit.nodup)
    (by simpa using fit.kahn.scheduled)
  obtain ⟨rfl,rfl⟩ := Prod.mk.inj (Except.ok.inj (ran.symm.trans again))
  refine ⟨_,done,kept,?_,listed,fun call mem => final.served call (by simpa using mem)⟩
  have sinks : ∀ v ∈ (onBuffers g nodes outputs mix).sinks, v < b.nodes.length := by
    rw [kept.sinks]
    exact fun v => sinksInside
  have summed := gatherOk (by rw [kept.block]; exact fit.small) (kept.block ▸ kept.outputs) (kept.block ▸ within) sinks
    (List.length_replicate (n := sampleCount b c) (a := (0 : α))) (List.replicate (c.output.length - sampleCount b c) 0)
  rw [List.replicate_append_replicate,Nat.add_sub_cancel' (by unfold sampleCount; omega)] at summed
  refine (Except.ok.inj (gathered.symm.trans summed)).trans ?_
  rw [kept.sinks]
  rfl

theorem Answered.heardLength {c : Block α} {r : Processed σ α} (answer : Answered w methods b order g c r) {v : Nat}
    (low : v < b.nodes.length) : (heard (sampleCount b c) r v).length = sampleCount b c := by
  have running := answer.running
  exact regionLength (running.block ▸ running.outputs) low (running.block ▸ Nat.min_le_right _ _)

theorem Answered.sum {c : Block α} {r : Processed σ α} (answer : Answered w methods b order g c r) {sources : List Nat}
    (inside : ∀ u ∈ sources, u < b.nodes.length) :
    (mixed (sampleCount b c) (sources.map (heard (sampleCount b c) r))).length = sampleCount b c := by
  refine mixedFromLength List.length_replicate ?_
  intro row mem
  obtain ⟨u,listed,rfl⟩ := List.mem_map.mp mem
  exact answer.heardLength (inside u listed)

theorem Answered.outputLength {c : Block α} {r : Processed σ α} (answer : Answered w methods b order g c r) :
    r.output.length = c.output.length := by
  rw [answer.output,List.length_append,answer.sum (fun u => sinksInside),List.length_replicate]
  unfold sampleCount
  omega

/- The part has its nodes in the whole under other numbers, and they are fed there as they are here. -/
theorem heardAlong (f : Nat → Nat) {part whole : DynamicGraphBuilder σ} {plan : List Nat} {h : DspGraphInner σ α}
    {c d : Block α} {r q : Processed σ α} (answer : Answered w methods part order g c r)
    (answer' : Answered w methods whole plan h d q) (fit : Ordered w part order) {s : Nat}
    (samples : s = sampleCount part c) (samples' : s = sampleCount whole d) (ctx : d.ctx = c.ctx)
    (into : ∀ v ∈ order, f v ∈ plan) (start : ∀ v ∈ order, h.nodes[f v]? = g.nodes[v]?)
    (feeds : ∀ v ∈ order, (∀ u ∈ predecessorsOf part.connections v, heard s q (f u) = heard s r u) →
      fed whole s d.input (heard s q) (f v) = fed part s c.input (heard s r) v) :
    ∀ v ∈ order, heard s q (f v) = heard s r v ∧ q.graph.nodes[f v]? = r.graph.nodes[v]? := by
  have served := answer.served
  have served' := answer'.served
  rw [← samples] at served
  rw [← samples',ctx] at served'
  obtain rfl := answer.listed
  obtain rfl := answer'.listed
  exact servedAlong f fit.kahn.scheduled into start feeds served served'

end Answers

section Joining
variable {σ α : Type} [Zero α] [Add α] {w : Nat} {methods : DspNode σ α} {first second whole : DynamicGraphBuilder σ}
  {feeds order order' plan : List Nat} {g h k : DspGraphInner σ α} {c d : Block α} {r q t : Processed σ α}

/-- The whole and its parts between two calls: the node states of the whole are those of the parts. -/
structure Together (w : Nat) (methods : DspNode σ α) (first second whole : DynamicGraphBuilder σ)
    (order order' plan : List Nat) (k : DspGraphInner σ α) (p : Pair σ α) : Prop where
  front : Running w methods first order p.1
  back : Running w methods second order' p.2
  all : Running w methods whole plan k
  nodes : k.nodes = p.1.nodes ++ p.2.nodes

omit [Add α] in
theorem Together.reset (resetNode : σ → σ) {k : DspGraphInner σ α} {p : Pair σ α}
    (together : Together w methods first second whole order order' plan k p) :
    Together w methods first second whole order order' plan (reset resetNode k)
      (reset resetNode p.1,reset resetNode p.2) := by
  obtain ⟨front,back,all,nodes⟩ := together
  refine ⟨?_,?_,?_,?_⟩
  · exact front.write (by simpa using front.states) front.outputs front.mix
  · exact back.write (by simpa using back.states) back.outputs back.mix
  · exact all.write (by simpa using all.states) all.outputs all.mix
  · exact (congrArg (List.map resetNode) nodes).trans List.map_append

theorem joinedHeard (parts : Joined first second whole feeds) (fit : Ordered w first order)
    (fit' : Ordered w second order') (fitted : Ordered w whole plan)
    (together : Together w methods first second whole order order' plan k (g,h))
    (left : Answered w methods first order g c r) (right : Answered w methods second order' h d q)
    (both : Answered w methods whole plan k c t) {s : Nat} (samples : s = sampleCount whole c)
    (samples' : s = sampleCount second d) (ctx : d.ctx = c.ctx)
    (hears : d.input.take s = if feeds = [] then c.input.take s else mixed s (feeds.map (heard s r))) :
    (∀ v, v < first.nodes.length → heard s t v = heard s r v) ∧
    (∀ v, v < second.nodes.length → heard s t (first.nodes.length + v) = heard s q v) ∧
    t.graph.nodes = r.graph.nodes ++ q.graph.nodes := by
  have count := parts.count
  have firstCount : g.nodes.length = first.nodes.length := together.front.states
  have front := heardAlong id left both fit (by rw [samples,sampleCount,sampleCount,parts.block]) samples rfl
    (fun v mem => fitted.mem.mpr (show v < _ by have := fit.mem.mp mem; omega))
    (fun v mem => by rw [together.nodes,id,List.getElem?_append_left (by rw [firstCount]; exact fit.mem.mp mem)])
    (fun v mem ready => by
      simp only [fed,id,parts.front v (fit.mem.mp mem),List.map_congr_left (f := heard s t) ready])
  have fedBehind : ∀ v ∈ order', (∀ u ∈ predecessorsOf second.connections v,
      heard s t (first.nodes.length + u) = heard s q u) →
      fed whole s c.input (heard s t) (first.nodes.length + v) = fed second s d.input (heard s q) v := by
    intro v mem ready
    unfold fed
    rw [parts.back v (fit'.mem.mp mem)]
    by_cases head : predecessorsOf second.connections v = []
    · have known : feeds.map (heard s t) = feeds.map (heard s r) :=
        List.map_congr_left (fun u fed => (front u (fit.mem.mpr (parts.inside u fed))).1)
      rw [if_pos head,if_pos head,hears,known]
    · rw [if_neg head,if_neg head,if_neg (by simpa using head),List.map_map]
      exact congrArg _ (List.map_congr_left ready)
  have back := heardAlong (first.nodes.length + ·) right both fit' samples' samples ctx.symm
    (fun v mem => fitted.mem.mpr (show first.nodes.length + v < _ by have := fit'.mem.mp mem; omega))
    (fun v mem => by
      rw [together.nodes,List.getElem?_append_right (by simp [firstCount]),firstCount,Nat.add_sub_cancel_left])
    fedBehind
  refine ⟨fun v low => (front v (fit.mem.mpr low)).1,fun v low => (back v (fit'.mem.mpr low)).1,List.ext_getElem? ?_⟩
  intro v
  have after : r.graph.nodes.length = first.nodes.length := left.running.states
  rcases Nat.lt_or_ge v first.nodes.length with low | high
  · rw [List.getElem?_append_left (by omega)]
    exact (front v (fit.mem.mpr low)).2
  · obtain ⟨u,rfl⟩ := Nat.exists_eq_add_of_le high
    rw [List.getElem?_append_right (by omega),after,Nat.add_sub_cancel_left]
    rcases Nat.lt_or_ge u second.nodes.length with low | beyond
    · exact (back u (fit'.mem.mpr low)).2
    · rw [List.getElem?_eq_none (by rw [both.running.states]; omega),
        List.getElem?_eq_none (by rw [right.running.states]; omega)]

theorem performTurn (resetNode : σ → σ) (parts : Joined first second whole (sinksOf first)) (fit : Ordered w first order)
    (fit' : Ordered w second order') (fitted : Ordered w whole plan) (overwrites : Overwrites methods)
    {k : DspGraphInner σ α} {p : Pair σ α} (together : Together w methods first second whole order order' plan k p)
    (job : Job α) : ∃ k' p' answer, perform resetNode w methods k job = .ok (k',answer) ∧
      performInTurn resetNode w methods p job = .ok (p',answer) ∧
      Together w methods first second whole order order' plan k' p' := by
  cases job with
  | block c =>
    obtain ⟨r,left⟩ := answered fit overwrites together.front c
    obtain ⟨q,right⟩ := answered fit' overwrites together.back ⟨r.output.take c.input.length,c.output,c.ctx⟩
    obtain ⟨t,both⟩ := answered fitted overwrites together.all c
    have same := parts.same
    have block := parts.block
    have samples : sampleCount first c = sampleCount whole c := by rw [sampleCount,sampleCount,block]
    have samples' : sampleCount whole c = sampleCount second ⟨r.output.take c.input.length,c.output,c.ctx⟩ := by
      simp only [sampleCount,List.length_take,left.outputLength]
      omega
    have hears : (r.output.take c.input.length).take (sampleCount whole c) =
        if sinksOf first = [] then c.input.take (sampleCount whole c)
        else mixed (sampleCount whole c) ((sinksOf first).map (heard (sampleCount whole c) r)) := by
      rw [if_neg (sinksSome fit),List.take_take,← samples,Nat.min_eq_left (by unfold sampleCount; omega),left.output,
        List.take_left' (left.sum (fun u => sinksInside))]
    obtain ⟨_,behind,nodes⟩ := joinedHeard parts fit fit' fitted together left right both rfl samples' rfl hears
    have output : t.output = q.output := by
      have none_ : (sinksOf first).filter (fun u => u ∉ sinksOf first) = [] := by simp
      rw [both.output,right.output,← samples',parts.sinks,none_,List.nil_append,List.map_map]
      refine congrArg (mixed _ · ++ _) (List.map_congr_left ?_)
      exact fun v mem => behind v (sinksInside mem)
    refine ⟨t.graph,(r.graph,q.graph),q.output,?_,?_,left.running,right.running,both.running,nodes⟩
    · exact processBlockOk.mpr ⟨t,both.ran,rfl,output.symm⟩
    · simp only [performInTurn,left.ran,right.ran,okBind]
      rfl
  | reset => exact ⟨_,_,[],rfl,rfl,together.reset resetNode⟩

theorem performAside (resetNode : σ → σ) (parts : Joined first second whole []) (fit : Ordered w first order)
    (fit' : Ordered w second order') (fitted : Ordered w whole plan) (overwrites : Overwrites methods)
    {k : DspGraphInner σ α} {p : Pair σ α} (together : Together w methods first second whole order order' plan k p)
    (job : Job α) : ∃ k' p' answer, perform resetNode w methods k job = .ok (k',answer) ∧
      performBeside resetNode w methods p job = .ok (p',answer) ∧
      Together w methods first second whole order order' plan k' p' := by
  cases job with
  | block c =>
    obtain ⟨r,left⟩ := answered fit overwrites together.front c
    obtain ⟨q,right⟩ := answered fit' overwrites together.back c
    obtain ⟨t,both⟩ := answered fitted overwrites together.all c
    have samples : sampleCount first c = sampleCount whole c := by rw [sampleCount,sampleCount,parts.block]
    have samples' : sampleCount second c = sampleCount whole c := by
      rw [sampleCount,sampleCount,parts.block,parts.same]
    obtain ⟨front,behind,nodes⟩ := joinedHeard parts fit fit' fitted together left right both rfl samples'.symm rfl rfl
    have output : t.output = mixedFrom (mixed (sampleCount whole c) ((sinksOf first).map (heard (sampleCount whole c) r)))
        ((sinksOf second).map (heard (sampleCount whole c) q)) ++
        List.replicate (c.output.length - sampleCount whole c) 0 := by
      have early : ((sinksOf first).filter (fun u => u ∉ [])).map (heard (sampleCount whole c) t) =
          (sinksOf first).map (heard (sampleCount whole c) r) := by
        simpa using fun v mem => front v (sinksInside mem)
      have late : ((sinksOf second).map (first.nodes.length + ·)).map (heard (sampleCount whole c) t) =
          (sinksOf second).map (heard (sampleCount whole c) q) := by
        rw [List.map_map]
        exact List.map_congr_left (fun v mem => behind v (sinksInside mem))
      rw [both.output,parts.sinks,List.map_append,early,late,mixed,mixedFrom,List.foldl_append]
      rfl
    have running := right.running
    have inside : ∀ v ∈ q.graph.sinks, v < second.nodes.length := by
      rw [running.sinks]
      exact fun v => sinksInside
    have sum : (mixed (sampleCount whole c) ((sinksOf first).map (heard (sampleCount whole c) r))).length =
        sampleCount whole c := samples ▸ left.sum (fun u => sinksInside)
    have gathered := gatherOk (by rw [running.block]; exact fit'.small) (running.block ▸ running.outputs)
      (show sampleCount whole c ≤ q.graph.maxBlock by rw [running.block,← samples']; exact Nat.min_le_right _ _) inside
      sum (List.replicate (c.output.length - sampleCount whole c) (0 : α))
    rw [running.sinks] at gathered
    refine ⟨t.graph,(r.graph,q.graph),t.output,?_,?_,left.running,right.running,both.running,nodes⟩
    · exact processBlockOk.mpr ⟨t,both.ran,rfl,rfl⟩
    · have count : min (min c.input.length c.output.length) q.graph.maxBlock = sampleCount whole c := by
        rw [running.block,← samples',sampleCount]
      simp only [performBeside,left.ran,right.ran,okBind,count,running.sinks,left.output,samples]
      rw [output]
      exact congrArg (fun out => out >>= fun o => .ok ((r.graph,q.graph),o)) gathered
  | reset => exact ⟨_,_,[],rfl,rfl,together.reset resetNode⟩

omit [Add α] in
theorem joinedTogether {maxBlock : Nat} (built : Built maxBlock first) (built' : Built maxBlock second)
    (made : compile w methods first = .ok (.ok g)) (made' : compile w methods second = .ok (.ok h)) (once : feeds.Nodup)
    (inside : ∀ u ∈ feeds, u < first.nodes.length) :
    ∃ order order', Ordered w first order ∧ Ordered w second order' ∧ g = compiled w methods first order ∧
      h = compiled w methods second order' ∧ Joined first second (join first second feeds) feeds ∧
      (2^w ≤ (first.nodes.length + second.nodes.length) * maxBlock →
        compile w methods (join first second feeds) = .ok (.error .bufferSizeOverflow)) ∧
      ((first.nodes.length + second.nodes.length) * maxBlock < 2^w →
        ∃ plan k, Ordered w (join first second feeds) plan ∧ k = compiled w methods (join first second feeds) plan ∧
          compile w methods (join first second feeds) = .ok (.ok k) ∧
          Together w methods first second (join first second feeds) order order' plan k (g,h)) := by
  obtain ⟨good,block⟩ := builtWellFormed built
  obtain ⟨good',_⟩ := builtWellFormed built'
  obtain ⟨order,fit,rfl⟩ := compileOrdered good made
  obtain ⟨order',fit',rfl⟩ := compileOrdered good' made'
  have parts := joined built built' once inside (headsSome fit')
  have compiles := joinedCompiles methods parts fit fit'
  rw [parts.count,parts.block,block] at compiles
  refine ⟨order,order',fit,fit',rfl,rfl,parts,compiles.2,fun small => ?_⟩
  obtain ⟨plan,fitted,done⟩ := compiles.1 small
  exact ⟨plan,_,fitted,rfl,done,compiledRunning first order,compiledRunning second order',compiledRunning _ plan,parts.nodes⟩

theorem seriesActsInTurn (resetNode : σ → σ) {maxBlock : Nat} (built : Built maxBlock first)
    (built' : Built maxBlock second) (made : compile w methods first = .ok (.ok g))
    (made' : compile w methods second = .ok (.ok h)) (overwrites : Overwrites methods) :
    Built maxBlock (inSeries first second) ∧
    (2^w ≤ (first.nodes.length + second.nodes.length) * maxBlock →
      compile w methods (inSeries first second) = .ok (.error .bufferSizeOverflow)) ∧
    ((first.nodes.length + second.nodes.length) * maxBlock < 2^w →
      ∃ k, compile w methods (inSeries first second) = .ok (.ok k) ∧
        k.totalLatency = saturatingAdd w g.totalLatency h.totalLatency ∧
        ∀ jobs, ∃ k' p answers, replay (perform resetNode w methods) k jobs = .ok (k',answers) ∧
          replay (performInTurn resetNode w methods) (g,h) jobs = .ok (p,answers) ∧ k'.nodes = p.1.nodes ++ p.2.nodes) := by
  obtain ⟨order,order',fit,fit',rfl,rfl,parts,large,accepted⟩ :=
    joinedTogether built built' made made' sinksNodup (fun u => sinksInside)
  refine ⟨joinBuilt built _,large,fun small => ?_⟩
  obtain ⟨plan,k,fitted,rfl,done,start⟩ := accepted small
  have none_ : (sinksOf first).filter (fun u => u ∉ sinksOf first) = [] := by simp
  have latency := joinedLatency methods parts fit fit' fitted rfl rfl
  rw [none_] at latency
  refine ⟨_,done,latency.trans (Nat.max_eq_right (Nat.zero_le _)),fun jobs => ?_⟩
  obtain ⟨k',p,answers,whole,pair,together⟩ := replayAlike
    (R := Together w methods first second (inSeries first second) order order' plan)
    (fun _ _ job together => performTurn resetNode parts fit fit' fitted overwrites together job) start jobs
  exact ⟨k',p,answers,whole,pair,together.nodes⟩

def stacked : DynamicGraphBuilder Nat := ⟨[4,8],[],2⟩

def chained : DynamicGraphBuilder Nat := ⟨[16,32],[(1,0)],2⟩

example : inSeries stacked chained = ⟨[4,8,16,32],[(3,2),(0,3),(1,3)],2⟩ := rfl

theorem stackedBuilt : Built 2 stacked := ⟨⟨[],[],2⟩,[.addNode 4,.addNode 8],rfl,rfl⟩

theorem chainedBuilt : Built 2 chained := ⟨⟨[],[],2⟩,[.addNode 16,.addNode 32,.connect ⟨1⟩ ⟨0⟩],rfl,rfl⟩

theorem stackedCompiled : compile 8 counting stacked = .ok (.ok ⟨[4,8],[0,1],[[],[]],[0,1],List.replicate 4 0,
    List.replicate 2 0,2,8⟩) := rfl

theorem chainedCompiled : compile 8 counting chained = .ok (.ok ⟨[16,32],[1,0],[[1],[]],[0],List.replicate 4 0,
    List.replicate 2 0,2,48⟩) := rfl

theorem seriesActsInTurnStacked : ∃ g h k k' p, compile 8 counting stacked = .ok (.ok g) ∧
    compile 8 counting chained = .ok (.ok h) ∧ compile 8 counting (inSeries stacked chained) = .ok (.ok k) ∧
    k.totalLatency = 8 + 48 ∧
    replay (perform (· % 4) 8 counting) k [.block ⟨[10,20],[9,9],⟨48000,2⟩⟩,.reset,.block ⟨[1],[0,0],⟨48000,2⟩⟩] =
      .ok (k',[[80,100],[],[6,0]]) ∧
    replay (performInTurn (· % 4) 8 counting) (g,h)
      [.block ⟨[10,20],[9,9],⟨48000,2⟩⟩,.reset,.block ⟨[1],[0,0],⟨48000,2⟩⟩] = .ok (p,[[80,100],[],[6,0]]) := by
  obtain ⟨_,_,accepted⟩ := seriesActsInTurn (· % 4) stackedBuilt chainedBuilt stackedCompiled
    chainedCompiled countingOverwrites
  obtain ⟨k,done,latency,runs⟩ := accepted (by decide)
  obtain ⟨k',p,answers,whole,pair,_⟩ := runs [.block ⟨[10,20],[9,9],⟨48000,2⟩⟩,.reset,.block ⟨[1],[0,0],⟨48000,2⟩⟩]
  have known : compile 8 counting (inSeries stacked chained) = .ok (.ok ⟨[4,8,16,32],[0,1,3,2],[[],[],[3],[0,1]],[2],
    List.replicate 8 0,List.replicate 2 0,2,56⟩) := rfl
  cases Except.ok.inj (Except.ok.inj (done.symm.trans known))
  have heard : replay (perform (· % 4) 8 counting) ⟨[4,8,16,32],[0,1,3,2],[[],[],[3],[0,1]],[2],List.replicate 8 0,
      List.replicate 2 0,2,56⟩ [.block ⟨[10,20],[9,9],⟨48000,2⟩⟩,.reset,.block ⟨[1],[0,0],⟨48000,2⟩⟩] =
      .ok (⟨[2,2,2,2],[0,1,3,2],[[],[],[3],[0,1]],[2],[2,24,2,28,6,100,5,84],[5,84],2,56⟩,[[80,100],[],[6,0]]) := by
    decide +kernel
  cases Except.ok.inj (whole.symm.trans heard)
  exact ⟨_,_,_,_,p,stackedCompiled,chainedCompiled,done,latency,whole,pair⟩

theorem besideActsTogether (resetNode : σ → σ) {maxBlock : Nat} (built : Built maxBlock first)
    (built' : Built maxBlock second) (made : compile w methods first = .ok (.ok g))
    (made' : compile w methods second = .ok (.ok h)) (overwrites : Overwrites methods) :
    Built maxBlock (beside first second) ∧
    (2^w ≤ (first.nodes.length + second.nodes.length) * maxBlock →
      compile w methods (beside first second) = .ok (.error .bufferSizeOverflow)) ∧
    ((first.nodes.length + second.nodes.length) * maxBlock < 2^w →
      ∃ k, compile w methods (beside first second) = .ok (.ok k) ∧
        k.totalLatency = max g.totalLatency h.totalLatency ∧
        ∀ jobs, ∃ k' p answers, replay (perform resetNode w methods) k jobs = .ok (k',answers) ∧
          replay (performBeside resetNode w methods) (g,h) jobs = .ok (p,answers) ∧ k'.nodes = p.1.nodes ++ p.2.nodes) := by
  obtain ⟨order,order',fit,fit',rfl,rfl,parts,large,accepted⟩ :=
    joinedTogether built built' made made' List.nodup_nil (by simp)
  refine ⟨joinBuilt built _,large,fun small => ?_⟩
  obtain ⟨plan,k,fitted,rfl,done,start⟩ := accepted small
  have all : (sinksOf first).filter (fun u => u ∉ []) = sinksOf first := by simp
  have latency := joinedLatency methods parts fit fit' fitted rfl rfl
  have bounded : (compiled (α := α) w methods second order').totalLatency ≤ 2^w - 1 := totalBounded fit'
  rw [all,List.map_nil,List.max?_nil,Option.getD_none,saturatingAdd,Nat.zero_add,Nat.min_eq_left bounded] at latency
  refine ⟨_,done,latency,fun jobs => ?_⟩
  obtain ⟨k',p,answers,whole,pair,together⟩ := replayAlike
    (R := Together w methods first second (beside first second) order order' plan)
    (fun _ _ job together => performAside resetNode parts fit fit' fitted overwrites together job) start jobs
  exact ⟨k',p,answers,whole,pair,together.nodes⟩

theorem besideActsTogetherStacked : ∃ g h k k' p, compile 8 counting stacked = .ok (.ok g) ∧
    compile 8 counting chained = .ok (.ok h) ∧ compile 8 counting (beside stacked chained) = .ok (.ok k) ∧
    k.totalLatency = max 8 48 ∧
    replay (perform (· % 4) 8 counting) k [.block ⟨[10,20],[9,9],⟨48000,2⟩⟩,.reset,.block ⟨[1],[0,0],⟨48000,2⟩⟩] =
      .ok (k',[[90,120],[],[7,0]]) ∧
    replay (performBeside (· % 4) 8 counting) (g,h)
      [.block ⟨[10,20],[9,9],⟨48000,2⟩⟩,.reset,.block ⟨[1],[0,0],⟨48000,2⟩⟩] = .ok (p,[[90,120],[],[7,0]]) := by
  obtain ⟨_,_,accepted⟩ := besideActsTogether (· % 4) stackedBuilt chainedBuilt stackedCompiled
    chainedCompiled countingOverwrites
  obtain ⟨k,done,latency,runs⟩ := accepted (by decide)
  obtain ⟨k',p,answers,whole,pair,_⟩ := runs [.block ⟨[10,20],[9,9],⟨48000,2⟩⟩,.reset,.block ⟨[1],[0,0],⟨48000,2⟩⟩]
  have known : compile 8 counting (beside stacked chained) = .ok (.ok ⟨[4,8,16,32],[0,1,3,2],[[],[],[3],[]],[0,1,2],
    List.replicate 8 0,List.replicate 2 0,2,48⟩) := rfl
  cases Except.ok.inj (Except.ok.inj (done.symm.trans known))
  have heard : replay (perform (· % 4) 8 counting) ⟨[4,8,16,32],[0,1,3,2],[[],[],[3],[]],[0,1,2],List.replicate 8 0,
      List.replicate 2 0,2,48⟩ [.block ⟨[10,20],[9,9],⟨48000,2⟩⟩,.reset,.block ⟨[1],[0,0],⟨48000,2⟩⟩] =
      .ok (⟨[2,2,2,2],[0,1,3,2],[[],[],[3],[]],[0,1,2],[2,24,2,28,3,68,2,52],[2,52],2,48⟩,[[90,120],[],[7,0]]) := by
    decide +kernel
  cases Except.ok.inj (whole.symm.trans heard)
  exact ⟨_,_,_,_,p,stackedCompiled,chainedCompiled,done,latency,whole,pair⟩

end Joining
end Riaps.Graph
