import Mathlib.Logic.Equiv.Basic
import Riaps.GraphCutting
import Riaps.GraphLatency

/-! Two builders of one graph. Adding the nodes in another order numbers them
anew, and the order of the connections decides how predecessors, sinks and the
schedule are listed. The compiler answers the same in both cases, and graphs of
one meaning stay of one meaning from call to call when sums may be reordered. -/
namespace Riaps.Graph
open Library.Checks Library.Topological Library.Replay

structure Renamed {σ : Type} (π : Equiv.Perm Nat) (b b' : DynamicGraphBuilder σ) : Prop where
  nodes : ∀ v, b'.nodes[π v]? = b.nodes[v]?
  edges : ∀ u v, (π u,π v) ∈ b'.connections ↔ (u,v) ∈ b.connections

def processEach {σ α : Type} [Zero α] [Add α] (w : Nat) (methods : DspNode σ α) (calls : List (Block α))
    (g : DspGraphInner σ α) : Checked (DspGraphInner σ α × List (List α)) :=
  replay (processBlock w methods) g calls

/- The output slices may hold anything before the call. -/
def Block.Alike {α : Type} (c c' : Block α) : Prop :=
  c'.input = c.input ∧ c'.output.length = c.output.length ∧ c'.ctx = c.ctx

section Renaming
variable {σ α : Type} {π : Equiv.Perm Nat} {b b' : DynamicGraphBuilder σ}

theorem Renamed.symm (renamed : Renamed π b b') : Renamed π.symm b' b := by
  refine ⟨?_,?_⟩
  · intro v
    rw [← renamed.nodes (π.symm v),Equiv.apply_symm_apply]
  · intro u v
    rw [← renamed.edges,Equiv.apply_symm_apply,Equiv.apply_symm_apply]

theorem Renamed.inside (renamed : Renamed π b b') (v : Nat) : π v < b'.nodes.length ↔ v < b.nodes.length := by
  rw [← not_iff_not,Nat.not_lt,Nat.not_lt,← List.getElem?_eq_none_iff,← List.getElem?_eq_none_iff,renamed.nodes]

theorem permImage {xs ys : List Nat} (left : ys.Nodup) (right : xs.Nodup) (same : ∀ v, π v ∈ ys ↔ v ∈ xs) :
    ys.Perm (xs.map π) := by
  refine (List.perm_ext_iff_of_nodup left (right.map π.injective)).mpr ?_
  intro v
  rw [← π.apply_symm_apply v,same,List.mem_map_of_injective π.injective]

theorem Renamed.count (renamed : Renamed π b b') : b'.nodes.length = b.nodes.length := by
  have images : (List.range b'.nodes.length).Perm ((List.range b.nodes.length).map π) :=
    permImage List.nodup_range List.nodup_range (fun v => by simp [renamed.inside])
  simpa using images.length_eq

theorem Renamed.predecessors (renamed : Renamed π b b') (good : WellFormed b) (good' : WellFormed b') (v : Nat) :
    (predecessorsOf b'.connections (π v)).Perm ((predecessorsOf b.connections v).map π) := by
  refine permImage (predecessorsNodup good'.unique _) (predecessorsNodup good.unique v) ?_
  intro u
  rw [memPredecessors,memPredecessors,renamed.edges]

theorem Renamed.sink (renamed : Renamed π b b') {v : Nat} :
    (∀ u, (π v,u) ∉ b'.connections) ↔ ∀ u, (v,u) ∉ b.connections := by
  rw [← π.forall_congr_right]
  simp only [renamed.edges]

theorem Renamed.source (renamed : Renamed π b b') {v : Nat} :
    (∀ u, (u,π v) ∉ b'.connections) ↔ ∀ u, (u,v) ∉ b.connections := by
  rw [← π.forall_congr_right]
  simp only [renamed.edges]

theorem Renamed.sinks (renamed : Renamed π b b') : (sinksOf b').Perm ((sinksOf b).map π) := by
  refine permImage (List.nodup_range.filter _) (List.nodup_range.filter _) ?_
  intro v
  unfold sinksOf
  rw [memSinks,memSinks,renamed.inside,renamed.sink]

theorem Renamed.acyclic (renamed : Renamed π b b') (acyclic : Acyclic (Edge b'.connections)) :
    Acyclic (Edge b.connections) := by
  intro v cycle
  exact acyclic (π v) (cycle.lift π (fun u v step => (renamed.edges u v).mpr step))

theorem Renamed.totals (renamed : Renamed π b b') (methods : DspNode σ α) : totals methods b ⊆ totals methods b' := by
  rintro m ⟨path,leads,rfl⟩
  obtain ⟨first,starts,low,source⟩ := leads.source
  obtain ⟨last,ends,high,sink⟩ := leads.sink
  refine ⟨path.map π,⟨?_,⟨π first,?_,?_,?_⟩,⟨π last,?_,?_,?_⟩⟩,?_⟩
  · exact List.isChain_map_of_isChain π (fun u v step => (renamed.edges u v).mpr step) leads.chain
  · rw [List.head?_map,starts]
    rfl
  · exact (renamed.inside first).mpr low
  · exact renamed.source.mpr source
  · rw [List.getLast?_map,ends]
    rfl
  · exact (renamed.inside last).mpr high
  · exact renamed.sink.mpr sink
  · rw [List.map_map]
    congr 1
    apply List.map_congr_left
    intro v _
    simp only [Function.comp_apply,latencyAt,renamed.nodes]

end Renaming

section Compiling
variable {σ α : Type} [Zero α] {w : Nat} {methods : DspNode σ α} {π : Equiv.Perm Nat} {b b' : DynamicGraphBuilder σ}

/-- What both builders are known to have once the compiler accepted them. -/
structure Twins (w : Nat) (π : Equiv.Perm Nat) (b b' : DynamicGraphBuilder σ) (order order' : List Nat) : Prop where
  renamed : Renamed π b b'
  good : WellFormed b
  good' : WellFormed b'
  kahn : Kahn b.nodes.length b.connections order []
  kahn' : Kahn b'.nodes.length b'.connections order' []
  all : order.length = b.nodes.length
  all' : order'.length = b'.nodes.length
  block : b'.maxBlock = b.maxBlock
  small : b.nodes.length * b.maxBlock < 2^w

theorem compileRenamed (w : Nat) (methods : DspNode σ α) (good : WellFormed b) (good' : WellFormed b')
    (block : b'.maxBlock = b.maxBlock) (renamed : Renamed π b b') :
    (∃ e, compile w methods b = .ok (.error e) ∧ compile w methods b' = .ok (.error e)) ∨
    ∃ order order', Twins w π b b' order order' ∧ b.nodes.length ≠ 0 ∧
      compile w methods b = .ok (.ok (compiled w methods b order)) ∧
      compile w methods b' = .ok (.ok (compiled w methods b' order')) := by
  have count := renamed.count
  by_cases none_ : b.nodes.length = 0
  · exact .inl ⟨.empty,by simp [compile,none_],by simp [compile,count,none_]⟩
  · obtain ⟨order,kahn,done⟩ := compileOk w methods good none_
    obtain ⟨order',kahn',done'⟩ := compileOk w methods good' (by rw [count]; exact none_)
    have agree : order'.length = b'.nodes.length ↔ order.length = b.nodes.length := by
      rw [kahn.finished good.inside,kahn'.finished good'.inside]
      exact ⟨renamed.acyclic,renamed.symm.acyclic⟩
    by_cases all : order.length = b.nodes.length
    · have all' := agree.mpr all
      rw [if_neg (by simpa using all)] at done
      rw [if_neg (by simpa using all'),count,block] at done'
      by_cases small : b.nodes.length * b.maxBlock < 2^w
      · rw [if_pos small] at done done'
        exact .inr ⟨order,order',⟨renamed,good,good',kahn,kahn',all,all',block,small⟩,none_,done,done'⟩
      · rw [if_neg small] at done done'
        exact .inl ⟨.bufferSizeOverflow,done,done'⟩
    · rw [if_pos all] at done
      rw [if_pos (fun all' => all (agree.mp all'))] at done'
      exact .inl ⟨.cycleDetected,done,done'⟩

theorem latencyRenamed {order order' : List Nat} (twins : Twins w π b b' order order') (some_ : b.nodes.length ≠ 0) :
    (compiled w methods b order).totalLatency = (compiled w methods b' order').totalLatency := by
  have some' : b'.nodes.length ≠ 0 := by rw [twins.renamed.count]; exact some_
  have same : totals methods b = totals methods b' :=
    Set.Subset.antisymm (twins.renamed.totals methods) (twins.renamed.symm.totals methods)
  obtain ⟨m,greatest,total⟩ : ∃ m, IsGreatest (totals methods b) m ∧
      (compiled w methods b order).totalLatency = min (2^w - 1) m :=
    compiledLatency twins.good some_ twins.kahn twins.all
  obtain ⟨m',greatest',total'⟩ : ∃ m, IsGreatest (totals methods b') m ∧
      (compiled w methods b' order').totalLatency = min (2^w - 1) m :=
    compiledLatency twins.good' some' twins.kahn' twins.all'
  rw [same] at greatest
  rw [total,total',greatest.unique greatest']

/-- A compiled graph between two calls: the plan of its builder over states and buffers of the right sizes. -/
structure Running (w : Nat) (methods : DspNode σ α) (b : DynamicGraphBuilder σ) (order : List Nat)
    (g : DspGraphInner σ α) : Prop where
  plan : g = onBuffers (compiled w methods b order) g.nodes g.nodeOutputs g.mixBuffer
  states : g.nodes.length = b.nodes.length
  outputs : g.nodeOutputs.length = b.nodes.length * b.maxBlock
  mix : g.mixBuffer.length = b.maxBlock

theorem compiledRunning (b : DynamicGraphBuilder σ) (order : List Nat) :
    Running w methods b order (compiled w methods b order) :=
  ⟨rfl,rfl,List.length_replicate,List.length_replicate⟩

end Compiling

section Mixing
variable {α : Type} [Add α]

theorem zipSumComm (swap : ∀ x y z : α, x + y + z = x + z + y) (xs ys zs : List α) :
    List.zipWith (· + ·) (List.zipWith (· + ·) xs ys) zs = List.zipWith (· + ·) (List.zipWith (· + ·) xs zs) ys := by
  induction xs generalizing ys zs with
  | nil => rfl
  | cons x xs ih =>
    cases ys with
    | nil => cases zs <;> rfl
    | cons y ys =>
      cases zs with
      | nil => rfl
      | cons z zs =>
        simp only [List.zipWith_cons_cons,swap x y z,ih]

theorem mixedPerm [Zero α] (swap : ∀ x y z : α, x + y + z = x + z + y) (count : Nat) {rows rows' : List (List α)}
    (perm : rows.Perm rows') : mixed count rows = mixed count rows' :=
  perm.foldl_eq' (fun x _ y _ z => zipSumComm swap z x y) _

end Mixing

section Meaning
variable {σ α : Type} [Zero α] [Add α] {w : Nat} {methods : DspNode σ α} {π : Equiv.Perm Nat} {b b' : DynamicGraphBuilder σ}

theorem fedRenamed (swap : ∀ x y z : α, x + y + z = x + z + y) (renamed : Renamed π b b') (good : WellFormed b)
    (good' : WellFormed b') {count : Nat} {input : List α} {outs outs' : Nat → List α} {v : Nat}
    (same : ∀ u, Edge b.connections u v → outs' (π u) = outs u) :
    fed b' count input outs' (π v) = fed b count input outs v := by
  have perm := renamed.predecessors good good' v
  unfold fed
  by_cases root : predecessorsOf b.connections v = []
  · rw [root] at perm
    rw [if_pos perm.eq_nil,if_pos root]
  · have inner : predecessorsOf b'.connections (π v) ≠ [] := by
      intro none_
      rw [none_] at perm
      exact root (List.map_eq_nil_iff.mp perm.symm.eq_nil)
    rw [if_neg inner,if_neg root,mixedPerm swap count (perm.map outs'),List.map_map]
    congr 1
    apply List.map_congr_left
    intro u mem
    exact same u (memPredecessors.mp mem)

/-- What two builders need to work as one, node v of the first for node π v of the second. -/
structure Matched (α : Type) [Zero α] [Add α] (w : Nat) (π : Equiv.Perm Nat) (b b' : DynamicGraphBuilder σ)
    (order order' : List Nat) : Prop where
  good : WellFormed b
  good' : WellFormed b'
  kahn : Kahn b.nodes.length b.connections order []
  kahn' : Kahn b'.nodes.length b'.connections order' []
  all : order.length = b.nodes.length
  all' : order'.length = b'.nodes.length
  block : b'.maxBlock = b.maxBlock
  small : b.nodes.length * b.maxBlock < 2^w
  small' : b'.nodes.length * b'.maxBlock < 2^w
  inside : ∀ v, π v < b'.nodes.length ↔ v < b.nodes.length
  feeds : ∀ (count : Nat) (input : List α) (outs outs' : Nat → List α) (v : Nat),
    (∀ u ∈ predecessorsOf b.connections v, outs' (π u) = outs u) →
      fed b' count input outs' (π v) = fed b count input outs v
  sinks : ∀ (count : Nat) (outs outs' : Nat → List α), (∀ v ∈ sinksOf b, outs' (π v) = outs v) →
    mixed count ((sinksOf b').map outs') = mixed count ((sinksOf b).map outs)

theorem Twins.matched {order order' : List Nat} (twins : Twins w π b b' order order')
    (swap : ∀ x y z : α, x + y + z = x + z + y) : Matched α w π b b' order order' := by
  obtain ⟨renamed,good,good',kahn,kahn',all,all',block,small⟩ := twins
  refine ⟨good,good',kahn,kahn',all,all',block,small,by rw [renamed.count,block]; exact small,renamed.inside,?_,?_⟩
  · intro count input outs outs' v ready
    exact fedRenamed swap renamed good good' (fun u step => ready u (memPredecessors.mpr step))
  · intro count outs outs' same
    rw [mixedPerm swap count (renamed.sinks.map outs'),List.map_map]
    exact congrArg (mixed count) (List.map_congr_left same)

/-- The two graphs between two calls: one plan each, and every node in the state of its counterpart. -/
structure Mirrored (w : Nat) (methods : DspNode σ α) (π : Equiv.Perm Nat) (b b' : DynamicGraphBuilder σ)
    (order order' : List Nat) (g g' : DspGraphInner σ α) : Prop where
  here : Running w methods b order g
  there : Running w methods b' order' g'
  nodes : ∀ v, g'.nodes[π v]? = g.nodes[v]?

theorem processMirrored {order order' : List Nat} (matched : Matched α w π b b' order order') (overwrites : Overwrites methods)
    {g g' : DspGraphInner σ α} (mirrored : Mirrored w methods π b b' order order' g g') {c c' : Block α}
    (alike : c.Alike c') :
    ∃ r r', process w methods g c.input c.output c.ctx = .ok r ∧ process w methods g' c'.input c'.output c'.ctx = .ok r' ∧
      r.output = r'.output ∧ Mirrored w methods π b b' order order' r.graph r'.graph := by
  obtain ⟨good,good',kahn,kahn',all,all',block,small,small',inside,feeds,sinks⟩ := matched
  obtain ⟨running,running',same⟩ := mirrored
  obtain ⟨inputs,lengths,contexts⟩ := alike
  obtain ⟨states,outputs,mix,calls,outs,ran,stateCount,outputCount,mixCount,listed,_,served⟩ :=
    compiledServed good kahn small overwrites running.states running.outputs running.mix c.input c.output c.ctx rfl
  have samples : min (min c.input.length c.output.length) b.maxBlock =
      min (min c'.input.length c'.output.length) b'.maxBlock := by
    rw [inputs,lengths,block]
  obtain ⟨states',outputs',mix',calls',outs',ran',stateCount',outputCount',mixCount',listed',_,served'⟩ :=
    compiledServed good' kahn' small' overwrites running'.states running'.outputs running'.mix c'.input c'.output c'.ctx
      samples
  rw [← running.plan] at ran
  rw [← running'.plan] at ran'
  rw [inputs,contexts] at served'
  have inOrder : ∀ v, v < b.nodes.length → v ∈ calls.map Call.node := by
    intro v low
    rw [listed]
    exact (kahn.permutes all).mem_iff.mpr (List.mem_range.mpr low)
  have inOrder' : ∀ v ∈ calls.map Call.node, π v ∈ calls'.map Call.node := by
    intro v mem
    rw [listed] at mem
    rw [listed']
    exact (kahn'.permutes all').mem_iff.mpr (List.mem_range.mpr
      ((inside v).mpr (kahn.inside v (List.mem_append_left _ mem))))
  have equal := servedAlong π (listed ▸ kahn.scheduled) inOrder' (fun v _ => same v) (fun v _ => feeds _ _ _ _ v)
    served served'
  refine ⟨_,_,ran,ran',?_,⟨rfl,stateCount,outputCount,mixCount⟩,⟨rfl,stateCount',outputCount',mixCount'⟩,?_⟩
  · have sums := sinks (min (min c.input.length c.output.length) b.maxBlock) outs outs'
      (fun v mem => (equal v (inOrder v (sinksInside mem))).1)
    simp only [lengths]
    exact congrArg (· ++ _) sums.symm
  · intro v
    rcases Nat.lt_or_ge v b.nodes.length with low | beyond
    · exact (equal v (inOrder v low)).2
    · have outside : b'.nodes.length ≤ π v := Nat.not_lt.mp (fun low => Nat.not_lt.mpr beyond ((inside v).mp low))
      change states'[π v]? = states[v]?
      rw [List.getElem?_eq_none (stateCount' ▸ outside),List.getElem?_eq_none (stateCount ▸ beyond)]

theorem processEachMirrored {order order' : List Nat} (matched : Matched α w π b b' order order')
    (overwrites : Overwrites methods) {g g' : DspGraphInner σ α}
    (mirrored : Mirrored w methods π b b' order order' g g') {calls calls' : List (Block α)}
    (alike : List.Forall₂ Block.Alike calls calls') :
    ∃ r r', processEach w methods calls g = .ok r ∧ processEach w methods calls' g' = .ok r' ∧ r'.2 = r.2 ∧
      ∀ v, r'.1.nodes[π v]? = r.1.nodes[v]? := by
  have related : ∀ g g' (c c' : Block α), Mirrored w methods π b b' order order' g g' → c.Alike c' →
      ∃ r r' answer answer', processBlock w methods g c = .ok (r,answer) ∧ processBlock w methods g' c' = .ok (r',answer') ∧
        Mirrored w methods π b b' order order' r r' ∧ answer = answer' := by
    intro g g' c c' mirrored alike
    obtain ⟨r,r',done,done',output,next⟩ := processMirrored matched overwrites mirrored alike
    exact ⟨_,_,_,_,processBlockOk.mpr ⟨r,done,rfl,rfl⟩,processBlockOk.mpr ⟨r',done',rfl,rfl⟩,next,output⟩
  obtain ⟨last,last',answers,answers',ran,ran',after,same⟩ := replayRelated related mirrored alike
  rw [List.forall₂_eq_eq_eq] at same
  exact ⟨(last,answers),(last',answers'),ran,ran',same.symm,after.nodes⟩

theorem buildImmaterial (w : Nat) (methods : DspNode σ α) {maxBlock : Nat} (built : Built maxBlock b)
    (built' : Built maxBlock b') (renamed : Renamed π b b') :
    (∃ e, compile w methods b = .ok (.error e) ∧ compile w methods b' = .ok (.error e)) ∨
    ∃ g g', compile w methods b = .ok (.ok g) ∧ compile w methods b' = .ok (.ok g') ∧
      g.totalLatency = g'.totalLatency ∧
      ((∀ x y : α, x + y = y + x) → (∀ x y z : α, x + y + z = x + (y + z)) → Overwrites methods →
        ∀ calls calls', List.Forall₂ Block.Alike calls calls' →
          ∃ r r', processEach w methods calls g = .ok r ∧ processEach w methods calls' g' = .ok r' ∧ r'.2 = r.2 ∧
            ∀ v, r'.1.nodes[π v]? = r.1.nodes[v]?) := by
  obtain ⟨good,rfl⟩ := builtWellFormed built
  obtain ⟨good',block⟩ := builtWellFormed built'
  rcases compileRenamed w methods good good' block renamed with failed | ⟨order,order',twins,some_,done,done'⟩
  · exact .inl failed
  · refine .inr ⟨_,_,done,done',latencyRenamed twins some_,?_⟩
    intro comm assoc overwrites calls calls' alike
    have swap : ∀ x y z : α, x + y + z = x + z + y := by
      intro x y z
      rw [assoc,comm y z,← assoc]
    have start : Mirrored w methods π b b' order order' (compiled w methods b order) (compiled w methods b' order') :=
      ⟨compiledRunning b order,compiledRunning b' order',renamed.nodes⟩
    exact processEachMirrored (twins.matched swap) overwrites start alike

end Meaning

theorem rewiredRenamed : Renamed (Equiv.swap 0 1) (⟨[4,8,32],[(2,1),(0,1)],16⟩ : DynamicGraphBuilder Nat)
    ⟨[8,4,32],[(1,0),(2,0)],16⟩ := by
  refine ⟨?_,?_⟩
  · intro v
    match v with
    | 0 => rfl
    | 1 => rfl
    | v+2 =>
      rw [Equiv.swap_apply_of_ne_of_ne (by omega) (by omega)]
      rfl
  · intro u v
    have fixed : Equiv.swap 0 1 2 = 2 := rfl
    simp [Equiv.swap_apply_eq_iff,fixed,or_comm]

theorem buildImmaterialRewired : ∃ g g', compile 8 counting ⟨[4,8,32],[(2,1),(0,1)],16⟩ = .ok (.ok g) ∧
    compile 8 counting ⟨[8,4,32],[(1,0),(2,0)],16⟩ = .ok (.ok g') ∧ g.totalLatency = g'.totalLatency ∧
    ∀ calls, ∃ r r', processEach 8 counting calls g = .ok r ∧ processEach 8 counting calls g' = .ok r' ∧ r'.2 = r.2 ∧
      ∀ v, r'.1.nodes[Equiv.swap 0 1 v]? = r.1.nodes[v]? := by
  have built : Built 16 (⟨[4,8,32],[(2,1),(0,1)],16⟩ : DynamicGraphBuilder Nat) := ⟨⟨[],[],16⟩,rewired,rfl,rfl⟩
  have built' : Built 16 (⟨[8,4,32],[(1,0),(2,0)],16⟩ : DynamicGraphBuilder Nat) :=
    ⟨⟨[],[],16⟩,[.addNode 8,.addNode 4,.connect ⟨1⟩ ⟨0⟩,.addNode 32,.connect ⟨2⟩ ⟨0⟩],rfl,rfl⟩
  have run : compile 8 counting ⟨[4,8,32],[(2,1),(0,1)],16⟩ = .ok (.ok ⟨[4,8,32],[0,2,1],[[],[2,0],[]],[1],
      List.replicate 48 0,List.replicate 16 0,16,40⟩) := rfl
  rcases buildImmaterial 8 counting built built' rewiredRenamed with ⟨e,failed,_⟩ | ⟨g,g',done,done',latency,meaning⟩
  · cases failed.symm.trans run
  · refine ⟨g,g',done,done',latency,?_⟩
    intro calls
    have alike : List.Forall₂ Block.Alike calls calls := List.forall₂_same.mpr (fun c _ => ⟨rfl,rfl,rfl⟩)
    exact meaning Int.add_comm Int.add_assoc countingOverwrites calls calls alike

end Riaps.Graph
