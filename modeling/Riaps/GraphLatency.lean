import Riaps.GraphSchedule
import Riaps.Library.LongestPath

/-! The total latency of a compiled graph. The compiler fills one table along the order
with the latency on arrival at each node, saturating at the largest index. Every entry
is final when it is written, and it is the weight of a heaviest path into its node. -/
namespace Riaps.Graph
open Library.Checks Library.Tables Library.Topological Library.LongestPath

section Table
variable {σ α : Type} {w : Nat} {methods : DspNode σ α} {nodes : List σ} {edges : List (Nat × Nat)}

theorem pathLatencyKept {order : List Nat} {path : Nat → Nat} {v : Nat} (other : v ∉ order) :
    pathLatency w methods nodes edges order path v = path v := by
  induction order generalizing path with
  | nil => rfl
  | cons index rest ih =>
    obtain ⟨apart,later⟩ := List.ne_and_not_mem_of_not_mem_cons other
    rw [pathLatency,List.foldl_cons]
    exact (ih later).trans (Function.update_of_ne apart _ _)

theorem pathLatencyAppend (front back : List Nat) (path : Nat → Nat) :
    pathLatency w methods nodes edges (front ++ back) path =
      pathLatency w methods nodes edges back (pathLatency w methods nodes edges front path) :=
  List.foldl_append

/- The table solves the equation of every node at once, not only at the moment of its update. -/
theorem pathLatencyEquation {order : List Nat} (nodup : order.Nodup) (scheduled : Scheduled (Edge edges) order)
    {v : Nat} (listed : v ∈ order) (path : Nat → Nat) :
    pathLatency w methods nodes edges order path v = saturatingAdd w
      (arrival edges (pathLatency w methods nodes edges order path) v) (latencyAt methods nodes v) := by
  obtain ⟨before,after,rfl⟩ := List.append_of_mem listed
  obtain ⟨_,fresh,apart⟩ := List.nodup_append.mp nodup
  have late : v ∉ after := (List.nodup_cons.mp fresh).1
  have settled : ∀ u ∈ predecessorsOf edges v, pathLatency w methods nodes edges (before ++ v :: after) path u =
      pathLatency w methods nodes edges before path u := by
    intro u mem
    have earlier := scheduled before v after rfl u (memPredecessors.mp mem)
    rw [pathLatencyAppend]
    exact pathLatencyKept (fun later => apart u earlier u later rfl)
  have now : pathLatency w methods nodes edges (before ++ v :: after) path v = saturatingAdd w
      (arrival edges (pathLatency w methods nodes edges before path) v) (latencyAt methods nodes v) := by
    rw [pathLatencyAppend,pathLatency,List.foldl_cons]
    exact (pathLatencyKept late).trans (Function.update_self _ _ _)
  rw [now]
  congr 1
  unfold arrival
  rw [List.map_congr_left settled]

theorem pathLatencyLongest {order : List Nat} (nodup : order.Nodup) (scheduled : Scheduled (Edge edges) order) :
    ∀ v ∈ order, ∃ m, IsGreatest (weights (Edge edges) (latencyAt methods nodes) v) m ∧
      pathLatency w methods nodes edges order (fun _ => 0) v = min (2^w - 1) m := by
  refine scheduledInduction scheduled ?_
  intro v listed ready
  choose! f greatest capped using ready
  have sources : ∀ u, u ∈ predecessorsOf edges v ↔ Edge edges u v := fun u => memPredecessors
  have equation : pathLatency w methods nodes edges order (fun _ => 0) v = _ :=
    pathLatencyEquation nodup scheduled listed (fun _ => 0)
  by_cases first : predecessorsOf edges v = []
  · have alone : ∀ u, ¬Edge edges u v := by
      intro u step
      have mem := (sources u).mpr step
      rw [first] at mem
      cases mem
    refine ⟨latencyAt methods nodes v,longestSource alone,?_⟩
    rw [equation,arrival,first,saturatingAdd]
    simp [Nat.min_comm]
  · refine ⟨_,longestThrough sources first (fun u mem => greatest u ((sources u).mp mem)),?_⟩
    have arriving : arrival edges (pathLatency w methods nodes edges order (fun _ => 0)) v =
        min (2^w - 1) (((predecessorsOf edges v).map f).max?.getD 0) :=
      cappedMax (fun u mem => capped u ((sources u).mp mem))
    rw [equation,arriving,saturatingAdd]
    omega

end Table

section Total
variable {σ α : Type} {w : Nat} {methods : DspNode σ α} {b : DynamicGraphBuilder σ}

structure SourceToSink (b : DynamicGraphBuilder σ) (path : List Nat) : Prop where
  chain : path.IsChain (Edge b.connections)
  source : ∃ first, path.head? = some first ∧ first < b.nodes.length ∧ ∀ u, (u,first) ∉ b.connections
  sink : ∃ last, path.getLast? = some last ∧ last < b.nodes.length ∧ ∀ u, (last,u) ∉ b.connections

def totals (methods : DspNode σ α) (b : DynamicGraphBuilder σ) : Set Nat :=
  {m | ∃ path, SourceToSink b path ∧ (path.map (latencyAt methods b.nodes)).sum = m}

theorem memSinks {v : Nat} : v ∈ (List.range b.nodes.length).filter (fun v => (successorsOf b.connections v).isEmpty) ↔
    v < b.nodes.length ∧ ∀ u, (v,u) ∉ b.connections := by
  simp [List.isEmpty_iff,List.eq_nil_iff_forall_not_mem,memSuccessors]

theorem inboundToSink (good : WellFormed b) {v : Nat} (low : v < b.nodes.length) (last : ∀ u, (v,u) ∉ b.connections)
    {path : List Nat} : Inbound (Edge b.connections) v path ↔ SourceToSink b path ∧ path.getLast? = some v := by
  constructor
  · intro inbound
    refine ⟨⟨inbound.chain,?_,v,inbound.last,low,last⟩,inbound.last⟩
    cases path with
    | nil => cases inbound.last
    | cons first rest =>
      refine ⟨first,rfl,?_,inbound.source first rfl⟩
      cases rest with
      | nil =>
        cases Option.some.inj inbound.last
        exact low
      | cons second rest => exact (good.inside _ (List.isChain_cons_cons.mp inbound.chain).1).1
  · rintro ⟨path,ends⟩
    refine ⟨path.chain,?_,ends⟩
    intro x here u
    obtain ⟨first,there,_,source⟩ := path.source
    cases Option.some.inj (there.symm.trans here)
    exact source u

theorem lastIsSink (good : WellFormed b) {order : List Nat} (kahn : Kahn b.nodes.length b.connections order [])
    (all : order.length = b.nodes.length) {v : Nat} (last : order.getLast? = some v) :
    v < b.nodes.length ∧ ∀ u, (v,u) ∉ b.connections := by
  obtain ⟨front,rfl⟩ := List.getLast?_eq_some_iff.mp last
  have nodup : (front ++ [v]).Nodup := by simpa using kahn.nodup
  refine ⟨kahn.inside v (by simp),?_⟩
  intro u step
  have listed := (kahn.permutes all).mem_iff.mpr (List.mem_range.mpr (good.inside _ step).2)
  have before := scheduledBefore nodup kahn.scheduled step listed
  have fresh : v ∉ front := fun mem => (List.nodup_append.mp nodup).2.2 v mem v (by simp) rfl
  have bound := List.idxOf_lt_length_of_mem listed
  rw [List.idxOf_append_of_notMem fresh,List.idxOf_cons_self] at before
  simp at bound
  omega

theorem compiledLatency [Zero α] (good : WellFormed b) (some_ : b.nodes.length ≠ 0) {order : List Nat}
    (kahn : Kahn b.nodes.length b.connections order []) (all : order.length = b.nodes.length) :
    ∃ m, IsGreatest (totals methods b) m ∧ (compiled (α := α) w methods b order).totalLatency = min (2^w - 1) m := by
  have nodup : order.Nodup := by simpa using kahn.nodup
  have listed : ∀ v, v < b.nodes.length → v ∈ order :=
    fun v low => (kahn.permutes all).mem_iff.mpr (List.mem_range.mpr low)
  have longest : ∀ v ∈ order, ∃ m, IsGreatest (weights (Edge b.connections) (latencyAt methods b.nodes) v) m ∧
      pathLatency w methods b.nodes b.connections order (fun _ => 0) v = min (2^w - 1) m :=
    pathLatencyLongest nodup kahn.scheduled
  choose! f greatest capped using longest
  obtain ⟨v,last⟩ : ∃ v, order.getLast? = some v := by
    cases ends : order.getLast? with
    | none =>
      rw [List.getLast?_eq_none_iff.mp ends] at all
      exact absurd all.symm some_
    | some v => exact ⟨v,rfl⟩
  have sinks : (List.range b.nodes.length).filter (fun v => (successorsOf b.connections v).isEmpty) ≠ [] := by
    intro none_
    have mem := memSinks.mpr (lastIsSink good kahn all last)
    rw [none_] at mem
    cases mem
  have across := greatestOver (fun v mem => greatest v (listed v (memSinks.mp mem).1)) sinks
  refine ⟨_,?_,cappedMax (fun v mem => capped v (listed v (memSinks.mp mem).1))⟩
  convert across using 1
  ext m
  constructor
  · rintro ⟨path,leads,rfl⟩
    obtain ⟨v,ends,low,sink⟩ := leads.sink
    exact ⟨v,memSinks.mpr ⟨low,sink⟩,path,(inboundToSink good low sink).mpr ⟨leads,ends⟩,rfl⟩
  · rintro ⟨v,mem,path,inbound,rfl⟩
    obtain ⟨low,sink⟩ := memSinks.mp mem
    exact ⟨path,((inboundToSink good low sink).mp inbound).1,rfl⟩

theorem totalLatencyLongest [Zero α] {maxBlock : Nat} {g : DspGraphInner σ α} (built : Built maxBlock b)
    (ok : compile w methods b = .ok (.ok g)) :
    ∃ m, IsGreatest {m | ∃ path, SourceToSink b path ∧ (path.map (latencyAt methods b.nodes)).sum = m} m ∧
      g.totalLatency = min (2^w - 1) m := by
  obtain ⟨good,_⟩ := builtWellFormed built
  obtain ⟨order,kahn,all,_,rfl⟩ := compileAccepted w methods good ok
  have some_ : b.nodes.length ≠ 0 := by
    intro none_
    simp [compile,none_] at ok
  exact compiledLatency good some_ kahn all

end Total

theorem totalLatencyLongestSaturated :
    ∃ m, IsGreatest {m | ∃ path, SourceToSink (⟨[4,8,250],[(2,1),(0,1)],16⟩ : DynamicGraphBuilder Nat) path ∧
      (path.map (latencyAt counting [4,8,250])).sum = m} m ∧ 255 = min (2^8 - 1) m := by
  have built : Built 16 (⟨[4,8,250],[(2,1),(0,1)],16⟩ : DynamicGraphBuilder Nat) :=
    ⟨⟨[],[],16⟩,[.addNode 4,.addNode 8,.addNode 250,.connect ⟨2⟩ ⟨1⟩,.connect ⟨0⟩ ⟨1⟩],rfl,rfl⟩
  have run : compile 8 counting ⟨[4,8,250],[(2,1),(0,1)],16⟩ = .ok (.ok ⟨[4,8,250],[0,2,1],[[],[2,0],[]],[1],
      List.replicate 48 0,List.replicate 16 0,16,255⟩) := rfl
  exact totalLatencyLongest built run

end Riaps.Graph
