import Riaps.GraphCutting
import Riaps.GraphLatency

/-! Two graphs built into one. The nodes and connections of the second builder are
added behind those of the first; the nodes of the second that read the graph input
may be connected to nodes of the first. The compiler accepts the whole when it
accepts the parts, and the latencies of the parts decide the latency of the whole. -/
namespace Riaps.Graph
open Library.Checks Library.Topological

section Builders
variable {σ : Type} {first second whole b : DynamicGraphBuilder σ} {feeds : List Nat}

def headsOf (b : DynamicGraphBuilder σ) : List Nat :=
  (List.range b.nodes.length).filter (fun v => (predecessorsOf b.connections v).isEmpty)

def shift (n : Nat) (e : Nat × Nat) : Nat × Nat := (n + e.1,n + e.2)

def wire (e : Nat × Nat) : Edit σ := .connect ⟨e.1⟩ ⟨e.2⟩

def linksTo (n : Nat) (feeds heads : List Nat) : List (Nat × Nat) :=
  heads.flatMap (fun v => feeds.map (fun u => (u,n + v)))

/-- The edits that add the second graph and feed its heads from nodes of the first. -/
def joinEdits (first second : DynamicGraphBuilder σ) (feeds : List Nat) : List (Edit σ) :=
  second.nodes.map .addNode ++ (second.connections.map (shift first.nodes.length) ++
    linksTo first.nodes.length feeds (headsOf second)).map wire

def join (first second : DynamicGraphBuilder σ) (feeds : List Nat) : DynamicGraphBuilder σ :=
  (joinEdits first second feeds).foldl edit first

def inSeries (first second : DynamicGraphBuilder σ) : DynamicGraphBuilder σ := join first second (sinksOf first)

def beside (first second : DynamicGraphBuilder σ) : DynamicGraphBuilder σ := join first second []

theorem addAll (b : DynamicGraphBuilder σ) (nodes : List σ) :
    (nodes.map Edit.addNode).foldl edit b = {b with nodes := b.nodes ++ nodes} := by
  induction nodes generalizing b with
  | nil => simp
  | cons node nodes ih =>
    rw [List.map_cons,List.foldl_cons,ih]
    simp [edit,addNode]

theorem wireAll (edges : List (Nat × Nat)) (inside : ∀ e ∈ edges, e.1 < b.nodes.length ∧ e.2 < b.nodes.length)
    (unique : (b.connections ++ edges).Nodup) :
    (edges.map wire).foldl edit b = {b with connections := b.connections ++ edges} := by
  induction edges generalizing b with
  | nil => simp
  | cons e edges ih =>
    obtain ⟨here,others⟩ := List.forall_mem_cons.mp inside
    have fresh : e ∉ b.connections := fun mem => (List.nodup_append.mp unique).2.2 e mem e List.mem_cons_self rfl
    have made : edit b (wire e) = {b with connections := b.connections ++ [e]} := by
      simp [edit,wire,connect,Nat.not_le.mpr here.1,Nat.not_le.mpr here.2,fresh]
    have rest := ih (b := {b with connections := b.connections ++ [e]}) others (by simpa using unique)
    rw [List.map_cons,List.foldl_cons,made,rest]
    simp

@[simp] theorem predecessorsAppend (front back : List (Nat × Nat)) (v : Nat) :
    predecessorsOf (front ++ back) v = predecessorsOf front v ++ predecessorsOf back v := by
  simp [predecessorsOf]

@[simp] theorem successorsAppend (front back : List (Nat × Nat)) (u : Nat) :
    successorsOf (front ++ back) u = successorsOf front u ++ successorsOf back u := by
  simp [successorsOf]

theorem predecessorsBeyond (good : WellFormed b) {v : Nat} (beyond : b.nodes.length ≤ v) :
    predecessorsOf b.connections v = [] := by
  refine List.eq_nil_iff_forall_not_mem.mpr ?_
  intro u mem
  exact Nat.not_le.mpr (good.inside _ (memPredecessors.mp mem)).2 beyond

theorem successorsBeyond (good : WellFormed b) {u : Nat} (beyond : b.nodes.length ≤ u) :
    successorsOf b.connections u = [] := by
  refine List.eq_nil_iff_forall_not_mem.mpr ?_
  intro v mem
  exact Nat.not_le.mpr (good.inside _ (memSuccessors.mp mem)).1 beyond

theorem predecessorsShift (n : Nat) (edges : List (Nat × Nat)) (v : Nat) :
    predecessorsOf (edges.map (shift n)) (n + v) = (predecessorsOf edges v).map (n + ·) := by
  induction edges with
  | nil => rfl
  | cons e edges ih =>
    simp only [predecessorsOf] at ih ⊢
    by_cases same : e.2 = v <;> simp_all [shift]

theorem successorsShift (n : Nat) (edges : List (Nat × Nat)) (u : Nat) :
    successorsOf (edges.map (shift n)) (n + u) = (successorsOf edges u).map (n + ·) := by
  induction edges with
  | nil => rfl
  | cons e edges ih =>
    simp only [successorsOf] at ih ⊢
    by_cases same : e.1 = u <;> simp_all [shift]

theorem shiftedHigh {n : Nat} {edges : List (Nat × Nat)} {e : Nat × Nat} (mem : e ∈ edges.map (shift n)) :
    n ≤ e.1 ∧ n ≤ e.2 := by
  obtain ⟨e,_,rfl⟩ := List.mem_map.mp mem
  exact ⟨Nat.le_add_right _ _,Nat.le_add_right _ _⟩

theorem memLinks {n : Nat} {feeds heads : List Nat} {e : Nat × Nat} :
    e ∈ linksTo n feeds heads ↔ e.1 ∈ feeds ∧ ∃ v ∈ heads, e.2 = n + v := by
  obtain ⟨u,v⟩ := e
  simp only [linksTo,List.mem_flatMap,List.mem_map,Prod.mk.injEq]
  constructor
  · rintro ⟨x,head,u',fed,rfl,rfl⟩
    exact ⟨fed,x,head,rfl⟩
  · rintro ⟨fed,x,head,rfl⟩
    exact ⟨x,head,u,fed,rfl,rfl⟩

theorem linksNodup (n : Nat) {feeds heads : List Nat} (once : feeds.Nodup) (distinct : heads.Nodup) :
    (linksTo n feeds heads).Nodup := by
  refine List.nodup_flatMap.mpr ⟨?_,?_⟩
  · exact fun v _ => once.map (fun x y same => (Prod.mk.inj same).1)
  · refine distinct.imp ?_
    intro v v' apart e left right
    obtain ⟨u,_,rfl⟩ := List.mem_map.mp left
    obtain ⟨u',_,same⟩ := List.mem_map.mp right
    exact apart (Nat.add_left_cancel (Prod.mk.inj same).2).symm

theorem predecessorsLinks (n : Nat) (feeds : List Nat) {heads : List Nat} (distinct : heads.Nodup) (v : Nat) :
    predecessorsOf (linksTo n feeds heads) (n + v) = if v ∈ heads then feeds else [] := by
  induction heads with
  | nil => simp [linksTo,predecessorsOf]
  | cons head heads ih =>
    obtain ⟨fresh,distinct⟩ := List.nodup_cons.mp distinct
    have front : predecessorsOf (feeds.map (fun u => (u,n + head))) (n + v) = if v = head then feeds else [] := by
      by_cases same : v = head
      · simp [predecessorsOf,same,List.filter_map,Function.comp_def]
      · simp [predecessorsOf,same,Ne.symm same,List.filter_map,Function.comp_def]
    rw [linksTo,List.flatMap_cons,predecessorsAppend,front,← linksTo,ih distinct]
    by_cases same : v = head
    · simp [same,fresh]
    · simp [same]

theorem headsNodup : (headsOf b).Nodup := List.nodup_range.filter _

theorem sinksNodup : (sinksOf b).Nodup := List.nodup_range.filter _

theorem joinParts (good : WellFormed first) (good' : WellFormed second) (once : feeds.Nodup)
    (inside : ∀ u ∈ feeds, u < first.nodes.length) :
    join first second feeds = ⟨first.nodes ++ second.nodes,first.connections ++
      (second.connections.map (shift first.nodes.length) ++ linksTo first.nodes.length feeds (headsOf second)),
      first.maxBlock⟩ := by
  have heads : ∀ v ∈ headsOf second, v < second.nodes.length :=
    fun v mem => List.mem_range.mp (List.mem_filter.mp mem).1
  have injective : Function.Injective (shift first.nodes.length) := by
    intro e e' same
    obtain ⟨left,right⟩ := Prod.mk.inj same
    exact Prod.ext (Nat.add_left_cancel left) (Nat.add_left_cancel right)
  rw [join,joinEdits,List.foldl_append,addAll,wireAll]
  · intro e mem
    rw [List.length_append]
    rcases List.mem_append.mp mem with shifted | link
    · obtain ⟨e,old,rfl⟩ := List.mem_map.mp shifted
      obtain ⟨low,high⟩ := good'.inside e old
      exact ⟨Nat.add_lt_add_left low _,Nat.add_lt_add_left high _⟩
    · obtain ⟨fed,v,head,target⟩ := memLinks.mp link
      have low := inside _ fed
      have high := heads v head
      omega
  · refine List.nodup_append.mpr ⟨good.unique,List.nodup_append.mpr
      ⟨good'.unique.map injective,linksNodup _ once headsNodup,?_⟩,?_⟩
    · rintro e shifted _ link rfl
      have low := inside _ (memLinks.mp link).1
      exact Nat.not_le.mpr low (shiftedHigh shifted).1
    · rintro e old _ mem rfl
      have low := (good.inside e old).2
      rcases List.mem_append.mp mem with shifted | link
      · exact Nat.not_le.mpr low (shiftedHigh shifted).2
      · obtain ⟨_,v,_,target⟩ := memLinks.mp link
        omega

theorem memHeads {v : Nat} : v ∈ headsOf b ↔ v < b.nodes.length ∧ predecessorsOf b.connections v = [] := by
  simp [headsOf]

theorem sinksJoin {edges edges' : List (Nat × Nat)} {n n' : Nat} {kept : Nat → Bool} (sinks : ∀ u, u < n →
      ((successorsOf edges u).isEmpty = (kept u && (successorsOf edges' u).isEmpty))) {edges'' : List (Nat × Nat)}
    (sinks' : ∀ u, u < n' → (successorsOf edges (n + u)).isEmpty = (successorsOf edges'' u).isEmpty) :
    (List.range (n + n')).filter (fun u => (successorsOf edges u).isEmpty) =
      ((List.range n).filter (fun u => (successorsOf edges' u).isEmpty)).filter kept ++
        ((List.range n').filter (fun u => (successorsOf edges'' u).isEmpty)).map (n + ·) := by
  rw [List.range_add,List.filter_append,List.filter_filter,List.filter_map]
  congr 1
  · exact List.filter_congr (fun u mem => sinks u (List.mem_range.mp mem))
  · exact congrArg _ (List.filter_congr (fun u mem => sinks' u (List.mem_range.mp mem)))

/-- A whole that keeps the first graph as it is and feeds the heads of the second, numbered
behind it, from `feeds`. -/
structure Joined (first second whole : DynamicGraphBuilder σ) (feeds : List Nat) : Prop where
  good : WellFormed whole
  nodes : whole.nodes = first.nodes ++ second.nodes
  block : whole.maxBlock = first.maxBlock
  same : second.maxBlock = first.maxBlock
  inside : ∀ u ∈ feeds, u < first.nodes.length
  front : ∀ v, v < first.nodes.length → predecessorsOf whole.connections v = predecessorsOf first.connections v
  back : ∀ v, v < second.nodes.length → predecessorsOf whole.connections (first.nodes.length + v) =
    if predecessorsOf second.connections v = [] then feeds
    else (predecessorsOf second.connections v).map (first.nodes.length + ·)
  sinks : sinksOf whole =
    (sinksOf first).filter (fun u => u ∉ feeds) ++ (sinksOf second).map (first.nodes.length + ·)

theorem joinBuilt {maxBlock : Nat} (built : Built maxBlock first) (feeds : List Nat) :
    Built maxBlock (join first second feeds) := by
  obtain ⟨b₀,changes,made,rfl⟩ := built
  exact ⟨b₀,changes ++ joinEdits _ second feeds,made,by rw [List.foldl_append]; rfl⟩

theorem joined {maxBlock : Nat} (built : Built maxBlock first) (built' : Built maxBlock second) (once : feeds.Nodup)
    (inside : ∀ u ∈ feeds, u < first.nodes.length) (some_ : headsOf second ≠ []) :
    Joined first second (join first second feeds) feeds := by
  obtain ⟨good,block⟩ := builtWellFormed built
  obtain ⟨good',block'⟩ := builtWellFormed built'
  have parts := joinParts good good' once inside
  have low : ∀ {u : Nat} {edges : List (Nat × Nat)}, u < first.nodes.length →
      successorsOf (edges.map (shift first.nodes.length)) u = [] ∧
      predecessorsOf (edges.map (shift first.nodes.length)) u = [] := by
    intro u edges low
    refine ⟨List.eq_nil_iff_forall_not_mem.mpr ?_,List.eq_nil_iff_forall_not_mem.mpr ?_⟩
    · exact fun v mem => Nat.not_le.mpr low (shiftedHigh (memSuccessors.mp mem)).1
    · exact fun v mem => Nat.not_le.mpr low (shiftedHigh (memPredecessors.mp mem)).2
  refine ⟨(builtWellFormed (joinBuilt built feeds)).1,by rw [parts],by rw [parts],block'.trans block.symm,inside,?_,?_,?_⟩
  · intro v here
    have late : predecessorsOf (linksTo first.nodes.length feeds (headsOf second)) v = [] := by
      refine List.eq_nil_iff_forall_not_mem.mpr ?_
      intro u mem
      obtain ⟨_,x,_,target⟩ := memLinks.mp (memPredecessors.mp mem)
      omega
    rw [parts,predecessorsAppend,predecessorsAppend,(low here).2,late,List.append_nil,List.append_nil]
  · intro v here
    rw [parts,predecessorsAppend,predecessorsBeyond good (Nat.le_add_right _ v),List.nil_append,predecessorsAppend,
      predecessorsShift,predecessorsLinks _ _ headsNodup]
    by_cases head : predecessorsOf second.connections v = []
    · simp [head,memHeads,here]
    · simp [head,memHeads]
  · obtain ⟨head,mem⟩ := List.exists_mem_of_ne_nil _ some_
    rw [sinksOf,parts,List.length_append]
    refine sinksJoin ?_ ?_
    · intro u here
      have fed : successorsOf (linksTo first.nodes.length feeds (headsOf second)) u = [] ↔ u ∉ feeds := by
        rw [List.eq_nil_iff_forall_not_mem]
        constructor
        · exact fun none_ fed => none_ _ (memSuccessors.mpr (memLinks.mpr ⟨fed,head,mem,rfl⟩))
        · exact fun free v step => free (memLinks.mp (memSuccessors.mp step)).1
      rw [successorsAppend,successorsAppend,(low here).1,List.nil_append,Bool.eq_iff_iff,List.isEmpty_iff,
        List.append_eq_nil_iff,fed,Bool.and_eq_true,decide_eq_true_eq,List.isEmpty_iff,and_comm]
    · intro u _
      have late : successorsOf (linksTo first.nodes.length feeds (headsOf second)) (first.nodes.length + u) = [] := by
        refine List.eq_nil_iff_forall_not_mem.mpr ?_
        intro v step
        have fed := inside _ (memLinks.mp (memSuccessors.mp step)).1
        omega
      rw [successorsAppend,successorsBeyond good (Nat.le_add_right _ u),List.nil_append,successorsAppend,successorsShift,
        late,List.append_nil,List.isEmpty_map]

/-- What an accepted compile says about its builder and the plan it chose. -/
structure Ordered (w : Nat) (b : DynamicGraphBuilder σ) (order : List Nat) : Prop where
  good : WellFormed b
  kahn : Kahn b.nodes.length b.connections order []
  all : order.length = b.nodes.length
  some_ : b.nodes.length ≠ 0
  small : b.nodes.length * b.maxBlock < 2^w

section Plans
variable {w : Nat} {order order' plan : List Nat}

theorem compileOrdered {α : Type} [Zero α] {methods : DspNode σ α} {g : DspGraphInner σ α} (good : WellFormed b)
    (made : compile w methods b = .ok (.ok g)) : ∃ order, Ordered w b order ∧ g = compiled w methods b order := by
  obtain ⟨order,kahn,all,small,same⟩ := compileAccepted w methods good made
  refine ⟨order,⟨good,kahn,all,?_,small⟩,same⟩
  intro none_
  simp [compile,none_] at made

theorem Ordered.nodup (fit : Ordered w b order) : order.Nodup := by simpa using fit.kahn.nodup

theorem Ordered.mem (fit : Ordered w b order) {v : Nat} : v ∈ order ↔ v < b.nodes.length :=
  (fit.kahn.permutes fit.all).mem_iff.trans List.mem_range

theorem headsSome (fit : Ordered w b order) : headsOf b ≠ [] := by
  cases order with
  | nil => exact absurd fit.all.symm fit.some_
  | cons v rest =>
    refine List.ne_nil_of_mem (memHeads.mpr ⟨fit.mem.mp List.mem_cons_self,List.eq_nil_iff_forall_not_mem.mpr ?_⟩)
    intro u mem
    cases fit.kahn.scheduled [] v rest rfl u (memPredecessors.mp mem)

theorem sinksSome (fit : Ordered w b order) : sinksOf b ≠ [] := by
  cases ends : order.getLast? with
  | none =>
    have none_ := fit.all
    rw [List.getLast?_eq_none_iff.mp ends] at none_
    exact absurd none_.symm fit.some_
  | some v => exact List.ne_nil_of_mem (memSinks.mpr (lastIsSink fit.good fit.kahn fit.all ends))

theorem Joined.count (parts : Joined first second whole feeds) :
    whole.nodes.length = first.nodes.length + second.nodes.length := by
  rw [parts.nodes,List.length_append]

theorem joinedScheduled (parts : Joined first second whole feeds) (fit : Ordered w first order)
    (fit' : Ordered w second order') :
    Scheduled (Edge whole.connections) (order ++ order'.map (first.nodes.length + ·)) := by
  refine scheduledJoin ?_ fit'.kahn.scheduled ?_
  · intro before v after split u step
    have low := fit.mem.mp (show v ∈ order by simp [split])
    refine fit.kahn.scheduled before v after split u (memPredecessors.mp ?_)
    rw [← parts.front v low]
    exact memPredecessors.mpr step
  · intro u v listed step
    have source := memPredecessors.mpr step
    rw [parts.back v (fit'.mem.mp listed)] at source
    split at source
    · exact .inl (fit.mem.mpr (parts.inside u source))
    · obtain ⟨x,mem,rfl⟩ := List.mem_map.mp source
      exact .inr ⟨x,rfl,memPredecessors.mp mem⟩

theorem joinedCompiles {α : Type} [Zero α] (methods : DspNode σ α) (parts : Joined first second whole feeds)
    (fit : Ordered w first order) (fit' : Ordered w second order') :
    (whole.nodes.length * whole.maxBlock < 2^w →
      ∃ plan, Ordered w whole plan ∧ compile w methods whole = .ok (.ok (compiled w methods whole plan))) ∧
    (2^w ≤ whole.nodes.length * whole.maxBlock → compile w methods whole = .ok (.error .bufferSizeOverflow)) := by
  have count := parts.count
  have some_ := fit.some_
  have nodup : (order ++ order'.map (first.nodes.length + ·)).Nodup := by
    refine List.nodup_append.mpr ⟨fit.nodup,fit'.nodup.map (fun _ _ => Nat.add_left_cancel),?_⟩
    rintro v mem _ shifted rfl
    obtain ⟨x,_,rfl⟩ := List.mem_map.mp shifted
    exact absurd (fit.mem.mp mem) (by omega)
  have listed : ∀ v, v < whole.nodes.length → v ∈ order ++ order'.map (first.nodes.length + ·) := by
    intro v low
    rcases Nat.lt_or_ge v first.nodes.length with here | there
    · exact List.mem_append_left _ (fit.mem.mpr here)
    · exact List.mem_append_right _ (List.mem_map.mpr ⟨v - first.nodes.length,fit'.mem.mpr (by omega),by omega⟩)
  have acyclic := scheduledAcyclic nodup (joinedScheduled parts fit fit')
    (fun u v step => listed v (parts.good.inside _ step).2)
  obtain ⟨plan,kahn,done⟩ := compileOk w methods parts.good (by omega)
  have all := (kahn.finished parts.good.inside).mpr acyclic
  rw [if_neg (by simpa using all)] at done
  refine ⟨fun small => ⟨plan,⟨parts.good,kahn,all,by omega,small⟩,?_⟩,fun large => ?_⟩
  · rw [done,if_pos small]
  · rw [done,if_neg (Nat.not_lt.mpr large)]

end Plans
end Builders

section Latency
variable {σ α : Type} {w : Nat} {methods : DspNode σ α} {first second whole : DynamicGraphBuilder σ}
  {feeds order order' plan : List Nat}

def finalLatency (w : Nat) (methods : DspNode σ α) (b : DynamicGraphBuilder σ) (order : List Nat) : Nat → Nat :=
  pathLatency w methods b.nodes b.connections order (fun _ => 0)

theorem Ordered.latency (fit : Ordered w whole plan) {v : Nat} (low : v < whole.nodes.length) :
    finalLatency w methods whole plan v =
      saturatingAdd w (arrival whole.connections (finalLatency w methods whole plan) v) (latencyAt methods whole.nodes v) :=
  pathLatencyEquation fit.nodup fit.kahn.scheduled (fit.mem.mpr low) _

theorem saturatingAssoc (w a b c : Nat) :
    saturatingAdd w (saturatingAdd w a b) c = saturatingAdd w a (saturatingAdd w b c) := by
  simp only [saturatingAdd]
  omega

theorem maxBound {xs : List Nat} {bound : Nat} : xs.max?.getD 0 ≤ bound ↔ ∀ x ∈ xs, x ≤ bound := by
  cases top : xs.max? with
  | none => simp [List.max?_eq_none_iff.mp top]
  | some m =>
    obtain ⟨attained,above⟩ := List.max?_eq_some_iff.mp top
    exact ⟨fun small x mem => (above x mem).trans small,fun all => all m attained⟩

theorem maxAppend (xs ys : List Nat) : (xs ++ ys).max?.getD 0 = max (xs.max?.getD 0) (ys.max?.getD 0) :=
  eq_of_forall_ge_iff (fun bound => by simp only [maxBound,Nat.max_le,List.forall_mem_append])

theorem maxSaturating {ν : Type} (w a : Nat) (f : ν → Nat) {ends : List ν} (some_ : ends ≠ []) :
    (ends.map (fun v => saturatingAdd w a (f v))).max?.getD 0 = saturatingAdd w a ((ends.map f).max?.getD 0) := by
  apply Nat.le_antisymm
  · refine maxBound.mpr ?_
    intro x mem
    obtain ⟨v,listed,rfl⟩ := List.mem_map.mp mem
    have below := maxBound.mp (Nat.le_refl ((ends.map f).max?.getD 0)) (f v) (List.mem_map_of_mem listed)
    simp only [saturatingAdd]
    omega
  · cases top : (ends.map f).max? with
    | none => exact absurd (List.map_eq_nil_iff.mp (List.max?_eq_none_iff.mp top)) some_
    | some m =>
      obtain ⟨attained,_⟩ := List.max?_eq_some_iff.mp top
      obtain ⟨v,listed,rfl⟩ := List.mem_map.mp attained
      exact maxBound.mp (Nat.le_refl _) _ (List.mem_map_of_mem (f := fun v => saturatingAdd w a (f v)) listed)

theorem frontLatency (parts : Joined first second whole feeds) (fit : Ordered w first order)
    (fitted : Ordered w whole plan) :
    ∀ v ∈ order, finalLatency w methods whole plan v = finalLatency w methods first order v := by
  refine scheduledInduction fit.kahn.scheduled ?_
  intro v listed ready
  have low := fit.mem.mp listed
  rw [fitted.latency (by rw [parts.count]; omega),fit.latency low]
  congr 1
  · unfold arrival
    rw [parts.front v low,List.map_congr_left (fun u mem => ready u (memPredecessors.mp mem))]
  · rw [latencyAt,parts.nodes,List.getElem?_append_left low]
    rfl

theorem backLatency (parts : Joined first second whole feeds) (fit : Ordered w first order)
    (fit' : Ordered w second order') (fitted : Ordered w whole plan) {a : Nat}
    (arrives : a = (feeds.map (finalLatency w methods first order)).max?.getD 0) :
    ∀ v ∈ order', finalLatency w methods whole plan (first.nodes.length + v) =
      saturatingAdd w a (finalLatency w methods second order' v) := by
  refine scheduledInduction fit'.kahn.scheduled ?_
  intro v listed ready
  have low := fit'.mem.mp listed
  have weight : latencyAt methods whole.nodes (first.nodes.length + v) = latencyAt methods second.nodes v := by
    rw [latencyAt,parts.nodes,List.getElem?_append_right (Nat.le_add_right _ _),Nat.add_sub_cancel_left]
    rfl
  rw [fitted.latency (by rw [parts.count]; omega),fit'.latency low,weight,← saturatingAssoc]
  unfold arrival
  rw [parts.back v low]
  split
  · rename_i head
    have known : feeds.map (finalLatency w methods whole plan) = feeds.map (finalLatency w methods first order) :=
      List.map_congr_left (fun u fed => frontLatency parts fit fitted u (fit.mem.mpr (parts.inside u fed)))
    rw [known,← arrives,head]
    simp only [saturatingAdd,List.map_nil,List.max?_nil,Option.getD_none]
    omega
  · rename_i fed
    rw [List.map_map,← maxSaturating _ _ _ fed]
    congr 3
    exact List.map_congr_left (fun u mem => ready u (memPredecessors.mp mem))

variable (methods) in
theorem joinedLatency [Zero α] (parts : Joined first second whole feeds) (fit : Ordered w first order)
    (fit' : Ordered w second order') (fitted : Ordered w whole plan) {early a : Nat}
    (ends : early = (((sinksOf first).filter (fun u => u ∉ feeds)).map (finalLatency w methods first order)).max?.getD 0)
    (arrives : a = (feeds.map (finalLatency w methods first order)).max?.getD 0) :
    (compiled (α := α) w methods whole plan).totalLatency =
      max early (saturatingAdd w a (compiled (α := α) w methods second order').totalLatency) := by
  have front : ((sinksOf first).filter (fun u => u ∉ feeds)).map (finalLatency w methods whole plan) =
      ((sinksOf first).filter (fun u => u ∉ feeds)).map (finalLatency w methods first order) :=
    List.map_congr_left (fun u mem => frontLatency parts fit fitted u (fit.mem.mpr (sinksInside (List.mem_filter.mp mem).1)))
  have back : ((sinksOf second).map (first.nodes.length + ·)).map (finalLatency w methods whole plan) =
      (sinksOf second).map (fun v => saturatingAdd w a (finalLatency w methods second order' v)) := by
    rw [List.map_map]
    exact List.map_congr_left (fun v mem => backLatency parts fit fit' fitted arrives v (fit'.mem.mpr (sinksInside mem)))
  change ((sinksOf whole).map (finalLatency w methods whole plan)).max?.getD 0 =
    max early (saturatingAdd w a (((sinksOf second).map (finalLatency w methods second order')).max?.getD 0))
  rw [parts.sinks,List.map_append,maxAppend,front,back,maxSaturating _ _ _ (sinksSome fit'),ends]

theorem totalBounded [Zero α] (fit : Ordered w whole plan) :
    (compiled (α := α) w methods whole plan).totalLatency ≤ 2^w - 1 := by
  obtain ⟨m,_,total⟩ : ∃ m, IsGreatest (totals methods whole) m ∧
    (compiled (α := α) w methods whole plan).totalLatency = min (2^w - 1) m :=
      compiledLatency fit.good fit.some_ fit.kahn fit.all
  omega

end Latency
end Riaps.Graph
