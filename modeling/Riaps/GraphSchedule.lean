import Mathlib.Algebra.Ring.Int.Defs
import Riaps.Graph
import Riaps.Library.Tables
import Riaps.Library.Topological

/-! What the compiler accepts. The builder keeps its edge list duplicate-free and
inside the node range; over such a list the work-list loop keeps, for every node,
the number of predecessors not scheduled yet. It stops with all nodes scheduled
exactly when the edges have no cycle. -/
namespace Riaps.Graph
open Library.Checks Library.Tables Library.Topological

def successorsOf (edges : List (Nat × Nat)) (u : Nat) : List Nat := (edges.filter (fun e => e.1 == u)).map Prod.snd

def predecessorsOf (edges : List (Nat × Nat)) (v : Nat) : List Nat := (edges.filter (fun e => e.2 == v)).map Prod.fst

def Edge (edges : List (Nat × Nat)) (u v : Nat) : Prop := (u,v) ∈ edges

theorem memSuccessors {edges : List (Nat × Nat)} {u v : Nat} : v ∈ successorsOf edges u ↔ (u,v) ∈ edges := by
  simp [successorsOf]

theorem memPredecessors {edges : List (Nat × Nat)} {u v : Nat} : u ∈ predecessorsOf edges v ↔ (u,v) ∈ edges := by
  simp [predecessorsOf]

theorem endsNodup {edges : List (Nat × Nat)} (unique : edges.Nodup) {here there : Nat × Nat → Nat}
    (ends : ∀ x y, here x = here y → there x = there y → x = y) (v : Nat) :
    ((edges.filter (fun e => here e == v)).map there).Nodup := by
  refine List.Nodup.map_on ?_ (unique.filter _)
  intro x memX y memY same
  have left := (List.mem_filter.mp memX).2
  have right := (List.mem_filter.mp memY).2
  exact ends x y ((eq_of_beq left).trans (eq_of_beq right).symm) same

theorem successorsNodup {edges : List (Nat × Nat)} (unique : edges.Nodup) (u : Nat) : (successorsOf edges u).Nodup :=
  endsNodup unique (fun _ _ => Prod.ext) u

theorem predecessorsNodup {edges : List (Nat × Nat)} (unique : edges.Nodup) (v : Nat) : (predecessorsOf edges v).Nodup :=
  endsNodup unique (fun _ _ target source => Prod.ext source target) v

section Builder
variable {σ : Type} {b : DynamicGraphBuilder σ}

structure WellFormed (b : DynamicGraphBuilder σ) : Prop where
  inside : ∀ e ∈ b.connections, e.1 < b.nodes.length ∧ e.2 < b.nodes.length
  unique : b.connections.Nodup
  positive : 0 < b.maxBlock

theorem newWellFormed {maxBlock : Nat} (made : new σ maxBlock = .ok b) : WellFormed b ∧ b.maxBlock = maxBlock := by
  unfold new ensure at made
  split at made
  · rename_i positive
    cases made
    exact ⟨⟨by simp,List.nodup_nil,positive⟩,rfl⟩
  · cases made

theorem connectFailed {source target : NodeId} {e : GraphError} (failed : (connect b source target).2 = .error e) :
    (connect b source target).1 = b := by
  unfold connect at failed ⊢
  repeat' split
  all_goals first
    | rfl
    | simp_all

theorem editWellFormed (good : WellFormed b) (change : Edit σ) :
    WellFormed (edit b change) ∧ (edit b change).maxBlock = b.maxBlock := by
  cases change with
  | addNode node =>
    refine ⟨⟨?_,good.unique,good.positive⟩,rfl⟩
    intro e mem
    have bound := good.inside e mem
    simp only [edit,addNode,List.length_append,List.length_singleton]
    omega
  | connect source target =>
    simp only [edit,connect]
    split
    · exact ⟨good,rfl⟩
    · split
      · exact ⟨good,rfl⟩
      · split
        · exact ⟨good,rfl⟩
        · rename_i low high fresh
          refine ⟨⟨?_,?_,good.positive⟩,rfl⟩
          · intro e mem
            rcases List.mem_append.mp mem with old | last
            · exact good.inside e old
            · cases List.mem_singleton.mp last
              exact ⟨Nat.not_le.mp low,Nat.not_le.mp high⟩
          · exact List.nodup_append.mpr ⟨good.unique,List.nodup_singleton _,by
              intro x old y last same
              rw [List.mem_singleton.mp last] at same
              exact fresh (same ▸ old)⟩
  | disconnect source target =>
    refine ⟨⟨?_,good.unique.filter _,good.positive⟩,rfl⟩
    intro e mem
    exact good.inside e (List.mem_filter.mp mem).1

theorem editsWellFormed (good : WellFormed b) (changes : List (Edit σ)) :
    WellFormed (changes.foldl edit b) ∧ (changes.foldl edit b).maxBlock = b.maxBlock := by
  induction changes generalizing b with
  | nil => exact ⟨good,rfl⟩
  | cons change changes ih =>
    obtain ⟨next,same⟩ := editWellFormed good change
    obtain ⟨last,kept⟩ := ih next
    exact ⟨last,kept.trans same⟩

def Built (maxBlock : Nat) (b : DynamicGraphBuilder σ) : Prop :=
  ∃ (b₀ : DynamicGraphBuilder σ) (changes : List (Edit σ)), new σ maxBlock = .ok b₀ ∧ b = changes.foldl edit b₀

theorem builtWellFormed {maxBlock : Nat} (built : Built maxBlock b) : WellFormed b ∧ b.maxBlock = maxBlock := by
  obtain ⟨b₀,changes,made,rfl⟩ := built
  obtain ⟨good,start⟩ := newWellFormed made
  obtain ⟨last,kept⟩ := editsWellFormed good changes
  exact ⟨last,kept.trans start⟩

end Builder

theorem linkOk {n : Nat} {edges : List (Nat × Nat)} (inside : ∀ e ∈ edges, e.1 < n ∧ e.2 < n)
    (a p : Nat → List Nat) (d : Nat → Nat) :
    link edges ⟨table n a,table n p,table n d⟩ = .ok ⟨table n (fun u => a u ++ successorsOf edges u),
      table n (fun v => p v ++ predecessorsOf edges v),table n (fun v => d v + (predecessorsOf edges v).length)⟩ := by
  induction edges generalizing a p d with
  | nil => simp [link,successorsOf,predecessorsOf]
  | cons e rest ih =>
    obtain ⟨source,target⟩ := e
    obtain ⟨low,high⟩ := inside (source,target) List.mem_cons_self
    simp only [link,tableGet _ low,tableGet _ high,tableSet _ _ low,tableSet _ _ high,okBind]
    rw [ih (fun e mem => inside e (List.mem_cons_of_mem _ mem))]
    congr 2
    · apply tableCongr
      intro u _
      by_cases same : u = source
      · subst same
        simp [successorsOf]
      · simp [successorsOf,same,Ne.symm same]
    · apply tableCongr
      intro v _
      by_cases same : v = target
      · subst same
        simp [predecessorsOf]
      · simp [predecessorsOf,same,Ne.symm same]
    · apply tableCongr
      intro v _
      by_cases same : v = target
      · subst same
        simp [predecessorsOf]
        omega
      · simp [predecessorsOf,same,Ne.symm same]

theorem rootsOk {n : Nat} (d : Nat → Nat) {is : List Nat} (bound : ∀ i ∈ is, i < n) :
    roots (table n d) is = .ok (is.filter (fun i => d i = 0)) := by
  induction is with
  | nil => rfl
  | cons i is ih =>
    simp only [roots,tableGet d (bound i List.mem_cons_self),ih (fun j mem => bound j (List.mem_cons_of_mem i mem)),
      okBind,List.filter_cons,decide_eq_true_eq]
    rfl

theorem releaseOk {n : Nat} {row : List Nat} (nodup : row.Nodup) (d : Nat → Nat)
    (bound : ∀ v ∈ row, v < n) (positive : ∀ v ∈ row, 0 < d v) (queue : List Nat) :
    release row (table n d) queue =
      .ok (table n (fun v => if v ∈ row then d v - 1 else d v),queue ++ row.filter (fun v => d v = 1)) := by
  induction row generalizing d queue with
  | nil => simp [release]
  | cons v rest ih =>
    obtain ⟨fresh,nodup⟩ := List.nodup_cons.mp nodup
    have low := bound v List.mem_cons_self
    have more := positive v List.mem_cons_self
    have apart : ∀ x ∈ rest, x ≠ v := fun x mem same => fresh (same ▸ mem)
    have kept : ∀ x ∈ rest, Function.update d v (d v - 1) x = d x := fun x mem => Function.update_of_ne (apart x mem) _ _
    simp only [release,tableGet d low,subOk more,tableSet d _ low,okBind]
    rw [ih nodup (Function.update d v (d v - 1)) (fun x mem => bound x (List.mem_cons_of_mem v mem))
      (fun x mem => by rw [kept x mem]; exact positive x (List.mem_cons_of_mem v mem))]
    congr 2
    · apply tableCongr
      intro x _
      by_cases same : x = v
      · subst same
        simp [fresh]
      · simp [same]
    · rw [List.filter_congr (fun x mem => by rw [kept x mem]),List.filter_cons]
      have zero : d v - 1 = 0 ↔ d v = 1 := by omega
      by_cases last : d v = 1 <;> simp [zero,last]

def pending (edges : List (Nat × Nat)) (order : List Nat) (v : Nat) : Nat :=
  ((predecessorsOf edges v).filter (fun u => u ∉ order)).length

theorem pendingZero {edges : List (Nat × Nat)} {order : List Nat} {v : Nat} :
    pending edges order v = 0 ↔ ∀ u, Edge edges u v → u ∈ order := by
  simp [pending,memPredecessors,Edge]

theorem pendingPositive {edges : List (Nat × Nat)} {order : List Nat} {u v : Nat} (step : (u,v) ∈ edges)
    (fresh : u ∉ order) : 0 < pending edges order v := by
  apply Nat.pos_of_ne_zero
  intro zero
  exact fresh (pendingZero.mp zero u step)

theorem pendingSnoc {edges : List (Nat × Nat)} {order : List Nat} {u : Nat} (unique : edges.Nodup) (fresh : u ∉ order)
    (v : Nat) : pending edges (order ++ [u]) v =
      if v ∈ successorsOf edges u then pending edges order v - 1 else pending edges order v := by
  have nodup := (predecessorsNodup unique v).filter (fun u => u ∉ order)
  have erased : (predecessorsOf edges v).filter (fun x => x ∉ order ++ [u]) =
      ((predecessorsOf edges v).filter (fun x => x ∉ order)).erase u := by
    rw [nodup.erase_eq_filter,List.filter_filter]
    apply List.filter_congr
    intro x _
    by_cases listed : x ∈ order <;> by_cases same : x = u <;> simp [listed,same]
  have waiting : u ∈ (predecessorsOf edges v).filter (fun x => x ∉ order) ↔ v ∈ successorsOf edges u := by
    simp [memPredecessors,memSuccessors,fresh]
  unfold pending
  rw [erased,List.length_erase]
  simp only [waiting]

structure Kahn (n : Nat) (edges : List (Nat × Nat)) (order queue : List Nat) : Prop where
  nodup : (order ++ queue).Nodup
  inside : ∀ v ∈ order ++ queue, v < n
  ready : ∀ v, v < n → (v ∈ order ++ queue ↔ pending edges order v = 0)
  scheduled : Scheduled (Edge edges) order

section Loop
variable {n : Nat} {edges : List (Nat × Nat)} {order queue : List Nat}

theorem kahnStart : Kahn n edges [] ((List.range n).filter (fun v => pending edges [] v = 0)) := by
  refine ⟨List.nodup_range.filter _,?_,?_,scheduledNil _⟩
  · intro v mem
    exact List.mem_range.mp (List.mem_filter.mp mem).1
  · intro v bound
    simp [bound]

theorem Kahn.count (kahn : Kahn n edges order queue) : order.length + queue.length ≤ n := by
  have within : order ++ queue ⊆ List.range n := fun v mem => List.mem_range.mpr (kahn.inside v mem)
  have few := (kahn.nodup.subperm within).length_le
  simpa using few

theorem Kahn.fresh {u : Nat} (kahn : Kahn n edges order (u :: queue)) : u ∉ order :=
  fun mem => (List.nodup_append.mp kahn.nodup).2.2 u mem u List.mem_cons_self rfl

theorem Kahn.next {u : Nat} (kahn : Kahn n edges order (u :: queue)) (unique : edges.Nodup)
    (inside : ∀ e ∈ edges, e.1 < n ∧ e.2 < n) :
    Kahn n edges (order ++ [u]) (queue ++ (successorsOf edges u).filter (fun v => pending edges order v = 1)) := by
  have fresh := kahn.fresh
  have listed : order ++ u :: queue = (order ++ [u]) ++ queue := by simp
  have here : u ∈ order ++ u :: queue := by simp
  have bound : ∀ v ∈ successorsOf edges u, v < n := fun v mem => (inside _ (memSuccessors.mp mem)).2
  have waits : ∀ v, v ∈ successorsOf edges u → 0 < pending edges order v :=
    fun v mem => pendingPositive (memSuccessors.mp mem) fresh
  refine ⟨?_,?_,?_,?_⟩
  · rw [← List.append_assoc,← listed]
    refine List.nodup_append.mpr ⟨kahn.nodup,(successorsNodup unique u).filter _,?_⟩
    intro v old w new_ same
    subst same
    obtain ⟨mem,one⟩ := List.mem_filter.mp new_
    have zero := (kahn.ready v (bound v mem)).mp old
    simp [zero] at one
  · intro v mem
    rw [← List.append_assoc,← listed] at mem
    rcases List.mem_append.mp mem with old | new_
    · exact kahn.inside v old
    · exact bound v (List.mem_filter.mp new_).1
  · intro v low
    rw [← List.append_assoc,← listed,List.mem_append,kahn.ready v low,pendingSnoc unique fresh,List.mem_filter,
      decide_eq_true_eq]
    split
    · rename_i mem
      have more := waits v mem
      constructor
      · rintro (zero | ⟨_,one⟩) <;> omega
      · intro zero
        exact .inr ⟨mem,by omega⟩
    · rename_i absent
      exact ⟨fun either => either.elim id (fun new_ => absurd new_.1 absent),.inl⟩
  · exact scheduledSnoc kahn.scheduled (pendingZero.mp ((kahn.ready u (kahn.inside u here)).mp here))

theorem scheduleOk (unique : edges.Nodup) (inside : ∀ e ∈ edges, e.1 < n ∧ e.2 < n) {fuel : Nat}
    (kahn : Kahn n edges order queue) (enough : n ≤ order.length + fuel) :
    ∃ final, schedule (table n (successorsOf edges)) fuel queue order (table n (pending edges order)) = .ok final ∧
      Kahn n edges final [] := by
  induction fuel generalizing order queue with
  | zero =>
    have few := kahn.count
    have none_ : queue = [] := List.eq_nil_of_length_eq_zero (by omega)
    subst none_
    exact ⟨order,by simp [schedule],kahn⟩
  | succ fuel ih =>
    cases queue with
    | nil => exact ⟨order,by simp [schedule],kahn⟩
    | cons u queue =>
      have fresh := kahn.fresh
      have low := kahn.inside u (by simp)
      obtain ⟨final,done,stopped⟩ := ih (kahn.next unique inside) (by simp; omega)
      refine ⟨final,?_,stopped⟩
      rw [← done]
      simp only [schedule,tableGet _ low,okBind]
      rw [releaseOk (successorsNodup unique u) _ (fun v mem => (inside _ (memSuccessors.mp mem)).2)
        (fun v mem => pendingPositive (memSuccessors.mp mem) fresh),okBind]
      congr 1
      exact tableCongr (fun v _ => (pendingSnoc unique fresh v).symm)

theorem Kahn.permutes (kahn : Kahn n edges order []) (all : order.length = n) : order.Perm (List.range n) := by
  have nodup : order.Nodup := by simpa using kahn.nodup
  have within : order ⊆ List.range n := fun v mem => List.mem_range.mpr (kahn.inside v (by simpa using mem))
  exact (nodup.subperm within).perm_of_length_le (by simp [all])

theorem Kahn.finished (kahn : Kahn n edges order []) (inside : ∀ e ∈ edges, e.1 < n ∧ e.2 < n) :
    order.length = n ↔ Acyclic (Edge edges) := by
  constructor
  · intro all
    refine scheduledAcyclic (by simpa using kahn.nodup) kahn.scheduled ?_
    intro u v step
    exact (kahn.permutes all).mem_iff.mpr (List.mem_range.mpr (inside _ step).2)
  · intro acyclic
    by_contra short
    have few := kahn.count
    have missing : ∃ v ∈ List.range n, v ∉ order := by
      by_contra none_
      have all : List.range n ⊆ order := by
        intro v mem
        by_contra absent
        exact none_ ⟨v,mem,absent⟩
      have many := (List.nodup_range.subperm all).length_le
      simp at many few
      omega
    obtain ⟨v₀,mem,absent⟩ := missing
    have left : v₀ ∈ (List.range n).filter (fun v => v ∉ order) := by simp [List.mem_range.mp mem,absent]
    refine stuckCyclic left ?_ acyclic
    intro v mem
    obtain ⟨low,absent⟩ := List.mem_filter.mp mem
    have waiting := mt (kahn.ready v (List.mem_range.mp low)).mpr (by simpa using absent)
    simp only [pendingZero,not_forall] at waiting
    obtain ⟨u,step,outside⟩ := waiting
    exact ⟨u,by simp [(inside _ step).1,outside],step⟩

end Loop

section Compiler
variable {σ α : Type} (w : Nat) (methods : DspNode σ α)

def latencyAt (nodes : List σ) (index : Nat) : Nat := (nodes[index]?.map methods.latencySamples).getD 0

def arrival (edges : List (Nat × Nat)) (path : Nat → Nat) (index : Nat) : Nat :=
  ((predecessorsOf edges index).map path).max?.getD 0

def pathLatency (nodes : List σ) (edges : List (Nat × Nat)) (order : List Nat) (path : Nat → Nat) : Nat → Nat :=
  order.foldl (fun path index => Function.update path index
    (saturatingAdd w (arrival edges path index) (latencyAt methods nodes index))) path

theorem latenciesOk {nodes : List σ} {edges : List (Nat × Nat)}
    (inside : ∀ e ∈ edges, e.1 < nodes.length ∧ e.2 < nodes.length) {order : List Nat}
    (bound : ∀ v ∈ order, v < nodes.length) (path : Nat → Nat) :
    latencies w methods nodes (table nodes.length (predecessorsOf edges)) order (table nodes.length path) =
      .ok (table nodes.length (pathLatency w methods nodes edges order path)) := by
  induction order generalizing path with
  | nil => rfl
  | cons index rest ih =>
    have low := bound index List.mem_cons_self
    have sources : ∀ u ∈ predecessorsOf edges index, u < nodes.length :=
      fun u mem => (inside _ (memPredecessors.mp mem)).1
    have node := List.getElem?_eq_getElem low
    have latency : latencyAt methods nodes index = methods.latencySamples nodes[index] := by
      simp [latencyAt,node]
    simp only [latencies,tableGet _ low,tableGetAll _ sources,getOk node,tableSet _ _ low,okBind]
    rw [ih (fun v mem => bound v (List.mem_cons_of_mem index mem)),pathLatency,pathLatency,List.foldl_cons,latency]
    rfl

def compiled [Zero α] (b : DynamicGraphBuilder σ) (order : List Nat) : DspGraphInner σ α :=
  let sinks := (List.range b.nodes.length).filter (fun v => (successorsOf b.connections v).isEmpty)
  ⟨b.nodes,order,table b.nodes.length (predecessorsOf b.connections),sinks,
    List.replicate (b.nodes.length * b.maxBlock) 0,List.replicate b.maxBlock 0,b.maxBlock,
    (sinks.map (pathLatency w methods b.nodes b.connections order (fun _ => 0))).max?.getD 0⟩

theorem compileOk [Zero α] {b : DynamicGraphBuilder σ} (good : WellFormed b) (some_ : b.nodes.length ≠ 0) :
    ∃ order, Kahn b.nodes.length b.connections order [] ∧ compile w methods b =
      .ok (if order.length ≠ b.nodes.length then .error .cycleDetected
        else if b.nodes.length * b.maxBlock < 2^w then .ok (compiled w methods b order)
        else .error .bufferSizeOverflow) := by
  have start : Kahn b.nodes.length b.connections [] _ := kahnStart
  have enough : b.nodes.length ≤ ([] : List Nat).length + b.nodes.length := by simp
  obtain ⟨order,done,kahn⟩ := scheduleOk good.unique good.inside start enough
  have degree : (fun v => 0 + (predecessorsOf b.connections v).length) = pending b.connections [] := by
    funext v
    simp [pending]
  refine ⟨order,kahn,?_⟩
  unfold compile
  simp only [if_neg some_,tableReplicate]
  rw [linkOk good.inside]
  simp only [okBind,List.nil_append,degree]
  rw [rootsOk _ (fun v mem => List.mem_range.mp mem)]
  simp only [okBind,done]
  split
  · rfl
  · rw [latenciesOk w methods good.inside (fun v mem => kahn.inside v (by simpa using mem)),tableZipIdx]
    simp only [okBind]
    rw [tableGetAll _ (fun v mem => List.mem_range.mp (List.mem_filter.mp mem).1),okBind]
    split <;> simp_all [compiled,tableReplicate,pure,Except.pure]

theorem compileAccepted [Zero α] {b : DynamicGraphBuilder σ} (good : WellFormed b) {g : DspGraphInner σ α}
    (ok : compile w methods b = .ok (.ok g)) : ∃ order, Kahn b.nodes.length b.connections order [] ∧
      order.length = b.nodes.length ∧ b.nodes.length * b.maxBlock < 2^w ∧ g = compiled w methods b order := by
  by_cases none_ : b.nodes.length = 0
  · simp [compile,none_] at ok
  · obtain ⟨order,kahn,done⟩ := compileOk w methods good none_
    have result := Except.ok.inj (ok.symm.trans done)
    split at result <;> try contradiction
    rename_i all
    split at result <;> try contradiction
    rename_i small
    exact ⟨order,kahn,not_not.mp all,small,Except.ok.inj result⟩

structure Planned (b : DynamicGraphBuilder σ) (g : DspGraphInner σ α) : Prop where
  order : g.order.Perm (List.range b.nodes.length)
  forward : ∀ u v, (u,v) ∈ b.connections → g.order.idxOf u < g.order.idxOf v
  predecessors : ∀ v, v < b.nodes.length → ∃ sources, g.predecessors[v]? = some sources ∧ sources.Nodup ∧
    ∀ u, u ∈ sources ↔ (u,v) ∈ b.connections
  sinks : g.sinks.Nodup ∧ ∀ v, v ∈ g.sinks ↔ v < b.nodes.length ∧ ∀ u, (v,u) ∉ b.connections

theorem compiledPlanned [Zero α] {b : DynamicGraphBuilder σ} (good : WellFormed b) {order : List Nat}
    (kahn : Kahn b.nodes.length b.connections order []) (all : order.length = b.nodes.length) :
    Planned b (compiled w methods b order) := by
  have nodup : order.Nodup := by simpa using kahn.nodup
  have perm := kahn.permutes all
  refine ⟨perm,?_,?_,List.nodup_range.filter _,?_⟩
  · intro u v step
    exact scheduledBefore nodup kahn.scheduled step (perm.mem_iff.mpr (List.mem_range.mpr (good.inside _ step).2))
  · intro v low
    exact ⟨_,tableEntry _ low,predecessorsNodup good.unique v,fun u => memPredecessors⟩
  · intro v
    simp [compiled,List.isEmpty_iff,List.eq_nil_iff_forall_not_mem,memSuccessors]

theorem compileAcceptsSchedulable [Zero α] {maxBlock : Nat} {b : DynamicGraphBuilder σ} (built : Built maxBlock b) :
    (∀ source target e, (connect b source target).2 = .error e → (connect b source target).1 = b) ∧
    ∃ r, compile w methods b = .ok r ∧ (r = .error .empty ↔ b.nodes.length = 0) ∧
      (b.nodes.length ≠ 0 →
        (r = .error .cycleDetected ↔ ¬Acyclic (Edge b.connections)) ∧
        (Acyclic (Edge b.connections) →
          (r = .error .bufferSizeOverflow ↔ 2^w ≤ b.nodes.length * maxBlock) ∧
          (b.nodes.length * maxBlock < 2^w → ∃ g, r = .ok g ∧ Planned b g))) := by
  refine ⟨fun source target e failed => connectFailed failed,?_⟩
  obtain ⟨good,rfl⟩ := builtWellFormed built
  by_cases none_ : b.nodes.length = 0
  · exact ⟨.error .empty,by simp [compile,none_],by simp [none_],fun some_ => absurd none_ some_⟩
  · obtain ⟨order,kahn,done⟩ := compileOk w methods good none_
    refine ⟨_,done,?_,fun _ => ⟨?_,fun acyclic => ?_⟩⟩
    · simp only [none_,iff_false]
      split
      · simp
      · split <;> simp
    · rw [← kahn.finished good.inside]
      by_cases all : order.length = b.nodes.length
      · simp only [all,ne_eq,not_true,if_false,iff_false]
        split <;> simp
      · simp [all]
    · have all := (kahn.finished good.inside).mpr acyclic
      simp only [all,ne_eq,not_true,if_false]
      constructor
      · split
        · rename_i small
          simpa using small
        · rename_i large
          simpa using large
      · intro small
        exact ⟨_,if_pos small,compiledPlanned w methods good kahn all⟩

end Compiler

def counting : DspNode Nat Int :=
  ⟨fun calls inputs outputs _ => (calls + 1,(inputs.map (· + (calls : Int))).take outputs.length ++
    outputs.drop inputs.length),by simp; omega,id⟩

def rewired : List (Edit Nat) :=
  [.addNode 4,.addNode 8,.addNode 32,.connect ⟨1⟩ ⟨1⟩,.connect ⟨0⟩ ⟨9⟩,.connect ⟨2⟩ ⟨1⟩,.connect ⟨0⟩ ⟨1⟩,.connect ⟨0⟩ ⟨1⟩,
    .disconnect ⟨1⟩ ⟨1⟩]

theorem compileAcceptsSchedulableRewired :
    ∃ g, compile 8 counting ⟨[4,8,32],[(2,1),(0,1)],16⟩ = .ok (.ok g) ∧ g.order = [0,2,1] ∧ g.totalLatency = 40 ∧
      Planned ⟨[4,8,32],[(2,1),(0,1)],16⟩ g := by
  have built : Built 16 (⟨[4,8,32],[(2,1),(0,1)],16⟩ : DynamicGraphBuilder Nat) := ⟨⟨[],[],16⟩,rewired,rfl,rfl⟩
  have run : compile 8 counting ⟨[4,8,32],[(2,1),(0,1)],16⟩ = .ok (.ok ⟨[4,8,32],[0,2,1],[[],[2,0],[]],[1],
      List.replicate 48 0,List.replicate 16 0,16,40⟩) := rfl
  obtain ⟨r,done,_,rest⟩ := (compileAcceptsSchedulable 8 counting built).2
  cases Except.ok.inj (run.symm.trans done)
  obtain ⟨cyclic,rest⟩ := rest (by decide)
  have acyclic := not_not.mp (fun loop => nomatch cyclic.mpr loop)
  obtain ⟨g,same,planned⟩ := (rest acyclic).2 (by decide)
  cases Except.ok.inj same
  exact ⟨_,run,rfl,rfl,planned⟩

end Riaps.Graph
