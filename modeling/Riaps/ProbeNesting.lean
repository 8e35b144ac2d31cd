import Riaps.Probe

/-! What the probe measures. The history says which calls were entered, what each found
and when it left, so a replay of it knows the enclosing calls of every entry. The depth
counts the calls in progress that found the probe enabled, whatever the flag has become
since, and only the first of them is owed a record. -/
namespace Riaps.Probe
open Library.Checks Library.Wrapping Library.Machine Spsc

/- What the calls in progress found, innermost first, and the ids to be recorded so far. -/
def follow : List Bool × List UInt32 → Event → List Bool × List UInt32
  | (calls,ids),.entered nodeId found => (found :: calls,if found && !calls.any id then ids ++ [nodeId] else ids)
  | (calls,ids),.left => (calls.tail,ids)
  | parts,_ => parts

def openCalls (events : List Event) : List Bool := (events.foldl follow ([],[])).1

def outermost (events : List Event) : List UInt32 := (events.foldl follow ([],[])).2

def attempts (events : List Event) : List ProbeRecord := events.flatMap (fun e =>
  match e with
  | .attempted record => [record]
  | _ => [])

/- The outermost call in progress, as long as it has not tried to write its record. -/
def owed : List Frame → List UInt32
  | [] => []
  | .measuring nodeId _ :: _ => [nodeId]
  | .entering nodeId :: rest => if rest.any Frame.found then owed rest else [nodeId]
  | _ :: rest => owed rest

def Outer : List Frame → Prop
  | [] => True
  | .measuring _ _ :: rest => rest.any Frame.found = false
  | _ :: rest => Outer rest

/- Counted, and a record is not or no longer owed for it. -/
def Frame.spent : Frame → Bool
  | .nested => true
  | .pushing => true
  | .counting => true
  | .leaving => true
  | _ => false

structure Nested (s : PerformanceProbe) (events : List Event) : Prop where
  calls : openCalls events = s.stack.map Frame.found
  inside : ∀ f ∈ s.stack.tail, f.running = true
  outer : Outer s.stack
  depth : s.nestingDepth = s.stack.countP Frame.counted
  owes : (attempts events).map ProbeRecord.nodeId ++ owed s.stack = outermost events

theorem newNested {s : PerformanceProbe} (made : new = .ok s) : Nested s [] := by
  unfold new at made
  obtain ⟨ring,_,made⟩ := bindOk made
  cases made
  exact ⟨rfl,by simp,trivial,rfl,rfl⟩

theorem countedRunning {rest : List Frame} (inside : ∀ f ∈ rest, f.running = true) :
    rest.countP Frame.counted = 0 ↔ rest.any Frame.found = false := by
  rw [List.countP_eq_zero,List.any_eq_false]
  have same : ∀ f ∈ rest, f.counted = f.found := by
    intro f mem
    have running := inside f mem
    cases f <;> first | rfl | cases running
  exact ⟨fun none_ f mem => by rw [← same f mem]; exact none_ f mem,fun none_ f mem => by rw [same f mem]; exact none_ f mem⟩

theorem nothingOwed {stack : List Frame} (none_ : stack.any Frame.found = false) : owed stack = [] ∧ Outer stack := by
  induction stack with
  | nil => exact ⟨rfl,trivial⟩
  | cons f rest ih =>
    obtain ⟨here,below⟩ := Bool.or_eq_false_iff.mp none_
    cases f with
    | passing => exact ih below
    | _ => cases here

theorem spentFrame {f : Frame} (rest : List Frame) (spent : f.spent = true) :
    f.found = true ∧ f.counted = true ∧ owed (f :: rest) = owed rest ∧ Outer (f :: rest) = Outer rest := by
  cases f with
  | passing => cases spent
  | entering nodeId => cases spent
  | measuring nodeId start => cases spent
  | _ => exact ⟨rfl,rfl,rfl,rfl⟩

theorem ringFollow (out : List (Spsc.Event ProbeRecord)) (parts : List Bool × List UInt32) :
    (out.map Event.ring).foldl follow parts = parts ∧ attempts (out.map .ring) = [] := by
  induction out generalizing parts with
  | nil => exact ⟨rfl,rfl⟩
  | cons e out ih => exact ⟨(ih parts).1,(ih parts).2⟩

section Kept
variable {w : Nat} {s : PerformanceProbe} {events : List Event}

theorem Nested.stackSize (inv : Nested s events) : (openCalls events).length = s.stack.length := by
  rw [inv.calls,List.length_map]

theorem Nested.aside (inv : Nested s events) {s' : PerformanceProbe} (out : List (Spsc.Event ProbeRecord))
    (stack : s'.stack = s.stack) (depth : s'.nestingDepth = s.nestingDepth) : Nested s' (events ++ out.map .ring) := by
  have quiet := ringFollow out (events.foldl follow ([],[]))
  have parts : attempts (events ++ out.map .ring) = attempts events := by
    rw [← List.append_nil (attempts events),← quiet.2]
    simp [attempts]
  refine ⟨?_,by rw [stack]; exact inv.inside,by rw [stack]; exact inv.outer,by rw [stack,depth]; exact inv.depth,?_⟩
  · rw [openCalls,List.foldl_append,quiet.1,stack]
    exact inv.calls
  · rw [parts,outermost,List.foldl_append,quiet.1,stack]
    exact inv.owes

theorem Nested.swap (inv : Nested s events) {f g : Frame} {rest : List Frame} {s' : PerformanceProbe}
    (out : List (Spsc.Event ProbeRecord)) (top : s.stack = f :: rest) (was : f.spent = true) (now : g.spent = true)
    (stack : s'.stack = g :: rest) (depth : s'.nestingDepth = s.nestingDepth) : Nested s' (events ++ out.map .ring) := by
  have aside : Nested s (events ++ out.map .ring) := inv.aside out rfl rfl
  obtain ⟨calls,inside,outer,deep,owes⟩ := aside
  obtain ⟨found,counted,owedRest,outerRest⟩ := spentFrame rest was
  obtain ⟨found',counted',owedRest',outerRest'⟩ := spentFrame rest now
  rw [top] at calls inside outer deep owes
  refine ⟨?_,?_,?_,?_,?_⟩
  · rw [stack,calls,List.map_cons,List.map_cons,found,found']
  · rw [stack]
    exact inside
  · rw [stack,outerRest',← outerRest]
    exact outer
  · rw [stack,depth,deep,List.countP_cons,List.countP_cons,counted,counted']
  · rw [stack,owedRest',← owedRest]
    exact owes

theorem Nested.enter (inv : Nested s events) {f : Frame} {nodeId : UInt32} {found : Bool}
    (kind : f = if found then .entering nodeId else .passing) (ready : s.stack.head?.all Frame.running = true) :
    Nested {s with stack := f :: s.stack} (events ++ [Event.entered nodeId found]) := by
  have inside : ∀ g ∈ s.stack, g.running = true := by
    have below := inv.inside
    cases stack : s.stack with
    | nil => simp
    | cons top rest =>
      rw [stack] at ready below
      exact List.forall_mem_cons.mpr ⟨by simpa using ready,below⟩
  have parts : attempts (events ++ [Event.entered nodeId found]) = attempts events := by simp [attempts]
  have known : (openCalls events).any id = s.stack.any Frame.found := by
    rw [inv.calls,List.any_map]
    rfl
  have now : openCalls (events ++ [Event.entered nodeId found]) = found :: openCalls events ∧
      outermost (events ++ [Event.entered nodeId found]) =
        if found && !s.stack.any Frame.found then outermost events ++ [nodeId] else outermost events := by
    rw [← known]
    simp [openCalls,outermost,List.foldl_append,follow]
  have owes := inv.owes
  subst kind
  cases found with
  | false =>
    refine ⟨?_,inside,inv.outer,inv.depth,?_⟩
    · rw [now.1,inv.calls]
      rfl
    · rw [now.2,parts]
      exact owes
  | true =>
    refine ⟨?_,inside,inv.outer,inv.depth,?_⟩
    · rw [now.1,inv.calls]
      rfl
    · rw [now.2,parts]
      cases enclosed : s.stack.any Frame.found with
      | true => simpa [owed,enclosed] using owes
      | false =>
        rw [(nothingOwed enclosed).1,List.append_nil] at owes
        simp [owed,enclosed,owes]

theorem Nested.leave (inv : Nested s events) {f : Frame} {rest : List Frame} {depth : Nat} (top : s.stack = f :: rest)
    (kind : f = .passing ∨ f.spent = true) (down : depth = rest.countP Frame.counted) :
    Nested {s with nestingDepth := depth, stack := rest} (events ++ [Event.left]) := by
  obtain ⟨calls,inside,outer,_,owes⟩ := inv
  have parts : attempts (events ++ [Event.left]) = attempts events := by simp [attempts]
  have now : openCalls (events ++ [Event.left]) = (openCalls events).tail ∧
      outermost (events ++ [Event.left]) = outermost events := by
    simp [openCalls,outermost,List.foldl_append,follow]
  have skipped : owed (f :: rest) = owed rest ∧ Outer (f :: rest) = Outer rest := by
    rcases kind with rfl | spent
    · exact ⟨rfl,rfl⟩
    · exact (spentFrame rest spent).2.2
  rw [top] at calls inside outer owes
  rw [skipped.1] at owes
  rw [skipped.2] at outer
  refine ⟨?_,fun g mem => inside g (List.mem_of_mem_tail mem),outer,down,?_⟩
  · rw [now.1,calls]
    rfl
  · rw [now.2,parts]
    exact owes

/- The fetch_add on entry tells an outermost call from a nested one. -/
theorem Nested.depthSeen (inv : Nested s events) {nodeId : UInt32} {rest : List Frame}
    (top : s.stack = .entering nodeId :: rest) :
    s.nestingDepth = rest.countP Frame.counted ∧ (0 < s.nestingDepth ↔ rest.any Frame.found = true) := by
  have depth := inv.depth
  have inside := inv.inside
  rw [top] at depth inside
  have same : s.nestingDepth = rest.countP Frame.counted := depth
  have none_ : rest.countP Frame.counted = 0 ↔ rest.any Frame.found = false := countedRunning inside
  refine ⟨same,?_⟩
  rw [Nat.pos_iff_ne_zero,same,ne_eq,none_,Bool.not_eq_false]

theorem Nested.admit (inv : Nested s events) {nodeId : UInt32} {f : Frame} {rest : List Frame}
    (top : s.stack = .entering nodeId :: rest) (shallow : (openCalls events).length < 2^32)
    (kind : (∃ tick, f = .measuring nodeId tick ∧ ¬0 < s.nestingDepth) ∨ (f = .nested ∧ 0 < s.nestingDepth)) :
    Nested {s with nestingDepth := wrappingAdd 32 s.nestingDepth 1, stack := f :: rest} (events ++ []) := by
  obtain ⟨same,seen⟩ := inv.depthSeen top
  rw [inv.stackSize,top,List.length_cons] at shallow
  have bound := List.countP_le_length (p := Frame.counted) (l := rest)
  have up : wrappingAdd 32 s.nestingDepth 1 = rest.countP Frame.counted + 1 := by
    rw [wrappingAdd,same]
    exact Nat.mod_eq_of_lt (by omega)
  obtain ⟨calls,inside,outer,_,owes⟩ := inv
  rw [top] at calls inside outer owes
  rw [List.append_nil]
  rcases kind with ⟨tick,rfl,first⟩ | ⟨rfl,deeper⟩
  · have alone : rest.any Frame.found = false := by simpa [seen] using first
    refine ⟨calls,inside,alone,up.trans (List.countP_cons_of_pos rfl).symm,?_⟩
    simpa [owed,alone] using owes
  · have enclosed := seen.mp deeper
    refine ⟨calls,inside,outer,up.trans (List.countP_cons_of_pos rfl).symm,?_⟩
    simpa [owed,enclosed] using owes

theorem Nested.attempt (inv : Nested s events) {record : ProbeRecord} {start : UInt64} {rest : List Frame}
    {ring : SpscRing ProbeRecord} (out : List (Spsc.Event ProbeRecord))
    (top : s.stack = .measuring record.nodeId start :: rest) :
    Nested {s with ring := ring, stack := .pushing :: rest} (events ++ Event.attempted record :: out.map .ring) := by
  obtain ⟨calls,inside,outer,depth,owes⟩ := inv
  rw [top] at calls inside outer depth owes
  obtain ⟨alone,below⟩ := nothingOwed outer
  have first : Nested {s with stack := .pushing :: rest} (events ++ [Event.attempted record]) := by
    have silent : openCalls (events ++ [Event.attempted record]) = openCalls events ∧
        outermost (events ++ [Event.attempted record]) = outermost events := by
      simp [openCalls,outermost,List.foldl_append,follow]
    refine ⟨by rw [silent.1]; exact calls,inside,below,depth,?_⟩
    rw [silent.2,← owes]
    simp [attempts,owed,alone]
  have split : events ++ Event.attempted record :: out.map .ring = events ++ [Event.attempted record] ++ out.map .ring := by
    simp
  rw [split]
  exact first.aside out rfl rfl

theorem stepNested (inv : Nested s events) (shallow : (openCalls events).length < 2^32) {s' : PerformanceProbe}
    {out : List Event} (moved : Moves w s out s') : Nested s' (events ++ out) := by
  cases moved with
  | toggle => exact inv.aside [] rfl rfl
  | enter ready => exact inv.enter rfl ready
  | begin top first => exact inv.admit top shallow (.inl ⟨_,rfl,first⟩)
  | pass top deeper => exact inv.admit top shallow (.inr ⟨rfl,deeper⟩)
  | @push rest ring inner top moved =>
    have next : (settle inner).spent = true := by
      unfold settle
      split <;> rfl
    exact inv.swap inner top rfl next rfl rfl
  | count top => exact inv.swap [] top rfl rfl rfl rfl
  | @leave rest top =>
    have depth := inv.depth
    have size := inv.stackSize
    rw [top,List.countP_cons] at depth
    rw [top,List.length_cons] at size
    have bound := List.countP_le_length (p := Frame.counted) (l := rest)
    refine inv.leave top (.inr rfl) ?_
    rw [wrappingSub,depth]
    change (rest.countP Frame.counted + 1 + 2^32 - 1) % 2^32 = _
    rw [show rest.countP Frame.counted + 1 + 2^32 - 1 = rest.countP Frame.counted + 2^32 by omega,Nat.add_mod_right]
    exact Nat.mod_eq_of_lt (by omega)
  | @returnPassing rest top =>
    refine inv.leave top (.inl rfl) ?_
    have depth := inv.depth
    rw [top] at depth
    exact depth
  | returnNested top => exact inv.swap [] top rfl rfl rfl rfl
  | @attempt nodeId start tick rest ring inner top moved => exact inv.attempt inner top
  | @read action ring inner draining moved reader => exact inv.aside inner rfl rfl

end Kept
end Riaps.Probe
