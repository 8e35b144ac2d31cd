import Riaps.BusReserve

/-! Every emitted event is counted once. The log of a run marks each emission as kept
or discarded, by position and not by value, since equal events may be emitted many
times. What was kept is what the sinks got and what the ring still holds; what was
discarded is in the overflow counter. -/
namespace Riaps.Bus
open Library.Checks Library.Wrapping Library.Machine Spsc

/- Newest emission first; a discard is about the emission that is in progress. -/
def record (marks : List (KernelEvent × Bool)) : BusEvent → List (KernelEvent × Bool)
  | .emitted event => (event,true) :: marks
  | .ring _ => marks
  | .discarded _ =>
      match marks with
      | [] => []
      | (event,_) :: rest => (event,false) :: rest

def emissions (events : List BusEvent) : List (KernelEvent × Bool) := (events.foldl record []).reverse

def kept (marks : List (KernelEvent × Bool)) : List KernelEvent := (marks.filter Prod.snd).map Prod.fst

def lost (marks : List (KernelEvent × Bool)) : List KernelEvent := (marks.filter (fun m => !m.2)).map Prod.fst

def emitted (events : List BusEvent) : List KernelEvent := events.flatMap (fun e =>
  match e with
  | .emitted event => [event]
  | _ => [])

def discarded (events : List BusEvent) : List KernelEvent := events.flatMap (fun e =>
  match e with
  | .discarded event => [event]
  | _ => [])

theorem recordedEvents (events : List BusEvent) (marks : List (KernelEvent × Bool)) :
    (events.foldl record marks).reverse.map Prod.fst = marks.reverse.map Prod.fst ++ emitted events := by
  induction events generalizing marks with
  | nil => simp [emitted]
  | cons e events ih =>
    rw [List.foldl_cons,ih]
    cases e with
    | emitted event => simp [record,emitted]
    | ring event => simp [record,emitted]
    | discarded event => cases marks <;> simp [record,emitted]

/- The books over the finished emissions: `marks` is newest first. -/
structure Booked (published lost_ : List KernelEvent) (counter : Nat) (marks : List (KernelEvent × Bool)) : Prop where
  keeps : kept marks.reverse = published
  loses : lost marks.reverse = lost_
  counted : counter = lost_.length % 2^32

def Accounting (published lost_ : List KernelEvent) (marks : List (KernelEvent × Bool)) (s : EventBus) : Emit → Prop
  | .idle => Booked published lost_ s.overflowCounter marks
  | .loadedTail event _ => ∃ rest, marks = (event,true) :: rest ∧ Booked published lost_ s.overflowCounter rest
  | .passed event => ∃ rest, marks = (event,true) :: rest ∧ Booked published lost_ s.overflowCounter rest
  | .pushing => ∃ event rest, marks = (event,true) :: rest ∧ s.ring.producer.value = some event ∧
      Booked published lost_ s.overflowCounter rest
  | .counting => ∃ event rest before, marks = (event,false) :: rest ∧ lost_ = before ++ [event] ∧
      Booked published before s.overflowCounter rest

section Books
variable {w size : Nat} {published lost_ : List KernelEvent} {marks : List (KernelEvent × Bool)} {s : EventBus}

theorem newAccounted {s : EventBus} (made : new size = .ok s) : Accounting [] [] [] s s.emitting := by
  unfold new at made
  obtain ⟨_,_,made⟩ := bindOk made
  obtain ⟨ring,_,made⟩ := bindOk made
  cases made
  exact ⟨rfl,rfl,rfl⟩

theorem Booked.keep {counter : Nat} (booked : Booked published lost_ counter marks) (event : KernelEvent) :
    Booked (published ++ [event]) lost_ counter ((event,true) :: marks) := by
  refine ⟨?_,?_,booked.counted⟩
  · rw [← booked.keeps]
    simp [kept]
  · rw [← booked.loses]
    simp [lost]

theorem Booked.lose {counter : Nat} (booked : Booked published lost_ counter marks) (event : KernelEvent) :
    Booked published (lost_ ++ [event]) (wrappingAdd 32 counter 1) ((event,false) :: marks) := by
  refine ⟨?_,?_,?_⟩
  · rw [← booked.keeps]
    simp [kept]
  · rw [← booked.loses]
    simp [lost]
  · rw [booked.counted,wrappingAddCount,List.length_append,List.length_singleton]

theorem readerAccounted (inv : Accounting published lost_ marks s s.emitting) {action : Spsc.Action KernelEvent}
    {ring : SpscRing KernelEvent} {out : List (Spsc.Event KernelEvent)} (reader : action.isReader = true)
    (ok : Spsc.step w size s.ring action = some (ring,out)) (draining : Bool) :
    Accounting published lost_ marks {s with ring := ring, draining := draining} s.emitting := by
  have producer := (readerFrame reader ok).1
  cases pc : s.emitting with
  | pushing =>
    rw [pc] at inv
    obtain ⟨event,rest,same,value,booked⟩ := inv
    exact ⟨event,rest,same,(congrArg Producer.value producer).trans value,booked⟩
  | _ =>
    rw [pc] at inv
    exact inv

theorem recordRing (out : List (Spsc.Event KernelEvent)) (marks : List (KernelEvent × Bool)) :
    (out.map BusEvent.ring).foldl record marks = marks ∧ discarded (out.map .ring) = [] := by
  induction out generalizing marks with
  | nil => exact ⟨rfl,rfl⟩
  | cons e out ih =>
    rw [List.map_cons,List.foldl_cons]
    exact ⟨(ih marks).1,(ih marks).2⟩

theorem pushAccounted {event : KernelEvent} {rest : List (KernelEvent × Bool)} (same : marks = (event,true) :: rest)
    (value : s.ring.producer.value = some event) (booked : Booked published lost_ s.overflowCounter rest)
    {ring : SpscRing KernelEvent} {out : List (Spsc.Event KernelEvent)}
    (moved : Spsc.step w size s.ring .produce = some (ring,out)) :
    Accounting (published ++ Spsc.accepted out) (lost_ ++ discarded (settle out).2) ((settle out).2.foldl record marks)
      {s with ring := ring, emitting := (settle out).1} (settle out).1 := by
  subst same
  rcases produceValue (Spsc.produceMoves moved) with ⟨rfl,kept_⟩ | ⟨v,carried,free,rfl | rfl⟩
  · simp only [Spsc.acceptedNil,List.append_nil]
    exact ⟨event,rest,rfl,kept_.trans value,by simpa [discarded,settle] using booked⟩
  · cases Option.some.inj (value.symm.trans carried)
    have none_ : lost_ ++ discarded (settle [Spsc.Event.pushOk event]).2 = lost_ := List.append_nil _
    rw [none_]
    exact booked.keep event
  · cases Option.some.inj (value.symm.trans carried)
    have none_ : published ++ Spsc.accepted [Spsc.Event.pushErr event] = published := List.append_nil _
    rw [none_]
    exact ⟨event,rest,lost_,rfl,rfl,booked⟩

theorem stepBooked (inv : Accounting published lost_ marks s s.emitting) {s' : EventBus} {out : List BusEvent}
    (moved : Moves w size s out s') :
    Accounting (published ++ accepted out) (lost_ ++ discarded out) (out.foldl record marks) s' s'.emitting := by
  have quiet : published ++ accepted [] = published ∧ lost_ ++ discarded [] = lost_ :=
    ⟨List.append_nil _,List.append_nil _⟩
  cases moved with
  | @emit event pc =>
    rw [pc] at inv
    have silent : accepted [BusEvent.emitted event] = [] ∧ discarded [BusEvent.emitted event] = [] := ⟨rfl,rfl⟩
    rw [silent.1,silent.2,List.append_nil,List.append_nil]
    exact ⟨marks,rfl,inv⟩
  | @refuse event tail pc few mild =>
    rw [pc] at inv
    obtain ⟨rest,rfl,booked⟩ := inv
    have silent : accepted [BusEvent.discarded event] = [] := rfl
    rw [silent,List.append_nil]
    exact ⟨event,rest,lost_,rfl,rfl,booked⟩
  | pass pc =>
    rw [pc] at inv
    rw [quiet.1,quiet.2]
    exact inv
  | @push event ring inner pc moved =>
    rw [pc] at inv
    obtain ⟨rest,rfl,booked⟩ := inv
    simp only [Spsc.step] at moved
    split at moved <;> try contradiction
    cases Option.some.inj moved
    rw [List.map_nil,quiet.1,quiet.2]
    exact ⟨event,rest,rfl,rfl,booked⟩
  | @pushing ring inner pc moved =>
    rw [pc] at inv
    obtain ⟨event,rest,same,value,booked⟩ := inv
    have next := pushAccounted same value booked moved
    have parts : discarded (inner.map .ring ++ (settle inner).2) = discarded (settle inner).2 := by
      rw [← List.nil_append (discarded (settle inner).2),← (recordRing inner marks).2]
      simp [discarded]
    rw [acceptedAppend,acceptedRing,(settleQuiet inner).1,List.append_nil,parts,List.foldl_append,
      (recordRing inner marks).1]
    exact next
  | count pc =>
    rw [pc] at inv
    obtain ⟨event,rest,before,rfl,rfl,booked⟩ := inv
    rw [quiet.1,quiet.2]
    exact booked.lose event
  | drain resting moved =>
    rw [acceptedRing,(readerFrame rfl moved).2.2.2,(recordRing _ marks).1,(recordRing _ marks).2,List.append_nil,
      List.append_nil]
    exact readerAccounted inv rfl moved true
  | consume busy moved =>
    have reader : (if s.ring.consumer = .idle then Spsc.Action.pop else .consume : Spsc.Action KernelEvent).isReader = true := by
      split <;> rfl
    rw [acceptedRing,(readerFrame reader moved).2.2.2,(recordRing _ marks).1,(recordRing _ marks).2,List.append_nil,
      List.append_nil]
    exact readerAccounted inv reader moved _

theorem runBooked {actions : List Action} {s₀ : EventBus} {events : List BusEvent} (made : new size = .ok s₀)
    (ok : run (step w size) s₀ actions = some (s,events)) :
    Accounting (accepted events) (discarded events) (events.foldl record []) s s.emitting := by
  refine runInvariant
    (P := fun s events => Accounting (accepted events) (discarded events) (events.foldl record []) s s.emitting)
    (newAccounted made) ?_ ok
  intro s past action s' out inv moved
  have parts : discarded (past ++ out) = discarded past ++ discarded out := by simp [discarded]
  rw [acceptedAppend,parts,List.foldl_append]
  exact stepBooked inv (stepMoves moved)

theorem reserveReached (enough : RESERVED_SLOTS < size) (tail head : Nat) :
    capacityLeft w size tail head ≤ RESERVED_SLOTS ↔ size - RESERVED_SLOTS ≤ wrappingSub w tail head := by
  unfold capacityLeft
  omega

theorem discardedMild {consumed : List KernelEvent} (fits : size < 2^w) (inv : Reserved w size published consumed s)
    {s' : EventBus} {out : List BusEvent} {event : KernelEvent} (moved : Moves w size s out s')
    (gone : .discarded event ∈ out) (mild : event.isFatal = false) :
    ∃ tail, s.emitting = .loadedTail event tail ∧ capacityLeft w size tail s.ring.head ≤ RESERVED_SLOTS := by
  have current := inv.emitting
  cases moved with
  | refuse pc few =>
    cases List.mem_singleton.mp gone
    exact ⟨_,pc,few⟩
  | pushing pc moved =>
    rw [pc] at current
    obtain ⟨carried,value,room⟩ := current
    have caused := produceCaused (Spsc.produceMoves moved)
    rcases produceValue (Spsc.produceMoves moved) with ⟨rfl,_⟩ | ⟨v,held,_,rfl | rfl⟩
    · simp [settle] at gone
    · simp [settle] at gone
    · have same : event = v := by simpa [settle] using gone
      subst same
      cases Option.some.inj (value.symm.trans held)
      have full := inv.ring.refused fits (caused _ (List.mem_singleton.mpr rfl))
      have free := room mild
      omega
  | _ => simp at gone

end Books

theorem emittedAccounted {w size : Nat} (fits : size < 2^w) {s₀ s : EventBus} {actions : List Action}
    {events : List BusEvent} (made : new size = .ok s₀) (ok : run (step w size) s₀ actions = some (s,events))
    (few : (accepted events).length < 2^w) :
    (s.emitting = .idle →
      (emissions events).map Prod.fst = emitted events ∧ lost (emissions events) = discarded events ∧
      delivered events ++ contents w size s.ring = kept (emissions events) ∧
      s.overflowCounter = (discarded events).length % 2^32) ∧
    (∀ event tail, s.emitting = .loadedTail event tail → event.isFatal = false →
      size - RESERVED_SLOTS ≤ wrappingSub w tail s.ring.head →
      ∃ s', step w size s .produce = some (s',[.discarded event])) ∧
    ∀ action s' out event, step w size s action = some (s',out) → .discarded event ∈ out → event.isFatal = false →
      ∃ tail, s.emitting = .loadedTail event tail ∧ size - RESERVED_SLOTS ≤ wrappingSub w tail s.ring.head := by
  have inv := runReserved fits made ok (.inl few)
  have books := runBooked made ok
  have enough : RESERVED_SLOTS < size := by
    unfold new at made
    obtain ⟨_,checked,_⟩ := bindOk made
    unfold ensure at checked
    split at checked <;> try contradiction
    assumption
  refine ⟨?_,?_,?_⟩
  · intro idle
    rw [idle] at books
    refine ⟨?_,books.loses,?_,books.counted⟩
    · exact (recordedEvents events []).trans (List.nil_append _)
    · rw [inv.ring.contents fits (.inl few),emissions,books.keeps]
      exact List.prefix_iff_eq_append.mp inv.ring.order
  · intro event tail pc mild reached
    have low := (reserveReached enough tail s.ring.head).mpr reached
    refine ⟨{s with emitting := .counting},?_⟩
    simp only [step,produce,pc,if_pos (And.intro low mild)]
  · intro action s' out event moved gone mild
    obtain ⟨tail,pc,low⟩ := discardedMild fits inv (stepMoves moved) gone mild
    exact ⟨tail,pc,(reserveReached enough tail s.ring.head).mp low⟩

def overfull : List Action :=
  emitWhole .audioThreadStarted ++ [.emit (.gcOrphanReclaimed 1),.produce,.produce] ++ emitWhole (.spscOverflow 2) ++
    [.drain,.consume,.consume,.consume]

theorem emittedAccountedAtNine : ∃ s events, run (step 4 9) ⟨empty KernelEvent 9,0,.idle,false⟩ overfull = some (s,events) ∧
    discarded events = [.gcOrphanReclaimed 1] ∧ delivered events = [.audioThreadStarted] ∧
    delivered events ++ contents 4 9 s.ring = kept (emissions events) ∧
    s.overflowCounter = (discarded events).length % 2^32 := by
  have tested : (run (step 4 9) ⟨empty KernelEvent 9,0,.idle,false⟩ overfull).any (fun r =>
      decide ((accepted r.2).length < 2^4) && decide (r.1.emitting = .idle) &&
        decide (discarded r.2 = [.gcOrphanReclaimed 1] ∧ delivered r.2 = [.audioThreadStarted])) = true := by
    decide +kernel
  obtain ⟨⟨s,events⟩,ran,tested⟩ := (Option.any_eq_true _ _).mp tested
  obtain ⟨tested,history⟩ := Bool.and_eq_true_iff.mp tested
  obtain ⟨few,idle⟩ := Bool.and_eq_true_iff.mp tested
  obtain ⟨gone,given⟩ := of_decide_eq_true history
  have fits : 9 < 2^4 := by decide
  obtain ⟨_,_,books,counter⟩ := (emittedAccounted fits rfl ran (of_decide_eq_true few)).1 (of_decide_eq_true idle)
  exact ⟨s,events,ran,gone,given,books,counter⟩

end Riaps.Bus
