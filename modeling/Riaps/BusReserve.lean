import Riaps.Bus

/-! Why a flood of ordinary events cannot lose a fatal one. Only the producer adds
events, so what its reserve check saw is a bound until its push publishes: an
ordinary event goes in only while at least one slot beyond the reserve is free,
whatever the consumer does in between. -/
namespace Riaps.Bus
open Library.Checks Library.Wrapping Library.Machine Spsc

def ordinary (events : List KernelEvent) : List KernelEvent := events.filter (fun event => !event.isFatal)

def fatal (events : List KernelEvent) : List KernelEvent := events.filter KernelEvent.isFatal

def Room (size : Nat) (published consumed : List KernelEvent) (event : KernelEvent) : Prop :=
  event.isFatal = false → published.length + RESERVED_SLOTS < consumed.length + size

def Emitting (size : Nat) (published consumed : List KernelEvent) (s : EventBus) : Emit → Prop
  | .idle => s.ring.producer = .idle
  | .loadedTail _ tail => s.ring.producer = .idle ∧ tail = s.ring.tail
  | .passed event => s.ring.producer = .idle ∧ Room size published consumed event
  | .pushing => ∃ event, s.ring.producer.value = some event ∧ Room size published consumed event
  | .counting => s.ring.producer = .idle

structure Reserved (w size : Nat) (published consumed : List KernelEvent) (s : EventBus) : Prop where
  ring : Consistent w size published consumed s.ring
  spared : (ordinary (published.drop consumed.length)).length + RESERVED_SLOTS ≤ size
  emitting : Emitting size published consumed s s.emitting

theorem ordinaryDrop (events : List KernelEvent) (low more : Nat) :
    (ordinary (events.drop (low + more))).length ≤ (ordinary (events.drop low)).length := by
  rw [← List.drop_drop]
  exact ((List.drop_sublist more (events.drop low)).filter _).length_le

theorem ordinaryFatal (events : List KernelEvent) : (ordinary events).length + (fatal events).length = events.length := by
  have split := List.length_eq_length_filter_add (l := events) KernelEvent.isFatal
  simp only [ordinary,fatal]
  omega

section Kept
variable {w size : Nat} {published consumed : List KernelEvent} {s : EventBus}

theorem newReserved {s : EventBus} (made : new size = .ok s) : Reserved w size [] [] s := by
  unfold new at made
  obtain ⟨_,enough,made⟩ := bindOk made
  obtain ⟨ring,fresh,made⟩ := bindOk made
  obtain ⟨_,rfl⟩ := newEmpty fresh
  cases made
  refine ⟨emptyConsistent w size,?_,rfl⟩
  unfold ensure at enough
  split at enough <;> try contradiction
  simp only [List.drop_nil,ordinary,List.filter_nil,List.length_nil]
  omega

theorem roomGrows {event : KernelEvent} {more : List KernelEvent} (room : Room size published consumed event)
    (grown : consumed.length ≤ more.length) : Room size published more event :=
  fun mild => Nat.lt_of_lt_of_le (room mild) (Nat.add_le_add_right grown size)

theorem readerReserved (fits : size < 2^w) (inv : Reserved w size published consumed s)
    (aligned : Aligned w size published.length) {action : Spsc.Action KernelEvent} {ring : SpscRing KernelEvent}
    {out : List (Spsc.Event KernelEvent)} (reader : action.isReader = true)
    (ok : Spsc.step w size s.ring action = some (ring,out)) (draining : Bool) :
    Reserved w size (published ++ Spsc.accepted out) (consumed ++ Spsc.delivered out)
      {s with ring := ring, draining := draining} := by
  obtain ⟨producer,tail,_,none_⟩ := readerFrame reader ok
  have grown : consumed.length ≤ (consumed ++ Spsc.delivered out).length := by simp
  refine ⟨Spsc.stepConsistent fits inv.ring aligned ok,?_,?_⟩
  · rw [none_,List.append_nil,List.length_append]
    exact Nat.le_trans (Nat.add_le_add_right (ordinaryDrop _ _ _) _) inv.spared
  · rw [none_,List.append_nil]
    have pc := inv.emitting
    change Emitting size published _ _ s.emitting
    cases at_ : s.emitting with
    | idle =>
      rw [at_] at pc
      exact producer.trans pc
    | loadedTail event seen =>
      rw [at_] at pc
      exact ⟨producer.trans pc.1,pc.2.trans tail.symm⟩
    | passed event =>
      rw [at_] at pc
      exact ⟨producer.trans pc.1,roomGrows pc.2 grown⟩
    | pushing =>
      rw [at_] at pc
      obtain ⟨event,value,room⟩ := pc
      exact ⟨event,(congrArg Producer.value producer).trans value,roomGrows room grown⟩
    | counting =>
      rw [at_] at pc
      exact producer.trans pc

theorem checkedRoom (fits : size < 2^w) (inv : Reserved w size published consumed s) {event : KernelEvent}
    (enough : ¬(capacityLeft w size s.ring.tail s.ring.head ≤ RESERVED_SLOTS ∧ event.isFatal = false)) :
    Room size published consumed event := by
  intro mild
  have held := inv.ring.held fits
  have le := inv.ring.order.length_le
  have room := inv.ring.room
  rw [capacityLeft,held] at enough
  have some_ := not_and'.mp enough mild
  omega

theorem publishedSpared (inv : Reserved w size published consumed s) {event : KernelEvent}
    (room : Room size published consumed event) :
    (ordinary ((published ++ [event]).drop consumed.length)).length + RESERVED_SLOTS ≤ size := by
  have le := inv.ring.order.length_le
  have spared := inv.spared
  have few : (ordinary (published.drop consumed.length)).length ≤ published.length - consumed.length := by
    rw [← List.length_drop]
    exact List.length_filter_le _ _
  rw [List.drop_append_of_le_length le]
  unfold ordinary at spared few ⊢
  rw [List.filter_append,List.length_append]
  cases kind : event.isFatal with
  | true => simpa [kind] using spared
  | false =>
    have more := room kind
    simp only [List.filter_cons,kind,Bool.not_false,if_true,List.filter_nil,List.length_singleton]
    omega

theorem Reserved.local (inv : Reserved w size published consumed s) {s' : EventBus} {out : List BusEvent}
    (same : s'.ring = s.ring) (quiet : out.filterMap BusEvent.inner = [])
    (pc : Emitting size published consumed s' s'.emitting) :
    Reserved w size (published ++ accepted out) (consumed ++ delivered out) s' := by
  have ring := inv.ring
  rw [← same] at ring
  simpa [accepted,delivered,quiet] using (⟨ring,inv.spared,pc⟩ : Reserved w size published consumed s')

theorem pushReserved (fits : size < 2^w) (inv : Reserved w size published consumed s)
    (aligned : Aligned w size published.length) {event : KernelEvent} (value : s.ring.producer.value = some event)
    (room : Room size published consumed event) {ring : SpscRing KernelEvent} {out : List (Spsc.Event KernelEvent)}
    (moved : Spsc.step w size s.ring .produce = some (ring,out)) :
    Reserved w size (published ++ Spsc.accepted out) (consumed ++ Spsc.delivered out)
      {s with ring := ring, emitting := (settle out).1} := by
  have next := Spsc.stepConsistent fits inv.ring aligned moved
  rcases produceValue (Spsc.produceMoves moved) with ⟨rfl,same⟩ | ⟨v,carried,free,rfl | rfl⟩
  · rw [Spsc.acceptedNil,Spsc.deliveredNil,List.append_nil,List.append_nil] at next ⊢
    exact ⟨next,inv.spared,event,same.trans value,room⟩
  · cases Option.some.inj (value.symm.trans carried)
    have given : Spsc.delivered [Spsc.Event.pushOk event] = [] := rfl
    rw [given,List.append_nil] at next ⊢
    exact ⟨next,publishedSpared inv room,free⟩
  · have taken : Spsc.accepted [Spsc.Event.pushErr v] = [] := rfl
    have given : Spsc.delivered [Spsc.Event.pushErr v] = [] := rfl
    rw [taken,given,List.append_nil,List.append_nil] at next ⊢
    exact ⟨next,inv.spared,free⟩

theorem stepReserved (fits : size < 2^w) (inv : Reserved w size published consumed s)
    (aligned : Aligned w size published.length) {s' : EventBus} {out : List BusEvent} (moved : Moves w size s out s') :
    Reserved w size (published ++ accepted out) (consumed ++ delivered out) s' := by
  have current := inv.emitting
  cases moved with
  | emit pc =>
    rw [pc] at current
    exact inv.local rfl rfl ⟨current,rfl⟩
  | refuse pc few mild =>
    rw [pc] at current
    exact inv.local rfl rfl current.1
  | pass pc enough =>
    rw [pc] at current
    obtain ⟨free,rfl⟩ := current
    exact inv.local rfl rfl ⟨free,checkedRoom fits inv enough⟩
  | @push event ring inner pc moved =>
    rw [pc] at current
    obtain ⟨free,room⟩ := current
    rw [acceptedRing,deliveredRing]
    have next := Spsc.stepConsistent fits inv.ring aligned moved
    simp only [Spsc.step,free] at moved
    cases Option.some.inj moved
    rw [Spsc.acceptedNil,Spsc.deliveredNil,List.append_nil,List.append_nil] at next ⊢
    exact ⟨next,inv.spared,event,rfl,room⟩
  | @pushing ring inner pc moved =>
    rw [pc] at current
    obtain ⟨event,value,room⟩ := current
    rw [acceptedAppend,deliveredAppend,acceptedRing,deliveredRing,(settleQuiet inner).1,(settleQuiet inner).2,
      List.append_nil,List.append_nil]
    exact pushReserved fits inv aligned value room moved
  | count pc =>
    rw [pc] at current
    exact inv.local rfl rfl current
  | drain resting moved =>
    rw [acceptedRing,deliveredRing]
    exact readerReserved fits inv aligned rfl moved true
  | consume busy moved =>
    rw [acceptedRing,deliveredRing]
    refine readerReserved fits inv aligned ?_ moved _
    split <;> rfl

theorem runReserved (fits : size < 2^w) {actions : List Action} {s₀ s : EventBus} {events : List BusEvent}
    (made : new size = .ok s₀) (ok : run (step w size) s₀ actions = some (s,events))
    (aligned : Aligned w size (accepted events).length) :
    Reserved w size (accepted events) (delivered events) s := by
  refine runInvariant
    (P := fun s events => Aligned w size (accepted events).length →
      Reserved w size (accepted events) (delivered events) s)
    (fun _ => newReserved made) ?_ ok aligned
  intro s past action s' out held moved aligned
  rw [acceptedAppend] at aligned
  have before := alignedFront aligned
  simpa using stepReserved fits (held before) before (stepMoves moved)

theorem discardedFatal {s' : EventBus} {out : List BusEvent} {event : KernelEvent} (moved : Moves w size s out s')
    (lost : .discarded event ∈ out) (fatal : event.isFatal = true) : Caused w size s.ring (.pushErr event) := by
  cases moved with
  | refuse pc few mild =>
    cases List.mem_singleton.mp lost
    rw [mild] at fatal
    cases fatal
  | pushing pc moved =>
    have caused := produceCaused (Spsc.produceMoves moved)
    rcases produceValue (Spsc.produceMoves moved) with ⟨rfl,_⟩ | ⟨v,_,_,rfl | rfl⟩
    · simp [settle] at lost
    · simp [settle] at lost
    · have same : event = v := by simpa [settle] using lost
      rw [same]
      exact caused _ (List.mem_singleton.mpr rfl)
  | _ => simp at lost

end Kept

theorem reservedSlotsProtectFatal {w size : Nat} (fits : size < 2^w) {s₀ s : EventBus} {actions : List Action}
    {events : List BusEvent} (made : new size = .ok s₀) (ok : run (step w size) s₀ actions = some (s,events))
    (few : (accepted events).length < 2^w) :
    (ordinary (contents w size s.ring)).length ≤ size - RESERVED_SLOTS ∧
    ∀ action s' out event, step w size s action = some (s',out) → .discarded event ∈ out → event.isFatal = true →
      (∃ tail, s.ring.producer = .loadedTail event tail) ∧ (contents w size s.ring).length = size ∧
      RESERVED_SLOTS ≤ (fatal (contents w size s.ring)).length := by
  have inv := runReserved fits made ok (.inl few)
  have spared := inv.spared
  rw [inv.ring.contents fits (.inl few)]
  refine ⟨by omega,?_⟩
  intro action s' out event moved lost kind
  have caused := discardedFatal (stepMoves moved) lost kind
  have full := inv.ring.refused fits caused
  have all := ordinaryFatal ((accepted events).drop (delivered events).length)
  obtain ⟨tail,pc,_⟩ := caused
  rw [List.length_drop] at all ⊢
  exact ⟨⟨tail,pc⟩,by omega,by omega⟩

def emitWhole (event : KernelEvent) : List Action := [.emit event,.produce,.produce,.produce,.produce,.produce]

def flood : List Action :=
  emitWhole .audioThreadStarted ++ [.emit (.gcOrphanReclaimed 1),.produce,.produce] ++
    (List.replicate 8 (emitWhole (.spscOverflow 1))).flatten ++ [.emit (.audioThreadStopped .hostError),.produce,.produce]

theorem reservedSlotsProtectFatalAtNine :
    ∃ s events s' out, run (step 4 9) ⟨empty KernelEvent 9,0,.idle,false⟩ flood = some (s,events) ∧
      step 4 9 s .produce = some (s',out) ∧ .discarded (.audioThreadStopped .hostError) ∈ out ∧
      (ordinary (contents 4 9 s.ring)).length ≤ 9 - RESERVED_SLOTS ∧
      RESERVED_SLOTS ≤ (fatal (contents 4 9 s.ring)).length := by
  have tested : (run (step 4 9) ⟨empty KernelEvent 9,0,.idle,false⟩ flood).any (fun r =>
      decide ((accepted r.2).length < 2^4) &&
        (step 4 9 r.1 .produce).any (fun q => decide (.discarded (.audioThreadStopped .hostError) ∈ q.2))) = true := by
    decide +kernel
  obtain ⟨⟨s,events⟩,ran,tested⟩ := (Option.any_eq_true _ _).mp tested
  obtain ⟨few,tested⟩ := Bool.and_eq_true_iff.mp tested
  obtain ⟨⟨s',out⟩,moved,lost⟩ := (Option.any_eq_true _ _).mp tested
  have fits : 9 < 2^4 := by decide
  have safe := reservedSlotsProtectFatal fits rfl ran (of_decide_eq_true few)
  exact ⟨s,events,s',out,ran,moved,of_decide_eq_true lost,safe.1,
    (safe.2 _ _ _ _ moved (of_decide_eq_true lost) rfl).2.2⟩

end Riaps.Bus
