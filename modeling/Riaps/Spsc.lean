import Riaps.Library.Checks
import Riaps.Library.Machine
import Riaps.Library.Wrapping

/-! The single-producer single-consumer ring, one atomic access at a time. A call
stands between two accesses in its own program counter, with the private copies
it has loaded so far; the code after an access is part of that access's step.
A read of a slot that was never written leads to `undefined`. -/
namespace Riaps.Spsc
open Library.Checks Library.Wrapping Library.Machine

inductive Producer (α : Type) where
  | idle
  | loadedTail (value : α) (tail : Nat)
  | writing (value : α) (tail : Nat)
  | publishing (value : α) (tail : Nat)
  deriving DecidableEq, Repr

inductive Consumer (α : Type) where
  | idle
  | loadedHead (head : Nat)
  | reading (head : Nat)
  | leaving (head : Nat) (value : α)
  | sliceLoadedHead (count head : Nat)
  | sliceReading (count head : Nat) (dst : List α)
  | undefined
  deriving DecidableEq, Repr

structure SpscRing (α : Type) where
  head : Nat
  tail : Nat
  buf : List (Option α)
  producer : Producer α
  consumer : Consumer α
  deriving DecidableEq, Repr

def empty (α : Type) (size : Nat) : SpscRing α := ⟨0,0,List.replicate size none,.idle,.idle⟩

def new (α : Type) (size : Nat) : Checked (SpscRing α) := do
  ensure .assertion (0 < size)
  return empty α size

inductive Action (α : Type) where
  | push (value : α)
  | produce
  | pop
  | popSliceCopy (count : Nat)
  | consume
  deriving DecidableEq, Repr

inductive Event (α : Type) where
  | pushOk (value : α)
  | pushErr (value : α)
  | popSome (value : α)
  | popNone
  | sliceOk (dst : List α)
  | sliceErr
  deriving DecidableEq, Repr

theorem newEmpty {α : Type} {size : Nat} {s : SpscRing α} (made : new α size = .ok s) : 0 < size ∧ s = empty α size := by
  unfold new ensure at made
  split at made
  · rename_i positive
    cases made
    exact ⟨positive,rfl⟩
  · cases made

section Steps
variable {α : Type} (w size : Nat)

def slot (s : SpscRing α) (index : Nat) : Option α := (s.buf[index % size]?).join

def contents (s : SpscRing α) : List α :=
  (List.range (wrappingSub w s.tail s.head)).filterMap (fun i => slot size s (wrappingAdd w s.head i))

/- `len` loads tail first and head afterwards; both loads are steps of their own. -/
def capacityLeft (tail head : Nat) : Nat := size - min (wrappingSub w tail head) size

def produce (s : SpscRing α) : Option (SpscRing α × List (Event α)) :=
  match s.producer with
  | .idle => none
  | .loadedTail value tail =>
      if wrappingSub w tail s.head = size then some ({s with producer := .idle},[.pushErr value])
      else some ({s with producer := .writing value tail},[])
  | .writing value tail =>
      some ({s with buf := s.buf.set (tail % size) (some value), producer := .publishing value tail},[])
  | .publishing value tail =>
      some ({s with tail := wrappingAdd w tail 1, producer := .idle},[.pushOk value])

def consume (s : SpscRing α) : Option (SpscRing α × List (Event α)) :=
  match s.consumer with
  | .idle => none
  | .loadedHead head =>
      if s.tail = head then some ({s with consumer := .idle},[.popNone])
      else some ({s with consumer := .reading head},[])
  | .reading head =>
      match slot size s head with
      | some value => some ({s with consumer := .leaving head value},[])
      | none => some ({s with consumer := .undefined},[])
  | .leaving head value =>
      some ({s with head := wrappingAdd w head 1, consumer := .idle},[.popSome value])
  | .sliceLoadedHead count head =>
      if wrappingSub w s.tail head < count then some ({s with consumer := .idle},[.sliceErr])
      else some ({s with consumer := .sliceReading count head []},[])
  | .sliceReading count head dst =>
      if dst.length < count then
        match slot size s (wrappingAdd w head dst.length) with
        | some value => some ({s with consumer := .sliceReading count head (dst ++ [value])},[])
        | none => some ({s with consumer := .undefined},[])
      else some ({s with head := wrappingAdd w head count, consumer := .idle},[.sliceOk dst])
  | .undefined => none

/- The next access of a loop that pops until nothing is left. -/
def nextAccess (s : SpscRing α) : Action α :=
  match s.consumer with
  | .idle => .pop
  | _ => .consume

def step (s : SpscRing α) : Action α → Option (SpscRing α × List (Event α))
  | .push value =>
      match s.producer with
      | .idle => some ({s with producer := .loadedTail value s.tail},[])
      | _ => none
  | .produce => produce w size s
  | .pop =>
      match s.consumer with
      | .idle => some ({s with consumer := .loadedHead s.head},[])
      | _ => none
  | .popSliceCopy count =>
      match s.consumer with
      | .idle => some ({s with consumer := .sliceLoadedHead count s.head},[])
      | _ => none
  | .consume => consume w size s

def Producer.value : Producer α → Option α
  | .idle => none
  | .loadedTail value _ => some value
  | .writing value _ => some value
  | .publishing value _ => some value

def Caused (s : SpscRing α) : Event α → Prop
  | .pushOk value => ∃ tail, s.producer = .publishing value tail
  | .pushErr value => ∃ tail, s.producer = .loadedTail value tail ∧ wrappingSub w tail s.head = size
  | .popSome value => ∃ head, s.consumer = .leaving head value
  | .popNone => ∃ head, s.consumer = .loadedHead head ∧ s.tail = head
  | .sliceOk dst => ∃ count head, s.consumer = .sliceReading count head dst ∧ count ≤ dst.length
  | .sliceErr => ∃ count head, s.consumer = .sliceLoadedHead count head ∧ wrappingSub w s.tail head < count

variable {w size}

inductive Produces (w size : Nat) (s : SpscRing α) : List (Event α) → SpscRing α → Prop where
  | full {value tail} (pc : s.producer = .loadedTail value tail) (held : wrappingSub w tail s.head = size) :
      Produces w size s [.pushErr value] {s with producer := .idle}
  | room {value tail} (pc : s.producer = .loadedTail value tail) (held : wrappingSub w tail s.head ≠ size) :
      Produces w size s [] {s with producer := .writing value tail}
  | write {value tail} (pc : s.producer = .writing value tail) :
      Produces w size s [] {s with buf := s.buf.set (tail % size) (some value), producer := .publishing value tail}
  | publish {value tail} (pc : s.producer = .publishing value tail) :
      Produces w size s [.pushOk value] {s with tail := wrappingAdd w tail 1, producer := .idle}

inductive Consumes (w size : Nat) (s : SpscRing α) : List (Event α) → SpscRing α → Prop where
  | none {head} (pc : s.consumer = .loadedHead head) (same : s.tail = head) :
      Consumes w size s [.popNone] {s with consumer := .idle}
  | some {head} (pc : s.consumer = .loadedHead head) (other : s.tail ≠ head) :
      Consumes w size s [] {s with consumer := .reading head}
  | read {head value} (pc : s.consumer = .reading head) (found : slot size s head = .some value) :
      Consumes w size s [] {s with consumer := .leaving head value}
  | readUnwritten {head} (pc : s.consumer = .reading head) (absent : slot size s head = .none) :
      Consumes w size s [] {s with consumer := .undefined}
  | leave {head value} (pc : s.consumer = .leaving head value) :
      Consumes w size s [.popSome value] {s with head := wrappingAdd w head 1, consumer := .idle}
  | few {count head} (pc : s.consumer = .sliceLoadedHead count head) (short : wrappingSub w s.tail head < count) :
      Consumes w size s [.sliceErr] {s with consumer := .idle}
  | enough {count head} (pc : s.consumer = .sliceLoadedHead count head) (all : ¬wrappingSub w s.tail head < count) :
      Consumes w size s [] {s with consumer := .sliceReading count head []}
  | copy {count head dst value} (pc : s.consumer = .sliceReading count head dst) (more : dst.length < count)
      (found : slot size s (wrappingAdd w head dst.length) = .some value) :
      Consumes w size s [] {s with consumer := .sliceReading count head (dst ++ [value])}
  | copyUnwritten {count head dst} (pc : s.consumer = .sliceReading count head dst) (more : dst.length < count)
      (absent : slot size s (wrappingAdd w head dst.length) = .none) :
      Consumes w size s [] {s with consumer := .undefined}
  | leaveSlice {count head dst} (pc : s.consumer = .sliceReading count head dst) (done : ¬dst.length < count) :
      Consumes w size s [.sliceOk dst] {s with head := wrappingAdd w head count, consumer := .idle}

theorem produceMoves {s s' : SpscRing α} {out : List (Event α)} (ok : produce w size s = some (s',out)) :
    Produces w size s out s' := by
  unfold produce at ok
  cases pc : s.producer with
  | idle => simp [pc] at ok
  | loadedTail value tail =>
    simp only [pc] at ok
    split at ok <;> cases Option.some.inj ok
    · exact .full pc (by assumption)
    · exact .room pc (by assumption)
  | writing value tail =>
    simp only [pc] at ok
    cases Option.some.inj ok
    exact .write pc
  | publishing value tail =>
    simp only [pc] at ok
    cases Option.some.inj ok
    exact .publish pc

theorem consumeMoves {s s' : SpscRing α} {out : List (Event α)} (ok : consume w size s = some (s',out)) :
    Consumes w size s out s' := by
  unfold consume at ok
  cases pc : s.consumer with
  | idle => simp [pc] at ok
  | loadedHead head =>
    simp only [pc] at ok
    split at ok <;> cases Option.some.inj ok
    · exact .none pc (by assumption)
    · exact .some pc (by assumption)
  | reading head =>
    simp only [pc] at ok
    split at ok <;> cases Option.some.inj ok
    · exact .read pc (by assumption)
    · exact .readUnwritten pc (by assumption)
  | leaving head value =>
    simp only [pc] at ok
    cases Option.some.inj ok
    exact .leave pc
  | sliceLoadedHead count head =>
    simp only [pc] at ok
    split at ok <;> cases Option.some.inj ok
    · exact .few pc (by assumption)
    · exact .enough pc (by assumption)
  | sliceReading count head dst =>
    simp only [pc] at ok
    split at ok
    · rename_i more
      split at ok <;> cases Option.some.inj ok
      · exact .copy pc more (by assumption)
      · exact .copyUnwritten pc more (by assumption)
    · rename_i done
      cases Option.some.inj ok
      exact .leaveSlice pc done
  | undefined => simp [pc] at ok

theorem produceCaused {s s' : SpscRing α} {out : List (Event α)} (moved : Produces w size s out s') :
    ∀ e ∈ out, Caused w size s e := by
  intro e mem
  cases moved with
  | full pc held =>
    cases List.mem_singleton.mp mem
    exact ⟨_,pc,held⟩
  | room => cases mem
  | write => cases mem
  | publish pc =>
    cases List.mem_singleton.mp mem
    exact ⟨_,pc⟩

theorem produceValue {s s' : SpscRing α} {out : List (Event α)} (moved : Produces w size s out s') :
    (out = [] ∧ s'.producer.value = s.producer.value) ∨
    ∃ value, s.producer.value = some value ∧ s'.producer = .idle ∧ (out = [.pushOk value] ∨ out = [.pushErr value]) := by
  cases moved with
  | @full value tail pc held => exact .inr ⟨value,by rw [pc]; rfl,rfl,.inr rfl⟩
  | room pc held => exact .inl ⟨rfl,by rw [pc]; rfl⟩
  | write pc => exact .inl ⟨rfl,by rw [pc]; rfl⟩
  | @publish value tail pc => exact .inr ⟨value,by rw [pc]; rfl,rfl,.inl rfl⟩

theorem consumeCaused {s s' : SpscRing α} {out : List (Event α)} (moved : Consumes w size s out s') :
    ∀ e ∈ out, Caused w size s e := by
  intro e mem
  cases moved with
  | none pc same =>
    cases List.mem_singleton.mp mem
    exact ⟨_,pc,same⟩
  | leave pc =>
    cases List.mem_singleton.mp mem
    exact ⟨_,pc⟩
  | few pc short =>
    cases List.mem_singleton.mp mem
    exact ⟨_,_,pc,short⟩
  | leaveSlice pc done =>
    cases List.mem_singleton.mp mem
    exact ⟨_,_,pc,Nat.not_lt.mp done⟩
  | _ => cases mem

theorem stepCaused {s s' : SpscRing α} {action : Action α} {out : List (Event α)}
    (ok : step w size s action = some (s',out)) : ∀ e ∈ out, Caused w size s e := by
  cases action with
  | produce => exact produceCaused (produceMoves ok)
  | consume => exact consumeCaused (consumeMoves ok)
  | _ =>
    simp only [step] at ok
    split at ok <;> try contradiction
    cases Option.some.inj ok
    simp

end Steps

@[simp] def Event.taken {α : Type} : Event α → List α
  | .pushOk value => [value]
  | _ => []

@[simp] def Event.given {α : Type} : Event α → List α
  | .popSome value => [value]
  | .sliceOk dst => dst
  | _ => []

section Histories
variable {α : Type}

def accepted (events : List (Event α)) : List α := events.flatMap Event.taken

def delivered (events : List (Event α)) : List α := events.flatMap Event.given

@[simp] theorem acceptedNil : accepted ([] : List (Event α)) = [] := rfl

@[simp] theorem deliveredNil : delivered ([] : List (Event α)) = [] := rfl

@[simp] theorem acceptedCons (e : Event α) (out : List (Event α)) : accepted (e :: out) = e.taken ++ accepted out := by
  simp [accepted]

@[simp] theorem deliveredCons (e : Event α) (out : List (Event α)) : delivered (e :: out) = e.given ++ delivered out := by
  simp [delivered]

@[simp] theorem acceptedAppend (past out : List (Event α)) : accepted (past ++ out) = accepted past ++ accepted out := by
  simp [accepted]

@[simp] theorem deliveredAppend (past out : List (Event α)) :
    delivered (past ++ out) = delivered past ++ delivered out := by
  simp [delivered]

theorem produceGivesNone {w size : Nat} {s s' : SpscRing α} {out : List (Event α)}
    (moved : Produces w size s out s') : delivered out = [] := by
  rcases produceValue moved with ⟨rfl,_⟩ | ⟨value,_,_,rfl | rfl⟩ <;> rfl

def Action.isReader : Action α → Bool
  | .pop => true
  | .popSliceCopy _ => true
  | .consume => true
  | _ => false

theorem readerFrame {w size : Nat} {s s' : SpscRing α} {action : Action α} {out : List (Event α)}
    (reader : action.isReader = true) (ok : step w size s action = some (s',out)) :
    s'.producer = s.producer ∧ s'.tail = s.tail ∧ s'.buf = s.buf ∧ accepted out = [] := by
  cases action with
  | push value => cases reader
  | produce => cases reader
  | consume => cases consumeMoves ok <;> exact ⟨rfl,rfl,rfl,rfl⟩
  | _ =>
    simp only [step] at ok
    split at ok <;> try contradiction
    cases Option.some.inj ok
    exact ⟨rfl,rfl,rfl,rfl⟩

theorem nextReads (s : SpscRing α) : (nextAccess s).isReader = true := by
  unfold nextAccess
  split <;> rfl

theorem writerFrame {w size : Nat} {s s' : SpscRing α} {action : Action α} {out : List (Event α)}
    (writer : action.isReader = false) (ok : step w size s action = some (s',out)) :
    s'.consumer = s.consumer ∧ delivered out = [] := by
  cases action with
  | push value =>
    simp only [step] at ok
    split at ok <;> try contradiction
    cases Option.some.inj ok
    exact ⟨rfl,rfl⟩
  | produce => cases produceMoves ok <;> exact ⟨rfl,rfl⟩
  | _ => cases writer

end Histories
end Riaps.Spsc
