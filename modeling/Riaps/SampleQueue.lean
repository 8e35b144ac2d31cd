import Riaps.SampleFifo

/-! The sample ring against the bounded list queue it implements. Any sequence of
operations ends without a panic, answers what the queue answers and leaves the
three cursors in step with the cells. -/
namespace Riaps.SampleQueue
open Library.Checks SampleFifo

inductive Command (α : Type) where
  | pushSlice (samples : List α)
  | pushZeros (count : Nat)
  | pop
  deriving DecidableEq, Repr

inductive Answer (α : Type) where
  | accepted (count : Nat)
  | popped (sample : Option α)
  deriving DecidableEq, Repr

variable {α : Type}

def command [Sample α] (f : Fifo α) : Command α → Checked (Fifo α × Answer α)
  | .pushSlice samples => do
      let (f,accepted) ← pushSlice f samples
      .ok (f,.accepted accepted)
  | .pushZeros count => do
      let (f,accepted) ← pushZeros f count
      .ok (f,.accepted accepted)
  | .pop => do
      let (f,sample) ← pop f
      .ok (f,.popped sample)

def commands [Sample α] : Fifo α → List (Command α) → Checked (Fifo α × List (Answer α))
  | f,[] => .ok (f,[])
  | f,c :: cs => do
      let (f,answer) ← command f c
      let (f,answers) ← commands f cs
      .ok (f,answer :: answers)

/-- The queue the ring stands for: a list of at most `capacity` samples. -/
def queueStep [Sample α] (capacity : Nat) (items : List α) : Command α → List α × Answer α
  | .pushSlice samples =>
      let accepted := min samples.length (capacity - items.length)
      (items ++ samples.take accepted,.accepted accepted)
  | .pushZeros count =>
      let accepted := min count (capacity - items.length)
      (items ++ List.replicate accepted Sample.priming,.accepted accepted)
  | .pop => (items.tail,.popped items.head?)

def queueSteps [Sample α] (capacity : Nat) : List α → List (Command α) → List α × List (Answer α)
  | items,[] => (items,[])
  | items,c :: cs =>
      let next := queueStep capacity items c
      let rest := queueSteps capacity next.1 cs
      (rest.1,next.2 :: rest.2)

structure Represents (f : Fifo α) (capacity : Nat) (items : List α) : Prop where
  size : f.storage.length = capacity
  len : f.len ≤ capacity
  read : f.read < capacity
  write : f.write = (f.read + f.len) % capacity
  cells : (List.range f.len).map (fun i => f.storage[(f.read + i) % capacity]?) = items.map some

theorem holdsRepresents {f : Fifo α} {capacity items} (holds : Holds f capacity items) :
    Represents f capacity items := by
  refine ⟨holds.size,?_,holds.readBound,?_,?_⟩
  · rw [holds.count]
    exact holds.fits
  · rw [holds.count]
    exact holds.writeAt
  · rw [holds.count]
    apply List.ext_getElem
    · simp
    · intro i inside _
      have bound : i < items.length := by simpa using inside
      simpa using holds.cells i items[i] (List.getElem?_eq_getElem bound)

theorem commandHolds [Sample α] {f : Fifo α} {capacity items} (holds : Holds f capacity items) (c : Command α) :
    ∃ g, command f c = .ok (g,(queueStep capacity items c).2) ∧ Holds g capacity (queueStep capacity items c).1 := by
  cases c with
  | pushSlice samples =>
    obtain ⟨g,pushed,next⟩ := pushSliceHolds holds samples
    refine ⟨g,by simp only [command,pushed,okBind,queueStep],?_⟩
    rw [List.take_eq_take_min,Nat.min_comm] at next
    exact next
  | pushZeros count =>
    obtain ⟨g,pushed,next⟩ := pushZerosHolds holds count
    exact ⟨g,by simp only [command,pushed,okBind,queueStep],next⟩
  | pop =>
    cases items with
    | nil => exact ⟨f,by simp only [command,popEmpty holds,okBind]; rfl,holds⟩
    | cons x items =>
      obtain ⟨g,popped,next⟩ := popHolds holds
      exact ⟨g,by simp only [command,popped,okBind]; rfl,next⟩

theorem commandsHold [Sample α] {f : Fifo α} {capacity items} (holds : Holds f capacity items)
    (cs : List (Command α)) : ∃ g, commands f cs = .ok (g,(queueSteps capacity items cs).2) ∧
      Holds g capacity (queueSteps capacity items cs).1 := by
  induction cs generalizing f items with
  | nil => exact ⟨f,rfl,holds⟩
  | cons c cs ih =>
    obtain ⟨g,first,next⟩ := commandHolds holds c
    obtain ⟨k,rest,last⟩ := ih next
    exact ⟨k,by simp only [commands,first,okBind,rest,queueSteps],last⟩

theorem ringRefinesQueue [Sample α] {capacity : Nat} (positive : 0 < capacity) (cs : List (Command α)) :
    ∃ f₀ f : Fifo α, new capacity = .ok f₀ ∧ commands f₀ cs = .ok (f,(queueSteps capacity [] cs).2) ∧
      Represents f capacity (queueSteps capacity [] cs).1 := by
  obtain ⟨f₀,made,empty⟩ := newHolds (α := α) positive
  obtain ⟨f,ran,holds⟩ := commandsHold empty cs
  exact ⟨f₀,f,made,ran,holdsRepresents holds⟩

theorem ringRefinesQueueWrapped : ∃ f₀ f : Fifo Int, new 3 = .ok f₀ ∧
    commands f₀ [.pushSlice [1,2],.pop,.pushSlice [3,4,5],.pushZeros 2,.pop] =
      .ok (f,[.accepted 2,.popped (some 1),.accepted 2,.accepted 0,.popped (some 2)]) ∧ Represents f 3 [3,4] :=
  ringRefinesQueue (by decide) [.pushSlice [1,2],.pop,.pushSlice [3,4,5],.pushZeros 2,.pop]

end Riaps.SampleQueue
