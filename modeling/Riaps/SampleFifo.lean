import Riaps.Library.Checks
import Riaps.Library.Wrapping

/-! The single-threaded sample ring of the host adapter, index by index as the
code moves it, and the bounded list queue it stands for. `len` is only brought
up to date after a whole slice is stored, so the cells and the count are two
separate parts of the representation. -/
namespace Riaps.SampleFifo
open Library.Checks Library.Wrapping

/-- The code writes 0.0 in three roles. A sample type names them apart, so that
the same model can also run on samples that remember where they came from. -/
class Sample (α : Type) extends Zero α where
  priming : α := 0
  underrun : α := 0

instance : Sample Int where

structure Fifo (α : Type) where
  storage : List α
  read : Nat
  write : Nat
  len : Nat
  deriving DecidableEq, Repr

variable {α : Type}

def new [Sample α] (capacity : Nat) : Checked (Fifo α) := do
  ensure .assertion (0 < capacity)
  .ok ⟨List.replicate capacity 0,0,0,0⟩

def advance (capacity i : Nat) : Nat := if i + 1 = capacity then 0 else i + 1

def store (f : Fifo α) (x : α) : Checked (Fifo α) := do
  let storage ← set f.storage f.write x
  .ok {f with storage := storage, write := advance f.storage.length f.write}

def storeAll (f : Fifo α) : List α → Checked (Fifo α)
  | [] => .ok f
  | x :: xs => do
      let f ← store f x
      storeAll f xs

def accept (f : Fifo α) (wanted : Nat) : Checked Nat := do
  let room ← sub f.storage.length f.len
  .ok (min wanted room)

def pushSlice (f : Fifo α) (samples : List α) : Checked (Fifo α × Nat) := do
  let accepted ← accept f samples.length
  let f ← storeAll f (samples.take accepted)
  .ok ({f with len := f.len + accepted},accepted)

def pushZeros [Sample α] (f : Fifo α) (count : Nat) : Checked (Fifo α × Nat) := do
  let accepted ← accept f count
  let f ← storeAll f (List.replicate accepted Sample.priming)
  .ok ({f with len := f.len + accepted},accepted)

def pop (f : Fifo α) : Checked (Fifo α × Option α) := do
  if f.len = 0 then .ok (f,none)
  else
    let sample ← get f.storage f.read
    let len ← sub f.len 1
    .ok ({f with read := advance f.storage.length f.read, len := len},some sample)

structure Stored (f : Fifo α) (capacity : Nat) (items : List α) : Prop where
  size : f.storage.length = capacity
  fits : items.length ≤ capacity
  readBound : f.read < capacity
  writeAt : f.write = (f.read + items.length) % capacity
  cells : ∀ i x, items[i]? = some x → f.storage[(f.read + i) % capacity]? = some x

structure Holds (f : Fifo α) (capacity : Nat) (items : List α) : Prop extends Stored f capacity items where
  count : f.len = items.length

theorem newHolds [Sample α] {capacity : Nat} (positive : 0 < capacity) :
    ∃ f : Fifo α, new capacity = .ok f ∧ Holds f capacity [] := by
  refine ⟨⟨List.replicate capacity 0,0,0,0⟩,by simp [new,positive],⟨⟨?_,?_,?_,?_,?_⟩,rfl⟩⟩
  · simp
  · simp
  · exact positive
  · simp
  · intro i x found
    simp at found

theorem advanceMod {capacity i : Nat} (bound : i < capacity) : advance capacity i = (i + 1) % capacity := by
  unfold advance
  split
  · rename_i last
    rw [last,Nat.mod_self]
  · rw [Nat.mod_eq_of_lt (by omega)]

theorem storeStored {f : Fifo α} {capacity items} (x : α) (stored : Stored f capacity items)
    (room : items.length < capacity) :
    ∃ g, store f x = .ok g ∧ g.len = f.len ∧ Stored g capacity (items ++ [x]) := by
  have bound : f.write < capacity := by rw [stored.writeAt]; exact Nat.mod_lt _ (by omega)
  have inside : f.write < f.storage.length := by rw [stored.size]; exact bound
  refine ⟨{f with storage := f.storage.set f.write x, write := advance f.storage.length f.write},
    by simp [store,setOk x inside],rfl,⟨?_,?_,stored.readBound,?_,?_⟩⟩
  · simp [stored.size]
  · simp; omega
  · simp only [stored.size,advanceMod bound,List.length_append,List.length_singleton]
    rw [stored.writeAt,Nat.mod_add_mod,Nat.add_assoc]
  · intro i y found
    rcases Nat.lt_trichotomy i items.length with old | rfl | beyond
    · have apart : f.write ≠ (f.read + i) % capacity := by
        rw [stored.writeAt]
        exact (slotsDiffer (Nat.add_lt_add_left old _) (by omega)).symm
      rw [List.getElem?_set_ne apart]
      exact stored.cells i y (by simpa [List.getElem?_append_left old] using found)
    · have same : x = y := by simpa using found
      subst y
      simp only [← stored.writeAt]
      exact List.getElem?_set_self inside
    · rw [List.getElem?_eq_none (by simp; omega)] at found
      contradiction

theorem storeAllStored {f : Fifo α} {capacity items} (xs : List α) (stored : Stored f capacity items)
    (room : items.length + xs.length ≤ capacity) :
    ∃ g, storeAll f xs = .ok g ∧ g.len = f.len ∧ Stored g capacity (items ++ xs) := by
  induction xs generalizing f items with
  | nil => exact ⟨f,rfl,rfl,by simpa using stored⟩
  | cons x xs ih =>
    simp only [List.length_cons] at room
    obtain ⟨g,hg,lenG,storedG⟩ := storeStored x stored (by omega)
    obtain ⟨k,hk,lenK,storedK⟩ := ih storedG (by simp; omega)
    exact ⟨k,by simp [storeAll,hg,hk],lenK.trans lenG,by simpa using storedK⟩

theorem acceptOk {f : Fifo α} {capacity items} (holds : Holds f capacity items) (wanted : Nat) :
    accept f wanted = .ok (min wanted (capacity - items.length)) := by
  have le : f.len ≤ f.storage.length := by rw [holds.count,holds.size]; exact holds.fits
  rw [accept,subOk le,okBind,holds.count,holds.size]

theorem pushSliceHolds {f : Fifo α} {capacity items} (holds : Holds f capacity items) (samples : List α) :
    ∃ g, pushSlice f samples = .ok (g,min samples.length (capacity - items.length)) ∧
      Holds g capacity (items ++ samples.take (capacity - items.length)) := by
  have fits := holds.fits
  have cut : samples.take (min samples.length (capacity - items.length)) =
      samples.take (capacity - items.length) := by
    rw [Nat.min_comm,← List.take_eq_take_min]
  obtain ⟨g,hg,lenG,stored⟩ := storeAllStored (samples.take (capacity - items.length)) holds.toStored
    (by simp; omega)
  refine ⟨{g with len := g.len + min samples.length (capacity - items.length)},
    by simp [pushSlice,acceptOk holds,cut,hg],
    ⟨⟨stored.size,stored.fits,stored.readBound,stored.writeAt,stored.cells⟩,?_⟩⟩
  simp [lenG,holds.count]
  omega

theorem pushZerosHolds [Sample α] {f : Fifo α} {capacity items} (holds : Holds f capacity items) (count : Nat) :
    ∃ g, pushZeros f count = .ok (g,min count (capacity - items.length)) ∧
      Holds g capacity (items ++ List.replicate (min count (capacity - items.length)) Sample.priming) := by
  have fits := holds.fits
  obtain ⟨g,hg,lenG,stored⟩ :=
    storeAllStored (List.replicate (min count (capacity - items.length)) (Sample.priming : α)) holds.toStored
      (by simp; omega)
  refine ⟨{g with len := g.len + min count (capacity - items.length)},by simp [pushZeros,acceptOk holds,hg],
    ⟨⟨stored.size,stored.fits,stored.readBound,stored.writeAt,stored.cells⟩,?_⟩⟩
  simp [lenG,holds.count]

theorem popEmpty {f : Fifo α} {capacity} (holds : Holds f capacity []) : pop f = .ok (f,none) := by
  have zero : f.len = 0 := by simpa using holds.count
  simp [pop,zero]

theorem popHolds {f : Fifo α} {capacity x items} (holds : Holds f capacity (x :: items)) :
    ∃ g, pop f = .ok (g,some x) ∧ Holds g capacity items := by
  have count : f.len = items.length + 1 := by simpa using holds.count
  have fits : items.length + 1 ≤ capacity := by simpa using holds.fits
  have first : f.storage[f.read]? = some x := by
    have found := holds.cells 0 x rfl
    rwa [Nat.add_zero,Nat.mod_eq_of_lt holds.readBound] at found
  have nextRead := advanceMod holds.readBound
  refine ⟨{f with read := advance f.storage.length f.read, len := items.length},
    by simp [pop,count,getOk first],⟨⟨holds.size,by omega,?_,?_,?_⟩,rfl⟩⟩
  · simp only [holds.size,nextRead]
    exact Nat.mod_lt _ (by omega)
  · simp only [holds.size,nextRead,holds.writeAt,List.length_cons,Nat.mod_add_mod]
    congr 1
    omega
  · intro i y found
    simp only [holds.size,nextRead,Nat.mod_add_mod]
    have later := holds.cells (i + 1) y (by simpa using found)
    rwa [show f.read + (i + 1) = f.read + 1 + i by omega] at later

end Riaps.SampleFifo
