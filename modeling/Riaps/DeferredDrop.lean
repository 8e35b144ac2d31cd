import Riaps.EmergencySlot
import Riaps.Library.Pools
import Riaps.Library.Wrapping

/-! Deferred destruction. A box becomes an address and a vtable, goes from hand to hand
and through emergency slots, and is destroyed by some collector: first the value,
then its block. The allocator hands out any free range of the right alignment, and
values without size have no block. Destroying what is not there or returning
a block of another layout is `undefined`. -/
namespace Riaps.Deferred
open Library.Machine Library.Pools Library.Wrapping Emergency

structure Layout where
  size : Nat
  align : Nat
  deriving DecidableEq, Repr

/- The drop glue is known by the type it was made for. -/
structure DropVTable (τ : Type) where
  dropInPlace : τ
  layout : Layout
  deriving DecidableEq, Repr

def DropVTable.of {τ : Type} (layoutOf : τ → Layout) (kind : τ) : DropVTable τ := ⟨kind,layoutOf kind⟩

structure Value (τ : Type) where
  address : Nat
  kind : τ
  deriving DecidableEq, Repr

structure Block where
  address : Nat
  layout : Layout
  deriving DecidableEq, Repr

def deferBox {τ : Type} (layoutOf : τ → Layout) (value : Value τ) : Nat × DropVTable τ :=
  (value.address,.of layoutOf value.kind)

/- `dropping` is a call of `drop_and_dealloc` between the value and its block. -/
structure GcContext (τ : Type) where
  reclaimed : Nat
  dropping : Option (Nat × DropVTable τ)
  deriving DecidableEq, Repr

structure Store (τ : Type) where
  objects : List (Value τ)
  blocks : List Block
  boxes : List (Value τ)
  hands : List (Nat × DropVTable τ)
  slots : List (EmergencySlot (DropVTable τ))
  contexts : List (GcContext τ)
  deriving DecidableEq, Repr

inductive Action (τ : Type) where
  | boxNew (address : Nat) (kind : τ)
  | slotNew
  | contextNew
  | deferBox (box : Nat)
  | push (slot pair : Nat)
  | write (slot : Nat)
  | drain (slot : Nat)
  | read (slot : Nat)
  | dropAndDealloc (context pair : Nat)
  | dealloc (context : Nat)
  | leak (pair : Nat)
  deriving DecidableEq, Repr

inductive Event (τ : Type) where
  | created (value : Value τ)
  | dropped (value : Value τ)
  | reclaimed (context pointer : Nat)
  | leaked (value : Value τ)
  | onSlot (slot : Nat) (event : Emergency.Event (DropVTable τ))
  | assertionFailed
  | undefined
  deriving DecidableEq, Repr

def init (τ : Type) : Store τ := ⟨[],[],[],[],[],[]⟩

def object {τ : Type} (pair : Nat × DropVTable τ) : Value τ := ⟨pair.1,pair.2.dropInPlace⟩

/- A refused push and a drain leave the pair with their caller. -/
def returned {ν : Type} : Emergency.Event ν → List (Nat × ν)
  | .pushFalse obj vtable => [(obj,vtable)]
  | .drainSome p vtable => [(p,vtable)]
  | _ => []

def disjoint (address size : Nat) (block : Block) : Bool :=
  decide (address + size ≤ block.address ∨ block.address + block.layout.size ≤ address)

section Steps
variable {τ : Type} [DecidableEq τ] (layoutOf : τ → Layout)

def onSlot (m : Store τ) (slot : Nat) (action : Emergency.Action (DropVTable τ)) : Option (Store τ × List (Event τ)) := do
  let sl ← m.slots[slot]?
  let (sl,out) ← Emergency.step sl action
  some ({m with slots := m.slots.set slot sl, hands := out.flatMap returned ++ m.hands},out.map (.onSlot slot))

def boxNew (m : Store τ) (address : Nat) (kind : τ) : Option (Store τ × List (Event τ)) :=
  if address ≠ 0 ∧ address % (layoutOf kind).align = 0 ∧
      ((layoutOf kind).size = 0 ∨ m.blocks.all (disjoint address (layoutOf kind).size)) then
    some ({m with objects := ⟨address,kind⟩ :: m.objects,
                  blocks := (if (layoutOf kind).size = 0 then [] else [⟨address,layoutOf kind⟩]) ++ m.blocks,
                  boxes := ⟨address,kind⟩ :: m.boxes},[.created ⟨address,kind⟩])
  else none

def dropAndDealloc (m : Store τ) (context : Nat) (pair : Nat × DropVTable τ) : Option (Store τ × List (Event τ)) := do
  let c ← m.contexts[context]?
  if c.dropping.isSome then none
  else if pair.1 = 0 ∨ pair.1 % pair.2.layout.align ≠ 0 then some (m,[.assertionFailed])
  else if object pair ∈ m.objects then
    some ({m with objects := m.objects.erase (object pair), contexts := m.contexts.set context {c with dropping := some pair}},
      [.dropped (object pair)])
  else some (m,[.undefined])

def dealloc (m : Store τ) (context : Nat) : Option (Store τ × List (Event τ)) := do
  let c ← m.contexts[context]?
  let pair ← c.dropping
  let m := {m with contexts := m.contexts.set context ⟨wrappingAdd 64 c.reclaimed 1,none⟩}
  if pair.2.layout.size = 0 then some (m,[.reclaimed context pair.1])
  else if ⟨pair.1,pair.2.layout⟩ ∈ m.blocks then
    some ({m with blocks := m.blocks.erase ⟨pair.1,pair.2.layout⟩},[.reclaimed context pair.1])
  else some (m,[.undefined])

def step (m : Store τ) : Action τ → Option (Store τ × List (Event τ))
  | .boxNew address kind => boxNew layoutOf m address kind
  | .slotNew => some ({m with slots := m.slots ++ [Emergency.new (DropVTable τ)]},[])
  | .contextNew => some ({m with contexts := m.contexts ++ [⟨0,none⟩]},[])
  | .deferBox box => do
      let (value,rest) ← pick m.boxes box
      some ({m with boxes := rest, hands := deferBox layoutOf value :: m.hands},[])
  | .push slot pair => do
      let (p,rest) ← pick m.hands pair
      onSlot {m with hands := rest} slot (.push p.1 p.2)
  | .write slot => onSlot m slot .write
  | .drain slot => onSlot m slot .drain
  | .read slot => onSlot m slot .read
  | .dropAndDealloc context pair => do
      let (p,rest) ← pick m.hands pair
      dropAndDealloc {m with hands := rest} context p
  | .dealloc context => dealloc m context
  | .leak pair => do
      let (p,rest) ← pick m.hands pair
      some ({m with hands := rest},[.leaked (object p)])

end Steps

def writerPair {ν : Type} : Writer ν → List (Nat × ν)
  | .idle => []
  | .writing obj vtable => [(obj,vtable)]
  | .readying obj vtable => [(obj,vtable)]
  | .publishing obj vtable => [(obj,vtable)]

/- What lies in a slot or with the push in progress on it. -/
def heldPairs {ν : Type} (s : EmergencySlot ν) : List (Nat × ν) :=
  writerPair s.writer ++ if s.ptr = 0 then [] else s.vtable.toList.map (fun vtable => (s.ptr,vtable))

def offered {ν : Type} : Emergency.Action ν → List (Nat × ν)
  | .push obj vtable => [(obj,vtable)]
  | _ => []

section Slots
variable {ν : Type} {s s' : EmergencySlot ν} {out : List (Emergency.Event ν)} {pushed popped : List (Nat × ν)}

theorem fillingSlot (inv : Handed pushed popped s) (busy : s.writer ≠ .idle) : s.ptr = 0 ∧ Filling s s.writer := by
  cases inv with
  | vacant empty all reader writer => exact ⟨empty,writer⟩
  | occupied full one cell writer reader => exact absurd writer busy

theorem drainingSlot (inv : Handed pushed popped s) (busy : s.reader ≠ .idle) : s.ptr ≠ 0 ∧ s.writer = .idle ∧
    ∃ vtable, s.vtable = some vtable ∧ Draining s vtable s.reader := by
  cases inv with
  | vacant empty all reader writer => exact absurd reader busy
  | occupied full one cell writer reader => exact ⟨full,writer,_,cell,reader⟩

theorem writeHolds (inv : Handed pushed popped s) (ok : Emergency.write s = some (s',out)) :
    heldPairs s' = heldPairs s ∧ out.flatMap returned = [] := by
  unfold Emergency.write at ok
  cases pc : s.writer with
  | idle => simp [pc] at ok
  | writing obj vtable =>
    have empty := (fillingSlot inv (by simp [pc])).1
    simp only [pc] at ok
    cases Option.some.inj ok
    simp [heldPairs,writerPair,pc,empty]
  | readying obj vtable =>
    have empty := (fillingSlot inv (by simp [pc])).1
    simp only [pc] at ok
    cases Option.some.inj ok
    simp [heldPairs,writerPair,pc,empty]
  | publishing obj vtable =>
    obtain ⟨empty,filling⟩ := fillingSlot inv (by simp [pc])
    rw [pc] at filling
    obtain ⟨nonnull,_,cell⟩ := filling
    simp only [pc] at ok
    cases Option.some.inj ok
    simp [heldPairs,writerPair,pc,empty,nonnull,cell,returned]

theorem readHolds (inv : Handed pushed popped s) (ok : Emergency.read s = some (s',out)) :
    heldPairs s' ++ out.flatMap returned = heldPairs s := by
  unfold Emergency.read at ok
  cases pc : s.reader with
  | idle => simp [pc] at ok
  | loadedPtr p =>
    simp only [pc] at ok
    split at ok <;> cases Option.some.inj ok <;> simp [heldPairs,returned]
  | reading p =>
    simp only [pc] at ok
    split at ok <;> cases Option.some.inj ok <;> simp [heldPairs]
  | clearing p vtable =>
    simp only [pc] at ok
    cases Option.some.inj ok
    simp [heldPairs]
  | leaving p vtable =>
    obtain ⟨full,idle,_,cell,draining⟩ := drainingSlot inv (by simp [pc])
    rw [pc] at draining
    obtain ⟨rfl,rfl,_⟩ := draining
    simp only [pc] at ok
    cases Option.some.inj ok
    simp [heldPairs,writerPair,idle,full,cell,returned]
  | undefined => simp [pc] at ok

theorem slotHolds {action : Emergency.Action ν} (inv : Handed pushed popped s)
    (ok : Emergency.step s action = some (s',out)) :
    (heldPairs s' ++ out.flatMap returned).Perm (offered action ++ heldPairs s) := by
  cases action with
  | push obj vtable =>
    simp only [Emergency.step] at ok
    split at ok <;> try contradiction
    rename_i pc
    split at ok <;> try contradiction
    split at ok <;> cases Option.some.inj ok
    · rename_i vacant
      have empty : s.ptr = 0 := eq_of_beq vacant
      simp [heldPairs,writerPair,pc,empty,offered]
    · simp [returned,offered]
  | write =>
    obtain ⟨same,none_⟩ := writeHolds inv ok
    rw [same,none_,List.append_nil]
    rfl
  | drain =>
    simp only [Emergency.step] at ok
    split at ok <;> try contradiction
    split at ok <;> cases Option.some.inj ok <;> simp [heldPairs,returned,offered]
  | read =>
    rw [readHolds inv ok]
    rfl

end Slots
end Riaps.Deferred
