import Riaps.Library.Machine

/-! The emergency slot hands one object after another from a writer to a reader. The
two sides write its three cells in opposite orders; the reader clears the pointer
last, so a new push starts only when everything of the old one is gone. Null is 0.
A read of a vtable cell that was never written leads to `undefined`. -/
namespace Riaps.Emergency
open Library.Machine

inductive Writer (ν : Type) where
  | idle
  | writing (obj : Nat) (vtable : ν)
  | readying (obj : Nat) (vtable : ν)
  | publishing (obj : Nat) (vtable : ν)
  deriving DecidableEq, Repr

inductive Reader (ν : Type) where
  | idle
  | loadedPtr (p : Nat)
  | reading (p : Nat)
  | clearing (p : Nat) (vtable : ν)
  | leaving (p : Nat) (vtable : ν)
  | undefined
  deriving DecidableEq, Repr

structure EmergencySlot (ν : Type) where
  ptr : Nat
  vtable : Option ν
  vtableReady : Bool
  writer : Writer ν
  reader : Reader ν
  deriving DecidableEq, Repr

def new (ν : Type) : EmergencySlot ν := ⟨0,none,false,.idle,.idle⟩

inductive Action (ν : Type) where
  | push (obj : Nat) (vtable : ν)
  | write
  | drain
  | read
  deriving DecidableEq, Repr

inductive Event (ν : Type) where
  | pushTrue (obj : Nat) (vtable : ν)
  | pushFalse (obj : Nat) (vtable : ν)
  | drainSome (p : Nat) (vtable : ν)
  | drainVacant
  | drainUnready
  deriving DecidableEq, Repr

section Steps
variable {ν : Type}

def isVacant (s : EmergencySlot ν) : Bool := s.ptr == 0

/- The fence between the vtable and the flag has no effect in a sequentially consistent memory. -/
def write (s : EmergencySlot ν) : Option (EmergencySlot ν × List (Event ν)) :=
  match s.writer with
  | .idle => none
  | .writing obj vtable => some ({s with vtable := some vtable, writer := .readying obj vtable},[])
  | .readying obj vtable => some ({s with vtableReady := true, writer := .publishing obj vtable},[])
  | .publishing obj vtable => some ({s with ptr := obj, writer := .idle},[.pushTrue obj vtable])

def read (s : EmergencySlot ν) : Option (EmergencySlot ν × List (Event ν)) :=
  match s.reader with
  | .idle => none
  | .loadedPtr p =>
      if s.vtableReady then some ({s with reader := .reading p},[])
      else some ({s with reader := .idle},[.drainUnready])
  | .reading p =>
      match s.vtable with
      | some vtable => some ({s with reader := .clearing p vtable},[])
      | none => some ({s with reader := .undefined},[])
  | .clearing p vtable => some ({s with vtableReady := false, reader := .leaving p vtable},[])
  | .leaving p vtable => some ({s with ptr := 0, reader := .idle},[.drainSome p vtable])
  | .undefined => none

/- `obj` comes from `Box::into_raw` and is never null. -/
def step (s : EmergencySlot ν) : Action ν → Option (EmergencySlot ν × List (Event ν))
  | .push obj vtable =>
      match s.writer with
      | .idle =>
          if obj = 0 then none
          else if isVacant s then some ({s with writer := .writing obj vtable},[])
          else some (s,[.pushFalse obj vtable])
      | _ => none
  | .write => write s
  | .drain =>
      match s.reader with
      | .idle =>
          if isVacant s then some (s,[.drainVacant])
          else some ({s with reader := .loadedPtr s.ptr},[])
      | _ => none
  | .read => read s

inductive Moves (s : EmergencySlot ν) : List (Event ν) → EmergencySlot ν → Prop where
  | begin {obj vtable} (pc : s.writer = .idle) (nonnull : obj ≠ 0) (vacant : s.ptr = 0) :
      Moves s [] {s with writer := .writing obj vtable}
  | refuse {obj vtable} (pc : s.writer = .idle) (taken : s.ptr ≠ 0) : Moves s [.pushFalse obj vtable] s
  | write {obj vtable} (pc : s.writer = .writing obj vtable) :
      Moves s [] {s with vtable := some vtable, writer := .readying obj vtable}
  | ready {obj vtable} (pc : s.writer = .readying obj vtable) :
      Moves s [] {s with vtableReady := true, writer := .publishing obj vtable}
  | publish {obj vtable} (pc : s.writer = .publishing obj vtable) :
      Moves s [.pushTrue obj vtable] {s with ptr := obj, writer := .idle}
  | vacant (pc : s.reader = .idle) (empty : s.ptr = 0) : Moves s [.drainVacant] s
  | load (pc : s.reader = .idle) (taken : s.ptr ≠ 0) : Moves s [] {s with reader := .loadedPtr s.ptr}
  | accept {p} (pc : s.reader = .loadedPtr p) (ready : s.vtableReady = true) :
      Moves s [] {s with reader := .reading p}
  | unready {p} (pc : s.reader = .loadedPtr p) (unset : s.vtableReady = false) :
      Moves s [.drainUnready] {s with reader := .idle}
  | read {p vtable} (pc : s.reader = .reading p) (found : s.vtable = some vtable) :
      Moves s [] {s with reader := .clearing p vtable}
  | readUnwritten {p} (pc : s.reader = .reading p) (absent : s.vtable = none) :
      Moves s [] {s with reader := .undefined}
  | clear {p vtable} (pc : s.reader = .clearing p vtable) :
      Moves s [] {s with vtableReady := false, reader := .leaving p vtable}
  | leave {p vtable} (pc : s.reader = .leaving p vtable) :
      Moves s [.drainSome p vtable] {s with ptr := 0, reader := .idle}

theorem writeMoves {s s' : EmergencySlot ν} {out : List (Event ν)} (ok : write s = some (s',out)) : Moves s out s' := by
  unfold write at ok
  cases pc : s.writer with
  | idle => simp [pc] at ok
  | writing obj vtable =>
    simp only [pc] at ok
    cases Option.some.inj ok
    exact .write pc
  | readying obj vtable =>
    simp only [pc] at ok
    cases Option.some.inj ok
    exact .ready pc
  | publishing obj vtable =>
    simp only [pc] at ok
    cases Option.some.inj ok
    exact .publish pc

theorem readMoves {s s' : EmergencySlot ν} {out : List (Event ν)} (ok : read s = some (s',out)) : Moves s out s' := by
  unfold read at ok
  cases pc : s.reader with
  | idle => simp [pc] at ok
  | loadedPtr p =>
    simp only [pc] at ok
    split at ok <;> cases Option.some.inj ok
    · exact .accept pc (by assumption)
    · rename_i unset
      exact .unready pc (Bool.eq_false_iff.mpr unset)
  | reading p =>
    simp only [pc] at ok
    split at ok <;> cases Option.some.inj ok
    · exact .read pc (by assumption)
    · exact .readUnwritten pc (by assumption)
  | clearing p vtable =>
    simp only [pc] at ok
    cases Option.some.inj ok
    exact .clear pc
  | leaving p vtable =>
    simp only [pc] at ok
    cases Option.some.inj ok
    exact .leave pc
  | undefined => simp [pc] at ok

theorem stepMoves {s s' : EmergencySlot ν} {action : Action ν} {out : List (Event ν)}
    (ok : step s action = some (s',out)) : Moves s out s' := by
  cases action with
  | push obj vtable =>
    simp only [step] at ok
    split at ok <;> try contradiction
    rename_i pc
    split at ok <;> try contradiction
    rename_i nonnull
    split at ok <;> cases Option.some.inj ok
    · rename_i vacant
      exact .begin pc nonnull (eq_of_beq vacant)
    · rename_i taken
      exact .refuse pc (fun zero => taken (beq_iff_eq.mpr zero))
  | write => exact writeMoves ok
  | drain =>
    simp only [step] at ok
    split at ok <;> try contradiction
    rename_i pc
    split at ok <;> cases Option.some.inj ok
    · rename_i vacant
      exact .vacant pc (eq_of_beq vacant)
    · rename_i taken
      exact .load pc (fun zero => taken (beq_iff_eq.mpr zero))
  | read => exact readMoves ok

end Steps

@[simp] def Event.taken {ν : Type} : Event ν → List (Nat × ν)
  | .pushTrue obj vtable => [(obj,vtable)]
  | _ => []

@[simp] def Event.given {ν : Type} : Event ν → List (Nat × ν)
  | .drainSome p vtable => [(p,vtable)]
  | _ => []

section Protocol
variable {ν : Type}

def accepted (events : List (Event ν)) : List (Nat × ν) := events.flatMap Event.taken

def drained (events : List (Event ν)) : List (Nat × ν) := events.flatMap Event.given

def Filling (s : EmergencySlot ν) : Writer ν → Prop
  | .idle => s.vtableReady = false
  | .writing obj _ => obj ≠ 0 ∧ s.vtableReady = false
  | .readying obj vtable => obj ≠ 0 ∧ s.vtableReady = false ∧ s.vtable = some vtable
  | .publishing obj vtable => obj ≠ 0 ∧ s.vtableReady = true ∧ s.vtable = some vtable

def Draining (s : EmergencySlot ν) (vtable : ν) : Reader ν → Prop
  | .idle => s.vtableReady = true
  | .loadedPtr p => p = s.ptr ∧ s.vtableReady = true
  | .reading p => p = s.ptr ∧ s.vtableReady = true
  | .clearing p v => p = s.ptr ∧ v = vtable ∧ s.vtableReady = true
  | .leaving p v => p = s.ptr ∧ v = vtable ∧ s.vtableReady = false
  | .undefined => False

/- While the pointer is null only the writer is inside a call, otherwise only the reader. -/
inductive Handed (pushed popped : List (Nat × ν)) (s : EmergencySlot ν) : Prop where
  | vacant (empty : s.ptr = 0) (all : pushed = popped) (reader : s.reader = .idle) (writer : Filling s s.writer)
  | occupied {vtable} (full : s.ptr ≠ 0) (one : pushed = popped ++ [(s.ptr,vtable)]) (cell : s.vtable = some vtable)
      (writer : s.writer = .idle) (reader : Draining s vtable s.reader)

theorem newHanded : Handed [] [] (new ν) := .vacant rfl rfl rfl rfl

theorem Handed.silent {pushed popped : List (Nat × ν)} {s : EmergencySlot ν} {out : List (Event ν)}
    (none_ : accepted out = [] ∧ drained out = []) (inv : Handed pushed popped s) :
    Handed (pushed ++ accepted out) (popped ++ drained out) s := by
  rw [none_.1,none_.2,List.append_nil,List.append_nil]
  exact inv

theorem stepHanded {pushed popped : List (Nat × ν)} {s s' : EmergencySlot ν} {out : List (Event ν)}
    (inv : Handed pushed popped s) (moved : Moves s out s') :
    Handed (pushed ++ accepted out) (popped ++ drained out) s' := by
  cases inv with
  | vacant empty all reader writer =>
    subst all
    cases moved with
    | begin pc nonnull =>
      rw [pc] at writer
      exact .silent ⟨rfl,rfl⟩ (.vacant empty rfl reader ⟨nonnull,writer⟩)
    | refuse pc taken => exact absurd empty taken
    | write pc =>
      rw [pc] at writer
      exact .silent ⟨rfl,rfl⟩ (.vacant empty rfl reader ⟨writer.1,writer.2,rfl⟩)
    | ready pc =>
      rw [pc] at writer
      exact .silent ⟨rfl,rfl⟩ (.vacant empty rfl reader ⟨writer.1,rfl,writer.2.2⟩)
    | @publish obj vtable pc =>
      rw [pc] at writer
      obtain ⟨nonnull,ready,cell⟩ := writer
      have draining : Draining {s with ptr := obj, writer := .idle} vtable s.reader := by
        rw [reader]
        exact ready
      exact .occupied nonnull (by simp [accepted,drained]) cell rfl draining
    | vacant => exact .silent ⟨rfl,rfl⟩ (.vacant empty rfl reader writer)
    | load pc taken => exact absurd empty taken
    | _ pc =>
      rw [reader] at pc
      cases pc
  | @occupied vtable full one cell writer reader =>
    cases moved with
    | begin pc nonnull vacant => exact absurd vacant full
    | refuse => exact .silent ⟨rfl,rfl⟩ (.occupied full one cell writer reader)
    | vacant pc empty => exact absurd empty full
    | load pc =>
      rw [pc] at reader
      exact .silent ⟨rfl,rfl⟩ (.occupied full one cell writer ⟨rfl,reader⟩)
    | accept pc =>
      rw [pc] at reader
      exact .silent ⟨rfl,rfl⟩ (.occupied full one cell writer reader)
    | unready pc unset =>
      rw [pc] at reader
      rw [reader.2] at unset
      cases unset
    | read pc found =>
      rw [pc] at reader
      cases Option.some.inj (cell.symm.trans found)
      exact .silent ⟨rfl,rfl⟩ (.occupied full one cell writer ⟨reader.1,rfl,reader.2⟩)
    | readUnwritten pc absent =>
      rw [cell] at absent
      cases absent
    | clear pc =>
      rw [pc] at reader
      exact .silent ⟨rfl,rfl⟩ (.occupied full one cell writer ⟨reader.1,reader.2.1,rfl⟩)
    | leave pc =>
      rw [pc] at reader
      obtain ⟨rfl,rfl,unset⟩ := reader
      have filling : Filling {s with ptr := 0, reader := .idle} s.writer := by
        rw [writer]
        exact unset
      exact .vacant rfl (by simp [one,accepted,drained]) rfl filling
    | _ pc =>
      rw [writer] at pc
      cases pc

theorem runHanded {actions : List (Action ν)} {s : EmergencySlot ν} {events : List (Event ν)}
    (ok : run step (new ν) actions = some (s,events)) : Handed (accepted events) (drained events) s := by
  refine runInvariant (P := fun s events => Handed (accepted events) (drained events) s) newHanded ?_ ok
  intro s past action s' out inv moved
  simpa [accepted,drained] using stepHanded inv (stepMoves moved)

theorem slotHandsOver {actions : List (Action ν)} {s : EmergencySlot ν} {events : List (Event ν)}
    (ok : run step (new ν) actions = some (s,events)) :
    drained events <+: accepted events ∧ (accepted events).length ≤ (drained events).length + 1 ∧
    s.reader ≠ .undefined ∧
    (∀ p, s.reader = .reading p → s.writer = .idle ∧ ∃ vtable, s.vtable = some vtable ∧
      accepted events = drained events ++ [(p,vtable)]) ∧
    ∀ action s' out, step s action = some (s',out) →
      .drainUnready ∉ out ∧ ∀ obj vtable, .pushFalse obj vtable ∈ out → s' = s := by
  have inv := runHanded ok
  refine ⟨?_,?_,?_,?_,?_⟩
  · cases inv with
    | vacant empty all => exact all ▸ List.prefix_rfl
    | occupied full one => rw [one]; exact List.prefix_append _ _
  · cases inv with
    | vacant empty all => rw [all]; exact Nat.le_add_right _ _
    | occupied full one => rw [one,List.length_append]; exact Nat.le_refl _
  · intro lost
    cases inv with
    | vacant empty all reader => simp [reader] at lost
    | occupied full one cell writer reader =>
      rw [lost] at reader
      exact reader
  · intro p pc
    cases inv with
    | vacant empty all reader => simp [reader] at pc
    | occupied full one cell writer reader =>
      rw [pc] at reader
      obtain ⟨rfl,ready⟩ := reader
      exact ⟨writer,_,cell,one⟩
  · intro action s' out moved
    have moved := stepMoves moved
    constructor
    · intro mem
      cases moved with
      | unready pc unset =>
        cases inv with
        | vacant empty all reader => simp [reader] at pc
        | occupied full one cell writer reader =>
          rw [pc] at reader
          rw [reader.2] at unset
          cases unset
      | _ => simp at mem
    · intro obj vtable mem
      cases moved with
      | refuse => rfl
      | _ => simp at mem

def handover : List (Action Nat) :=
  [.push 5 50,.write,.write,.drain,.write,.drain,.push 7 70,.read,.read,.read,.read,.push 7 70,.write,.write,.write,
    .drain,.read]

theorem slotHandsOverTwice : ∃ s events, run step (new Nat) handover = some (s,events) ∧ s.reader = .reading 7 ∧
    drained events = [(5,50)] ∧ drained events <+: accepted events ∧ s.writer = .idle ∧
    ∃ vtable, s.vtable = some vtable ∧ accepted events = drained events ++ [(7,vtable)] := by
  have tested : (run step (new Nat) handover).any (fun r =>
      decide (r.1.reader = .reading 7) && decide (drained r.2 = [(5,50)])) = true := by decide
  obtain ⟨⟨s,events⟩,ran,tested⟩ := (Option.any_eq_true _ _).mp tested
  obtain ⟨pc,first⟩ := Bool.and_eq_true_iff.mp tested
  obtain ⟨order,_,_,reading,_⟩ := slotHandsOver ran
  obtain ⟨writer,cell⟩ := reading 7 (of_decide_eq_true pc)
  exact ⟨s,events,ran,of_decide_eq_true pc,of_decide_eq_true first,order,writer,cell⟩

end Protocol
end Riaps.Emergency
