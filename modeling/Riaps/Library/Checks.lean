import Mathlib.Algebra.Group.Nat.Defs
import Mathlib.Data.List.Basic

/-! Programs that stop at a failed check. A panic is an ordinary result, so that
"never panics" is a theorem about a model and not an assumption built into it.
`unfinished` marks a loop whose fuel ran out; no model may ever return it. -/
namespace Riaps.Library.Checks

inductive Panic where
  | index
  | subtract
  | multiply
  | add
  | expect
  | assertion
  | unfinished
  deriving DecidableEq, Repr

abbrev Checked (α : Type) := Except Panic α

@[simp] theorem okBind {α β : Type} (a : α) (f : α → Checked β) : (Except.ok a >>= f) = f a := rfl

theorem bindOk {α β : Type} {x : Checked α} {f : α → Checked β} {b : β}
    (ok : (x >>= f) = .ok b) : ∃ a, x = .ok a ∧ f a = .ok b := by
  cases x with
  | error p => cases ok
  | ok a => exact ⟨a,rfl,ok⟩

def passes {α : Type} (x : Checked α) (test : α → Bool) : Bool :=
  match x with
  | .ok a => test a
  | .error _ => false

theorem passed {α : Type} {x : Checked α} {test : α → Bool} (h : passes x test = true) :
    ∃ a, x = .ok a ∧ test a = true := by
  cases x with
  | error p => cases h
  | ok a => exact ⟨a,rfl,h⟩

def ensure (p : Panic) (c : Prop) [Decidable c] : Checked Unit :=
  if c then .ok () else .error p

@[simp] theorem ensureOk {p : Panic} {c : Prop} [Decidable c] (h : c) : ensure p c = .ok () := if_pos h

def sub (a b : Nat) : Checked Nat := if b ≤ a then .ok (a - b) else .error .subtract

@[simp] theorem subOk {a b : Nat} (h : b ≤ a) : sub a b = .ok (a - b) := if_pos h

def mul (w a b : Nat) : Checked Nat := if a * b < 2^w then .ok (a * b) else .error .multiply

@[simp] theorem mulOk {w a b : Nat} (h : a * b < 2^w) : mul w a b = .ok (a * b) := if_pos h

def add (w a b : Nat) : Checked Nat := if a + b < 2^w then .ok (a + b) else .error .add

@[simp] theorem addOk {w a b : Nat} (h : a + b < 2^w) : add w a b = .ok (a + b) := if_pos h

section Lists
variable {α : Type}

def get (xs : List α) (i : Nat) : Checked α :=
  match xs[i]? with
  | some x => .ok x
  | none => .error .index

def set (xs : List α) (i : Nat) (x : α) : Checked (List α) :=
  if i < xs.length then .ok (xs.set i x) else .error .index

theorem getOk {xs : List α} {i : Nat} {x : α} (h : xs[i]? = some x) : get xs i = .ok x := by
  simp only [get,h]

theorem setOk {xs : List α} {i : Nat} (x : α) (h : i < xs.length) : set xs i x = .ok (xs.set i x) := if_pos h

def getAll (xs : List α) : List Nat → Checked (List α)
  | [] => .ok []
  | i :: is => do
      let x ← get xs i
      let rest ← getAll xs is
      return x :: rest

/- A slice start..stop, and the same slice after its owner wrote `ys` into it. -/
def slice (xs : List α) (start stop : Nat) : Checked (List α) :=
  if start ≤ stop ∧ stop ≤ xs.length then .ok ((xs.drop start).take (stop - start)) else .error .index

def splice (xs : List α) (start stop : Nat) (ys : List α) : Checked (List α) :=
  if start ≤ stop ∧ stop ≤ xs.length then .ok (xs.take start ++ ys ++ xs.drop stop) else .error .index

theorem sliceOk {xs : List α} {start stop : Nat} (le : start ≤ stop) (bound : stop ≤ xs.length) :
    slice xs start stop = .ok ((xs.drop start).take (stop - start)) := if_pos ⟨le,bound⟩

theorem spliceOk {xs : List α} {start stop : Nat} (ys : List α) (le : start ≤ stop) (bound : stop ≤ xs.length) :
    splice xs start stop ys = .ok (xs.take start ++ ys ++ xs.drop stop) := if_pos ⟨le,bound⟩

theorem sliceLength {xs ys : List α} {start stop : Nat} (ok : slice xs start stop = .ok ys) :
    ys.length = stop - start := by
  unfold slice at ok
  split at ok
  · cases Except.ok.inj ok
    simp only [List.length_take,List.length_drop]
    omega
  · cases ok

theorem spliceLength {xs ys out : List α} {start stop : Nat} (ok : splice xs start stop ys = .ok out)
    (full : ys.length = stop - start) : out.length = xs.length := by
  unfold splice at ok
  split at ok
  · cases Except.ok.inj ok
    simp only [List.length_append,List.length_take,List.length_drop]
    omega
  · cases ok

theorem sliceFront {xs : List α} {count : Nat} (fits : count ≤ xs.length) : slice xs 0 count = .ok (xs.take count) := by
  rw [sliceOk (Nat.zero_le _) fits]
  simp

theorem spliceFront {xs : List α} {count : Nat} (ys : List α) (fits : count ≤ xs.length) :
    splice xs 0 count ys = .ok (ys ++ xs.drop count) := by
  rw [spliceOk ys (Nat.zero_le _) fits]
  simp

end Lists
end Riaps.Library.Checks
