import Mathlib.Data.List.Induction
import Riaps.SpscFifo

/-! A node's parameter queue. `drain_to` pops until it finds the ring empty and keeps
only the last value, while the interface thread may push between any two of its
loads. The call returns at its last load of `tail`: that step is the moment at which
the destination is the latest value published. -/
namespace Riaps.Parameter
open Library.Checks Library.Wrapping Library.Machine Spsc

/- `draining` is the `updated` of the `drain_to` in progress, `dst` the cell it writes. -/
structure ParameterQueue (α : Type) where
  ring : SpscRing α
  draining : Option Bool
  dst : α
  deriving DecidableEq, Repr

def new {α : Type} (size : Nat) (dst : α) : Checked (ParameterQueue α) := do
  let ring ← Spsc.new α size
  return ⟨ring,none,dst⟩

inductive Action (α : Type) where
  | tryPush (value : α)
  | produce
  | drainTo
  | consume
  deriving DecidableEq, Repr

inductive Event (α : Type) where
  | ring (event : Spsc.Event α)
  | returned (updated : Bool) (dst : α)
  deriving DecidableEq, Repr

section Steps
variable {α : Type} (w size : Nat)

/- The loop of `drain_to` after its pop has taken a step. -/
def settle (updated : Bool) (dst : α) : List (Spsc.Event α) → Option Bool × α × List (Event α)
  | [.popSome value] => (some true,value,[])
  | [.popNone] => (none,dst,[.returned updated dst])
  | _ => (some updated,dst,[])

def step (s : ParameterQueue α) : Action α → Option (ParameterQueue α × List (Event α))
  | .tryPush value => do
      let (ring,out) ← Spsc.step w size s.ring (.push value)
      some ({s with ring := ring},out.map .ring)
  | .produce => do
      let (ring,out) ← Spsc.step w size s.ring .produce
      some ({s with ring := ring},out.map .ring)
  | .drainTo =>
      match s.draining with
      | some _ => none
      | none => do
          let (ring,out) ← Spsc.step w size s.ring .pop
          some ({s with ring := ring, draining := some false},out.map .ring)
  | .consume =>
      match s.draining with
      | none => none
      | some updated => do
          let (ring,out) ← Spsc.step w size s.ring (nextAccess s.ring)
          let (draining,dst,returned) := settle updated s.dst out
          some (⟨ring,draining,dst⟩,out.map .ring ++ returned)

def Popping : Consumer α → Prop
  | .sliceLoadedHead _ _ => False
  | .sliceReading _ _ _ => False
  | _ => True

inductive Moves (s : ParameterQueue α) : List (Event α) → ParameterQueue α → Prop where
  | write {action ring out} (moved : Spsc.step w size s.ring action = some (ring,out)) (writer : action.isReader = false) :
      Moves s (out.map .ring) {s with ring := ring}
  | begin {ring} (resting : s.draining = none) (moved : Spsc.step w size s.ring .pop = some (ring,[])) :
      Moves s [] {s with ring := ring, draining := some false}
  | access {updated action ring} (busy : s.draining = some updated)
      (moved : Spsc.step w size s.ring action = some (ring,[])) : Moves s [] {s with ring := ring}
  | take {updated action ring value} (busy : s.draining = some updated)
      (moved : Spsc.step w size s.ring action = some (ring,[.popSome value])) :
      Moves s [.ring (.popSome value)] ⟨ring,some true,value⟩
  | finish {updated action ring} (busy : s.draining = some updated)
      (moved : Spsc.step w size s.ring action = some (ring,[.popNone])) :
      Moves s [.ring .popNone,.returned updated s.dst] {s with ring := ring, draining := none}

variable {w size}

theorem popStarts {ring ring' : SpscRing α} {out : List (Spsc.Event α)}
    (moved : Spsc.step w size ring .pop = some (ring',out)) : Popping ring'.consumer ∧ out = [] := by
  simp only [Spsc.step] at moved
  split at moved <;> try contradiction
  cases Option.some.inj moved
  exact ⟨trivial,rfl⟩

theorem popMoves {ring ring' : SpscRing α} {out : List (Spsc.Event α)} (popping : Popping ring.consumer)
    (moved : Spsc.step w size ring (nextAccess ring) = some (ring',out)) :
    Popping ring'.consumer ∧ (out = [] ∨ (∃ value, out = [.popSome value]) ∨ out = [.popNone]) := by
  unfold nextAccess at moved
  split at moved
  · have started := popStarts moved
    exact ⟨started.1,.inl started.2⟩
  · cases consumeMoves moved with
    | none => exact ⟨trivial,.inr (.inr rfl)⟩
    | leave => exact ⟨trivial,.inr (.inl ⟨_,rfl⟩)⟩
    | few pc => simp [pc,Popping] at popping
    | enough pc => simp [pc,Popping] at popping
    | copy pc => simp [pc,Popping] at popping
    | copyUnwritten pc => simp [pc,Popping] at popping
    | leaveSlice pc => simp [pc,Popping] at popping
    | _ => exact ⟨trivial,.inl rfl⟩

theorem stepMoves {s s' : ParameterQueue α} {action : Action α} {out : List (Event α)} (popping : Popping s.ring.consumer)
    (ok : step w size s action = some (s',out)) : Moves w size s out s' ∧ Popping s'.ring.consumer := by
  cases action with
  | tryPush value =>
    obtain ⟨⟨ring,inner⟩,moved,last⟩ := Option.bind_eq_some_iff.mp ok
    cases Option.some.inj last
    exact ⟨.write moved rfl,by rwa [(writerFrame rfl moved).1]⟩
  | produce =>
    obtain ⟨⟨ring,inner⟩,moved,last⟩ := Option.bind_eq_some_iff.mp ok
    cases Option.some.inj last
    exact ⟨.write moved rfl,by rwa [(writerFrame rfl moved).1]⟩
  | drainTo =>
    simp only [step] at ok
    split at ok <;> try contradiction
    rename_i resting
    obtain ⟨⟨ring,inner⟩,moved,last⟩ := Option.bind_eq_some_iff.mp ok
    cases Option.some.inj last
    obtain ⟨started,rfl⟩ := popStarts moved
    exact ⟨.begin resting moved,started⟩
  | consume =>
    simp only [step] at ok
    split at ok <;> try contradiction
    rename_i updated busy
    obtain ⟨⟨ring,inner⟩,moved,last⟩ := Option.bind_eq_some_iff.mp ok
    cases Option.some.inj last
    obtain ⟨still,rfl | ⟨value,rfl⟩ | rfl⟩ := popMoves popping moved
    · refine ⟨?_,still⟩
      have same : (⟨ring,some updated,s.dst⟩ : ParameterQueue α) = {s with ring := ring} := by rw [busy]
      change Moves w size s [] (⟨ring,some updated,s.dst⟩ : ParameterQueue α)
      rw [same]
      exact .access busy moved
    · exact ⟨.take busy moved,still⟩
    · exact ⟨.finish busy moved,still⟩

theorem movesReturn {s s' : ParameterQueue α} {out : List (Event α)} (moved : Moves w size s out s') :
    (∃ inner : List (Spsc.Event α), out = inner.map .ring) ∨
    ∃ updated, s.draining = some updated ∧ out = [.ring .popNone,.returned updated s.dst] ∧
      s'.draining = none ∧ s'.dst = s.dst := by
  cases moved with
  | @write action ring inner moved writer => exact .inl ⟨inner,rfl⟩
  | begin => exact .inl ⟨[],rfl⟩
  | access => exact .inl ⟨[],rfl⟩
  | @take updated action ring value busy moved => exact .inl ⟨[Spsc.Event.popSome value],rfl⟩
  | @finish updated action ring busy moved => exact .inr ⟨updated,busy,rfl,rfl,rfl⟩

end Steps

section Histories
variable {α : Type}

def Event.inner : Event α → Option (Spsc.Event α)
  | .ring event => some event
  | .returned _ _ => none

def accepted (events : List (Event α)) : List α := Spsc.accepted (events.filterMap Event.inner)

def delivered (events : List (Event α)) : List α := Spsc.delivered (events.filterMap Event.inner)

def divide : List (Event α) × List (Event α) → Event α → List (Event α) × List (Event α)
  | (shown,fresh),.ring event => (shown,fresh ++ [.ring event])
  | (shown,fresh),.returned updated dst => (shown ++ fresh ++ [.returned updated dst],[])

def untilReturn (events : List (Event α)) : List (Event α) := (events.foldl divide ([],[])).1

def sinceReturn (events : List (Event α)) : List (Event α) := (events.foldl divide ([],[])).2

@[simp] theorem nothingYet : accepted ([] : List (Event α)) = [] ∧ delivered ([] : List (Event α)) = [] := ⟨rfl,rfl⟩

@[simp] theorem ringTakes (e : Spsc.Event α) (out : List (Event α)) :
    accepted (.ring e :: out) = e.taken ++ accepted out := by
  simp [accepted,Event.inner]

@[simp] theorem ringGives (e : Spsc.Event α) (out : List (Event α)) :
    delivered (.ring e :: out) = e.given ++ delivered out := by
  simp [delivered,Event.inner]

@[simp] theorem acceptedAppend (past out : List (Event α)) : accepted (past ++ out) = accepted past ++ accepted out := by
  simp [accepted]

@[simp] theorem deliveredAppend (past out : List (Event α)) :
    delivered (past ++ out) = delivered past ++ delivered out := by
  simp [delivered]

@[simp] theorem acceptedRing (out : List (Spsc.Event α)) : accepted (out.map .ring) = Spsc.accepted out := by
  simp [accepted,List.filterMap_map,Function.comp_def,Event.inner]

@[simp] theorem deliveredRing (out : List (Spsc.Event α)) : delivered (out.map .ring) = Spsc.delivered out := by
  simp [delivered,List.filterMap_map,Function.comp_def,Event.inner]

theorem divideRing (out : List (Spsc.Event α)) (parts : List (Event α) × List (Event α)) :
    (out.map Event.ring).foldl divide parts = (parts.1,parts.2 ++ out.map .ring) := by
  induction out generalizing parts with
  | nil => simp
  | cons e out ih =>
    rw [List.map_cons,List.foldl_cons,ih]
    simp [divide]

theorem dividedAt (events : List (Event α)) : untilReturn events ++ sinceReturn events = events := by
  induction events using List.reverseRecOn with
  | nil => rfl
  | append_singleton events e ih =>
    unfold untilReturn sinceReturn at ih ⊢
    rw [List.foldl_append]
    cases e with
    | ring event =>
      change (events.foldl divide ([],[])).1 ++ ((events.foldl divide ([],[])).2 ++ [Event.ring event]) = _
      rw [← List.append_assoc,ih]
    | returned updated dst =>
      change (events.foldl divide ([],[])).1 ++ (events.foldl divide ([],[])).2 ++ [Event.returned updated dst] ++ [] = _
      rw [ih,List.append_nil]

theorem untilRing (past : List (Event α)) (out : List (Spsc.Event α)) :
    untilReturn (past ++ out.map .ring) = untilReturn past := by
  simp [untilReturn,List.foldl_append,divideRing]

theorem sinceRing (past : List (Event α)) (out : List (Spsc.Event α)) :
    sinceReturn (past ++ out.map .ring) = sinceReturn past ++ out.map .ring := by
  simp [sinceReturn,List.foldl_append,divideRing]

theorem sinceReturned (past : List (Event α)) (updated : Bool) (dst : α) :
    sinceReturn (past ++ [Event.returned updated dst]) = [] := by
  simp [sinceReturn,List.foldl_append,divide]

theorem untilReturned (past : List (Event α)) (updated : Bool) (dst : α) :
    untilReturn (past ++ [Event.returned updated dst]) = past ++ [Event.returned updated dst] := by
  have whole := dividedAt (past ++ [Event.returned updated dst])
  rwa [sinceReturned,List.append_nil] at whole

end Histories

section Law
variable {α : Type}

/- What the event of a return says: the latest value, and whether there is a new one since the last return. -/
def Latest (initial : α) (past : List (Event α)) : Event α → Prop
  | .ring _ => True
  | .returned updated dst =>
      dst = (accepted past).getLastD initial ∧ (updated = true ↔ accepted (sinceReturn past) ≠ [])

structure Drained (w size : Nat) (initial : α) (s : ParameterQueue α) (events : List (Event α)) : Prop where
  consistent : Consistent w size (accepted events) (delivered events) s.ring
  popping : Popping s.ring.consumer
  caught : accepted (untilReturn events) = delivered (untilReturn events)
  kept : s.dst = (delivered events).getLastD initial
  flag : s.draining.getD false = true ↔ delivered (sinceReturn events) ≠ []
  law : Everywhere (Latest initial) events

variable {w size : Nat} {initial : α} {s : ParameterQueue α} {events : List (Event α)}

theorem newDrained (made : new size initial = .ok s) : Drained w size initial s [] := by
  unfold new at made
  obtain ⟨ring,ringMade,made⟩ := bindOk made
  cases made
  obtain ⟨_,rfl⟩ := newEmpty ringMade
  exact ⟨emptyConsistent w size,trivial,rfl,rfl,by simp [sinceReturn],everywhereNil⟩

theorem ringQuiet (law : Everywhere (Latest initial) events) (out : List (Spsc.Event α)) :
    Everywhere (Latest initial) (events ++ out.map .ring) := by
  refine everywhereQuiet law ?_
  intro e mem past
  obtain ⟨event,_,rfl⟩ := List.mem_map.mp mem
  trivial

theorem Drained.ringStep (fits : size < 2^w) (inv : Drained w size initial s events)
    (aligned : Aligned w size (accepted events).length) {action : Spsc.Action α} {ring : SpscRing α}
    {out : List (Spsc.Event α)} (moved : Spsc.step w size s.ring action = some (ring,out))
    {draining : Option Bool} {dst : α} (popping : Popping ring.consumer)
    (keeps : dst = (delivered (events ++ out.map .ring)).getLastD initial)
    (flags : draining.getD false = true ↔ delivered (sinceReturn events ++ out.map .ring) ≠ []) :
    Drained w size initial ⟨ring,draining,dst⟩ (events ++ out.map .ring) := by
  refine ⟨?_,popping,?_,keeps,?_,ringQuiet inv.law out⟩
  · simpa using stepConsistent fits inv.consistent aligned moved
  · rw [untilRing]
    exact inv.caught
  · rw [sinceRing]
    exact flags

theorem stepDrained (fits : size < 2^w) (inv : Drained w size initial s events)
    (aligned : Aligned w size (accepted events).length) {s' : ParameterQueue α} {action : Action α}
    {out : List (Event α)} (ok : step w size s action = some (s',out)) :
    Drained w size initial s' (events ++ out) := by
  obtain ⟨moved,popping⟩ := stepMoves inv.popping ok
  have kept := inv.kept
  have flag := inv.flag
  cases moved with
  | @write action ring inner moved writer =>
    have none_ := (writerFrame writer moved).2
    exact inv.ringStep fits aligned moved popping (by simpa [none_] using kept) (by simpa [none_] using flag)
  | begin resting moved =>
    rw [resting] at flag
    exact inv.ringStep fits aligned moved popping (by simpa using kept) (by simpa using flag)
  | access busy moved => exact inv.ringStep fits aligned moved popping (by simpa using kept) (by simpa using flag)
  | @take updated action ring value busy moved =>
    exact inv.ringStep fits aligned moved popping (by simp) (by simp)
  | @finish updated action ring busy moved =>
    have all := inv.consistent.drained fits (stepCaused moved _ (List.mem_singleton.mpr rfl))
    have now := stepConsistent fits inv.consistent aligned moved
    have since : delivered (sinceReturn events) = accepted (sinceReturn events) := by
      have whole := all
      rw [← dividedAt events,acceptedAppend,deliveredAppend,inv.caught] at whole
      exact List.append_cancel_left whole
    have taken : accepted [Event.returned updated s.dst] = [] := rfl
    have given : delivered [Event.returned updated s.dst] = [] := rfl
    have split : events ++ [Event.ring .popNone,.returned updated s.dst] =
        events ++ [Spsc.Event.popNone].map .ring ++ [Event.returned updated s.dst] := by simp
    rw [busy] at flag
    rw [split]
    refine ⟨by simpa [taken,given] using now,popping,?_,by simpa [given] using kept,?_,?_⟩
    · rw [untilReturned]
      simpa [taken,given] using all.symm
    · rw [sinceReturned]
      simp
    · refine everywhereSnoc (ringQuiet inv.law [Spsc.Event.popNone]) ⟨by simpa [all] using kept,?_⟩
      rw [sinceRing,acceptedAppend,← since]
      simpa using flag

theorem runDrained (fits : size < 2^w) {actions : List (Action α)} {s₀ : ParameterQueue α}
    (made : new size initial = .ok s₀) (ok : run (step w size) s₀ actions = some (s,events))
    (aligned : Aligned w size (accepted events).length) : Drained w size initial s events := by
  refine runInvariant
    (P := fun s events => Aligned w size (accepted events).length → Drained w size initial s events)
    (fun _ => newDrained made) ?_ ok aligned
  intro s past action s' out held moved aligned
  rw [acceptedAppend] at aligned
  have before := alignedFront aligned
  exact stepDrained fits (held before) before moved

theorem Drained.position (inv : Drained w size initial s events) :
    (initial :: accepted events)[(delivered events).length]? = some s.dst := by
  obtain ⟨rest,whole⟩ := inv.consistent.order
  rw [← whole,inv.kept]
  cases delivered events using List.reverseRecOn with
  | nil => rfl
  | append_singleton front x => simp

end Law
end Riaps.Parameter
