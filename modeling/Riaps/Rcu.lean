import Riaps.Library.Machine
import Riaps.Library.Pools
import Riaps.Library.Wrapping

/-! The generic RCU handle, one atomic access at a time. `swap` exchanges the pointer and
then counts; any number of swaps may stand between the two. Who gets which old pointer
is decided by the exchanges alone: every pointer ever published is returned by one swap,
is on its way to be, or is current. -/
namespace Riaps.Rcu
open Library.Wrapping Library.Machine Library.Pools

/- `swaps` are the old pointers of the calls that have exchanged and not counted yet. -/
structure RcuHandle where
  current : Nat
  version : Nat
  swaps : List Nat
  deriving DecidableEq, Repr

def empty : RcuHandle := ⟨0,0,[]⟩

def new (initial : Nat) : RcuHandle := ⟨initial,1,[]⟩

inductive Action where
  | load
  | version
  | swap (newPtr : Nat)
  | count (call : Nat)
  deriving DecidableEq, Repr

inductive Event where
  | loaded (pointer : Nat)
  | versionRead (version : Nat)
  | published (pointer : Nat)
  | returned (old : Nat)
  | assertionFailed
  deriving DecidableEq, Repr

def step (s : RcuHandle) : Action → Option (RcuHandle × List Event)
  | .load => some (s,[.loaded s.current])
  | .version => some (s,[.versionRead s.version])
  | .swap newPtr =>
      if newPtr = 0 then some (s,[.assertionFailed])
      else some ({s with current := newPtr, swaps := s.current :: s.swaps},[.published newPtr])
  | .count call => do
      let (old,rest) ← pick s.swaps call
      some ({s with version := wrappingAdd 64 s.version 1, swaps := rest},[.returned old])

def published (events : List Event) : List Nat := events.filterMap (fun e =>
  match e with
  | .published pointer => some pointer
  | _ => none)

def returned (events : List Event) : List Nat := events.filterMap (fun e =>
  match e with
  | .returned old => some old
  | _ => none)

@[simp] theorem publishedAppend (past out : List Event) : published (past ++ out) = published past ++ published out :=
  List.filterMap_append

@[simp] theorem returnedAppend (past out : List Event) : returned (past ++ out) = returned past ++ returned out :=
  List.filterMap_append

def Told (start : RcuHandle) (past : List Event) : Event → Prop
  | .loaded pointer => (start.current :: published past).getLast? = some pointer
  | .versionRead version => version = (start.version + (returned past).length) % 2^64
  | .published pointer => pointer ≠ 0
  | .returned old => (returned past).count old < (start.current :: published past).count old
  | .assertionFailed => True

structure Chained (start s : RcuHandle) (events : List Event) : Prop where
  current : (start.current :: published events).getLast? = some s.current
  ledger : (start.current :: published events).Perm (s.current :: s.swaps ++ returned events)
  version : s.version = (start.version + (returned events).length) % 2^64
  law : Everywhere (Told start) events

section Chains
variable {start s s' : RcuHandle} {events out : List Event}

theorem startChained (quiet : start.swaps = []) (small : start.version < 2^64) : Chained start start [] := by
  refine ⟨rfl,?_,(Nat.mod_eq_of_lt small).symm,everywhereNil⟩
  rw [quiet]
  exact .refl _

theorem Chained.aside (inv : Chained start s events) {e : Event} (quiet : published [e] = [] ∧ returned [e] = [])
    (told : Told start events e) : Chained start s (events ++ [e]) := by
  have same : published (events ++ [e]) = published events ∧ returned (events ++ [e]) = returned events := by
    rw [publishedAppend,returnedAppend,quiet.1,quiet.2,List.append_nil,List.append_nil]
    exact ⟨rfl,rfl⟩
  refine ⟨?_,?_,?_,everywhereSnoc inv.law told⟩
  · rw [same.1]
    exact inv.current
  · rw [same.1,same.2]
    exact inv.ledger
  · rw [same.2]
    exact inv.version

theorem Chained.exchange (inv : Chained start s events) {newPtr : Nat} (nonnull : newPtr ≠ 0) :
    Chained start {s with current := newPtr, swaps := s.current :: s.swaps} (events ++ [.published newPtr]) := by
  have more : published (events ++ [.published newPtr]) = published events ++ [newPtr] := publishedAppend _ _
  have same : returned (events ++ [.published newPtr]) = returned events := by
    rw [returnedAppend]
    exact List.append_nil _
  refine ⟨?_,?_,?_,everywhereSnoc inv.law nonnull⟩
  · rw [more,← List.cons_append]
    exact List.getLast?_concat
  · rw [more,same,← List.cons_append]
    exact List.perm_append_comm.trans (inv.ledger.cons newPtr)
  · rw [same]
    exact inv.version

theorem Chained.counted (inv : Chained start s events) {old : Nat} {rest : List Nat} (taken : s.swaps.Perm (old :: rest)) :
    Chained start {s with version := wrappingAdd 64 s.version 1, swaps := rest} (events ++ [.returned old]) := by
  have same : published (events ++ [.returned old]) = published events := by
    rw [publishedAppend]
    exact List.append_nil _
  have more : returned (events ++ [.returned old]) = returned events ++ [old] := returnedAppend _ _
  have ledger := inv.ledger.trans ((taken.cons s.current).append_right (returned events))
  refine ⟨?_,?_,?_,everywhereSnoc inv.law ?_⟩
  · rw [same]
    exact inv.current
  · rw [same,more]
    have moved : (rest ++ returned events ++ [old]).Perm (old :: (rest ++ returned events)) := List.perm_append_singleton _ _
    rw [List.append_assoc] at moved
    exact ledger.trans (moved.symm.cons s.current)
  · rw [more,inv.version,List.length_append,List.length_singleton]
    exact wrappingAddCount _ _ _
  · have counts := ledger.count_eq old
    simp only [Told,counts,List.count_cons,List.count_append,List.cons_append]
    simp
    omega

theorem stepChained {action : Action} (inv : Chained start s events) (ok : step s action = some (s',out)) :
    Chained start s' (events ++ out) := by
  cases action with
  | load =>
    cases Option.some.inj ok
    exact inv.aside ⟨rfl,rfl⟩ inv.current
  | version =>
    cases Option.some.inj ok
    exact inv.aside ⟨rfl,rfl⟩ inv.version
  | swap newPtr =>
    simp only [step] at ok
    split at ok <;> cases Option.some.inj ok
    · exact inv.aside ⟨rfl,rfl⟩ trivial
    · exact inv.exchange (by assumption)
  | count call =>
    obtain ⟨⟨old,rest⟩,picked,last⟩ := Option.bind_eq_some_iff.mp ok
    cases Option.some.inj last
    exact inv.counted (pickPerm picked)

theorem runChained {actions : List Action} (quiet : start.swaps = []) (small : start.version < 2^64)
    (ok : run step start actions = some (s,events)) : Chained start s events :=
  runInvariant (P := Chained start) (startChained quiet small) (fun _ _ _ _ _ inv moved => stepChained inv moved) ok

end Chains

theorem everyPointerReturnedOnce {start s : RcuHandle} {initial : Nat} (made : start = empty ∨ start = new initial)
    {actions : List Action} {events : List Event} (ok : run step start actions = some (s,events)) :
    Everywhere (Told start) events ∧ (start.current :: published events).Perm (s.current :: s.swaps ++ returned events) ∧
    s.version = (start.version + (returned events).length) % 2^64 ∧
    ((start.current :: published events).Nodup → (returned events).Nodup ∧ s.current ∉ returned events) := by
  have quiet : start.swaps = [] ∧ start.version < 2^64 := by
    rcases made with rfl | rfl
    · exact ⟨rfl,(by decide : 0 < 2^64)⟩
    · exact ⟨rfl,(by decide : 1 < 2^64)⟩
  have inv := runChained quiet.1 quiet.2 ok
  refine ⟨inv.law,inv.ledger,inv.version,?_⟩
  intro distinct
  have all := inv.ledger.nodup distinct
  rw [List.cons_append] at all
  obtain ⟨fresh,others⟩ := List.nodup_cons.mp all
  exact ⟨(List.nodup_append.mp others).2.1,fun old => fresh (List.mem_append_right _ old)⟩

/- The swap that exchanged last counts first. -/
def crossed : List Action := [.swap 5,.swap 6,.load,.count 0,.version,.swap 7,.count 1,.count 0,.version]

theorem everyPointerReturnedOnceCrossed :
    run step (new 4) crossed = some (⟨7,4,[]⟩,[.published 5,.published 6,.loaded 6,.returned 5,.versionRead 2,.published 7,
      .returned 4,.returned 6,.versionRead 4]) ∧ [4,5,6,7].Perm (7 :: [] ++ [5,4,6]) := by
  have ran : run step (new 4) crossed = some (⟨7,4,[]⟩,[.published 5,.published 6,.loaded 6,.returned 5,.versionRead 2,
      .published 7,.returned 4,.returned 6,.versionRead 4]) := rfl
  exact ⟨ran,(everyPointerReturnedOnce (.inr rfl) ran).2.1⟩

end Riaps.Rcu
