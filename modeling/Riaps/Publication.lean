import Mathlib.Logic.Function.Basic
import Riaps.Library.Machine
import Riaps.Library.Pools
import Riaps.Library.Wrapping

/-! Publication of graphs behind handles, one atomic access at a time. Any number of
calls is in flight; boxes, guards and retired tokens lie in pools from which any
thread may take. Addresses are numbers, 0 is null, and a freed address may be
allocated again. The borrow checker keeps a handle alive while it is borrowed. -/
namespace Riaps.Publication
open Library.Wrapping Library.Pools

structure PublicationState where
  current : Nat
  version : Nat
  hazard : Nat
  pinActive : Bool
  -- the reference count of the Arc, and whether the handle itself is one of them
  strong : Nat
  owned : Bool
  deriving DecidableEq, Repr

/- `call` numbers the calls of `try_pin`; `graph` is what the address held at the pin. -/
structure DspGraphReadGuard where
  call : Nat
  handle : Nat
  pointer : Nat
  graph : Option Nat
  deriving DecidableEq, Repr

structure RetiredDspGraph where
  pointer : Nat
  retiredAtVersion : Nat
  state : Nat
  deriving DecidableEq, Repr

inductive Call where
  | pinLoad (call handle : Nat)
  | pinPublish (call handle pointer : Nat)
  | pinValidate (call handle pointer : Nat)
  | unpin (handle : Nat)
  | swapCount (handle old : Nat)
  | recover (state pointer : Nat) (reclaim : Bool)
  | discard (pointer : Nat)
  deriving DecidableEq, Repr

structure Shared where
  heap : Nat → Option Nat
  created : Nat
  boxes : List Nat
  handles : List PublicationState
  tokens : List RetiredDspGraph
  guards : List DspGraphReadGuard
  calls : List Call
  pins : Nat

def init : Shared := ⟨fun _ => none,0,[],[],[],[],[],0⟩

inductive Action where
  | compile (address : Nat)
  | dropBox (box : Nat)
  | new (box : Nat)
  | tryPin (handle : Nat)
  | dropGuard (guard : Nat)
  | swap (handle box : Nat)
  | tryIntoBox (token : Nat) (reclaim : Bool)
  | dropToken (token : Nat)
  | dropHandle (handle : Nat)
  | version (handle : Nat)
  | advance (call : Nat)
  deriving DecidableEq, Repr

inductive Event where
  | published (handle pointer : Nat)
  | busy (handle : Nat)
  | pinned (guard : DspGraphReadGuard)
  | retired (token : RetiredDspGraph)
  | refused (token : RetiredDspGraph)
  | recovered (pointer : Nat)
  | freed (pointer : Nat)
  | versionRead (handle version : Nat)
  | assertionFailed (handle : Nat)
  deriving DecidableEq, Repr

def Call.borrows : Call → List Nat
  | .pinLoad _ handle => [handle]
  | .pinPublish _ handle _ => [handle]
  | .pinValidate _ handle _ => [handle]
  | .unpin handle => [handle]
  | .swapCount handle _ => [handle]
  | _ => []

def borrows (s : Shared) : List Nat := s.guards.map DspGraphReadGuard.handle ++ s.calls.flatMap Call.borrows

def update (s : Shared) (handle : Nat) (q : PublicationState) : Shared := {s with handles := s.handles.set handle q}

def free (s : Shared) (pointer : Nat) : Shared := {s with heap := Function.update s.heap pointer none}

def dropState (s : Shared) (handle : Nat) (q : PublicationState) : Shared × List Event :=
  let asserted : List Event := if q.pinActive then [.assertionFailed handle] else []
  if q.current = 0 then (s,asserted) else (free s q.current,asserted ++ [.freed q.current])

/- One reference to the state goes away; the last one drops the state with its graph. -/
def release (s : Shared) (handle : Nat) : Option (Shared × List Event) := do
  let q ← s.handles[handle]?
  if q.strong = 1 then some (dropState (update s handle {q with strong := 0}) handle q)
  else some (update s handle {q with strong := q.strong - 1},[])

def advance (s : Shared) : Call → Option (Shared × List Event)
  | .pinLoad call handle => do
      let q ← s.handles[handle]?
      some ({s with calls := .pinPublish call handle q.current :: s.calls},[])
  | .pinPublish call handle pointer => do
      let q ← s.handles[handle]?
      let s := update s handle {q with hazard := pointer}
      some ({s with calls := .pinValidate call handle pointer :: s.calls},[])
  | .pinValidate call handle pointer => do
      let q ← s.handles[handle]?
      if q.current = pointer then
        let guard : DspGraphReadGuard := ⟨call,handle,pointer,s.heap pointer⟩
        some ({s with guards := guard :: s.guards},[.pinned guard])
      else some ({s with calls := .pinLoad call handle :: s.calls},[])
  | .unpin handle => do
      let q ← s.handles[handle]?
      some (update s handle {q with pinActive := false},[])
  -- the increment of the reference count follows that of the version; the borrowed handle holds a reference throughout
  | .swapCount handle old => do
      let q ← s.handles[handle]?
      let version := wrappingAdd 64 q.version 1
      let token : RetiredDspGraph := ⟨old,version,handle⟩
      let s := update s handle {q with version := version, strong := q.strong + 1}
      some ({s with tokens := token :: s.tokens},[.retired token])
  | .recover state pointer reclaim => do
      let s := if reclaim then {s with calls := .discard pointer :: s.calls} else {s with boxes := pointer :: s.boxes}
      let (s,out) ← release s state
      some (s,.recovered pointer :: out)
  | .discard pointer => some (free s pointer,[.freed pointer])

def step (s : Shared) : Action → Option (Shared × List Event)
  | .compile address =>
      if address ≠ 0 ∧ s.heap address = none then
        some ({s with heap := Function.update s.heap address (some s.created), created := s.created + 1,
                      boxes := address :: s.boxes},[])
      else none
  | .dropBox box => do
      let (pointer,rest) ← pick s.boxes box
      some (free {s with boxes := rest} pointer,[.freed pointer])
  | .new box => do
      let (pointer,rest) ← pick s.boxes box
      some ({s with boxes := rest, handles := s.handles ++ [⟨pointer,1,0,false,1,true⟩]},
        [.published s.handles.length pointer])
  | .tryPin handle => do
      let q ← s.handles[handle]?
      if q.owned then
        if q.pinActive then some (s,[.busy handle])
        else
          let s := update s handle {q with pinActive := true}
          some ({s with calls := .pinLoad s.pins handle :: s.calls, pins := s.pins + 1},[])
      else none
  | .dropGuard guard => do
      let (g,rest) ← pick s.guards guard
      let q ← s.handles[g.handle]?
      let s := update s g.handle {q with hazard := 0}
      some ({s with guards := rest, calls := .unpin g.handle :: s.calls},[])
  | .swap handle box => do
      let q ← s.handles[handle]?
      if q.owned then do
        let (pointer,rest) ← pick s.boxes box
        let s := update s handle {q with current := pointer}
        some ({s with boxes := rest, calls := .swapCount handle q.current :: s.calls},[.published handle pointer])
      else none
  | .tryIntoBox token reclaim => do
      let (t,rest) ← pick s.tokens token
      let q ← s.handles[t.state]?
      if q.hazard = t.pointer then some (s,[.refused t])
      else some ({s with tokens := rest, calls := .recover t.state t.pointer reclaim :: s.calls},[])
  | .dropToken token => do
      let (t,rest) ← pick s.tokens token
      release {s with tokens := rest} t.state
  | .dropHandle handle => do
      let q ← s.handles[handle]?
      if q.owned ∧ handle ∉ borrows s then release (update s handle {q with owned := false}) handle
      else none
  | .version handle => do
      let q ← s.handles[handle]?
      if q.owned then some (s,[.versionRead handle q.version]) else none
  | .advance call => do
      let (c,rest) ← pick s.calls call
      advance {s with calls := rest} c

def Quiet : Event → Prop
  | .pinned _ => False
  | .recovered _ => False
  | .freed _ => False
  | _ => True

/- Every transition with its guards; a pool is shown with the entry that is taken in front. -/
inductive Moves (s : Shared) : List Event → Shared → Prop where
  | idle {out} (quiet : ∀ e ∈ out, Quiet e) : Moves s out s
  | compile {address} (nonnull : address ≠ 0) (unused : s.heap address = none) :
      Moves s [] {s with heap := Function.update s.heap address (some s.created), created := s.created + 1,
                         boxes := address :: s.boxes}
  | dropBox {pointer rest} (taken : s.boxes.Perm (pointer :: rest)) :
      Moves s [.freed pointer] (free {s with boxes := rest} pointer)
  | new {pointer rest} (taken : s.boxes.Perm (pointer :: rest)) :
      Moves s [.published s.handles.length pointer]
        {s with boxes := rest, handles := s.handles ++ [⟨pointer,1,0,false,1,true⟩]}
  | tryPin {handle q} (found : s.handles[handle]? = some q) (owned : q.owned = true) (free : q.pinActive = false) :
      Moves s [] {update s handle {q with pinActive := true} with calls := .pinLoad s.pins handle :: s.calls, pins := s.pins + 1}
  | dropGuard {g rest q} (taken : s.guards.Perm (g :: rest)) (found : s.handles[g.handle]? = some q) :
      Moves s [] {update s g.handle {q with hazard := 0} with guards := rest, calls := .unpin g.handle :: s.calls}
  | swap {handle q pointer rest} (found : s.handles[handle]? = some q) (owned : q.owned = true)
      (taken : s.boxes.Perm (pointer :: rest)) :
      Moves s [.published handle pointer]
        {update s handle {q with current := pointer} with boxes := rest, calls := .swapCount handle q.current :: s.calls}
  | tryIntoBox {t rest q reclaim} (taken : s.tokens.Perm (t :: rest)) (found : s.handles[t.state]? = some q)
      (clear : q.hazard ≠ t.pointer) :
      Moves s [] {s with tokens := rest, calls := .recover t.state t.pointer reclaim :: s.calls}
  | dropToken {t rest s' out} (taken : s.tokens.Perm (t :: rest))
      (released : release {s with tokens := rest} t.state = some (s',out)) : Moves s out s'
  | dropHandle {handle q s' out} (found : s.handles[handle]? = some q) (owned : q.owned = true)
      (unused : handle ∉ borrows s) (released : release (update s handle {q with owned := false}) handle = some (s',out)) :
      Moves s out s'
  | pinLoad {call handle q rest} (taken : s.calls.Perm (.pinLoad call handle :: rest))
      (found : s.handles[handle]? = some q) :
      Moves s [] {s with calls := .pinPublish call handle q.current :: rest}
  | pinPublish {call handle pointer q rest} (taken : s.calls.Perm (.pinPublish call handle pointer :: rest))
      (found : s.handles[handle]? = some q) :
      Moves s [] {update s handle {q with hazard := pointer} with calls := .pinValidate call handle pointer :: rest}
  | pinValid {call handle pointer q rest} (taken : s.calls.Perm (.pinValidate call handle pointer :: rest))
      (found : s.handles[handle]? = some q) (current : q.current = pointer) :
      Moves s [.pinned ⟨call,handle,pointer,s.heap pointer⟩]
        {s with guards := ⟨call,handle,pointer,s.heap pointer⟩ :: s.guards, calls := rest}
  | pinRetry {call handle pointer rest} (taken : s.calls.Perm (.pinValidate call handle pointer :: rest)) :
      Moves s [] {s with calls := .pinLoad call handle :: rest}
  | unpin {handle q rest} (taken : s.calls.Perm (.unpin handle :: rest)) (found : s.handles[handle]? = some q) :
      Moves s [] {update s handle {q with pinActive := false} with calls := rest}
  | swapCount {handle old q rest} (taken : s.calls.Perm (.swapCount handle old :: rest))
      (found : s.handles[handle]? = some q) :
      Moves s [.retired ⟨old,wrappingAdd 64 q.version 1,handle⟩]
        {update s handle {q with version := wrappingAdd 64 q.version 1, strong := q.strong + 1} with
          tokens := ⟨old,wrappingAdd 64 q.version 1,handle⟩ :: s.tokens, calls := rest}
  | recoverBox {state pointer rest s' out} (taken : s.calls.Perm (.recover state pointer false :: rest))
      (released : release {s with boxes := pointer :: s.boxes, calls := rest} state = some (s',out)) :
      Moves s (.recovered pointer :: out) s'
  | reclaimBox {state pointer rest s' out} (taken : s.calls.Perm (.recover state pointer true :: rest))
      (released : release {s with calls := .discard pointer :: rest} state = some (s',out)) :
      Moves s (.recovered pointer :: out) s'
  | discard {pointer rest} (taken : s.calls.Perm (.discard pointer :: rest)) :
      Moves s [.freed pointer] (free {s with calls := rest} pointer)

theorem advanceMoves {s s' : Shared} {c : Call} {rest : List Call} {out : List Event} (taken : s.calls.Perm (c :: rest))
    (ok : advance {s with calls := rest} c = some (s',out)) : Moves s out s' := by
  cases c with
  | pinLoad call handle =>
    obtain ⟨q,found,last⟩ := Option.bind_eq_some_iff.mp ok
    cases Option.some.inj last
    exact .pinLoad taken found
  | pinPublish call handle pointer =>
    obtain ⟨q,found,last⟩ := Option.bind_eq_some_iff.mp ok
    cases Option.some.inj last
    exact .pinPublish taken found
  | pinValidate call handle pointer =>
    obtain ⟨q,found,last⟩ := Option.bind_eq_some_iff.mp ok
    split at last <;> cases Option.some.inj last
    · exact .pinValid taken found (by assumption)
    · exact .pinRetry taken
  | unpin handle =>
    obtain ⟨q,found,last⟩ := Option.bind_eq_some_iff.mp ok
    cases Option.some.inj last
    exact .unpin taken found
  | swapCount handle old =>
    obtain ⟨q,found,last⟩ := Option.bind_eq_some_iff.mp ok
    cases Option.some.inj last
    exact .swapCount taken found
  | recover state pointer reclaim =>
    obtain ⟨⟨s₁,out₁⟩,released,last⟩ := Option.bind_eq_some_iff.mp ok
    cases Option.some.inj last
    cases reclaim with
    | true => exact .reclaimBox taken released
    | false => exact .recoverBox taken released
  | discard pointer =>
    cases Option.some.inj ok
    exact .discard taken

theorem stepMoves {s s' : Shared} {action : Action} {out : List Event} (ok : step s action = some (s',out)) :
    Moves s out s' := by
  cases action with
  | compile address =>
    simp only [step] at ok
    split at ok <;> try contradiction
    rename_i fresh
    cases Option.some.inj ok
    exact .compile fresh.1 fresh.2
  | dropBox box =>
    obtain ⟨⟨pointer,rest⟩,picked,last⟩ := Option.bind_eq_some_iff.mp ok
    cases Option.some.inj last
    exact .dropBox (pickPerm picked)
  | new box =>
    obtain ⟨⟨pointer,rest⟩,picked,last⟩ := Option.bind_eq_some_iff.mp ok
    cases Option.some.inj last
    exact .new (pickPerm picked)
  | tryPin handle =>
    obtain ⟨q,found,last⟩ := Option.bind_eq_some_iff.mp ok
    split at last <;> try contradiction
    rename_i owned
    split at last <;> cases Option.some.inj last
    · exact .idle (by simp [Quiet])
    · rename_i free
      exact .tryPin found owned (by simpa using free)
  | dropGuard guard =>
    obtain ⟨⟨g,rest⟩,picked,ok⟩ := Option.bind_eq_some_iff.mp ok
    obtain ⟨q,found,last⟩ := Option.bind_eq_some_iff.mp ok
    cases Option.some.inj last
    exact .dropGuard (pickPerm picked) found
  | swap handle box =>
    obtain ⟨q,found,ok⟩ := Option.bind_eq_some_iff.mp ok
    split at ok <;> try contradiction
    rename_i owned
    obtain ⟨⟨pointer,rest⟩,picked,last⟩ := Option.bind_eq_some_iff.mp ok
    cases Option.some.inj last
    exact .swap found owned (pickPerm picked)
  | tryIntoBox token reclaim =>
    obtain ⟨⟨t,rest⟩,picked,ok⟩ := Option.bind_eq_some_iff.mp ok
    obtain ⟨q,found,last⟩ := Option.bind_eq_some_iff.mp ok
    split at last <;> cases Option.some.inj last
    · exact .idle (by simp [Quiet])
    · exact .tryIntoBox (pickPerm picked) found (by assumption)
  | dropToken token =>
    obtain ⟨⟨t,rest⟩,picked,released⟩ := Option.bind_eq_some_iff.mp ok
    exact .dropToken (pickPerm picked) released
  | dropHandle handle =>
    obtain ⟨q,found,last⟩ := Option.bind_eq_some_iff.mp ok
    split at last <;> try contradiction
    rename_i both
    exact .dropHandle found both.1 both.2 last
  | version handle =>
    obtain ⟨q,found,last⟩ := Option.bind_eq_some_iff.mp ok
    split at last <;> try contradiction
    cases Option.some.inj last
    exact .idle (by simp [Quiet])
  | advance call =>
    obtain ⟨⟨c,rest⟩,picked,moved⟩ := Option.bind_eq_some_iff.mp ok
    exact advanceMoves (pickPerm picked) moved

end Riaps.Publication
