import Riaps.SpscWrap

/-! A batch pop against single pops. The call reads its slots under one load of
tail and moves head once, at the end; the producer goes on in between. The values
are those that single pops at that load return, and the ring is the one that
single pops leave after the producer's steps. A refused call leaves no trace. All
this is so for whoever holds the ring, as long as the producer's side moves it by
steps of its producer and does so whatever the other side has done. -/
namespace Riaps.Spsc
open Library.Checks Library.Wrapping Library.Machine Library.Pools

def pops (α : Type) (count : Nat) : List (Action α) := (List.replicate count (popWhole α)).flatten

/-- A machine with a ring inside, as a batch pop sees it. -/
structure Holder (σ ι ε α : Type) where
  step : σ → ι → Option (σ × List ε)
  ring : σ → SpscRing α
  put : σ → SpscRing α → σ
  consume : ι
  isReader : ι → Bool
  heard : List ε → List (Event α)
  tell : Event α → ε

/- The ring on its own. -/
def alone (w size : Nat) (α : Type) : Holder (SpscRing α) (Action α) (Event α) α where
  step := step w size
  ring := id
  put := fun _ r => r
  consume := .consume
  isReader := Action.isReader
  heard := id
  tell := id

section Batches
variable {σ ι ε α : Type} (w size : Nat) (holder : Holder σ ι ε α)

def Holder.reads (actions : List ι) : Nat := actions.countP holder.isReader

def Holder.writes (actions : List ι) : List ι := actions.filter (fun a => !holder.isReader a)

def Holder.accepted (events : List ε) : List α := Spsc.accepted (holder.heard events)

def Holder.delivered (events : List ε) : List α := Spsc.delivered (holder.heard events)

/-- The producer's steps `ws` came between the load of tail and the store of head. -/
structure BatchPopped (count : Nat) (m u : σ) (ws : List ι) (more : List ε) (dst : List α) : Prop where
  popped : ∃ p, run (step w size) (holder.ring m) (pops α count) = some (p,dst.map .popSome) ∧
    (holder.ring u).head = p.head ∧
    contents w size (holder.ring u) = contents w size p ++ holder.accepted more ∧
    ((∀ value, holder.tell (.pushErr value) ∉ more) → run holder.step (holder.put m p) ws = some (u,more))
  written : ∃ q, run holder.step m ws = some (q,more) ∧ u = holder.put q (holder.ring u) ∧
    run (step w size) (holder.ring q) (pops α count) = some (holder.ring u,dst.map .popSome)

/-- The batch pop called in `s` and about to load tail in `t`, the producer's steps `early` in between; `lawful`
are the histories it is asked about. -/
structure BatchCall (lawful : List ε → Prop) (count : Nat) (s t : σ) (early : List ι) (past pushed : List ε) : Prop where
  refused : (holder.accepted (past ++ pushed)).length < (holder.delivered (past ++ pushed)).length + count →
    ∃ u, holder.step t holder.consume = some (u,[holder.tell .sliceErr]) ∧ run holder.step s early = some (u,pushed)
  granted : (holder.delivered (past ++ pushed)).length + count ≤ (holder.accepted (past ++ pushed)).length →
    ∃ m t', run holder.step s early = some (m,pushed) ∧ holder.step t holder.consume = some (t',[]) ∧
      ∀ mid v more, run holder.step t' mid = some (v,more) → lawful (past ++ pushed ++ more) →
        (holder.reads mid < count → ∃ v', holder.step v holder.consume = some (v',[])) ∧
        (holder.reads mid = count → ∃ dst u, holder.step v holder.consume = some (u,[holder.tell (.sliceOk dst)]) ∧
          BatchPopped w size holder count m u (holder.writes mid) more dst)

/-- A step of the producer's side: steps of the ring's producer, and the same around any other ring. -/
structure Turn (quiet : σ → Prop) (s : σ) (action : ι) (s' : σ) (out : List ε) (ws : List (Action α)) : Prop where
  writers : ∀ a ∈ ws, a.isReader = false
  ring : run (step w size) (holder.ring s) ws = some (holder.ring s',holder.heard out)
  quiet : quiet s' ↔ quiet s
  anywhere : ∀ r r', run (step w size) r ws = some (r',holder.heard out) →
    holder.step (holder.put s r) action = some (holder.put s' r',out)

/- `quiet` are the states in which no other call of the consumer's side is under way. -/
structure Lawful (quiet : σ → Prop) : Prop where
  ringPut : ∀ s r, holder.ring (holder.put s r) = r
  putPut : ∀ s r r', holder.put (holder.put s r) r' = holder.put s r'
  putRing : ∀ s, holder.put s (holder.ring s) = s
  quietPut : ∀ s r, quiet s → quiet (holder.put s r)
  heardAppend : ∀ past out, holder.heard (past ++ out) = holder.heard past ++ holder.heard out
  heardNil : holder.heard [] = []
  heardTold : ∀ events event, event ∈ holder.heard events → holder.tell event ∈ events
  busy : ∀ s action s' out, holder.isReader action = true → (holder.ring s).consumer ≠ .idle →
    holder.step s action = some (s',out) → action = holder.consume
  consumes : ∀ s r out, quiet s → step w size (holder.ring s) .consume = some (r,out) →
    holder.step s holder.consume = some (holder.put s r,out.map holder.tell)
  turns : ∀ s action s' out, holder.isReader action = false → holder.step s action = some (s',out) →
    ∃ ws, Turn w size holder quiet s action s' out ws

end Batches

section Calls
variable {α : Type}

section Steps
variable {w size : Nat} {s s' : SpscRing α} {action : Action α} {out : List (Event α)}

theorem writerHead (writer : action.isReader = false) (ok : step w size s action = some (s',out)) :
    s'.head = s.head := by
  cases action with
  | push value =>
    simp only [step] at ok
    split at ok <;> try contradiction
    cases Option.some.inj ok
    rfl
  | produce => cases produceMoves ok <;> rfl
  | _ => cases writer

theorem writerAside (pc : Consumer α) (writer : action.isReader = false) (ok : step w size s action = some (s',out)) :
    step w size {s with consumer := pc} action = some ({s' with consumer := pc},out) := by
  cases action with
  | push value =>
    simp only [step] at ok ⊢
    split at ok <;> try contradiction
    cases Option.some.inj ok
    simp
  | produce =>
    simp only [step]
    cases produceMoves ok with
    | full pc held => simp [produce,pc,held]
    | room pc held => simp [produce,pc,held]
    | write pc => simp [produce,pc]
    | publish pc => simp [produce,pc]
  | _ => cases writer

theorem readerBusy (reader : action.isReader = true) (busy : s.consumer ≠ .idle)
    (ok : step w size s action = some (s',out)) : action = .consume := by
  cases action with
  | push value => cases reader
  | produce => cases reader
  | consume => rfl
  | _ => simp [step] at ok

theorem writersRun {ws : List (Action α)} (writers : ∀ a ∈ ws, a.isReader = false)
    (ok : run (step w size) s ws = some (s',out)) :
    s'.consumer = s.consumer ∧ s'.head = s.head ∧ delivered out = [] := by
  induction ws generalizing s out with
  | nil =>
    cases Option.some.inj ok
    exact ⟨rfl,rfl,rfl⟩
  | cons a ws ih =>
    obtain ⟨s₁,first,rest,moved,later,rfl⟩ := runCons ok
    obtain ⟨here,others⟩ := List.forall_mem_cons.mp writers
    obtain ⟨consumer,given⟩ := writerFrame here moved
    obtain ⟨same,head,none_⟩ := ih others later
    refine ⟨same.trans consumer,head.trans (writerHead here moved),?_⟩
    rw [deliveredAppend,given,none_,List.append_nil]

end Steps

section Pops
variable {w size : Nat} {published consumed : List α} {s : SpscRing α}

def movedHead (w n : Nat) (s : SpscRing α) : SpscRing α := {s with head := wrappingAdd w s.head n}

theorem Consistent.moved (inv : Consistent w size published consumed s) (idle : s.consumer = .idle) {dst : List α}
    (next : consumed ++ dst <+: published) :
    Consistent w size published (consumed ++ dst) (movedHead w dst.length s) := by
  have given : delivered [Event.sliceOk dst] = dst := by simp
  have later := inv.advance next given
  rw [given] at later
  have same : movedHead w dst.length s = {s with head := wrappingAdd w s.head dst.length, consumer := .idle} := by
    rw [movedHead,← idle]
  rw [same]
  exact later

theorem popsRun (fits : size < 2^w) (aligned : Aligned w size published.length)
    (inv : Consistent w size published consumed s) (idle : s.consumer = .idle) {dst : List α}
    (next : consumed ++ dst <+: published) :
    run (step w size) s (pops α dst.length) = some (movedHead w dst.length s,dst.map .popSome) := by
  induction dst generalizing consumed s with
  | nil =>
    have still : wrappingAdd w s.head 0 = s.head := by rw [inv.head,wrappingAddCount,Nat.add_zero]
    have same : movedHead w 0 s = s := by rw [movedHead,still]
    rw [List.length_nil,same]
    rfl
  | cons x dst ih =>
    have here : consumed ++ [x] <+: published := by
      refine List.IsPrefix.trans ?_ next
      rw [List.prefix_append_right_inj]
      exact ⟨dst,rfl⟩
    have rest : consumed ++ [x] ++ dst <+: published := by rwa [List.append_assoc]
    have more : consumed.length < published.length := by
      have bound := here.length_le
      rwa [List.length_append,List.length_singleton] at bound
    have value : published[consumed.length]? = some x := by
      obtain ⟨rest,rfl⟩ := here
      simp
    have found : s.buf[s.head % size]? = some (some x) := by
      rw [inv.head,slotOfCount (alignedLess aligned more.le)]
      exact inv.stored _ _ (Nat.le_refl _) value
    have apart : s.tail ≠ s.head := by
      rw [inv.tail,inv.head]
      exact (slotsDiffer more (by have room := inv.room; omega)).symm
    have one : run (step w size) s (popWhole α) = some (movedHead w 1 s,[.popSome x]) := by
      have popped := popRuns w size s.producer apart found
      rwa [← idle] at popped
    have twice : movedHead w dst.length (movedHead w 1 s) = movedHead w (x :: dst).length s := by
      have sum : wrappingAdd w (wrappingAdd w s.head 1) dst.length = wrappingAdd w s.head (dst.length + 1) := by
        rw [inv.head,wrappingAddCount,wrappingAddCount,wrappingAddCount]
        congr 1
        omega
      simp only [movedHead,sum,List.length_cons]
    have later := ih (inv.moved idle here) idle rest
    rw [List.length_singleton,twice] at later
    exact runThen one later

theorem writerMoved (fits : size < 2^w) (inv : Consistent w size published consumed s) (idle : s.consumer = .idle)
    {dst : List α} (next : consumed ++ dst <+: published) {action : Action α} (writer : action.isReader = false)
    {s' : SpscRing α} {out : List (Event α)} (ok : step w size s action = some (s',out))
    (taken : ∀ value, .pushErr value ∉ out) :
    step w size (movedHead w dst.length s) action = some (movedHead w dst.length s',out) := by
  cases action with
  | push value =>
    simp only [step] at ok
    split at ok <;> try contradiction
    rename_i free
    cases Option.some.inj ok
    simp [step,movedHead,free]
  | produce =>
    cases produceMoves ok with
    | @full value tail pc held => exact absurd (List.mem_singleton_self _) (taken value)
    | @room value tail pc held =>
      have current := inv.offering
      rw [pc] at current
      have fewer : wrappingSub w tail (movedHead w dst.length s).head ≠ size := by
        have later := (inv.moved idle next).held fits
        have now := inv.held fits
        have bound := inv.room
        have le := inv.order.length_le
        rw [current] at held ⊢
        rw [List.length_append] at later
        change wrappingSub w s.tail _ = _ at later
        omega
      simp only [step,produce,show (movedHead w dst.length s).producer = .loadedTail value tail from pc,fewer]
      rfl
    | write pc => simp [step,produce,movedHead,pc]
    | publish pc => simp [step,produce,movedHead,pc]
  | _ => cases writer

theorem writersMoved (fits : size < 2^w) {ws : List (Action α)} (writers : ∀ a ∈ ws, a.isReader = false)
    (inv : Consistent w size published consumed s) (idle : s.consumer = .idle) {dst : List α}
    (next : consumed ++ dst <+: published) {s' : SpscRing α} {more : List (Event α)}
    (ok : run (step w size) s ws = some (s',more)) (aligned : Aligned w size (published ++ accepted more).length)
    (taken : ∀ value, .pushErr value ∉ more) :
    run (step w size) (movedHead w dst.length s) ws = some (movedHead w dst.length s',more) := by
  induction ws generalizing published s more with
  | nil =>
    cases Option.some.inj ok
    rfl
  | cons a ws ih =>
    obtain ⟨s₁,out,rest,first,later,rfl⟩ := runCons ok
    obtain ⟨here,others⟩ := List.forall_mem_cons.mp writers
    obtain ⟨same,given⟩ := writerFrame here first
    have now := stepConsistent fits inv (alignedFront aligned) first
    rw [given,List.append_nil] at now
    rw [acceptedAppend,← List.append_assoc] at aligned
    have moved := writerMoved fits inv idle next here first (fun value mem => taken value (List.mem_append_left _ mem))
    have reached := ih others now (same.trans idle) (next.trans (List.prefix_append _ _)) later aligned
      (fun value mem => taken value (List.mem_append_right _ mem))
    simp [run,moved,reached]

end Pops

section Copying
variable {w size count : Nat} {published consumed : List α} {s : SpscRing α}

theorem copyNext (inv : Consistent w size published consumed s) (aligned : Aligned w size published.length) {dst : List α}
    (pc : s.consumer = .sliceReading count s.head dst) (more : dst.length < count) :
    ∃ value, step w size s .consume =
      some ({s with consumer := .sliceReading count s.head (dst ++ [value])},[]) := by
  have current := inv.taking
  rw [pc] at current
  obtain ⟨_,_,enough⟩ := current
  have bound : consumed.length + dst.length < published.length := by omega
  have found := inv.unread aligned (Nat.le_add_right _ _) bound
  rw [← wrappingAddCount,← inv.head,List.getElem?_eq_getElem bound] at found
  refine ⟨published[consumed.length + dst.length],?_⟩
  simp [step,consume,pc,more,found]

theorem Consistent.idle (inv : Consistent w size published consumed s) :
    Consistent w size published consumed {s with consumer := .idle} :=
  ⟨{inv.toIndexed with taking := trivial},inv.order,inv.cells,inv.stored,inv.producing,trivial⟩

/- `s` is the ring when tail was loaded, `v` the ring before the store of head. -/
theorem popsCompared (fits : size < 2^w) (inv : Consistent w size published consumed s) (idle : s.consumer = .idle)
    {added dst : List α} {v : SpscRing α} (inv' : Consistent w size (published ++ added) consumed v)
    (idle' : v.consumer = .idle) (aligned : Aligned w size (published ++ added).length)
    (next : consumed ++ dst <+: published) :
    run (step w size) s (pops α dst.length) = some (movedHead w dst.length s,dst.map .popSome) ∧
    run (step w size) v (pops α dst.length) = some (movedHead w dst.length v,dst.map .popSome) ∧
    (movedHead w dst.length v).head = (movedHead w dst.length s).head ∧
    contents w size (movedHead w dst.length v) = contents w size (movedHead w dst.length s) ++ added := by
  have before := alignedFront aligned
  have later : consumed ++ dst <+: published ++ added := next.trans (List.prefix_append _ _)
  refine ⟨popsRun fits before inv idle next,popsRun fits aligned inv' idle' later,?_,?_⟩
  · rw [movedHead,movedHead,inv.head,inv'.head]
  · rw [(inv'.moved idle' later).contents fits aligned,(inv.moved idle next).contents fits before,
      List.drop_append_of_le_length next.length_le]

/- Only values published before the load are copied. -/
theorem copiedBefore {v : SpscRing α} {added dst : List α} (inv : Consistent w size published consumed s)
    (pc : s.consumer = .sliceReading count s.head []) (inv' : Consistent w size (published ++ added) consumed v)
    (pc' : v.consumer = .sliceReading count v.head dst) : consumed ++ dst <+: published := by
  have start := inv.taking
  have final := inv'.taking
  have front := inv'.consuming
  rw [pc] at start
  rw [pc'] at final front
  obtain ⟨_,_,enough⟩ := start
  obtain ⟨_,within,_⟩ := final
  exact List.prefix_of_prefix_length_le front (List.prefix_append _ _) (by rw [List.length_append]; omega)

end Copying

section Holders
variable {σ ι ε : Type} {w size count : Nat} {holder : Holder σ ι ε α} {quiet : σ → Prop}
  {published consumed : List α} {s v : σ} {more : List ε}

def Holder.idled (holder : Holder σ ι ε α) (s : σ) : σ := holder.put s {holder.ring s with consumer := .idle}

theorem Turn.idled {action : ι} {s' : σ} {out : List ε} {ws : List (Action α)}
    (turn : Turn w size holder quiet s action s' out ws) :
    holder.step (holder.idled s) action = some (holder.idled s',out) :=
  turn.anywhere _ _ (runMapped (f := fun r => {r with consumer := .idle})
    (fun a mem _ _ _ => writerAside .idle (turn.writers a mem)) turn.ring)

theorem Turn.kept {action : ι} {s' : σ} {out : List ε} {ws : List (Action α)}
    (turn : Turn w size holder quiet s action s' out ws) (fits : size < 2^w)
    (inv : Consistent w size published consumed (holder.ring s))
    (aligned : Aligned w size (published ++ holder.accepted out).length) :
    (holder.ring s').consumer = (holder.ring s).consumer ∧ (holder.ring s').head = (holder.ring s).head ∧
    Consistent w size (published ++ holder.accepted out) consumed (holder.ring s') := by
  obtain ⟨consumer,head,given⟩ := writersRun turn.writers turn.ring
  have later := inv.after fits turn.ring aligned
  rw [given,List.append_nil] at later
  exact ⟨consumer,head,later⟩

variable (law : Lawful w size holder quiet)
include law

theorem acceptedMore (past out : List ε) :
    holder.accepted (past ++ out) = holder.accepted past ++ holder.accepted out := by
  rw [Holder.accepted,law.heardAppend,acceptedAppend]
  rfl

theorem turnsRun {actions : List ι} (writers : ∀ a ∈ actions, holder.isReader a = false)
    (ok : run holder.step s actions = some (v,more)) : (holder.ring v).consumer = (holder.ring s).consumer ∧
      (holder.ring v).head = (holder.ring s).head ∧ (quiet v ↔ quiet s) ∧
      run holder.step (holder.idled s) actions = some (holder.idled v,more) := by
  induction actions generalizing s more with
  | nil =>
    cases Option.some.inj ok
    exact ⟨rfl,rfl,Iff.rfl,rfl⟩
  | cons action actions ih =>
    obtain ⟨s₁,out,rest,first,later,rfl⟩ := runCons ok
    obtain ⟨here,others⟩ := List.forall_mem_cons.mp writers
    obtain ⟨ws,turn⟩ := law.turns _ _ _ _ here first
    obtain ⟨consumer,head,_⟩ := writersRun turn.writers turn.ring
    obtain ⟨sameConsumer,sameHead,still,reached⟩ := ih others later
    refine ⟨sameConsumer.trans consumer,sameHead.trans head,still.trans turn.quiet,?_⟩
    simp [run,turn.idled,reached]

theorem turnsMoved (fits : size < 2^w) {actions : List ι} (writers : ∀ a ∈ actions, holder.isReader a = false)
    (inv : Consistent w size published consumed (holder.ring s)) (idle : (holder.ring s).consumer = .idle) {dst : List α}
    (next : consumed ++ dst <+: published) (ok : run holder.step s actions = some (v,more))
    (aligned : Aligned w size (published ++ holder.accepted more).length)
    (taken : ∀ value, holder.tell (.pushErr value) ∉ more) :
    run holder.step (holder.put s (movedHead w dst.length (holder.ring s))) actions =
      some (holder.put v (movedHead w dst.length (holder.ring v)),more) := by
  induction actions generalizing published s more with
  | nil =>
    cases Option.some.inj ok
    rfl
  | cons action actions ih =>
    obtain ⟨s₁,out,rest,first,later,rfl⟩ := runCons ok
    obtain ⟨here,others⟩ := List.forall_mem_cons.mp writers
    obtain ⟨ws,turn⟩ := law.turns _ _ _ _ here first
    rw [acceptedMore law,← List.append_assoc] at aligned
    have early := alignedFront aligned
    obtain ⟨same,_,now⟩ := turn.kept fits inv early
    have moved := turn.anywhere _ _ (writersMoved fits turn.writers inv idle next turn.ring early
      (fun value mem => taken value (List.mem_append_left _ (law.heardTold _ _ mem))))
    have reached := ih others now (same.trans idle) (next.trans (List.prefix_append _ _)) later aligned
      (fun value mem => taken value (List.mem_append_right _ mem))
    simp [run,moved,reached]

theorem copiesRun (fits : size < 2^w) {mid : List ι} (inv : Consistent w size published consumed (holder.ring s))
    (calm : quiet s) {dst : List α} (pc : (holder.ring s).consumer = .sliceReading count (holder.ring s).head dst)
    (few : dst.length + holder.reads mid ≤ count) (ok : run holder.step s mid = some (v,more))
    (aligned : Aligned w size (published ++ holder.accepted more).length) :
    ∃ dst', (holder.ring v).consumer = .sliceReading count (holder.ring v).head dst' ∧
      dst'.length = dst.length + holder.reads mid ∧ quiet v ∧
      run holder.step (holder.idled s) (holder.writes mid) = some (holder.idled v,more) ∧
      Consistent w size (published ++ holder.accepted more) consumed (holder.ring v) := by
  induction mid generalizing published s dst more with
  | nil =>
    cases Option.some.inj ok
    refine ⟨dst,pc,rfl,calm,rfl,?_⟩
    rwa [Holder.accepted,law.heardNil,acceptedNil,List.append_nil]
  | cons action mid ih =>
    obtain ⟨s₁,out,rest,first,later,rfl⟩ := runCons ok
    rw [acceptedMore law,← List.append_assoc] at aligned ⊢
    have early := alignedFront aligned
    cases kind : holder.isReader action with
    | true =>
      have counted : holder.reads (action :: mid) = holder.reads mid + 1 := List.countP_cons_of_pos kind
      have skipped : holder.writes (action :: mid) = holder.writes mid := List.filter_cons_of_neg (by simp [kind])
      rw [counted] at few ⊢
      rw [skipped]
      cases law.busy _ _ _ _ kind (by simp [pc]) first
      have before := alignedFront early
      obtain ⟨value,copied⟩ := copyNext inv before pc (by omega)
      have now := stepConsistent fits inv before copied
      rw [law.consumes _ _ _ calm copied] at first
      cases Option.some.inj first
      have none_ : holder.accepted (([] : List (Event α)).map holder.tell) = [] := by
        rw [List.map_nil,Holder.accepted,law.heardNil,acceptedNil]
      rw [none_,List.append_nil] at aligned ⊢
      rw [acceptedNil,deliveredNil,List.append_nil,List.append_nil,
        ← law.ringPut s {holder.ring s with consumer := .sliceReading count (holder.ring s).head (dst ++ [value])}] at now
      obtain ⟨dst',pc',all,calm',reached,last⟩ := ih now (law.quietPut _ _ calm) (by rw [law.ringPut]) (by simp; omega)
        later aligned
      refine ⟨dst',pc',?_,calm',?_,last⟩
      · rw [all,List.length_append,List.length_singleton]
        omega
      · rw [Holder.idled,law.ringPut,law.putPut] at reached
        exact reached
    | false =>
      have counted : holder.reads (action :: mid) = holder.reads mid := List.countP_cons_of_neg (by simp [kind])
      have kept : holder.writes (action :: mid) = action :: holder.writes mid := List.filter_cons_of_pos (by simp [kind])
      obtain ⟨ws,turn⟩ := law.turns _ _ _ _ kind first
      obtain ⟨same,head,now⟩ := turn.kept fits inv early
      rw [counted] at few ⊢
      obtain ⟨dst',pc',all,calm',reached,last⟩ := ih now (turn.quiet.mpr calm) (by rw [same,pc,head]) few later aligned
      refine ⟨dst',pc',all,calm',?_,last⟩
      rw [kept]
      simp [run,turn.idled,reached]

theorem batchCopied (fits : size < 2^w) {mid : List ι} (inv : Consistent w size published consumed (holder.ring s))
    (calm : quiet s) (pc : (holder.ring s).consumer = .sliceReading count (holder.ring s).head [])
    (ok : run holder.step s mid = some (v,more)) (aligned : Aligned w size (published ++ holder.accepted more).length)
    (all : holder.reads mid = count) :
    ∃ dst u, holder.step v holder.consume = some (u,[holder.tell (.sliceOk dst)]) ∧
      BatchPopped w size holder count (holder.idled s) u (holder.writes mid) more dst := by
  obtain ⟨dst,pc',length,calm',wrote,inv'⟩ := copiesRun law fits inv calm pc (by rw [List.length_nil]; omega) ok aligned
  rw [List.length_nil,Nat.zero_add,all] at length
  subst length
  have next := copiedBefore inv pc inv' pc'
  obtain ⟨early,late,head,held⟩ := popsCompared fits inv.idle rfl inv'.idle rfl aligned next
  have writers : ∀ a ∈ holder.writes mid, holder.isReader a = false := by
    intro a mem
    simpa using (List.mem_filter.mp mem).2
  have stored : step w size (holder.ring v) .consume =
      some (movedHead w dst.length {holder.ring v with consumer := .idle},[.sliceOk dst]) := by
    simp [step,consume,pc',movedHead]
  have around : holder.ring (holder.idled s) = {holder.ring s with consumer := .idle} := law.ringPut _ _
  have lands : holder.put (holder.idled v) (movedHead w dst.length (holder.ring (holder.idled v))) =
      holder.put v (movedHead w dst.length {holder.ring v with consumer := .idle}) := by
    rw [Holder.idled,law.ringPut,law.putPut]
  refine ⟨dst,_,law.consumes _ _ _ calm' stored,⟨_,by rw [around]; exact early,?_,?_,?_⟩,_,wrote,?_,?_⟩
  · rw [law.ringPut]
    exact head
  · rw [law.ringPut]
    exact held
  · intro taken
    have moved := turnsMoved law fits writers (s := holder.idled s) (by rw [around]; exact inv.idle) (by rw [around]) next
      wrote aligned taken
    rw [around,lands] at moved
    exact moved
  · rw [law.ringPut,Holder.idled,law.putPut]
  · rw [law.ringPut,Holder.idled,law.ringPut]
    exact late

theorem batchLoaded (fits : size < 2^w) {lawful : List ε → Prop} {t : σ} {early : List ι} {past pushed : List ε}
    (aligned : ∀ events, lawful events → Aligned w size (holder.accepted events).length)
    (known : Aligned w size (holder.accepted (past ++ pushed)).length)
    (before : run holder.step s early = some (holder.idled t,pushed)) (calm : quiet t)
    (pc : (holder.ring t).consumer = .sliceLoadedHead count (holder.ring t).head)
    (inv : Consistent w size (holder.accepted (past ++ pushed)) (holder.delivered (past ++ pushed)) (holder.ring t)) :
    BatchCall w size holder lawful count s t early past pushed := by
  have held := inv.held fits
  have le := inv.order.length_le
  refine ⟨?_,?_⟩
  · intro short
    have few : wrappingSub w (holder.ring t).tail (holder.ring t).head < count := by omega
    have answered : step w size (holder.ring t) .consume =
        some ({holder.ring t with consumer := .idle},[.sliceErr]) := by
      simp [step,consume,pc,few]
    exact ⟨_,law.consumes _ _ _ calm answered,before⟩
  · intro enough
    have all : ¬ wrappingSub w (holder.ring t).tail (holder.ring t).head < count := by omega
    have loaded : step w size (holder.ring t) .consume =
        some ({holder.ring t with consumer := .sliceReading count (holder.ring t).head []},[]) := by
      simp [step,consume,pc,all]
    have now := stepConsistent fits inv known loaded
    rw [acceptedNil,deliveredNil,List.append_nil,List.append_nil] at now
    obtain ⟨t',reached⟩ : ∃ t', t' = holder.put t {holder.ring t with
      consumer := .sliceReading count (holder.ring t).head []} := ⟨_,rfl⟩
    have inside : holder.ring t' = {holder.ring t with consumer := .sliceReading count (holder.ring t).head []} := by
      rw [reached,law.ringPut]
    have idle : holder.idled t = holder.idled t' := by
      rw [reached,Holder.idled,Holder.idled,law.ringPut,law.putPut]
    have calm' : quiet t' := reached ▸ law.quietPut _ _ calm
    have reading : (holder.ring t').consumer = .sliceReading count (holder.ring t').head [] := by rw [inside]
    rw [← inside] at now
    rw [idle] at before
    refine ⟨_,t',before,reached ▸ law.consumes _ _ _ calm loaded,?_⟩
    intro mid v more ok lawful_
    have enough_ := aligned _ lawful_
    rw [acceptedMore law] at enough_
    refine ⟨?_,batchCopied law fits now calm' reading ok enough_⟩
    intro some_
    obtain ⟨dst,pc',length,calm'',_,inv'⟩ := copiesRun law fits now calm' reading (by rw [List.length_nil]; omega) ok enough_
    obtain ⟨value,copied⟩ := copyNext inv' enough_ pc' (by rw [length,List.length_nil]; omega)
    exact ⟨_,law.consumes _ _ _ calm'' copied⟩

/- From the state in which the call has just begun. -/
theorem batchBegun (fits : size < 2^w) {lawful : List ε → Prop} {s t : σ} {early : List ι} {past pushed : List ε}
    (aligned : ∀ events, lawful events → Aligned w size (holder.accepted events).length)
    (known : Aligned w size (holder.accepted (past ++ pushed)).length) (calm : quiet s)
    (idle : (holder.ring s).consumer = .idle) (writers : ∀ a ∈ early, holder.isReader a = false)
    (later : run holder.step (holder.put s {holder.ring s with consumer := .sliceLoadedHead count (holder.ring s).head})
      early = some (t,pushed))
    (inv : Consistent w size (holder.accepted (past ++ pushed)) (holder.delivered (past ++ pushed)) (holder.ring t)) :
    BatchCall w size holder lawful count s t early past pushed := by
  obtain ⟨pc,head,still,around⟩ := turnsRun law writers later
  rw [law.ringPut] at pc head
  have same : {holder.ring s with consumer := .idle} = holder.ring s := by rw [← idle]
  rw [Holder.idled,law.ringPut,law.putPut,same,law.putRing] at around
  exact batchLoaded law fits aligned known around (still.mpr (law.quietPut _ _ calm)) (by rw [pc,head]) inv

omit law
end Holders

theorem aloneLawful (w size : Nat) : Lawful w size (alone w size α) (fun _ => True) := by
  refine ⟨fun _ _ => rfl,fun _ _ _ => rfl,fun _ => rfl,fun _ _ => id,fun _ _ => rfl,rfl,fun _ _ => id,?_,?_,?_⟩
  · intro s action s' out reader busy ok
    exact readerBusy reader busy ok
  · intro s r out _ moved
    simpa [alone] using moved
  · intro s action s' out writer ok
    refine ⟨[action],⟨by simpa [alone] using writer,?_,Iff.rfl,?_⟩⟩
    · have moved : step w size s action = some (s',out) := ok
      simp [run,alone,moved]
    · intro r r' ran
      obtain ⟨_,_,_,first,last,split⟩ := runCons ran
      cases Option.some.inj last
      rw [List.append_nil] at split
      change out = _ at split
      rw [split]
      exact first

theorem batchCalled {w size count : Nat} (fits : size < 2^w) {s₀ s t : SpscRing α} {before early : List (Action α)}
    {past pushed : List (Event α)} (made : new α size = .ok s₀) (ran : run (step w size) s₀ before = some (s,past))
    (writers : ∀ a ∈ early, a.isReader = false)
    (called : run (step w size) s (.popSliceCopy count :: early) = some (t,pushed))
    (aligned : Aligned w size (accepted (past ++ pushed)).length) :
    BatchCall w size (alone w size α) (fun events => Aligned w size (accepted events).length) count s t early past pushed := by
  have inv := runConsistent fits made (runThen ran called) aligned
  obtain ⟨c,out,rest,first,later,rfl⟩ := runCons called
  simp only [step] at first
  split at first <;> try contradiction
  rename_i idle
  cases Option.some.inj first
  exact batchBegun (aloneLawful w size) fits (fun _ => id) aligned trivial idle writers later inv

end Calls
end Riaps.Spsc
