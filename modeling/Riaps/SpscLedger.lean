import Mathlib.Data.List.Nodup
import Riaps.SpscFifo

/-! Who owns a slot and who owns a value. A slot is live from the write of a value to
the read that moves it out; the ring does not store this, so it is watched beside
the run. The slots between what was moved out and what was written are the live
ones, whatever half-finished calls there are, and dropping the ring meets exactly
the values nobody took. -/
namespace Riaps.Spsc
open Library.Checks Library.Wrapping Library.Machine Library.Pools

section Watching
variable {α : Type} (w size : Nat)

def mark (s : SpscRing α) (live : Nat → Bool) : Action α → Nat → Bool
  | .produce =>
      match s.producer with
      | .writing _ tail => Function.update live (tail % size) true
      | _ => live
  | .consume =>
      match s.consumer with
      | .reading head => Function.update live (head % size) false
      | .sliceReading count head dst =>
          if dst.length < count then Function.update live (wrappingAdd w head dst.length % size) false else live
      | _ => live
  | _ => live

def watch : Library.Machine.Step (SpscRing α × (Nat → Bool)) (Action α) (Event α) :=
  beside (step w size) (fun s live action _ => mark w size s live action)

def unwritten : Nat → Bool := fun _ => false

end Watching

def Producer.written {α : Type} : Producer α → Nat
  | .publishing _ _ => 1
  | _ => 0

def Consumer.moved {α : Type} : Consumer α → Nat
  | .leaving _ _ => 1
  | .sliceReading _ _ dst => dst.length
  | _ => 0

section Slots
variable {α : Type} {w size : Nat} {published consumed : List α} {s : SpscRing α} {live : Nat → Bool}

def Live (size : Nat) (published consumed : List α) (s : SpscRing α) (live : Nat → Bool) : Prop :=
  ∀ k, live k = true ↔
    Covered size (consumed.length + s.consumer.moved) (published.length + s.producer.written) k

theorem Consistent.movedBehind (inv : Consistent w size published consumed s) :
    consumed.length + s.consumer.moved ≤ published.length := by
  have current := inv.taking
  cases pc : s.consumer with
  | leaving head value =>
    rw [pc] at current
    exact Nat.succ_le_of_lt current.2
  | sliceReading count head dst =>
    rw [pc] at current
    exact Nat.le_trans (Nat.add_le_add_left current.2.1 _) current.2.2
  | _ => exact inv.behind

theorem Consistent.writtenAhead (inv : Consistent w size published consumed s) :
    published.length + s.producer.written ≤ consumed.length + size := by
  have current := inv.offering
  cases pc : s.producer with
  | publishing value tail =>
    rw [pc] at current
    exact current.2
  | _ => exact inv.room

theorem produceLive (inv : Consistent w size published consumed s) (aligned : Aligned w size published.length)
    (exact_ : Live size published consumed s live) {s' : SpscRing α} {out : List (Event α)}
    (moved : Produces w size s out s') :
    Live size (published ++ accepted out) consumed s' (mark w size s live .produce) := by
  have current := inv.offering
  cases moved with
  | full pc =>
    simpa [Live,mark,pc,Producer.written] using exact_
  | room pc =>
    simpa [Live,mark,pc,Producer.written] using exact_
  | write pc =>
    rw [pc] at current
    have target : s.tail % size = published.length % size := by
      rw [inv.tail]
      exact slotOfCount aligned
    simp only [Live,pc,Producer.written,Nat.add_zero] at exact_
    intro k
    simp only [mark,pc,current.1,target,acceptedNil,List.append_nil,Producer.written]
    exact coverLast exact_ inv.movedBehind k
  | publish pc =>
    simpa [Live,mark,pc,Producer.written] using exact_

theorem consumeLive (inv : Consistent w size published consumed s) (aligned : Aligned w size published.length)
    (exact_ : Live size published consumed s live) {s' : SpscRing α} {out : List (Event α)}
    (moved : Consumes w size s out s') (next : Consistent w size published (consumed ++ delivered out) s') :
    Live size published (consumed ++ delivered out) s' (mark w size s live .consume) := by
  have current := inv.taking
  have ahead := inv.writtenAhead
  have within : ∀ {i}, i ≤ published.length → i % 2^w % size = i % size := fun le => slotOfCount (alignedLess aligned le)
  cases moved with
  | none pc => simpa [Live,mark,pc,Consumer.moved] using exact_
  | some pc => simpa [Live,mark,pc,Consumer.moved] using exact_
  | read pc =>
    rw [pc] at current
    simp only [Live,pc,Consumer.moved,Nat.add_zero] at exact_
    intro k
    simp only [mark,pc,current.1,inv.head,within current.2.le,deliveredNil,List.append_nil,Consumer.moved]
    exact uncoverFirst exact_ ahead k
  | readUnwritten => exact next.consuming.elim
  | leave pc => simpa [Live,mark,pc,Consumer.moved] using exact_
  | few pc => simpa [Live,mark,pc,Consumer.moved] using exact_
  | enough pc => simpa [Live,mark,pc,Consumer.moved] using exact_
  | @copy count head dst value pc more =>
    rw [pc] at current
    obtain ⟨rfl,_,enough⟩ := current
    have inside : consumed.length + dst.length ≤ published.length := by omega
    simp only [Live,pc,Consumer.moved] at exact_
    intro k
    simp only [mark,pc,if_pos more,inv.head,wrappingAddCount,within inside,deliveredNil,List.append_nil,
      Consumer.moved,List.length_append,List.length_singleton,← Nat.add_assoc]
    exact uncoverFirst exact_ (by omega) k
  | copyUnwritten => exact next.consuming.elim
  | @leaveSlice count head dst pc done => simpa [Live,mark,pc,Consumer.moved,done] using exact_

theorem stepLive (fits : size < 2^w) (inv : Consistent w size published consumed s)
    (aligned : Aligned w size published.length) (exact_ : Live size published consumed s live) {action : Action α}
    {s' : SpscRing α} {out : List (Event α)} (ok : step w size s action = some (s',out)) :
    Live size (published ++ accepted out) (consumed ++ delivered out) s' (mark w size s live action) := by
  have next := stepConsistent fits inv aligned ok
  cases action with
  | push value =>
    simp only [step] at ok
    split at ok <;> try contradiction
    rename_i pc
    cases Option.some.inj ok
    simpa [Live,mark,pc,Producer.written] using exact_
  | produce =>
    have moved := produceMoves ok
    rw [produceGivesNone moved,List.append_nil]
    exact produceLive inv aligned exact_ moved
  | pop =>
    simp only [step] at ok
    split at ok <;> try contradiction
    rename_i pc
    cases Option.some.inj ok
    simpa [Live,mark,pc,Consumer.moved] using exact_
  | popSliceCopy count =>
    simp only [step] at ok
    split at ok <;> try contradiction
    rename_i pc
    cases Option.some.inj ok
    simpa [Live,mark,pc,Consumer.moved] using exact_
  | consume =>
    have none_ := (readerFrame rfl ok).2.2.2
    rw [none_,List.append_nil] at next ⊢
    exact consumeLive inv aligned exact_ (consumeMoves ok) next

theorem runLive (fits : size < 2^w) {actions : List (Action α)} {s₀ : SpscRing α} {events : List (Event α)}
    (made : new α size = .ok s₀) (ok : run (watch w size) (s₀,unwritten) actions = some ((s,live),events))
    (aligned : Aligned w size (accepted events).length) :
    Consistent w size (accepted events) (delivered events) s ∧
    Live size (accepted events) (delivered events) s live := by
  obtain ⟨_,rfl⟩ := newEmpty made
  refine runInvariant
    (P := fun r events => Aligned w size (accepted events).length →
      Consistent w size (accepted events) (delivered events) r.1 ∧
      Live size (accepted events) (delivered events) r.1 r.2) ?_ ?_ ok aligned
  · intro _
    refine ⟨emptyConsistent w size,?_⟩
    intro k
    constructor
    · exact fun impossible => by cases impossible
    · rintro ⟨i,_,below,_⟩
      cases below
  · rintro ⟨s,live⟩ past action ⟨s',live'⟩ out held moved aligned
    rw [acceptedAppend] at aligned
    have before := alignedFront aligned
    obtain ⟨inv,exact_⟩ := held before
    obtain ⟨stepped,rfl⟩ := besideStep moved
    rw [acceptedAppend,deliveredAppend]
    exact ⟨stepConsistent fits inv before stepped,stepLive fits inv before exact_ stepped⟩

end Slots

section Exclusive
variable {α : Type} {w size : Nat} {published consumed : List α} {s : SpscRing α} {live : Nat → Bool}

/- The indices a call still has to read; before its check, those it would read if it loaded tail now. -/
def willRead (w : Nat) (s : SpscRing α) : Consumer α → List Nat
  | .loadedHead head => if s.tail = head then [] else [head]
  | .reading head => [head]
  | .sliceLoadedHead count head =>
      if wrappingSub w s.tail head < count then [] else (List.range count).map (wrappingAdd w head)
  | .sliceReading count head dst => (List.range (count - dst.length)).map (fun i => wrappingAdd w head (dst.length + i))
  | _ => []

theorem Consistent.willReadCount (inv : Consistent w size published consumed s) (fits : size < 2^w) {x : Nat}
    (mem : x ∈ willRead w s s.consumer) :
    ∃ i, consumed.length + s.consumer.moved ≤ i ∧ i < published.length ∧ x = i % 2^w := by
  have current := inv.taking
  have le := inv.behind
  cases pc : s.consumer with
  | idle => simp [pc,willRead] at mem
  | loadedHead head =>
    rw [pc] at current mem
    simp only [willRead] at mem
    split at mem
    · cases mem
    · rename_i other
      have some_ : consumed.length ≠ published.length :=
        fun same => other (by rw [current,inv.tail,inv.head,same])
      exact ⟨consumed.length,Nat.le_refl _,by omega,by rw [List.mem_singleton.mp mem,current,inv.head]⟩
  | reading head =>
    rw [pc] at current mem
    exact ⟨consumed.length,Nat.le_refl _,current.2,by rw [List.mem_singleton.mp mem,current.1,inv.head]⟩
  | leaving head value => simp [pc,willRead] at mem
  | sliceLoadedHead count head =>
    rw [pc] at current mem
    simp only [willRead] at mem
    split at mem
    · cases mem
    · rename_i all
      rw [current,inv.held fits] at all
      obtain ⟨i,below,rfl⟩ := List.mem_map.mp mem
      have bound := List.mem_range.mp below
      exact ⟨consumed.length + i,Nat.le_add_right _ _,by omega,by rw [current,inv.head,wrappingAddCount]⟩
  | sliceReading count head dst =>
    rw [pc] at current mem
    obtain ⟨i,below,rfl⟩ := List.mem_map.mp mem
    have bound := List.mem_range.mp below
    have enough := current.2.2
    refine ⟨consumed.length + dst.length + i,Nat.le_add_right _ _,by omega,?_⟩
    rw [current.1,inv.head,wrappingAddCount,Nat.add_assoc]
  | undefined => simp [pc,willRead] at mem

theorem Consistent.filling (inv : Consistent w size published consumed s) {value : α} {tail : Nat}
    (pc : s.producer = .writing value tail ∨ s.producer = .publishing value tail) :
    tail = published.length % 2^w ∧ published.length < consumed.length + size := by
  have current := inv.offering
  rcases pc with writing | publishing
  · rw [writing] at current
    exact ⟨current.1.trans inv.tail,current.2⟩
  · rw [publishing] at current
    exact ⟨current.1.trans inv.tail,current.2⟩

theorem slotsExclusive (fits : size < 2^w) {s₀ : SpscRing α} {actions : List (Action α)} {events : List (Event α)}
    (made : new α size = .ok s₀) (ok : run (step w size) s₀ actions = some (s,events))
    (few : (accepted events).length < 2^w ∨ size ∣ 2^w) :
    ∃ live, run (watch w size) (s₀,unwritten) actions = some ((s,live),events) ∧
      (∀ value tail, s.producer = .writing value tail ∨ s.producer = .publishing value tail →
        ∀ x ∈ willRead w s s.consumer, x % size ≠ tail % size) ∧
      ∀ x ∈ willRead w s s.consumer, live (x % size) = true ∧
        ∃ i value, (delivered events).length ≤ i ∧ (accepted events)[i]? = some value ∧ slot size s x = some value := by
  obtain ⟨live,watched⟩ := runBeside (fun s live action _ => mark w size s live action) ok unwritten
  obtain ⟨inv,exact_⟩ := runLive fits made watched few
  refine ⟨live,watched,?_,?_⟩
  · intro value tail pc x mem
    obtain ⟨i,above,below,rfl⟩ := inv.willReadCount fits mem
    obtain ⟨rfl,free⟩ := inv.filling pc
    rw [slotOfCount (alignedLess few below.le),slotOfCount few]
    exact slotsDiffer below (by omega)
  · intro x mem
    obtain ⟨i,above,below,rfl⟩ := inv.willReadCount fits mem
    refine ⟨?_,i,(accepted events)[i],by omega,List.getElem?_eq_getElem below,?_⟩
    · rw [slotOfCount (alignedLess few below.le),exact_]
      exact ⟨i,above,Nat.lt_of_lt_of_le below (Nat.le_add_right _ _),rfl⟩
    · rw [inv.unread few (by omega) below,List.getElem?_eq_getElem below]

end Exclusive

/- The second slot is being written while a batch read of the first has passed its check. -/
def halfway : List (Action Nat) := [.push 5,.produce,.produce,.produce,.push 6,.produce,.popSliceCopy 1,.consume]

theorem slotsExclusiveHalfway : ∃ s events live, run (step 4 2) (empty Nat 2) halfway = some (s,events) ∧
    run (watch 4 2) (empty Nat 2,unwritten) halfway = some ((s,live),events) ∧ s.producer = .writing 6 1 ∧
    0 ∈ willRead 4 s s.consumer ∧ 0 % 2 ≠ 1 % 2 ∧ live 0 = true := by
  have tested : (run (step 4 2) (empty Nat 2) halfway).any (fun r => decide ((accepted r.2).length < 2^4) &&
      decide (r.1.producer = .writing 6 1) && decide (0 ∈ willRead 4 r.1 r.1.consumer)) = true := by decide
  obtain ⟨⟨s,events⟩,ran,tested⟩ := (Option.any_eq_true _ _).mp tested
  obtain ⟨tested,reads⟩ := Bool.and_eq_true_iff.mp tested
  obtain ⟨few,pc⟩ := Bool.and_eq_true_iff.mp tested
  have fits : 2 < 2^4 := by decide
  obtain ⟨live,watched,apart,holds⟩ := slotsExclusive fits rfl ran (.inl (of_decide_eq_true few))
  have mem := of_decide_eq_true reads
  have writing := of_decide_eq_true pc
  exact ⟨s,events,live,ran,watched,writing,mem,apart 6 1 (.inl writing) 0 mem,(holds 0 mem).1⟩

section Dropping
variable {α : Type} (w size : Nat)

def dropLoop (buf : List (Option α)) (tail : Nat) : Nat → Nat → Option (List (Nat × α))
  | 0, i => if i = tail then some [] else none
  | fuel + 1, i =>
      if i = tail then some []
      else do
        let cell ← buf[i % size]?
        let value ← cell
        let rest ← dropLoop buf tail fuel (wrappingAdd w i 1)
        some ((i % size,value) :: rest)

def drop (fuel : Nat) (s : SpscRing α) : Option (List (Nat × α)) := dropLoop w size s.buf s.tail fuel s.head

variable {w size}

theorem dropLoopOk {buf : List (Option α)} {first fuel : Nat} {values : List α}
    (holds : ∀ m x, values[m]? = some x → buf[(first + m) % 2^w % size]? = some (some x)) (few : values.length < 2^w)
    (enough : values.length ≤ fuel) :
    dropLoop w size buf ((first + values.length) % 2^w) fuel (first % 2^w) =
      some (values.mapIdx (fun m x => ((first + m) % 2^w % size,x))) := by
  induction values generalizing first fuel with
  | nil => cases fuel <;> simp [dropLoop]
  | cons x values ih =>
    rw [List.length_cons] at few enough
    cases fuel with
    | zero => cases enough
    | succ fuel =>
      have other : first % 2^w ≠ (first + (values.length + 1)) % 2^w := slotsDiffer (by omega) (by omega)
      have here : buf[first % 2^w % size]? = some (some x) := holds 0 x rfl
      have later : ∀ m y, values[m]? = some y → buf[(first + 1 + m) % 2^w % size]? = some (some y) := by
        intro m y found
        have held := holds (m + 1) y found
        rwa [show first + (m + 1) = first + 1 + m by omega] at held
      have rest := ih later (by omega) (Nat.le_of_succ_le_succ enough)
      have shifted : first + 1 + values.length = first + (values.length + 1) := by omega
      rw [shifted] at rest
      simp only [dropLoop,List.length_cons,if_neg other,here,wrappingAddCount,rest,List.mapIdx_cons,Nat.add_zero]
      simp [Nat.add_assoc,Nat.add_comm 1]

theorem Consistent.dropped {published consumed : List α} {s : SpscRing α} (inv : Consistent w size published consumed s)
    (fits : size < 2^w) (aligned : Aligned w size published.length) {fuel : Nat}
    (enough : published.length - consumed.length ≤ fuel) :
    drop w size fuel s = some ((published.drop consumed.length).mapIdx (fun m x => ((consumed.length + m) % size,x))) := by
  have le := inv.order.length_le
  have room := inv.room
  have count : (published.drop consumed.length).length = published.length - consumed.length := List.length_drop
  have slots : ∀ {i}, i ≤ published.length → i % 2^w % size = i % size := fun le => slotOfCount (alignedLess aligned le)
  have holds : ∀ m x, (published.drop consumed.length)[m]? = some x →
      s.buf[(consumed.length + m) % 2^w % size]? = some (some x) := by
    intro m x found
    rw [List.getElem?_drop] at found
    rw [slots (List.getElem?_eq_some_iff.mp found).1.le]
    exact inv.stored _ x (Nat.le_add_right _ _) found
  have done := dropLoopOk holds (show _ < 2^w by omega) (show _ ≤ fuel by omega)
  rw [count,Nat.add_sub_cancel' le,← inv.tail,← inv.head] at done
  rw [drop,done]
  congr 1
  apply List.mapIdx_eq_mapIdx_iff.mpr
  intro m bound
  rw [slots (by omega)]

theorem mapIdxParts (slots : Nat → Nat) (values : List α) :
    (values.mapIdx (fun m x => (slots m,x))).map Prod.fst = (List.range values.length).map slots ∧
    (values.mapIdx (fun m x => (slots m,x))).map Prod.snd = values := by
  constructor
  · apply List.ext_getElem <;> simp
  · apply List.ext_getElem <;> simp

end Dropping

section Values
variable {α : Type} {w size : Nat}

def passed (actions : List (Action α)) : List α := actions.flatMap (fun action =>
  match action with
  | .push value => [value]
  | _ => [])

def refused (events : List (Event α)) : List α := events.flatMap (fun event =>
  match event with
  | .pushErr value => [value]
  | _ => [])

theorem readerRefusesNone {s s' : SpscRing α} {action : Action α} {out : List (Event α)} (reader : action.isReader = true)
    (ok : step w size s action = some (s',out)) : refused out = [] := by
  cases action with
  | push value => cases reader
  | produce => cases reader
  | consume => cases consumeMoves ok <;> rfl
  | _ =>
    simp only [step] at ok
    split at ok <;> try contradiction
    cases Option.some.inj ok
    rfl

theorem stepAccounted {s s' : SpscRing α} {action : Action α} {out : List (Event α)}
    (ok : step w size s action = some (s',out)) :
    (passed [action] ++ s.producer.value.toList).Perm (refused out ++ accepted out ++ s'.producer.value.toList) := by
  cases action with
  | push value =>
    simp only [step] at ok
    split at ok <;> try contradiction
    rename_i pc
    cases Option.some.inj ok
    rw [pc]
    exact .refl _
  | produce =>
    rcases produceValue (produceMoves ok) with ⟨rfl,same⟩ | ⟨value,held,free,rfl | rfl⟩
    · rw [same]
      exact .refl _
    · rw [held,free]
      exact .refl _
    · rw [held,free]
      exact .refl _
  | _ =>
    obtain ⟨producer,_,_,none_⟩ := readerFrame rfl ok
    rw [readerRefusesNone rfl ok,none_,producer]
    exact .refl _

theorem runAccounted {s s' : SpscRing α} {actions : List (Action α)} {events : List (Event α)}
    (ok : run (step w size) s actions = some (s',events)) :
    (passed actions ++ s.producer.value.toList).Perm (refused events ++ accepted events ++ s'.producer.value.toList) := by
  induction actions generalizing s events with
  | nil =>
    cases Option.some.inj ok
    exact .refl _
  | cons action actions ih =>
    obtain ⟨s₁,out,rest,first,later,rfl⟩ := runCons ok
    have now := stepAccounted first
    have after := ih later
    have split : passed (action :: actions) = passed [action] ++ passed actions := by simp [passed]
    have parts : refused (out ++ rest) = refused out ++ refused rest := by simp [refused]
    classical
    rw [split,parts,acceptedAppend,List.perm_iff_count]
    intro value
    have here := now.count_eq value
    have there := after.count_eq value
    simp only [List.count_append] at here there ⊢
    omega

theorem valuesAccounted (fits : size < 2^w) {s₀ s : SpscRing α} {actions : List (Action α)} {events : List (Event α)}
    (made : new α size = .ok s₀) (ok : run (step w size) s₀ actions = some (s,events))
    (few : (accepted events).length < 2^w ∨ size ∣ 2^w) (resting : s.producer = .idle ∧ s.consumer = .idle) :
    ∃ live dropped, run (watch w size) (s₀,unwritten) actions = some ((s,live),events) ∧
      (∀ fuel, wrappingSub w s.tail s.head ≤ fuel → drop w size fuel s = some dropped) ∧
      dropped.length = wrappingSub w s.tail s.head ∧ wrappingSub w s.tail s.head ≤ size ∧
      (dropped.map Prod.fst).Nodup ∧ (∀ k, k ∈ dropped.map Prod.fst ↔ live k = true) ∧
      accepted events = delivered events ++ dropped.map Prod.snd ∧
      (passed actions).Perm (refused events ++ delivered events ++ dropped.map Prod.snd) := by
  obtain ⟨live,watched⟩ := runBeside (fun s live action _ => mark w size s live action) ok unwritten
  obtain ⟨inv,exact_⟩ := runLive fits made watched few
  have room := inv.room
  have held := inv.held fits
  have whole := List.prefix_iff_eq_append.mp inv.order
  obtain ⟨slots,values⟩ := mapIdxParts (fun m => ((delivered events).length + m) % size)
    ((accepted events).drop (delivered events).length)
  refine ⟨live,_,watched,fun fuel enough => inv.dropped fits few (held ▸ enough),?_,by omega,?_,?_,?_,?_⟩
  · rw [List.length_mapIdx,List.length_drop,held]
  · rw [slots]
    refine List.Nodup.map_on ?_ List.nodup_range
    intro i low j high same
    have left := List.mem_range.mp low
    have right := List.mem_range.mp high
    rw [List.length_drop] at left right
    rcases Nat.lt_trichotomy i j with less | equal | more
    · exact absurd same (slotsDiffer (by omega) (by omega))
    · exact equal
    · exact absurd same.symm (slotsDiffer (by omega) (by omega))
  · intro k
    rw [slots,exact_ k,resting.1,resting.2]
    simp only [Producer.written,Consumer.moved,Nat.add_zero,List.mem_map,List.mem_range,List.length_drop]
    constructor
    · rintro ⟨m,below,rfl⟩
      exact ⟨(delivered events).length + m,Nat.le_add_right _ _,by omega,rfl⟩
    · rintro ⟨i,above,below,rfl⟩
      exact ⟨i - (delivered events).length,by omega,by rw [Nat.add_sub_cancel' above]⟩
  · rw [values,whole]
  · have all := runAccounted ok
    obtain ⟨_,rfl⟩ := newEmpty made
    rw [resting.1] at all
    rw [values,List.append_assoc,whole]
    simpa [empty,Producer.value] using all

end Values

def leftInside : List (Action Nat) :=
  [.push 5,.produce,.produce,.produce,.push 6,.produce,.produce,.produce,.push 7,.produce,.pop,.consume,.consume,.consume]

theorem valuesAccountedAtTwo : ∃ s events live dropped, run (step 4 2) (empty Nat 2) leftInside = some (s,events) ∧
    run (watch 4 2) (empty Nat 2,unwritten) leftInside = some ((s,live),events) ∧ drop 4 2 2 s = some dropped ∧
    (∀ k, k ∈ dropped.map Prod.fst ↔ live k = true) ∧
    (passed leftInside).Perm (refused events ++ delivered events ++ dropped.map Prod.snd) := by
  have tested : (run (step 4 2) (empty Nat 2) leftInside).any (fun r => decide ((accepted r.2).length < 2^4) &&
      decide (r.1.producer = .idle ∧ r.1.consumer = .idle)) = true := by decide
  obtain ⟨⟨s,events⟩,ran,tested⟩ := (Option.any_eq_true _ _).mp tested
  obtain ⟨few,resting⟩ := Bool.and_eq_true_iff.mp tested
  have fits : 2 < 2^4 := by decide
  obtain ⟨live,dropped,watched,terminates,_,bound,_,slots,_,values⟩ :=
    valuesAccounted fits rfl ran (.inl (of_decide_eq_true few)) (of_decide_eq_true resting)
  exact ⟨s,events,live,dropped,ran,watched,terminates 2 bound,slots,values⟩

end Riaps.Spsc
