import Riaps.Library.Pools
import Riaps.SpscIndex

/-! Every half-finished push, pop and batch pop of the ring at once. `Consistent`
adds the values to what the indices say: it ties the memory to two lists, all values
published so far and all values delivered so far. It is kept by each atomic step, so
it holds in every state of every interleaving. -/
namespace Riaps.Spsc
open Library.Checks Library.Wrapping Library.Machine Library.Pools

section Invariant
variable {α : Type}

def Producing (size : Nat) (published : List α) (s : SpscRing α) : Producer α → Prop
  | .publishing value _ => s.buf[published.length % size]? = some (some value)
  | _ => True

def Consuming (published consumed : List α) : Consumer α → Prop
  | .leaving _ value => consumed ++ [value] <+: published
  | .sliceReading _ _ dst => consumed ++ dst <+: published
  | .undefined => False
  | _ => True

structure Consistent (w size : Nat) (published consumed : List α) (s : SpscRing α) : Prop
    extends Indexed w size published.length consumed.length s where
  order : consumed <+: published
  cells : s.buf.length = size
  stored : ∀ i x, consumed.length ≤ i → published[i]? = some x → s.buf[i % size]? = some (some x)
  producing : Producing size published s s.producer
  consuming : Consuming published consumed s.consumer

def Aligned (w size count : Nat) : Prop := count < 2^w ∨ size ∣ 2^w

theorem alignedLess {w size m n : Nat} (aligned : Aligned w size n) (le : m ≤ n) : Aligned w size m :=
  aligned.imp_left (Nat.lt_of_le_of_lt le)

theorem alignedFront {w size : Nat} {front back : List α} (aligned : Aligned w size (front ++ back).length) :
    Aligned w size front.length :=
  alignedLess aligned (List.length_append ▸ Nat.le_add_right _ _)

theorem emptyConsistent (w size : Nat) : Consistent w size [] [] (empty α size) := by
  refine ⟨emptyIndexed w size,List.prefix_rfl,by simp [empty],?_,trivial,trivial⟩
  intro i x _ absent
  simp at absent

section Kept
variable {w size : Nat} {published consumed : List α} {s : SpscRing α}

theorem rangeAll (xs : List α) : (List.range xs.length).filterMap (fun i => xs[i]?) = xs := by
  induction xs with
  | nil => rfl
  | cons x xs ih => simp [List.range_succ_eq_map,List.filterMap_map,ih]

theorem Consistent.known (inv : Consistent w size published consumed s) : s.consumer ≠ .undefined := by
  intro undefined_
  have front := inv.consuming
  rw [undefined_] at front
  exact front

theorem Consistent.unread (inv : Consistent w size published consumed s) (aligned : Aligned w size published.length)
    {i : Nat} (low : consumed.length ≤ i) (high : i < published.length) : slot size s (i % 2^w) = published[i]? := by
  have present := List.getElem?_eq_getElem high
  have same : i % 2^w % size = i % size := slotOfCount (alignedLess aligned high.le)
  simp [slot,same,inv.stored i _ low present]

theorem Consistent.contents (inv : Consistent w size published consumed s) (fits : size < 2^w)
    (aligned : Aligned w size published.length) : contents w size s = published.drop consumed.length := by
  have le := inv.order.length_le
  unfold Spsc.contents
  rw [inv.held fits,inv.head]
  have read : ∀ i ∈ List.range (published.length - consumed.length),
      slot size s (wrappingAdd w (consumed.length % 2^w) i) = (published.drop consumed.length)[i]? := by
    intro i mem
    have bound := List.mem_range.mp mem
    rw [wrappingAddCount,List.getElem?_drop]
    exact inv.unread aligned (Nat.le_add_right _ _) (by omega)
  rw [List.filterMap_congr read,← List.length_drop]
  exact rangeAll _

theorem snocPrefix {front back : List α} {x : α} (pre : front <+: back)
    (next : back[front.length]? = some x) : front ++ [x] <+: back := by
  obtain ⟨rest,rfl⟩ := pre
  rw [List.getElem?_append_right (Nat.le_refl _),Nat.sub_self] at next
  cases rest with
  | nil => cases next
  | cons y ys =>
    cases Option.some.inj next
    exact ⟨ys,by simp⟩

theorem consumingGrows {more : List α} {pc : Consumer α} (waiting : Consuming published consumed pc)
    (grown : published <+: more) : Consuming more consumed pc := by
  cases pc with
  | leaving head value => exact waiting.trans grown
  | sliceReading count head dst => exact waiting.trans grown
  | _ => exact waiting

theorem Consistent.advance (inv : Consistent w size published consumed s) {dst : List α} {out : List (Event α)}
    (next : consumed ++ dst <+: published) (given : delivered out = dst) :
    Consistent w size published (consumed ++ delivered out)
      {s with head := wrappingAdd w s.head dst.length, consumer := .idle} := by
  rw [given]
  have count : (consumed ++ dst).length = consumed.length + dst.length := List.length_append
  refine ⟨?_,next,inv.cells,?_,inv.producing,trivial⟩
  · rw [count]
    exact inv.toIndexed.advance _ (count ▸ next.length_le)
  · intro i x unread present
    exact inv.stored i x (by omega) present

theorem produceConsistent (fits : size < 2^w) (inv : Consistent w size published consumed s)
    (aligned : Aligned w size published.length) {s' : SpscRing α} {out : List (Event α)}
    (moved : Produces w size s out s') : Consistent w size (published ++ accepted out) consumed s' := by
  have index := produceIndexed fits inv.toIndexed moved
  rw [← List.length_append] at index
  have current := inv.offering
  cases moved with
  | full =>
    simp only [acceptedCons,Event.taken,acceptedNil,List.append_nil] at index ⊢
    exact ⟨index,inv.order,inv.cells,inv.stored,trivial,inv.consuming⟩
  | room =>
    rw [acceptedNil,List.append_nil] at index ⊢
    exact ⟨index,inv.order,inv.cells,inv.stored,trivial,inv.consuming⟩
  | write pc =>
    rw [pc] at current
    obtain ⟨rfl,free⟩ := current
    have target : s.tail % size = published.length % size := by
      rw [inv.tail]
      exact slotOfCount aligned
    rw [acceptedNil,List.append_nil] at index ⊢
    refine ⟨index,inv.order,by simpa using inv.cells,?_,?_,inv.consuming⟩
    · intro i x unread present
      have bound := (List.getElem?_eq_some_iff.mp present).1
      have other : published.length % size ≠ i % size := (slotsDiffer bound (by omega)).symm
      rw [target,List.getElem?_set_ne other]
      exact inv.stored i x unread present
    · have behind := inv.behind
      have bound : published.length % size < s.buf.length := by
        rw [inv.cells]
        exact Nat.mod_lt _ (by omega)
      change (s.buf.set (s.tail % size) _)[published.length % size]? = _
      rw [target,List.getElem?_set_self bound]
  | @publish value tail pc =>
    have written := inv.producing
    rw [pc] at written
    have grown : published <+: published ++ [value] := List.prefix_append _ _
    refine ⟨index,inv.order.trans grown,inv.cells,?_,trivial,consumingGrows inv.consuming grown⟩
    intro i x unread present
    rcases lookupSnoc present with old | ⟨rfl,rfl⟩
    · exact inv.stored i x unread old
    · exact written

theorem consumeConsistent (fits : size < 2^w) (inv : Consistent w size published consumed s)
    (aligned : Aligned w size published.length) {s' : SpscRing α} {out : List (Event α)}
    (moved : Consumes w size s out s') : Consistent w size published (consumed ++ delivered out) s' := by
  have index := consumeIndexed fits inv.toIndexed moved
  rw [← List.length_append] at index
  have current := inv.taking
  have front := inv.consuming
  cases moved with
  | none =>
    simp only [deliveredCons,Event.given,deliveredNil,List.append_nil] at index ⊢
    exact ⟨index,inv.order,inv.cells,inv.stored,inv.producing,trivial⟩
  | some pc other =>
    rw [deliveredNil,List.append_nil] at index ⊢
    exact ⟨index,inv.order,inv.cells,inv.stored,inv.producing,trivial⟩
  | read pc found =>
    rw [pc] at current
    have seen := inv.unread aligned (Nat.le_refl _) current.2
    rw [← inv.head,← current.1,found] at seen
    rw [deliveredNil,List.append_nil] at index ⊢
    exact ⟨index,inv.order,inv.cells,inv.stored,inv.producing,snocPrefix inv.order seen.symm⟩
  | readUnwritten pc absent =>
    rw [pc] at current
    have seen := inv.unread aligned (Nat.le_refl _) current.2
    rw [← inv.head,← current.1,absent,List.getElem?_eq_getElem current.2] at seen
    cases seen
  | leave pc =>
    rw [pc] at current front
    rw [current.1]
    exact inv.advance front rfl
  | few =>
    simp only [deliveredCons,Event.given,deliveredNil,List.append_nil] at index ⊢
    exact ⟨index,inv.order,inv.cells,inv.stored,inv.producing,trivial⟩
  | enough =>
    rw [deliveredNil,List.append_nil] at index ⊢
    exact ⟨index,inv.order,inv.cells,inv.stored,inv.producing,by simpa [Consuming] using inv.order⟩
  | @copy count head dst value pc more found =>
    rw [pc] at current front
    have seen := inv.unread aligned (Nat.le_add_right _ dst.length) (by have := current.2.2; omega)
    rw [current.1,inv.head,wrappingAddCount] at found
    rw [found,← List.length_append] at seen
    have next := snocPrefix front seen.symm
    rw [List.append_assoc] at next
    rw [deliveredNil,List.append_nil] at index ⊢
    exact ⟨index,inv.order,inv.cells,inv.stored,inv.producing,next⟩
  | @copyUnwritten count head dst pc more absent =>
    rw [pc] at current
    have bound : consumed.length + dst.length < published.length := by have := current.2.2; omega
    have seen := inv.unread aligned (Nat.le_add_right _ _) bound
    rw [current.1,inv.head,wrappingAddCount] at absent
    rw [absent,List.getElem?_eq_getElem bound] at seen
    cases seen
  | @leaveSlice count head dst pc done =>
    rw [pc] at current front
    obtain ⟨rfl,read,_⟩ := current
    have all : dst.length = count := by omega
    subst all
    exact inv.advance front (by simp)

theorem stepConsistent (fits : size < 2^w) (inv : Consistent w size published consumed s)
    (aligned : Aligned w size published.length) {action : Action α} {s' : SpscRing α} {out : List (Event α)}
    (ok : step w size s action = some (s',out)) :
    Consistent w size (published ++ accepted out) (consumed ++ delivered out) s' := by
  have index := stepIndexed fits inv.toIndexed ok
  rw [← List.length_append,← List.length_append] at index
  cases action with
  | produce =>
    have moved := produceMoves ok
    simpa [produceGivesNone moved] using produceConsistent fits inv aligned moved
  | consume =>
    have none_ := (readerFrame rfl ok).2.2.2
    simpa [none_] using consumeConsistent fits inv aligned (consumeMoves ok)
  | push value =>
    simp only [step] at ok
    split at ok <;> try contradiction
    cases Option.some.inj ok
    rw [acceptedNil,deliveredNil,List.append_nil,List.append_nil] at index ⊢
    exact ⟨index,inv.order,inv.cells,inv.stored,trivial,inv.consuming⟩
  | _ =>
    simp only [step] at ok
    split at ok <;> try contradiction
    cases Option.some.inj ok
    rw [acceptedNil,deliveredNil,List.append_nil,List.append_nil] at index ⊢
    exact ⟨index,inv.order,inv.cells,inv.stored,inv.producing,trivial⟩

theorem Consistent.after (fits : size < 2^w) (inv : Consistent w size published consumed s) {actions : List (Action α)}
    {s' : SpscRing α} {events : List (Event α)} (ok : run (step w size) s actions = some (s',events))
    (aligned : Aligned w size (published ++ accepted events).length) :
    Consistent w size (published ++ accepted events) (consumed ++ delivered events) s' := by
  refine runInvariant
    (P := fun s events => Aligned w size (published ++ accepted events).length →
      Consistent w size (published ++ accepted events) (consumed ++ delivered events) s)
    (fun _ => by simpa using inv) ?_ ok aligned
  intro s past action s' out held moved aligned
  rw [acceptedAppend,← List.append_assoc] at aligned
  have before := alignedFront aligned
  simpa using stepConsistent fits (held before) before moved

theorem runConsistent (fits : size < 2^w) {actions : List (Action α)} {s₀ s : SpscRing α} {events : List (Event α)}
    (made : new α size = .ok s₀) (ok : run (step w size) s₀ actions = some (s,events))
    (aligned : Aligned w size (accepted events).length) :
    Consistent w size (accepted events) (delivered events) s := by
  obtain ⟨_,rfl⟩ := newEmpty made
  exact (emptyConsistent w size).after fits ok aligned

theorem Consistent.refused (fits : size < 2^w) (inv : Consistent w size published consumed s) {value : α}
    (full : Caused w size s (.pushErr value)) : published.length = consumed.length + size := by
  obtain ⟨tail,pc,same⟩ := full
  have current := inv.offering
  rw [pc] at current
  rw [current,inv.held fits] at same
  have le := inv.order.length_le
  omega

theorem Consistent.drained (fits : size < 2^w) (inv : Consistent w size published consumed s)
    (done : Caused w size s .popNone) : consumed = published := by
  obtain ⟨head,pc,same⟩ := done
  have current := inv.taking
  rw [pc] at current
  have none_ := inv.held fits
  rw [same,current,inv.head] at none_
  have zero := wrappingSubCount (w := w) (Nat.le_refl consumed.length) (by have := Nat.two_pow_pos w; omega)
  have le := inv.order.length_le
  exact inv.order.eq_of_length (by omega)

end Kept
end Invariant

theorem fifoLinearizable {α : Type} {w size : Nat} (fits : size < 2^w) {s₀ s : SpscRing α} {actions : List (Action α)}
    {events : List (Event α)} (made : new α size = .ok s₀) (ok : run (step w size) s₀ actions = some (s,events))
    (few : (accepted events).length < 2^w ∨ size ∣ 2^w) :
    delivered events <+: accepted events ∧ (accepted events).length ≤ (delivered events).length + size ∧
    ∀ action s' out, step w size s action = some (s',out) →
      (∀ value, .pushErr value ∈ out → (accepted events).length = (delivered events).length + size) ∧
      (.popNone ∈ out → delivered events = accepted events) := by
  have inv := runConsistent fits made ok few
  refine ⟨inv.order,inv.room,?_⟩
  intro action s' out moved
  have caused := stepCaused moved
  exact ⟨fun value refused => inv.refused fits (caused _ refused),fun done => inv.drained fits (caused _ done)⟩

def overfull : List (Action Nat) :=
  [.push 7,.produce,.produce,.produce,.push 8,.produce,.produce,.produce,.push 9,.pop,.produce,.consume,.consume,.consume]

theorem fifoLinearizableAtTwo :
    ∃ s, run (step 2 2) (empty Nat 2) overfull = some (s,[.pushOk 7,.pushOk 8,.pushErr 9,.popSome 7]) ∧
      delivered [.pushOk 7,.pushOk 8,.pushErr 9,.popSome 7] <+:
        accepted [.pushOk 7,.pushOk 8,.pushErr 9,.popSome 7] := by
  have fits : 2 < 2^2 := by decide
  have aligned : 2 ∣ 2^2 := by decide
  have ran : run (step 2 2) (empty Nat 2) overfull =
      some (⟨1,2,[some 7,some 8],.idle,.idle⟩,[.pushOk 7,.pushOk 8,.pushErr 9,.popSome 7]) := rfl
  exact ⟨_,ran,(fifoLinearizable fits rfl ran (.inr aligned)).1⟩

end Riaps.Spsc
