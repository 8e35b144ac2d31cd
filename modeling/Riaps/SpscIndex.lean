import Riaps.Spsc

/-! What the two indices alone say. Whatever the slots hold, head and tail are the
numbers of values taken and published, modulo the width of an index: this needs
no relation between the ring size and that width. An observer that loads tail and
then head sees a count out of range exactly when the consumer overtook its tail. -/
namespace Riaps.Spsc
open Library.Checks Library.Wrapping Library.Machine

section Indices
variable {α : Type}

def Offering (size published consumed : Nat) (s : SpscRing α) : Producer α → Prop
  | .idle => True
  | .loadedTail _ tail => tail = s.tail
  | .writing _ tail => tail = s.tail ∧ published < consumed + size
  | .publishing _ tail => tail = s.tail ∧ published < consumed + size

def Taking (published consumed : Nat) (s : SpscRing α) : Consumer α → Prop
  | .idle => True
  | .loadedHead head => head = s.head
  | .reading head => head = s.head ∧ consumed < published
  | .leaving head _ => head = s.head ∧ consumed < published
  | .sliceLoadedHead _ head => head = s.head
  | .sliceReading count head dst => head = s.head ∧ dst.length ≤ count ∧ consumed + count ≤ published
  | .undefined => True

structure Indexed (w size published consumed : Nat) (s : SpscRing α) : Prop where
  behind : consumed ≤ published
  room : published ≤ consumed + size
  head : s.head = consumed % 2^w
  tail : s.tail = published % 2^w
  offering : Offering size published consumed s s.producer
  taking : Taking published consumed s s.consumer

theorem emptyIndexed (w size : Nat) : Indexed w size 0 0 (empty α size) :=
  ⟨Nat.le_refl 0,Nat.zero_le _,(Nat.zero_mod _).symm,(Nat.zero_mod _).symm,trivial,trivial⟩

section Kept
variable {w size published consumed : Nat} {s : SpscRing α}

theorem Indexed.held (inv : Indexed w size published consumed s) (fits : size < 2^w) :
    wrappingSub w s.tail s.head = published - consumed := by
  have room := inv.room
  rw [inv.tail,inv.head]
  exact wrappingSubCount inv.behind (by omega)

theorem takingGrows {pc : Consumer α} (waiting : Taking published consumed s pc) : Taking (published + 1) consumed s pc := by
  cases pc with
  | reading head => exact ⟨waiting.1,Nat.lt_succ_of_lt waiting.2⟩
  | leaving head value => exact ⟨waiting.1,Nat.lt_succ_of_lt waiting.2⟩
  | sliceReading count head dst => exact ⟨waiting.1,waiting.2.1,Nat.le_succ_of_le waiting.2.2⟩
  | _ => exact waiting

theorem offeringGrows {more : Nat} {pc : Producer α} (waiting : Offering size published consumed s pc) :
    Offering size published (consumed + more) s pc := by
  cases pc with
  | writing value tail => exact ⟨waiting.1,by have := waiting.2; omega⟩
  | publishing value tail => exact ⟨waiting.1,by have := waiting.2; omega⟩
  | _ => exact waiting

theorem Indexed.advance (inv : Indexed w size published consumed s) (count : Nat) (some_ : consumed + count ≤ published) :
    Indexed w size published (consumed + count) {s with head := wrappingAdd w s.head count, consumer := .idle} := by
  have room := inv.room
  refine ⟨some_,by omega,?_,inv.tail,offeringGrows inv.offering,trivial⟩
  change wrappingAdd w s.head count = _
  rw [inv.head,wrappingAddCount]

theorem produceIndexed (fits : size < 2^w) (inv : Indexed w size published consumed s) {s' : SpscRing α}
    {out : List (Event α)} (moved : Produces w size s out s') :
    Indexed w size (published + (accepted out).length) consumed s' := by
  have current := inv.offering
  have behind := inv.behind
  have room := inv.room
  cases moved with
  | full => exact {inv with offering := trivial}
  | room pc more =>
    rw [pc] at current
    rw [current,inv.held fits] at more
    have free : published < consumed + size := by omega
    exact {inv with offering := ⟨current,free⟩}
  | write pc =>
    rw [pc] at current
    exact {inv with offering := current}
  | publish pc =>
    rw [pc] at current
    obtain ⟨rfl,free⟩ := current
    change Indexed w size (published + 1) consumed _
    refine ⟨by omega,by omega,inv.head,?_,trivial,takingGrows inv.taking⟩
    change wrappingAdd w s.tail 1 = _
    rw [inv.tail,wrappingAddCount]

theorem consumeIndexed (fits : size < 2^w) (inv : Indexed w size published consumed s) {s' : SpscRing α}
    {out : List (Event α)} (moved : Consumes w size s out s') :
    Indexed w size published (consumed + (delivered out).length) s' := by
  have current := inv.taking
  have behind := inv.behind
  cases moved with
  | none => exact {inv with taking := trivial}
  | some pc other =>
    rw [pc] at current
    have some_ : consumed < published := by
      apply Nat.lt_of_le_of_ne behind
      intro same
      exact other (by rw [current,inv.tail,inv.head,same])
    exact {inv with taking := ⟨current,some_⟩}
  | read pc =>
    rw [pc] at current
    exact {inv with taking := current}
  | readUnwritten => exact {inv with taking := trivial}
  | leave pc =>
    rw [pc] at current
    obtain ⟨rfl,some_⟩ := current
    exact inv.advance 1 some_
  | few => exact {inv with taking := trivial}
  | @enough count head pc all =>
    rw [pc] at current
    rw [current,inv.held fits] at all
    have enough : consumed + count ≤ published := by omega
    exact {inv with taking := ⟨current,Nat.zero_le _,enough⟩}
  | copy pc more =>
    rw [pc] at current
    exact {inv with taking := ⟨current.1,by simpa using Nat.succ_le_of_lt more,current.2.2⟩}
  | copyUnwritten => exact {inv with taking := trivial}
  | @leaveSlice count head dst pc done =>
    rw [pc] at current
    obtain ⟨rfl,read,enough⟩ := current
    have all : dst.length = count := by omega
    subst all
    have given : (delivered [Event.sliceOk dst]).length = dst.length := by simp
    rw [given]
    exact inv.advance _ enough

theorem stepIndexed (fits : size < 2^w) (inv : Indexed w size published consumed s) {action : Action α}
    {s' : SpscRing α} {out : List (Event α)} (ok : step w size s action = some (s',out)) :
    Indexed w size (published + (accepted out).length) (consumed + (delivered out).length) s' := by
  cases action with
  | push value =>
    simp only [step] at ok
    split at ok <;> try contradiction
    cases Option.some.inj ok
    exact {inv with offering := rfl}
  | produce =>
    have moved := produceMoves ok
    rw [produceGivesNone moved]
    exact produceIndexed fits inv moved
  | pop =>
    simp only [step] at ok
    split at ok <;> try contradiction
    cases Option.some.inj ok
    exact {inv with taking := rfl}
  | popSliceCopy count =>
    simp only [step] at ok
    split at ok <;> try contradiction
    cases Option.some.inj ok
    exact {inv with taking := rfl}
  | consume =>
    have none_ := (readerFrame rfl ok).2.2.2
    rw [none_]
    exact consumeIndexed fits inv (consumeMoves ok)

theorem runIndexed (fits : size < 2^w) {actions : List (Action α)} {s₀ s : SpscRing α} {events : List (Event α)}
    (made : new α size = .ok s₀) (ok : run (step w size) s₀ actions = some (s,events)) :
    Indexed w size (accepted events).length (delivered events).length s := by
  obtain ⟨_,rfl⟩ := newEmpty made
  refine runInvariant
    (P := fun s events => Indexed w size (accepted events).length (delivered events).length s)
    (emptyIndexed w size) ?_ ok
  intro s past action s' out inv moved
  simpa using stepIndexed fits inv moved

end Kept

/-- Slots that were written once stay written: a reader, which is behind, never meets an empty one. -/
structure Stocked (w size published consumed : Nat) (s : SpscRing α) : Prop extends Indexed w size published consumed s where
  cells : s.buf.length = size
  filled : ∀ i, i < published → i < size → (s.buf[i]?).join.isSome = true
  writing : ∀ value tail, s.producer = .publishing value tail → (s.buf[tail % size]?).join.isSome = true
  known : s.consumer ≠ .undefined

theorem emptyStocked (w size : Nat) : Stocked w size 0 0 (empty α size) :=
  ⟨emptyIndexed w size,List.length_replicate,fun i low => absurd low (Nat.not_lt_zero i),by simp [empty],
    by simp [empty]⟩

section Stock
variable {w size published consumed : Nat} {s s' : SpscRing α} {out : List (Event α)}

theorem Stocked.found (inv : Stocked w size published consumed s) (fits : size < 2^w) {i : Nat} (low : consumed ≤ i)
    (high : i < published) : slot size s (i % 2^w) ≠ none := by
  have room := inv.room
  have inside : i % 2^w % size < size := Nat.mod_lt _ (by omega)
  have early : i % 2^w % size < published := by
    rcases Nat.lt_or_ge i size with first | lapped
    · have small : i % 2^w = i := Nat.mod_eq_of_lt (by omega)
      rwa [small,Nat.mod_eq_of_lt first]
    · omega
  exact Option.isSome_iff_ne_none.mp (inv.filled _ early inside)

theorem produceStocked (fits : size < 2^w) (inv : Stocked w size published consumed s) (moved : Produces w size s out s') :
    Stocked w size (published + (accepted out).length) consumed s' := by
  have index := produceIndexed fits inv.toIndexed moved
  have current := inv.offering
  cases moved with
  | full => exact ⟨index,inv.cells,inv.filled,by simp,inv.known⟩
  | room => exact ⟨index,inv.cells,inv.filled,by simp,inv.known⟩
  | @write value tail pc =>
    rw [pc] at current
    have target : tail % size < s.buf.length := by
      rw [inv.cells]
      exact Nat.mod_lt _ (by have := current.2; have := inv.behind; omega)
    refine ⟨index,by simpa using inv.cells,?_,?_,inv.known⟩
    · intro i early inside
      by_cases same : tail % size = i
      · rw [← same,List.getElem?_set_self target]
        rfl
      · rw [List.getElem?_set_ne same]
        exact inv.filled i early inside
    · intro value' tail' now
      cases now
      change ((s.buf.set (tail % size) (some value))[tail % size]?).join.isSome = true
      rw [List.getElem?_set_self target]
      rfl
  | @publish value tail pc =>
    refine ⟨index,inv.cells,?_,by simp,inv.known⟩
    rw [pc] at current
    intro i early inside
    rcases Nat.lt_succ_iff_lt_or_eq.mp (show i < published + 1 from early) with old | rfl
    · exact inv.filled i old inside
    · have here := inv.writing value tail pc
      have small : i % 2^w = i := Nat.mod_eq_of_lt (by omega)
      rwa [current.1,inv.tail,small,Nat.mod_eq_of_lt inside] at here

theorem consumeStocked (fits : size < 2^w) (inv : Stocked w size published consumed s) (moved : Consumes w size s out s') :
    Stocked w size published (consumed + (delivered out).length) s' := by
  have index := consumeIndexed fits inv.toIndexed moved
  have current := inv.taking
  cases moved with
  | readUnwritten pc absent =>
    rw [pc] at current
    rw [current.1,inv.head] at absent
    exact absurd absent (inv.found fits (Nat.le_refl _) current.2)
  | copyUnwritten pc more absent =>
    rw [pc] at current
    rw [current.1,inv.head,wrappingAddCount] at absent
    exact absurd absent (inv.found fits (Nat.le_add_right _ _) (by have := current.2.2; omega))
  | _ => exact ⟨index,inv.cells,inv.filled,inv.writing,by simp⟩

theorem stepStocked (fits : size < 2^w) (inv : Stocked w size published consumed s) {action : Action α}
    (ok : step w size s action = some (s',out)) :
    Stocked w size (published + (accepted out).length) (consumed + (delivered out).length) s' := by
  have index := stepIndexed fits inv.toIndexed ok
  cases action with
  | push value =>
    simp only [step] at ok
    split at ok <;> try contradiction
    cases Option.some.inj ok
    exact ⟨index,inv.cells,inv.filled,by simp,inv.known⟩
  | produce =>
    have moved := produceMoves ok
    rw [produceGivesNone moved]
    exact produceStocked fits inv moved
  | consume =>
    rw [(readerFrame rfl ok).2.2.2]
    exact consumeStocked fits inv (consumeMoves ok)
  | _ =>
    simp only [step] at ok
    split at ok <;> try contradiction
    cases Option.some.inj ok
    exact ⟨index,inv.cells,inv.filled,inv.writing,by simp⟩

theorem runStocked (fits : size < 2^w) {actions : List (Action α)} {s₀ : SpscRing α} {events : List (Event α)}
    (made : new α size = .ok s₀) (ok : run (step w size) s₀ actions = some (s,events)) :
    Stocked w size (accepted events).length (delivered events).length s := by
  obtain ⟨_,rfl⟩ := newEmpty made
  refine runInvariant
    (P := fun s events => Stocked w size (accepted events).length (delivered events).length s)
    (emptyStocked w size) ?_ ok
  intro s past action s' out inv moved
  simpa using stepStocked fits inv moved

end Stock

def len (w tail head : Nat) : Nat := wrappingSub w tail head

/- How many values were taken out after the load of tail beyond those the ring held at that load. -/
def overtaken (past out : List (Event α)) : Nat :=
  (delivered out).length - ((accepted past).length - (delivered past).length)

section Observer
variable {w size : Nat} {s₀ s₁ s₂ : SpscRing α} {before between : List (Action α)} {past out : List (Event α)}

theorem observedLen (fits : size < 2^w) (made : new α size = .ok s₀)
    (reached : run (step w size) s₀ before = some (s₁,past)) (moved : run (step w size) s₁ between = some (s₂,out)) :
    len w s₁.tail s₂.head ≤ size ↔ overtaken past out % 2^w = 0 ∨ 2^w ≤ overtaken past out % 2^w + size := by
  have first := runIndexed fits made reached
  have last := runIndexed fits made (runThen reached moved)
  have taken := first.behind
  have room := first.room
  have head := last.head
  rw [deliveredAppend,List.length_append] at head
  rw [len,first.tail,head]
  rcases Nat.le_total (delivered out).length ((accepted past).length - (delivered past).length) with behind | ahead
  · have none_ : overtaken past out = 0 := Nat.sub_eq_zero_of_le behind
    rw [wrappingSubCount (by omega) (by omega),none_,Nat.zero_mod]
    omega
  · have more : (delivered past).length + (delivered out).length = (accepted past).length + overtaken past out := by
      unfold overtaken
      omega
    rw [more,wrappingSubPast]
    exact wrappedSmall _

theorem lenExact (fits : size < 2^w) (made : new α size = .ok s₀)
    (reached : run (step w size) s₀ before = some (s₁,past)) (moved : run (step w size) s₁ between = some (s₂,out)) :
    (len w s₁.tail s₂.head ≤ size ∧ capacityLeft w size s₁.tail s₂.head + len w s₁.tail s₂.head = size) ↔
      overtaken past out % 2^w = 0 ∨ 2^w ≤ overtaken past out % 2^w + size := by
  rw [← observedLen fits made reached moved]
  constructor
  · exact fun both => both.1
  · intro small
    refine ⟨small,?_⟩
    rw [capacityLeft,← len,Nat.min_eq_left small,Nat.sub_add_cancel small]

/- The calling thread is one of the two ends and takes no step of its own between the loads. -/
theorem lenAtEnds (fits : size < 2^w) (made : new α size = .ok s₀)
    (reached : run (step w size) s₀ before = some (s₁,past)) (moved : run (step w size) s₁ between = some (s₂,out))
    (ends : accepted out = [] ∨ delivered out = []) : len w s₁.tail s₂.head ≤ size := by
  have none_ : overtaken past out = 0 := by
    apply Nat.sub_eq_zero_of_le
    rcases ends with producer | consumer
    · have behind := (runIndexed fits made (runThen reached moved)).behind
      rw [acceptedAppend,deliveredAppend,producer,List.append_nil,List.length_append] at behind
      omega
    · rw [consumer]
      exact Nat.zero_le _
  rw [observedLen fits made reached moved,none_]
  exact .inl (Nat.zero_mod _)

end Observer
end Indices

def pushOne : List (Action Nat) := [.push 7,.produce,.produce,.produce]

def popOne : List (Action Nat) := [.pop,.consume,.consume,.consume]

theorem lenExactAtOne : ∃ s₁ past s₂ out, run (step 64 1) (empty Nat 1) pushOne = some (s₁,past) ∧
    run (step 64 1) s₁ popOne = some (s₂,out) ∧ len 64 s₁.tail s₂.head ≤ 1 ∧
    capacityLeft 64 1 s₁.tail s₂.head + len 64 s₁.tail s₂.head = 1 := by
  have tested : (run (step 64 1) (empty Nat 1) pushOne).any (fun p => (run (step 64 1) p.1 popOne).any (fun q =>
      decide (overtaken p.2 q.2 = 0))) = true := by decide +kernel
  obtain ⟨⟨s₁,past⟩,reached,tested⟩ := (Option.any_eq_true _ _).mp tested
  obtain ⟨⟨s₂,out⟩,moved,tested⟩ := (Option.any_eq_true _ _).mp tested
  have none_ : overtaken past out = 0 := of_decide_eq_true tested
  have fits : 1 < 2^64 := by decide
  exact ⟨s₁,past,s₂,out,reached,moved,(lenExact fits rfl reached moved).mpr (.inl (by rw [none_]; rfl))⟩

/- A monitor loads tail from an empty ring of one slot; one value goes in and out
before it loads head. -/
theorem lenWrapsForMonitor : ∃ s₀ s₁ past s₂ out, new Nat 1 = .ok s₀ ∧ run (step 64 1) s₀ [] = some (s₁,past) ∧
    run (step 64 1) s₁ (pushOne ++ popOne) = some (s₂,out) ∧
    ¬ (len 64 s₁.tail s₂.head ≤ 1 ∧ capacityLeft 64 1 s₁.tail s₂.head + len 64 s₁.tail s₂.head = 1) := by
  have tested : (run (step 64 1) (empty Nat 1) (pushOne ++ popOne)).any (fun q =>
      decide (len 64 0 q.1.head = 2^64 - 1)) = true := by decide +kernel
  obtain ⟨⟨s₂,out⟩,moved,tested⟩ := (Option.any_eq_true _ _).mp tested
  have huge : len 64 0 s₂.head = 2^64 - 1 := of_decide_eq_true tested
  refine ⟨empty Nat 1,empty Nat 1,[],s₂,out,rfl,rfl,moved,?_⟩
  intro small
  change len 64 0 s₂.head ≤ 1 ∧ _ at small
  rw [huge] at small
  exact absurd small.1 (by decide)

end Riaps.Spsc
