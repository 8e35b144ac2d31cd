import Riaps.Library.Progress
import Riaps.SpscFifo

/-! No call on the ring waits for the other side. A call in progress can always make its
next access, whatever the other party did or left undone, and `left` bounds the accesses
it still has to make. A loop that pops until it finds the ring empty has four accesses to
make for each value the ring holds: only an accepted push makes it longer. -/
namespace Riaps.Spsc
open Library.Checks Library.Wrapping Library.Machine Library.Progress

section Calls
variable {α : Type}

def Producer.left : Producer α → Nat
  | .idle => 0
  | .loadedTail _ _ => 3
  | .writing _ _ => 2
  | .publishing _ _ => 1

def Consumer.left : Consumer α → Nat
  | .idle => 0
  | .loadedHead _ => 3
  | .reading _ => 2
  | .leaving _ _ => 1
  | .sliceLoadedHead count _ => count + 2
  | .sliceReading count _ dst => count - dst.length + 1
  | .undefined => 0

def Action.pushes : Action α → Bool
  | .push _ => true
  | _ => false

def Action.produces : Action α → Bool
  | .produce => true
  | _ => false

def Action.consumes : Action α → Bool
  | .consume => true
  | _ => false

/- What a call of the consumer may still need after its first load. -/
def Action.asks : Action α → Nat
  | .pop => 3
  | .popSliceCopy count => count + 2
  | _ => 0

variable {w size : Nat} {s s' : SpscRing α} {action : Action α} {out : List (Event α)}

theorem producerPays (ok : step w size s action = some (s',out)) :
    (if action.produces then 1 else 0) + s'.producer.left ≤ s.producer.left + if action.pushes then 3 else 0 := by
  cases action with
  | push value =>
    simp only [step] at ok
    split at ok <;> try contradiction
    cases Option.some.inj ok
    simp [Action.produces,Action.pushes,Producer.left]
  | produce =>
    cases produceMoves ok with
    | full pc held => simp [Action.produces,Action.pushes,Producer.left,pc]
    | room pc held => simp [Action.produces,Action.pushes,Producer.left,pc]
    | write pc => simp [Action.produces,Action.pushes,Producer.left,pc]
    | publish pc => simp [Action.produces,Action.pushes,Producer.left,pc]
  | pop => simp [(readerFrame rfl ok).1,Action.produces]
  | popSliceCopy count => simp [(readerFrame rfl ok).1,Action.produces]
  | consume => simp [(readerFrame rfl ok).1,Action.produces]

theorem consumerPays (ok : step w size s action = some (s',out)) :
    (if action.consumes then 1 else 0) + s'.consumer.left ≤ s.consumer.left + action.asks := by
  cases action with
  | push value => simp [(writerFrame rfl ok).1,Action.consumes]
  | produce => simp [(writerFrame rfl ok).1,Action.consumes]
  | pop =>
    simp only [step] at ok
    split at ok <;> try contradiction
    cases Option.some.inj ok
    simp [Action.consumes,Action.asks,Consumer.left]
  | popSliceCopy count =>
    simp only [step] at ok
    split at ok <;> try contradiction
    cases Option.some.inj ok
    simp [Action.consumes,Action.asks,Consumer.left]
  | consume =>
    simp only [Action.consumes,Action.asks,if_true]
    cases consumeMoves ok with
    | none pc same => simp [Consumer.left,pc]
    | some pc other => simp [Consumer.left,pc]
    | read pc found => simp [Consumer.left,pc]
    | readUnwritten pc absent => simp [Consumer.left,pc]
    | leave pc => simp [Consumer.left,pc]
    | few pc short =>
      simp only [Consumer.left,pc]
      omega
    | enough pc all =>
      simp only [Consumer.left,pc,List.length_nil]
      omega
    | copy pc more found =>
      simp only [Consumer.left,pc,List.length_append,List.length_singleton]
      omega
    | copyUnwritten pc more absent => simp [Consumer.left,pc]
    | leaveSlice pc done => simp [Consumer.left,pc]

theorem producerMoves (w size : Nat) (busy : s.producer ≠ .idle) : ∃ r, step w size s .produce = some r := by
  simp only [step,produce]
  cases pc : s.producer with
  | idle => exact absurd pc busy
  | loadedTail value tail =>
    by_cases full : wrappingSub w tail s.head = size
    · exact ⟨_,if_pos full⟩
    · exact ⟨_,if_neg full⟩
  | writing value tail => exact ⟨_,rfl⟩
  | publishing value tail => exact ⟨_,rfl⟩

theorem consumerMoves (w size : Nat) (busy : s.consumer ≠ .idle) (defined_ : s.consumer ≠ .undefined) :
    ∃ r, step w size s .consume = some r := by
  simp only [step,consume]
  cases pc : s.consumer with
  | idle => exact absurd pc busy
  | undefined => exact absurd pc defined_
  | leaving head value => exact ⟨_,rfl⟩
  | _ =>
    simp only
    split
    · first | exact ⟨_,rfl⟩ | (split <;> exact ⟨_,rfl⟩)
    · exact ⟨_,rfl⟩

end Calls

section Loops
variable {α : Type}

def Consumer.toDrain (held : Nat) : Consumer α → Nat
  | .idle => 4 * held + 2
  | .loadedHead _ => 4 * held + 1
  | .reading _ => 4 * held
  | .leaving _ _ => 4 * held - 1
  | _ => 0

def toDrain (w : Nat) (s : SpscRing α) : Nat := s.consumer.toDrain (wrappingSub w s.tail s.head)

variable {w size published consumed : Nat} {s s' : SpscRing α} {out : List (Event α)}

theorem drainMoves (size : Nat) (busy : 0 < toDrain w s) : ∃ r, step w size s (nextAccess s) = some r := by
  unfold nextAccess
  cases pc : s.consumer with
  | idle => simp [step,pc]
  | undefined => simp [toDrain,Consumer.toDrain,pc] at busy
  | _ => exact consumerMoves w size (by simp [pc]) (by simp [pc])

theorem drainGrows (fits : size < 2^w) (inv : Indexed w size published consumed s) {action : Action α}
    (writer : action.isReader = false) (ok : step w size s action = some (s',out)) :
    toDrain w s ≤ toDrain w s' ∧ toDrain w s' ≤ toDrain w s + 4 * (accepted out).length := by
  have inv' := stepIndexed fits inv ok
  obtain ⟨same,none_⟩ := writerFrame writer ok
  have behind := inv.behind
  rw [none_,List.length_nil,Nat.add_zero] at inv'
  unfold toDrain
  rw [same,inv.held fits,inv'.held fits]
  cases s.consumer <;> simp only [Consumer.toDrain] <;> omega

theorem drainPays (fits : size < 2^w) (inv : Indexed w size published consumed s) (busy : 0 < toDrain w s)
    (ok : step w size s (nextAccess s) = some (s',out)) (defined_ : s'.consumer ≠ .undefined) :
    (out = [.popNone] ∧ s'.consumer = .idle) ∨ .popNone ∉ out ∧ 1 + toDrain w s' ≤ toDrain w s ∧ 0 < toDrain w s' := by
  have inv' := stepIndexed fits inv ok
  have held := inv.held fits
  have held' := inv'.held fits
  rw [(readerFrame (nextReads s) ok).2.2.2,List.length_nil,Nat.add_zero] at held'
  have behind := inv.behind
  have behind' := inv'.behind
  unfold nextAccess at ok
  unfold toDrain at busy ⊢
  rw [held] at busy ⊢
  rw [held']
  split at ok
  · rename_i pc
    simp only [step,pc] at ok
    cases Option.some.inj ok
    simp [pc,Consumer.toDrain]
    omega
  · cases consumeMoves ok with
    | none pc same => exact .inl ⟨rfl,rfl⟩
    | some pc other =>
      have unread : consumed < published := inv'.taking.2
      simp [pc,Consumer.toDrain]
      omega
    | read pc found =>
      simp [pc,Consumer.toDrain] at busy ⊢
      omega
    | leave pc =>
      simp [pc,Consumer.toDrain] at busy ⊢
      omega
    | readUnwritten pc absent => exact absurd rfl defined_
    | few pc short => simp [pc,Consumer.toDrain] at busy
    | enough pc all => simp [pc,Consumer.toDrain] at busy
    | copy pc more found => simp [pc,Consumer.toDrain] at busy
    | copyUnwritten pc more absent => simp [pc,Consumer.toDrain] at busy
    | leaveSlice pc done => simp [pc,Consumer.toDrain] at busy

/- One step of a machine around the ring, and what it does to the loop of its consumer. -/
inductive LoopTurn (w size : Nat) (s s' : SpscRing α) (busy busy' : Bool) (out : List (Event α)) : Bool → Bool → Prop where
  | still (ring : s' = s) (none_ : out = []) (loop : busy' = busy) : LoopTurn w size s s' busy busy' out false false
  | write {action} (writer : action.isReader = false) (moved : step w size s action = some (s',out)) (loop : busy' = busy) :
      LoopTurn w size s s' busy busy' out false false
  | enter (moved : step w size s .pop = some (s',out)) : LoopTurn w size s s' busy busy' out true false
  | next (looping : busy = true) (moved : step w size s (nextAccess s) = some (s',out))
      (loop : busy' = true ↔ .popNone ∉ out) : LoopTurn w size s s' busy busy' out false true

def loopLeft (w : Nat) (busy : Bool) (s : SpscRing α) : Nat := if busy then toDrain w s else 0

theorem turnStocked {busy busy' enters own : Bool} (fits : size < 2^w) (inv : Stocked w size published consumed s)
    (turn : LoopTurn w size s s' busy busy' out enters own) :
    Stocked w size (published + (accepted out).length) (consumed + (delivered out).length) s' := by
  cases turn with
  | still ring none_ same =>
    rw [ring,none_]
    exact inv
  | write writer moved same => exact stepStocked fits inv moved
  | enter moved => exact stepStocked fits inv moved
  | next looping moved same => exact stepStocked fits inv moved

theorem turnLoops {busy busy' enters own : Bool} (fits : size < 2^w) (inv : Indexed w size published consumed s)
    (loop : busy = true → 0 < toDrain w s) (turn : LoopTurn w size s s' busy busy' out enters own)
    (defined_ : s'.consumer ≠ .undefined) (looping : busy' = true) : 0 < toDrain w s' := by
  cases turn with
  | still ring none_ same =>
    rw [ring]
    exact loop (same ▸ looping)
  | write writer moved same => exact Nat.lt_of_lt_of_le (loop (same ▸ looping)) (drainGrows fits inv writer moved).1
  | enter moved =>
    simp only [step] at moved
    split at moved <;> try contradiction
    cases Option.some.inj moved
    simp [toDrain,Consumer.toDrain]
  | next before moved same =>
    rcases drainPays fits inv (loop before) moved defined_ with ⟨rfl,_⟩ | ⟨_,_,more⟩
    · exact absurd (List.mem_singleton.mpr rfl) (same.mp looping)
    · exact more

theorem turnPays {busy busy' own : Bool} (fits : size < 2^w) (inv : Indexed w size published consumed s)
    (loop : busy = true → 0 < toDrain w s) (turn : LoopTurn w size s s' busy busy' out false own)
    (defined_ : s'.consumer ≠ .undefined) :
    (if own then 1 else 0) + loopLeft w busy' s' ≤ loopLeft w busy s + 4 * (accepted out).length := by
  unfold loopLeft
  cases turn with
  | still ring none_ same => simp [ring,same]
  | write writer moved same =>
    have grown := (drainGrows fits inv writer moved).2
    rw [same]
    cases busy with
    | false => simp
    | true => simpa using grown
  | next before moved same =>
    have some_ := loop before
    rw [before]
    rcases drainPays fits inv some_ moved defined_ with ⟨rfl,_⟩ | ⟨more,less,_⟩
    · have done : ¬busy' = true := by simp [same]
      rw [if_neg done]
      simp
      omega
    · rw [if_pos (same.mpr more)]
      simp
      omega

end Loops

theorem callsReturn {α : Type} {w size : Nat} (fits : size < 2^w) {s₀ s s' : SpscRing α} {before after : List (Action α)}
    {past out : List (Event α)} (made : new α size = .ok s₀) (reached : run (step w size) s₀ before = some (s,past))
    (continued : run (step w size) s after = some (s',out)) :
    after.countP Action.produces + s'.producer.left ≤ s.producer.left + 3 * after.countP Action.pushes ∧
    after.countP Action.consumes + s'.consumer.left ≤ s.consumer.left + (after.map Action.asks).sum ∧
    (s'.producer ≠ .idle → ∃ r, step w size s' .produce = some r) ∧
    (s'.consumer ≠ .idle → ∃ r, step w size s' .consume = some r) := by
  have inv := runStocked fits made (runThen reached continued)
  have pushes := runPays (fun s => s.producer.left) (fun _ _ _ _ moved => producerPays moved) continued
  have pops := runPays (fun s => s.consumer.left) (fun _ _ _ _ moved => consumerPays moved) continued
  rw [totalCount continued,totalCount continued,Nat.one_mul] at pushes
  rw [totalCount continued,totalInputs continued,Nat.one_mul] at pops
  exact ⟨pushes,pops,producerMoves w size,fun busy => consumerMoves w size busy inv.known⟩

def halfCopied : List (Action Nat) := [.popSliceCopy 2,.push 9,.consume,.produce,.consume]

theorem callsReturnBatch :
    ∃ s s', run (step 2 2) (empty Nat 2) (overfull.take 8) = some (s,[.pushOk 7,.pushOk 8]) ∧
      run (step 2 2) s halfCopied = some (s',[.pushErr 9]) ∧ s'.consumer = .sliceReading 2 0 [7] ∧
      halfCopied.countP Action.consumes + 2 ≤ 0 + 4 ∧ ∃ r, step 2 2 s' .consume = some r := by
  have fits : 2 < 2^2 := by decide
  have first : run (step 2 2) (empty Nat 2) (overfull.take 8) =
      some (⟨0,2,[some 7,some 8],.idle,.idle⟩,[.pushOk 7,.pushOk 8]) := rfl
  have second : run (step 2 2) ⟨0,2,[some 7,some 8],.idle,.idle⟩ halfCopied =
      some (⟨0,2,[some 7,some 8],.idle,.sliceReading 2 0 [7]⟩,[.pushErr 9]) := rfl
  have bound := callsReturn fits rfl first second
  exact ⟨_,_,first,second,rfl,bound.2.1,bound.2.2.2 (by decide)⟩

end Riaps.Spsc
