import Riaps.SpscFifo

/-! What happens when the indices run over. Indices wrap at the width of a machine
word and slots at the size of the ring, and the two wraps agree only when the
size divides the range of an index. Otherwise the first indices after the overrun
fall on slots that are still in use, and a run that gets there loses a value. -/
namespace Riaps.Spsc
open Library.Checks Library.Wrapping Library.Machine

def InOrder (w size : Nat) : Prop :=
  ∀ (α : Type) (s₀ s : SpscRing α) (actions : List (Action α)) (events : List (Event α)), new α size = .ok s₀ →
    run (step w size) s₀ actions = some (s,events) → delivered events ++ contents w size s = accepted events

def SlotsApart (w size : Nat) : Prop :=
  ∀ head tail, head < 2^w → tail < 2^w → wrappingSub w tail head ≤ size →
    (∀ i j, i < j → j < wrappingSub w tail head → wrappingAdd w head i % size ≠ wrappingAdd w head j % size) ∧
    (wrappingSub w tail head < size → ∀ i, i < wrappingSub w tail head → wrappingAdd w head i % size ≠ tail % size)

section Static
variable {w size : Nat}

theorem dividedApart (divides : size ∣ 2^w) : SlotsApart w size := by
  intro head tail low high held
  have slots : ∀ i, wrappingAdd w head i % size = (head + i) % size := fun i => Nat.mod_mod_of_dvd _ divides
  refine ⟨?_,?_⟩
  · intro i j less inside
    rw [slots,slots]
    exact slotsDiffer (by omega) (by omega)
  · intro room i inside
    have back : tail % size = (head + wrappingSub w tail head) % size := by
      rw [← slots,wrappingAddSub low.le high]
    rw [slots,back]
    exact slotsDiffer (by omega) (by omega)

/- The last index at which a lap of the ring begins, and the indices left from there to the overrun. -/
theorem leftover (positive : 0 < size) (fits : size < 2^w) (indivisible : ¬ size ∣ 2^w) :
    ∃ n r, 0 < r ∧ r < size ∧ n + r = 2^w ∧ n % size = 0 ∧ wrappingSub w 0 n = r := by
  have some_ : 0 < 2^w % size := Nat.pos_of_ne_zero (fun zero => indivisible (Nat.dvd_of_mod_eq_zero zero))
  have less : 2^w % size < size := Nat.mod_lt _ positive
  refine ⟨2^w - 2^w % size,2^w % size,some_,less,Nat.sub_add_cancel (Nat.mod_le _ _),?_,?_⟩
  · exact Nat.mod_eq_zero_of_dvd (Nat.dvd_sub_mod _)
  · rw [wrappingSub,Nat.zero_add,show 2^w - (2^w - 2^w % size) = 2^w % size by omega,Nat.mod_eq_of_lt (by omega)]

theorem leftoverMeets (positive : 0 < size) (fits : size < 2^w) (indivisible : ¬ size ∣ 2^w) : ¬ SlotsApart w size := by
  intro apart
  obtain ⟨n,r,some_,less,sum,zero,held⟩ := leftover positive fits indivisible
  have both := (apart n 0 (by omega) (by omega) (by omega)).2 (by omega) 0 (by omega)
  apply both
  rw [wrappingAdd,Nat.add_zero,Nat.mod_eq_of_lt (show n < 2^w by omega),zero,Nat.zero_mod]

end Static

def pushWhole {α : Type} (value : α) : List (Action α) := [.push value,.produce,.produce,.produce]

def popWhole (α : Type) : List (Action α) := [.pop,.consume,.consume,.consume]

section Overrun
variable {α : Type} {w size : Nat}

theorem pushRuns {head tail : Nat} (room : wrappingSub w tail head ≠ size) (buf : List (Option α)) (value : α) :
    run (step w size) ⟨head,tail,buf,.idle,.idle⟩ (pushWhole value) =
      some (⟨head,wrappingAdd w tail 1,buf.set (tail % size) (some value),.idle,.idle⟩,[.pushOk value]) := by
  simp [pushWhole,run,step,produce,room]

theorem popRuns (w size : Nat) (producer : Producer α) {head tail : Nat} {buf : List (Option α)} {value : α}
    (some_ : tail ≠ head) (found : buf[head % size]? = some (some value)) :
    run (step w size) ⟨head,tail,buf,producer,.idle⟩ (popWhole α) =
      some (⟨wrappingAdd w head 1,tail,buf,producer,.idle⟩,[.popSome value]) := by
  simp [popWhole,run,step,consume,slot,some_,found]

theorem lapsRun (positive : 0 < size) (fits : size < 2^w) (value : α) (n : Nat) :
    ∃ buf : List (Option α), buf.length = size ∧
      run (step w size) (empty α size) (List.replicate n (pushWhole value ++ popWhole α)).flatten =
        some (⟨n % 2^w,n % 2^w,buf,.idle,.idle⟩,(List.replicate n [Event.pushOk value,Event.popSome value]).flatten) := by
  induction n with
  | zero => exact ⟨List.replicate size none,List.length_replicate,rfl⟩
  | succ n ih =>
    obtain ⟨buf,size_,reached⟩ := ih
    have none_ : wrappingSub w (n % 2^w) (n % 2^w) = n - n := wrappingSubCount (Nat.le_refl n) (by omega)
    have target : n % 2^w % size < buf.length := by rw [size_]; exact Nat.mod_lt _ positive
    have other : (n + 1) % 2^w ≠ n % 2^w := (slotsDiffer (Nat.lt_succ_self n) (by omega)).symm
    have pushed := pushRuns (show wrappingSub w (n % 2^w) (n % 2^w) ≠ size by omega) buf value
    rw [wrappingAddCount] at pushed
    have popped := popRuns w size .idle other (List.getElem?_set_self (a := some value) target)
    rw [wrappingAddCount] at popped
    refine ⟨buf.set (n % 2^w % size) (some value),by rw [List.length_set,size_],?_⟩
    rw [List.replicate_succ',List.flatten_append,List.replicate_succ',List.flatten_append,List.flatten_singleton,
      List.flatten_singleton]
    exact runThen reached (runThen pushed popped)

theorem fillRuns (fits : size < 2^w) (value : α) (n : Nat) {buf : List (Option α)} (full : buf.length = size) {k : Nat}
    (room : k ≤ size) : ∃ buf' : List (Option α), buf'.length = size ∧
      run (step w size) ⟨n % 2^w,n % 2^w,buf,.idle,.idle⟩ (List.replicate k (pushWhole value)).flatten =
        some (⟨n % 2^w,(n + k) % 2^w,buf',.idle,.idle⟩,List.replicate k (.pushOk value)) := by
  induction k with
  | zero => exact ⟨buf,full,rfl⟩
  | succ k ih =>
    obtain ⟨buf',size_,reached⟩ := ih (Nat.le_of_succ_le room)
    have held : wrappingSub w ((n + k) % 2^w) (n % 2^w) = n + k - n := wrappingSubCount (Nat.le_add_right n k) (by omega)
    have pushed := pushRuns (show wrappingSub w ((n + k) % 2^w) (n % 2^w) ≠ size by omega) buf' value
    rw [wrappingAddCount] at pushed
    refine ⟨buf'.set ((n + k) % 2^w % size) (some value),by rw [List.length_set,size_],?_⟩
    rw [List.replicate_succ',List.flatten_append,List.replicate_succ',List.flatten_singleton]
    exact runThen reached pushed

theorem lapsHistory (value : α) (n : Nat) :
    accepted (List.replicate n [Event.pushOk value,Event.popSome value]).flatten = List.replicate n value ∧
    delivered (List.replicate n [Event.pushOk value,Event.popSome value]).flatten = List.replicate n value := by
  induction n with
  | zero => exact ⟨rfl,rfl⟩
  | succ n ih => simp [List.replicate_succ,ih.1,ih.2]

theorem fillHistory (value : α) (k : Nat) :
    accepted (List.replicate k (Event.pushOk value)) = List.replicate k value ∧
    delivered (List.replicate k (Event.pushOk value)) = [] := by
  induction k with
  | zero => exact ⟨rfl,rfl⟩
  | succ k ih => simp [List.replicate_succ,ih.1,ih.2]

theorem overrunLoses (positive : 0 < size) (fits : size < 2^w) (indivisible : ¬ size ∣ 2^w) (first last : α) :
    ∃ n r s actions events, 0 < r ∧ run (step w size) (empty α size) actions = some (s,events) ∧
      accepted events = List.replicate n first ++ (List.replicate r first ++ [last]) ∧
      delivered events = List.replicate n first ++ [last] := by
  obtain ⟨n,r,some_,less,sum,zero,held⟩ := leftover positive fits indivisible
  have small : n % 2^w = n := Nat.mod_eq_of_lt (by omega)
  have one : wrappingAdd w 0 1 = 1 := Nat.mod_eq_of_lt (by omega)
  obtain ⟨buf,full,laps⟩ := lapsRun positive fits first n
  obtain ⟨buf',full',filled⟩ := fillRuns fits first n full less.le
  rw [small] at laps filled
  rw [sum,Nat.mod_self] at filled
  -- the index 0 that follows the overrun falls on the slot that head is waiting at
  have pushed := pushRuns (show wrappingSub w 0 n ≠ size by omega) buf' last
  rw [one,Nat.zero_mod] at pushed
  have wrong : (buf'.set 0 (some last))[n % size]? = some (some last) := by
    rw [zero]
    exact List.getElem?_set_self (by omega)
  have popped := popRuns w size .idle (show 1 ≠ n by omega) wrong
  refine ⟨n,r,_,_,_,some_,runThen laps (runThen filled (runThen pushed popped)),?_,?_⟩
  · simp [(lapsHistory first n).1,(fillHistory first r).1]
  · simp [(lapsHistory first n).2,(fillHistory first r).2]

theorem leftoverLoses (positive : 0 < size) (fits : size < 2^w) (indivisible : ¬ size ∣ 2^w) : ¬ InOrder w size := by
  intro ordered
  obtain ⟨n,r,s,actions,events,some_,ok,taken,given⟩ := overrunLoses positive fits indivisible false true
  have made : new Bool size = .ok (empty Bool size) := by simp [new,positive]
  have same := ordered Bool _ s actions events made ok
  rw [taken,given,List.append_assoc,List.append_cancel_left_eq] at same
  obtain ⟨k,rfl⟩ := Nat.exists_eq_succ_of_ne_zero some_.ne'
  cases same

theorem dividedOrder (fits : size < 2^w) (divides : size ∣ 2^w) : InOrder w size := by
  intro α s₀ s actions events made ok
  have inv := runConsistent fits made ok (.inr divides)
  rw [inv.contents fits (.inr divides)]
  exact List.prefix_iff_eq_append.mp inv.order

theorem wrapAroundExact (positive : 0 < size) (fits : size < 2^w) :
    (InOrder w size ↔ size ∣ 2^w) ∧ (SlotsApart w size ↔ size ∣ 2^w) := by
  refine ⟨⟨?_,dividedOrder fits⟩,⟨?_,dividedApart⟩⟩
  · intro ordered
    by_contra indivisible
    exact leftoverLoses positive fits indivisible ordered
  · intro apart
    by_contra indivisible
    exact leftoverMeets positive fits indivisible apart

end Overrun

theorem wrapAroundExactAtFour : (InOrder 64 4 ↔ 4 ∣ 2^64) ∧ (SlotsApart 64 4 ↔ 4 ∣ 2^64) :=
  wrapAroundExact (by decide) (by decide)

/- Three slots and 64-bit indices: after the overrun two live indices share slot 0,
and a run that goes that far delivers a value that is not the next one. -/
theorem wrapAroundLosesAtThree : new Bool 3 = .ok (empty Bool 3) ∧
    (∃ s actions events, run (step 64 3) (empty Bool 3) actions = some (s,events) ∧
      ¬ delivered events <+: accepted events) ∧
    wrappingSub 64 1 (2^64 - 1) = 2 ∧ wrappingAdd 64 (2^64 - 1) 0 % 3 = wrappingAdd 64 (2^64 - 1) 1 % 3 := by
  refine ⟨rfl,?_,by decide,by decide⟩
  obtain ⟨n,r,s,actions,events,some_,ok,taken,given⟩ :=
    overrunLoses (w := 64) (show 0 < 3 by decide) (by decide) (by decide) false true
  refine ⟨s,actions,events,ok,?_⟩
  rw [taken,given,List.prefix_append_right_inj]
  obtain ⟨k,rfl⟩ := Nat.exists_eq_succ_of_ne_zero some_.ne'
  rintro ⟨rest,same⟩
  cases same

end Riaps.Spsc
