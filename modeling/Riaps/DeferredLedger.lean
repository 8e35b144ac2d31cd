import Riaps.DeferredDrop

/-! The ledger of deferred destruction. Every value that was boxed is dropped, leaked,
or still with someone: in a box, in a hand, or in a slot. What a collector is
handed is therefore there to be dropped, and its block is the one it came in. -/
namespace Riaps.Deferred
open Library.Machine Library.Pools Library.Wrapping Emergency

section Histories
variable {τ : Type}

@[simp] def Event.creates : Event τ → List (Value τ)
  | .created value => [value]
  | _ => []

@[simp] def Event.drops : Event τ → List (Value τ)
  | .dropped value => [value]
  | _ => []

@[simp] def Event.leaks : Event τ → List (Value τ)
  | .leaked value => [value]
  | _ => []

@[simp] def Event.reclaims : Event τ → List Nat
  | .reclaimed context _ => [context]
  | _ => []

def Event.Sound : Event τ → Prop
  | .assertionFailed => False
  | .undefined => False
  | _ => True

def createdIn (events : List (Event τ)) : List (Value τ) := events.flatMap Event.creates

def droppedIn (events : List (Event τ)) : List (Value τ) := events.flatMap Event.drops

def leakedIn (events : List (Event τ)) : List (Value τ) := events.flatMap Event.leaks

/- The collectors of the values that are gone for good, in order. -/
def reclaimedIn (events : List (Event τ)) : List Nat := events.flatMap Event.reclaims

def heldObjects (sl : EmergencySlot (DropVTable τ)) : List (Value τ) := (heldPairs sl).map object

def block (layout : Layout) (address : Nat) : List Block := if layout.size = 0 then [] else [⟨address,layout⟩]

def blockOf (layoutOf : τ → Layout) (o : Value τ) : List Block := block (layoutOf o.kind) o.address

def GcContext.block (c : GcContext τ) : List Block :=
  c.dropping.toList.flatMap (fun pair => Deferred.block pair.2.layout pair.1)

def GcContext.busy (c : GcContext τ) : List Unit := c.dropping.toList.map (fun _ => ())

def pairs (m : Store τ) : List (Nat × DropVTable τ) :=
  m.hands ++ m.slots.flatMap heldPairs ++ m.contexts.flatMap (fun c => c.dropping.toList)

@[simp] theorem createdAppend (past out : List (Event τ)) : createdIn (past ++ out) = createdIn past ++ createdIn out :=
  List.flatMap_append

@[simp] theorem droppedAppend (past out : List (Event τ)) : droppedIn (past ++ out) = droppedIn past ++ droppedIn out :=
  List.flatMap_append

@[simp] theorem leakedAppend (past out : List (Event τ)) : leakedIn (past ++ out) = leakedIn past ++ leakedIn out :=
  List.flatMap_append

@[simp] theorem reclaimedAppend (past out : List (Event τ)) :
    reclaimedIn (past ++ out) = reclaimedIn past ++ reclaimedIn out :=
  List.flatMap_append

/- Events of a slot say nothing about values and collectors. -/
theorem slotSilent (slot : Nat) (outs : List (Emergency.Event (DropVTable τ))) :
    createdIn (outs.map (Event.onSlot slot)) = [] ∧ droppedIn (outs.map (Event.onSlot slot)) = [] ∧
    leakedIn (outs.map (Event.onSlot slot)) = [] ∧ reclaimedIn (outs.map (Event.onSlot slot)) = [] := by
  simp [leakedIn,createdIn,droppedIn,reclaimedIn]

variable [DecidableEq τ]

def places (m : Store τ) (o : Value τ) : Nat :=
  m.boxes.count o + (m.hands.map object).count o + tally heldObjects m.slots o

/-- Who has what. Leaked values stay in memory, and a value that is being destroyed is gone before its block. -/
structure Booked (layoutOf : τ → Layout) (m : Store τ) (past : List (Event τ)) : Prop where
  handed : ∀ sl ∈ m.slots, ∃ pushed popped, Handed pushed popped sl
  matched : ∀ p ∈ pairs m, p.2 = .of layoutOf p.2.dropInPlace
  aligned : ∀ o ∈ m.objects, o.address ≠ 0 ∧ o.address % (layoutOf o.kind).align = 0
  objects : ∀ o, m.objects.count o = places m o + (leakedIn past).count o
  blocks : ∀ b, m.blocks.count b = tally (blockOf layoutOf) m.objects b + tally GcContext.block m.contexts b
  created : ∀ o, (createdIn past).count o = m.objects.count o + (droppedIn past).count o
  counted : ∀ i c, m.contexts[i]? = some c → c.reclaimed = (reclaimedIn past).count i % 2^64
  known : ∀ i ∈ reclaimedIn past, i < m.contexts.length
  finished : (droppedIn past).length = (reclaimedIn past).length + tally GcContext.busy m.contexts ()
  sound : ∀ e ∈ past, e.Sound

end Histories

section Steps
variable {τ : Type} [DecidableEq τ] {layoutOf : τ → Layout} {m m' : Store τ} {past out : List (Event τ)}

theorem initBooked : Booked layoutOf (init τ) [] := by
  refine ⟨?_,?_,?_,?_,?_,?_,?_,?_,?_,?_⟩ <;>
    simp [init,pairs,places,tally,leakedIn,createdIn,droppedIn,reclaimedIn]

/- A pair in somebody's hand has its value behind it. -/
theorem Booked.there (booked : Booked layoutOf m past) {p : Nat × DropVTable τ} (mem : p ∈ m.hands) :
    object p ∈ m.objects ∧ p.1 ≠ 0 ∧ p.1 % p.2.layout.align = 0 := by
  have listed : 0 < (m.hands.map object).count (object p) := List.count_pos_iff.mpr (List.mem_map_of_mem mem)
  have counts := booked.objects (object p)
  have there : object p ∈ m.objects := by
    refine List.count_pos_iff.mp ?_
    rw [counts,places]
    omega
  have matched := booked.matched p (List.mem_append_left _ (List.mem_append_left _ mem))
  obtain ⟨nonnull,aligned⟩ := booked.aligned _ there
  refine ⟨there,nonnull,?_⟩
  rw [matched]
  exact aligned

theorem Booked.tell (booked : Booked layoutOf m past) (created : createdIn out = []) (dropped : droppedIn out = [])
    (leaked : leakedIn out = []) (reclaimed : reclaimedIn out = []) (sound : ∀ e ∈ out, e.Sound) :
    Booked layoutOf m (past ++ out) := by
  obtain ⟨handed,matched,aligned,objects,blocks,creates,counted,known,finished,before⟩ := booked
  refine ⟨handed,matched,aligned,by simpa [leaked] using objects,blocks,by simpa [created,dropped] using creates,
    by simpa [reclaimed] using counted,by simpa [reclaimed] using known,by simpa [dropped,reclaimed] using finished,?_⟩
  intro e mem
  exact (List.mem_append.mp mem).elim (before e) (sound e)

/- What has to be shown of a step that tells one thing. -/
theorem bookedSnoc {e : Event τ} (handed : ∀ sl ∈ m'.slots, ∃ pushed popped, Handed pushed popped sl)
    (matched : ∀ p ∈ pairs m', p.2 = .of layoutOf p.2.dropInPlace)
    (aligned : ∀ o ∈ m'.objects, o.address ≠ 0 ∧ o.address % (layoutOf o.kind).align = 0)
    (objects : ∀ o, m'.objects.count o = places m' o + ((leakedIn past).count o + e.leaks.count o))
    (blocks : ∀ b, m'.blocks.count b = tally (blockOf layoutOf) m'.objects b + tally GcContext.block m'.contexts b)
    (created : ∀ o, (createdIn past).count o + e.creates.count o =
      m'.objects.count o + ((droppedIn past).count o + e.drops.count o))
    (counted : ∀ i c, m'.contexts[i]? = some c → c.reclaimed = ((reclaimedIn past).count i + e.reclaims.count i) % 2^64)
    (known : ∀ i ∈ reclaimedIn past ++ e.reclaims, i < m'.contexts.length)
    (finished : (droppedIn past).length + e.drops.length =
      (reclaimedIn past).length + e.reclaims.length + tally GcContext.busy m'.contexts ())
    (before : ∀ e ∈ past, e.Sound) (sound : e.Sound) : Booked layoutOf m' (past ++ [e]) := by
  have created' : createdIn [e] = e.creates := List.flatMap_singleton _ _
  have dropped : droppedIn [e] = e.drops := List.flatMap_singleton _ _
  have leaked : leakedIn [e] = e.leaks := List.flatMap_singleton _ _
  have reclaimed : reclaimedIn [e] = e.reclaims := List.flatMap_singleton _ _
  refine ⟨handed,matched,aligned,by simpa [leaked] using objects,blocks,by simpa [created',dropped] using created,
    by simpa [reclaimed] using counted,by simpa [reclaimed] using known,by simpa [dropped,reclaimed] using finished,?_⟩
  intro x mem
  rcases List.mem_append.mp mem with old | new
  · exact before x old
  · rw [List.mem_singleton.mp new]
    exact sound

theorem onSlotBooked (booked : Booked layoutOf m past) {slot : Nat} {action : Emergency.Action (DropVTable τ)}
    {rest : List (Nat × DropVTable τ)} (taken : m.hands.Perm (offered action ++ rest))
    (ok : onSlot {m with hands := rest} slot action = some (m',out)) : Booked layoutOf m' (past ++ out) := by
  obtain ⟨sl,found,ok⟩ := Option.bind_eq_some_iff.mp ok
  obtain ⟨⟨sl',outs⟩,stepped,last⟩ := Option.bind_eq_some_iff.mp ok
  cases Option.some.inj last
  obtain ⟨created,dropped,leaked,reclaimed⟩ := slotSilent slot outs
  refine Booked.tell ?_ created dropped leaked reclaimed (by simp [Event.Sound])
  obtain ⟨handed,matched,aligned,objects,blocks,creates,counted,known,finished,sound⟩ := booked
  have listed := List.mem_of_getElem? found
  obtain ⟨pushed,popped,hands⟩ := handed sl listed
  have kept := slotHolds hands stepped
  refine ⟨?_,?_,aligned,?_,blocks,creates,counted,known,finished,sound⟩
  · intro other mem
    rcases List.mem_or_eq_of_mem_set mem with old | rfl
    · exact handed other old
    · exact ⟨_,_,stepHanded hands (stepMoves stepped)⟩
  · intro p mem
    apply matched
    have moved : p ∈ heldPairs sl' ∨ p ∈ outs.flatMap returned → p ∈ pairs m := by
      intro either
      have before : p ∈ offered action ++ heldPairs sl := kept.mem_iff.mp (List.mem_append.mpr either)
      refine List.mem_append_left _ (List.mem_append.mpr ?_)
      rcases List.mem_append.mp before with given | held
      · exact .inl (taken.mem_iff.mpr (List.mem_append_left _ given))
      · exact .inr (List.mem_flatMap.mpr ⟨sl,listed,held⟩)
    rcases List.mem_append.mp mem with front | dropping
    · rcases List.mem_append.mp front with hand | slots
      · rcases List.mem_append.mp hand with back | old
        · exact moved (.inr back)
        · exact List.mem_append_left _ (List.mem_append_left _ (taken.mem_iff.mpr (List.mem_append_right _ old)))
      · obtain ⟨other,among,held⟩ := List.mem_flatMap.mp slots
        rcases List.mem_or_eq_of_mem_set among with old | rfl
        · exact List.mem_append_left _ (List.mem_append_right _ (List.mem_flatMap.mpr ⟨other,old,held⟩))
        · exact moved (.inl held)
    · exact List.mem_append_right _ dropping
  · intro o
    have slots := tallySet heldObjects found sl' o
    have before := (taken.map object).count_eq o
    have both := (kept.map object).count_eq o
    simp only [List.map_append,List.count_append] at before both
    rw [objects]
    simp only [places,heldObjects,List.map_append,List.count_append] at slots ⊢
    omega

theorem pickLess {α β : Type} [DecidableEq β] {pool rest : List α} {i : Nat} {x : α} (picked : pick pool i = some (x,rest))
    (f : α → β) (b : β) : (pool.map f).count b = [f x].count b + (rest.map f).count b := by
  rw [((pickPerm picked).map f).count_eq,List.map_cons,← List.singleton_append,List.count_append]

theorem boxNewBooked (booked : Booked layoutOf m past) {address : Nat} {kind : τ}
    (ok : boxNew layoutOf m address kind = some (m',out)) : Booked layoutOf m' (past ++ out) := by
  unfold boxNew at ok
  split at ok <;> try contradiction
  rename_i fits
  cases Option.some.inj ok
  obtain ⟨handed,matched,aligned,objects,blocks,creates,counted,known,finished,sound⟩ := booked
  refine bookedSnoc handed matched ?_ ?_ ?_ ?_ counted (by simpa using known) finished sound trivial
  · exact List.forall_mem_cons.mpr ⟨⟨fits.1,fits.2.1⟩,aligned⟩
  · intro o
    have before := objects o
    simp only [places,Event.leaks,List.count_cons,List.count_nil] at before ⊢
    omega
  · intro b
    have before := blocks b
    simp only [tallyCons,blockOf,block,List.count_append]
    omega
  · intro o
    have before := creates o
    simp only [Event.creates,Event.drops,List.count_cons,List.count_nil]
    omega

theorem deferBooked (booked : Booked layoutOf m past) {box : Nat} {value : Value τ} {rest : List (Value τ)}
    (picked : pick m.boxes box = some (value,rest)) :
    Booked layoutOf {m with boxes := rest, hands := deferBox layoutOf value :: m.hands} past := by
  obtain ⟨handed,matched,aligned,objects,blocks,creates,counted,known,finished,sound⟩ := booked
  refine ⟨handed,?_,aligned,?_,blocks,creates,counted,known,finished,sound⟩
  · exact List.forall_mem_cons.mpr ⟨rfl,matched⟩
  · intro o
    have less := (pickPerm picked).count_eq o
    have same : object (deferBox layoutOf value) = value := rfl
    rw [objects]
    simp only [places,List.map_cons,List.count_cons,same] at less ⊢
    omega

theorem leakBooked (booked : Booked layoutOf m past) {pair : Nat} {p : Nat × DropVTable τ}
    {rest : List (Nat × DropVTable τ)} (picked : pick m.hands pair = some (p,rest)) :
    Booked layoutOf {m with hands := rest} (past ++ [.leaked (object p)]) := by
  obtain ⟨handed,matched,aligned,objects,blocks,creates,counted,known,finished,sound⟩ := booked
  refine bookedSnoc handed ?_ aligned ?_ blocks creates counted (by simpa using known) finished sound trivial
  · intro q mem
    apply matched
    simp only [pairs,List.mem_append] at mem ⊢
    exact mem.imp_left (Or.imp_left (fun old => (pickPerm picked).mem_iff.mpr (List.mem_cons_of_mem p old)))
  · intro o
    have less := pickLess picked object o
    have before := objects o
    simp only [places,Event.leaks] at before ⊢
    omega

theorem dropBooked (booked : Booked layoutOf m past) {pair context : Nat} {p : Nat × DropVTable τ}
    {rest : List (Nat × DropVTable τ)} (picked : pick m.hands pair = some (p,rest))
    (ok : dropAndDealloc {m with hands := rest} context p = some (m',out)) : Booked layoutOf m' (past ++ out) := by
  obtain ⟨c,found,last⟩ := Option.bind_eq_some_iff.mp ok
  split at last <;> try contradiction
  rename_i resting
  have idle : c.dropping = none := by simpa using resting
  have mine : p ∈ m.hands := (pickPerm picked).mem_iff.mpr List.mem_cons_self
  obtain ⟨there,nonnull,fits⟩ := booked.there mine
  rw [if_neg (by simp [nonnull,fits]),if_pos there] at last
  cases Option.some.inj last
  obtain ⟨handed,matched,aligned,objects,blocks,creates,counted,known,finished,sound⟩ := booked
  have made := matched p (List.mem_append_left _ (List.mem_append_left _ mine))
  have erased := List.perm_cons_erase there
  refine bookedSnoc handed ?_ (fun o mem => aligned o (List.mem_of_mem_erase mem)) ?_ ?_ ?_ ?_ ?_ ?_ sound trivial
  · intro q mem
    rcases List.mem_append.mp mem with front | dropping
    · apply matched
      simp only [pairs,List.mem_append] at front ⊢
      exact .inl (front.imp_left (fun old => (pickPerm picked).mem_iff.mpr (List.mem_cons_of_mem p old)))
    · obtain ⟨other,among,held⟩ := List.mem_flatMap.mp dropping
      rcases List.mem_or_eq_of_mem_set among with old | rfl
      · exact matched q (List.mem_append_right _ (List.mem_flatMap.mpr ⟨other,old,held⟩))
      · cases Option.some.inj (Option.mem_toList.mp held)
        exact made
  · intro o
    have less := pickLess picked object o
    have before := objects o
    have gone := erased.count_eq o
    simp only [places,Event.leaks,List.count_cons,List.count_nil] at before gone less ⊢
    omega
  · intro b
    have before := blocks b
    have gone := tallyPerm (blockOf layoutOf) erased b
    have moved := tallySet GcContext.block found {c with dropping := some p} b
    have same : GcContext.block {c with dropping := some p} = blockOf layoutOf (object p) := by
      simp only [GcContext.block,blockOf,object,Option.toList_some,List.flatMap_singleton]
      rw [made]
      rfl
    have none_ : c.block = [] := by simp [GcContext.block,idle]
    simp only [tallyCons,same,none_,List.count_nil] at gone moved ⊢
    omega
  · intro o
    have before := creates o
    have gone := erased.count_eq o
    simp only [Event.creates,Event.drops,List.count_cons,List.count_nil] at before gone ⊢
    omega
  · intro i c' seen
    rcases lookupSet seen with ⟨rfl,rfl⟩ | ⟨_,old⟩
    · exact counted i c found
    · exact counted i c' old
  · rw [List.length_set]
    simpa using known
  · have moved := tallySet GcContext.busy found {c with dropping := some p} ()
    have one : GcContext.busy {c with dropping := some p} = [()] := rfl
    have none_ : c.busy = [] := by simp [GcContext.busy,idle]
    rw [one,none_] at moved
    simp only [Event.drops,Event.reclaims,List.length_singleton,List.length_nil,List.count_singleton_self,
      List.count_nil] at moved ⊢
    omega

theorem reclaimBooked (booked : Booked layoutOf m past) {context : Nat} {c : GcContext τ} {p : Nat × DropVTable τ}
    (found : m.contexts[context]? = some c) (busy : c.dropping = some p) {after : List Block}
    (gone : ∀ b, m.blocks.count b = (block p.2.layout p.1).count b + after.count b) :
    Booked layoutOf {m with contexts := m.contexts.set context ⟨wrappingAdd 64 c.reclaimed 1,none⟩, blocks := after}
      (past ++ [.reclaimed context p.1]) := by
  obtain ⟨handed,matched,aligned,objects,blocks,creates,counted,known,finished,sound⟩ := booked
  have bound := (List.getElem?_eq_some_iff.mp found).1
  refine bookedSnoc handed ?_ aligned objects ?_ creates ?_ ?_ ?_ sound trivial
  · intro q mem
    rcases List.mem_append.mp mem with front | dropping
    · exact matched q (List.mem_append_left _ front)
    · obtain ⟨other,among,held⟩ := List.mem_flatMap.mp dropping
      rcases List.mem_or_eq_of_mem_set among with old | rfl
      · exact matched q (List.mem_append_right _ (List.mem_flatMap.mpr ⟨other,old,held⟩))
      · simp at held
  · intro b
    have before := blocks b
    have less := gone b
    have moved := tallySet GcContext.block found ⟨wrappingAdd 64 c.reclaimed 1,none⟩ b
    have mine : c.block = block p.2.layout p.1 := by simp [GcContext.block,busy]
    have none_ : GcContext.block (⟨wrappingAdd 64 c.reclaimed 1,none⟩ : GcContext τ) = [] := rfl
    rw [mine,none_,List.count_nil] at moved
    simp only
    omega
  · intro i c' seen
    simp only [Event.reclaims]
    rcases lookupSet seen with ⟨rfl,rfl⟩ | ⟨apart,old⟩
    · rw [counted i c found,wrappingAddCount,List.count_singleton_self]
    · rw [counted i c' old,List.count_singleton,if_neg (by simpa using Ne.symm apart),Nat.add_zero]
  · intro i mem
    rw [List.length_set]
    rcases List.mem_append.mp mem with old | new
    · exact known i old
    · rw [List.mem_singleton.mp new]
      exact bound
  · have moved := tallySet GcContext.busy found ⟨wrappingAdd 64 c.reclaimed 1,none⟩ ()
    have one : c.busy = [()] := by simp [GcContext.busy,busy]
    have none_ : GcContext.busy (⟨wrappingAdd 64 c.reclaimed 1,none⟩ : GcContext τ) = [] := rfl
    rw [one,none_] at moved
    simp only [Event.drops,Event.reclaims,List.length_singleton,List.length_nil,List.count_singleton_self,
      List.count_nil] at moved ⊢
    omega

theorem deallocBooked (booked : Booked layoutOf m past) {context : Nat} (ok : dealloc m context = some (m',out)) :
    Booked layoutOf m' (past ++ out) := by
  obtain ⟨c,found,ok⟩ := Option.bind_eq_some_iff.mp ok
  obtain ⟨p,busy,last⟩ := Option.bind_eq_some_iff.mp ok
  by_cases empty : p.2.layout.size = 0
  · rw [if_pos empty] at last
    cases Option.some.inj last
    exact reclaimBooked booked found busy (by simp [block,empty])
  · have mine : c.block = [⟨p.1,p.2.layout⟩] := by simp [GcContext.block,busy,block,empty]
    have owed : 0 < tally GcContext.block m.contexts ⟨p.1,p.2.layout⟩ :=
      (tallyPositive _).mpr ⟨c,List.mem_of_getElem? found,by simp [mine]⟩
    have counts := booked.blocks ⟨p.1,p.2.layout⟩
    have there : (⟨p.1,p.2.layout⟩ : Block) ∈ m.blocks := List.count_pos_iff.mp (by omega)
    rw [if_neg empty,if_pos there] at last
    cases Option.some.inj last
    refine reclaimBooked booked found busy (fun b => ?_)
    rw [(List.perm_cons_erase there).count_eq,block,if_neg empty,← List.singleton_append,List.count_append]

theorem contextBooked (booked : Booked layoutOf m past) :
    Booked layoutOf {m with contexts := m.contexts ++ [⟨0,none⟩]} past := by
  obtain ⟨handed,matched,aligned,objects,blocks,creates,counted,known,finished,sound⟩ := booked
  refine ⟨handed,by simpa [pairs] using matched,aligned,objects,?_,creates,?_,?_,?_,sound⟩
  · intro b
    have none_ : GcContext.block (⟨0,none⟩ : GcContext τ) = [] := rfl
    rw [tallySnoc,none_]
    exact blocks b
  · intro i c seen
    rcases lookupSnoc seen with old | ⟨rfl,rfl⟩
    · exact counted i c old
    · have never : m.contexts.length ∉ reclaimedIn past := fun mem => Nat.lt_irrefl _ (known _ mem)
      rw [List.count_eq_zero.mpr never]
      rfl
  · intro i mem
    rw [List.length_append]
    exact Nat.lt_of_lt_of_le (known i mem) (Nat.le_add_right _ _)
  · rw [tallySnoc]
    exact finished

theorem slotBooked (booked : Booked layoutOf m past) :
    Booked layoutOf {m with slots := m.slots ++ [Emergency.new (DropVTable τ)]} past := by
  obtain ⟨handed,matched,aligned,objects,blocks,creates,counted,known,finished,sound⟩ := booked
  have none_ : heldPairs (Emergency.new (DropVTable τ)) = [] := rfl
  refine ⟨?_,by simpa [pairs,none_] using matched,aligned,?_,blocks,creates,counted,known,finished,sound⟩
  · intro sl mem
    rcases List.mem_append.mp mem with old | new
    · exact handed sl old
    · cases List.mem_singleton.mp new
      exact ⟨[],[],newHanded⟩
  · intro o
    have empty : heldObjects (Emergency.new (DropVTable τ)) = [] := rfl
    rw [objects]
    simp only [places,tallySnoc,empty,List.count_nil,Nat.add_zero]

theorem stepBooked {action : Action τ} (booked : Booked layoutOf m past) (ok : step layoutOf m action = some (m',out)) :
    Booked layoutOf m' (past ++ out) := by
  cases action with
  | boxNew address kind => exact boxNewBooked booked ok
  | slotNew =>
    cases Option.some.inj ok
    simpa using slotBooked booked
  | contextNew =>
    cases Option.some.inj ok
    simpa using contextBooked booked
  | deferBox box =>
    obtain ⟨⟨value,rest⟩,picked,last⟩ := Option.bind_eq_some_iff.mp ok
    cases Option.some.inj last
    simpa using deferBooked booked picked
  | push slot pair =>
    obtain ⟨⟨p,rest⟩,picked,ok⟩ := Option.bind_eq_some_iff.mp ok
    exact onSlotBooked booked (pickPerm picked) ok
  | write slot => exact onSlotBooked booked (List.Perm.refl _) ok
  | drain slot => exact onSlotBooked booked (List.Perm.refl _) ok
  | read slot => exact onSlotBooked booked (List.Perm.refl _) ok
  | dropAndDealloc context pair =>
    obtain ⟨⟨p,rest⟩,picked,ok⟩ := Option.bind_eq_some_iff.mp ok
    exact dropBooked booked picked ok
  | dealloc context => exact deallocBooked booked ok
  | leak pair =>
    obtain ⟨⟨p,rest⟩,picked,last⟩ := Option.bind_eq_some_iff.mp ok
    cases Option.some.inj last
    exact leakBooked booked picked

theorem runBooked {actions : List (Action τ)} {events : List (Event τ)}
    (ok : run (step layoutOf) (init τ) actions = some (m,events)) : Booked layoutOf m events :=
  runInvariant (P := Booked layoutOf) initBooked (fun _ _ _ _ _ booked moved => stepBooked booked moved) ok

theorem destroyedExactlyOnce {actions : List (Action τ)} {events : List (Event τ)}
    (ok : run (step layoutOf) (init τ) actions = some (m,events)) :
    .assertionFailed ∉ events ∧ .undefined ∉ events ∧
    (createdIn events).Perm (droppedIn events ++ leakedIn events ++ m.boxes ++ m.hands.map object ++
      m.slots.flatMap heldObjects) ∧
    m.blocks.Perm ((leakedIn events ++ m.boxes ++ m.hands.map object ++ m.slots.flatMap heldObjects).flatMap
      (blockOf layoutOf) ++ m.contexts.flatMap GcContext.block) ∧
    (droppedIn events).length = (reclaimedIn events).length + (m.contexts.flatMap GcContext.busy).length ∧
    ∀ i c, m.contexts[i]? = some c → c.reclaimed = (reclaimedIn events).count i % 2^64 := by
  obtain ⟨handed,matched,aligned,objects,blocks,creates,counted,known,finished,sound⟩ := runBooked ok
  have living : m.objects.Perm (leakedIn events ++ m.boxes ++ m.hands.map object ++ m.slots.flatMap heldObjects) := by
    refine List.perm_iff_count.mpr (fun o => ?_)
    have counts := objects o
    simp only [places,tally,List.count_append] at counts ⊢
    omega
  refine ⟨fun mem => sound _ mem,fun mem => sound _ mem,?_,?_,?_,counted⟩
  · refine List.perm_iff_count.mpr (fun o => ?_)
    have counts := creates o
    have same := living.count_eq o
    simp only [List.count_append] at counts same ⊢
    omega
  · refine List.perm_iff_count.mpr (fun b => ?_)
    rw [blocks,List.count_append,tallyPerm (blockOf layoutOf) living]
    rfl
  · rw [finished,tally]
    congr 1
    exact List.count_eq_length.mpr (fun x _ => rfl)

end Steps

/- A type without values to store and a word; the refused value is leaked, the others are
destroyed by two collectors. -/
def twoLayouts (sized : Bool) : Layout := if sized then ⟨8,8⟩ else ⟨0,1⟩

def threeValues : List (Action Bool) :=
  [.slotNew,.contextNew,.contextNew,.boxNew 16 true,.boxNew 24 true,.boxNew 1 false,.deferBox 2,.push 0 0,.write 0,.write 0,
    .deferBox 1,.write 0,.push 0 0,.drain 0,.deferBox 0,.read 0,.read 0,.read 0,.push 0 1,.leak 0,.read 0,.push 0 1,.write 0,
    .dropAndDealloc 1 0,.write 0,.write 0,.dealloc 1,.drain 0,.read 0,.read 0,.read 0,.read 0,.dropAndDealloc 0 0]

theorem destroyedExactlyOnceTwoCollectors : ∃ m events, run (step twoLayouts) (init Bool) threeValues = some (m,events) ∧
    leakedIn events = [⟨24,true⟩] ∧ reclaimedIn events = [1] ∧
    (createdIn events).Perm (droppedIn events ++ [⟨24,true⟩]) ∧ m.blocks.Perm [⟨24,⟨8,8⟩⟩] ∧
    (droppedIn events).length = [1].length + 1 ∧ ∀ c, m.contexts[1]? = some c → c.reclaimed = 1 := by
  have tested : (run (step twoLayouts) (init Bool) threeValues).any (fun r => decide (leakedIn r.2 = [⟨24,true⟩]) &&
      (decide (reclaimedIn r.2 = [1]) && (decide (r.1.boxes = [] ∧ r.1.hands.map object = [] ∧
        r.1.slots.flatMap heldObjects = []) && decide (r.1.contexts.flatMap GcContext.block = [] ∧
          r.1.contexts.flatMap GcContext.busy = [()])))) = true := by decide +kernel
  obtain ⟨⟨m,events⟩,ran,tested⟩ := (Option.any_eq_true _ _).mp tested
  obtain ⟨leaked,tested⟩ := Bool.and_eq_true_iff.mp tested
  obtain ⟨reclaimed,tested⟩ := Bool.and_eq_true_iff.mp tested
  obtain ⟨nobody,tested⟩ := Bool.and_eq_true_iff.mp tested
  obtain ⟨boxes,hands,slots⟩ : m.boxes = [] ∧ m.hands.map object = [] ∧ m.slots.flatMap heldObjects = [] :=
    of_decide_eq_true nobody
  obtain ⟨blocks,busy⟩ := of_decide_eq_true tested
  obtain ⟨_,_,values,memory,finished,counted⟩ := destroyedExactlyOnce ran
  have one := of_decide_eq_true leaked
  have done := of_decide_eq_true reclaimed
  simp only [one,boxes,hands,slots,List.append_nil] at values memory
  rw [blocks] at memory
  rw [done,busy] at finished
  refine ⟨m,events,ran,one,done,values,memory,finished,?_⟩
  intro c found
  rw [counted 1 c found,done]
  rfl

end Riaps.Deferred
