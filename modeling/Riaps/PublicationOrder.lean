import Riaps.PublicationVersions

/-! Retirement versions against the order of retirement. Two swaps of one handle may
exchange in one order and count in the other; then the version of a token is not the
number of the graph that replaced its own. As long as the oldest exchange counts first,
the graphs in flight are the last publications before the current one, in order. -/
namespace Riaps.Publication
open Library.Machine Library.Pools Library.Wrapping

def Stamped (past : List Event) : Event → Prop
  | .retired t => t.retiredAtVersion = numberOf (publications t.state past) t.pointer + 1
  | _ => True

/- The graph with the smaller number stopped being current first. -/
def Ordered (events : List Event) : Prop :=
  ∀ past₁ t₁ rest₁ past₂ t₂ rest₂, events = past₁ ++ .retired t₁ :: rest₁ → events = past₂ ++ .retired t₂ :: rest₂ →
    t₁.state = t₂.state →
    numberOf (publications t₁.state past₁) t₁.pointer < numberOf (publications t₂.state past₂) t₂.pointer →
    t₁.retiredAtVersion < t₂.retiredAtVersion

/- A swap counts only if no earlier exchange of its handle still has to, and the counter has room. -/
def orderly (s : Shared) : Action → Bool
  | .advance i =>
      match s.calls[i]? with
      | some (.swapCount h _) =>
          (flight h (s.calls.drop (i + 1))).isEmpty && s.handles[h]?.all (fun q => decide (q.version < 2^64 - 1))
      | _ => true
  | _ => true

structure InOrder (s : Shared) (events : List Event) : Prop where
  safe : Safe s
  numbered : Numbered s events
  version : ∀ (h : Nat) (q : PublicationState), s.handles[h]? = some q → q.version = 1 + (retirements h events).length
  line : ∀ (h : Nat) (q : PublicationState), s.handles[h]? = some q →
    (publications h events).drop (retirements h events).length = (flight h s.calls).reverse ++ [q.current]
  law : Everywhere Stamped events

section Kept
variable {s s' : Shared} {events out : List Event}

theorem flightCounted (h old : Nat) (calls : List Call) : (flight h calls).count old ≤ tally Call.holding calls old := by
  induction calls with
  | nil => simp [flight]
  | cons c calls ih =>
    cases seen : c.exchanged h with
    | none =>
      rw [flightCons seen,tallyCons]
      omega
    | some p =>
      have held : c.holding = [p] := by
        cases c with
        | swapCount handle old =>
          simp only [Call.exchanged] at seen
          split at seen
          · rw [← Option.some.inj seen]
            rfl
          · cases seen
        | _ => cases seen
      have more : flight h (c :: calls) = p :: flight h calls := by simp [flight,seen]
      rw [more,tallyCons,held,List.count_cons,List.count_singleton]
      omega

/- The address a swap has taken out has no other owner, so nothing newer in line is the same. -/
theorem Safe.takenOnce (safe : Safe s) {i h old : Nat} {q : PublicationState}
    (taken : s.calls[i]? = some (.swapCount h old)) (found : s.handles[h]? = some q) :
    old ∉ (flight h (s.calls.take i)).reverse ++ [q.current] := by
  have sole := safe.owned.ledger.sole old
  have mine := flightCounted h old s.calls
  have member := List.mem_of_getElem? taken
  have borrowed : h ∈ borrows s := memBorrows.mpr (.inr ⟨_,member,List.mem_singleton.mpr rfl⟩)
  have alive := safe.owned.alive safe.pinned.borrowed borrowed found
  rw [(flightTaken taken).1,List.count_append,List.count_cons_self] at mine
  unfold owning at sole
  intro mem
  rcases List.mem_append.mp mem with newer | current
  · have twice := List.count_pos_iff.mpr (List.mem_reverse.mp newer)
    omega
  · have holds : old ∈ q.holding := by
      unfold PublicationState.holding
      rw [if_neg (by omega)]
      exact current
    have also : 0 < tally PublicationState.holding s.handles old :=
      (tallyPositive _).mpr ⟨q,List.mem_of_getElem? found,holds⟩
    omega

theorem InOrder.number (inv : InOrder s events) {i h old : Nat} {q : PublicationState}
    (taken : s.calls[i]? = some (.swapCount h old)) (found : s.handles[h]? = some q) :
    numberOf (publications h events) old =
      (retirements h events).length + (flight h (s.calls.drop (i + 1))).length + 1 := by
  have balance := (inv.numbered.tallied h q found).balance
  have line := inv.line h q found
  rw [(flightTaken taken).1,List.reverse_append,List.reverse_cons,List.append_assoc,List.append_assoc] at line
  have whole : publications h events = ((publications h events).take (retirements h events).length ++
      (flight h (s.calls.drop (i + 1))).reverse) ++ old :: ((flight h (s.calls.take i)).reverse ++ [q.current]) := by
    conv_lhs => rw [← List.take_append_drop (retirements h events).length (publications h events),line]
    simp
  rw [whole,numberSplit (inv.safe.takenOnce taken found),List.length_append,List.length_take,List.length_reverse]
  omega

theorem asideStamped {e : Event} (aside : Aside s e) (past : List Event) : Stamped past e := by
  cases e with
  | retired t => exact aside.elim
  | _ => trivial

theorem InOrder.still (inv : InOrder s events) (same : Still s s' out) (safe : Safe s') : InOrder s' (events ++ out) := by
  have quiet := asideSilent same.aside
  have pubs : ∀ h, publications h (events ++ out) = publications h events := by
    intro h
    rw [publicationsAppend,(quiet h).1,List.append_nil]
  have rets : ∀ h, retirements h (events ++ out) = retirements h events := by
    intro h
    rw [retirementsAppend,(quiet h).2,List.append_nil]
  refine ⟨safe,inv.numbered.still same,?_,?_,everywhereQuiet inv.law (fun e mem => asideStamped (same.aside e mem))⟩
  · intro h r seen
    obtain ⟨q,found,_,version⟩ := same.faces h r seen
    rw [rets,version]
    exact inv.version h q found
  · intro h r seen
    obtain ⟨q,found,current,_⟩ := same.faces h r seen
    rw [pubs,rets,same.flights,current]
    exact inv.line h q found

theorem InOrder.new (inv : InOrder s events) (safe : Safe s') {q : PublicationState}
    (handles : s'.handles = s.handles ++ [q]) (fresh : q.version = 1) (calls : s'.calls = s.calls) :
    InOrder s' (events ++ [.published s.handles.length q.current]) := by
  have none_ : ∀ h, retirements h [.published s.handles.length q.current] = [] := fun _ => rfl
  obtain ⟨pubs,rets,flights⟩ := inv.numbered.unborn s.handles.length (Nat.le_refl _)
  refine ⟨safe,inv.numbered.new handles fresh calls,?_,?_,everywhereSnoc inv.law trivial⟩
  · intro h r seen
    rw [handles] at seen
    rw [retirementsAppend,none_,List.append_nil]
    rcases lookupSnoc seen with old | ⟨rfl,rfl⟩
    · exact inv.version h r old
    · rw [rets,fresh]
      rfl
  · intro h r seen
    rw [handles] at seen
    rw [retirementsAppend,none_,List.append_nil,publicationsAppend,calls]
    rcases lookupSnoc seen with old | ⟨rfl,rfl⟩
    · have apart : s.handles.length ≠ h := Nat.ne_of_gt (List.getElem?_eq_some_iff.mp old).1
      have other : publications h [.published s.handles.length q.current] = [] := by simp [publications,publishes,apart]
      rw [other,List.append_nil]
      exact inv.line h r old
    · rw [pubs,rets,flights]
      simp [publications,publishes]

theorem InOrder.swap (inv : InOrder s events) (safe : Safe s') {h pointer : Nat} {q : PublicationState}
    (found : s.handles[h]? = some q) (handles : s'.handles = s.handles.set h {q with current := pointer})
    (calls : s'.calls = .swapCount h q.current :: s.calls) : InOrder s' (events ++ [.published h pointer]) := by
  have none_ : ∀ x, retirements x [.published h pointer] = [] := fun _ => rfl
  refine ⟨safe,inv.numbered.swap found handles calls,?_,?_,everywhereSnoc inv.law trivial⟩
  · intro x r seen
    rw [handles] at seen
    rw [retirementsAppend,none_,List.append_nil]
    rcases lookupSet seen with ⟨rfl,rfl⟩ | ⟨_,old⟩
    · exact inv.version x q found
    · exact inv.version x r old
  · intro x r seen
    rw [handles] at seen
    rw [retirementsAppend,none_,List.append_nil,publicationsAppend,calls]
    rcases lookupSet seen with ⟨rfl,rfl⟩ | ⟨apart,old⟩
    · have balance := (inv.numbered.tallied x q found).balance
      have now : publications x [.published x pointer] = [pointer] := by simp [publications,publishes]
      have more : flight x (.swapCount x q.current :: s.calls) = q.current :: flight x s.calls := by
        simp [flight,Call.exchanged]
      rw [now,List.drop_append_of_le_length (by omega),inv.line x q found,more,List.reverse_cons]
    · have other : publications x [.published h pointer] = [] := by simp [publications,publishes,Ne.symm apart]
      rw [other,List.append_nil,flightCons (by simp [Call.exchanged,Ne.symm apart])]
      exact inv.line x r old

theorem InOrder.count (inv : InOrder s events) (safe : Safe s') {i h old : Nat} {q r : PublicationState}
    (taken : s.calls[i]? = some (.swapCount h old)) (found : s.handles[h]? = some q)
    (handles : s'.handles = s.handles.set h r) (current : r.current = q.current)
    (version : r.version = wrappingAdd 64 q.version 1) (calls : s'.calls = s.calls.eraseIdx i)
    (oldest : flight h (s.calls.drop (i + 1)) = []) (room : q.version < 2^64 - 1) :
    InOrder s' (events ++ [.retired ⟨old,wrappingAdd 64 q.version 1,h⟩]) := by
  have next : wrappingAdd 64 q.version 1 = 2 + (retirements h events).length := by
    have exact_ := inv.version h q found
    rw [wrappingAdd,Nat.mod_eq_of_lt (by omega),exact_]
    omega
  have now : retirements h [.retired ⟨old,wrappingAdd 64 q.version 1,h⟩] = [⟨old,wrappingAdd 64 q.version 1,h⟩] := by
    simp [retirements,retires]
  have other : ∀ x, x ≠ h → retirements x [.retired ⟨old,wrappingAdd 64 q.version 1,h⟩] = [] := by
    intro x apart
    simp [retirements,retires,Ne.symm apart]
  have silent : ∀ x, publications x [.retired ⟨old,wrappingAdd 64 q.version 1,h⟩] = [] := fun _ => rfl
  refine ⟨safe,inv.numbered.count taken found handles current version calls,?_,?_,?_⟩
  · intro x t seen
    rw [handles] at seen
    rw [retirementsAppend]
    rcases lookupSet seen with ⟨rfl,rfl⟩ | ⟨apart,before⟩
    · rw [now,List.length_append,List.length_singleton,version,next]
      omega
    · rw [other x apart,List.append_nil]
      exact inv.version x t before
  · intro x t seen
    rw [handles] at seen
    rw [retirementsAppend,publicationsAppend,silent,List.append_nil,calls]
    rcases lookupSet seen with ⟨rfl,rfl⟩ | ⟨apart,before⟩
    · obtain ⟨all,rest⟩ := flightTaken taken
      have line := inv.line x q found
      rw [all,oldest] at line
      rw [now,List.length_append,List.length_singleton,← List.drop_drop,line,rest,oldest,current]
      simp
    · rw [other x apart,List.append_nil,flightElsewhere taken apart]
      exact inv.line x t before
  · refine everywhereSnoc inv.law ?_
    have number := inv.number taken found
    rw [oldest,List.length_nil] at number
    change wrappingAdd 64 q.version 1 = numberOf (publications h events) old + 1
    rw [next,number]
    omega

theorem stepInOrder {action : Action} (inv : InOrder s events) (ok : guarded step orderly s action = some (s',out)) :
    InOrder s' (events ++ out) := by
  obtain ⟨met,moved⟩ := guardedStep.mp ok
  have safe := stepSafe inv.safe (stepMoves moved)
  cases stepPublishes moved with
  | still same => exact inv.still same safe
  | new handles fresh calls => exact inv.new safe handles fresh calls
  | swap found handles calls => exact inv.swap safe found handles calls
  | count same taken found handles current version calls =>
    subst same
    simp only [orderly,taken,found,Option.all_some,Bool.and_eq_true,List.isEmpty_iff,decide_eq_true_eq] at met
    exact inv.count safe taken found handles current version calls met.1 met.2

theorem initInOrder : InOrder init [] := by
  refine ⟨initSafe,initNumbered,?_,?_,everywhereNil⟩ <;> intro h q found <;> simp [init] at found

theorem countStep {i h old : Nat} (taken : s.calls[i]? = some (.swapCount h old))
    (ok : step s (.advance i) = some (s',out)) :
    ∃ q, s.handles[h]? = some q ∧ out = [.retired ⟨old,wrappingAdd 64 q.version 1,h⟩] := by
  obtain ⟨⟨c,rest⟩,picked,moved⟩ := Option.bind_eq_some_iff.mp ok
  obtain ⟨d,there,split⟩ := Option.map_eq_some_iff.mp picked
  cases split
  cases Option.some.inj (taken.symm.trans there)
  obtain ⟨q,found,last⟩ := Option.bind_eq_some_iff.mp moved
  cases Option.some.inj last
  exact ⟨q,found,rfl⟩

theorem InOrder.exact (inv : InOrder s events) {action : Action} (ok : step s action = some (s',out))
    (lawful : Everywhere Stamped (events ++ out)) : orderly s action = true := by
  cases action with
  | advance i =>
    cases taken : s.calls[i]? with
    | none => simp [orderly,taken]
    | some c =>
      cases c with
      | swapCount h old =>
        obtain ⟨q,found,rfl⟩ := countStep taken ok
        have stamped : wrappingAdd 64 q.version 1 = numberOf (publications h events) old + 1 := lawful events _ [] rfl
        have version := inv.version h q found
        rw [inv.number taken found,version,wrappingAdd] at stamped
        have below := Nat.mod_le (1 + (retirements h events).length + 1) (2^64)
        have small := Nat.mod_lt (1 + (retirements h events).length + 1) (Nat.two_pow_pos 64)
        have oldest : flight h (s.calls.drop (i + 1)) = [] := List.length_eq_zero_iff.mp (by omega)
        have room : q.version < 2^64 - 1 := by omega
        simp only [orderly,taken,found,oldest,Option.all_some,List.isEmpty_nil,Bool.true_and,decide_eq_true_eq]
        exact room
      | _ => simp [orderly,taken]
  | _ => rfl

end Kept

theorem stampedOrdered {events : List Event} (stamped : Everywhere Stamped events) : Ordered events := by
  intro past₁ t₁ rest₁ past₂ t₂ rest₂ first second _ earlier
  have left : t₁.retiredAtVersion = numberOf (publications t₁.state past₁) t₁.pointer + 1 := stamped _ _ _ first
  have right : t₂.retiredAtVersion = numberOf (publications t₂.state past₂) t₂.pointer + 1 := stamped _ _ _ second
  omega

theorem retirementOrderExact (actions : List Action) (s : Shared) (events : List Event) :
    run (guarded step orderly) init actions = some (s,events) ↔
    run step init actions = some (s,events) ∧ Everywhere Stamped events ∧ Ordered events := by
  constructor
  · intro ran
    have inv : InOrder s events :=
      runInvariant (P := InOrder) initInOrder (fun _ _ _ _ _ inv moved => stepInOrder inv moved) ran
    exact ⟨runGuarded ran,inv.law,stampedOrdered inv.law⟩
  · rintro ⟨ran,stamped,_⟩
    exact runObeys (P := InOrder) (Q := Stamped) (fun _ _ _ _ _ inv moved => stepInOrder inv moved)
      (fun _ _ _ _ _ inv moved lawful => inv.exact moved lawful) initInOrder ran stamped

/- The second exchange counts before the first. -/
def overtaken : List Action :=
  [.compile 1,.new 0,.compile 2,.compile 3,.swap 0 1,.swap 0 0,.advance 0,.advance 0]

theorem overtakenDisordered :
    (∃ s, run step init overtaken = some (s,[.published 0 1,.published 0 2,.published 0 3,.retired ⟨2,2,0⟩,.retired ⟨1,3,0⟩])) ∧
    ¬∀ actions s events, run step init actions = some (s,events) → Everywhere Stamped events ∧ Ordered events := by
  have ran : ∃ s, run step init overtaken =
      some (s,[.published 0 1,.published 0 2,.published 0 3,.retired ⟨2,2,0⟩,.retired ⟨1,3,0⟩]) := ⟨_,rfl⟩
  refine ⟨ran,?_⟩
  intro always
  obtain ⟨s,ran⟩ := ran
  have ordered := (always overtaken s _ ran).2
  have less := ordered [.published 0 1,.published 0 2,.published 0 3,.retired ⟨2,2,0⟩] ⟨1,3,0⟩ []
    [.published 0 1,.published 0 2,.published 0 3] ⟨2,2,0⟩ [.retired ⟨1,3,0⟩] rfl rfl rfl (by decide)
  revert less
  decide

end Riaps.Publication
