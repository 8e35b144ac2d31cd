import Riaps.PublicationPins

/-! Why a pinned graph is not reclaimed. When the re-load of `current` succeeds, the
graph has its one owner in the current slot and the hazard already names it.
From there it can only go to a token of the same handle, and such a token is
turned away for as long as the hazard stands. -/
namespace Riaps.Publication
open Library.Machine Library.Pools

structure Shielded (s : Shared) (h p : Nat) : Prop where
  boxes : p ∉ s.boxes
  tokens : ∀ t ∈ s.tokens, t.pointer = p → t.state = h
  handles : ∀ x q, s.handles[x]? = some q → p ∈ q.holding → x = h
  calls : ∀ c ∈ s.calls, p ∈ c.holding → c = .swapCount h p

structure Guarded (s : Shared) (g : DspGraphReadGuard) : Prop where
  graph : s.heap g.pointer = g.graph
  live : g.graph ≠ none
  shield : Shielded s g.handle g.pointer

section Shields
variable {s s' : Shared} {h p : Nat}

theorem Shielded.pass (shield : Shielded s h p) (boxes : p ∈ s'.boxes → p ∈ s.boxes)
    (tokens : ∀ t ∈ s'.tokens, t ∈ s.tokens ∨ (t.pointer = p → t.state = h))
    (handles : ∀ x r, s'.handles[x]? = some r → p ∈ r.holding → x = h ∨ ∃ q, s.handles[x]? = some q ∧ p ∈ q.holding)
    (calls : ∀ c ∈ s'.calls, c ∈ s.calls ∨ (p ∈ c.holding → c = .swapCount h p)) : Shielded s' h p := by
  refine ⟨fun mem => shield.boxes (boxes mem),?_,?_,?_⟩
  · intro t mem
    exact (tokens t mem).elim (shield.tokens t) id
  · intro x r seen held
    rcases handles x r seen held with same | ⟨q,found,old⟩
    · exact same
    · exact shield.handles x q found old
  · intro c mem
    exact (calls c mem).elim (shield.calls c) id

theorem keepsHandles (x : Nat) (r : PublicationState) (seen : s.handles[x]? = some r) (held : p ∈ r.holding) :
    x = h ∨ ∃ q, s.handles[x]? = some q ∧ p ∈ q.holding := .inr ⟨r,seen,held⟩

theorem writesHandle {y : Nat} {q q' : PublicationState} (found : s.handles[y]? = some q)
    (less : p ∈ q'.holding → y = h ∨ p ∈ q.holding) (x : Nat) (r : PublicationState)
    (seen : (s.handles.set y q')[x]? = some r) (held : p ∈ r.holding) :
    x = h ∨ ∃ q, s.handles[x]? = some q ∧ p ∈ q.holding := by
  rcases lookupSet seen with ⟨rfl,rfl⟩ | ⟨_,old⟩
  · exact (less held).imp_right (fun held => ⟨q,found,held⟩)
  · exact .inr ⟨r,old,held⟩

theorem Shielded.call {c : Call} {rest : List Call} (shield : Shielded s h p) (taken : s.calls.Perm (c :: rest))
    (held : p ∈ c.holding) : c = .swapCount h p :=
  shield.calls c (taken.mem_iff.mpr List.mem_cons_self) held

theorem releaseGuarded {g : DspGraphReadGuard} {x : Nat} {out : List Event} (guarded : Guarded s g)
    (ok : release s x = some (s',out)) (survives : ∀ q, s.handles[x]? = some q → q.strong = 1 → x ≠ g.handle) :
    Guarded s' g := by
  obtain ⟨q,found,cases_⟩ := releaseCases ok
  have less : ∀ n, n ≤ q.strong → g.pointer ∈ ({q with strong := n} : PublicationState).holding →
      x = g.handle ∨ g.pointer ∈ q.holding := by
    intro n fewer held
    simp only [PublicationState.holding] at held ⊢
    split at held
    · cases held
    · rw [if_neg (by omega)]
      exact .inr held
  have written : ∀ n, n ≤ q.strong → Shielded (update s x {q with strong := n}) g.handle g.pointer := fun n fewer =>
    guarded.shield.pass id (fun t mem => .inl mem) (writesHandle found (less n fewer)) (fun c mem => .inl mem)
  rcases cases_ with ⟨single,_,rfl,_⟩ | ⟨single,_,rfl,_⟩ | ⟨several,rfl,_⟩
  · exact ⟨guarded.graph,guarded.live,written 0 (by omega)⟩
  · have apart : g.pointer ≠ q.current := by
      intro same
      have held : g.pointer ∈ q.holding := by simp [PublicationState.holding,single,same]
      exact survives q found single (guarded.shield.handles x q found held)
    have kept := written 0 (by omega)
    refine ⟨?_,guarded.live,⟨kept.boxes,kept.tokens,kept.handles,kept.calls⟩⟩
    exact (Function.update_of_ne apart _ _).trans guarded.graph
  · exact ⟨guarded.graph,guarded.live,written _ (by omega)⟩

theorem guardsKept {out : List Event} (moved : Moves s out s') {g : DspGraphReadGuard} (mem : g ∈ s'.guards) :
    g ∈ s.guards ∨ ∃ rest q, s.calls.Perm (.pinValidate g.call g.handle g.pointer :: rest) ∧
      s.handles[g.handle]? = some q ∧ q.current = g.pointer ∧ s.heap g.pointer = g.graph ∧
      s' = {s with guards := g :: s.guards, calls := rest} := by
  have released : ∀ {r : Shared} {x : Nat} {out : List Event}, release r x = some (s',out) → r.guards = s.guards →
      g ∈ s.guards := by
    intro r x out ok same
    rw [(releaseKeeps ok).2.2.1,same] at mem
    exact mem
  cases moved with
  | dropGuard taken found => exact .inl (taken.mem_iff.mpr (List.mem_cons_of_mem _ mem))
  | dropToken taken ok => exact .inl (released ok rfl)
  | dropHandle found owned unused ok => exact .inl (released ok rfl)
  | @pinValid call handle pointer q rest taken found current =>
    rcases List.mem_cons.mp mem with rfl | old
    · exact .inr ⟨rest,q,taken,found,current,rfl,rfl⟩
    · exact .inl old
  | recoverBox taken ok => exact .inl (released ok rfl)
  | reclaimBox taken ok => exact .inl (released ok rfl)
  | _ => exact .inl mem

theorem keepGuarded {out : List Event} {g : DspGraphReadGuard} (owned : Owned s) (pinned : Pinned s) (mem : g ∈ s.guards)
    (guarded : Guarded s g) (moved : Moves s out s') : Guarded s' g := by
  obtain ⟨graph,live,shield⟩ := guarded
  obtain ⟨q₀,here,hazard⟩ := pinned.announced g.handle g.pointer (memAnnounces.mpr (.inl ⟨g,mem,rfl⟩))
  have borrow : g.handle ∈ borrows s := memBorrows.mpr (.inl ⟨g,mem,rfl⟩)
  have strong : ∀ q, s.handles[g.handle]? = some q → q.strong = 1 + claiming s g.handle :=
    fun q found => owned.alive pinned.borrowed borrow found
  have inHeap : s.heap g.pointer ≠ none := graph ▸ live
  have recovering : ∀ {state pointer reclaim rest}, s.calls.Perm (.recover state pointer reclaim :: rest) →
      ∀ q, s.handles[state]? = some q → q.strong = 1 → state ≠ g.handle := by
    intro state pointer reclaim rest taken q found single same
    rw [same] at found
    have count := strong q found
    have pool := tallyPerm Call.claims taken g.handle
    rw [claiming,pool] at count
    simp [Call.claims,same] at count
    omega
  cases moved with
  | idle quiet => exact ⟨graph,live,shield⟩
  | @compile address nonnull unused =>
    have apart : g.pointer ≠ address := fun same => inHeap (same ▸ unused)
    refine ⟨(Function.update_of_ne apart _ _).trans graph,live,shield.pass ?_ (fun t mem => .inl mem) keepsHandles
      (fun c mem => .inl mem)⟩
    exact fun mem => (List.mem_cons.mp mem).resolve_left apart
  | @dropBox pointer rest taken =>
    have apart : g.pointer ≠ pointer := fun same => shield.boxes (taken.mem_iff.mpr (same ▸ List.mem_cons_self))
    refine ⟨(Function.update_of_ne apart _ _).trans graph,live,shield.pass ?_ (fun t mem => .inl mem) keepsHandles
      (fun c mem => .inl mem)⟩
    exact fun mem => taken.mem_iff.mpr (List.mem_cons_of_mem _ mem)
  | @new pointer rest taken =>
    refine ⟨graph,live,shield.pass ?_ (fun t mem => .inl mem) ?_ (fun c mem => .inl mem)⟩
    · exact fun mem => taken.mem_iff.mpr (List.mem_cons_of_mem _ mem)
    · intro x r seen held
      rcases lookupSnoc seen with old | ⟨rfl,rfl⟩
      · exact .inr ⟨r,old,held⟩
      · exact absurd (taken.mem_iff.mpr (List.mem_singleton.mp held ▸ List.mem_cons_self)) shield.boxes
  | tryPin found owned free =>
    exact ⟨graph,live,shield.pass id (fun t mem => .inl mem) (writesHandle found .inr) (fromAdded (by simp [Call.holding]))⟩
  | dropGuard taken found =>
    exact ⟨graph,live,shield.pass id (fun t mem => .inl mem) (writesHandle found .inr) (fromAdded (by simp [Call.holding]))⟩
  | @swap handle q pointer rest found mine taken =>
    have some_ : q.strong ≠ 0 := by
      rw [owned.counted.strong handle q found,if_pos mine]
      omega
    have loose : g.pointer ≠ pointer := fun same => shield.boxes (taken.mem_iff.mpr (same ▸ List.mem_cons_self))
    refine ⟨graph,live,shield.pass ?_ (fun t mem => .inl mem) (writesHandle found ?_) (fromAdded ?_)⟩
    · exact fun mem => taken.mem_iff.mpr (List.mem_cons_of_mem _ mem)
    · intro held
      simp only [PublicationState.holding,some_,if_false,List.mem_singleton] at held
      exact absurd held loose
    · intro held
      have was : g.pointer ∈ q.holding := by simpa [PublicationState.holding,some_,Call.holding] using held
      cases shield.handles handle q found was
      rw [List.mem_singleton.mp held]
  | @tryIntoBox t rest q reclaim taken found clear =>
    have listed : t ∈ s.tokens := taken.mem_iff.mpr List.mem_cons_self
    refine ⟨graph,live,shield.pass id (fun r mem => .inl (taken.mem_iff.mpr (List.mem_cons_of_mem t mem))) keepsHandles
      (fromAdded ?_)⟩
    intro held
    have same := List.mem_singleton.mp held
    have state := shield.tokens t listed same.symm
    rw [state] at found
    cases Option.some.inj (here.symm.trans found)
    exact absurd (hazard.trans same) clear
  | @dropToken t rest s' out taken released =>
    have less : Guarded {s with tokens := rest} g :=
      ⟨graph,live,shield.pass id (fun r mem => .inl (taken.mem_iff.mpr (List.mem_cons_of_mem t mem))) keepsHandles
        (fun c mem => .inl mem)⟩
    refine releaseGuarded less released ?_
    intro q found single same
    rw [same] at found
    have count := strong q found
    have pool := tallyPerm RetiredDspGraph.claims taken g.handle
    rw [claiming,pool] at count
    simp [RetiredDspGraph.claims,same] at count
    omega
  | @dropHandle handle q s' out found mine unused released =>
    have apart : handle ≠ g.handle := fun same => unused (same ▸ borrow)
    exact releaseGuarded (s := update s handle {q with owned := false})
      ⟨graph,live,shield.pass id (fun t mem => .inl mem) (writesHandle found .inr) (fun c mem => .inl mem)⟩ released
      (fun _ _ _ => apart)
  | pinLoad taken found =>
    exact ⟨graph,live,shield.pass id (fun t mem => .inl mem) keepsHandles (fromTurned taken (by simp [Call.holding]))⟩
  | pinPublish taken found =>
    exact ⟨graph,live,shield.pass id (fun t mem => .inl mem) (writesHandle found .inr)
      (fromTurned taken (by simp [Call.holding]))⟩
  | pinValid taken found current =>
    exact ⟨graph,live,shield.pass id (fun t mem => .inl mem) keepsHandles (fromTaken taken)⟩
  | pinRetry taken =>
    exact ⟨graph,live,shield.pass id (fun t mem => .inl mem) keepsHandles (fromTurned taken (by simp [Call.holding]))⟩
  | unpin taken found =>
    exact ⟨graph,live,shield.pass id (fun t mem => .inl mem) (writesHandle found .inr) (fromTaken taken)⟩
  | @swapCount handle old q rest taken found =>
    refine ⟨graph,live,shield.pass id ?_ (writesHandle found ?_) (fromTaken taken)⟩
    · intro t mem
      rcases List.mem_cons.mp mem with rfl | listed
      · right
        intro same
        have call := shield.call taken (List.mem_singleton.mpr same.symm)
        exact (Call.swapCount.inj call).1
      · exact .inl listed
    · intro held
      have count := owned.alive pinned.borrowed (callBorrows taken (List.mem_singleton.mpr rfl)) found
      right
      simpa [PublicationState.holding,count] using held
  | @recoverBox state pointer rest s' out taken released =>
    have apart : g.pointer ≠ pointer := by
      intro same
      cases shield.call taken (List.mem_singleton.mpr same)
    refine releaseGuarded (s := {s with boxes := pointer :: s.boxes, calls := rest}) ⟨graph,live,shield.pass
      (fun mem => (List.mem_cons.mp mem).resolve_left apart) (fun t mem => .inl mem) keepsHandles (fromTaken taken)⟩
      released (recovering taken)
  | @reclaimBox state pointer rest s' out taken released =>
    have apart : g.pointer ≠ pointer := by
      intro same
      cases shield.call taken (List.mem_singleton.mpr same)
    refine releaseGuarded (s := {s with calls := .discard pointer :: rest}) ⟨graph,live,shield.pass id
      (fun t mem => .inl mem) keepsHandles (fromTurned taken (fun held => absurd (List.mem_singleton.mp held) apart))⟩
      released (recovering taken)
  | @discard pointer rest taken =>
    have apart : g.pointer ≠ pointer := by
      intro same
      cases shield.call taken (List.mem_singleton.mpr same)
    exact ⟨(Function.update_of_ne apart _ _).trans graph,live,
      shield.pass id (fun t mem => .inl mem) keepsHandles (fromTaken taken)⟩

theorem soleShield {q : PublicationState} (owned : Owned s) (found : s.handles[h]? = some q) (held : p ∈ q.holding) :
    Shielded s h p := by
  have one := owned.ledger.sole p
  have mine : 0 < tally PublicationState.holding s.handles p :=
    (tallyPositive _).mpr ⟨q,List.mem_of_getElem? found,held⟩
  unfold owning at one
  refine ⟨?_,?_,?_,?_⟩
  · intro mem
    have more := List.count_pos_iff.mpr mem
    omega
  · intro t mem same
    have more : 0 < tally RetiredDspGraph.holding s.tokens p := (tallyPositive _).mpr ⟨t,mem,List.mem_singleton.mpr same.symm⟩
    omega
  · intro x r seen other
    by_contra apart
    have both := tallyApart PublicationState.holding seen found apart p
    have left := List.count_pos_iff.mpr other
    have right := List.count_pos_iff.mpr held
    omega
  · intro c mem other
    have more : 0 < tally Call.holding s.calls p := (tallyPositive _).mpr ⟨c,mem,other⟩
    omega

theorem newGuarded {g : DspGraphReadGuard} {q : PublicationState} {rest : List Call} (owned : Owned s) (pinned : Pinned s)
    (taken : s.calls.Perm (.pinValidate g.call g.handle g.pointer :: rest)) (found : s.handles[g.handle]? = some q)
    (current : q.current = g.pointer) (graph : s.heap g.pointer = g.graph) :
    Guarded {s with guards := g :: s.guards, calls := rest} g := by
  have count := owned.alive pinned.borrowed (callBorrows taken (List.mem_singleton.mpr rfl)) found
  have held : g.pointer ∈ q.holding := by simp [PublicationState.holding,count,current]
  have mine : 0 < tally PublicationState.holding s.handles g.pointer :=
    (tallyPositive _).mpr ⟨q,List.mem_of_getElem? found,held⟩
  refine ⟨graph,graph ▸ owned.ledger.backed g.pointer ?_,?_⟩
  · unfold owning
    omega
  · exact (soleShield owned found held).pass id (fun t mem => .inl mem) keepsHandles (fromTaken taken)

end Shields

structure Safe (s : Shared) : Prop where
  owned : Owned s
  pinned : Pinned s
  guarded : ∀ g ∈ s.guards, Guarded s g

theorem initSafe : Safe init := by
  refine ⟨⟨⟨rfl,?_,?_⟩,⟨?_,?_⟩⟩,⟨?_,?_,?_⟩,?_⟩ <;> simp [init,owning,claiming,tally,Borrowed,borrows,announces]

theorem stepSafe {s s' : Shared} {out : List Event} (inv : Safe s) (moved : Moves s out s') : Safe s' := by
  refine ⟨stepOwned inv.owned inv.pinned.borrowed moved,stepPinned inv.pinned moved,?_⟩
  intro g mem
  rcases guardsKept moved mem with old | ⟨rest,q,taken,found,current,graph,rfl⟩
  · exact keepGuarded inv.owned inv.pinned old (inv.guarded g old) moved
  · exact newGuarded inv.owned inv.pinned taken found current graph

theorem runSafe {actions : List Action} {s : Shared} {events : List Event}
    (ok : run step init actions = some (s,events)) : Safe s :=
  runInvariant (P := fun s _ => Safe s) initSafe (fun _ _ _ _ _ inv moved => stepSafe inv (stepMoves moved)) ok

theorem releaseEvents {s s' : Shared} {x : Nat} {out : List Event} (ok : release s x = some (s',out)) :
    (∀ p, .freed p ∈ out → s'.heap p = none) ∧ ∀ p, .recovered p ∉ out := by
  obtain ⟨q,_,cases_⟩ := releaseCases ok
  rcases cases_ with ⟨_,_,rfl,quiet⟩ | ⟨_,_,rfl,quiet⟩ | ⟨_,rfl,rfl⟩
  · exact ⟨fun p mem => (quiet _ mem).elim,fun p mem => quiet _ mem⟩
  · refine ⟨?_,?_⟩
    · intro p mem
      rcases quiet _ mem with loud | same
      · exact loud.elim
      · cases same
        exact Function.update_self _ _ _
    · intro p mem
      rcases quiet _ mem with loud | same
      · exact loud
      · cases same
  · exact ⟨by simp,by simp⟩

theorem moveEvents {s s' : Shared} {out : List Event} (moved : Moves s out s') {p : Nat}
    (mem : .freed p ∈ out ∨ .recovered p ∈ out) :
    s'.guards = s.guards ∧ (s'.heap p = none ∨ p ∈ s'.boxes ∨ .discard p ∈ s'.calls) := by
  cases moved with
  | idle quiet => exact (mem.elim (quiet _) (quiet _)).elim
  | @dropBox pointer rest taken =>
    have same : p = pointer := by simpa using mem
    rw [same]
    exact ⟨rfl,.inl (Function.update_self _ _ _)⟩
  | dropToken taken ok =>
    obtain ⟨_,_,guards,_⟩ := releaseKeeps ok
    obtain ⟨gone,none_⟩ := releaseEvents ok
    exact ⟨guards,.inl (gone p (mem.resolve_right (none_ p)))⟩
  | dropHandle found owned unused ok =>
    obtain ⟨_,_,guards,_⟩ := releaseKeeps ok
    obtain ⟨gone,none_⟩ := releaseEvents ok
    exact ⟨guards,.inl (gone p (mem.resolve_right (none_ p)))⟩
  | @recoverBox state pointer rest s' out taken ok =>
    obtain ⟨boxes,_,guards,_⟩ := releaseKeeps ok
    obtain ⟨gone,none_⟩ := releaseEvents ok
    refine ⟨guards,?_⟩
    rcases mem with freed | recovered
    · exact .inl (gone p (by simpa using freed))
    · have same : p = pointer := by simpa [none_] using recovered
      exact .inr (.inl (by rw [boxes,same]; exact List.mem_cons_self))
  | @reclaimBox state pointer rest s' out taken ok =>
    obtain ⟨_,_,guards,calls⟩ := releaseKeeps ok
    obtain ⟨gone,none_⟩ := releaseEvents ok
    refine ⟨guards,?_⟩
    rcases mem with freed | recovered
    · exact .inl (gone p (by simpa using freed))
    · have same : p = pointer := by simpa [none_] using recovered
      exact .inr (.inr (by rw [calls,same]; exact List.mem_cons_self))
  | @discard pointer rest taken =>
    have same : p = pointer := by simpa using mem
    rw [same]
    exact ⟨rfl,.inl (Function.update_self _ _ _)⟩
  | _ => simp at mem

theorem hazardProtects {actions : List Action} {s : Shared} {events : List Event}
    (ok : run step init actions = some (s,events)) :
    (s.guards.map DspGraphReadGuard.handle).Nodup ∧
    ∀ g ∈ s.guards,
      (∃ before after s₁ past q, actions = before ++ after ∧ run step init before = some (s₁,past) ∧
        .pinValidate g.call g.handle g.pointer ∈ s₁.calls ∧ s₁.handles[g.handle]? = some q ∧ q.current = g.pointer ∧
        s₁.heap g.pointer = g.graph) ∧
      g.graph ≠ none ∧ s.heap g.pointer = g.graph ∧
      ∀ action s' out, step s action = some (s',out) → .freed g.pointer ∉ out ∧ .recovered g.pointer ∉ out := by
  have safe := runSafe ok
  refine ⟨?_,?_⟩
  · apply List.nodup_iff_count.mpr
    intro h
    have one := safe.pinned.atMostOne h
    have same : tally DspGraphReadGuard.pins s.guards h = (s.guards.map DspGraphReadGuard.handle).count h := by
      rw [tally,List.map_eq_flatMap]
      rfl
    unfold pinning at one
    omega
  · intro g mem
    refine ⟨?_,(safe.guarded g mem).live,(safe.guarded g mem).graph,?_⟩
    · obtain ⟨before,action,after,s₁,past,s₂,out,rfl,reached,moved,was,became⟩ :=
        runBecame (Q := fun s => g ∈ s.guards) ok (by simp [init]) mem
      rcases guardsKept (stepMoves moved) became with old | ⟨rest,q,taken,found,current,graph,_⟩
      · exact absurd old was
      · exact ⟨before,action :: after,s₁,past,q,rfl,reached,taken.mem_iff.mpr List.mem_cons_self,found,current,graph⟩
    · intro action s' out moved
      have next := stepSafe safe (stepMoves moved)
      have quiet : ¬(.freed g.pointer ∈ out ∨ .recovered g.pointer ∈ out) := by
        intro loud
        obtain ⟨guards,fate⟩ := moveEvents (stepMoves moved) loud
        have kept := next.guarded g (guards ▸ mem)
        rcases fate with gone | boxed | doomed
        · exact kept.live (kept.graph.symm.trans gone)
        · exact kept.shield.boxes boxed
        · cases kept.shield.calls _ doomed (List.mem_singleton.mpr rfl)
      exact not_or.mp quiet

/- Address 1 is retired, freed, allocated again and published again while a pin stands between
its two loads. -/
def reuse : List Action :=
  [.compile 1,.new 0,.compile 2,.tryPin 0,.advance 0,.swap 0 0,.advance 0,.tryIntoBox 0 true,.advance 0,.advance 0,
    .compile 1,.swap 0 0,.advance 0,.advance 0,.advance 0,.compile 3,.swap 0 0,.advance 0]

theorem hazardProtectsReuse :
    ∃ s events s' out, run step init reuse = some (s,events) ∧ s.guards = [⟨0,0,1,some 2⟩] ∧ s.heap 1 = some 2 ∧
      step s (.tryIntoBox 0 true) = some (s',out) ∧ .freed 1 ∉ out ∧ .recovered 1 ∉ out := by
  have tested : (run step init reuse).any (fun r => decide (r.1.guards = [⟨0,0,1,some 2⟩]) &&
      (step r.1 (.tryIntoBox 0 true)).isSome) = true := by decide
  obtain ⟨⟨s,events⟩,ran,tested⟩ := (Option.any_eq_true _ _).mp tested
  obtain ⟨guards,moves⟩ := Bool.and_eq_true_iff.mp tested
  obtain ⟨⟨s',out⟩,moved⟩ := Option.isSome_iff_exists.mp moves
  have live : s.guards = [⟨0,0,1,some 2⟩] := of_decide_eq_true guards
  obtain ⟨_,_,heap,safe⟩ := (hazardProtects ran).2 ⟨0,0,1,some 2⟩ (by simp [live])
  exact ⟨s,events,s',out,ran,live,heap,moved,safe _ _ _ moved⟩

end Riaps.Publication
