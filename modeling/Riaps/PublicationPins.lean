import Riaps.PublicationOwners

/-! Who has the pin of a handle. At most one party is between the exchange that set
`pin_active` and the store that clears it, and only that party writes the
hazard: what it has announced stands there until it takes it back itself. -/
namespace Riaps.Publication
open Library.Pools

def DspGraphReadGuard.pins (g : DspGraphReadGuard) : List Nat := [g.handle]

def DspGraphReadGuard.announces (g : DspGraphReadGuard) : List (Nat × Nat) := [(g.handle,g.pointer)]

def Call.pins : Call → List Nat
  | .pinLoad _ handle => [handle]
  | .pinPublish _ handle _ => [handle]
  | .pinValidate _ handle _ => [handle]
  | .unpin handle => [handle]
  | _ => []

def Call.announces : Call → List (Nat × Nat)
  | .pinValidate _ handle pointer => [(handle,pointer)]
  | _ => []

def pinning (s : Shared) (h : Nat) : Nat := tally DspGraphReadGuard.pins s.guards h + tally Call.pins s.calls h

def announces (s : Shared) : List (Nat × Nat) :=
  s.guards.flatMap DspGraphReadGuard.announces ++ s.calls.flatMap Call.announces

structure Pinned (s : Shared) : Prop where
  active : ∀ h q, s.handles[h]? = some q → pinning s h = if q.pinActive then 1 else 0
  borrowed : Borrowed s
  announced : ∀ h p, (h,p) ∈ announces s → ∃ q, s.handles[h]? = some q ∧ q.hazard = p

theorem memBorrows {s : Shared} {h : Nat} :
    h ∈ borrows s ↔ (∃ g ∈ s.guards, h = g.handle) ∨ ∃ c ∈ s.calls, h ∈ c.borrows := by
  simp only [borrows,List.mem_append,List.mem_map,List.mem_flatMap,eq_comm]

theorem memAnnounces {s : Shared} {a : Nat × Nat} :
    a ∈ announces s ↔ (∃ g ∈ s.guards, a = (g.handle,g.pointer)) ∨ ∃ c ∈ s.calls, a ∈ c.announces := by
  simp [announces,DspGraphReadGuard.announces]

theorem Call.pinsBorrow {c : Call} {h : Nat} (pins : h ∈ c.pins) : h ∈ c.borrows := by
  cases c <;> simp_all [Call.pins,Call.borrows]

theorem Call.announcesPin {c : Call} {h p : Nat} (announced : (h,p) ∈ c.announces) : h ∈ c.pins := by
  cases c <;> simp_all [Call.pins,Call.announces]

section Facts
variable {s s' : Shared} {h : Nat} {q q' : PublicationState}

theorem pinningBorrows (held : 0 < pinning s h) : h ∈ borrows s := by
  rw [memBorrows]
  rcases Nat.add_pos_iff_pos_or_pos.mp held with guard | call
  · obtain ⟨g,mem,named⟩ := (tallyPositive _).mp guard
    exact .inl ⟨g,mem,List.mem_singleton.mp named⟩
  · obtain ⟨c,mem,named⟩ := (tallyPositive _).mp call
    exact .inr ⟨c,mem,c.pinsBorrow named⟩

theorem announcesPinning {p : Nat} (announced : (h,p) ∈ announces s) : 0 < pinning s h := by
  rcases memAnnounces.mp announced with ⟨g,mem,same⟩ | ⟨c,mem,named⟩
  · have guard : 0 < tally DspGraphReadGuard.pins s.guards h :=
      (tallyPositive _).mpr ⟨g,mem,List.mem_singleton.mpr (congrArg Prod.fst same)⟩
    exact Nat.add_pos_left guard _
  · have call : 0 < tally Call.pins s.calls h := (tallyPositive _).mpr ⟨c,mem,c.announcesPin named⟩
    exact Nat.add_pos_right _ call

theorem Pinned.atMostOne (inv : Pinned s) (h : Nat) : pinning s h ≤ 1 := by
  by_cases held : 0 < pinning s h
  · obtain ⟨q,found,_⟩ := inv.borrowed h (pinningBorrows held)
    rw [inv.active h q found]
    split <;> omega
  · omega

theorem Pinned.reorder (inv : Pinned s) {guards : List DspGraphReadGuard} {calls : List Call}
    (sameGuards : s.guards.Perm guards) (sameCalls : s.calls.Perm calls) :
    Pinned {s with guards := guards, calls := calls} := by
  refine ⟨?_,?_,?_⟩
  · intro x r found
    simp only [pinning,← tallyPerm _ sameGuards,← tallyPerm _ sameCalls]
    exact inv.active x r found
  · intro x mem
    simp only [memBorrows,← sameGuards.mem_iff,← sameCalls.mem_iff] at mem
    exact inv.borrowed x (memBorrows.mpr mem)
  · intro x p mem
    simp only [memAnnounces,← sameGuards.mem_iff,← sameCalls.mem_iff] at mem
    exact inv.announced x p (memAnnounces.mpr mem)

theorem Pinned.recall (inv : Pinned s) (handles : s'.handles = s.handles) (pins : ∀ x, pinning s' x = pinning s x)
    (borrow : ∀ x ∈ borrows s', x ∈ borrows s) (announce : ∀ a ∈ announces s', a ∈ announces s) : Pinned s' := by
  refine ⟨?_,?_,?_⟩
  · intro x r found
    rw [pins]
    exact inv.active x r (handles ▸ found)
  · intro x mem
    rw [handles]
    exact inv.borrowed x (borrow x mem)
  · intro x p mem
    rw [handles]
    exact inv.announced x p (announce _ mem)

theorem Pinned.write (inv : Pinned s) (found : s.handles[h]? = some q) (handles : s'.handles = s.handles.set h q')
    (here : pinning s' h = if q'.pinActive then 1 else 0) (others : ∀ x, x ≠ h → pinning s' x = pinning s x)
    (borrow : ∀ x ∈ borrows s', (x = h ∧ q'.owned = true) ∨ (x ≠ h ∧ x ∈ borrows s))
    (announce : ∀ x p, (x,p) ∈ announces s' → (x = h ∧ q'.hazard = p) ∨ (x ≠ h ∧ (x,p) ∈ announces s)) : Pinned s' := by
  have bound := (List.getElem?_eq_some_iff.mp found).1
  have self : s'.handles[h]? = some q' := by rw [handles,List.getElem?_set_self bound]
  have elsewhere : ∀ x, x ≠ h → s'.handles[x]? = s.handles[x]? := by
    intro x apart
    rw [handles,List.getElem?_set_ne apart.symm]
  refine ⟨?_,?_,?_⟩
  · intro x r seen
    rw [handles] at seen
    rcases lookupSet seen with ⟨rfl,rfl⟩ | ⟨apart,old⟩
    · exact here
    · rw [others x apart]
      exact inv.active x r old
  · intro x mem
    rcases borrow x mem with ⟨rfl,owned⟩ | ⟨apart,old⟩
    · exact ⟨q',self,owned⟩
    · rw [elsewhere x apart]
      exact inv.borrowed x old
  · intro x p mem
    rcases announce x p mem with ⟨rfl,hazard⟩ | ⟨apart,old⟩
    · exact ⟨q',self,hazard⟩
    · rw [elsewhere x apart]
      exact inv.announced x p old

theorem Pinned.rewrite (inv : Pinned s) (found : s.handles[h]? = some q) (q' : PublicationState)
    (active : q'.pinActive = q.pinActive) (hazard : q'.hazard = q.hazard) (owned : q'.owned = q.owned) :
    Pinned (update s h q') := by
  refine inv.write found rfl (by rw [active]; exact inv.active h q found) (fun _ _ => rfl) ?_ ?_
  · intro x mem
    by_cases same : x = h
    · subst same
      obtain ⟨r,seen,kept⟩ := inv.borrowed x mem
      cases Option.some.inj (found.symm.trans seen)
      exact .inl ⟨rfl,owned.trans kept⟩
    · exact .inr ⟨same,mem⟩
  · intro x p mem
    by_cases same : x = h
    · subst same
      obtain ⟨r,seen,kept⟩ := inv.announced x p mem
      cases Option.some.inj (found.symm.trans seen)
      exact .inl ⟨rfl,hazard.trans kept⟩
    · exact .inr ⟨same,mem⟩

theorem releasePinned {out : List Event} (inv : Pinned s) (ok : release s h = some (s',out)) : Pinned s' := by
  obtain ⟨q,found,cases_⟩ := releaseCases ok
  rcases cases_ with ⟨_,_,rfl,_⟩ | ⟨_,_,rfl,_⟩ | ⟨_,rfl,_⟩
  · exact inv.rewrite found _ rfl rfl rfl
  · have kept := inv.rewrite found {q with strong := 0} rfl rfl rfl
    exact ⟨kept.active,kept.borrowed,kept.announced⟩
  · exact inv.rewrite found _ rfl rfl rfl

theorem pinningCall (s : Shared) (c : Call) (rest : List Call) (x : Nat) :
    pinning {s with calls := c :: rest} x = c.pins.count x + pinning {s with calls := rest} x := by
  simp only [pinning,tallyCons]
  omega

theorem pinningGuard (s : Shared) (g : DspGraphReadGuard) (rest : List DspGraphReadGuard) (x : Nat) :
    pinning {s with guards := g :: rest} x = [g.handle].count x + pinning {s with guards := rest} x := by
  simp only [pinning,tallyCons,DspGraphReadGuard.pins]
  omega

theorem borrowsCall {c : Call} {rest : List Call} {x : Nat} :
    x ∈ borrows {s with calls := c :: rest} ↔ x ∈ c.borrows ∨ x ∈ borrows {s with calls := rest} := by
  simp only [borrows,List.flatMap_cons,List.mem_append]
  tauto

theorem borrowsGuard {g : DspGraphReadGuard} {rest : List DspGraphReadGuard} {x : Nat} :
    x ∈ borrows {s with guards := g :: rest} ↔ x = g.handle ∨ x ∈ borrows {s with guards := rest} := by
  simp only [borrows,List.map_cons,List.cons_append,List.mem_cons]

theorem announcesCall {c : Call} {rest : List Call} {a : Nat × Nat} :
    a ∈ announces {s with calls := c :: rest} ↔ a ∈ c.announces ∨ a ∈ announces {s with calls := rest} := by
  simp only [announces,List.flatMap_cons,List.mem_append]
  tauto

theorem announcesGuard {g : DspGraphReadGuard} {rest : List DspGraphReadGuard} {a : Nat × Nat} :
    a ∈ announces {s with guards := g :: rest} ↔ a = (g.handle,g.pointer) ∨ a ∈ announces {s with guards := rest} := by
  simp only [announces,List.flatMap_cons,List.mem_append,DspGraphReadGuard.announces,List.mem_singleton,or_assoc]

/- The party that has the pin takes a step; `o` is everybody else. -/
theorem Pinned.turn {o : Shared} (inv : Pinned s) (found : s.handles[h]? = some q)
    (party : ∀ x, pinning s x = [h].count x + pinning o x) (borrowLess : ∀ x ∈ borrows o, x ∈ borrows s)
    (announceLess : ∀ a ∈ announces o, a ∈ announces s) (handles : s'.handles = s.handles.set h q')
    (owned : q'.owned = q.owned) {keeps : Bool} (active : q'.pinActive = keeps)
    (next : ∀ x, pinning s' x = (if keeps then [h] else []).count x + pinning o x)
    (borrow : ∀ x ∈ borrows s', x = h ∨ x ∈ borrows o)
    (announce : ∀ a ∈ announces s', a = (h,q'.hazard) ∨ a ∈ announces o) : Pinned s' := by
  have one := inv.atMostOne h
  have split := party h
  rw [List.count_singleton_self] at split
  have alone : pinning o h = 0 := by omega
  have mine : q.owned = true := by
    obtain ⟨r,seen,kept⟩ := inv.borrowed h (pinningBorrows (by omega))
    cases Option.some.inj (found.symm.trans seen)
    exact kept
  refine inv.write found handles ?_ ?_ ?_ ?_
  · rw [next,alone,active]
    cases keeps <;> simp
  · intro x apart
    rw [next,party]
    cases keeps <;> simp [apart.symm]
  · intro x mem
    by_cases same : x = h
    · exact .inl ⟨same,owned.trans mine⟩
    · exact .inr ⟨same,borrowLess x ((borrow x mem).resolve_left same)⟩
  · intro x p mem
    rcases announce _ mem with same | old
    · exact .inl ⟨congrArg Prod.fst same,(congrArg Prod.snd same).symm⟩
    · refine .inr ⟨?_,announceLess _ old⟩
      rintro rfl
      have held := announcesPinning old
      omega

theorem Pinned.isActive (inv : Pinned s) (found : s.handles[h]? = some q) (held : 0 < pinning s h) :
    q.pinActive = true := by
  by_contra idle
  rw [inv.active h q found,if_neg idle] at held
  exact Nat.lt_irrefl 0 held

theorem Pinned.bystander {c : Call} {rest : List Call} (inv : Pinned s) (taken : s.calls.Perm (c :: rest)) (more : List Call)
    (pins : c.pins = []) (others : ∀ d ∈ more, d.pins = [] ∧ d.borrows = [] ∧ d.announces = []) :
    Pinned {s with calls := more ++ rest} := by
  have ordered := inv.reorder (.refl _) taken
  refine ordered.recall rfl ?_ ?_ ?_
  · intro x
    have silent : tally Call.pins more x = 0 := by
      by_contra held
      obtain ⟨d,mem,named⟩ := (tallyPositive _).mp (Nat.pos_of_ne_zero held)
      simp [(others d mem).1] at named
    simp [pinning,silent,pins]
  · intro x mem
    rcases memBorrows.mp mem with guard | ⟨d,listed,named⟩
    · exact memBorrows.mpr (.inl guard)
    · rcases List.mem_append.mp listed with new_ | old
      · simp [(others d new_).2.1] at named
      · exact memBorrows.mpr (.inr ⟨d,List.mem_cons_of_mem c old,named⟩)
  · intro a mem
    rcases memAnnounces.mp mem with guard | ⟨d,listed,named⟩
    · exact memAnnounces.mpr (.inl guard)
    · rcases List.mem_append.mp listed with new_ | old
      · simp [(others d new_).2.2] at named
      · exact memAnnounces.mpr (.inr ⟨d,List.mem_cons_of_mem c old,named⟩)

theorem Pinned.grow (inv : Pinned s) (handles : s'.handles = s.handles ++ [q']) (idle : q'.pinActive = false)
    (calls : s'.calls = s.calls) (guards : s'.guards = s.guards) : Pinned s' := by
  have grown : ∀ {x r}, s.handles[x]? = some r → s'.handles[x]? = some r :=
    fun found => by rw [handles,List.getElem?_append_left (List.getElem?_eq_some_iff.mp found).1,found]
  have pins : ∀ x, pinning s' x = pinning s x := fun x => by simp only [pinning,calls,guards]
  refine ⟨?_,?_,?_⟩
  · intro x r seen
    rw [handles] at seen
    rw [pins]
    rcases lookupSnoc seen with old | ⟨rfl,rfl⟩
    · exact inv.active x r old
    · rw [idle]
      by_contra held
      obtain ⟨q,found,_⟩ := inv.borrowed _ (pinningBorrows (Nat.pos_of_ne_zero held))
      exact Nat.lt_irrefl _ (List.getElem?_eq_some_iff.mp found).1
  · intro x mem
    obtain ⟨q,found,owned⟩ := inv.borrowed x (by simpa only [borrows,calls,guards] using mem)
    exact ⟨q,grown found,owned⟩
  · intro x p mem
    obtain ⟨q,found,hazard⟩ := inv.announced x p (by simpa only [announces,calls,guards] using mem)
    exact ⟨q,grown found,hazard⟩

theorem stepPinned {out : List Event} (inv : Pinned s) (moved : Moves s out s') : Pinned s' := by
  cases moved with
  | idle quiet => exact inv
  | compile nonnull unused => exact ⟨inv.active,inv.borrowed,inv.announced⟩
  | dropBox taken => exact ⟨inv.active,inv.borrowed,inv.announced⟩
  | new taken => exact inv.grow rfl rfl rfl rfl
  | @tryPin handle q found owned free =>
    have none_ := inv.active handle q found
    rw [free] at none_
    refine inv.write found rfl ?_ ?_ ?_ ?_
    · change pinning {s with calls := .pinLoad s.pins handle :: s.calls} handle = 1
      rw [pinningCall]
      simpa [Call.pins] using none_
    · intro x apart
      change pinning {s with calls := .pinLoad s.pins handle :: s.calls} x = _
      rw [pinningCall]
      simp [Call.pins,apart.symm]
    · intro x mem
      by_cases same : x = handle
      · exact .inl ⟨same,owned⟩
      · exact .inr ⟨same,(borrowsCall.mp mem).resolve_left (by simpa [Call.borrows] using same)⟩
    · intro x p mem
      have old : (x,p) ∈ announces s := (announcesCall.mp mem).resolve_left (by simp [Call.announces])
      refine .inr ⟨?_,old⟩
      rintro rfl
      have held := announcesPinning old
      simp [none_] at held
  | @dropGuard g rest q taken found =>
    have ordered := inv.reorder taken (.refl _)
    have held : 0 < pinning {s with guards := g :: rest} g.handle := by
      rw [pinningGuard,List.count_singleton_self]
      omega
    have active : q.pinActive = true := ordered.isActive found held
    refine ordered.turn (o := {s with guards := rest}) found (pinningGuard s g rest) (fun x mem => borrowsGuard.mpr (.inr mem))
      (fun a mem => announcesGuard.mpr (.inr mem)) rfl rfl active ?_ ?_ ?_
    · exact fun x => pinningCall {s with guards := rest} (.unpin g.handle) s.calls x
    · intro x mem
      rcases (borrowsCall (s := {s with guards := rest})).mp mem with new_ | old
      · exact .inl (List.mem_singleton.mp new_)
      · exact .inr old
    · intro a mem
      rcases (announcesCall (s := {s with guards := rest})).mp mem with new_ | old
      · cases new_
      · exact .inr old
  | @swap handle q pointer rest found owned taken =>
    have written := inv.rewrite found {q with current := pointer} rfl rfl rfl
    refine ⟨?_,?_,?_⟩
    · intro x r seen
      have silent := pinningCall s (.swapCount handle q.current) s.calls x
      simp only [Call.pins,List.count_nil,Nat.zero_add] at silent
      exact silent.trans (written.active x r seen)
    · intro x mem
      rcases borrowsCall.mp mem with new_ | old
      · cases List.mem_singleton.mp new_
        exact ⟨_,List.getElem?_set_self (List.getElem?_eq_some_iff.mp found).1,owned⟩
      · exact written.borrowed x old
    · intro x p mem
      exact written.announced x p ((announcesCall.mp mem).resolve_left (by simp [Call.announces]))
  | @tryIntoBox t rest q reclaim taken found clear =>
    refine inv.recall rfl ?_ ?_ ?_
    · intro x
      simp [pinning,Call.pins]
    · exact fun x mem => (borrowsCall.mp mem).resolve_left (by simp [Call.borrows])
    · exact fun a mem => (announcesCall.mp mem).resolve_left (by simp [Call.announces])
  | @dropToken t rest s' out taken released =>
    exact releasePinned (s := {s with tokens := rest}) ⟨inv.active,inv.borrowed,inv.announced⟩ released
  | @dropHandle handle q s' out found owned unused released =>
    have apart : ∀ x ∈ borrows s, x ≠ handle := fun x mem same => unused (same ▸ mem)
    refine releasePinned (s := update s handle {q with owned := false}) (inv.write found rfl ?_ (fun _ _ => rfl) ?_ ?_) released
    · exact inv.active handle q found
    · exact fun x mem => .inr ⟨apart x mem,mem⟩
    · exact fun x p mem => .inr ⟨apart x (pinningBorrows (announcesPinning mem)),mem⟩
  | @pinLoad call handle q rest taken found =>
    refine (inv.reorder (.refl _) taken).recall rfl ?_ ?_ ?_
    · intro x
      simp [pinning,Call.pins]
    · exact fun x mem => borrowsCall.mpr (borrowsCall.mp mem)
    · exact fun a mem => announcesCall.mpr (announcesCall.mp mem)
  | @pinPublish call handle pointer q rest taken found =>
    have ordered := inv.reorder (.refl _) taken
    have held : 0 < pinning {s with calls := .pinPublish call handle pointer :: rest} handle := by
      rw [pinningCall,Call.pins,List.count_singleton_self]
      omega
    have active : q.pinActive = true := ordered.isActive found held
    refine ordered.turn (o := {s with calls := rest}) found (pinningCall s _ rest) (fun x mem => borrowsCall.mpr (.inr mem))
      (fun a mem => announcesCall.mpr (.inr mem)) rfl rfl active ?_ ?_ ?_
    · exact fun x => pinningCall s (.pinValidate call handle pointer) rest x
    · intro x mem
      rcases (borrowsCall (s := s)).mp mem with new_ | old
      · exact .inl (List.mem_singleton.mp new_)
      · exact .inr old
    · intro a mem
      rcases (announcesCall (s := s)).mp mem with new_ | old
      · exact .inl (List.mem_singleton.mp new_)
      · exact .inr old
  | @pinValid call handle pointer q rest taken found current =>
    refine (inv.reorder (.refl _) taken).recall rfl ?_ ?_ ?_
    · intro x
      simp only [pinning,tallyCons,Call.pins,DspGraphReadGuard.pins]
      omega
    · intro x mem
      rcases (borrowsGuard (s := {s with calls := rest})).mp mem with new_ | old
      · exact borrowsCall.mpr (.inl (List.mem_singleton.mpr new_))
      · exact borrowsCall.mpr (.inr old)
    · intro a mem
      rcases (announcesGuard (s := {s with calls := rest})).mp mem with new_ | old
      · exact announcesCall.mpr (.inl (List.mem_singleton.mpr new_))
      · exact announcesCall.mpr (.inr old)
  | @pinRetry call handle pointer rest taken =>
    refine (inv.reorder (.refl _) taken).recall rfl ?_ ?_ ?_
    · intro x
      simp [pinning,Call.pins]
    · exact fun x mem => borrowsCall.mpr (borrowsCall.mp mem)
    · exact fun a mem => announcesCall.mpr (.inr ((announcesCall.mp mem).resolve_left (by simp [Call.announces])))
  | @unpin handle q rest taken found =>
    have ordered := inv.reorder (.refl _) taken
    refine ordered.turn (o := {s with calls := rest}) found (pinningCall s _ rest) (fun x mem => borrowsCall.mpr (.inr mem))
      (fun a mem => announcesCall.mpr (.inr mem)) rfl rfl rfl ?_ (fun x mem => .inr mem) (fun a mem => .inr mem)
    intro x
    simp [pinning,update]
  | @swapCount handle old q rest taken found =>
    have gone := (inv.rewrite found
      {q with version := Library.Wrapping.wrappingAdd 64 q.version 1, strong := q.strong + 1} rfl rfl rfl).bystander
      taken [] rfl (by simp)
    exact ⟨gone.active,gone.borrowed,gone.announced⟩
  | @recoverBox state pointer rest s' out taken released =>
    have gone := inv.bystander taken [] rfl (by simp)
    exact releasePinned (s := {s with boxes := pointer :: s.boxes, calls := rest}) ⟨gone.active,gone.borrowed,gone.announced⟩
      released
  | @reclaimBox state pointer rest s' out taken released =>
    exact releasePinned (inv.bystander taken [.discard pointer] rfl (by simp [Call.pins,Call.borrows,Call.announces]))
      released
  | @discard pointer rest taken =>
    have gone := inv.bystander taken [] rfl (by simp)
    exact ⟨gone.active,gone.borrowed,gone.announced⟩

end Facts
end Riaps.Publication
