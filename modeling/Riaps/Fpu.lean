import Riaps.Library.Machine

/-! The guards over the floating-point control registers, one register for each
thread. A guard is a plain value that any thread may drop at any time; what it
restores is right where every thread drops its own newest guard, and the mode is
right exactly where it drops its first one last. Exceptions that arithmetic
raises stay in the register where the architecture keeps them there. -/
namespace Riaps.Fpu
open Library.Machine

structure FpUnit (w : Nat) where
  mode : BitVec w
  status : BitVec w

def FTZ_BIT : BitVec 32 := 1 <<< 15
def DAZ_BIT : BitVec 32 := 1 <<< 6
def FZ_BIT : BitVec 64 := 1 <<< 24

/- MXCSR has the exception flags in its low six bits, FPCR has none. -/
def mxcsr : FpUnit 32 := ⟨FTZ_BIT ||| DAZ_BIT,0x3f⟩
def fpcr : FpUnit 64 := ⟨FZ_BIT,0⟩

structure FpuGuard (w : Nat) where
  old : BitVec w
  deriving DecidableEq, Repr

section Machine
variable {w : Nat}

def FpuGuard.new (u : FpUnit w) (register : BitVec w) : FpuGuard w × BitVec w := (⟨register⟩,register ||| u.mode)

def FpuGuard.drop (guard : FpuGuard w) : BitVec w := guard.old

structure Living (w : Nat) where
  thread : Nat
  guard : FpuGuard w
  deriving DecidableEq, Repr

/- `living` has the guards that are not dropped yet, the newest first. -/
structure Threads (w : Nat) where
  registers : List (BitVec w)
  living : List (Living w)
  deriving DecidableEq, Repr

inductive Move (w : Nat) where
  | new (thread : Nat)
  | drop (thread place : Nat)
  | compute (thread : Nat) (raised : BitVec w)
  deriving DecidableEq, Repr

inductive Event (w : Nat) where
  | entered (thread : Nat)
  | left (thread : Nat)
  | raised (thread : Nat) (flags : BitVec w)
  deriving DecidableEq, Repr

def step (u : FpUnit w) : Step (Threads w) (Move w) (Event w) := fun s move =>
  match move with
  | .new t => do
      let old ← s.registers[t]?
      let made := FpuGuard.new u old
      some ({s with registers := s.registers.set t made.2, living := ⟨t,made.1⟩ :: s.living},[.entered t])
  | .drop t place => do
      let _ ← s.registers[t]?
      let dropped ← s.living[place]?
      some ({s with registers := s.registers.set t dropped.guard.drop, living := s.living.eraseIdx place},[.left t])
  | .compute t flags => do
      let old ← s.registers[t]?
      some ({s with registers := s.registers.set t (old ||| (flags &&& u.status))},[.raised t (flags &&& u.status)])

def nested (s : Threads w) : Move w → Bool
  | .drop t place => (s.living.take place).all (fun g => g.thread != t) &&
      s.living[place]?.any (fun g => g.thread == t)
  | _ => true

/- The flags raised in every scope of a thread that is still open, the innermost first. -/
def scopeStep (t : Nat) : List (BitVec w) → Event w → List (BitVec w)
  | open_,.entered n => if n = t then 0 :: open_ else open_
  | open_,.left n => if n = t then open_.tail else open_
  | flags :: outer,.raised n more => if n = t then (flags ||| more) :: outer else flags :: outer
  | [],.raised _ _ => []

def scopes (t : Nat) (events : List (Event w)) : List (BitVec w) := events.foldl (scopeStep t) [0]

def shown (u : FpUnit w) (initial : BitVec w) (open_ : List (BitVec w)) : BitVec w :=
  open_.foldr (· ||| ·) initial ||| (if 1 < open_.length then u.mode else 0)

def saved (u : FpUnit w) (initial : BitVec w) : List (BitVec w) → List (BitVec w)
  | [] => []
  | _ :: outer => if outer = [] then [] else shown u initial outer :: saved u initial outer

def guardsIn (t : Nat) (living : List (Living w)) : List (BitVec w) :=
  (living.filter (fun g => g.thread == t)).map (fun g => g.guard.old)

def guardsOf (t : Nat) (s : Threads w) : List (BitVec w) := guardsIn t s.living

end Machine

section Guards
variable {w : Nat}

theorem guardsInNone {t : Nat} {living : List (Living w)} :
    guardsIn t living = [] ↔ living.any (fun g => g.thread == t) = false := by
  simp [guardsIn]

theorem guardsInSplit {t : Nat} (front back : List (Living w)) (g : Living w) :
    guardsIn t (front ++ g :: back) = guardsIn t front ++ if g.thread = t then g.guard.old :: guardsIn t back
      else guardsIn t back := by
  simp only [guardsIn,List.filter_append,List.map_append,List.filter_cons,beq_iff_eq]
  split <;> rfl

theorem guardsInAppend {t : Nat} (front back : List (Living w)) :
    guardsIn t (front ++ back) = guardsIn t front ++ guardsIn t back := by
  simp [guardsIn]

theorem livingParts {living : List (Living w)} {place : Nat} {g : Living w} (found : living[place]? = some g) :
    living = living.take place ++ g :: living.drop (place + 1) := by
  obtain ⟨low,there⟩ := List.getElem?_eq_some_iff.mp found
  rw [← there,List.getElem_cons_drop,List.take_append_drop]

end Guards

section Scopes
variable {w : Nat} {u : FpUnit w} {initial : BitVec w} {t : Nat} {s s' : Threads w} {open_ : List (BitVec w)}

theorem shownEntered (some : open_ ≠ []) : shown u initial open_ ||| u.mode = shown u initial (0 :: open_) := by
  have positive := List.length_pos_iff.mpr some
  simp only [shown,List.foldr_cons,BitVec.ofNat_eq_ofNat,BitVec.zero_or,List.length_cons,
    if_pos (show 1 < open_.length + 1 by omega)]
  split
  · rw [BitVec.or_assoc,BitVec.or_self]
  · rw [BitVec.or_zero]

theorem shownRaised (flags more : BitVec w) (outer : List (BitVec w)) :
    shown u initial (flags :: outer) ||| more = shown u initial ((flags ||| more) :: outer) := by
  simp only [shown,List.foldr_cons,List.length_cons]
  rw [BitVec.or_assoc _ _ more,BitVec.or_comm _ more,← BitVec.or_assoc _ more,BitVec.or_assoc flags,
    BitVec.or_comm _ more,← BitVec.or_assoc flags]

/- What is left of a thread when its guards and its register are forgotten. -/
structure Stands (u : FpUnit w) (initial : BitVec w) (t : Nat) (s : Threads w) (open_ : List (BitVec w)) : Prop where
  some : open_ ≠ []
  register : s.registers[t]? = Option.some (shown u initial open_)
  guards : guardsOf t s = saved u initial open_

theorem startStands {registers : List (BitVec w)} (there : registers[t]? = some initial) :
    Stands u initial t ⟨registers,[]⟩ [0] := by
  refine ⟨by simp,?_,rfl⟩
  rw [there]
  simp [shown]

theorem newStands {n : Nat} {old : BitVec w} (there : s.registers[n]? = some old) (stands : Stands u initial t s open_) :
    Stands u initial t ⟨s.registers.set n (FpuGuard.new u old).2,⟨n,(FpuGuard.new u old).1⟩ :: s.living⟩
      (scopeStep t open_ (.entered n)) := by
  by_cases own : n = t
  · subst own
    cases Option.some.inj (there.symm.trans stands.register)
    simp only [scopeStep,if_true]
    refine ⟨by simp,?_,?_⟩
    · rw [List.getElem?_set_self (List.getElem?_eq_some_iff.mp there).1,← shownEntered stands.some]
      rfl
    · have others := stands.guards
      simp only [guardsOf,guardsIn] at others
      simp only [guardsOf,guardsIn,FpuGuard.new,List.filter_cons,beq_self_eq_true,if_true,List.map_cons,others,saved,
        if_neg stands.some]
  · simp only [scopeStep,if_neg own]
    refine ⟨stands.some,?_,?_⟩
    · rw [List.getElem?_set_ne own]
      exact stands.register
    · have others := stands.guards
      simpa [guardsOf,guardsIn,own] using others

theorem computeStands {n : Nat} {old flags : BitVec w} (there : s.registers[n]? = some old)
    (stands : Stands u initial t s open_) :
    Stands u initial t ⟨s.registers.set n (old ||| flags),s.living⟩ (scopeStep t open_ (.raised n flags)) := by
  obtain ⟨raised,outer,rfl⟩ := List.exists_cons_of_ne_nil stands.some
  by_cases own : n = t
  · subst own
    cases Option.some.inj (there.symm.trans stands.register)
    simp only [scopeStep,if_true]
    refine ⟨by simp,?_,stands.guards⟩
    rw [List.getElem?_set_self (List.getElem?_eq_some_iff.mp there).1,shownRaised]
  · simp only [scopeStep,if_neg own]
    refine ⟨stands.some,?_,stands.guards⟩
    rw [List.getElem?_set_ne own]
    exact stands.register

theorem dropStands {n : Nat} {old : BitVec w} {g : Living w} {front back : List (Living w)}
    (there : s.registers[n]? = some old) (split : s.living = front ++ g :: back) (mine : g.thread = n)
    (newest : ∀ x ∈ front, x.thread ≠ n) (stands : Stands u initial t s open_) :
    Stands u initial t ⟨s.registers.set n g.guard.drop,front ++ back⟩ (scopeStep t open_ (.left n)) := by
  have guards := stands.guards
  rw [guardsOf,split,guardsInSplit] at guards
  by_cases own : n = t
  · subst own
    have none : guardsIn n front = [] := guardsInNone.mpr (by simpa using newest)
    rw [none,List.nil_append,if_pos mine] at guards
    obtain ⟨raised,outer,rfl⟩ := List.exists_cons_of_ne_nil stands.some
    have inner : outer ≠ [] := by
      intro empty
      simp [saved,empty] at guards
    rw [saved,if_neg inner] at guards
    obtain ⟨last,others⟩ := List.cons.inj guards
    simp only [scopeStep,if_true,List.tail_cons]
    refine ⟨inner,?_,?_⟩
    · rw [List.getElem?_set_self (List.getElem?_eq_some_iff.mp there).1]
      exact congrArg some last
    · rw [guardsOf,guardsInAppend,none,List.nil_append,others]
  · simp only [scopeStep,if_neg own]
    refine ⟨stands.some,?_,?_⟩
    · rw [List.getElem?_set_ne own]
      exact stands.register
    · rw [guardsOf,guardsInAppend,← guards,if_neg (by rw [mine]; exact own)]

theorem stepStands {move : Move w} {out : List (Event w)} (stands : Stands u initial t s open_)
    (ok : guarded (step u) nested s move = some (s',out)) : Stands u initial t s' (out.foldl (scopeStep t) open_) := by
  obtain ⟨met,moved⟩ := guardedStep.mp ok
  cases move with
  | new n =>
    obtain ⟨old,there,last⟩ := Option.bind_eq_some_iff.mp moved
    cases Option.some.inj last
    exact newStands there stands
  | drop n place =>
    obtain ⟨old,there,rest⟩ := Option.bind_eq_some_iff.mp moved
    obtain ⟨g,found,last⟩ := Option.bind_eq_some_iff.mp rest
    cases Option.some.inj last
    simp only [nested,found,Option.any_some,Bool.and_eq_true,List.all_eq_true,beq_iff_eq,bne_iff_ne] at met
    rw [List.eraseIdx_eq_take_drop_succ]
    exact dropStands there (livingParts found) met.2 met.1 stands
  | compute n flags =>
    obtain ⟨old,there,last⟩ := Option.bind_eq_some_iff.mp moved
    cases Option.some.inj last
    exact computeStands there stands

theorem runStands {registers : List (BitVec w)} (there : registers[t]? = some initial) {moves : List (Move w)}
    {events : List (Event w)} (ran : run (guarded (step u) nested) ⟨registers,[]⟩ moves = some (s,events)) :
    Stands u initial t s (scopes t events) := by
  refine runInvariant (P := fun s events => Stands u initial t s (scopes t events)) (startStands there) ?_ ran
  intro s past move s' out stands ok
  rw [scopes,List.foldl_append]
  exact stepStands stands ok

theorem savedLength (u : FpUnit w) (initial : BitVec w) (open_ : List (BitVec w)) :
    (saved u initial open_).length = open_.length - 1 := by
  induction open_ with
  | nil => rfl
  | cons flags outer ih =>
    rw [saved]
    split
    · rename_i empty
      rw [empty]
      rfl
    · rename_i some
      have positive := List.length_pos_iff.mpr some
      rw [List.length_cons,ih,List.length_cons]
      omega

end Scopes

theorem guardsRestore {w : Nat} (u : FpUnit w) {registers : List (BitVec w)} {moves : List (Move w)} {s : Threads w}
    {events : List (Event w)} (ran : run (guarded (step u) nested) ⟨registers,[]⟩ moves = some (s,events)) {t : Nat}
    {initial : BitVec w} (there : registers[t]? = some initial) :
    s.registers[t]? = some (shown u initial (scopes t events)) ∧
    (guardsOf t s).length + 1 = (scopes t events).length ∧
    (guardsOf t s ≠ [] → ∃ r, s.registers[t]? = some r ∧ r &&& u.mode = u.mode) ∧
    (guardsOf t s = [] → ∃ flags, scopes t events = [flags] ∧ s.registers[t]? = some (initial ||| flags)) := by
  have stands := runStands there ran
  have counted := savedLength u initial (scopes t events)
  have positive := List.length_pos_iff.mpr stands.some
  rw [← stands.guards] at counted
  refine ⟨stands.register,by omega,?_,?_⟩
  · intro some
    have guards := List.length_pos_iff.mpr some
    refine ⟨_,stands.register,?_⟩
    rw [shown,if_pos (by omega)]
    ext i low
    simp only [BitVec.getElem_and,BitVec.getElem_or]
    cases u.mode[i] <;> simp
  · intro none
    rw [none] at counted
    obtain ⟨flags,alone⟩ := List.length_eq_one_iff.mp (show (scopes t events).length = 1 by
      rw [List.length_nil] at counted
      omega)
    refine ⟨flags,alone,stands.register.trans ?_⟩
    rw [alone]
    simp [shown,BitVec.or_comm]

def twoThreads : List (Move 32) := [.new 0,.compute 0 0x20,.new 1,.new 0,.compute 0 0xff,.drop 0 0,.drop 0 1,.compute 0 1]

theorem guardsRestoreTwoThreads : ∃ s events,
    run (guarded (step mxcsr) nested) ⟨[0x1f80,0x1fa0],[]⟩ twoThreads = some (s,events) ∧
    s.registers[0]? = some (shown mxcsr 0x1f80 (scopes 0 events)) ∧
    (guardsOf 0 s).length + 1 = (scopes 0 events).length ∧
    (guardsOf 0 s ≠ [] → ∃ r, s.registers[0]? = some r ∧ r &&& mxcsr.mode = mxcsr.mode) ∧
    (guardsOf 0 s = [] → ∃ flags, scopes 0 events = [flags] ∧ s.registers[0]? = some (0x1f80 ||| flags)) ∧
    s.registers = [0x1f81,0x9fe0] := by
  have tested : (run (guarded (step mxcsr) nested) ⟨[0x1f80,0x1fa0],[]⟩ twoThreads).any
      (fun r => decide (r.1.registers = [0x1f81,0x9fe0])) = true := by decide
  obtain ⟨⟨s,events⟩,ran,shows⟩ := (Option.any_eq_true _ _).mp tested
  obtain ⟨formula,count,on,off⟩ := guardsRestore mxcsr ran (show [0x1f80,0x1fa0][0]? = some (0x1f80 : BitVec 32) from rfl)
  exact ⟨s,events,ran,formula,count,on,off,of_decide_eq_true shows⟩

/- The unit with the one bit FZ: a rounding mode set before stays, and arithmetic leaves no flags. -/
example : (run (step fpcr) ⟨[0x400000],[]⟩ [.new 0,.compute 0 0x1f]).map Prod.fst =
      some ⟨[0x1400000],[⟨0,⟨0x400000⟩⟩]⟩ ∧
    (run (step fpcr) ⟨[0x400000],[]⟩ [.new 0,.compute 0 0x1f,.drop 0 0]).map Prod.fst = some ⟨[0x400000],[]⟩ := by
  decide

/- The older guard first: the mode is off while a guard lives and stays on when none does. -/
example : (run (step mxcsr) ⟨[0x1f80],[]⟩ [.new 0,.new 0,.drop 0 1]).map Prod.fst =
      some ⟨[0x1f80],[⟨0,⟨0x9fc0⟩⟩]⟩ ∧
    (run (step mxcsr) ⟨[0x1f80],[]⟩ [.new 0,.new 0,.drop 0 1,.drop 0 0]).map Prod.fst = some ⟨[0x9fc0],[]⟩ := by
  decide

section Orders
variable {w : Nat}

def FpUnit.control (u : FpUnit w) (register : BitVec w) : BitVec w := register &&& ~~~u.status

def own (s : Threads w) : Move w → Bool
  | .drop t place => s.living[place]?.any (fun g => g.thread == t)
  | _ => true

/- The dropped guard was not the first one made of those still there, or it is the last one left. -/
def outermostLast (s : Threads w) : Move w → Bool
  | .drop t place => (s.living.drop (place + 1)).any (fun g => g.thread == t) ||
      !(s.living.take place).any (fun g => g.thread == t)
  | _ => true

def awaited (u : FpUnit w) (initial : BitVec w) (guards : List (BitVec w)) : BitVec w :=
  u.control (if guards = [] then initial else initial ||| u.mode)

def Lawful (u : FpUnit w) (registers : List (BitVec w)) (s : Threads w) : Prop :=
  ∀ t initial, registers[t]? = some initial →
    s.registers[t]?.map u.control = some (awaited u initial (guardsOf t s))

/- The outermost guard of a thread saved the control bits of the start, the others those of the mode. -/
structure Saved (u : FpUnit w) (initial : BitVec w) (guards : List (BitVec w)) : Prop where
  outermost : ∀ old ∈ guards.getLast?, u.control old = u.control initial
  inner : ∀ old ∈ guards.dropLast, u.control old = u.control (initial ||| u.mode)

structure Ordered (u : FpUnit w) (registers : List (BitVec w)) (s : Threads w) : Prop where
  width : s.registers.length = registers.length
  lawful : Lawful u registers s
  saved : ∀ t initial, registers[t]? = some initial → Saved u initial (guardsOf t s)

variable {u : FpUnit w} {registers : List (BitVec w)} {s s' : Threads w}

theorem controlOr (u : FpUnit w) (left right : BitVec w) :
    u.control (left ||| right) = u.control left ||| u.control right := by
  ext i low
  simp only [FpUnit.control,BitVec.getElem_and,BitVec.getElem_or,Bool.and_or_distrib_right]

theorem controlMode (u : FpUnit w) (register : BitVec w) :
    u.control (register ||| u.mode ||| u.mode) = u.control (register ||| u.mode) := by
  rw [BitVec.or_assoc,BitVec.or_self]

theorem controlStatus (u : FpUnit w) (register flags : BitVec w) :
    u.control (register ||| (flags &&& u.status)) = u.control register := by
  ext i low
  simp only [FpUnit.control,BitVec.getElem_and,BitVec.getElem_or,BitVec.getElem_not]
  cases u.status[i] <;> simp

theorem savedEntered {initial register : BitVec w} {guards : List (BitVec w)} (saved : Saved u initial guards)
    (shows : u.control register = awaited u initial guards) : Saved u initial (register :: guards) := by
  cases guards with
  | nil => exact ⟨by simpa [awaited] using shows,by simp⟩
  | cons g guards =>
    refine ⟨by simpa using saved.outermost,?_⟩
    rw [List.dropLast_cons_of_ne_nil (by simp)]
    refine List.forall_mem_cons.mpr ⟨?_,saved.inner⟩
    simpa [awaited] using shows

/- What the register shows after the guard between `front` and `back` was dropped. -/
theorem savedDropped {initial old : BitVec w} {front back : List (BitVec w)}
    (saved : Saved u initial (front ++ old :: back)) :
    (back ≠ [] ∨ front = [] → Saved u initial (front ++ back) ∧ u.control old = awaited u initial (front ++ back)) ∧
    (back = [] → u.control old = u.control initial) := by
  have last : back = [] → u.control old = u.control initial := by
    rintro rfl
    exact saved.outermost old (by simp)
  refine ⟨?_,last⟩
  intro fine
  by_cases empty : back = []
  · have none : front = [] := fine.resolve_left (fun some => some empty)
    subst empty none
    exact ⟨⟨by simp,by simp⟩,by simpa [awaited] using last rfl⟩
  · have inside : old ∈ (front ++ old :: back).dropLast := by
      rw [List.dropLast_append_of_ne_nil (by simp),List.dropLast_cons_of_ne_nil empty]
      simp
    refine ⟨⟨?_,?_⟩,?_⟩
    · have outermost := saved.outermost
      rw [List.getLast?_append_of_ne_nil _ (by simp),List.getLast?_cons_of_ne_nil empty] at outermost
      rwa [List.getLast?_append_of_ne_nil _ empty]
    · intro x mem
      refine saved.inner x ?_
      rw [List.dropLast_append_of_ne_nil empty] at mem
      rw [List.dropLast_append_of_ne_nil (by simp),List.dropLast_cons_of_ne_nil empty]
      rcases List.mem_append.mp mem with early | late
      · exact List.mem_append_left _ early
      · exact List.mem_append_right _ (List.mem_cons_of_mem old late)
    · rw [saved.inner old inside,awaited,if_neg (by simp [empty])]

theorem Ordered.turn (ordered : Ordered u registers s) {n : Nat} {old next : BitVec w} {living : List (Living w)}
    (there : s.registers[n]? = some old)
    (others : ∀ t, t ≠ n → guardsOf t ⟨s.registers.set n next,living⟩ = guardsOf t s)
    (here : ∀ initial, registers[n]? = some initial → u.control old = awaited u initial (guardsOf n s) →
      Saved u initial (guardsOf n ⟨s.registers.set n next,living⟩) ∧
      u.control next = awaited u initial (guardsOf n ⟨s.registers.set n next,living⟩)) :
    Ordered u registers ⟨s.registers.set n next,living⟩ := by
  have turned : ∀ initial, registers[n]? = some initial →
      Saved u initial (guardsOf n ⟨s.registers.set n next,living⟩) ∧
      u.control next = awaited u initial (guardsOf n ⟨s.registers.set n next,living⟩) := by
    intro initial mine
    have law := ordered.lawful n initial mine
    rw [there] at law
    exact here initial mine (Option.some.inj law)
  refine ⟨(List.length_set ..).trans ordered.width,?_,?_⟩
  · intro t initial mine
    by_cases same : t = n
    · subst same
      rw [List.getElem?_set_self (List.getElem?_eq_some_iff.mp there).1]
      exact congrArg some (turned initial mine).2
    · rw [List.getElem?_set_ne (Ne.symm same),others t same]
      exact ordered.lawful t initial mine
  · intro t initial mine
    by_cases same : t = n
    · subst same
      exact (turned initial mine).1
    · rw [others t same]
      exact ordered.saved t initial mine

theorem newOrdered (ordered : Ordered u registers s) {n : Nat} {old : BitVec w} (there : s.registers[n]? = some old) :
    Ordered u registers ⟨s.registers.set n (old ||| u.mode),⟨n,⟨old⟩⟩ :: s.living⟩ := by
  refine ordered.turn there (fun t other => by simp [guardsOf,guardsIn,Ne.symm other]) ?_
  intro initial mine shows
  have grown : guardsOf n ⟨s.registers.set n (old ||| u.mode),⟨n,⟨old⟩⟩ :: s.living⟩ = old :: guardsOf n s := by
    simp [guardsOf,guardsIn]
  rw [grown]
  refine ⟨savedEntered (ordered.saved n initial mine) shows,?_⟩
  rw [controlOr,shows,awaited,awaited,if_neg (show ¬old :: guardsOf n s = [] by simp)]
  split
  · rw [← controlOr]
  · rw [← controlOr,controlMode]

theorem computeOrdered (ordered : Ordered u registers s) {n : Nat} {old : BitVec w} (flags : BitVec w)
    (there : s.registers[n]? = some old) :
    Ordered u registers ⟨s.registers.set n (old ||| (flags &&& u.status)),s.living⟩ := by
  refine ordered.turn there (fun _ _ => rfl) ?_
  intro initial mine shows
  exact ⟨ordered.saved n initial mine,(controlStatus u old flags).trans shows⟩

theorem outermostParts {n place : Nat} :
    outermostLast s (.drop n place) = true ↔
      guardsIn n (s.living.drop (place + 1)) ≠ [] ∨ guardsIn n (s.living.take place) = [] := by
  rw [Ne,guardsInNone,guardsInNone]
  simp [outermostLast]

/- The guards of the dropping thread, around the one it drops. -/
theorem droppedGuards {n place : Nat} {g : Living w} (found : s.living[place]? = some g) (mine : g.thread = n) :
    guardsOf n s = guardsIn n (s.living.take place) ++ g.guard.old :: guardsIn n (s.living.drop (place + 1)) ∧
    guardsIn n (s.living.eraseIdx place) =
      guardsIn n (s.living.take place) ++ guardsIn n (s.living.drop (place + 1)) := by
  constructor
  · rw [guardsOf]
    conv_lhs => rw [livingParts found]
    rw [guardsInSplit,if_pos mine]
  · rw [List.eraseIdx_eq_take_drop_succ,guardsInAppend]

theorem dropOrdered (ordered : Ordered u registers s) {n place : Nat} {old : BitVec w} {g : Living w}
    (there : s.registers[n]? = some old) (found : s.living[place]? = some g) (mine : g.thread = n)
    (fine : outermostLast s (.drop n place) = true) :
    Ordered u registers ⟨s.registers.set n g.guard.old,s.living.eraseIdx place⟩ := by
  obtain ⟨guards,left⟩ := droppedGuards found mine
  refine ordered.turn there ?_ ?_
  · intro t other
    rw [guardsOf,guardsOf,List.eraseIdx_eq_take_drop_succ,guardsInAppend]
    conv_rhs => rw [livingParts found]
    rw [guardsInSplit,if_neg (by rw [mine]; exact Ne.symm other)]
  · intro initial here _
    have saved := ordered.saved n initial here
    rw [guards] at saved
    rw [guardsOf,left]
    exact (savedDropped saved).1 (outermostParts.mp fine)

theorem dropBroken (ordered : Ordered u registers s) (fresh : ∀ r ∈ registers, u.control (r ||| u.mode) ≠ u.control r)
    {n place : Nat} {old : BitVec w} {g : Living w} (there : s.registers[n]? = some old)
    (found : s.living[place]? = some g) (mine : g.thread = n) (wrong : outermostLast s (.drop n place) = false) :
    ¬Lawful u registers ⟨s.registers.set n g.guard.old,s.living.eraseIdx place⟩ := by
  intro law
  obtain ⟨guards,left⟩ := droppedGuards found mine
  have low := (List.getElem?_eq_some_iff.mp there).1
  have inside : n < registers.length := ordered.width ▸ low
  have here := List.getElem?_eq_getElem inside
  have saved := ordered.saved n registers[n] here
  rw [guards] at saved
  obtain ⟨oldest,younger⟩ : guardsIn n (s.living.drop (place + 1)) = [] ∧ guardsIn n (s.living.take place) ≠ [] := by
    have parts := (not_congr outermostParts).mp (by simpa using wrong)
    simpa using parts
  have shows := law n registers[n] here
  rw [List.getElem?_set_self low,guardsOf,left,oldest,List.append_nil,awaited,if_neg younger] at shows
  exact fresh _ (List.getElem_mem inside) ((Option.some.inj shows).symm.trans ((savedDropped saved).2 oldest))

end Orders

theorem dropOrderExact {w : Nat} (u : FpUnit w) {registers : List (BitVec w)}
    (fresh : ∀ r ∈ registers, u.control (r ||| u.mode) ≠ u.control r) {moves : List (Move w)} {s : Threads w}
    {events : List (Event w)} (ran : run (guarded (step u) own) ⟨registers,[]⟩ moves = some (s,events)) :
    (∀ before after s₁ past, moves = before ++ after →
      run (guarded (step u) own) ⟨registers,[]⟩ before = some (s₁,past) → Lawful u registers s₁) ↔
    run (guarded (guarded (step u) own) outermostLast) ⟨registers,[]⟩ moves = some (s,events) := by
  have start : Ordered u registers ⟨registers,[]⟩ := by
    refine ⟨rfl,?_,fun t initial _ => ⟨by simp [guardsOf,guardsIn],by simp [guardsOf,guardsIn]⟩⟩
    intro t initial there
    simp [there,awaited,guardsOf,guardsIn]
  refine runExact (fun _ ordered => ordered.lawful) ?_ ?_ start ran
  · intro s move s' out ordered moved fine
    obtain ⟨mine,moved⟩ := guardedStep.mp moved
    cases move with
    | new n =>
      obtain ⟨old,there,last⟩ := Option.bind_eq_some_iff.mp moved
      cases Option.some.inj last
      exact newOrdered ordered there
    | drop n place =>
      obtain ⟨old,there,rest⟩ := Option.bind_eq_some_iff.mp moved
      obtain ⟨g,found,last⟩ := Option.bind_eq_some_iff.mp rest
      cases Option.some.inj last
      exact dropOrdered ordered there found (by simpa [own,found] using mine) fine
    | compute n flags =>
      obtain ⟨old,there,last⟩ := Option.bind_eq_some_iff.mp moved
      cases Option.some.inj last
      exact computeOrdered ordered flags there
  · intro s move s' out ordered moved wrong
    obtain ⟨mine,moved⟩ := guardedStep.mp moved
    cases move with
    | new n => cases wrong
    | drop n place =>
      obtain ⟨old,there,rest⟩ := Option.bind_eq_some_iff.mp moved
      obtain ⟨g,found,last⟩ := Option.bind_eq_some_iff.mp rest
      cases Option.some.inj last
      exact dropBroken ordered fresh there found (by simpa [own,found] using mine) wrong
    | compute n flags => cases wrong

def middleFirst : List (Move 32) :=
  [.new 0,.new 0,.new 1,.new 0,.drop 0 2,.compute 0 0x20,.drop 0 0,.drop 0 1,.drop 1 0]

theorem dropOrderExactMiddleFirst : ∃ s events,
    run (guarded (step mxcsr) own) ⟨[0x1f80,0x1fa0],[]⟩ middleFirst = some (s,events) ∧
    ((∀ before after s₁ past, middleFirst = before ++ after →
      run (guarded (step mxcsr) own) ⟨[0x1f80,0x1fa0],[]⟩ before = some (s₁,past) →
        Lawful mxcsr [0x1f80,0x1fa0] s₁) ↔
      run (guarded (guarded (step mxcsr) own) outermostLast) ⟨[0x1f80,0x1fa0],[]⟩ middleFirst = some (s,events)) ∧
    run (guarded (guarded (step mxcsr) own) outermostLast) ⟨[0x1f80,0x1fa0],[]⟩ middleFirst = some (s,events) := by
  have tested : (run (guarded (step mxcsr) own) ⟨[0x1f80,0x1fa0],[]⟩ middleFirst).any (fun r => decide
      (run (guarded (guarded (step mxcsr) own) outermostLast) ⟨[0x1f80,0x1fa0],[]⟩ middleFirst = some r)) = true := by
    decide
  obtain ⟨⟨s,events⟩,ran,fine⟩ := (Option.any_eq_true _ _).mp tested
  exact ⟨s,events,ran,dropOrderExact mxcsr (List.forall_mem_cons.mpr ⟨by decide,List.forall_mem_cons.mpr ⟨by decide,by simp⟩⟩)
    ran,of_decide_eq_true fine⟩

end Riaps.Fpu
