import Mathlib.Data.List.Induction

/-! The thread provisioner on Linux. The operating system is the current schedule of
the thread and, for each system call, whether it answers; nobody else changes the
schedule. What a sequence of calls leaves behind is a function of the calls that were
granted and of the best-effort calls refused after them. -/
namespace Riaps.Provisioner

inductive ProvisionStrategy where
  | unprovisioned
  | direct
  | rtkit
  | portal
  | macOsPolicy
  | windowsMmcss
  | fallback
  deriving DecidableEq, Repr

inductive StrictAction where
  | fatalError
  | retryWithBackoff (maxMs : UInt64)
  deriving DecidableEq, Repr

inductive ThreadProvisioning where
  | bestEffort
  | strict (action : StrictAction)
  deriving DecidableEq, Repr

inductive ProvisionError where
  | permissionDenied
  | unsupported
  | strictModeRefused
  deriving DecidableEq, Repr

structure SchedParam where
  schedPriority : Int
  deriving DecidableEq, Repr

structure Schedule where
  policy : Int
  param : SchedParam
  deriving DecidableEq, Repr

def SCHED_FIFO : Int := 1

/- Which of the three system calls of one `provision` succeed. -/
structure Answers where
  getScheduler : Bool
  getParam : Bool
  setScheduler : Bool
  deriving DecidableEq, Repr

structure ThreadProvisioner where
  strategy : ProvisionStrategy
  grantedPrio : Int
  fallbackActive : Bool
  originalLinuxSchedule : Option Schedule
  deriving DecidableEq, Repr

structure World where
  os : Schedule
  thread : ThreadProvisioner
  deriving DecidableEq, Repr

def new : ThreadProvisioner := ⟨.unprovisioned,0,false,none⟩

def schedGetscheduler (ok : Bool) (os : Schedule) : Int := if ok then os.policy else -1

def schedGetparam (ok : Bool) (os : Schedule) : Option SchedParam := if ok then some os.param else none

def schedSetscheduler (ok : Bool) (asked : Schedule) : Option Schedule := if ok then some asked else none

def current (answers : Answers) (os : Schedule) : Option Schedule :=
  let policy := schedGetscheduler answers.getScheduler os
  if policy < 0 then none
  else do
    let param ← schedGetparam answers.getParam os
    some ⟨policy,param⟩

def clamp (prio low high : Int) : Int := if prio < low then low else if high < prio then high else prio

def tryDirect (answers : Answers) (s : World) (prio : Int) : Except ProvisionError (ProvisionStrategy × Int) × World :=
  match current answers s.os with
  | none => (.error .unsupported,s)
  | some original =>
      let param : SchedParam := ⟨clamp prio 1 99⟩
      match schedSetscheduler answers.setScheduler ⟨SCHED_FIFO,param⟩ with
      | some os => (.ok (.direct,param.schedPriority),⟨os,{s.thread with originalLinuxSchedule := some original}⟩)
      | none => (.error .permissionDenied,s)

structure Call where
  targetPrio : Int
  mode : ThreadProvisioning
  answers : Answers
  deriving DecidableEq, Repr

def provision (s : World) (call : Call) : Except ProvisionError Int × World :=
  match tryDirect call.answers s call.targetPrio with
  | (.ok (strategy,granted),s) =>
      let fallbackActive := decide (granted < call.targetPrio)
      (.ok granted,⟨s.os,⟨strategy,granted,fallbackActive,s.thread.originalLinuxSchedule⟩⟩)
  | (.error _,s) =>
      match call.mode with
      | .strict _ => (.error .strictModeRefused,s)
      | .bestEffort => (.ok 0,⟨s.os,⟨.fallback,0,true,s.thread.originalLinuxSchedule⟩⟩)

def provisionAll (s : World) (calls : List Call) : World := calls.foldl (fun s call => (provision s call).2) s

/- `ok` is the answer to the restoring call, which `drop` does not look at. -/
def drop (ok : Bool) (s : World) : Schedule :=
  match s.thread.originalLinuxSchedule with
  | some original => (schedSetscheduler ok original).getD s.os
  | none => s.os

section Sequences
variable {initial : Schedule} {calls : List Call}

def fifo (prio : Int) : Schedule := ⟨SCHED_FIFO,⟨clamp prio 1 99⟩⟩

def succeeds (initial : Schedule) (call : Call) : Bool :=
  call.answers.getScheduler && call.answers.getParam && call.answers.setScheduler && decide (0 ≤ initial.policy)

def granted (initial : Schedule) (calls : List Call) : List Call := calls.filter (succeeds initial)

def scheduleAfter (initial : Schedule) (won : List Call) : Schedule :=
  match won.getLast? with
  | some call => fifo call.targetPrio
  | none => initial

theorem currentReads (answers : Answers) (os original : Schedule) : current answers os = some original ↔
    answers.getScheduler = true ∧ answers.getParam = true ∧ 0 ≤ os.policy ∧ os = original := by
  unfold current schedGetscheduler schedGetparam
  cases answers.getScheduler with
  | false => simp
  | true =>
    cases answers.getParam with
    | false => simp
    | true => simp

theorem provisionGranted {s : World} {call : Call} (won : succeeds s.os call = true) :
    (provision s call).2 = ⟨fifo call.targetPrio,⟨.direct,clamp call.targetPrio 1 99,
      decide (clamp call.targetPrio 1 99 < call.targetPrio),some s.os⟩⟩ := by
  simp only [succeeds,Bool.and_eq_true,decide_eq_true_eq] at won
  obtain ⟨⟨⟨policy,param⟩,set⟩,readable⟩ := won
  have read := (currentReads call.answers s.os s.os).mpr ⟨policy,param,readable,rfl⟩
  simp [provision,tryDirect,read,schedSetscheduler,set,fifo]

theorem provisionRefused {s : World} {call : Call} (lost : succeeds s.os call = false) :
    (provision s call).2 = if call.mode = .bestEffort then
      ⟨s.os,⟨.fallback,0,true,s.thread.originalLinuxSchedule⟩⟩ else s := by
  have failed : ∃ e, tryDirect call.answers s call.targetPrio = (.error e,s) := by
    unfold tryDirect
    split
    · exact ⟨_,rfl⟩
    · rename_i original read
      obtain ⟨policy,param,readable,_⟩ := (currentReads call.answers s.os original).mp read
      have stuck : call.answers.setScheduler = false := by simpa [succeeds,policy,param,readable] using lost
      exact ⟨.permissionDenied,by simp [schedSetscheduler,stuck]⟩
  obtain ⟨e,failed⟩ := failed
  simp only [provision,failed]
  cases call.mode <;> rfl

theorem grantedSnoc (call : Call) : granted initial (calls ++ [call]) =
    if succeeds initial call then granted initial calls ++ [call] else granted initial calls := by
  cases won : succeeds initial call <;> simp [granted,List.filter_append,won]

theorem succeedsLater (initial : Schedule) (calls : List Call) (call : Call) :
    succeeds (scheduleAfter initial (granted initial calls)) call = succeeds initial call := by
  unfold scheduleAfter
  split
  · rename_i last present
    have won := (List.mem_filter.mp (List.mem_of_getLast? present)).2
    simp only [succeeds,Bool.and_eq_true,decide_eq_true_eq] at won
    simp [succeeds,fifo,SCHED_FIFO,won.2]
  · rfl

theorem provisionLast (s : World) (calls : List Call) (call : Call) :
    provisionAll s (calls ++ [call]) = (provision (provisionAll s calls) call).2 := by
  simp [provisionAll]

theorem provisionedSchedules (initial : Schedule) (calls : List Call) :
    (provisionAll ⟨initial,new⟩ calls).os = scheduleAfter initial (granted initial calls) ∧
    drop true (provisionAll ⟨initial,new⟩ calls) = scheduleAfter initial (granted initial calls).dropLast := by
  induction calls using List.reverseRecOn with
  | nil => exact ⟨rfl,rfl⟩
  | append_singleton calls call ih =>
    have same := succeedsLater initial calls call
    rw [← ih.1] at same
    rw [provisionLast,grantedSnoc]
    cases won : succeeds initial call with
    | true =>
      rw [won] at same
      rw [provisionGranted same,ih.1]
      simp [scheduleAfter,drop,schedSetscheduler]
    | false =>
      rw [won] at same
      rw [provisionRefused same]
      split
      · exact ih
      · exact ih

/- The calls after the last one granted, newest first. -/
def sinceGrant (initial : Schedule) (calls : List Call) : List Call :=
  calls.reverse.takeWhile (fun call => !succeeds initial call)

structure Reports (initial : Schedule) (calls : List Call) (s : World) : Prop where
  os : s.os = scheduleAfter initial (granted initial calls)
  direct : ∀ call, (granted initial calls).getLast? = some call → (∀ c ∈ sinceGrant initial calls, c.mode ≠ .bestEffort) →
    s.thread.strategy = .direct ∧ s.thread.grantedPrio = clamp call.targetPrio 1 99
  fallback : (∃ c ∈ sinceGrant initial calls, c.mode = .bestEffort) →
    s.thread.strategy = .fallback ∧ s.thread.grantedPrio = 0
  untouched : granted initial calls = [] → (∀ c ∈ sinceGrant initial calls, c.mode ≠ .bestEffort) →
    s.thread.strategy = .unprovisioned ∧ s.thread.grantedPrio = 0

theorem sinceGranted {call : Call} (won : succeeds initial call = true) : sinceGrant initial (calls ++ [call]) = [] := by
  simp [sinceGrant,won]

theorem sinceRefused {call : Call} (lost : succeeds initial call = false) :
    sinceGrant initial (calls ++ [call]) = call :: sinceGrant initial calls := by
  simp [sinceGrant,lost]

theorem provisionedReports (initial : Schedule) (calls : List Call) :
    Reports initial calls (provisionAll ⟨initial,new⟩ calls) := by
  induction calls using List.reverseRecOn with
  | nil =>
    refine ⟨rfl,?_,?_,fun _ _ => ⟨rfl,rfl⟩⟩
    · intro call none_
      simp [granted] at none_
    · rintro ⟨c,mem,_⟩
      simp [sinceGrant] at mem
  | append_singleton calls call ih =>
    have same := succeedsLater initial calls call
    rw [← ih.os] at same
    have os := (provisionedSchedules initial (calls ++ [call])).1
    rw [provisionLast] at os ⊢
    cases won : succeeds initial call with
    | true =>
      rw [won] at same
      refine ⟨os,?_,?_,?_⟩
      · intro last newest _
        simp only [grantedSnoc,won,if_true,List.getLast?_concat,Option.some.injEq] at newest
        rw [provisionGranted same,← newest]
        exact ⟨rfl,rfl⟩
      · rintro ⟨c,mem,_⟩
        rw [sinceGranted won] at mem
        cases mem
      · intro none_
        simp [grantedSnoc,won] at none_
    | false =>
      rw [won] at same
      have before : granted initial (calls ++ [call]) = granted initial calls := by simp [grantedSnoc,won]
      refine ⟨os,?_,?_,?_⟩
      · intro last newest quiet
        rw [sinceRefused won,List.forall_mem_cons] at quiet
        rw [provisionRefused same,if_neg quiet.1]
        exact ih.direct last (before ▸ newest) quiet.2
      · rintro ⟨c,mem,loud⟩
        rw [sinceRefused won] at mem
        rw [provisionRefused same]
        by_cases mode : call.mode = .bestEffort
        · rw [if_pos mode]
          exact ⟨rfl,rfl⟩
        · rw [if_neg mode]
          rcases List.mem_cons.mp mem with rfl | earlier
          · exact absurd loud mode
          · exact ih.fallback ⟨c,earlier,loud⟩
      · intro none_ quiet
        rw [sinceRefused won,List.forall_mem_cons] at quiet
        rw [provisionRefused same,if_neg quiet.1]
        exact ih.untouched (before ▸ none_) quiet.2

end Sequences

theorem restoredExactly (initial : Schedule) (calls : List Call) :
    drop true (provisionAll ⟨initial,new⟩ calls) = initial ↔
    ∀ call, (granted initial calls).dropLast.getLast? = some call → initial = fifo call.targetPrio := by
  rw [(provisionedSchedules initial calls).2]
  unfold scheduleAfter
  cases prior : (granted initial calls).dropLast.getLast? with
  | none => simp
  | some call =>
    constructor
    · intro restored other same
      cases Option.some.inj same
      exact restored.symm
    · intro before
      exact (before call rfl).symm

theorem secondGrantNotRestored :
    drop true (provisionAll ⟨⟨0,⟨0⟩⟩,new⟩ [⟨80,.bestEffort,⟨true,true,true⟩⟩,⟨95,.bestEffort,⟨true,true,true⟩⟩]) = fifo 80 ∧
    ¬∀ initial calls, drop true (provisionAll ⟨initial,new⟩ calls) = initial := by
  refine ⟨by decide,?_⟩
  intro always
  have restored := always ⟨0,⟨0⟩⟩ [⟨80,.bestEffort,⟨true,true,true⟩⟩,⟨95,.bestEffort,⟨true,true,true⟩⟩]
  revert restored
  decide

def Agrees (s : World) : Prop :=
  (∀ prio, (s.thread.strategy = .direct ∧ s.thread.grantedPrio = prio) ↔ s.os = ⟨SCHED_FIFO,⟨prio⟩⟩) ∧
  (((s.thread.strategy = .fallback ∨ s.thread.strategy = .unprovisioned) ∧ s.thread.grantedPrio = 0) ↔
    s.os.policy ≠ SCHED_FIFO)

theorem reportsExactly (initial : Schedule) (ordinary : initial.policy ≠ SCHED_FIFO) (calls : List Call) :
    Agrees (provisionAll ⟨initial,new⟩ calls) ↔
    granted initial calls = [] ∨ ∀ call ∈ sinceGrant initial calls, call.mode ≠ .bestEffort := by
  have reports := provisionedReports initial calls
  generalize provisionAll ⟨initial,new⟩ calls = s at reports
  have os := reports.os
  unfold scheduleAfter at os
  cases last : (granted initial calls).getLast? with
  | none =>
    rw [last] at os
    have none_ := List.getLast?_eq_none_iff.mp last
    have idle : (s.thread.strategy = .fallback ∨ s.thread.strategy = .unprovisioned) ∧ s.thread.grantedPrio = 0 := by
      by_cases loud : ∃ call ∈ sinceGrant initial calls, call.mode = .bestEffort
      · exact ⟨.inl (reports.fallback loud).1,(reports.fallback loud).2⟩
      · have quiet : ∀ call ∈ sinceGrant initial calls, call.mode ≠ .bestEffort := by
          intro call mem mode
          exact loud ⟨call,mem,mode⟩
        exact ⟨.inr (reports.untouched none_ quiet).1,(reports.untouched none_ quiet).2⟩
    have other : s.os.policy ≠ SCHED_FIFO := by rw [os]; exact ordinary
    refine ⟨fun _ => .inl none_,fun _ => ⟨fun prio => ⟨?_,?_⟩,fun _ => other,fun _ => idle⟩⟩
    · rintro ⟨direct,_⟩
      rcases idle.1 with same | same <;> simp [direct] at same
    · intro running
      exact absurd (congrArg Schedule.policy running) other
  | some call =>
    rw [last] at os
    have some_ : granted initial calls ≠ [] := by
      intro none_
      simp [none_] at last
    by_cases quiet : ∀ c ∈ sinceGrant initial calls, c.mode ≠ .bestEffort
    · obtain ⟨direct,prio⟩ := reports.direct call last quiet
      refine ⟨fun _ => .inr quiet,fun _ => ⟨?_,?_⟩⟩
      · intro p
        rw [direct,prio,os]
        simp [fifo]
      · rw [direct,os]
        simp [fifo]
    · have loud : ∃ c ∈ sinceGrant initial calls, c.mode = .bestEffort := by
        by_contra none_
        exact quiet (fun c mem mode => none_ ⟨c,mem,mode⟩)
      obtain ⟨idle,prio⟩ := reports.fallback loud
      refine ⟨fun agrees => ?_,fun right => absurd right (by simp [some_,quiet])⟩
      have running : s.os.policy ≠ SCHED_FIFO := agrees.2.mp ⟨.inl idle,prio⟩
      rw [os] at running
      exact absurd rfl running

theorem reportsExactlyWhenRefused :
    Agrees (provisionAll ⟨⟨0,⟨0⟩⟩,new⟩ [⟨80,.bestEffort,⟨true,true,true⟩⟩,⟨95,.strict .fatalError,⟨true,true,false⟩⟩]) :=
  (reportsExactly ⟨0,⟨0⟩⟩ (by decide) _).mpr (.inr (by decide))

theorem refusedBestEffortMisreports :
    ¬∀ initial, initial.policy ≠ SCHED_FIFO → ∀ calls, Agrees (provisionAll ⟨initial,new⟩ calls) := by
  intro always
  have agrees := always ⟨0,⟨0⟩⟩ (by decide) [⟨80,.bestEffort,⟨true,true,true⟩⟩,⟨95,.bestEffort,⟨true,true,false⟩⟩]
  have running : (provisionAll ⟨⟨0,⟨0⟩⟩,new⟩ [⟨80,.bestEffort,⟨true,true,true⟩⟩,⟨95,.bestEffort,⟨true,true,false⟩⟩]) =
      ⟨fifo 80,⟨.fallback,0,true,some ⟨0,⟨0⟩⟩⟩⟩ := by decide
  rw [running] at agrees
  exact agrees.2.mp ⟨.inl rfl,rfl⟩ rfl

end Riaps.Provisioner
