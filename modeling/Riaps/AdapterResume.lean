import Riaps.AdapterFixedQuantum
import Riaps.AdapterHistory

/-! Sessions of equal callbacks on one adapter, each ended by a flush. The flush
empties the primed reserve and keeps the quantum it was primed for, so a later
session with the same quantum starts without a reserve. It is as safe as the
first one exactly when no reserve is needed. -/
namespace Riaps.AdapterResume
open Library.Checks SampleFifo Adapter AdapterView AdapterFlow AdapterQuantum AdapterHistory
open AdapterFixedQuantum (Held heldNext heldClean residueCovered startHeld)

structure Playback (σ α : Type) where
  calls : List (DspCallback σ α × HostCall α)
  last : DspCallback σ α

section Flows
variable {z : Sizes} {φ : Flow} {quantum : Nat}

def Quiet (z : Sizes) (φ : Flow) (moves : List Move) : Prop :=
  ∀ x ∈ trace z φ moves, ∀ r, x.2 = some r → r.underrunSamples = 0 ∧ x.1.latency = x.1.delay

def playback (quantum count : Nat) : List Move := List.replicate count (.host quantum quantum) ++ [.flush]

def emptied (φ : Flow) : Flow := {φ with accumulated := 0, pending := 0}

theorem quietCons {m : Move} {ms : List Move} : Quiet z φ (m :: ms) ↔
    (∀ r, told z φ m = some r → r.underrunSamples = 0 ∧ (after z φ m).latency = (after z φ m).delay) ∧
      Quiet z (after z φ m) ms :=
  List.forall_mem_cons

theorem quietAppend {xs ys : List Move} :
    Quiet z φ (xs ++ ys) ↔ Quiet z φ xs ∧ Quiet z (xs.foldl (after z) φ) ys := by
  induction xs generalizing φ with
  | nil =>
    have none_ : Quiet z φ [] := by simp [Quiet,trace]
    exact ⟨fun quiet => ⟨none_,quiet⟩,And.right⟩
  | cons m ms ih => rw [List.cons_append,quietCons,quietCons,ih,and_assoc,List.foldl_cons]

theorem quietFlush {ms : List Move} :
    Quiet z φ (.flush :: ms) ↔ Quiet z (emptied φ) ms := by
  rw [quietCons]
  simp [told,after,emptied]

theorem quietHost {ms : List Move} : Quiet z φ (.host quantum quantum :: ms) ↔
    ((report z φ quantum quantum).underrunSamples = 0 ∧
      (next z φ quantum quantum).latency = (next z φ quantum quantum).delay) ∧ Quiet z (next z φ quantum quantum) ms := by
  rw [quietCons]
  simp [told,after]

theorem quietPlayback {n : Nat} {counts : List Nat} : Quiet z φ ((n :: counts).flatMap (playback quantum)) ↔
    Quiet z φ (List.replicate n (.host quantum quantum)) ∧
      Quiet z (emptied ((List.replicate n (Move.host quantum quantum)).foldl (after z) φ))
        (counts.flatMap (playback quantum)) := by
  rw [List.flatMap_cons,playback,List.append_assoc,quietAppend,List.singleton_append,quietFlush]

/-- A callback of the quantum finds the whole reserve or puts it there, and reports it from then on. -/
structure Ready (z : Sizes) (quantum : Nat) (φ : Flow) : Prop where
  held : ∃ k, Held z quantum (z.block - Nat.gcd quantum z.block) k φ
  known : φ.quantum = none ∨ φ.quantum = some quantum
  latency : (negotiated z.block φ quantum).2 = z.block - Nat.gcd quantum z.block

theorem startReady (z : Sizes) (positive : quantum ≠ 0) : Ready z quantum start :=
  ⟨⟨0,startHeld z positive⟩,.inl rfl,by simp [negotiated,reserveFor,start,positive]⟩

theorem negotiatedSame (block : Nat) (same : φ.quantum = some quantum) :
    (negotiated block φ quantum).2 = φ.latency := by
  unfold negotiated reserveFor
  by_cases zero : quantum = 0 <;> simp [zero,same]

theorem readyNext (positive : quantum ≠ 0) (room : quantum + z.block - Nat.gcd quantum z.block ≤ z.capacity)
    (ready : Ready z quantum φ) : (report z φ quantum quantum).underrunSamples = 0 ∧
      (next z φ quantum quantum).latency = (next z φ quantum quantum).delay ∧
      Ready z quantum (next z φ quantum quantum) := by
  obtain ⟨k,held⟩ := ready.held
  have bounded : Nat.gcd quantum z.block ≤ z.block := Nat.gcd_le_right quantum z.positive
  have phase : φ.accumulated < z.block := by rw [held.phase]; exact Nat.mod_lt _ z.positive
  have clean : Clean (report z φ quantum quantum) := by
    have here := residueCovered quantum k z.positive
    have there := residueCovered quantum (k + 1) z.positive
    exact (heldClean held).mpr ⟨by omega,by omega,there⟩
  have settled := quantumNext z φ quantum positive
  have latency : (next z φ quantum quantum).latency = z.block - Nat.gcd quantum z.block := ready.latency
  refine ⟨clean.2.2,?_,⟨k + 1,heldNext positive held clean⟩,.inr settled,?_⟩
  · rw [latency,(cleanNext phase clean).2,held.delay]
  · rw [negotiatedSame z.block settled,latency]

theorem readyFlush (positive : quantum ≠ 0) (aligned : z.block ∣ quantum) (ready : Ready z quantum φ) :
    Ready z quantum (emptied φ) := by
  refine ⟨⟨0,by simp [emptied],?_,by omega⟩,ready.known,ready.latency⟩
  rcases ready.known with fresh | used
  · have first : (emptied φ).quantum = none := fresh
    rw [insertedFirst first positive]
    simp [emptied,Flow.delay]
  · have same : (emptied φ).quantum = some quantum := used
    rw [insertedSame z.block same,Nat.gcd_eq_right aligned,Nat.sub_self]
    rfl

theorem readyHosts (positive : quantum ≠ 0) (room : quantum + z.block - Nat.gcd quantum z.block ≤ z.capacity)
    (ready : Ready z quantum φ) (n : Nat) : Quiet z φ (List.replicate n (.host quantum quantum)) ∧
      Ready z quantum ((List.replicate n (Move.host quantum quantum)).foldl (after z) φ) := by
  induction n generalizing φ with
  | zero => exact ⟨by simp [Quiet,trace],ready⟩
  | succ n ih =>
    obtain ⟨covered,exact_,later⟩ := readyNext positive room ready
    obtain ⟨quiet,last⟩ := ih later
    rw [List.replicate_succ,quietHost]
    exact ⟨⟨⟨covered,exact_⟩,quiet⟩,last⟩

theorem alignedQuiet (positive : quantum ≠ 0) (room : quantum + z.block - Nat.gcd quantum z.block ≤ z.capacity)
    (aligned : z.block ∣ quantum) (ready : Ready z quantum φ) (counts : List Nat) :
    Quiet z φ (counts.flatMap (playback quantum)) := by
  induction counts generalizing φ with
  | nil => simp [Quiet,trace]
  | cons n counts ih =>
    obtain ⟨quiet,last⟩ := readyHosts positive room ready n
    exact quietPlayback.mpr ⟨quiet,ih (readyFlush positive aligned last)⟩

theorem silentQuiet {counts : List Nat} (silent : counts.countP (fun n => n != 0) = 0) :
    Quiet z φ (counts.flatMap (playback quantum)) := by
  induction counts generalizing φ with
  | nil => simp [Quiet,trace]
  | cons n counts ih =>
    obtain ⟨none_,rest⟩ := List.forall_mem_cons.mp (List.countP_eq_zero.mp silent)
    have zero : n = 0 := by simpa using none_
    rw [quietPlayback,zero,List.replicate_zero]
    exact ⟨by simp [Quiet,trace],ih (List.countP_eq_zero.mpr rest)⟩

theorem onceQuiet (positive : quantum ≠ 0) (room : quantum + z.block - Nat.gcd quantum z.block ≤ z.capacity)
    {counts : List Nat} (once : counts.countP (fun n => n != 0) ≤ 1) :
    Quiet z start (counts.flatMap (playback quantum)) := by
  induction counts with
  | nil => simp [Quiet,trace]
  | cons n counts ih =>
    rw [List.countP_cons] at once
    rw [quietPlayback]
    refine ⟨(readyHosts positive room (startReady z positive) n).1,?_⟩
    cases n with
    | zero => exact ih (by simpa using once)
    | succ n => exact silentQuiet (by simpa using once)

theorem unprimedUnderruns (unaligned : ¬z.block ∣ quantum) (empty : φ.accumulated = 0 ∧ φ.pending = 0)
    (used : φ.quantum = some quantum) : 0 < (report z φ quantum quantum).underrunSamples := by
  have some_ : 0 < quantum % z.block := Nat.pos_of_ne_zero (fun zero => unaligned (Nat.dvd_of_mod_eq_zero zero))
  have split := Nat.mod_add_div' quantum z.block
  have taken : (φ.accumulated + accepted z φ quantum) / z.block * z.block ≤ quantum / z.block * z.block := by
    refine Nat.mul_le_mul_right _ (Nat.div_le_div_right ?_)
    rw [empty.1,Nat.zero_add]
    exact Nat.min_le_left _ _
  simp only [report,offered,empty.2,insertedSame z.block used]
  omega

theorem resumedUnderruns (unaligned : ¬z.block ∣ quantum) (empty : φ.accumulated = 0 ∧ φ.pending = 0)
    (used : φ.quantum = some quantum) {counts : List Nat} (again : counts.countP (fun n => n != 0) ≠ 0) :
    ¬Quiet z φ (counts.flatMap (playback quantum)) := by
  induction counts generalizing φ with
  | nil => simp at again
  | cons n counts ih =>
    rw [quietPlayback]
    cases n with
    | zero =>
      rintro ⟨_,later⟩
      exact ih (φ := emptied φ) ⟨rfl,rfl⟩ used (by simpa using again) later
    | succ n =>
      rw [List.replicate_succ,quietHost]
      rintro ⟨⟨⟨covered,_⟩,_⟩,_⟩
      have missing := unprimedUnderruns unaligned empty used
      omega

theorem hostsUse (positive : quantum ≠ 0) (n : Nat) :
    ((List.replicate (n + 1) (Move.host quantum quantum)).foldl (after z) φ).quantum = some quantum := by
  rw [List.replicate_succ',List.foldl_append]
  exact quantumNext z _ quantum positive

theorem twiceUnderruns (positive : quantum ≠ 0) (unaligned : ¬z.block ∣ quantum) {counts : List Nat}
    (twice : 1 < counts.countP (fun n => n != 0)) : ¬Quiet z start (counts.flatMap (playback quantum)) := by
  induction counts with
  | nil => simp at twice
  | cons n counts ih =>
    rw [List.countP_cons] at twice
    rw [quietPlayback]
    rintro ⟨_,later⟩
    cases n with
    | zero => exact ih (by simpa using twice) later
    | succ n =>
      have again : counts.countP (fun n => n != 0) ≠ 0 := by
        simp only [Nat.add_one_ne_zero,bne_iff_ne,ne_eq,not_false_eq_true,if_true] at twice
        omega
      have used : (emptied ((List.replicate (n + 1) (.host quantum quantum)).foldl (after z) start)).quantum = some quantum :=
        hostsUse positive n
      exact resumedUnderruns unaligned ⟨rfl,rfl⟩ used again later

theorem quietExact (positive : quantum ≠ 0) (room : quantum + z.block - Nat.gcd quantum z.block ≤ z.capacity)
    (counts : List Nat) : Quiet z start (counts.flatMap (playback quantum)) ↔
      z.block ∣ quantum ∨ counts.countP (fun n => n != 0) ≤ 1 := by
  constructor
  · intro quiet
    by_contra neither
    rw [not_or,Nat.not_le] at neither
    exact twiceUnderruns positive neither.1 neither.2 quiet
  · rintro (aligned | once)
    · exact alignedQuiet positive room aligned (startReady z positive) counts
    · exact onceQuiet positive room once

end Flows

section Sessions
variable {σ α : Type}

def Playback.ops (p : Playback σ α) : List (Op σ α) := p.calls.map (fun c => .host c.1 c.2) ++ [.flush p.last]

def Playback.Equal (quantum : Nat) (p : Playback σ α) : Prop :=
  ∀ c ∈ p.calls, c.2.input.length = quantum ∧ c.2.output.length = quantum

/-- No callback underruns, and the latency the adapter shows after it is what both queues hold. -/
def Undisturbed (h : History σ α) : Prop :=
  ∀ d ∈ h.steps, ∀ r, d.report = some r →
    r.underrunSamples = 0 ∧ d.adapter.latencySamples = accumulated d.adapter + pendingOutput d.adapter

theorem undisturbedQuiet {z : Sizes} {φ : Flow} {h : History σ α} {moves : List Move}
    (flow : h.steps.map (fun d => (AdapterFlow.measure d.adapter,d.report)) = trace z φ moves) :
    Undisturbed h ↔ Quiet z φ moves := by
  unfold Quiet Undisturbed
  rw [← flow,List.forall_mem_map]
  rfl

theorem playbackMoves {quantum : Nat} {p : Playback σ α} (equal : p.Equal quantum) :
    p.ops.map Op.move = playback quantum p.calls.length := by
  have hosts : (p.calls.map (fun c => Op.host c.1 c.2)).map Op.move =
      List.replicate p.calls.length (.host quantum quantum) := by
    rw [List.map_map,List.eq_replicate_iff]
    refine ⟨by simp,?_⟩
    intro m mem
    obtain ⟨c,listed,rfl⟩ := List.mem_map.mp mem
    simp [Op.move,equal c listed]
  rw [Playback.ops,List.map_append,hosts]
  rfl

theorem resumesExactly [Sample α] {block quantum capacity : Nat} (positive : 0 < block) (host : 0 < quantum)
    (room : max (2 * block) (quantum + block - Nat.gcd quantum block) ≤ capacity) (s : σ)
    (sessions : List (Playback σ α)) (equal : ∀ p ∈ sessions, p.Equal quantum) :
    ∃ h, history block capacity s (sessions.flatMap Playback.ops) = .ok h ∧
      (Undisturbed h ↔ block ∣ quantum ∨ sessions.countP (fun p => !p.calls.isEmpty) ≤ 1) := by
  let z : Sizes := ⟨block,capacity,positive,by omega⟩
  obtain ⟨h,ran,_,_,flow,_⟩ := historyFlow z s (sessions.flatMap Playback.ops)
  have moves : (sessions.flatMap Playback.ops).map Op.move =
      (sessions.map (fun p => p.calls.length)).flatMap (playback quantum) := by
    rw [List.map_flatMap,List.flatMap_map]
    exact List.flatMap_congr (fun p listed => playbackMoves (equal p listed))
  have counted : (sessions.map (fun p => p.calls.length)).countP (fun n => n != 0) =
      sessions.countP (fun p => !p.calls.isEmpty) := by
    rw [List.countP_map]
    congr 1
    funext p
    cases calls : p.calls <;> simp [calls]
  refine ⟨h,ran,?_⟩
  rw [undisturbedQuiet flow,moves,← counted]
  exact quietExact (z := z) (by omega) (show quantum + block - Nat.gcd quantum block ≤ capacity by omega) _

end Sessions

def twoSessions (h : Nat) : List (Playback Unit Int) :=
  [⟨[(passthrough,hostCall h)],passthrough⟩,⟨[(passthrough,hostCall h)],passthrough⟩]

theorem resumesExactlyAtTwo : ∃ h, history 2 4 () ((twoSessions 2).flatMap Playback.ops) = .ok h ∧
    (Undisturbed h ↔ 2 ∣ 2 ∨ (twoSessions 2).countP (fun p => !p.calls.isEmpty) ≤ 1) :=
  resumesExactly (by decide) (by decide) (by decide) () (twoSessions 2) (by simp [twoSessions,Playback.Equal,hostCall])

/- One sample at a time into blocks of two: the first callback after the flush finds
its quantum unchanged and the reserve gone. -/
theorem resumedSessionUnderruns : ∃ h, history 2 4 () ((twoSessions 1).flatMap Playback.ops) = .ok h ∧
    ¬Undisturbed h := by
  have run : passes (history 2 4 () ((twoSessions 1).flatMap Playback.ops))
      (fun h => h.steps.any (fun d => d.report.any (fun r => r.underrunSamples != 0))) = true := by decide
  obtain ⟨h,ran,found⟩ := passed run
  obtain ⟨d,mem,reported⟩ := List.any_eq_true.mp found
  obtain ⟨r,told,missing⟩ := (Option.any_eq_true _ _).mp reported
  refine ⟨h,ran,?_⟩
  intro undisturbed
  simp [(undisturbed d mem r told).1] at missing

end Riaps.AdapterResume
