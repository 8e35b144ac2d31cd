import Riaps.AdapterFixedQuantum
import Riaps.AdapterStream

/-! Where in the host's stream every sample comes out. The reports of a session
say it, whatever was dropped or missing. Under one host quantum with room for it
that makes the adapter a delay line. -/
namespace Riaps.AdapterDelay
open Library.Checks Library.Replay Library.Blocks SampleFifo Adapter AdapterView AdapterQuantum AdapterWeaving AdapterStream

section Account
variable {σ α : Type} [Sample α]

theorem outputsAccounted {block capacity : Nat} (positive : 0 < block) (room : 2 * block ≤ capacity)
    (f : DspCallback σ α) (s : σ) (calls : List (HostCall α)) :
    ∃ r tail o answers, session block capacity f s calls = .ok r ∧ flush f r.adapter r.state = .ok tail ∧
      replay (called f) (s,List.replicate block 0) (blocks block (accepted calls r.reports)) =
        .ok ((tail.state,o),answers) ∧
      List.Forall₂ Reported calls r.blocks ∧
      r.blocks.flatMap rendered ++ tail.output = woven block r.reports answers.flatten ++
        ((answers.flatten.drop (blocksOf r.reports * block)).take (Adapter.accumulated r.adapter)).take
          (capacity - pendingOutput r.adapter) := by
  obtain ⟨r,tail,o,answers,ran,done,account⟩ := sessionAccounted ⟨block,capacity,positive,room⟩ f s calls
  exact ⟨r,tail,o,answers,ran,done,account.replayed,account.reported,account.stream⟩

end Account

def crowded : List (HostCall Int) := [⟨[1,2,3,4,5,6],[9]⟩,⟨[],[9,9,9,9,9,9]⟩,⟨[7,8,9],[9,9]⟩]

theorem outputsAccountedCrowded : ∃ r tail o answers, session 2 4 doubling () crowded = .ok r ∧
    flush doubling r.adapter r.state = .ok tail ∧
    replay (called doubling) ((),List.replicate 2 0) (blocks 2 (accepted crowded r.reports)) = .ok ((tail.state,o),answers) ∧
    List.Forall₂ Reported crowded r.blocks ∧
    r.blocks.flatMap rendered ++ tail.output = woven 2 r.reports answers.flatten ++
      ((answers.flatten.drop (blocksOf r.reports * 2)).take (Adapter.accumulated r.adapter)).take
        (4 - pendingOutput r.adapter) :=
  outputsAccounted (by decide) (by decide) doubling () crowded

example : passes (session 2 4 doubling () crowded) (fun r => decide
    (r.blocks.map HostBlock.output = [[0],[2,4,6,0,0,0],[0,14]] ∧
      r.reports = [⟨4,2,2,1,0,1⟩,⟨0,0,0,0,3,0⟩,⟨3,0,1,0,0,1⟩])) = true := by decide

section Fixed
variable {σ α : Type}

theorem evenStreams {quantum : Nat} {calls : List (HostCall α)} {bs : List (HostBlock σ α)}
    (equal : ∀ c ∈ calls, c.input.length = quantum ∧ c.output.length = quantum)
    (size : (bs.flatMap HostBlock.output).length = (calls.flatMap HostCall.output).length) :
    (bs.flatMap HostBlock.output).length = (calls.flatMap HostCall.input).length := by
  rw [size,List.length_flatMap,List.length_flatMap]
  congr 1
  exact List.map_congr_left (fun c mem => (equal c mem).2.trans (equal c mem).1.symm)

variable [Sample α]

/- No silence and nothing dropped: the answers themselves. -/
theorem wovenPlain {block : Nat} {rs : List AdapterProcessReport} (answers : List α)
    (quiet : ∀ r ∈ rs, r.latencyAddedSamples = 0) (lossless : ∀ r ∈ rs, r.droppedOutputSamples = 0) :
    woven block rs answers = answers.take (blocksOf rs * block) := by
  induction rs generalizing answers with
  | nil => simp [woven,blocksOf]
  | cons r rs ih =>
    obtain ⟨quietHere,quietLater⟩ := List.forall_mem_cons.mp quiet
    obtain ⟨losslessHere,losslessLater⟩ := List.forall_mem_cons.mp lossless
    have counted : blocksOf (r :: rs) * block = r.processedDspBlocks * block + blocksOf rs * block := by
      simp only [blocksOf,List.map_cons,List.sum_cons,Nat.add_mul]
    rw [woven,quietHere,losslessHere,List.replicate_zero,List.nil_append,Nat.sub_zero,ih _ quietLater losslessLater,
      counted,List.take_add]

theorem wovenDelayed (block : Nat) {silence : Nat} {rs : List AdapterProcessReport} (answers : List α) (some : rs ≠ [])
    (first : ∀ r ∈ rs.head?, r.latencyAddedSamples = silence) (quiet : ∀ r ∈ rs.tail, r.latencyAddedSamples = 0)
    (lossless : ∀ r ∈ rs, r.droppedOutputSamples = 0) :
    woven block rs answers = List.replicate silence Sample.priming ++ answers.take (blocksOf rs * block) := by
  obtain ⟨r,rs,rfl⟩ := List.exists_cons_of_ne_nil some
  obtain ⟨here,later⟩ := List.forall_mem_cons.mp lossless
  have counted : blocksOf (r :: rs) * block = r.processedDspBlocks * block + blocksOf rs * block := by
    simp only [blocksOf,List.map_cons,List.sum_cons,Nat.add_mul]
  rw [woven,first r rfl,here,Nat.sub_zero,wovenPlain _ (by simpa using quiet) later,List.append_assoc,← List.take_add,
    counted]

theorem renderedWhole {calls : List (HostCall α)} {bs : List (HostBlock σ α)} (reported : List.Forall₂ Reported calls bs)
    (covered : ∀ b ∈ bs, b.report.underrunSamples = 0) :
    bs.flatMap rendered = bs.flatMap HostBlock.output ∧
      (bs.flatMap HostBlock.output).length = (calls.flatMap HostCall.output).length := by
  induction reported with
  | nil => exact ⟨rfl,rfl⟩
  | cons here _ ih =>
    obtain ⟨none,others⟩ := List.forall_mem_cons.mp covered
    obtain ⟨same,size⟩ := ih others
    constructor
    · rw [List.flatMap_cons,List.flatMap_cons,same,rendered,none,Nat.sub_zero,List.take_length]
    · simp only [List.flatMap_cons,List.length_append,size,here.filled]

theorem fixedReports {z : Sizes} {quantum : Nat} (positive : quantum ≠ 0)
    (room : quantum + z.block - Nat.gcd quantum z.block ≤ z.capacity) {f : DspCallback σ α} {s : σ}
    {calls : List (HostCall α)} (equal : ∀ c ∈ calls, c.input.length = quantum ∧ c.output.length = quantum)
    {r : Session σ α} (ran : session z.block z.capacity f s calls = .ok r) :
    r.reports.length = calls.length ∧ (∀ x ∈ r.reports, Clean x) ∧
      (∀ x ∈ r.reports.head?, x.latencyAddedSamples = z.block - Nat.gcd quantum z.block) ∧
      ∀ x ∈ r.reports.tail, x.latencyAddedSamples = 0 := by
  obtain ⟨r',ran',flow⟩ := AdapterFlow.sessionFlow z f s calls
  cases Except.ok.inj (ran.symm.trans ran')
  have sizes : calls.map (fun c => (c.input.length,c.output.length)) = lengths (List.replicate calls.length quantum) := by
    rw [lengths,List.map_replicate]
    refine List.eq_replicate_iff.mpr ⟨List.length_map _,?_⟩
    intro x mem
    obtain ⟨call,listed,rfl⟩ := List.mem_map.mp mem
    rw [(equal call listed).1,(equal call listed).2]
  rw [sizes] at flow
  have always := (AdapterFixedQuantum.fixedCapacity positive).mpr room
  have fixed := fun k => AdapterFixedQuantum.fixedAfter positive k (fun j _ => always j)
  have reports := reportsOfFlow flow
  rw [AdapterFixedQuantum.runFixed,List.map_map] at reports
  rw [reports]
  refine ⟨by simp,?_,?_,?_⟩
  · intro x mem
    obtain ⟨k,-,rfl⟩ := List.mem_map.mp mem
    exact always k
  · cases calls.length with
    | zero => simp
    | succ n =>
      rw [List.range_succ_eq_map]
      have silence := (fixed 0).delay
      rw [show (AdapterFixedQuantum.after z quantum AdapterFlow.start 0).delay = 0 from rfl,Nat.zero_add] at silence
      intro x mem
      cases Option.some.inj mem
      exact silence
  · intro x mem
    rw [← List.map_tail,List.tail_range] at mem
    obtain ⟨k,listed,rfl⟩ := List.mem_map.mp mem
    have later := (List.mem_range'_1.mp listed).1
    exact insertedSame z.block ((fixed k).settled (by omega))

theorem delaysExactly {block quantum capacity : Nat} (positive : 0 < block) (host : 0 < quantum)
    (room : 2 * block ≤ capacity) (enough : quantum + block - Nat.gcd quantum block ≤ capacity) (f : DspCallback σ α)
    (s : σ) {calls : List (HostCall α)} (some : calls ≠ [])
    (equal : ∀ c ∈ calls, c.input.length = quantum ∧ c.output.length = quantum) :
    ∃ r tail o answers, session block capacity f s calls = .ok r ∧ (∀ x ∈ r.reports, Clean x) ∧
      List.Forall₂ (fun c b => b.output.length = c.output.length) calls r.blocks ∧
      flush f r.adapter r.state = .ok tail ∧
      replay (called f) (s,List.replicate block 0) (blocks block (calls.flatMap HostCall.input)) =
        .ok ((tail.state,o),answers) ∧
      r.blocks.flatMap HostBlock.output ++ tail.output =
        List.replicate (block - Nat.gcd quantum block) Sample.priming ++
          answers.flatten.take (calls.flatMap HostCall.input).length := by
  let z : Sizes := ⟨block,capacity,positive,room⟩
  obtain ⟨r,tail,o,answers,ran,done,account⟩ := sessionAccounted z f s calls
  obtain ⟨each,clean,silence,quiet⟩ := fixedReports (z := z) (show quantum ≠ 0 by omega) enough equal ran
  have cleanBlocks : ∀ b ∈ r.blocks, Clean b.report := fun b mem => clean b.report (List.mem_map_of_mem mem)
  have taken : accepted calls r.reports = calls.flatMap HostCall.input :=
    acceptedWhole account.reported (fun b mem => (cleanBlocks b mem).1)
  obtain ⟨heard,size⟩ := renderedWhole account.reported (fun b mem => (cleanBlocks b mem).2.2)
  have delayed := wovenDelayed z.block answers.flatten
    (by intro none; exact some (List.length_eq_zero_iff.mp (each ▸ congrArg List.length none))) silence quiet
    (fun x mem => (clean x mem).2.1)
  have counted := account.counted
  have waiting := account.waiting
  have stream := account.stream
  rw [taken] at counted
  rw [heard,delayed,List.length_append,List.length_replicate,List.length_take,evenStreams equal size] at waiting
  -- both queues together hold the silence, since the host got as many samples as it gave
  have small : z.block - Nat.gcd quantum z.block ≤ z.capacity := show block - Nat.gcd quantum block ≤ capacity by omega
  have fits : accumulated r.adapter ≤ z.capacity - pendingOutput r.adapter := by omega
  refine ⟨r,tail,o,answers,ran,clean,account.reported.imp (fun _ _ => Reported.filled),done,?_,?_⟩
  · rw [← taken]
    exact account.replayed
  · rw [heard,delayed,List.take_of_length_le (Nat.le_trans (List.length_take_le _ _) fits),List.append_assoc,← List.take_add,
      counted] at stream
    exact stream

end Fixed
end Riaps.AdapterDelay
