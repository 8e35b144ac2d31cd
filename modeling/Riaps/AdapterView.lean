import Riaps.Library.Blocks
import Riaps.Adapter

/-! What the adapter does to the two sample streams, free of rings, scratch
copies and checks. Every call of the code on an adapter that shows a view ends
without a panic, returns what the view computes and shows the next view. -/
namespace Riaps.AdapterView
open Library.Checks Library.Blocks SampleFifo Adapter

structure Sizes where
  block : Nat
  capacity : Nat
  positive : 0 < block
  room : 2 * block ≤ capacity

structure View (α : Type) where
  input : List α
  output : List α
  scratchOut : List α
  quantum : Option Nat
  latency : Nat

structure ViewBlock (σ α : Type) where
  view : View α
  state : σ
  output : List α
  report : AdapterProcessReport

variable {σ α : Type}

def fresh [Sample α] (z : Sizes) : View α := ⟨[],[],List.replicate z.block 0,none,0⟩

def reserveFor (block : Nat) (quantum : Option Nat) (n : Nat) : Option Nat :=
  if n = 0 then none
  else match quantum with
    | none => some (block - Nat.gcd n block)
    | some previous => if previous = n then none else some (block - 1)

def prime [Sample α] (z : Sizes) (v : View α) (n : Nat) : View α × Nat :=
  match reserveFor z.block v.quantum n with
  | none => (v,0)
  | some reserve =>
      ({v with output := v.output ++ List.replicate (reserve - v.output.length) Sample.priming,
               quantum := some n, latency := max v.latency reserve},reserve - v.output.length)

def feed (z : Sizes) (callback : DspCallback σ α) (v : View α) (s : σ) : View α × σ :=
  let r := callback.call s (v.input.take z.block) v.scratchOut
  ({v with input := v.input.drop z.block,
           output := v.output ++ r.2.take (z.capacity - v.output.length), scratchOut := r.2},r.1)

def drain (z : Sizes) (callback : DspCallback σ α) : Nat → View α → σ → View α × σ × Nat
  | 0, v, s => (v,s,0)
  | k+1, v, s =>
      let rest := drain z callback k (feed z callback v s).1 (feed z callback v s).2
      (rest.1,rest.2.1,(z.block - min z.block (z.capacity - v.output.length)) + rest.2.2)

def load [Sample α] (z : Sizes) (v : View α) (xs : List α) (n : Nat) : View α :=
  {(prime z v n).1 with
    input := (prime z v n).1.input ++ xs.take (z.capacity - (prime z v n).1.input.length)}

def host [Sample α] (z : Sizes) (callback : DspCallback σ α) (v : View α) (s : σ) (xs : List α) (n : Nat) :
    ViewBlock σ α :=
  let l := load z v xs n
  let d := drain z callback (l.input.length / z.block) l s
  let accepted := min xs.length (z.capacity - v.input.length)
  ⟨{d.1 with output := d.1.output.drop n},d.2.1,
    d.1.output.take n ++ List.replicate (n - d.1.output.length) Sample.underrun,
    ⟨accepted,xs.length - accepted,l.input.length / z.block,d.2.2,n - d.1.output.length,(prime z v n).2⟩⟩

def flushed [Sample α] (z : Sizes) (callback : DspCallback σ α) (v : View α) (s : σ) : View α × σ × List α :=
  if v.input = [] then ({v with output := []},s,v.output)
  else
    let r := callback.call s (padded z.block v.input) v.scratchOut
    ({v with input := [], output := [], scratchOut := r.2},r.1,
      v.output ++ (r.2.take v.input.length).take (z.capacity - v.output.length))

structure Shows (z : Sizes) (a : AdapterBuffer α) (v : View α) : Prop where
  input : Holds a.inputFifo z.capacity v.input
  output : Holds a.outputFifo z.capacity v.output
  scratchIn : a.scratchIn.length = z.block
  scratchOut : a.scratchOut = v.scratchOut
  scratchSize : v.scratchOut.length = z.block
  size : a.targetBlockSize = z.block
  quantum : a.hostQuantum = v.quantum
  latency : a.latencySamples = v.latency

theorem newShows [Sample α] (z : Sizes) :
    ∃ a : AdapterBuffer α, Adapter.new z.block z.capacity = .ok a ∧ Shows z a (fresh z) := by
  have positive := z.positive
  have room := z.room
  obtain ⟨f,hf,holds⟩ : ∃ f : Fifo α, SampleFifo.new z.capacity = .ok f ∧ Holds f z.capacity [] :=
    newHolds (by omega)
  refine ⟨⟨f,f,List.replicate z.block 0,List.replicate z.block 0,z.block,none,0⟩,?_,?_⟩
  · simp [Adapter.new,positive,ensureOk (show z.block * 2 ≤ z.capacity by omega),hf]
  · exact ⟨holds,holds,by simp,rfl,by simp [fresh],rfl,rfl,rfl⟩

theorem gcdLoopOk (fuel left right : Nat) (enough : right < fuel) :
    gcdLoop fuel left right = .ok (Nat.gcd left right) := by
  induction fuel generalizing left right with
  | zero => omega
  | succ fuel ih =>
    unfold gcdLoop
    split
    · rename_i zero
      simp [zero]
    · have less : left % right < right := Nat.mod_lt _ (by omega)
      rw [ih right (left % right) (by omega),Nat.gcd_comm left right,Nat.gcd_rec right left,Nat.gcd_comm]

theorem greatestCommonDivisorOk (left right : Nat) :
    greatestCommonDivisor left right = .ok (Nat.gcd left right) :=
  gcdLoopOk (right + 1) left right (by omega)

theorem requiredReserveOk {z : Sizes} {a : AdapterBuffer α} {v : View α} (shows : Shows z a v)
    {n : Nat} (some : n ≠ 0) : requiredReserve a n = .ok (reserveFor z.block v.quantum n) := by
  have positive := z.positive
  have divisor : Nat.gcd n z.block ≤ z.block := Nat.gcd_le_right _ positive
  unfold requiredReserve reserveFor
  rw [shows.quantum,shows.size,if_neg some]
  cases v.quantum with
  | none => simp [greatestCommonDivisorOk,subOk divisor]
  | some previous =>
    by_cases same : previous = n
    · simp [same]
    · simp [same,subOk (show 1 ≤ z.block by omega)]

theorem reserveBound {z : Sizes} {quantum n reserve} (h : reserveFor z.block quantum n = some reserve) :
    reserve < z.block := by
  have positive := z.positive
  unfold reserveFor at h
  split at h
  · contradiction
  · split at h
    · have divisor : 0 < Nat.gcd n z.block := Nat.gcd_pos_of_pos_right _ positive
      cases Option.some.inj h
      omega
    · split at h <;> try contradiction
      cases Option.some.inj h
      omega

theorem primeShows [Sample α] {z : Sizes} {a : AdapterBuffer α} {v : View α} (shows : Shows z a v) (n : Nat) :
    ∃ b, primeForQuantum a n = .ok (b,(prime z v n).2) ∧ Shows z b (prime z v n).1 := by
  by_cases zero : n = 0
  · exact ⟨a,by simp [primeForQuantum,prime,reserveFor,zero],by simpa [prime,reserveFor,zero] using shows⟩
  · have reserve := requiredReserveOk shows zero
    unfold primeForQuantum prime
    rw [if_neg zero,reserve]
    cases h : reserveFor z.block v.quantum n with
    | none => exact ⟨a,by simp,shows⟩
    | some reserve =>
      have bound := reserveBound h
      have room := z.room
      have fits := shows.output.fits
      obtain ⟨f,hf,holds⟩ := pushZerosHolds shows.output (reserve - v.output.length)
      have all : min (reserve - v.output.length) (z.capacity - v.output.length) = reserve - v.output.length := by
        omega
      rw [all] at hf holds
      refine ⟨{a with outputFifo := f, hostQuantum := some n, latencySamples := max a.latencySamples reserve},?_,?_⟩
      · simp [shows.output.count,hf]
      · exact ⟨shows.input,holds,shows.scratchIn,shows.scratchOut,shows.scratchSize,shows.size,rfl,
          by simp [shows.latency]⟩

theorem popIntoHolds {f : Fifo α} {capacity items} (holds : Holds f capacity items) (slots : List α)
    (enough : slots.length ≤ items.length) :
    ∃ g, popInto f slots = .ok (g,items.take slots.length) ∧ Holds g capacity (items.drop slots.length) := by
  induction slots generalizing f items with
  | nil => exact ⟨f,rfl,by simpa using holds⟩
  | cons slot slots ih =>
    cases items with
    | nil => simp at enough
    | cons x items =>
      obtain ⟨g,hg,holdsG⟩ := popHolds holds
      obtain ⟨k,hk,holdsK⟩ := ih holdsG (by simpa using enough)
      exact ⟨k,by simp [popInto,hg,hk],by simpa using holdsK⟩

theorem drainLoopShows {z : Sizes} (callback : DspCallback σ α) (fuel : Nat) {a : AdapterBuffer α} {v : View α}
    (shows : Shows z a v) (s : σ) (blocks dropped : Nat) (enough : v.input.length / z.block < fuel) :
    ∃ b, drainLoop callback fuel a s blocks dropped =
        .ok (b,(drain z callback (v.input.length / z.block) v s).2.1,blocks + v.input.length / z.block,
          dropped + (drain z callback (v.input.length / z.block) v s).2.2) ∧
      Shows z b (drain z callback (v.input.length / z.block) v s).1 := by
  induction fuel generalizing a v s blocks dropped with
  | zero => exact absurd enough (Nat.not_lt_zero _)
  | succ fuel ih =>
    have positive := z.positive
    unfold drainLoop
    rw [shows.size,shows.input.count]
    by_cases complete : z.block ≤ v.input.length
    · obtain ⟨k,less⟩ : ∃ k, (feed z callback v s).1.input.length / z.block = k := ⟨_,rfl⟩
      have hk : v.input.length / z.block = k + 1 := by
        rw [Nat.div_eq_sub_div positive complete,← List.length_drop]
        exact congrArg (· + 1) less
      rw [hk,if_pos complete]
      obtain ⟨f,hf,holdsF⟩ := popIntoHolds shows.input a.scratchIn (by rw [shows.scratchIn]; exact complete)
      rw [shows.scratchIn] at hf holdsF
      have size := callback.keepsLength s (v.input.take z.block) v.scratchOut
      rw [shows.scratchSize] at size
      obtain ⟨g,hg,holdsG⟩ := pushSliceHolds shows.output (callback.call s (v.input.take z.block) v.scratchOut).2
      rw [size] at hg
      have step : Shows z
          {a with inputFifo := f, outputFifo := g, scratchIn := v.input.take z.block,
                  scratchOut := (callback.call s (v.input.take z.block) v.scratchOut).2}
          (feed z callback v s).1 :=
        ⟨holdsF,holdsG,by simp [complete],rfl,size,shows.size,shows.quantum,shows.latency⟩
      obtain ⟨b,hb,showsB⟩ := ih step (feed z callback v s).2 (blocks + 1)
        (dropped + (z.block - min z.block (z.capacity - v.output.length))) (by rw [less]; omega)
      rw [less] at hb showsB
      refine ⟨b,?_,showsB⟩
      simp only [hf,okBind,shows.scratchOut,hg,subOk (Nat.min_le_left _ _),shows.size] at hb ⊢
      refine hb.trans ?_
      simp only [drain]
      congr 4 <;> omega
    · have none : v.input.length / z.block = 0 := Nat.div_eq_of_lt (by omega)
      rw [none,if_neg complete]
      exact ⟨a,rfl,shows⟩

theorem writeOutputsHolds [Sample α] {f : Fifo α} {capacity items} (holds : Holds f capacity items)
    (slots : List α) :
    ∃ g, writeOutputs f slots =
        .ok (g,items.take slots.length ++ List.replicate (slots.length - items.length) Sample.underrun,
          slots.length - items.length) ∧
      Holds g capacity (items.drop slots.length) := by
  induction slots generalizing f items with
  | nil => exact ⟨f,by simp [writeOutputs],by simpa using holds⟩
  | cons slot slots ih =>
    cases items with
    | nil =>
      obtain ⟨g,hg,holdsG⟩ := ih holds
      refine ⟨g,?_,by simpa using holdsG⟩
      simp only [writeOutputs,popEmpty holds,okBind,hg]
      simp [List.replicate_succ]
    | cons x items =>
      obtain ⟨g,hg,holdsG⟩ := popHolds holds
      obtain ⟨k,hk,holdsK⟩ := ih holdsG
      exact ⟨k,by simp [writeOutputs,hg,hk],by simpa using holdsK⟩

theorem primeInput [Sample α] (z : Sizes) (v : View α) (n : Nat) : (prime z v n).1.input = v.input := by
  unfold prime
  split <;> rfl

theorem hostShows [Sample α] {z : Sizes} (callback : DspCallback σ α) {a : AdapterBuffer α} {v : View α}
    (shows : Shows z a v) (s : σ) (xs ys : List α) :
    ∃ b, processHostBlock callback a s xs ys =
        .ok ⟨b,(host z callback v s xs ys.length).state,(host z callback v s xs ys.length).output,
          (host z callback v s xs ys.length).report⟩ ∧
      Shows z b (host z callback v s xs ys.length).view := by
  obtain ⟨p,hp,showsP⟩ := primeShows shows ys.length
  obtain ⟨f,hf,holdsF⟩ := pushSliceHolds showsP.input xs
  have loaded : Shows z {p with inputFifo := f} (load z v xs ys.length) :=
    ⟨holdsF,showsP.output,showsP.scratchIn,showsP.scratchOut,showsP.scratchSize,showsP.size,showsP.quantum,
      showsP.latency⟩
  obtain ⟨d,hd,showsD⟩ := drainLoopShows callback (f.len + 1) loaded s 0 0 (by
    rw [loaded.input.count]
    exact Nat.lt_succ_of_le (Nat.div_le_self _ _))
  obtain ⟨g,hg,holdsG⟩ := writeOutputsHolds showsD.output ys
  refine ⟨{d with outputFifo := g},?_,⟨showsD.input,holdsG,showsD.scratchIn,showsD.scratchOut,showsD.scratchSize,
    showsD.size,showsD.quantum,showsD.latency⟩⟩
  rw [primeInput] at hf
  simp only [processHostBlock,hp,okBind,hf,subOk (Nat.min_le_left _ _),drainCompleteBlocks,hd,hg,host,Nat.zero_add]

theorem popAllHolds (fuel : Nat) {f : Fifo α} {capacity items} (holds : Holds f capacity items)
    (enough : items.length < fuel) : ∃ g, popAll fuel f = .ok (g,items) ∧ Holds g capacity [] := by
  induction fuel generalizing f items with
  | zero => omega
  | succ fuel ih =>
    cases items with
    | nil => exact ⟨f,by simp [popAll,popEmpty holds],holds⟩
    | cons x items =>
      obtain ⟨g,hg,holdsG⟩ := popHolds holds
      obtain ⟨k,hk,holdsK⟩ := ih holdsG (by simpa using enough)
      exact ⟨k,by simp [popAll,hg,hk],holdsK⟩

theorem flushRemainderShows [Sample α] {z : Sizes} (callback : DspCallback σ α) {a : AdapterBuffer α} {v : View α}
    (shows : Shows z a v) (s : σ) (some : v.input ≠ []) (short : v.input.length < z.block) :
    ∃ b, flushRemainder callback a s =
        .ok (b,(callback.call s (padded z.block v.input) v.scratchOut).1) ∧
      Shows z b {v with input := [],
                        output := v.output ++ ((callback.call s (padded z.block v.input) v.scratchOut).2.take
                          v.input.length).take (z.capacity - v.output.length),
                        scratchOut := (callback.call s (padded z.block v.input) v.scratchOut).2} := by
  have count := shows.input.count
  have positive : 0 < v.input.length := List.length_pos_iff.mpr some
  have front : (a.scratchIn.take v.input.length).length = v.input.length := by
    rw [List.length_take,shows.scratchIn]
    omega
  obtain ⟨f,hf,holdsF⟩ := popIntoHolds shows.input (a.scratchIn.take v.input.length) (by omega)
  rw [front,List.take_length] at hf
  rw [front,List.drop_length] at holdsF
  have size := callback.keepsLength s (padded z.block v.input) v.scratchOut
  rw [shows.scratchSize] at size
  obtain ⟨g,hg,holdsG⟩ := pushSliceHolds shows.output
    ((callback.call s (padded z.block v.input) v.scratchOut).2.take v.input.length)
  refine ⟨{a with inputFifo := f, outputFifo := g, scratchIn := padded z.block v.input,
                  scratchOut := (callback.call s (padded z.block v.input) v.scratchOut).2},?_,
    ⟨holdsF,holdsG,?_,rfl,size,shows.size,shows.quantum,shows.latency⟩⟩
  · have block : v.input ++ List.replicate (z.block - v.input.length) 0 = padded z.block v.input := rfl
    simp only [flushRemainder,count,if_pos positive,shows.size,ensureOk short,okBind,shows.scratchIn,
      ensureOk (Nat.le_of_lt short),hf,block,shows.scratchOut]
    rw [ensureOk (by rw [size]; omega),okBind,hg]
    rfl
  · simp only [padded,List.length_append,List.length_replicate]
    omega

theorem flushShows [Sample α] {z : Sizes} (callback : DspCallback σ α) {a : AdapterBuffer α} {v : View α}
    (shows : Shows z a v) (s : σ) (short : v.input.length < z.block) :
    ∃ b, flush callback a s = .ok ⟨b,(flushed z callback v s).2.1,(flushed z callback v s).2.2⟩ ∧
      Shows z b (flushed z callback v s).1 := by
  by_cases empty : v.input = []
  · have zero : a.inputFifo.len = 0 := by simp [shows.input.count,empty]
    obtain ⟨g,hg,holdsG⟩ := popAllHolds (a.outputFifo.len + 1) shows.output (by rw [shows.output.count]; omega)
    refine ⟨{a with outputFifo := g},by simp [flush,flushRemainder,flushed,empty,zero,hg],?_⟩
    simp only [flushed,if_pos empty]
    exact ⟨shows.input,holdsG,shows.scratchIn,shows.scratchOut,shows.scratchSize,shows.size,shows.quantum,
      shows.latency⟩
  · obtain ⟨c,hc,showsC⟩ := flushRemainderShows callback shows s empty short
    obtain ⟨g,hg,holdsG⟩ := popAllHolds (c.outputFifo.len + 1) showsC.output (by rw [showsC.output.count]; omega)
    refine ⟨{c with outputFifo := g},by simp only [flush,hc,okBind,hg,flushed,if_neg empty],?_⟩
    simp only [flushed,if_neg empty]
    exact ⟨showsC.input,holdsG,showsC.scratchIn,showsC.scratchOut,showsC.scratchSize,showsC.size,showsC.quantum,
      showsC.latency⟩

end Riaps.AdapterView
