import Riaps.AdapterView

/-! Only the lengths of the two queues decide what a callback reports. The flow
of an adapter is its state with the samples forgotten; whole sessions of the
code project to runs of the flow, report by report. -/
namespace Riaps.AdapterFlow
open Library.Checks SampleFifo Adapter AdapterView

@[ext] structure Flow where
  accumulated : Nat
  pending : Nat
  quantum : Option Nat
  latency : Nat
  deriving DecidableEq, Repr

def start : Flow := ⟨0,0,none,0⟩

def Flow.delay (φ : Flow) : Nat := φ.accumulated + φ.pending

def inserted (block : Nat) (φ : Flow) (n : Nat) : Nat :=
  match reserveFor block φ.quantum n with
  | none => 0
  | some reserve => reserve - φ.pending

def negotiated (block : Nat) (φ : Flow) (n : Nat) : Option Nat × Nat :=
  match reserveFor block φ.quantum n with
  | none => (φ.quantum,φ.latency)
  | some reserve => (some n,max φ.latency reserve)

def accepted (z : Sizes) (φ : Flow) (m : Nat) : Nat := min m (z.capacity - φ.accumulated)

def offered (z : Sizes) (φ : Flow) (m n : Nat) : Nat :=
  φ.pending + inserted z.block φ n + (φ.accumulated + accepted z φ m) / z.block * z.block

def next (z : Sizes) (φ : Flow) (m n : Nat) : Flow :=
  ⟨(φ.accumulated + accepted z φ m) % z.block,min z.capacity (offered z φ m n) - n,
    (negotiated z.block φ n).1,(negotiated z.block φ n).2⟩

def report (z : Sizes) (φ : Flow) (m n : Nat) : AdapterProcessReport :=
  ⟨accepted z φ m,m - accepted z φ m,(φ.accumulated + accepted z φ m) / z.block,
    offered z φ m n - min z.capacity (offered z φ m n),n - min z.capacity (offered z φ m n),
    inserted z.block φ n⟩

def run (z : Sizes) : Flow → List (Nat × Nat) → List (Flow × AdapterProcessReport)
  | _, [] => []
  | φ, c :: cs => (next z φ c.1 c.2,report z φ c.1 c.2) :: run z (next z φ c.1 c.2) cs

variable {σ α : Type}

def forget (v : View α) : Flow := ⟨v.input.length,v.output.length,v.quantum,v.latency⟩

def measure (a : AdapterBuffer α) : Flow := ⟨accumulated a,pendingOutput a,a.hostQuantum,a.latencySamples⟩

theorem showsMeasure {z : Sizes} {a : AdapterBuffer α} {v : View α} (shows : Shows z a v) : measure a = forget v := by
  simp [measure,forget,accumulated,pendingOutput,shows.input.count,shows.output.count,shows.quantum,shows.latency]

theorem loadForget [Sample α] (z : Sizes) (v : View α) (xs : List α) (n : Nat)
    (fits : v.output.length ≤ z.capacity) :
    (prime z v n).2 = inserted z.block (forget v) n ∧
    (load z v xs n).input.length = v.input.length + accepted z (forget v) xs.length ∧
    (load z v xs n).output.length = v.output.length + inserted z.block (forget v) n ∧
    (load z v xs n).output.length ≤ z.capacity ∧ (load z v xs n).scratchOut = v.scratchOut ∧
    ((load z v xs n).quantum,(load z v xs n).latency) = negotiated z.block (forget v) n := by
  have taken : (v.input ++ xs.take (z.capacity - v.input.length)).length =
      v.input.length + accepted z (forget v) xs.length := by
    simp only [List.length_append,List.length_take,forget,accepted]
    omega
  unfold load prime inserted negotiated
  cases h : reserveFor z.block v.quantum n with
  | none => simpa [forget,h,accepted,Nat.min_comm] using fits
  | some reserve =>
    have bound := reserveBound h
    have room := z.room
    simp only [forget,h,List.length_append,List.length_replicate] at taken ⊢
    exact ⟨trivial,taken,trivial,by omega,trivial,trivial⟩

theorem drainForget (z : Sizes) (callback : DspCallback σ α) (k : Nat) (v : View α) (s : σ)
    (size : v.scratchOut.length = z.block) (fits : v.output.length ≤ z.capacity) :
    (drain z callback k v s).1.input = v.input.drop (k * z.block) ∧
    (drain z callback k v s).1.output.length = min z.capacity (v.output.length + k * z.block) ∧
    (drain z callback k v s).2.2 = v.output.length + k * z.block - min z.capacity (v.output.length + k * z.block) ∧
    ((drain z callback k v s).1.quantum,(drain z callback k v s).1.latency) = (v.quantum,v.latency) := by
  induction k generalizing v s with
  | zero =>
    simp only [drain,Nat.zero_mul,List.drop_zero,Nat.add_zero,Nat.min_eq_right fits,Nat.sub_self,and_self]
  | succ k ih =>
    have kept := callback.keepsLength s (v.input.take z.block) v.scratchOut
    rw [size] at kept
    obtain ⟨input,output,dropped,settings⟩ := ih (feed z callback v s).1 (feed z callback v s).2 kept
      (by simp [feed]; omega)
    have more : (k + 1) * z.block = k * z.block + z.block := Nat.succ_mul k z.block
    have pushed : (feed z callback v s).1.output.length =
        v.output.length + min (z.capacity - v.output.length) z.block := by
      simp [feed,kept]
    rw [pushed] at output dropped
    refine ⟨?_,?_,?_,settings⟩
    · rw [drain,input]
      simp only [feed]
      rw [List.drop_drop,more,Nat.add_comm]
    · rw [drain,output]
      omega
    · simp only [drain,dropped]
      omega

theorem hostForget [Sample α] (z : Sizes) (callback : DspCallback σ α) (v : View α) (s : σ) (xs : List α) (n : Nat)
    (size : v.scratchOut.length = z.block) (fits : v.output.length ≤ z.capacity) :
    forget (host z callback v s xs n).view = next z (forget v) xs.length n ∧
    (host z callback v s xs n).report = report z (forget v) xs.length n := by
  obtain ⟨added,input,output,bounded,scratch,settings⟩ := loadForget z v xs n fits
  obtain ⟨rest,filled,dropped,kept⟩ := drainForget z callback ((load z v xs n).input.length / z.block)
    (load z v xs n) s (by rw [scratch,size]) bounded
  have remainder : (load z v xs n).input.length - (load z v xs n).input.length / z.block * z.block =
      (load z v xs n).input.length % z.block := by
    have split := Nat.mod_add_div' (load z v xs n).input.length z.block
    omega
  rw [settings] at kept
  constructor
  · apply Flow.ext
    · change (drain z callback _ (load z v xs n) s).1.input.length = _
      rw [rest,List.length_drop,remainder,input]
      rfl
    · change ((drain z callback _ (load z v xs n) s).1.output.drop n).length = _
      rw [List.length_drop,filled,input,output]
      rfl
    · exact congrArg Prod.fst kept
    · exact congrArg Prod.snd kept
  · simp only [host,dropped,filled,added]
    rw [input,output]
    rfl

theorem processAllFlow [Sample α] {z : Sizes} (callback : DspCallback σ α) {a : AdapterBuffer α} {v : View α}
    (shows : Shows z a v) (s : σ) (calls : List (HostCall α)) :
    ∃ r, processAll callback a s calls = .ok r ∧
      r.blocks.map (fun b => (measure b.adapter,b.report)) =
        run z (measure a) (calls.map (fun c => (c.input.length,c.output.length))) := by
  induction calls generalizing a v s with
  | nil => exact ⟨⟨a,s,[]⟩,rfl,rfl⟩
  | cons c cs ih =>
    obtain ⟨b,hb,showsB⟩ := hostShows callback shows s c.input c.output
    obtain ⟨r,hr,rest⟩ := ih showsB (host z callback v s c.input c.output.length).state
    obtain ⟨moved,told⟩ := hostForget z callback v s c.input c.output.length shows.scratchSize shows.output.fits
    refine ⟨{r with blocks := ⟨b,(host z callback v s c.input c.output.length).state,
      (host z callback v s c.input c.output.length).output,
      (host z callback v s c.input c.output.length).report⟩ :: r.blocks},
      processAllCons.mpr ⟨_,r,hb,hr,rfl⟩,?_⟩
    simp only [List.map_cons,run,rest,showsMeasure showsB,showsMeasure shows,moved,told]

theorem sessionFlow [Sample α] (z : Sizes) (callback : DspCallback σ α) (s : σ) (calls : List (HostCall α)) :
    ∃ r, session z.block z.capacity callback s calls = .ok r ∧
      r.blocks.map (fun b => (measure b.adapter,b.report)) =
        run z start (calls.map (fun c => (c.input.length,c.output.length))) := by
  obtain ⟨a,ha,shows⟩ := newShows (α := α) z
  obtain ⟨r,hr,flow⟩ := processAllFlow callback shows s calls
  rw [showsMeasure shows] at flow
  exact ⟨r,by simp only [session,ha,okBind,hr],flow⟩

end Riaps.AdapterFlow
