import Mathlib.Algebra.Group.Defs
import Riaps.Library.Checks

/-! The graph builder, its compiler and the processing of one block, as the code
has them. Every vector index, slice bound, offset product and decrement is
checked, so a panic would be a visible result. Nodes of any kinds are one
carrier type with one table of methods. -/
namespace Riaps.Graph
open Library.Checks

structure NodeId where
  index : Nat
  deriving DecidableEq, Repr

inductive GraphError where
  | cycleDetected
  | invalidNode (index : Nat)
  | duplicateEdge
  | empty
  | bufferSizeOverflow
  deriving DecidableEq, Repr

structure ProcessContext where
  sampleRate : UInt32
  blockSize : Nat
  deriving DecidableEq, Repr

/- An output slice keeps its length: the callee holds it by mutable reference. -/
structure DspNode (σ α : Type) where
  process : σ → List α → List α → ProcessContext → σ × List α
  keepsLength : ∀ node inputs outputs ctx, (process node inputs outputs ctx).2.length = outputs.length
  latencySamples : σ → Nat

structure DynamicGraphBuilder (σ : Type) where
  nodes : List σ
  connections : List (Nat × Nat)
  maxBlock : Nat
  deriving DecidableEq, Repr

structure DspGraphInner (σ α : Type) where
  nodes : List σ
  order : List Nat
  predecessors : List (List Nat)
  sinks : List Nat
  nodeOutputs : List α
  mixBuffer : List α
  maxBlock : Nat
  totalLatency : Nat
  deriving DecidableEq, Repr

section Builder
variable {σ : Type}

def new (σ : Type) (maxBlock : Nat) : Checked (DynamicGraphBuilder σ) := do
  ensure .assertion (0 < maxBlock)
  return ⟨[],[],maxBlock⟩

def addNode (b : DynamicGraphBuilder σ) (node : σ) : DynamicGraphBuilder σ × NodeId :=
  ({b with nodes := b.nodes ++ [node]},⟨b.nodes.length⟩)

def connect (b : DynamicGraphBuilder σ) (source target : NodeId) : DynamicGraphBuilder σ × Except GraphError Unit :=
  if b.nodes.length ≤ source.index then (b,.error (.invalidNode source.index))
  else if b.nodes.length ≤ target.index then (b,.error (.invalidNode target.index))
  else if (source.index,target.index) ∈ b.connections then (b,.error .duplicateEdge)
  else ({b with connections := b.connections ++ [(source.index,target.index)]},.ok ())

def disconnect (b : DynamicGraphBuilder σ) (source target : NodeId) : DynamicGraphBuilder σ :=
  {b with connections := b.connections.filter (fun e => !(e.1 == source.index && e.2 == target.index))}

inductive Edit (σ : Type) where
  | addNode (node : σ)
  | connect (source target : NodeId)
  | disconnect (source target : NodeId)
  deriving DecidableEq, Repr

def edit (b : DynamicGraphBuilder σ) : Edit σ → DynamicGraphBuilder σ
  | .addNode node => (addNode b node).1
  | .connect source target => (connect b source target).1
  | .disconnect source target => disconnect b source target

end Builder

structure Links where
  adjacency : List (List Nat)
  predecessors : List (List Nat)
  indegree : List Nat
  deriving DecidableEq, Repr

def link : List (Nat × Nat) → Links → Checked Links
  | [],l => .ok l
  | (source,target) :: rest,l => do
      let successors ← get l.adjacency source
      let adjacency ← set l.adjacency source (successors ++ [target])
      let sources ← get l.predecessors target
      let predecessors ← set l.predecessors target (sources ++ [source])
      let degree ← get l.indegree target
      let indegree ← set l.indegree target (degree + 1)
      link rest ⟨adjacency,predecessors,indegree⟩

def roots (indegree : List Nat) : List Nat → Checked (List Nat)
  | [] => .ok []
  | i :: rest => do
      let degree ← get indegree i
      let others ← roots indegree rest
      return if degree = 0 then i :: others else others

def release : List Nat → List Nat → List Nat → Checked (List Nat × List Nat)
  | [],indegree,queue => .ok (indegree,queue)
  | v :: rest,indegree,queue => do
      let degree ← get indegree v
      let degree ← sub degree 1
      let indegree ← set indegree v degree
      release rest indegree (if degree = 0 then queue ++ [v] else queue)

def schedule (adjacency : List (List Nat)) : Nat → List Nat → List Nat → List Nat → Checked (List Nat)
  | _,[],order,_ => .ok order
  | 0,_ :: _,_,_ => .error .unfinished
  | fuel+1,u :: queue,order,indegree => do
      let successors ← get adjacency u
      let (indegree,queue) ← release successors indegree queue
      schedule adjacency fuel queue (order ++ [u]) indegree

def saturatingAdd (w a b : Nat) : Nat := min (a + b) (2^w - 1)

section Compiler
variable {σ α : Type} (w : Nat) (methods : DspNode σ α)

def latencies (nodes : List σ) (predecessors : List (List Nat)) : List Nat → List Nat → Checked (List Nat)
  | [],path => .ok path
  | index :: rest,path => do
      let sources ← get predecessors index
      let arriving ← getAll path sources
      let node ← get nodes index
      let path ← set path index (saturatingAdd w (arriving.max?.getD 0) (methods.latencySamples node))
      latencies nodes predecessors rest path

def compile [Zero α] (b : DynamicGraphBuilder σ) : Checked (Except GraphError (DspGraphInner σ α)) :=
  let n := b.nodes.length
  if n = 0 then .ok (.error .empty)
  else do
    let l ← link b.connections ⟨List.replicate n [],List.replicate n [],List.replicate n 0⟩
    let queue ← roots l.indegree (List.range n)
    let order ← schedule l.adjacency n queue [] l.indegree
    if order.length ≠ n then return .error .cycleDetected
    else do
      let sinks := l.adjacency.zipIdx.filterMap (fun entry => if entry.1.isEmpty then some entry.2 else none)
      let path ← latencies w methods b.nodes l.predecessors order (List.replicate n 0)
      let leaving ← getAll path sinks
      if n * b.maxBlock < 2^w then
        return .ok ⟨b.nodes,order,l.predecessors,sinks,List.replicate (n * b.maxBlock) 0,List.replicate b.maxBlock 0,
          b.maxBlock,leaving.max?.getD 0⟩
      else return .error .bufferSizeOverflow

end Compiler

def gather {α : Type} [Add α] (w maxBlock count : Nat) (nodeOutputs : List α) : List Nat → List α → Checked (List α)
  | [],mixed => .ok mixed
  | source :: rest,mixed => do
      let start ← mul w source maxBlock
      let stop ← add w start count
      let samples ← slice nodeOutputs start stop
      let front ← slice mixed 0 count
      let mixed ← splice mixed 0 count (List.zipWith (· + ·) front samples)
      gather w maxBlock count nodeOutputs rest mixed

def mixInputs {α : Type} [Add α] (w maxBlock count : Nat) (input nodeOutputs : List α) (sources : List Nat) (mix : List α) :
    Checked (List α) :=
  if sources.isEmpty then do
    let front ← slice input 0 count
    splice mix 0 count front
  else gather w maxBlock count nodeOutputs sources mix

structure Call (α : Type) where
  node : Nat
  input : List α
  output : List α
  deriving DecidableEq, Repr

structure Processed (σ α : Type) where
  graph : DspGraphInner σ α
  output : List α
  calls : List (Call α)
  deriving DecidableEq, Repr

section Process
variable {σ α : Type} [Zero α] [Add α] (w : Nat) (methods : DspNode σ α)

def runNode (count : Nat) (input : List α) (ctx : ProcessContext) (g : DspGraphInner σ α) (index : Nat) :
    Checked (DspGraphInner σ α × Call α) := do
  let mix ← splice g.mixBuffer 0 count (List.replicate count 0)
  let sources ← get g.predecessors index
  let mix ← mixInputs w g.maxBlock count input g.nodeOutputs sources mix
  let start ← mul w index g.maxBlock
  let stop ← add w start count
  let region ← slice g.nodeOutputs start stop
  let node ← get g.nodes index
  let inputs ← slice mix 0 count
  let after := methods.process node inputs region ctx
  let nodes ← set g.nodes index after.1
  let nodeOutputs ← splice g.nodeOutputs start stop after.2
  return ({g with nodes := nodes, nodeOutputs := nodeOutputs, mixBuffer := mix},⟨index,inputs,after.2⟩)

def runNodes (count : Nat) (input : List α) (ctx : ProcessContext) :
    List Nat → DspGraphInner σ α → Checked (DspGraphInner σ α × List (Call α))
  | [],g => .ok (g,[])
  | index :: rest,g => do
      let (g,call) ← runNode w methods count input ctx g index
      let (g,calls) ← runNodes count input ctx rest g
      return (g,call :: calls)

def process (g : DspGraphInner σ α) (input output : List α) (ctx : ProcessContext) : Checked (Processed σ α) := do
  let sampleCount := min (min input.length output.length) g.maxBlock
  let (after,calls) ← runNodes w methods sampleCount input ctx g.order g
  let output ← gather w after.maxBlock sampleCount after.nodeOutputs after.sinks (List.replicate output.length 0)
  return ⟨after,output,calls⟩

end Process
end Riaps.Graph
