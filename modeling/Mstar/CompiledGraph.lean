import Mathlib.Data.Finset.Range
import Mathlib.Data.Finset.Filter
import Mathlib.Data.Finset.SDiff
import Mathlib.Logic.Relation
import Mstar.Shard

/-!
# The compiled graph of a worker graph

The immutable half of a walk: nodes with their inputs and output edges, and
loops nested in one another. What compilation derives from the two lists
(each node's innermost loop, a loop's children, the inputs an enclosing loop
re-injects) is computed here from them the same way.
-/

namespace Mstar.Walk

open Shard (Sym TensorRef)

/-- An index into the graph's nodes. -/
abbrev NodeId := ℕ

/-- An index into the graph's loops. -/
abbrev LoopId := ℕ

/-- A bitmask over a node's inputs, as the set of its bits. -/
abbrev Mask := Finset ℕ

/-- Where an output edge goes, resolved when the graph is compiled. -/
inductive Dest
  /-- A node of this worker graph. -/
  | localNode (node : NodeId)
  /-- A node owned elsewhere. -/
  | external (name : Sym)
  | emitToClient
  /-- Persist only, routed nowhere. -/
  | empty
  deriving DecidableEq, Repr

/-- One declared output edge. -/
structure EdgeSpec where
  name : Sym
  dest : Dest
  destSym : Sym
  persist : Bool
  newToken : Bool
  streaming : Bool
  modality : Sym
  deriving DecidableEq

/-- One node. -/
structure NodeSpec where
  name : Sym
  inputs : List Sym
  /-- Inputs that arrive as a stream. -/
  streamingMask : Mask
  outputs : List EdgeSpec

/-- What an index past the end reads: no inputs and no outputs. -/
instance : Inhabited NodeSpec := ⟨⟨0, [], ∅, []⟩⟩

namespace NodeSpec

/-- Every input. -/
def fullMask (n : NodeSpec) : Mask := Finset.range n.inputs.length

/-- `slot_of`: the input's position in the list. -/
def slotOf (n : NodeSpec) (name : Sym) : Option ℕ := n.inputs.findIdx? (· == name)

/-- Whether the node has inputs and all of them are streamed. -/
def onlyStreaming (n : NodeSpec) : Bool := n.fullMask ≠ ∅ ∧ n.streamingMask = n.fullMask

end NodeSpec

/-- One loop. -/
structure LoopSpec where
  name : Sym
  maxIters : ℕ
  parent : Option LoopId
  /-- Nodes the loop owns directly: one in a child loop belongs to the child. -/
  memberNodes : List NodeId
  outputs : List EdgeSpec
  accumulated : List EdgeSpec
  /-- Every pair of a signal and the node it loops back to. -/
  loopBack : List (Sym × Sym)
  /-- The inputs fed from outside the loop, with the nodes they go to. -/
  externalInputs : List (Sym × NodeId)

instance : Inhabited LoopSpec := ⟨⟨0, 0, none, [], [], [], [], []⟩⟩

namespace LoopSpec

def outputNames (l : LoopSpec) : List Sym := l.outputs.map EdgeSpec.name

def accumNames (l : LoopSpec) : List Sym := l.accumulated.map EdgeSpec.name

end LoopSpec

/-- A compiled worker graph. -/
structure CompiledGraph where
  nodes : List NodeSpec
  loops : List LoopSpec
  /-- A node's inputs are a set of names. -/
  inputs_nodup : ∀ n ∈ nodes, n.inputs.Nodup
  /-- A parent's name was found among the loops. -/
  parent_lt : ∀ l ∈ loops, ∀ p, l.parent = some p → p < loops.length
  /-- Loops are nested: each has a height below its parent's. -/
  nested : ∃ height : LoopId → ℕ, (∀ l, height l < loops.length ∨ loops.length ≤ l) ∧
    ∀ l p, (loops.getD l default).parent = some p → height l < height p
  /-- A node is claimed by one loop at most. -/
  claimed_once : ∀ l m n, n ∈ (loops.getD l default).memberNodes →
    n ∈ (loops.getD m default).memberNodes → l = m

namespace CompiledGraph

variable (g : CompiledGraph)

/-- The spec of a node. -/
def node (n : NodeId) : NodeSpec := g.nodes.getD n default

/-- The spec of a loop. -/
def lp (l : LoopId) : LoopSpec := g.loops.getD l default

/-- The innermost loop around a node, the one that claims it. -/
def loopId (n : NodeId) : Option LoopId :=
  (List.range g.loops.length).find? fun l => n ∈ (g.lp l).memberNodes

/-- The loops whose parent a loop is. -/
def childLoops (l : LoopId) : List LoopId :=
  (List.range g.loops.length).filter fun c => (g.lp c).parent = some l

/-- The nodes and loops a loop waits for. -/
def nEntities (l : LoopId) : ℕ := (g.lp l).memberNodes.length + (g.childLoops l).length

/-- Nodes in no loop. -/
def rootNodes : List NodeId := (List.range g.nodes.length).filter fun n => g.loopId n = none

/-- Loops in no loop. -/
def rootLoops : List LoopId := (List.range g.loops.length).filter fun l => (g.lp l).parent = none

/-- The nodes and loops the worker graph waits for. -/
def nRootEntities : ℕ := g.rootNodes.length + g.rootLoops.length

/-- A loop and the loops around it, inner to outer, at most so many. -/
def outward : ℕ → LoopId → List LoopId
  | 0, _ => []
  | k + 1, l => l :: (match (g.lp l).parent with
    | none => []
    | some p => outward k p)

/-- The loops around a node, inner to outer. -/
def enclosing (n : NodeId) : List LoopId :=
  match g.loopId n with
  | none => []
  | some l => g.outward g.loops.length l

/-- `loop_order`: a loop and the loops around it, outer to inner. -/
def loopOrder (l : LoopId) : List LoopId := (g.outward g.loops.length l).reverse

/-- `loop_by_name`: a repeated name finds the last loop. -/
def loopByName (name : Sym) : Option LoopId :=
  (List.range g.loops.length).reverse.find? fun l => (g.lp l).name = name

/-- A loop nested in another, at any depth. -/
def Below : LoopId → LoopId → Prop := Relation.TransGen fun c p => (g.lp c).parent = some p

/-- The inputs of a node that some loop around it is fed from outside and
re-injects every iteration. A streamed input is not: each iteration takes its
next chunk. -/
def heldMask (n : NodeId) : Mask :=
  (g.node n).fullMask.filter fun i => i ∉ (g.node n).streamingMask ∧
    ∃ l ∈ g.enclosing n, ∃ x ∈ (g.lp l).externalInputs, x.2 = n ∧ (g.node n).slotOf x.1 = some i

/-- The inputs whose tensors a node's slots own. -/
def ownMask (n : NodeId) : Mask := (g.node n).fullMask \ g.heldMask n

variable {g}

/-- A child loop is a loop directly in this one. -/
theorem mem_childLoops {c l : LoopId} :
    c ∈ g.childLoops l ↔ c < g.loops.length ∧ (g.lp c).parent = some l := by
  unfold childLoops
  simp

/-- A parent is one of the loops. -/
theorem parent_lt_length {l p : LoopId} (h : (g.lp l).parent = some p) : p < g.loops.length := by
  unfold lp at h
  rw [List.getD_eq_getElem?_getD] at h
  cases hl : g.loops[l]? with
  | none =>
    rw [hl] at h
    simp [default] at h
  | some spec =>
    rw [hl] at h
    exact g.parent_lt spec (List.mem_of_getElem? hl) p h

/-- A nested loop is lower. -/
theorem height_lt_of_below {height : LoopId → ℕ}
    (hup : ∀ l p, (g.lp l).parent = some p → height l < height p) {d l : LoopId}
    (h : g.Below d l) : height d < height l := by
  induction h with
  | single h => exact hup _ _ h
  | tail _ h ih => exact lt_trans ih (hup _ _ h)

/-- A loop is not nested in itself. -/
theorem not_below_self (l : LoopId) : ¬ g.Below l l := by
  obtain ⟨height, _, hup⟩ := g.nested
  exact fun h => lt_irrefl _ (height_lt_of_below hup h)

/-- Only a loop has a parent. -/
theorem lt_length_of_parent {l p : LoopId} (h : (g.lp l).parent = some p) : l < g.loops.length := by
  by_contra hl
  unfold lp at h
  rw [List.getD_eq_getElem?_getD, List.getElem?_eq_none (Nat.not_lt.1 hl)] at h
  exact absurd h (by simp [default])

/-- The loop around a node is one of the loops. -/
theorem loopId_lt_length {n : NodeId} {l : LoopId} (h : g.loopId n = some l) :
    l < g.loops.length := by
  unfold loopId at h
  simpa using List.mem_of_find?_eq_some h

/-- A name finds a loop that has it. -/
theorem loopByName_spec {name : Sym} {l : LoopId} (h : g.loopByName name = some l) :
    l < g.loops.length ∧ (g.lp l).name = name := by
  have hmem := List.mem_of_find?_eq_some h
  have hname := List.find?_some h
  exact ⟨by simpa using hmem, by simpa using hname⟩

/-- A node in no loop holds no input for one. -/
theorem heldMask_eq_empty {n : NodeId} (h : g.loopId n = none) : g.heldMask n = ∅ := by
  unfold heldMask enclosing
  rw [h]
  simp

/-- A position the lookup finds holds the name. -/
theorem slotOf_spec {n : NodeId} {name : Sym} {i : ℕ} (h : (g.node n).slotOf name = some i) :
    i < (g.node n).inputs.length ∧ (g.node n).inputs.getD i 0 = name := by
  unfold NodeSpec.slotOf at h
  obtain ⟨hi, hname, _⟩ := List.findIdx?_eq_some_iff_getElem.1 h
  refine ⟨hi, ?_⟩
  rw [List.getD_eq_getElem?_getD, List.getElem?_eq_getElem hi]
  simpa using hname

/-- An input is found at its own position. -/
theorem slotOf_inputs {n : NodeId} {i : ℕ} (hi : i < (g.node n).inputs.length) :
    (g.node n).slotOf ((g.node n).inputs.getD i 0) = some i := by
  have hnodup : (g.node n).inputs.Nodup := by
    unfold node
    rw [List.getD_eq_getElem?_getD]
    cases hg : g.nodes[n]? with
    | none => exact List.nodup_nil
    | some spec => exact g.inputs_nodup spec (List.mem_of_getElem? hg)
  unfold NodeSpec.slotOf
  rw [List.findIdx?_eq_some_iff_getElem, List.getD_eq_getElem?_getD, List.getElem?_eq_getElem hi]
  refine ⟨hi, by simp, fun j hj => ?_⟩
  simp only [Option.getD_some, beq_iff_eq]
  intro heq
  have := (List.Nodup.getElem_inj_iff hnodup).1 heq
  omega

/-- An input an enclosing loop is fed from outside is held, unless it is
streamed. -/
theorem mem_heldMask {n : NodeId} {l : LoopId} {name : Sym} {i : ℕ} (hl : l ∈ g.enclosing n)
    (hext : (name, n) ∈ (g.lp l).externalInputs) (hi : (g.node n).slotOf name = some i)
    (hstream : i ∉ (g.node n).streamingMask) : i ∈ g.heldMask n := by
  unfold heldMask
  rw [Finset.mem_filter]
  refine ⟨?_, hstream, l, hl, (name, n), hext, rfl, hi⟩
  exact Finset.mem_range.2 (slotOf_spec hi).1

/-- An input's tensors belong to the slot, or a loop holds them. -/
theorem mem_ownMask {n : NodeId} {i : ℕ} (hi : i < (g.node n).inputs.length) :
    i ∈ g.ownMask n ↔ i ∉ g.heldMask n := by
  unfold ownMask NodeSpec.fullMask
  simp [hi]

end CompiledGraph

end Mstar.Walk
