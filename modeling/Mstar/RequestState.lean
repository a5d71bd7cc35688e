import Mathlib.Data.Finset.Basic
import Mathlib.Data.Finset.Erase
import Mstar.CompiledGraph

/-!
# One request's walk through a worker graph

The mutable half of a walk: what has arrived at each node, where each loop
stands, and the reference changes a completion leaves to its caller. Loops
are reset and cleared downwards and completed upwards, both as deep as the
graph has loops.
-/

namespace Mstar.Walk

open Shard (Sym TensorRef)
open CompiledGraph (mem_childLoops parent_lt_length)

/-- `u32::saturating_add`. -/
def saturatingAdd (a b : ℕ) : ℕ := min (a + b) 4294967295

/-- Which inputs have arrived, and their tensors. -/
structure Slot where
  mask : Mask
  /-- Inputs that were the last chunk of their stream. -/
  finalChunk : Mask
  tensors : ℕ → Option (List TensorRef)
  /-- The mask is the inputs that have arrived. -/
  filled : ∀ i, i ∈ mask ↔ (tensors i).isSome

namespace Slot

def new : Slot where
  mask := ∅
  finalChunk := ∅
  tensors := fun _ => none
  filled := by simp

def clear (_ : Slot) : Slot := new

def set (s : Slot) (slot : ℕ) (t : List TensorRef) (finalChunk : Bool) : Slot where
  mask := insert slot s.mask
  finalChunk := if finalChunk then insert slot s.finalChunk else s.finalChunk.erase slot
  tensors := Function.update s.tensors slot (some t)
  filled := by
    intro i
    by_cases h : i = slot
    · simp [h]
    · simp [h, s.filled]

/-- `take` of some inputs: they have not arrived any more. -/
def takeAll (s : Slot) (slots : Mask) : Slot where
  mask := s.mask \ slots
  finalChunk := s.finalChunk \ slots
  tensors := fun i => if i ∈ slots then none else s.tensors i
  filled := by
    intro i
    by_cases h : i ∈ slots <;> simp [h, s.filled]

def has (s : Slot) (slot : ℕ) : Bool := slot ∈ s.mask

/-- An input that has not arrived has no tensors. -/
theorem tensors_of_not_has {s : Slot} {slot : ℕ} (h : s.has slot = false) :
    s.tensors slot = none := by
  have hm : slot ∉ s.mask := by simpa [has] using h
  rw [s.filled] at hm
  simpa using hm

end Slot

/-- One node of one request. -/
structure NodeState where
  /-- Inputs of this iteration. -/
  cur : Slot
  /-- Inputs that came early, for the next iteration. -/
  next : Slot
  /-- Anticipated inputs. They are never referenced. -/
  spec : Slot
  completed : Bool
  inFlight : Bool

def NodeState.new : NodeState := ⟨.new, .new, .new, false, false⟩

/-- One loop of one request. -/
structure LoopState where
  maxIters : ℕ
  currIter : ℕ
  finishSignal : Bool
  done : Bool
  /-- Nodes and child loops that finished this iteration. -/
  completedEntities : ℕ
  /-- Outputs of this iteration. -/
  cached : List (Sym × List TensorRef)
  /-- Outputs of every iteration. -/
  accum : List (Sym × List TensorRef)
  /-- Inputs from outside, saved to be re-injected. -/
  extInputs : List (Sym × NodeId × List TensorRef)
  extNames : List Sym

namespace LoopState

def new (maxIters : ℕ) : LoopState := ⟨maxIters, 0, false, false, 0, [], [], [], []⟩

def resetMetadata (l : LoopState) : LoopState :=
  { l with extInputs := [], extNames := [], currIter := 0, finishSignal := false, done := false }

end LoopState

/-- An edge the walk routed outward. -/
structure RoutedEdge where
  name : Sym
  dest : Dest
  destSym : Sym
  persist : Bool
  newToken : Bool
  streaming : Bool
  modality : Sym
  tensors : List TensorRef
  /-- A saved external input being re-injected. -/
  persistForLoop : Bool
  deriving DecidableEq

def routed (e : EdgeSpec) (tensors : List TensorRef) : RoutedEdge :=
  ⟨e.name, e.dest, e.destSym, e.persist, e.newToken, e.streaming, e.modality, tensors, false⟩

/-- What a completion hands back. -/
structure Completed where
  edges : List RoutedEdge
  /-- Uuids to dereference. -/
  freed : List ℕ
  /-- Uuids to increment, before `freed` is applied. -/
  taken : List ℕ
  /-- Holds of finished loops, to exchange for routed readers after the fanout. -/
  transferred : List ℕ

/-- A node a speculation made ready. -/
structure SpecNode where
  node : NodeId
  isNewLoopIter : Bool
  loopId : Option LoopId

/-- The walk of one request through one worker graph. -/
structure RequestState where
  nodes : NodeId → NodeState
  loops : LoopId → LoopState
  ready : Finset NodeId
  readyStreaming : Finset NodeId
  rootCompleted : ℕ
  isDone : Bool
  /-- The passes done, a `u32` that wraps around. -/
  numTimesRun : ℕ
  specDirty : List NodeId
  /-- References the completion under way takes, releases and hands on. -/
  refsTaken : List ℕ
  refsReleased : List ℕ
  refsTransferred : List ℕ

/-- The uuids of some tensors. -/
def uuids (ts : List TensorRef) : List ℕ := ts.map TensorRef.uuid

/-- The uuids of a loop's cache. -/
def cacheUuids (cache : List (Sym × List TensorRef)) : List ℕ := cache.flatMap fun c => uuids c.2

namespace RequestState

section Updates

/-- A node's state replaced. -/
def setNode (s : RequestState) (n : NodeId) (st : NodeState) : RequestState :=
  { s with nodes := Function.update s.nodes n st }

/-- A loop's state replaced. -/
def setLoop (s : RequestState) (l : LoopId) (st : LoopState) : RequestState :=
  { s with loops := Function.update s.loops l st }

/-- The loop set. -/
@[simp] theorem setLoop_loops_self (s : RequestState) (l : LoopId) (st : LoopState) :
    (s.setLoop l st).loops l = st := Function.update_self _ _ _

/-- And the others. -/
theorem setLoop_loops_of_ne (s : RequestState) {l d : LoopId} (h : d ≠ l) (st : LoopState) :
    (s.setLoop l st).loops d = s.loops d := Function.update_of_ne h _ _

/-- References released. -/
def release (s : RequestState) (us : List ℕ) : RequestState :=
  { s with refsReleased := s.refsReleased ++ us }

/-- References taken. -/
def take (s : RequestState) (us : List ℕ) : RequestState :=
  { s with refsTaken := s.refsTaken ++ us }

/-- References handed on. -/
def transfer (s : RequestState) (us : List ℕ) : RequestState :=
  { s with refsTransferred := s.refsTransferred ++ us }

end Updates

variable (g : CompiledGraph)

/-- Nodes whose inputs are all streaming start ready for streaming. -/
def seeded : Finset NodeId :=
  (Finset.range g.nodes.length).filter fun n => (g.node n).onlyStreaming = true

def new : RequestState where
  nodes := fun _ => .new
  loops := fun l => .new (g.lp l).maxIters
  ready := ∅
  readyStreaming := seeded g
  rootCompleted := 0
  isDone := false
  numTimesRun := 0
  specDirty := []
  refsTaken := []
  refsReleased := []
  refsTransferred := []

/-- `refresh_ready`. Being in flight stops a node from becoming ready, and
never withdraws one that is. -/
def refreshReady (s : RequestState) (n : NodeId) : RequestState :=
  let st := s.nodes n
  { s with ready :=
      if st.cur.mask = (g.node n).fullMask ∧ st.completed = false then
        if st.inFlight then s.ready else insert n s.ready
      else s.ready.erase n }

/-- `note_ingested_for_streaming`: only streaming inputs are missing. -/
def noteIngestedForStreaming (s : RequestState) (n : NodeId) : RequestState :=
  let st := s.nodes n
  { s with readyStreaming :=
      if st.cur.mask = (g.node n).fullMask then s.readyStreaming.erase n
      else if ((g.node n).fullMask \ st.cur.mask) \ (g.node n).streamingMask = ∅ ∧
        st.inFlight = false then insert n s.readyStreaming
      else s.readyStreaming }

/-- `reseed_streaming_ready`, for a node whose inputs were just cleared. -/
def reseedStreamingReady (s : RequestState) (n : NodeId) : RequestState :=
  { s with readyStreaming :=
      if (g.node n).onlyStreaming then insert n s.readyStreaming else s.readyStreaming.erase n }

/-- One loop saves an input, if it is fed from outside and not saved yet. -/
def recordAt (node : NodeId) (name : Sym) (t : List TensorRef) (s : RequestState) (l : LoopId) :
    RequestState :=
  let st := s.loops l
  if (name, node) ∈ (g.lp l).externalInputs ∧ name ∉ st.extNames then
    s.setLoop l { st with
      extNames := st.extNames ++ [name]
      extInputs := st.extInputs ++ [(name, node, t)] }
  else s

/-- `record_external`, at every loop around the node. -/
def recordExternal (s : RequestState) (node : NodeId) (name : Sym) (t : List TensorRef) :
    RequestState :=
  match (g.node node).slotOf name with
  | some i =>
    if i ∈ (g.node node).streamingMask then s
    else (g.enclosing node).foldl (recordAt g node name t) s
  | none => (g.enclosing node).foldl (recordAt g node name t) s

/-- Where an ingested input lands: the current slot, else the next one, else
nowhere. -/
def land (st : NodeState) (slot : ℕ) (t : List TensorRef) (canBuffer finalChunk : Bool) :
    Option NodeState :=
  if st.cur.has slot = false then some { st with cur := st.cur.set slot t finalChunk }
  else if canBuffer = true ∧ st.next.has slot = false then
    some { st with next := st.next.set slot t finalChunk }
  else none

/-- `ingest`, at a slot the caller looked up. `none` when the edge is
rejected. -/
def ingest (s : RequestState) (node : NodeId) (slot : ℕ) (t : List TensorRef)
    (canBuffer finalChunk : Bool) : Option RequestState :=
  match land (s.nodes node) slot t canBuffer finalChunk with
  | none => none
  | some st =>
    let name := (g.node node).inputs.getD slot 0
    let s := (s.setNode node st).recordExternal g node name t
    some ((s.refreshReady g node).noteIngestedForStreaming g node)

def takeForSchedule (s : RequestState) (n : NodeId) : RequestState :=
  { s with ready := s.ready.erase n }

def pushBack (s : RequestState) (n : NodeId) : RequestState :=
  { s with ready := insert n s.ready }

def setInFlight (s : RequestState) (n : NodeId) (on : Bool) : RequestState :=
  s.setNode n { s.nodes n with inFlight := on }

/-- The uuids a slot owns, those of held inputs left out. -/
def slotUuids (n : NodeId) (slot : Slot) : List ℕ :=
  (List.range (g.node n).inputs.length).flatMap fun i =>
    if i ∈ g.heldMask n then [] else uuids ((slot.tensors i).getD [])

/-- `release_slot`, of the current or of the next slot. -/
def releaseSlot (s : RequestState) (n : NodeId) (next : Bool) : RequestState :=
  s.release (slotUuids g n (if next then (s.nodes n).next else (s.nodes n).cur))

/-- `clear_consumed_inputs`: the inputs the just-executed node consumed, and
their uuids. -/
def clearConsumedInputs (s : RequestState) (n : NodeId) : List ℕ × RequestState :=
  let st := s.nodes n
  (slotUuids g n st.cur,
    (s.setNode n { st with cur := st.cur.takeAll (g.ownMask n) }).refreshReady g n)

/-- A member node goes on to the next iteration. -/
def resetMember (s : RequestState) (n : NodeId) : RequestState :=
  let s := s.releaseSlot g n false
  let st := s.nodes n
  let s := s.setNode n { st with cur := st.next, next := st.cur.clear, completed := false }
  (s.refreshReady g n).reseedStreamingReady g n

/-- `reset_subtree_for_iter`. -/
def resetSubtreeForIter : ℕ → LoopId → RequestState → RequestState
  | 0, _, s => s
  | k + 1, l, s =>
    (g.childLoops l).foldl (fun s c =>
      let s := resetSubtreeForIter k c s
      s.setLoop c { (s.loops c).resetMetadata with completedEntities := 0 })
    ((g.lp l).memberNodes.foldl (resetMember g) s)

/-- A member node of a loop that is over. -/
def clearMember (s : RequestState) (n : NodeId) : RequestState :=
  let s := (s.releaseSlot g n false).releaseSlot g n true
  ((s.setNode n .new).refreshReady g n).reseedStreamingReady g n

/-- A child loop of a loop that is over. Its accumulated outputs are
released and its regular ones dropped as they are. -/
def clearChild (s : RequestState) (c : LoopId) : RequestState :=
  let st := s.loops c
  (s.release (cacheUuids st.accum)).setLoop c
    { st.resetMetadata with completedEntities := 0, accum := [], cached := [] }

/-- `clear_subtree`. -/
def clearSubtree : ℕ → LoopId → RequestState → RequestState
  | 0, _, s => s
  | k + 1, l, s =>
    (g.childLoops l).foldl (fun s c => (clearSubtree k c s).clearChild c)
      ((g.lp l).memberNodes.foldl (clearMember g) s)

/-- A cache with some tensors added to the entry of a name. -/
def extendCache (name : Sym) (t : List TensorRef) :
    List (Sym × List TensorRef) → List (Sym × List TensorRef)
  | [] => [(name, t)]
  | c :: cache => if c.1 = name then (c.1, c.2 ++ t) :: cache else c :: extendCache name t cache

/-- One edge is cached, if it is an output of the loop. -/
def cacheOutput (l : LoopId) (s : RequestState) (e : RoutedEdge) : RequestState :=
  let st := s.loops l
  if e.name ∈ (g.lp l).outputNames then
    (s.setLoop l { st with cached := extendCache e.name e.tensors st.cached }).take
      (uuids e.tensors)
  else if e.name ∈ (g.lp l).accumNames then
    (s.setLoop l { st with accum := extendCache e.name e.tensors st.accum }).take
      (uuids e.tensors)
  else s

/-- The first edge of every name. -/
def firstOfName : List Sym → List RoutedEdge → List RoutedEdge
  | _, [] => []
  | seen, e :: es =>
    if e.name ∈ seen then firstOfName seen es else e :: firstOfName (seen ++ [e.name]) es

/-- `cache_outputs`. -/
def cacheOutputs (s : RequestState) (l : LoopId) (edges : List RoutedEdge) : RequestState :=
  (firstOfName [] edges).foldl (cacheOutput g l) s

/-- `root_entity_done`. -/
def rootEntityDone (s : RequestState) : RequestState :=
  if s.isDone then s
  else { s with
    rootCompleted := s.rootCompleted + 1
    isDone := s.rootCompleted + 1 == g.nRootEntities }

/-- The tensors a cache has under a name. -/
def cachedUnder (cache : List (Sym × List TensorRef)) (name : Sym) : List TensorRef :=
  ((cache.find? (·.1 == name)).map Prod.snd).getD []

/-- The edges a finished loop puts out. -/
def loopOutputs (l : LoopId) (st : LoopState) : List RoutedEdge :=
  (g.lp l).outputs.map (fun o => routed o (cachedUnder st.cached o.name)) ++
    (g.lp l).accumulated.map (fun o => routed o (cachedUnder st.accum o.name))

/-- The edges that are left when a loop is over: nothing re-enters it. -/
def dropLoopBack (l : LoopId) (out : List RoutedEdge) : List RoutedEdge :=
  out.filter fun e => (e.name, e.destSym) ∉ (g.lp l).loopBack

/-- The caches of a finished loop handed on to its edges. -/
def handOn (s : RequestState) (l : LoopId) : RequestState :=
  let st := s.loops l
  (s.setLoop l { st with cached := [], accum := [] }).transfer
    (cacheUuids st.cached ++ cacheUuids st.accum)

/-- `finish_loop` up to its cascade: the state and the loop's own edges. -/
def finishLoop (s : RequestState) (l : LoopId) : RequestState × List RoutedEdge :=
  let s := s.setLoop l { s.loops l with done := true }
  let s := clearSubtree g g.loops.length l s
  (s.handOn l, loopOutputs g l (s.loops l))

/-- The edge that re-injects a saved input. -/
def reinject (x : Sym × NodeId × List TensorRef) : RoutedEdge :=
  ⟨x.1, .localNode x.2.1, (g.node x.2.1).name, false, false, false, 0, x.2.2, true⟩

/-- A loop's cache of the iteration that is over is dropped and released. -/
def uncache (s : RequestState) (l : LoopId) : RequestState :=
  (s.setLoop l { s.loops l with cached := [] }).release (cacheUuids (s.loops l).cached)

/-- `advance_loop`: the state and the re-injecting edges. -/
def advanceLoop (s : RequestState) (l : LoopId) (stride : ℕ) : RequestState × List RoutedEdge :=
  let s := s.setLoop l { s.loops l with currIter := saturatingAdd (s.loops l).currIter stride }
  let s := resetSubtreeForIter g g.loops.length l s
  (s.uncache l, (s.loops l).extInputs.map (reinject g))

/-- Whether a loop whose iteration is complete is over. -/
def finishing (st : LoopState) (stride : ℕ) : Bool :=
  st.finishSignal || st.maxIters ≤ saturatingAdd st.currIter stride

/-- `entity_completed` with `finish_loop`'s cascade. `own` are the outputs of
the node or loop that finished and `out` the edges before them. -/
def entityCompleted : ℕ → LoopId → List RoutedEdge → List RoutedEdge → ℕ → RequestState →
    RequestState × List RoutedEdge
  | 0, _, out, own, _, s => (s, out ++ own)
  | k + 1, l, out, own, stride, s =>
    let s := s.cacheOutputs g l own
    let st := s.loops l
    if st.completedEntities + 1 < g.nEntities l then
      (s.setLoop l { st with completedEntities := st.completedEntities + 1 }, out ++ own)
    else
      let s := s.setLoop l { st with completedEntities := 0 }
      if finishing st stride then
        let out := dropLoopBack g l (out ++ own)
        let (s, ownNow) := s.finishLoop g l
        match (g.lp l).parent with
        | none => (s.rootEntityDone g, out ++ ownNow)
        | some p => entityCompleted k p out ownNow 1 s
      else
        let (s, again) := s.advanceLoop g l stride
        (s, out ++ own ++ again)

/-- A completed node. A top-level one frees its inputs at once; a loop's
member keeps them until the loop advances, so that what loops back lands in
the next slot. -/
def markCompleted (s : RequestState) (n : NodeId) : List ℕ × RequestState :=
  let st := s.nodes n
  match g.loopId n with
  | none =>
    let s := s.setNode n { st with completed := true, cur := st.cur.clear }
    ((List.range (g.node n).inputs.length).flatMap fun i => uuids ((st.cur.tensors i).getD []),
      (s.refreshReady g n).reseedStreamingReady g n)
  | some _ => ([], (s.setNode n { st with completed := true }).refreshReady g n)

/-- The output edges of a node with the tensors it produced for them. -/
def nodeOutputs (n : NodeId) (outTensors : List (List TensorRef)) : List RoutedEdge :=
  (g.node n).outputs.mapIdx fun i e => routed e (outTensors.getD i [])

/-- The cascade of a completed node. -/
def cascade (s : RequestState) (n : NodeId) (own : List RoutedEdge) (stride : ℕ) :
    RequestState × List RoutedEdge :=
  match g.loopId n with
  | none => (s.rootEntityDone g, own)
  | some l => entityCompleted g g.loops.length l [] own stride s

/-- `complete_strided`. -/
def completeStrided (s : RequestState) (n : NodeId) (outTensors : List (List TensorRef))
    (stride : ℕ) : Completed × RequestState :=
  let prevDone := s.isDone
  let (freed, s) := s.markCompleted g n
  let (s, edges) := s.cascade g n (nodeOutputs g n outTensors) stride
  let s := if s.isDone && !prevDone then { s with numTimesRun := (s.numTimesRun + 1) % 2 ^ 32 }
    else s
  (⟨edges, freed ++ s.refsReleased, s.refsTaken, s.refsTransferred⟩,
    { s with refsTaken := [], refsReleased := [], refsTransferred := [] })

/-- `complete`. -/
def complete (s : RequestState) (n : NodeId) (outTensors : List (List TensorRef)) :
    Completed × RequestState := s.completeStrided g n outTensors 1

def registerLoopFinish (s : RequestState) (l : LoopId) : RequestState :=
  s.setLoop l { s.loops l with finishSignal := true }

def capLoop (s : RequestState) (l : LoopId) (cap : ℕ) : RequestState :=
  s.setLoop l { s.loops l with maxIters := min (s.loops l).maxIters cap }

def setLoopCap (s : RequestState) (l : LoopId) (cap : ℕ) : RequestState :=
  s.setLoop l { s.loops l with maxIters := cap }

/-- `ready_for_speculation`. -/
def readyForSpeculation (s : RequestState) (n : NodeId) (checkNextIter allowStreaming : Bool) :
    Bool :=
  let st := s.nodes n
  let needed := if allowStreaming then (g.node n).fullMask \ (g.node n).streamingMask
    else (g.node n).fullMask
  let got := (if checkNextIter then st.next.mask else st.cur.mask) ∪ st.spec.mask
  let got := if checkNextIter then got ∪ (st.cur.mask ∩ g.heldMask n) else got
  needed \ got = ∅

/-- An anticipated edge put in its destination's speculative slot. -/
def speculate (s : RequestState) (e : RoutedEdge) : RequestState :=
  match e.dest with
  | .localNode d => match (g.node d).slotOf e.name with
    | some slot =>
      let st := s.nodes d
      { s.setNode d { st with spec := st.spec.set slot e.tensors false } with
        specDirty := if d ∈ s.specDirty then s.specDirty else s.specDirty ++ [d] }
    | none => s
  | _ => s

/-- The node an anticipated edge goes to, if the node reads it. -/
def speculated (e : RoutedEdge) : Option NodeId :=
  match e.dest with
  | .localNode d => if ((g.node d).slotOf e.name).isSome then some d else none
  | _ => none

/-- `ingest_for_speculation`. -/
def ingestForSpeculation (s : RequestState) (source : NodeId) (edges : List RoutedEdge) :
    List SpecNode × RequestState :=
  let s := edges.foldl (speculate g) s
  let loopsBack (e : RoutedEdge) : Bool := match g.loopId source with
    | some l => (e.name, e.destSym) ∈ (g.lp l).loopBack
    | none => false
  let nextIter := (edges.filter loopsBack).filterMap (speculated g)
  let dests := (edges.filterMap (speculated g)).eraseDups
  ((dests.filter fun d => s.readyForSpeculation g d (d == source) true).map
    fun d => ⟨d, d ∈ nextIter, g.loopId d⟩, s)

def clearSpeculativeInputs (s : RequestState) : RequestState :=
  { s.specDirty.foldl (fun s n => s.setNode n { s.nodes n with spec := .new }) s with
    specDirty := [] }

/-- `reset`, the end of a full forward pass. -/
def reset (s : RequestState) : RequestState where
  nodes := fun _ => .new
  loops := fun l => .new (s.loops l).maxIters
  ready := ∅
  readyStreaming := seeded g
  rootCompleted := 0
  isDone := false
  numTimesRun := s.numTimesRun
  specDirty := []
  refsTaken := s.refsTaken
  refsReleased := s.refsReleased
  refsTransferred := s.refsTransferred

section Depth

variable {g}

/-- Resetting a loop's body goes all the way down. -/
theorem resetSubtreeForIter_eq {l : LoopId} (hl : l < g.loops.length) (s : RequestState) :
    resetSubtreeForIter g g.loops.length l s =
      (g.childLoops l).foldl (fun s c =>
        let s := resetSubtreeForIter g g.loops.length c s
        s.setLoop c { (s.loops c).resetMetadata with completedEntities := 0 })
      ((g.lp l).memberNodes.foldl (resetMember g) s) := by
  obtain ⟨height, hlt, hup⟩ := g.nested
  have hdeep : ∀ k k' l s, height l < k → height l < k' →
      resetSubtreeForIter g k l s = resetSubtreeForIter g k' l s := by
    intro k
    induction k with
    | zero => intro _ _ _ h; omega
    | succ k ih =>
      intro k' l s h h'
      obtain ⟨k', rfl⟩ : ∃ j, k' = j + 1 := ⟨k' - 1, by omega⟩
      refine List.foldl_ext _ _ _ fun s c hc => ?_
      have := hup c l (mem_childLoops.1 hc).2
      dsimp only
      rw [ih k' c s (by omega) (by omega)]
  have hheight := (hlt l).resolve_right (Nat.not_le.2 hl)
  exact hdeep _ (g.loops.length + 1) l s hheight (by omega)

/-- Clearing a loop's body goes all the way down. -/
theorem clearSubtree_eq {l : LoopId} (hl : l < g.loops.length) (s : RequestState) :
    clearSubtree g g.loops.length l s =
      (g.childLoops l).foldl (fun s c => (clearSubtree g g.loops.length c s).clearChild c)
        ((g.lp l).memberNodes.foldl (clearMember g) s) := by
  obtain ⟨height, hlt, hup⟩ := g.nested
  have hdeep : ∀ k k' l s, height l < k → height l < k' →
      clearSubtree g k l s = clearSubtree g k' l s := by
    intro k
    induction k with
    | zero => intro _ _ _ h; omega
    | succ k ih =>
      intro k' l s h h'
      obtain ⟨k', rfl⟩ : ∃ j, k' = j + 1 := ⟨k' - 1, by omega⟩
      refine List.foldl_ext _ _ _ fun s c hc => ?_
      have := hup c l (mem_childLoops.1 hc).2
      rw [ih k' c s (by omega) (by omega)]
  have hheight := (hlt l).resolve_right (Nat.not_le.2 hl)
  exact hdeep _ (g.loops.length + 1) l s hheight (by omega)

/-- A cascade goes all the way up. -/
theorem entityCompleted_eq {l : LoopId} (hl : l < g.loops.length) (out own : List RoutedEdge)
    (stride : ℕ) (s : RequestState) :
    entityCompleted g g.loops.length l out own stride s =
      let s := s.cacheOutputs g l own
      let st := s.loops l
      if st.completedEntities + 1 < g.nEntities l then
        (s.setLoop l { st with completedEntities := st.completedEntities + 1 }, out ++ own)
      else
        let s := s.setLoop l { st with completedEntities := 0 }
        if finishing st stride then
          let out := dropLoopBack g l (out ++ own)
          let (s, ownNow) := s.finishLoop g l
          match (g.lp l).parent with
          | none => (s.rootEntityDone g, out ++ ownNow)
          | some p => entityCompleted g g.loops.length p out ownNow 1 s
        else
          let (s, again) := s.advanceLoop g l stride
          (s, out ++ own ++ again) := by
  obtain ⟨height, hlt, hup⟩ := g.nested
  have hdeep : ∀ k k' l out own stride s, l < g.loops.length → g.loops.length ≤ height l + k →
      g.loops.length ≤ height l + k' →
      entityCompleted g k l out own stride s = entityCompleted g k' l out own stride s := by
    intro k
    induction k with
    | zero =>
      intro _ l _ _ _ _ hl h
      have := (hlt l).resolve_right (Nat.not_le.2 hl)
      omega
    | succ k ih =>
      intro k' l out own stride s hl h h'
      have hheight := (hlt l).resolve_right (Nat.not_le.2 hl)
      obtain ⟨k', rfl⟩ : ∃ j, k' = j + 1 := ⟨k' - 1, by omega⟩
      unfold entityCompleted
      cases hp : (g.lp l).parent with
      | none => rfl
      | some p =>
        have := hup l p hp
        have hmem := parent_lt_length hp
        dsimp only
        rw [ih k' p _ _ _ _ hmem (by omega) (by omega)]
  exact hdeep _ (g.loops.length + 1) l out own stride s hl (by omega) (by omega)

end Depth

end RequestState

end Mstar.Walk
