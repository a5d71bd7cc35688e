import Mstar.ChunkPolicies

/-!
# Stream buffers

The buffer of one stream at its consumer. Items are registered in the producer's order
and arrive in any; a chunk is cut where a walk ends, where the stream ends, or by the
policy's window. What a pop does is stated once for the three ways to cut.
-/

namespace Mstar

/-- What is registered as one item: a tensor, or the pieces that are joined into one. -/
inductive StreamEntry (Id : Type) where
  /-- A tensor that is an item. -/
  | single (id : Id)
  /-- The pieces of one item, in order. -/
  | joined (ids : List Id)

/-- A chunk's place in its stream, without its data. -/
structure StreamChunkInfo where
  /-- Global position of the chunk's first item. -/
  startOffset : ℕ
  /-- Leading items that an earlier chunk handed out. -/
  contextItems : ℕ
  /-- Items in the chunk, context included. -/
  numItems : ℕ
  /-- Whether the stream ends with the chunk. -/
  isFinal : Bool

/-- A chunk popped from a buffer. -/
structure StreamChunk (Item : Type) extends StreamChunkInfo where
  /-- The chunk's items. -/
  data : List Item
  /-- How many chunks were popped before it. -/
  chunkIndex : ℕ
  /-- The items that the pop took out of the buffer for good. -/
  released : List Item

/-- A popped chunk as an input edge into its consumer. -/
structure StreamingEdge (Item : Type) where
  /-- The handles of the chunk's items. -/
  uuids : List Item
  /-- The chunk's place in its stream. -/
  chunk : StreamChunkInfo

/-- The buffer of one stream at its consumer. -/
structure StreamBuffer (Id Walk Item : Type) where
  /-- When a chunk is ready. -/
  policy : ChunkPolicy Walk
  /-- The policy's own bookkeeping. -/
  policyState : PolicyState
  /-- The dim to join a chunked producer's pieces on; none keeps them separate. -/
  joinDim : Option ℕ
  /-- Whether items carry the walk they are for. -/
  walkTagged : Bool
  /-- Edges that a step refused. -/
  waitingGraphEdges : List (StreamingEdge Item)
  /-- Items that arrived in order and were not released. -/
  buffer : List Item
  /-- The walks of the buffered items, as runs. -/
  walkRuns : List (Walk × ℕ)
  /-- Entries that were registered and not buffered yet. -/
  tensorIdsInOrder : List (StreamEntry Id × Walk)
  /-- Items that arrived and were not buffered yet. -/
  idToTensor : Id → Option Item
  /-- Items released. -/
  consumed : ℕ
  /-- Chunks popped. -/
  chunksPopped : ℕ
  /-- Position past the last item that was ever handed out. -/
  deliveredEnd : ℕ
  /-- The producer sends nothing more. -/
  producerDone : Bool
  /-- A final chunk was popped. -/
  finalChunkEmitted : Bool
  /-- Tensors registered, pieces counted one by one. -/
  numTensorsRegistered : ℕ
  /-- Tensors buffered, pieces counted one by one. -/
  numBufferWrites : ℕ
  /-- Tensors that the producer says it sent. -/
  numItemsExpected : ℕ

namespace StreamEntry

variable {Id Item : Type}

/-- The tensors of an entry. -/
def ids : StreamEntry Id → List Id
  | single id => [id]
  | joined ids => ids

/-- One item from the pieces. A piece that is alone is the item. -/
def joinPieces (join : List Item → Item) : List Item → Item
  | [piece] => piece
  | pieces => join pieces

/-- The entry's item, once everything of it arrived. -/
def item (join : List Item → Item) (arrived : Id → Option Item) : StreamEntry Id → Option Item
  | single id => arrived id
  | joined ids => (ids.mapM arrived).map (joinPieces join)

/-- Looking up a list only asks for its own elements. -/
theorem mapM_congr {arrived arrived' : Id → Option Item} {ids : List Id}
    (h : ∀ id ∈ ids, arrived' id = arrived id) : ids.mapM arrived' = ids.mapM arrived := by
  induction ids with
  | nil => rfl
  | cons id rest ih =>
    rw [List.mapM_cons, List.mapM_cons, h id List.mem_cons_self,
      ih fun other hmem => h other (List.mem_cons_of_mem _ hmem)]

/-- An entry's item is made of what arrived for its own tensors. -/
theorem item_congr (join : List Item → Item) (arrived arrived' : Id → Option Item)
    (entry : StreamEntry Id) (h : ∀ id ∈ entry.ids, arrived' id = arrived id) :
    entry.item join arrived' = entry.item join arrived := by
  cases entry with
  | single id => exact h id (List.mem_singleton_self id)
  | joined ids =>
    unfold item
    dsimp only
    exact congrArg _ (mapM_congr h)

end StreamEntry

namespace StreamBuffer

section Runs

variable {Walk : Type} {runs : List (Walk × ℕ)} {stride : ℕ}

/-- The walks that runs stand for. -/
def spread (runs : List (Walk × ℕ)) : List Walk :=
  runs.flatMap fun run => List.replicate run.2 run.1

/-- An item is added to the last run, or starts one. -/
def extendRuns [DecidableEq Walk] (walk : Walk) : List (Walk × ℕ) → List (Walk × ℕ)
  | [] => [(walk, 1)]
  | [(last, count)] => if last = walk then [(last, count + 1)] else [(last, count), (walk, 1)]
  | run :: next :: rest => run :: extendRuns walk (next :: rest)

/-- A stride is taken off the first run, which goes when it is used up. -/
def advanceRuns (stride : ℕ) : List (Walk × ℕ) → List (Walk × ℕ)
  | [] => []
  | (walk, count) :: rest =>
      if stride = 0 then (walk, count) :: rest
      else if count - stride = 0 then rest
      else (walk, count - stride) :: rest

/-- No run is empty. -/
def Positive (runs : List (Walk × ℕ)) : Prop := ∀ run ∈ runs, 0 < run.2

/-- No runs. -/
@[simp] theorem spread_nil : spread ([] : List (Walk × ℕ)) = [] := rfl

/-- One more run, item by item. -/
@[simp] theorem spread_cons (run : Walk × ℕ) :
    spread (run :: runs) = List.replicate run.2 run.1 ++ spread runs := rfl

/-- Adding an item adds its walk at the end. -/
theorem spread_extendRuns [DecidableEq Walk] (walk : Walk) (runs : List (Walk × ℕ)) :
    spread (extendRuns walk runs) = spread runs ++ [walk] := by
  induction runs using extendRuns.induct walk with
  | case1 => simp [extendRuns]
  | case2 count => simp [extendRuns, List.replicate_succ']
  | case3 last count hne => simp [extendRuns, hne]
  | case4 run next rest ih =>
    change spread (run :: extendRuns walk (next :: rest)) = _
    rw [spread_cons, ih, ← List.append_assoc, ← spread_cons]

/-- Adding an item leaves no run empty. -/
theorem positive_extendRuns [DecidableEq Walk] (walk : Walk) (runs : List (Walk × ℕ))
    (h : Positive runs) : Positive (extendRuns walk runs) := by
  induction runs using extendRuns.induct walk with
  | case1 => simp [extendRuns, Positive]
  | case2 count => simp [extendRuns, Positive]
  | case3 last count hne =>
    have hcount : 0 < count := h (last, count) (List.mem_singleton_self _)
    simp [extendRuns, hne, Positive, hcount]
  | case4 run next rest ih =>
    intro other hother
    unfold extendRuns at hother
    rcases List.mem_cons.1 hother with heq | hmem
    · exact heq ▸ h run List.mem_cons_self
    · exact ih (fun other hmem => h other (List.mem_cons_of_mem _ hmem)) other hmem

/-- A stride within the first run takes as many walks off the front. -/
theorem spread_advanceRuns {walk : Walk} {count : ℕ} (h : stride ≤ count) :
    spread (advanceRuns stride ((walk, count) :: runs)) =
      (spread ((walk, count) :: runs)).drop stride := by
  have hdrop : (spread ((walk, count) :: runs)).drop stride =
      List.replicate (count - stride) walk ++ spread runs := by
    rw [spread_cons, List.drop_append_of_le_length (by simpa using h), List.drop_replicate]
  rw [hdrop]
  dsimp only [advanceRuns]
  split
  next hzero => simp [hzero]
  next =>
    split
    next hused => simp [hused]
    next => rfl

/-- A stride leaves no run empty. -/
theorem positive_advanceRuns (h : Positive runs) : Positive (advanceRuns stride runs) := by
  cases runs with
  | nil => exact h
  | cons run rest =>
    obtain ⟨walk, count⟩ := run
    have hrest : Positive rest := fun other hmem => h other (List.mem_cons_of_mem _ hmem)
    dsimp only [advanceRuns]
    split
    next => exact h
    next =>
      split
      next => exact hrest
      next hleft =>
        intro other hother
        rcases List.mem_cons.1 hother with heq | hmem
        · subst heq
          exact Nat.pos_of_ne_zero hleft
        · exact hrest other hmem

end Runs

variable {Id Walk Item : Type} {b : StreamBuffer Id Walk Item}

/-- A new buffer. -/
def new (policy : ChunkPolicy Walk) (joinDim : Option ℕ) (walkTagged : Bool) :
    StreamBuffer Id Walk Item where
  policy := policy
  policyState := PolicyState.fresh
  joinDim := joinDim
  walkTagged := walkTagged
  waitingGraphEdges := []
  buffer := []
  walkRuns := []
  tensorIdsInOrder := []
  idToTensor := fun _ => none
  consumed := 0
  chunksPopped := 0
  deliveredEnd := 0
  producerDone := false
  finalChunkEmitted := false
  numTensorsRegistered := 0
  numBufferWrites := 0
  numItemsExpected := 0

/-- The first items are context only; none where the policy raises. -/
def primeContext (b : StreamBuffer Id Walk Item) (lead : ℕ) : Option (StreamBuffer Id Walk Item) :=
  (b.policy.prime b.policyState lead).map fun state =>
    { b with policyState := state, deliveredEnd := lead }

/-- Register an entry, each of its tensors counted. -/
def enter (b : StreamBuffer Id Walk Item) (entry : StreamEntry Id) (walk : Walk) :
    StreamBuffer Id Walk Item :=
  { b with
    numTensorsRegistered := b.numTensorsRegistered + entry.ids.length
    tensorIdsInOrder := b.tensorIdsInOrder ++ [(entry, walk)] }

/-- Register a tensor as an item. -/
def preReadRegister (b : StreamBuffer Id Walk Item) (id : Id) (walk : Walk) :
    StreamBuffer Id Walk Item :=
  b.enter (.single id) walk

/-- Register tensors as the pieces of one item, or one by one where the buffer joins none. -/
def preReadRegisterJoined (b : StreamBuffer Id Walk Item) (ids : List Id) (walk : Walk) :
    StreamBuffer Id Walk Item :=
  if ids.length = 1 ∨ b.joinDim = none then ids.foldl (fun b id => b.preReadRegister id walk) b
  else if ids = [] then b
  else b.enter (.joined ids) walk

/-- The producer sends nothing after these. -/
def signalDone (b : StreamBuffer Id Walk Item) (numItems : ℕ) : StreamBuffer Id Walk Item :=
  { b with producerDone := true, numItemsExpected := numItems }

/-- The producer is done, and all it counted is registered and buffered. -/
def producerDoneAndAllRead (b : StreamBuffer Id Walk Item) : Bool :=
  b.producerDone && decide (b.numItemsExpected ≤ b.numTensorsRegistered) &&
    decide (b.numTensorsRegistered ≤ b.numBufferWrites)

/-- Leading items of the same walk as the first. -/
def walkRunLen (b : StreamBuffer Id Walk Item) : ℕ :=
  match b.walkRuns with
  | [] => b.buffer.length
  | run :: _ => run.2

/-- A refused edge comes back. -/
def storeUningestedEdge (b : StreamBuffer Id Walk Item) (edge : StreamingEdge Item) :
    StreamBuffer Id Walk Item :=
  { b with waitingGraphEdges := b.waitingGraphEdges ++ [edge] }

/-- Whether the next chunk is the rest of a walk, of fewer items than the policy asks. -/
def flushesRun (b : StreamBuffer Id Walk Item) : Option Bool :=
  if b.walkRunLen < b.buffer.length then (b.policy.isReady b.policyState b.walkRunLen).map (!·)
  else some false

/-- Whether it is the rest of the stream, of fewer items than the policy asks. -/
def flushesEnd (b : StreamBuffer Id Walk Item) : Option Bool :=
  if b.producerDoneAndAllRead then (b.policy.isReady b.policyState b.buffer.length).map (!·)
  else some false

/-- How many items the next chunk shows, and how many of them it releases. -/
def cut (b : StreamBuffer Id Walk Item) (window : ℕ) : Option (ℕ × ℕ) := do
  if ← b.flushesRun then
    -- the next items run under another walk
    return (b.walkRunLen, b.walkRunLen)
  else if ← b.flushesEnd then
    -- whatever is left, nothing included
    return (b.buffer.length, b.buffer.length)
  else
    let stride ← b.policy.nextChunkSize b.policyState
    return (window, stride)

/-- The buffer past a stride, with the chunk registered. -/
def advance (b : StreamBuffer Id Walk Item) (stride : ℕ) : StreamBuffer Id Walk Item :=
  { b with
    buffer := b.buffer.drop stride
    consumed := b.consumed + stride
    policyState := b.policy.registerChunk b.policyState
    walkRuns := advanceRuns stride b.walkRuns }

/-- Whether a chunk that leaves the buffer so is the stream's last. -/
def ends (b : StreamBuffer Id Walk Item) : Bool :=
  b.producerDoneAndAllRead && b.buffer.isEmpty && !b.policy.continueAfterProducerDone

/-- The chunk of a cut. -/
def chunkOf (b : StreamBuffer Id Walk Item) (shown stride : ℕ) : StreamChunk Item where
  startOffset := b.consumed
  contextItems := min (b.deliveredEnd - b.consumed) (b.buffer.take shown).length
  numItems := (b.buffer.take shown).length
  isFinal := (b.advance stride).ends
  data := b.buffer.take shown
  chunkIndex := b.chunksPopped
  released := b.buffer.take stride

/-- The buffer after a cut. -/
def afterCut (b : StreamBuffer Id Walk Item) (shown stride : ℕ) : StreamBuffer Id Walk Item :=
  { b.advance stride with
    finalChunkEmitted := b.finalChunkEmitted || (b.advance stride).ends
    deliveredEnd := max b.deliveredEnd (b.consumed + (b.buffer.take shown).length)
    chunksPopped := b.chunksPopped + 1 }

/-- The chunk of what is buffered; none where the policy raises. -/
def takeChunk (b : StreamBuffer Id Walk Item) :
    Option (StreamChunk Item × StreamBuffer Id Walk Item) := do
  let window ← b.policy.windowSize b.policyState
  let (shown, stride) ← b.cut window
  return (b.chunkOf shown stride, b.afterCut shown stride)

/-- A popped chunk as an edge into its consumer. -/
def edgeOf (chunk : StreamChunk Item) : StreamingEdge Item := ⟨chunk.data, chunk.toStreamChunkInfo⟩

section Decidable

variable [DecidableEq Walk]

/-- Whether a chunk of what is buffered can be popped; none where the policy raises. -/
def offers (b : StreamBuffer Id Walk Item) (consumerWalk : Walk) : Option Bool :=
  -- an item of a later walk is buffered, so the leading run is complete
  if b.walkRunLen < b.buffer.length then some true
  else if !b.producerDoneAndAllRead then b.policy.isReady b.policyState b.buffer.length
  else if b.policy.continueAfterProducerDone then
    some (!b.buffer.isEmpty || b.policy.continuesIn consumerWalk)
  else some (!b.buffer.isEmpty || !b.finalChunkEmitted)

variable [DecidableEq Id] (join : List Item → Item)

/-- An item arrives. -/
def put (b : StreamBuffer Id Walk Item) (id : Id) (item : Item) : StreamBuffer Id Walk Item :=
  { b with idToTensor := fun other => if other = id then some item else b.idToTensor other }

/-- An entry's item moves into the buffer. -/
def move (b : StreamBuffer Id Walk Item) (entry : StreamEntry Id) (walk : Walk) (item : Item) :
    StreamBuffer Id Walk Item :=
  { b with
    idToTensor := fun id => if id ∈ entry.ids then none else b.idToTensor id
    buffer := b.buffer ++ [item]
    numBufferWrites := b.numBufferWrites + entry.ids.length
    walkRuns := if b.walkTagged then extendRuns walk b.walkRuns else b.walkRuns }

/-- Move entries in order, up to the first that has not arrived. -/
def moveArrived : List (StreamEntry Id × Walk) → StreamBuffer Id Walk Item →
    StreamBuffer Id Walk Item
  | [], b => { b with tensorIdsInOrder := [] }
  | (entry, walk) :: rest, b =>
      match entry.item join b.idToTensor with
      | none => { b with tensorIdsInOrder := (entry, walk) :: rest }
      | some item => moveArrived rest (b.move entry walk item)

/-- Buffer what arrived in order. -/
def updateBuffer (b : StreamBuffer Id Walk Item) : StreamBuffer Id Walk Item :=
  moveArrived join b.tensorIdsInOrder b

/-- The walk that the next chunk runs under; none when untagged or nothing is buffered. -/
def peekWalk (b : StreamBuffer Id Walk Item) : Option Walk :=
  ((b.updateBuffer join).walkRuns.head?).map Prod.fst

/-- Whether a chunk can be popped, the buffer updated first. -/
def hasChunkReady (b : StreamBuffer Id Walk Item) (consumerWalk : Walk) : Option Bool :=
  (b.updateBuffer join).offers consumerWalk

/-- Pop the next chunk, the buffer updated first. Called where one is ready. -/
def popChunk (b : StreamBuffer Id Walk Item) :
    Option (StreamChunk Item × StreamBuffer Id Walk Item) :=
  (b.updateBuffer join).takeChunk

end Decidable

/-- What popping a chunk of what is buffered does. -/
structure Popped (b : StreamBuffer Id Walk Item) (chunk : StreamChunk Item)
    (b' : StreamBuffer Id Walk Item) (stride : ℕ) : Prop where
  /-- The chunk is what the buffer starts with. -/
  data : chunk.data = b.buffer.take chunk.numItems
  /-- It shows no more than is buffered. -/
  shown_le : chunk.numItems ≤ b.buffer.length
  /-- It stays within the leading run. -/
  shown_run : chunk.numItems ≤ b.walkRunLen
  /-- It releases no more than it shows. -/
  stride_le : stride ≤ chunk.numItems
  start : chunk.startOffset = b.consumed
  context : chunk.contextItems = min (b.deliveredEnd - b.consumed) chunk.numItems
  released : chunk.released = b.buffer.take stride
  index : chunk.chunkIndex = b.chunksPopped
  final : chunk.isFinal = (b.advance stride).ends
  after : b' = b.afterCut chunk.numItems stride

end StreamBuffer

end Mstar
