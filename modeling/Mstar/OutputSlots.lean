import Mathlib.Data.List.Basic
import Mathlib.Data.Int.Basic
import Mathlib.Logic.Function.Basic

/-!
# The data worker's outputs

One thread turns a request's outputs into chunks. An output takes a sequence
number when its read is started, or when an inline token is taken up, and its
chunk is queued behind those of the sequence numbers before it. Reads and
encodes finish in any order; each of them may fail.
-/

namespace Mstar.OutputSlots

/-- What kind of output a chunk carries. -/
inductive Modality
  | videoFrame
  | image
  | video
  | other (name : String)
  /-- A failure reported to the client. -/
  | error
  deriving DecidableEq, Repr

/-- One output of a request: a result tensor, or a token that rode inline. -/
inductive Slot
  | tensor (uuid : ℕ)
  | token (value : ℤ)
  deriving DecidableEq, Repr

/-- What a chunk is the answer to. The program keeps no such field. -/
inductive Answer
  /-- An output that has a sequence number. -/
  | sequenced (slot : Slot)
  /-- A tensor whose read was never started. -/
  | unstarted (slot : Slot)
  /-- No output of the request. -/
  | nothing
  deriving DecidableEq, Repr

/-- A chunk on its way to the client. -/
structure ResultChunk (ρ : Type*) where
  requestId : ρ
  modality : Modality
  /-- `metadata["frame_count"]`. -/
  frameCount : Option ℕ
  /-- `metadata["frame_index"]`. -/
  frameIndex : Option ℕ
  answers : Answer
  deriving DecidableEq, Repr

/-- One request's output ordering. -/
structure RequestOutputState (ρ : Type*) where
  /-- Tensor uuid to its sequence number and whether a loop emitted it. -/
  order : List (ℕ × (ℕ × Bool))
  nextSequence : ℕ
  nextEmit : ℕ
  /-- Completed chunks waiting on an earlier one. -/
  pending : List (ℕ × ResultChunk ρ)
  /-- A chunk can carry several frames, so this advances by their count. -/
  frameIndex : ℕ
  /-- What took each sequence number. The program keeps no such list. -/
  slots : List Slot

/-- No output taken. -/
def RequestOutputState.new {ρ : Type*} : RequestOutputState ρ := ⟨[], 0, 0, [], 0, []⟩

/-- What the thread keeps for one request id. -/
structure Request (ρ : Type*) where
  /-- The state and the object's identity, which tells it from that of an
  earlier request under the id. -/
  output : Option (ℕ × RequestOutputState ρ)
  /-- The tensors with metadata. -/
  metadata : List ℕ
  draining : Bool
  readsDoneSent : Bool
  inFlight : Bool
  live : ℕ

/-- Nothing kept. -/
def Request.none {ρ : Type*} : Request ρ := ⟨.none, [], false, false, false, 0⟩

/-- An output handed to the encode pool. -/
structure EncodeJob (ρ : Type*) where
  uuid : ℕ
  requestId : ρ
  /-- The identity of the request's output state. -/
  state : ℕ
  sequence : ℕ
  modality : Modality
  deriving DecidableEq, Repr

/-- An output encoded on the pool, and whether the encode went through. -/
structure EncodedOutput (ρ : Type*) where
  job : EncodeJob ρ
  ok : Bool
  deriving DecidableEq, Repr

/-- A result edge: its tensors and what they are. -/
structure Edge (ρ : Type*) where
  requestId : ρ
  modality : Modality
  /-- Emitted by a loop of the walk. -/
  looped : Bool
  uuids : List ℕ
  deriving DecidableEq, Repr

/-- The values of one step that rode inline. -/
structure InlineTokens (ρ : Type*) where
  requestIds : List ρ
  values : List ℤ
  modality : Modality
  deriving DecidableEq, Repr

/-- What becomes of one tensor that was read: a failure at any stage before its
chunk is queued, or its bytes, with the frames they hold. -/
inductive Outcome
  | failed
  | encoded (frames : ℕ)
  deriving DecidableEq, Repr

/-- The worker thread. -/
structure Worker (ρ : Type*) where
  requests : ρ → Request ρ
  /-- Jobs the pool has not finished. -/
  encoding : List (EncodeJob ρ)
  /-- Finished encodes to release. -/
  encoded : List (EncodedOutput ρ)
  outQueue : List (ResultChunk ρ)
  /-- The identity of the next output state. -/
  minted : ℕ

variable {ρ : Type*} [DecidableEq ρ]

/-- Whether an output encodes on the pool: an artifact no loop emits. -/
def pooledOutput (modality : Modality) (looped : Bool) : Bool :=
  (modality = .image || modality = .video) && !looped

namespace RequestOutputState

/-- A chunk leaves: a frame chunk takes the next frame's index. A frame chunk
without a count raises. -/
def number (st : RequestOutputState ρ) (ready : ResultChunk ρ) :
    Option (ResultChunk ρ × ℕ) :=
  if ready.modality = .videoFrame then
    match ready.frameCount with
    | some count =>
      some ({ ready with frameIndex := some st.frameIndex }, st.frameIndex + count)
    | none => none
  else some (ready, st.frameIndex)

/-- The loop that puts every chunk whose turn has come; whether it raised. A
chunk that raises is no longer held and has not been put. -/
def emitReady : ℕ → RequestOutputState ρ → RequestOutputState ρ × List (ResultChunk ρ) × Bool
  | 0, st => (st, [], false)
  | fuel + 1, st =>
    match st.pending.lookup st.nextEmit with
    | none => (st, [], false)
    | some ready =>
      let popped := { st with pending := st.pending.eraseP fun e => e.1 = st.nextEmit }
      match st.number ready with
      | none => (popped, [], true)
      | some (chunk, frameIndex) =>
        let rest := emitReady fuel
          { popped with frameIndex := frameIndex, nextEmit := st.nextEmit + 1 }
        (rest.1, chunk :: rest.2.1, rest.2.2)

/-- A chunk queued at its sequence number. -/
def queueCompleted (st : RequestOutputState ρ) (sequence : ℕ) (chunk : ResultChunk ρ) :
    RequestOutputState ρ × List (ResultChunk ρ) × Bool :=
  if sequence ∈ st.pending.map Prod.fst then (st, [], true)
  else emitReady (st.pending.length + 1)
    { st with pending := st.pending ++ [(sequence, chunk)] }

/-- No chunk has been queued for a sequence number yet. -/
def unanswered (st : RequestOutputState ρ) (sequence : ℕ) : Bool :=
  decide (st.nextEmit ≤ sequence) && decide (sequence ∉ st.pending.map Prod.fst)

/-- The next sequence number goes to a tensor. -/
def orderTensor (st : RequestOutputState ρ) (looped : Bool) (uuid : ℕ) :
    RequestOutputState ρ :=
  { st with
    order := (st.order.filter fun e => e.1 ≠ uuid) ++ [(uuid, (st.nextSequence, looped))]
    nextSequence := st.nextSequence + 1
    slots := st.slots ++ [.tensor uuid] }

/-- The next sequence number goes to a token. -/
def orderToken (st : RequestOutputState ρ) (value : ℤ) : RequestOutputState ρ :=
  { st with nextSequence := st.nextSequence + 1, slots := st.slots ++ [.token value] }

/-- A tensor that needs its sequence number no longer. -/
def forget (st : RequestOutputState ρ) (uuid : ℕ) : RequestOutputState ρ :=
  { st with order := st.order.filter fun e => e.1 ≠ uuid }

end RequestOutputState

namespace Worker

/-- One request's part changed. -/
def modify (w : Worker ρ) (rid : ρ) (f : Request ρ → Request ρ) : Worker ρ :=
  { w with requests := Function.update w.requests rid (f (w.requests rid)) }

/-- A request's output state made if it has none. -/
def setdefault (w : Worker ρ) (rid : ρ) : Worker ρ :=
  match (w.requests rid).output with
  | some _ => w
  | none =>
    { w.modify rid fun r => { r with output := some (w.minted, .new) } with
      minted := w.minted + 1 }

/-- The output state of a request that has one, changed. -/
def setState (w : Worker ρ) (rid : ρ)
    (f : RequestOutputState ρ → RequestOutputState ρ) : Worker ρ :=
  w.modify rid fun r => { r with output := r.output.map fun o => (o.1, f o.2) }

/-- A request's output state, or a new one. -/
def stateOf (w : Worker ρ) (rid : ρ) : RequestOutputState ρ :=
  ((w.requests rid).output.map Prod.snd).getD .new

/-- A completed chunk in its request's output order; whether it raised. -/
def queueCompletedOutput (w : Worker ρ) (rid : ρ) (sequence : ℕ) (chunk : ResultChunk ρ) :
    Worker ρ × Bool :=
  let w := w.setdefault rid
  let queued := (w.stateOf rid).queueCompleted sequence chunk
  ({ w.setState rid fun _ => queued.1 with outQueue := w.outQueue ++ queued.2.1 },
    queued.2.2)

/-- Being torn down, or handed back already. -/
def tornDown (w : Worker ρ) (rid : ρ) : Bool :=
  (w.requests rid).draining || (w.requests rid).readsDoneSent || !(w.requests rid).inFlight

/-- The walk of a failed request is stopped, and the thread drains its reads. -/
def abortFailedRequest (w : Worker ρ) (rid : ρ) : Worker ρ :=
  if w.tornDown rid then w
  else if (w.requests rid).live = 0 then w
  else w.modify rid fun r => { r with draining := true }

/-- A chunk that reports a failure. -/
def errorChunk (rid : ρ) (answers : Answer) : ResultChunk ρ :=
  ⟨rid, .error, none, none, answers⟩

/-- No chunk has been queued for a sequence number of a request yet. -/
def sequenceUnanswered (w : Worker ρ) (rid : ρ) (sequence : ℕ) : Bool :=
  match (w.requests rid).output with
  | none => true
  | some o => o.2.unanswered sequence

/-- A failure reported in `count` chunks, at least one; the last takes the
output slot of the failed tensor, the others go straight to the queue. -/
def failRequest (w : Worker ρ) (rid : ρ) (count : ℕ) (sequence : Option ℕ)
    (answers : List Answer) : Worker ρ × Bool :=
  let chunks := (List.range (max count 1)).map fun i =>
    errorChunk rid (answers.getD i .nothing)
  let (w, chunks, raised) := match sequence with
    | some s =>
      if w.sequenceUnanswered rid s then
        let last := chunks.getLast?.getD (errorChunk rid .nothing)
        let queued := w.queueCompletedOutput rid s last
        (queued.1, chunks.dropLast, queued.2)
      else (w, chunks, false)
    | none => (w, chunks, false)
  if raised then (w, true)
  else ({ w with outQueue := w.outQueue ++ chunks }.abortFailedRequest rid, false)

/-- A result edge whose read was started, or could not be. -/
def readResultTensor (w : Worker ρ) (edge : Edge ρ) (started : Bool) : Worker ρ × Bool :=
  if started then
    let w := (w.setdefault edge.requestId).modify edge.requestId fun r =>
      { r with metadata := r.metadata ++ edge.uuids }
    (edge.uuids.foldl
      (fun w uuid => w.setState edge.requestId fun st => st.orderTensor edge.looped uuid) w,
      false)
  else
    w.failRequest edge.requestId edge.uuids.length none
      (edge.uuids.map fun uuid => .unstarted (.tensor uuid))

/-- One row of an inline frame, whose value was postprocessed or failed. -/
def emitRow (modality : Modality) (w : Worker ρ) (rid : ρ) (value : ℤ) (ok : Bool) :
    Worker ρ × Bool :=
  let w := w.setdefault rid
  let sequence := (w.stateOf rid).nextSequence
  let w := w.setState rid fun st => st.orderToken value
  let answers := Answer.sequenced (.token value)
  let queued := if ok then
      w.queueCompletedOutput rid sequence ⟨rid, modality, none, none, answers⟩
    else (w, true)
  if queued.2 then queued.1.failRequest rid 1 (some sequence) [answers] else queued

/-- The rows of an inline frame in turn; one that raises ends the frame. -/
def emitRows (modality : Modality) :
    Worker ρ → List (ρ × ℤ) → List Bool → Worker ρ × Bool
  | w, [], _ => (w, false)
  | w, row :: rows, outcomes =>
    let emitted := w.emitRow modality row.1 row.2 (outcomes.headD false)
    if emitted.2 then emitted else emitRows modality emitted.1 rows outcomes.tail

/-- The rows of a frame whose request is not draining. -/
def keptRows (w : Worker ρ) (item : InlineTokens ρ) : List (ρ × ℤ) :=
  (item.requestIds.zip item.values).filter fun row => !(w.requests row.1).draining

/-- The values of a frame, each in its request's output order. -/
def emitInlineTokens (w : Worker ρ) (item : InlineTokens ρ) (outcomes : List Bool) :
    Worker ρ × Bool :=
  emitRows item.modality w (w.keptRows item) outcomes

/-- The output slot of a tensor, taken out of the order. -/
def popOrder (w : Worker ρ) (rid : ρ) (uuid : ℕ) : Worker ρ :=
  (w.modify rid fun r => { r with metadata := r.metadata.filter fun u => u ≠ uuid }).setState
    rid fun st => st.forget uuid

/-- The sequence number of a tensor, and whether a loop emitted it. -/
def slotOf (w : Worker ρ) (rid : ρ) (uuid : ℕ) : Option (ℕ × Bool) :=
  (w.requests rid).output.bind fun o => o.2.order.lookup uuid

/-- What a chunk for a tensor's slot answers. -/
def answerFor (slot : Option (ℕ × Bool)) (uuid : ℕ) : Answer :=
  match slot with
  | some _ => .sequenced (.tensor uuid)
  | none => .nothing

/-- The tensors of a read that will not be delivered, each answered by an error
in its output slot. -/
def failUnread (rid : ρ) : Worker ρ → List ℕ → Worker ρ × Bool
  | w, [] => (w, false)
  | w, uuid :: uuids =>
    let slot := w.slotOf rid uuid
    let failed := (w.popOrder rid uuid).failRequest rid 1 (slot.map Prod.fst)
      [answerFor slot uuid]
    if failed.2 then failed else failUnread rid failed.1 uuids

/-- A read that failed. -/
def failUnreadOutputs (w : Worker ρ) (edge : Edge ρ) : Worker ρ × Bool :=
  failUnread edge.requestId w edge.uuids

/-- A tensor handed to the encode pool. -/
def submitEncode (w : Worker ρ) (rid : ρ) (sequence : ℕ) (modality : Modality) (uuid : ℕ) :
    Worker ρ :=
  let state := ((w.requests rid).output.map Prod.fst).getD w.minted
  { w with encoding := w.encoding ++ [⟨uuid, rid, state, sequence, modality⟩] }

/-- The chunk of a tensor that was postprocessed in place, if its frames can be
counted. -/
def tensorChunk (rid : ρ) (modality : Modality) (uuid frames : ℕ) : Option (ResultChunk ρ) :=
  if modality = .videoFrame then
    if frames < 1 then none
    else some ⟨rid, modality, some frames, some 0, .sequenced (.tensor uuid)⟩
  else some ⟨rid, modality, none, none, .sequenced (.tensor uuid)⟩

/-- A tensor that was read, postprocessed in place or on the pool; whether the
attempt raised. -/
def postprocess (pool : Bool) (edge : Edge ρ) (w : Worker ρ) (uuid sequence : ℕ)
    (looped : Bool) (outcome : Outcome) : Worker ρ × Bool :=
  match outcome with
  | .failed => (w, true)
  | .encoded frames =>
    if uuid ∉ (w.requests edge.requestId).metadata then (w, true)
    else if pool && pooledOutput edge.modality looped then
      (w.submitEncode edge.requestId sequence edge.modality uuid, false)
    else
      match tensorChunk edge.requestId edge.modality uuid frames with
      | none => (w, true)
      | some chunk => w.queueCompletedOutput edge.requestId sequence chunk

/-- A tensor whose postprocessing was tried: an error takes its slot if that
raised, and it needs its slot no longer. -/
def settleTensor (rid : ρ) (uuid : ℕ) (slot : Option (ℕ × Bool)) (tried : Worker ρ × Bool) :
    Worker ρ × Bool :=
  let answered := if tried.2 then
      tried.1.failRequest rid 1 (slot.map Prod.fst) [answerFor slot uuid]
    else tried
  if answered.2 then answered else (answered.1.popOrder rid uuid, false)

/-- One tensor of a read that finished: answered by its chunk, by an error, or
later by the pool. -/
def readTensor (pool : Bool) (edge : Edge ρ) (w : Worker ρ) (uuid : ℕ) (outcome : Outcome) :
    Worker ρ × Bool :=
  let slot := w.slotOf edge.requestId uuid
  settleTensor edge.requestId uuid slot <|
    match slot with
    | none => (w, true)
    | some (sequence, looped) => w.postprocess pool edge uuid sequence looped outcome

/-- The tensors of a read that finished, in turn. -/
def readTensors (pool : Bool) (edge : Edge ρ) :
    Worker ρ → List ℕ → List Outcome → Worker ρ × Bool
  | w, [], _ => (w, false)
  | w, uuid :: uuids, outcomes =>
    let read := readTensor pool edge w uuid (outcomes.headD .failed)
    if read.2 then read else readTensors pool edge read.1 uuids outcomes.tail

/-- The reads that failed, then those that finished. -/
def processReadTensors (pool : Bool) :
    Worker ρ → List (Edge ρ) → List (Edge ρ × List Outcome) → Worker ρ × Bool
  | w, edge :: failed, ready =>
    let done := w.failUnreadOutputs edge
    if done.2 then done else processReadTensors pool done.1 failed ready
  | w, [], read :: ready =>
    let done := readTensors pool read.1 w read.1.uuids read.2
    if done.2 then done else processReadTensors pool done.1 [] ready
  | w, [], [] => (w, false)

/-- One finished encode, in its request's output order unless the request was
torn down meanwhile. -/
def releaseOne (w : Worker ρ) (out : EncodedOutput ρ) : Worker ρ × Bool :=
  if (w.requests out.job.requestId).output.map Prod.fst ≠ some out.job.state then (w, false)
  else
    let answers := Answer.sequenced (.tensor out.job.uuid)
    if out.ok then
      w.queueCompletedOutput out.job.requestId out.job.sequence
        ⟨out.job.requestId, out.job.modality, none, none, answers⟩
    else w.failRequest out.job.requestId 1 (some out.job.sequence) [answers]

/-- Every finished encode in turn. -/
def releaseAll : Worker ρ → List (EncodedOutput ρ) → Worker ρ × Bool
  | w, [] => ({ w with encoded := [] }, false)
  | w, out :: encoded =>
    let done := { w with encoded := encoded }.releaseOne out
    if done.2 then done else releaseAll done.1 encoded

/-- Every finished encode's chunk in its request's output order. -/
def releaseEncoded (w : Worker ρ) : Worker ρ × Bool := releaseAll w w.encoded

end Worker

end Mstar.OutputSlots
