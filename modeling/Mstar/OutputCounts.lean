import Mstar.OutputSlots

/-!
# Outputs between the two threads

The message thread counts what it hands to the data worker and counts down one
for each chunk it takes back. A run interleaves notifications, the worker's
passes, the reads and the encode pool, and requests come and go.
-/

namespace Mstar.OutputSlots

variable {ρ : Type*} [DecidableEq ρ]

/-- What the message thread hands to the worker. -/
inductive Item (ρ : Type*)
  | tensors (edge : Edge ρ)
  | tokens (frame : InlineTokens ρ)

/-- What became of an output the worker took up. -/
inductive Fate
  /-- It took a sequence number. -/
  | sequenced
  /-- Its read could not be started. -/
  | unstarted
  /-- Its request was draining. -/
  | dropped
  deriving DecidableEq, Repr

/-- Both threads and what runs beside them. -/
structure World (ρ : Type*) where
  worker : Worker ρ
  /-- `result_tensor_input_queue`. -/
  inbox : List (Item ρ)
  /-- Reads that were started and have not come back. -/
  reads : List (Edge ρ)
  /-- `per_request_reading_tensors`. -/
  reading : ρ → Option ℤ
  /-- Every output counted in, in order of arrival. A record of the run, like
  the three that follow. -/
  notified : ρ → List Slot
  /-- What became of those the worker took up. -/
  taken : ρ → List (Slot × Fate)
  /-- Edges without tensors whose read could not be started. -/
  bare : ρ → ℕ
  /-- Every chunk the message thread took back. -/
  received : List (ResultChunk ρ)

namespace World

/-- No request. -/
def empty : World ρ where
  worker := ⟨fun _ => .none, [], [], [], 0⟩
  inbox := []
  reads := []
  reading := fun _ => none
  notified := fun _ => []
  taken := fun _ => []
  bare := fun _ => 0
  received := []

/-- A request counted from zero, whose outputs the worker orders. -/
def newRequest (w : World ρ) (rid : ρ) : World ρ :=
  { w with
    reading := Function.update w.reading rid (some 0)
    worker :=
      { w.worker.modify rid fun r =>
          { r with output := some (w.worker.minted, .new), inFlight := true, live := r.live + 1 }
          with minted := w.worker.minted + 1 } }

/-- One output more counted in. -/
def countIn (w : World ρ) (rid : ρ) (slots : List Slot) : World ρ :=
  { w with
    reading := Function.update w.reading rid ((w.reading rid).map (· + slots.length))
    notified := Function.update w.notified rid (w.notified rid ++ slots) }

/-- The slots of an edge. -/
def slotsOf (edge : Edge ρ) : List Slot := edge.uuids.map .tensor

/-- A result edge: counted and queued, or acked and dropped if its request is
gone. -/
def newResultTensors (w : World ρ) (edge : Edge ρ) : World ρ :=
  if (w.reading edge.requestId).isNone then w
  else
    { w.countIn edge.requestId (slotsOf edge) with inbox := w.inbox ++ [.tensors edge] }

/-- The rows of a frame whose requests are still known, each counted. -/
def countRows (w : World ρ) : List (ρ × ℤ) → World ρ × List (ρ × ℤ)
  | [] => (w, [])
  | row :: rows =>
    if (w.reading row.1).isNone then countRows w rows
    else
      let rest := countRows (w.countIn row.1 [.token row.2]) rows
      (rest.1, row :: rest.2)

/-- An inline frame: its rows counted, those of requests that are gone left
out. -/
def newResultTokens (w : World ρ) (rows : List (ρ × ℤ)) (modality : Modality) : World ρ :=
  let kept := w.countRows rows
  if kept.2.isEmpty then kept.1
  else
    { kept.1 with
      inbox := kept.1.inbox ++
        [.tokens ⟨kept.2.map Prod.fst, kept.2.map Prod.snd, modality⟩] }

/-- One chunk taken back. -/
def receive (reading : ρ → Option ℤ) (chunk : ResultChunk ρ) : ρ → Option ℤ :=
  Function.update reading chunk.requestId ((reading chunk.requestId).map (· - 1))

/-- Every chunk in the queue taken back. -/
def getResultChunks (w : World ρ) : World ρ :=
  { w with
    reading := w.worker.outQueue.foldl receive w.reading
    received := w.received ++ w.worker.outQueue
    worker := { w.worker with outQueue := [] } }

/-- What became of a request's outputs noted. -/
def note (taken : ρ → List (Slot × Fate)) (rid : ρ) (slots : List Slot) (fate : Fate) :
    ρ → List (Slot × Fate) :=
  Function.update taken rid (taken rid ++ slots.map fun slot => (slot, fate))

/-- What became of the rows of an inline frame. -/
def noteRows (worker : Worker ρ) (taken : ρ → List (Slot × Fate)) (rows : List (ρ × ℤ)) :
    ρ → List (Slot × Fate) :=
  rows.foldl (fun taken row =>
    note taken row.1 [.token row.2]
      (if (worker.requests row.1).draining then .dropped else .sequenced)) taken

/-- The worker takes up an edge: its read is started, or could not be, or the
edge is acked unread because its request is draining. -/
def takeTensors (w : World ρ) (edge : Edge ρ) (started : Bool) : World ρ :=
  if (w.worker.requests edge.requestId).draining then
    { w with taken := note w.taken edge.requestId (slotsOf edge) .dropped }
  else
    { w with
      worker := (w.worker.readResultTensor edge started).1
      reads := if started && !edge.uuids.isEmpty then w.reads ++ [edge] else w.reads
      taken := note w.taken edge.requestId (slotsOf edge)
        (if started then .sequenced else .unstarted)
      bare := if started || !edge.uuids.isEmpty then w.bare
        else Function.update w.bare edge.requestId (w.bare edge.requestId + 1) }

/-- The worker takes up a frame. -/
def takeTokens (w : World ρ) (frame : InlineTokens ρ) (outcomes : List Bool) : World ρ :=
  { w with
    worker := (w.worker.emitInlineTokens frame outcomes).1
    taken := noteRows w.worker w.taken (frame.requestIds.zip frame.values) }

end World

/-- What can happen next. -/
inductive Event (ρ : Type*)
  | newRequest (rid : ρ)
  | newResultTensors (edge : Edge ρ)
  | newResultTokens (rows : List (ρ × ℤ)) (modality : Modality)
  /-- The worker takes the next item; whether a read starts, and which inline
  values are postprocessed. -/
  | take (started : Bool) (outcomes : List Bool)
  /-- Reads come back, failed or with their tensors. -/
  | processReadTensors (failed : List (Edge ρ)) (ready : List (Edge ρ × List Outcome))
  /-- The pool ends a job. -/
  | encodeDone (index : ℕ) (ok : Bool)
  | releaseEncoded
  | getResultChunks
  /-- The conductor, or an abort, has the worker drain a request. -/
  | beginDrain (rid : ρ)
  /-- The worker acks that it has drained a request, or need not. -/
  | readsDone (rid : ρ)
  /-- The worker drops what it keeps for a request. -/
  | drop (rid : ρ)
  /-- The message thread lets go of a request. -/
  | release (rid : ρ)

/-- The event tears a request down. -/
def Event.TearsDown (rid : ρ) : Event ρ → Prop
  | .beginDrain r | .readsDone r | .drop r | .release r => r = rid
  | _ => False

instance (rid : ρ) : DecidablePred (Event.TearsDown rid)
  | .beginDrain r | .readsDone r | .drop r | .release r => inferInstanceAs (Decidable (r = rid))
  | .newRequest _ | .newResultTensors _ | .newResultTokens _ _ | .take _ _
  | .processReadTensors _ _ | .encodeDone _ _ | .releaseEncoded | .getResultChunks =>
    inferInstanceAs (Decidable False)

/-- One event. -/
def World.step (pool : Bool) (w : World ρ) : Event ρ → World ρ
  | .newRequest rid => w.newRequest rid
  | .newResultTensors edge => w.newResultTensors edge
  | .newResultTokens rows modality => w.newResultTokens rows modality
  | .take started outcomes =>
    match w.inbox with
    | [] => w
    | .tensors edge :: inbox => { w with inbox := inbox }.takeTensors edge started
    | .tokens frame :: inbox => { w with inbox := inbox }.takeTokens frame outcomes
  | .processReadTensors failed ready =>
    { w with
      worker := (w.worker.processReadTensors pool failed ready).1
      reads := w.reads.diff (failed ++ ready.map Prod.fst) }
  | .encodeDone index ok =>
    match w.worker.encoding[index]? with
    | none => w
    | some job =>
      { w with
        worker :=
          { w.worker with
            encoding := w.worker.encoding.eraseIdx index
            encoded := w.worker.encoded ++ [⟨job, ok⟩] } }
  | .releaseEncoded => { w with worker := w.worker.releaseEncoded.1 }
  | .getResultChunks => w.getResultChunks
  | .beginDrain rid =>
    { w with worker := w.worker.modify rid fun r => { r with draining := true } }
  | .readsDone rid =>
    { w with worker := w.worker.modify rid fun r => { r with readsDoneSent := true } }
  | .drop rid =>
    { w with
      worker := w.worker.modify rid fun r =>
        { Request.none with live := r.live - 1 } }
  | .release rid => { w with reading := Function.update w.reading rid none }

/-- What may happen: a request's id is not in use, tensors have uuids of their
own, and only reads that were started come back. -/
def World.Allowed (w : World ρ) (used : List ℕ) : Event ρ → Prop
  | .newRequest rid => w.reading rid = none
  | .newResultTensors edge => edge.uuids.Nodup ∧ ∀ uuid ∈ edge.uuids, uuid ∉ used
  | .processReadTensors failed ready => (failed ++ ready.map Prod.fst).Subperm w.reads
  | _ => True

/-- The uuids an event brings. -/
def Event.uuids : Event ρ → List ℕ
  | .newResultTensors edge => edge.uuids
  | _ => []

/-- A run, with the uuids it has used. -/
inductive Runs (pool : Bool) : List (Event ρ) → World ρ → List ℕ → Prop
  | start : Runs pool [] World.empty []
  | step {events w used} (h : Runs pool events w used) (event : Event ρ)
      (hallowed : w.Allowed used event) :
      Runs pool (events ++ [event]) (w.step pool event) (used ++ event.uuids)

/-- Every chunk put for a request so far, in order. -/
def World.puts (w : World ρ) (rid : ρ) : List (ResultChunk ρ) :=
  (w.received ++ w.worker.outQueue).filter fun chunk => chunk.requestId = rid

end Mstar.OutputSlots
