import Mathlib.Algebra.Order.Ring.Int
import Mathlib.Data.List.AList
import Mathlib.Data.Finset.Basic
import Mathlib.Data.Int.Notation
import Mathlib.Data.Nat.Notation
import Mathlib.Logic.Function.Basic

/-!
# The conductor's request tables

The conductor holds a request from its dispatch to the end of its teardown
and queues those that come above its cap. Every handler that admits, drains
or drops a request is here as the conductor runs it, with a trace of what it
did and what it sent.
-/

namespace Mstar.Teardown

/-- A request's id; only compared. -/
abbrev RequestId := ℕ

/-- What the replica router recorded for one placed request, by its number. -/
abbrev RoutingHandle := ℕ

/-- Whom a teardown message goes to. -/
inductive Entity where
  /-- A worker, by its id. -/
  | worker (id : ℕ)
  /-- The data worker of the API server. -/
  | preprocess
  deriving DecidableEq, Repr

/-- What an exception leaves for the client. -/
structure Raised where
  /-- It is a `ValueError`. -/
  isValueError : Bool
  /-- Its own text, with absolute paths cut. -/
  scrubbed : String
  /-- The text any client may see. -/
  clientText : String
  deriving DecidableEq, Repr

/-- The `seed` keyword of a request. -/
inductive SeedKwarg where
  /-- Absent, or None. -/
  | absent
  /-- An integer. -/
  | int (seed : ℤ)
  /-- Anything else, a bool included, as `repr` shows it. -/
  | other (repr : String)
  deriving DecidableEq, Repr

/-- Why a seed is bad: it is no integer, or does not fit in 64 bits. -/
def checkSeed : SeedKwarg → Option String
  | .absent => none
  | .int seed =>
    if -(2 ^ 63) ≤ seed ∧ seed < 2 ^ 63 then none
    else some ("seed must fit in a signed 64-bit integer, got " ++ toString seed ++ ".")
  | .other repr => some ("seed must be an integer, got " ++ repr ++ ".")

/-- A NEW_REQUEST as far as admission reads it. -/
structure NewRequest where
  /-- The request's id. -/
  requestId : RequestId
  /-- Its explicit seed. -/
  seed : SeedKwarg
  /-- Its input is still being sent. -/
  inputOpen : Bool
  deriving DecidableEq, Repr

/-- What dispatching a request comes to. -/
inductive Ingest where
  /-- It raised before the request was registered. -/
  | refused (error : Raised)
  /-- It raised before the router had recorded the request. -/
  | unplaced (workers : List ℕ) (error : Raised)
  /-- It was placed on its workers; the sends that follow may raise. -/
  | placed (workers : List ℕ) (handle : RoutingHandle) (error : Option Raised)
  deriving DecidableEq, Repr

/-- What the conductor holds of a request. -/
structure RequestData where
  /-- The workers of its worker graphs. -/
  workers : List ℕ
  /-- What the router recorded. -/
  routing : Option RoutingHandle
  /-- A NEW_REQUEST may have gone out. -/
  dispatched : Bool
  /-- Its `request_complete` went out. -/
  completionSent : Bool
  deriving DecidableEq, Repr

/-- The workers of a request, each once. -/
def requestWorkers (workers : List ℕ) : List Entity :=
  workers.dedup.map Entity.worker

/-- Everyone that may hold something of the request. -/
def participants (workers : List ℕ) : List Entity :=
  requestWorkers workers ++ [.preprocess]

/-- A request being torn down. -/
structure DrainingRequest where
  /-- Who has still to report its reads done. -/
  expectedAcks : List Entity
  /-- Who is told to remove the request. -/
  participants : List Entity
  /-- What the client is told at the end, on the fail path. -/
  failureError : Option String
  /-- The status it is told with. -/
  failureStatus : ℕ
  deriving DecidableEq, Repr

/-- One thing the conductor took in, did or sent for a request. -/
inductive Act where
  /-- Its NEW_REQUEST was taken in. -/
  | arrived
  /-- Its client's abort was taken in. -/
  | aborted
  /-- A READS_DONE for it was taken in. -/
  | readsDone (entity : Entity)
  /-- It was handed to dispatch. -/
  | admitted
  /-- It entered the request table. -/
  | held
  /-- It was placed, and workers may hear of it. -/
  | dispatched (workers : List ℕ) (handle : RoutingHandle)
  /-- A DRAIN_REQUEST was sent. -/
  | drain (entity : Entity)
  /-- Its teardown barrier was put up. -/
  | draining (expected : List Entity)
  /-- A REMOVE_REQUEST was sent. -/
  | remove (entity : Entity)
  /-- The client was sent `request_complete`. -/
  | complete
  /-- The client was sent `request_failed`. -/
  | failed (error : String) (status : ℕ)
  /-- It left the request table. -/
  | dropped
  /-- What the router had recorded was released. -/
  | released (handle : RoutingHandle)
  deriving DecidableEq, Repr

/-- What the client is told when a teardown ends. -/
def DrainingRequest.lastWord (dr : DrainingRequest) : List Act :=
  (dr.failureError.map fun error => .failed error dr.failureStatus).toList

/-- An act with its time and its request. -/
structure Mark where
  /-- When. -/
  clock : ℕ
  /-- For which request. -/
  request : RequestId
  /-- What. -/
  act : Act
  deriving DecidableEq, Repr

/-- The settings of a conductor, and what its dispatches come to. A request is
dispatched at most once, so its outcome is a function of the request. -/
structure Config where
  /-- The cap on held requests, if any. -/
  maxConcurrentRequests : Option ℕ
  /-- The model has streams fed by the client. -/
  clientStreams : Bool
  /-- How long a teardown waits. -/
  drainTtl : ℕ
  /-- What dispatching each request comes to. -/
  ingest : NewRequest → Ingest

/-- The conductor's tables. -/
structure Conductor where
  /-- The monotonic clock. -/
  clock : ℕ
  /-- The requests it holds. -/
  requests : AList fun _ : RequestId => RequestData
  /-- Those of them being torn down. -/
  draining : RequestId → Option DrainingRequest
  /-- The requests waiting for a slot. -/
  waitingQueue : List NewRequest
  /-- READS_DONE that came before the teardown they answer. -/
  earlyReadsDone : RequestId → Option (List Entity)
  /-- Aborts that came before the request they abort. -/
  earlyAbortRequests : Finset RequestId
  /-- When each teardown is pushed through. -/
  drainingDeadlines : List (ℕ × RequestId)
  /-- When each early READS_DONE is forgotten. -/
  earlyReadsDoneDeadlines : List (ℕ × RequestId)
  /-- When each early abort is forgotten. -/
  earlyAbortDeadlines : List (ℕ × RequestId)
  /-- Everything done so far. -/
  trace : List Mark

namespace Conductor

/-- A conductor that has just come up. -/
def start : Conductor :=
  ⟨0, ∅, fun _ => none, [], fun _ => none, ∅, [], [], [], []⟩

/-- Record acts for one request, as of now. -/
def note (c : Conductor) (rid : RequestId) (acts : List Act) : Conductor :=
  { c with trace := c.trace ++ acts.map (Mark.mk c.clock rid) }

/-- How many requests are held. -/
def inFlight (c : Conductor) : ℕ := c.requests.entries.length

/-- Every slot is taken. -/
def full (cfg : Config) (c : Conductor) : Bool :=
  match cfg.maxConcurrentRequests with
  | none => false
  | some cap => decide (cap ≤ c.inFlight)

/-- The early READS_DONE of a request. -/
def earlyAcks (c : Conductor) (rid : RequestId) : List Entity := (c.earlyReadsDone rid).getD []

/-- Forget the early READS_DONE of a request. -/
def popEarlyReadsDone (c : Conductor) (rid : RequestId) : Conductor :=
  { c with earlyReadsDone := Function.update c.earlyReadsDone rid none }

/-- The one way a request leaves the table. -/
def dropRequest (c : Conductor) (rid : RequestId) : Conductor :=
  match c.requests.lookup rid with
  | none => c
  | some data =>
    ({ c with requests := c.requests.erase rid }).note rid
      (.dropped :: (data.routing.map Act.released).toList)

/-- Fail a request that no worker has heard of. -/
def rejectRequest (c : Conductor) (rid : RequestId) (error : String) (status : ℕ) : Conductor :=
  (c.popEarlyReadsDone rid).note rid [.remove .preprocess, .failed error status]

/-- A drained request: remove it everywhere, tell its client if it failed,
free its slot and admit who waits for one. -/
def finalizeDraining (admitWaiting : Conductor → Conductor) (c : Conductor) (rid : RequestId) :
    Conductor :=
  match c.draining rid with
  | none => c
  | some dr =>
    admitWaiting ((({ c with draining := Function.update c.draining rid none }).note rid
      (dr.participants.map Act.remove ++ dr.lastWord)).dropRequest rid)

/-- Put up the barrier of a teardown, and finish if it is met already. -/
def registerDraining (cfg : Config) (admitWaiting : Conductor → Conductor) (c : Conductor)
    (rid : RequestId) (expected : List Entity) (participants : List Entity)
    (failureError : Option String) : Conductor :=
  let remaining := expected.filter (· ∉ c.earlyAcks rid)
  let registered := ({ c.popEarlyReadsDone rid with
    draining := Function.update c.draining rid (some ⟨remaining, participants, failureError, 500⟩)
    drainingDeadlines := c.drainingDeadlines ++ [(c.clock + cfg.drainTtl, rid)] }).note rid
      [.draining expected]
  if remaining = [] then registered.finalizeDraining admitWaiting rid else registered

/-- Begin the teardown of an aborted or failed request. -/
def removeRequest (cfg : Config) (admitWaiting : Conductor → Conductor) (c : Conductor)
    (rid : RequestId) (data : RequestData) (failureError : Option String) : Conductor :=
  let everyone := participants data.workers
  (c.note rid (everyone.map Act.drain)).registerDraining cfg admitWaiting rid everyone everyone
    failureError

/-- A request enters the table. -/
def registerRequest (c : Conductor) (rid : RequestId) (data : RequestData) : Conductor :=
  ({ c with requests := c.requests.insert rid data }).note rid [.held]

/-- Dispatch a request; it may raise on the way. -/
def doIngestRequest (cfg : Config) (c : Conductor) (body : NewRequest) :
    Conductor × Option Raised :=
  let rid := body.requestId
  match cfg.ingest body with
  | .refused error => (c, some error)
  | .unplaced workers error => (c.registerRequest rid ⟨workers, none, false, false⟩, some error)
  | .placed workers handle error =>
    ((c.registerRequest rid ⟨workers, some handle, true, false⟩).note rid
      [.dispatched workers handle], error)

/-- Dispatch a request; if that raises, fail it instead of dropping it. -/
def admitRequest (cfg : Config) (admitWaiting : Conductor → Conductor) (c : Conductor)
    (body : NewRequest) : Conductor :=
  let rid := body.requestId
  match (c.note rid [.admitted]).doIngestRequest cfg body with
  | (c, none) => c
  | (c, some error) =>
    let refuse : Conductor :=
      if error.isValueError then (c.dropRequest rid).rejectRequest rid error.scrubbed 400
      else (c.dropRequest rid).rejectRequest rid ("Ingest failed: " ++ error.clientText) 500
    match c.requests.lookup rid with
    | none => refuse
    | some data =>
      if data.dispatched = false then refuse
      else if (c.draining rid).isNone then
        c.removeRequest cfg admitWaiting rid data (some ("Ingest failed: " ++ error.clientText))
      else c

/-- Admit from the front of the queue while there is a slot. The count bounds
the calls that are nested or follow; the queue's length is enough. -/
def tryAdmitWaitingFor (cfg : Config) : ℕ → Conductor → Conductor
  | 0, c => c
  | calls + 1, c =>
    match c.waitingQueue with
    | [] => c
    | body :: rest =>
      if c.full cfg then c
      else tryAdmitWaitingFor cfg calls
        (({ c with waitingQueue := rest }).admitRequest cfg (tryAdmitWaitingFor cfg calls) body)

/-- Drain the waiting queue up to the cap. -/
def tryAdmitWaiting (cfg : Config) (c : Conductor) : Conductor :=
  tryAdmitWaitingFor cfg c.waitingQueue.length c

/-- A NEW_REQUEST: drop it if it was aborted, reject it, queue it or admit it. -/
def ingestRequest (cfg : Config) (c : Conductor) (body : NewRequest) : Conductor :=
  let rid := body.requestId
  let c := c.note rid [.arrived]
  if rid ∈ c.earlyAbortRequests then
    (({ c with earlyAbortRequests := c.earlyAbortRequests.erase rid }).popEarlyReadsDone rid).note
      rid [.remove .preprocess]
  else
    match checkSeed body.seed with
    | some error => c.rejectRequest rid error 400
    | none =>
      if c.full cfg then
        if body.inputOpen then
          c.rejectRequest rid "server at capacity: a call with open input can't wait for a slot" 503
        else { c with waitingQueue := c.waitingQueue ++ [body] }
      else c.admitRequest cfg (tryAdmitWaiting cfg) body

/-- A READS_DONE: one ack less to wait for, or one that came early. -/
def handleReadsDone (cfg : Config) (c : Conductor) (rid : RequestId) (entity : Entity) :
    Conductor :=
  let c := c.note rid [.readsDone entity]
  match c.draining rid with
  | none =>
    let deadline := if (c.earlyReadsDone rid).isNone then [(c.clock + cfg.drainTtl, rid)] else []
    let acks := (c.earlyAcks rid).insert entity
    { c with
      earlyReadsDoneDeadlines := c.earlyReadsDoneDeadlines ++ deadline
      earlyReadsDone := Function.update c.earlyReadsDone rid (some acks) }
  | some dr =>
    let remaining := dr.expectedAcks.filter (· ≠ entity)
    let left : DrainingRequest := { dr with expectedAcks := remaining }
    let c := { c with draining := Function.update c.draining rid (some left) }
    if remaining = [] then c.finalizeDraining (tryAdmitWaiting cfg) rid else c

/-- The requests whose deadline has passed, and the deadlines left. -/
def popExpired (deadlines : List (ℕ × RequestId)) (now : ℕ) :
    List RequestId × List (ℕ × RequestId) :=
  ((deadlines.takeWhile (·.1 ≤ now)).map Prod.snd, deadlines.dropWhile (·.1 ≤ now))

/-- Push expired teardowns through. -/
def sweepDraining (cfg : Config) (c : Conductor) (now : ℕ) : Conductor :=
  (popExpired c.drainingDeadlines now).1.foldl
    (fun c rid => c.finalizeDraining (tryAdmitWaiting cfg) rid)
    { c with drainingDeadlines := (popExpired c.drainingDeadlines now).2 }

/-- Forget expired early aborts. -/
def sweepEarlyAborts (c : Conductor) (now : ℕ) : Conductor :=
  (popExpired c.earlyAbortDeadlines now).1.foldl
    (fun c rid => { c with earlyAbortRequests := c.earlyAbortRequests.erase rid })
    { c with earlyAbortDeadlines := (popExpired c.earlyAbortDeadlines now).2 }

/-- Forget expired early READS_DONE. -/
def sweepEarlyReadsDone (c : Conductor) (now : ℕ) : Conductor :=
  (popExpired c.earlyReadsDoneDeadlines now).1.foldl popEarlyReadsDone
    { c with earlyReadsDoneDeadlines := (popExpired c.earlyReadsDoneDeadlines now).2 }

/-- Expire what was waited for in vain. -/
def sweepExpiry (cfg : Config) (c : Conductor) : Conductor :=
  ((c.sweepDraining cfg c.clock).sweepEarlyAborts c.clock).sweepEarlyReadsDone c.clock

/-- The failures a worker reported, each request once. -/
def failRequests (cfg : Config) (c : Conductor) (errors : List (RequestId × String)) : Conductor :=
  errors.foldl (fun c entry =>
    match c.requests.lookup entry.1 with
    | none => c
    | some data =>
      if (c.draining entry.1).isSome then c
      else c.removeRequest cfg (tryAdmitWaiting cfg) entry.1 data (some entry.2)) c

/-- A client's abort: of a queued request, one not yet seen or gone, one
already being torn down, or a running one. -/
def abortRequest (cfg : Config) (c : Conductor) (rid : RequestId) : Conductor :=
  let c := c.note rid [.aborted]
  if c.waitingQueue.any (·.requestId = rid) then
    (({ c with waitingQueue := c.waitingQueue.eraseP (·.requestId = rid) }).popEarlyReadsDone
      rid).note rid [.remove .preprocess]
  else
    match c.requests.lookup rid with
    | none =>
      { c with
        earlyAbortRequests := insert rid c.earlyAbortRequests
        earlyAbortDeadlines := c.earlyAbortDeadlines ++ [(c.clock + cfg.drainTtl, rid)] }
    | some data =>
      if (c.draining rid).isSome then c
      else c.removeRequest cfg (tryAdmitWaiting cfg) rid data none

/-- Fail the request whose handling raised, or only tear it down if its
client has the result. -/
def failAfterError (cfg : Config) (c : Conductor) (rid : RequestId) (step : String)
    (error : Raised) : Conductor :=
  match c.requests.lookup rid with
  | none => c
  | some data =>
    if (c.draining rid).isSome then c
    else c.removeRequest cfg (tryAdmitWaiting cfg) rid data
      (if data.completionSent then none
        else some ("Conductor error " ++ step ++ ": " ++ error.clientText))

/-- Where completing a request raises, if it does. -/
inductive Completion where
  /-- The send of `request_complete` raises. -/
  | unsent (error : Raised)
  /-- Giving up its persisted tensors raises. -/
  | persisted (error : Raised)
  /-- Nothing raises. -/
  | clean
  deriving DecidableEq, Repr

/-- Every partition of a held request is done: tell the client, then drain
whoever may still read. -/
def processRequestDone (cfg : Config) (c : Conductor) (rid : RequestId) (data : RequestData)
    (completion : Completion) : Conductor :=
  let told : Conductor := ({ c with
    requests := c.requests.insert rid { data with completionSent := true } }).note rid [.complete]
  match completion with
  | .unsent error => c.failAfterError cfg rid "completing it" error
  | .persisted error => told.failAfterError cfg rid "completing it" error
  | .clean =>
    let workers := requestWorkers data.workers
    if cfg.clientStreams then
      (told.note rid (workers.map Act.drain)).registerDraining cfg (tryAdmitWaiting cfg) rid
        (.preprocess :: workers) (participants data.workers) none
    else
      told.registerDraining cfg (tryAdmitWaiting cfg) rid [.preprocess]
        (participants data.workers) none

/-- What reaches the conductor's loop. -/
inductive Event where
  /-- NEW_REQUEST. -/
  | newRequest (body : NewRequest)
  /-- ABORT_REQUEST. -/
  | abortRequest (rid : RequestId)
  /-- FAIL_REQUESTS. -/
  | failRequests (errors : List (RequestId × String))
  /-- READS_DONE. -/
  | readsDone (rid : RequestId) (entity : Entity)
  /-- Handling a message that is about these requests raised, or advancing a
  partition of one did. -/
  | raised (rids : List RequestId) (step : String) (error : Raised)
  /-- The WORKER_GRAPHS_DONE that ended the last partition of a request. -/
  | requestDone (rid : RequestId) (completion : Completion)
  /-- The deadlines are looked at. -/
  | sweep
  /-- Time passes. -/
  | tick (elapsed : ℕ)
  deriving DecidableEq, Repr

/-- One turn of the conductor. -/
def step (cfg : Config) (c : Conductor) : Event → Conductor
  | .newRequest body => c.ingestRequest cfg body
  | .abortRequest rid => c.abortRequest cfg rid
  | .failRequests errors => c.failRequests cfg errors
  | .readsDone rid entity => c.handleReadsDone cfg rid entity
  | .raised rids step error => rids.foldl (fun c rid => c.failAfterError cfg rid step error) c
  | .requestDone rid completion =>
    match c.requests.lookup rid with
    | none => c
    | some data =>
      if (c.draining rid).isSome then c else c.processRequestDone cfg rid data completion
  | .sweep => c.sweepExpiry cfg
  | .tick elapsed => { c with clock := c.clock + elapsed }

/-- A whole run. -/
def run (cfg : Config) (events : List Event) : Conductor :=
  events.foldl (step cfg) start

end Conductor

end Mstar.Teardown
