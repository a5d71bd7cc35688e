import Mathlib.Algebra.Order.Ring.Int
import Mathlib.Data.Finset.Basic
import Mathlib.Data.Finset.Filter
import Mathlib.Data.List.AList
import Mathlib.Data.Nat.Notation
import Mathlib.Logic.Function.Basic

/-!
# Counting a pass

A partition runs one forward pass after another. Every rank reports the
worker graphs it finished, the conductor counts the reports, and a partition
whose worker graphs are all counted is advanced once the messages at hand
have been applied.
-/

namespace Mstar.Passes

/-- A worker, by its id. -/
abbrev Rank := ℕ

/-- A partition's name; only compared. -/
abbrev PartitionName := ℕ

/-- A graph walk's name; only compared. -/
abbrev WalkName := ℕ

/-- A worker graph's id. -/
abbrev WorkerGraphId := ℕ

/-- A signal's or an edge's name; only compared. -/
abbrev SignalName := ℕ

/-- What the model answers for a partition's next pass. -/
structure ForwardArgs where
  /-- The walk of the next pass. -/
  graphWalk : WalkName
  /-- The partition has ended. -/
  requestDone : Bool
  /-- The edges to send; none when the partition triggers itself. -/
  inputs : List SignalName
  deriving DecidableEq, Repr

/-- A stream between two partitions, as the topology has it. -/
structure Connection where
  /-- The producer. -/
  fromPartition : PartitionName
  /-- The consumer. -/
  toPartition : PartitionName
  /-- The edge. -/
  edgeName : SignalName
  deriving DecidableEq, Repr

/-- The deployment as one request sees it, and what the model answers. -/
structure Config where
  /-- The partitions of the model. -/
  partitionNames : List PartitionName
  /-- The ranks of each of the request's worker graphs. -/
  workerGraphToWorkers : AList fun _ : WorkerGraphId => List Rank
  /-- The walks each worker graph takes part in. -/
  graphWalks : WorkerGraphId → List WalkName
  /-- The streams between partitions. -/
  streamingConnections : List Connection
  /-- Partitions whose walk the stream drives. -/
  producerTriggeredPartitions : List PartitionName
  /-- Partitions that are fed by a stream. -/
  streamFedPartitions : List PartitionName
  /-- The client's streams, each with the partition it feeds. -/
  clientStreams : List (SignalName × PartitionName)
  /-- The cap on a partition's output tokens. -/
  maxOutputTokens : ℕ
  /-- What the model answers for a partition's first pass. -/
  initial : PartitionName → ForwardArgs
  /-- What the model answers when it is asked for a later pass, by how often it
  was asked before; none where it raises. -/
  forward : ℕ → Option ForwardArgs

/-- The conductor's state of one partition. -/
structure PartitionState where
  /-- The walk it is in. -/
  graphWalk : WalkName
  /-- How many passes it has been advanced. -/
  fwdPassNumber : ℕ
  /-- It has ended. -/
  isDone : Bool
  /-- The worker graphs counted complete in this pass. -/
  completedWorkerGraphIds : Finset WorkerGraphId
  /-- The worker graphs of this pass. -/
  currentWorkerGraphIds : Finset WorkerGraphId
  /-- How many reports named each worker graph. -/
  wgRankCompletions : WorkerGraphId → ℕ
  /-- A report since the last advance said the partition is done. -/
  workerReportedDone : Bool
  /-- The tokens it put out. -/
  numOutputTokens : ℕ

/-- The conductor's counters of one stream. -/
structure StreamingConnectionState where
  /-- The stream. -/
  connection : Connection
  /-- Tokens produced. -/
  tokenCount : ℕ
  /-- Tokens consumed. -/
  consumedCount : ℕ
  /-- The producer has ended. -/
  producerDone : Bool
  /-- Items the producer sent to each worker. -/
  itemsSent : Rank → ℕ

/-- What advancing a partition sends. -/
inductive Sent where
  /-- Later items of these client streams have nowhere to go. -/
  | clientRoute (streams : List SignalName)
  /-- A consumer hears that its producer is done. -/
  | producerDone (producer consumer : PartitionName)
  /-- A partition's inputs, for this walk and under this pass number. -/
  | inputs (partition : PartitionName) (walk : WalkName) (fwdIndex : ℕ) (edges : List SignalName)
  deriving DecidableEq, Repr

/-- What the conductor holds of one request. -/
structure RequestData where
  /-- Its partitions. -/
  partitionStates : PartitionName → PartitionState
  /-- Its streams. -/
  streamingConnections : List StreamingConnectionState
  /-- Chunks emitted to the client, by signal. -/
  outputChunkCounts : SignalName → ℕ
  /-- How often the model was asked for a next pass. -/
  calls : ℕ
  /-- What was sent. -/
  sent : List Sent

/-- A worker's report of the worker graphs it finished. -/
structure WorkerGraphsDone where
  /-- The partition. -/
  partitionName : PartitionName
  /-- The worker graphs. -/
  workerGraphIds : List WorkerGraphId
  /-- The worker is the first rank of its group. -/
  isFirstTpRank : Bool
  /-- New tokens, by signal. -/
  newTokenCounts : List (SignalName × ℕ)
  /-- One name per chunk emitted to the client since the last report. -/
  outputSignalNames : List SignalName
  /-- The partition ends with this pass. -/
  partitionDone : Bool
  /-- The walk the pass ran under, where the report names it. -/
  graphWalk : Option WalkName
  /-- Tokens consumed from each stream. -/
  streamTokensConsumed : List (SignalName × ℕ)
  /-- Items sent to each worker on each stream since the last report. -/
  streamItemsSent : List (SignalName × List (Rank × ℕ))
  deriving DecidableEq, Repr

/-- The worker graphs of a walk. -/
def Config.workerGraphsOf (cfg : Config) (walk : WalkName) : Finset WorkerGraphId :=
  (cfg.workerGraphToWorkers.keys.filter fun wg => walk ∈ cfg.graphWalks wg).toFinset

/-- The pass a partition starts with. -/
def Config.firstPass (cfg : Config) (name : PartitionName) : PartitionState :=
  ⟨(cfg.initial name).graphWalk, 0, (cfg.initial name).requestDone, ∅,
    cfg.workerGraphsOf (cfg.initial name).graphWalk, fun _ => 0, false, 0⟩

/-- A stream nothing has gone through. -/
def Connection.start (connection : Connection) : StreamingConnectionState :=
  ⟨connection, 0, 0, false, fun _ => 0⟩

/-- A request as it is registered. -/
def Config.newRequest (cfg : Config) : RequestData :=
  ⟨cfg.firstPass, cfg.streamingConnections.map Connection.start, fun _ => 0, 0, []⟩

/-- Take up a walk, and with it the worker graphs to wait for. -/
def PartitionState.setWalk (cfg : Config) (ps : PartitionState) (walk : WalkName) :
    PartitionState :=
  { ps with graphWalk := walk, currentWorkerGraphIds := cfg.workerGraphsOf walk }

/-- Count the chunks a report names. -/
def countChunks (counts : SignalName → ℕ) (names : List SignalName) : SignalName → ℕ :=
  names.foldl (fun counts name => Function.update counts name (counts name + 1)) counts

/-- The entry of a report's table. -/
def lookupD {β : Type} (table : List (SignalName × β)) (name : SignalName) (default : β) : β :=
  (table.lookup name).getD default

namespace StreamingConnectionState

/-- Count the items a report sent on this edge. -/
def countItems (conn : StreamingConnectionState)
    (sent : List (SignalName × List (Rank × ℕ))) : StreamingConnectionState :=
  { conn with
    itemsSent := (lookupD sent conn.connection.edgeName []).foldl
      (fun items entry => Function.update items entry.1 (items entry.1 + entry.2))
      conn.itemsSent }

/-- Count the tokens a report produced on this edge. -/
def countTokens (conn : StreamingConnectionState) (name : PartitionName)
    (entry : SignalName × ℕ) : StreamingConnectionState :=
  if conn.connection.fromPartition = name ∧ conn.connection.edgeName = entry.1 then
    { conn with tokenCount := conn.tokenCount + entry.2 }
  else conn

/-- Take up how far a consumer says it is; its own outgoing streams are skipped. -/
def countConsumed (conn : StreamingConnectionState) (name : PartitionName)
    (consumed : List (SignalName × ℕ)) : StreamingConnectionState :=
  if conn.connection.fromPartition = name then conn
  else
    { conn with
      consumedCount := max conn.consumedCount (lookupD consumed conn.connection.edgeName 0) }

end StreamingConnectionState

/-- The walk a report leaves its partition in: the stream moves the walk of a
producer-triggered partition, and the conductor follows. -/
def followWalk (cfg : Config) (ps : PartitionState) (body : WorkerGraphsDone) : PartitionState :=
  if body.partitionName ∈ cfg.producerTriggeredPartitions then
    match body.graphWalk with
    | none => ps
    | some walk => if walk ≠ ps.graphWalk then ps.setWalk cfg walk else ps
  else ps

/-- Count one report for a worker graph, complete once it has as many as
ranks. The graph's ranks are looked up, and an unknown graph raises. -/
def countCompletion (cfg : Config) (ps : PartitionState) (wg : WorkerGraphId) :
    Option PartitionState :=
  (cfg.workerGraphToWorkers.lookup wg).map fun workers =>
    { ps with
      wgRankCompletions :=
        Function.update ps.wgRankCompletions wg (ps.wgRankCompletions wg + 1)
      completedWorkerGraphIds :=
        if workers.length ≤ ps.wgRankCompletions wg + 1 then
          insert wg ps.completedWorkerGraphIds
        else ps.completedWorkerGraphIds }

/-- Count one report for every worker graph it names. -/
def countCompletions (cfg : Config) (ps : PartitionState) (wgs : List WorkerGraphId) :
    Option PartitionState :=
  wgs.foldlM (countCompletion cfg) ps

namespace RequestData

/-- Replace one partition's state. -/
def setState (req : RequestData) (name : PartitionName) (ps : PartitionState) : RequestData :=
  { req with partitionStates := Function.update req.partitionStates name ps }

/-- Count what a report's worker sent, for whatever partition it reports. -/
def countSent (req : RequestData) (body : WorkerGraphsDone) : RequestData :=
  { req with
    outputChunkCounts := countChunks req.outputChunkCounts body.outputSignalNames
    streamingConnections := req.streamingConnections.map (·.countItems body.streamItemsSent) }

/-- Count what only the first rank of a group reports. -/
def countReplicated (req : RequestData) (body : WorkerGraphsDone) : RequestData :=
  if body.isFirstTpRank then
    let ps := req.partitionStates body.partitionName
    { req with
      partitionStates := Function.update req.partitionStates body.partitionName
        { ps with
          numOutputTokens := ps.numOutputTokens + (body.newTokenCounts.map (·.2)).sum }
      streamingConnections := req.streamingConnections.map fun conn =>
        (body.newTokenCounts.foldl (·.countTokens body.partitionName) conn).countConsumed
          body.partitionName body.streamTokensConsumed }
  else req

/-- Latch that the partition ends, whichever report says so. -/
def latchDone (req : RequestData) (body : WorkerGraphsDone) : RequestData :=
  let ps := req.partitionStates body.partitionName
  req.setState body.partitionName
    { ps with workerReportedDone := ps.workerReportedDone || body.partitionDone }

/-- Apply one report. What it returns are the partitions whose pass is
complete with it, and nothing where it raises. -/
def processWorkerGraphsDone (cfg : Config) (req : RequestData) (body : WorkerGraphsDone) :
    Option (RequestData × List PartitionName) :=
  let req := req.countSent body
  if body.partitionName ∉ cfg.partitionNames then some (req, [])
  else
    let req := (req.latchDone body).countReplicated body
    let ps := followWalk cfg (req.partitionStates body.partitionName) body
    (countCompletions cfg ps body.workerGraphIds).map fun ps =>
      (req.setState body.partitionName ps,
        if ps.currentWorkerGraphIds ⊆ ps.completedWorkerGraphIds then [body.partitionName]
        else [])

/-- Every partition has ended. -/
def allDone (cfg : Config) (req : RequestData) : Bool :=
  cfg.partitionNames.all fun name => (req.partitionStates name).isDone

/-- Tell one consumer of an ended partition, once however many streams lead
there. The consumers told so far are carried along. -/
def signalProducerDone (req : RequestData) (name : PartitionName)
    (told : List PartitionName × List Sent) (conn : StreamingConnectionState) :
    List PartitionName × List Sent :=
  if conn.connection.fromPartition = name
      ∧ (req.partitionStates conn.connection.toPartition).isDone = false
      ∧ conn.connection.toPartition ∉ told.1 then
    (told.1 ++ [conn.connection.toPartition],
      told.2 ++ [.producerDone name conn.connection.toPartition])
  else told

/-- End a partition and tell everyone who fed on it. -/
def endPartition (cfg : Config) (req : RequestData) (name : PartitionName) : RequestData :=
  let req := req.setState name { req.partitionStates name with isDone := true }
  let ended := (cfg.clientStreams.filter (·.2 = name)).map (·.1)
  { req with
    sent := req.sent ++ (if ended = [] then [] else [.clientRoute ended])
      ++ (req.streamingConnections.foldl (req.signalProducerDone name) ([], [])).2
    streamingConnections := req.streamingConnections.map fun conn =>
      if conn.connection.fromPartition = name then { conn with producerDone := true } else conn }

/-- Send a partition the inputs the model chose. -/
def sendPartitionInputs (req : RequestData) (name : PartitionName) (fwd : ForwardArgs) :
    RequestData :=
  if fwd.inputs = [] then req
  else
    { req with
      sent := req.sent ++ [.inputs name fwd.graphWalk (req.partitionStates name).fwdPassNumber
        fwd.inputs] }

/-- Start the count of the next pass. -/
def resetPass (cfg : Config) (req : RequestData) (name : PartitionName) (walk : WalkName) :
    RequestData :=
  let ps := req.partitionStates name
  req.setState name
    { ps with
      graphWalk := walk
      completedWorkerGraphIds := ∅
      currentWorkerGraphIds := cfg.workerGraphsOf walk
      wgRankCompletions := fun _ => 0
      workerReportedDone := false
      fwdPassNumber := ps.fwdPassNumber + 1 }

/-- The partition ends with this pass: the model says so, a worker does, or it
has put out its tokens. -/
def endsWith (cfg : Config) (ps : PartitionState) (fwd : ForwardArgs) : Bool :=
  fwd.requestDone || ps.workerReportedDone || decide (cfg.maxOutputTokens ≤ ps.numOutputTokens)

/-- Advance a partition whose pass is complete. What it returns is whether the
whole request is done, and nothing where the model raises. -/
def processDoneForward (cfg : Config) (req : RequestData) (name : PartitionName) :
    Option (RequestData × Bool) :=
  let ps := req.partitionStates name
  if ps.isDone then some (req, req.allDone cfg)
  else
    let ended := decide (name ∈ cfg.streamFedPartitions) && ps.workerReportedDone
    let req := req.setState name { ps with isDone := ended }
    (cfg.forward req.calls).map fun fwd =>
      let req := { req with calls := req.calls + 1 }
      let req :=
        if endsWith cfg ps fwd then req.endPartition cfg name
        else req.sendPartitionInputs name fwd
      let req := req.resetPass cfg name fwd.graphWalk
      (req, req.allDone cfg)

end RequestData

end Mstar.Passes
