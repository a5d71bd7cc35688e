import Mathlib.Data.List.Range
import Mstar.Histories
import Mstar.PassCounting

/-!
# Ranks, reports and turns

Ranks put out chunks and send reports on their own way to the conductor, which
takes them one by one and works off the passes they complete at the end of
each turn. What was heard and what was advanced is kept in full.
-/

namespace Mstar.Passes

/-- A report on its way, and what its rank knows of it. -/
structure Delivery where
  /-- The report. -/
  body : WorkerGraphsDone
  /-- The rank that sent it. -/
  sender : Rank
  /-- The pass it reports, counted from one. -/
  pass : ℕ
  /-- How many chunks the rank had put out when it sent it. -/
  soFar : ℕ
  deriving DecidableEq, Repr

/-- One advance of a partition. -/
structure Advance where
  /-- The partition. -/
  partition : PartitionName
  /-- The pass that ended, counted from one. -/
  pass : ℕ
  /-- The walk of that pass. -/
  walk : WalkName
  /-- How many reports had been heard. -/
  heardBefore : ℕ
  deriving DecidableEq, Repr

/-- Where a request stands. -/
inductive Phase where
  /-- It is being served. -/
  | running
  /-- It was declared complete. -/
  | complete
  /-- Something raised, and it is being torn down. -/
  | failed
  deriving DecidableEq, Repr

/-- One request at the conductor, and the ranks that serve it. -/
structure World where
  /-- What the conductor holds of it. -/
  request : RequestData
  /-- Where it stands. -/
  phase : Phase
  /-- The partitions whose pass was completed in this turn. -/
  donePartitionForwards : List PartitionName
  /-- An advance of this turn ended the last partition. -/
  completed : Bool
  /-- The reports each rank has sent and the conductor has not taken. -/
  inFlight : Rank → List Delivery
  /-- The chunks each rank put out since its last report. -/
  pending : Rank → List SignalName
  /-- All chunks each rank put out. -/
  emitted : Rank → List SignalName
  /-- The reports applied, oldest first. -/
  heard : List Delivery
  /-- The advances, oldest first. -/
  advances : List Advance

/-- What happens next. -/
inductive Event where
  /-- A rank puts out a chunk. -/
  | emit (rank : Rank) (name : SignalName)
  /-- A rank sends a report of a pass, with the chunks since its last one. -/
  | report (rank : Rank) (pass : ℕ) (body : WorkerGraphsDone)
  /-- The conductor takes the oldest report of a rank. -/
  | hear (rank : Rank)
  /-- The conductor has taken all messages at hand and ends its turn. -/
  | turn
  deriving DecidableEq, Repr

namespace World

/-- A request that was just registered. -/
def start (cfg : Config) : World :=
  ⟨cfg.newRequest, .running, [], false, fun _ => [], fun _ => [], fun _ => [], [], []⟩

/-- A rank sends a report, which takes along the chunks put out since the last. -/
def send (w : World) (rank : Rank) (pass : ℕ) (body : WorkerGraphsDone) : World :=
  { w with
    inFlight := Function.update w.inFlight rank (w.inFlight rank ++
      [⟨{ body with outputSignalNames := w.pending rank }, rank, pass,
        (w.emitted rank).length⟩])
    pending := Function.update w.pending rank [] }

/-- Apply a report. A request that is not running ignores it. -/
def take (cfg : Config) (w : World) (δ : Delivery) : World :=
  match w.phase with
  | .running =>
    match w.request.processWorkerGraphsDone cfg δ.body with
    | none => { w with phase := .failed }
    | some (request, donePartitions) =>
      { w with
        request := request
        donePartitionForwards := w.donePartitionForwards ++ donePartitions
        heard := w.heard ++ [δ] }
  | _ => w

/-- Take the oldest report of a rank, if there is one. -/
def hear (cfg : Config) (w : World) (rank : Rank) : World :=
  match w.inFlight rank with
  | [] => w
  | δ :: rest => take cfg { w with inFlight := Function.update w.inFlight rank rest } δ

/-- The advance that an entry of the queue makes; none if its partition ended. -/
def advanceOf (w : World) (name : PartitionName) : List Advance :=
  let ps := w.request.partitionStates name
  if ps.isDone then [] else [⟨name, ps.fwdPassNumber + 1, ps.graphWalk, w.heard.length⟩]

/-- Work off one entry of the queue. -/
def advance (cfg : Config) (w : World) (name : PartitionName) : World :=
  match w.phase with
  | .running =>
    match w.request.processDoneForward cfg name with
    | none => { w with phase := .failed }
    | some (request, allDone) =>
      { w with
        request := request
        completed := w.completed || allDone
        advances := w.advances ++ w.advanceOf name }
  | _ => w

/-- Work off the oldest entry of the queue. -/
def next (cfg : Config) (w : World) : World :=
  match w.donePartitionForwards with
  | [] => w
  | name :: rest => advance cfg { w with donePartitionForwards := rest } name

/-- Work off the queue. -/
def drain (cfg : Config) (w : World) : World :=
  (next cfg)^[w.donePartitionForwards.length] w

/-- Declare the request complete if an advance of this turn says so. -/
def finish (w : World) : World :=
  match w.phase with
  | .running => { w with phase := if w.completed then .complete else .running, completed := false }
  | _ => { w with completed := false }

/-- What one event does. -/
def step (cfg : Config) (w : World) : Event → World
  | .emit rank name =>
    { w with
      pending := Function.update w.pending rank (w.pending rank ++ [name])
      emitted := Function.update w.emitted rank (w.emitted rank ++ [name]) }
  | .report rank pass body => w.send rank pass body
  | .hear rank => w.hear cfg rank
  | .turn => (w.drain cfg).finish

/-- What a run of events comes to. -/
def run (cfg : Config) (events : List Event) : World :=
  events.foldl (step cfg) (start cfg)

end World

/-- The report is one of a partition's pass. -/
def Delivery.isOf (name : PartitionName) (pass : ℕ) (δ : Delivery) : Prop :=
  δ.body.partitionName = name ∧ δ.pass = pass

instance (name : PartitionName) (pass : ℕ) (δ : Delivery) : Decidable (δ.isOf name pass) :=
  inferInstanceAs (Decidable (_ ∧ _))

/-- The report counts for a worker graph in a partition's pass. -/
def Delivery.counts (name : PartitionName) (pass : ℕ) (wg : WorkerGraphId) (δ : Delivery) :
    Prop :=
  δ.isOf name pass ∧ wg ∈ δ.body.workerGraphIds

instance (name : PartitionName) (pass : ℕ) (wg : WorkerGraphId) (δ : Delivery) :
    Decidable (δ.counts name pass wg) :=
  inferInstanceAs (Decidable (_ ∧ _))

/-- Every rank of every worker graph of the walk has reported the pass. -/
def AllReported (cfg : Config) (heard : List Delivery) (name : PartitionName) (pass : ℕ)
    (walk : WalkName) : Prop :=
  ∀ wg ∈ cfg.workerGraphsOf walk, ∀ workers ∈ cfg.workerGraphToWorkers.lookup wg,
    ∀ rank ∈ workers, ∃ δ ∈ heard, δ.sender = rank ∧ δ.counts name pass wg

/-- The chunks that a rank's applied reports name, in order. -/
def countedChunks (heard : List Delivery) (rank : Rank) : List SignalName :=
  (heard.filter (·.sender = rank)).flatMap (·.body.outputSignalNames)

/-- A report that a rank of the deployment sends in its turn: it names worker
graphs of the pass's walk that the rank is part of, each once in a pass, and
passes in order. -/
structure Proper (cfg : Config) (w : World) (δ : Delivery) : Prop where
  /-- The partition is one of the model's. -/
  known : δ.body.partitionName ∈ cfg.partitionNames
  /-- It reports some worker graph. -/
  names : δ.body.workerGraphIds ≠ []
  /-- It names each once. -/
  nodup : δ.body.workerGraphIds.Nodup
  /-- Its sender is a rank of each. -/
  placed : ∀ wg ∈ δ.body.workerGraphIds,
    ∃ workers ∈ cfg.workerGraphToWorkers.lookup wg, δ.sender ∈ workers
  /-- Each is a worker graph of the walk the pass runs under. -/
  ofWalk : ∀ wg ∈ δ.body.workerGraphIds, wg ∈ cfg.workerGraphsOf
    (followWalk cfg (w.request.partitionStates δ.body.partitionName) δ.body).graphWalk
  /-- All reports of a pass name the same walk. -/
  sameWalk : ∀ ε ∈ w.heard, ε.isOf δ.body.partitionName δ.pass →
    ε.body.graphWalk = δ.body.graphWalk
  /-- The rank has reported nothing of a later pass, and no worker graph twice. -/
  inOrder : ∀ ε ∈ w.heard, ε.sender = δ.sender →
    ε.body.partitionName = δ.body.partitionName →
      ε.pass < δ.pass ∨
        ε.pass = δ.pass ∧ List.Disjoint ε.body.workerGraphIds δ.body.workerGraphIds

/-- The report is one of the pass being counted, or its partition has ended. -/
def Timely (w : World) (δ : Delivery) : Prop :=
  let ps := w.request.partitionStates δ.body.partitionName
  ps.isDone = false → δ.pass = ps.fwdPassNumber + 1

/-- What every report that reaches a running request satisfies. -/
def Hears (P : World → Delivery → Prop) (w : World) : Event → Prop
  | .hear rank => w.phase = .running → ∀ δ ∈ (w.inFlight rank).head?, P w δ
  | _ => True

/-- What every report that reaches the request in a run satisfies. -/
def HearsIn (cfg : Config) (P : World → Delivery → Prop) (events : List Event) : Prop :=
  Always (fun before event => Hears P (World.run cfg before) event) events

end Mstar.Passes
