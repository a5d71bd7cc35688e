import Mstar.LoopStops

/-!
# Workers that stop each other's loops

One request on several workers: their worker graphs, which of them are live
in each partition, the stops each worker has recorded, and every stop message
ever sent. A message can be delivered late, again or out of order.
-/

namespace Mstar.Walk

open Shard (Sym TensorRef)
open RequestState

/-- An index into a worker's graphs. -/
abbrev WgIndex := ℕ

/-- What is static about a request's workers. -/
structure Deployment where
  /-- The worker graphs of each worker. -/
  graph : ℕ → WgIndex → CompiledGraph
  /-- The worker graphs of a worker that the request runs in a walk. -/
  walkGraphs : ℕ → Sym → List WgIndex
  /-- The worker graph of a worker that runs a node in a walk. -/
  ownerOf : ℕ → Sym → Sym → Option WgIndex
  /-- The workers that carry a loop in a walk. -/
  dynLoopToWorkers : Sym → Sym → Option (List ℕ)
  /-- The partitions of a worker, with their first walks. -/
  partitions : ℕ → List (Sym × Sym)
  /-- The names of the loops around those of a name. -/
  enclosing : Sym → List Sym
  /-- The loops of a graph are a set of names. -/
  names_nodup : ∀ b wg, ((graph b wg).loops.map LoopSpec.name).Nodup
  /-- A name's loops are nested alike. -/
  nested_alike : ∀ b wg, ∀ l < (graph b wg).loops.length,
    aroundNames (graph b wg) l = enclosing ((graph b wg).lp l).name
  /-- A cap is a `u32`. -/
  capped : ∀ b wg l, ((graph b wg).lp l).maxIters ≤ 4294967295

/-- One partition of the request on a worker. -/
structure PartitionInfo where
  graphWalk : Sym
  /-- The worker graphs that are live in the walk. -/
  walkWorkerGraphs : List WgIndex
  deriving DecidableEq

/-- A stop observed for each of some loops. -/
abbrev LoopStopTimes := List (Sym × LoopStopTime)

/-- A loop's stop recorded in place of an older one. -/
def LoopStopTimes.insert (times : LoopStopTimes) (name : Sym) (t : LoopStopTime) : LoopStopTimes :=
  (name, t) :: times.filter fun e => e.1 ≠ name

/-- The request on one worker. -/
structure StopWorker where
  states : WgIndex → RequestState
  partitions : List (Sym × PartitionInfo)
  loopStopTimes : LoopStopTimes

/-- A message to stop loops of a partition: every stop its sender knows of. -/
structure StopLoops where
  partition : Sym
  loopStopTimes : LoopStopTimes
  deriving DecidableEq

namespace StopWorker

variable (D : Deployment) (b : ℕ)

/-- A finish signal at each of some loops that a graph carries. -/
def registerAll (g : CompiledGraph) (names : List Sym) (s : RequestState) : RequestState :=
  names.foldl (fun s name => match g.loopByName name with
    | some l => s.registerLoopFinish l
    | none => s) s

/-- The stop times of those of some loops that a graph carries. -/
def stopTimesOf (g : CompiledGraph) (s : RequestState) (names : List Sym) : LoopStopTimes :=
  names.filterMap fun name => (g.loopByName name).map fun l => (name, s.loopStopTime g l)

/-- Stop times recorded one after the other, each in place of an older one. -/
def recordAll (stops times : LoopStopTimes) : LoopStopTimes :=
  stops.foldl (fun times x => times.insert x.1 x.2) times

/-- `stop_loops_for_rid`: a finish signal on every live worker graph of the
partition, and the stop times of the one that owns the last node run. -/
def stopLoopsForRid (w : StopWorker) (partition : Sym) (names : List Sym)
    (lastNodeRun : Option Sym) : StopWorker :=
  match w.partitions.lookup partition with
  | none => w
  | some part =>
    let states := fun wg => if wg ∈ part.walkWorkerGraphs then
      registerAll (D.graph b wg) names (w.states wg) else w.states wg
    match lastNodeRun.bind fun node => D.ownerOf b node part.graphWalk with
    | none => { w with states := states }
    | some owner => { w with
        states := states
        loopStopTimes := recordAll (stopTimesOf (D.graph b owner) (states owner) names)
          w.loopStopTimes }

/-- The stops of a message that are later than the recorded ones, recorded,
and their loops. -/
def recordNewer : LoopStopTimes → LoopStopTimes → List Sym × LoopStopTimes
  | [], times => ([], times)
  | (name, t) :: rest, times =>
    if t.laterThan (times.lookup name) name then
      let (newer, times) := recordNewer rest (times.insert name t)
      (name :: newer, times)
    else recordNewer rest times

/-- `apply_peer_loop_stops`. -/
def applyPeerLoopStops (w : StopWorker) (m : StopLoops) : StopWorker :=
  match w.partitions.lookup m.partition with
  | none => w
  | some _ =>
    let (newer, times) := recordNewer m.loopStopTimes w.loopStopTimes
    let w := { w with loopStopTimes := times }
    if newer = [] then w else w.stopLoopsForRid D b m.partition newer none

/-- The workers that carry a loop in a partition's walk. -/
def dynLoopWorkers (w : StopWorker) (partition name : Sym) : Option (List ℕ) :=
  (w.partitions.lookup partition).bind fun part => D.dynLoopToWorkers name part.graphWalk

/-- The loops to stop that the partition's walk has. -/
def wanted (w : StopWorker) (partition : Sym) (names : List Sym) : List Sym :=
  names.filter fun name => (w.dynLoopWorkers D partition name).isSome

/-- `set_walk`, which does nothing when the walk stays. -/
def setWalk (w : StopWorker) (partition walk : Sym) : StopWorker :=
  { w with partitions := w.partitions.map fun e =>
      if e.1 = partition ∧ e.2.graphWalk ≠ walk then (e.1, ⟨walk, D.walkGraphs b walk⟩) else e }

/-- A worker graph is live in one of the partitions. -/
def Live (w : StopWorker) (wg : WgIndex) : Prop := ∃ e ∈ w.partitions, wg ∈ e.2.walkWorkerGraphs

/-- The stops that a worker observes when it stops loops after a node ran. -/
def observedStops (w : StopWorker) (partition : Sym) (names : List Sym) (lastNodeRun : Sym) :
    LoopStopTimes :=
  match (w.partitions.lookup partition).bind fun part =>
    D.ownerOf b lastNodeRun part.graphWalk with
  | none => []
  | some owner => stopTimesOf (D.graph b owner) (w.states owner) names

end StopWorker

/-- Every worker, and what happened so far. -/
structure StopWorld where
  workers : ℕ → StopWorker
  /-- The messages sent, with their destinations. -/
  sent : List (ℕ × StopLoops)
  /-- The messages that reached a worker with their partition. -/
  arrived : List (ℕ × StopLoops)
  /-- The stops that workers observed themselves. -/
  observed : List (ℕ × Sym × LoopStopTime)

/-- What can happen. -/
inductive StopOp
  /-- Something happens to a worker graph. -/
  | graph (b : ℕ) (wg : WgIndex) (op : GraphOp)
  /-- A worker stops loops after a node ran, and tells the other workers. -/
  | stop (b : ℕ) (partition lastNodeRun : Sym) (names : List Sym)
  /-- A message that was sent arrives. -/
  | deliver (b : ℕ) (m : StopLoops)
  /-- A partition goes on to another walk. -/
  | setWalk (b : ℕ) (partition walk : Sym)

namespace StopWorld

variable (D : Deployment)

/-- The request before anything arrives. -/
def start : StopWorld where
  workers b :=
    { states := fun wg => .new (D.graph b wg)
      partitions := (D.partitions b).map fun e => (e.1, ⟨e.2, D.walkGraphs b e.2⟩)
      loopStopTimes := [] }
  sent := []
  arrived := []
  observed := []

/-- One worker replaced. -/
def setWorker (w : StopWorld) (b : ℕ) (wk : StopWorker) : StopWorld :=
  { w with workers := Function.update w.workers b wk }

/-- `stop_loops_frames` of one request: stops of loops that the walk lacks are
dropped, and the sender does not tell itself. -/
def stopLoops (w : StopWorld) (b : ℕ) (partition lastNodeRun : Sym) (names : List Sym) :
    StopWorld :=
  let wanted := (w.workers b).wanted D partition names
  if wanted = [] then w
  else
    let wk := (w.workers b).stopLoopsForRid D b partition wanted (some lastNodeRun)
    let peers := wanted.flatMap fun name => (wk.dynLoopWorkers D partition name).getD []
    let frames := (peers.dedup.filter (· ≠ b)).map fun peer => (peer, ⟨partition, wk.loopStopTimes⟩)
    let observed := (w.workers b).observedStops D b partition wanted lastNodeRun
    { w.setWorker b wk with
      sent := w.sent ++ frames
      observed := observed.map (b, ·) ++ w.observed }

/-- What happens. -/
def step (w : StopWorld) : StopOp → StopWorld
  | .graph b wg op => w.setWorker b { w.workers b with
      states := Function.update (w.workers b).states wg (op.apply (D.graph b wg)
        ((w.workers b).states wg)) }
  | .stop b partition lastNodeRun names => w.stopLoops D b partition lastNodeRun names
  | .deliver b m => { w.setWorker b ((w.workers b).applyPeerLoopStops D b m) with
      arrived := if ((w.workers b).partitions.lookup m.partition).isSome then (b, m) :: w.arrived
        else w.arrived }
  | .setWalk b partition walk => w.setWorker b ((w.workers b).setWalk D b partition walk)

/-- When it can happen. A message arrives where it was sent to, any number of
times. -/
def Enabled (w : StopWorld) : StopOp → Prop
  | .graph _ _ op => op.Enabled
  | .deliver b m => (b, m) ∈ w.sent
  | .stop .. | .setWalk .. => True

/-- A worker observed a stop itself, or a message with it reached it. -/
def Known (w : StopWorld) (b : ℕ) (x : Sym × LoopStopTime) : Prop :=
  (b, x) ∈ w.observed ∨ ∃ m, (b, m) ∈ w.arrived ∧ x ∈ m.loopStopTimes

/-- A stop is later than every stop of its loop that a worker knows. -/
def News (w : StopWorld) (b : ℕ) (x : Sym × LoopStopTime) : Prop :=
  ∀ t, w.Known b (x.1, t) → x.2.laterThan (some t) x.1 = true

/-- The stops that a worker knows are of no later run than a worker graph's,
and of the same one only if the loop is ending. -/
def CaughtUp (w : StopWorld) (b : ℕ) (wg : WgIndex) : Prop :=
  ∀ l < (D.graph b wg).loops.length, ∀ t, w.Known b (((D.graph b wg).lp l).name, t) →
    t.key (D.enclosing ((D.graph b wg).lp l).name) ≤
        ((w.workers b).states wg).clock (D.graph b wg) l ∧
      (t.key (D.enclosing ((D.graph b wg).lp l).name) =
        ((w.workers b).states wg).clock (D.graph b wg) l → ((w.workers b).states wg).Ending l)

/-- Where a worker observes a stop of a loop, it knows of no later one, and
every live worker graph with the loop belongs to the partition and is in the
stop's run. -/
def StopsOneRun (w : StopWorld) (b : ℕ) (partition node : Sym) (names : List Sym) : Prop :=
  ∀ x ∈ (w.workers b).observedStops D b partition names node,
    (∀ t, w.Known b (x.1, t) → t.laterThan (some x.2) x.1 = false) ∧
    ∀ wg, (w.workers b).Live wg → ∀ l < (D.graph b wg).loops.length,
      ((D.graph b wg).lp l).name = x.1 →
        (∃ part ∈ (w.workers b).partitions.lookup partition, wg ∈ part.walkWorkerGraphs) ∧
          SameRun (D.graph b wg) ((w.workers b).states wg) l x.2

/-- Where a message has news of a loop, every live worker graph with the loop
belongs to the message's partition and is in the stop's run. -/
def ComesInTime (w : StopWorld) (b : ℕ) (m : StopLoops) : Prop :=
  ∀ x ∈ m.loopStopTimes, w.News b x → ∀ wg, (w.workers b).Live wg →
    ∀ l < (D.graph b wg).loops.length, ((D.graph b wg).lp l).name = x.1 →
      (∃ part ∈ (w.workers b).partitions.lookup m.partition, wg ∈ part.walkWorkerGraphs) ∧
        x.2.key (D.enclosing x.1) = ((w.workers b).states wg).clock (D.graph b wg) l

/-- A step at which news of a loop come in the run they are of, no pass number
wraps around, and no walk starts behind a stop that is known. -/
def Timely (w : StopWorld) : StopOp → Prop
  | .graph b wg _ => ((w.workers b).states wg).numTimesRun + 1 < 2 ^ 32
  | .stop b partition node names =>
    w.StopsOneRun D b partition node ((w.workers b).wanted D partition names)
  | .deliver b m => w.ComesInTime D b m
  | .setWalk b partition walk =>
    ∀ wg, ((w.workers b).setWalk D b partition walk).Live wg → w.CaughtUp D b wg

/-- The worlds that runs lead to whose steps all meet a condition. -/
inductive Reachable (cond : StopWorld → StopOp → Prop) : StopWorld → Prop
  | start : Reachable cond (start D)
  | step {w : StopWorld} {op : StopOp} : Reachable cond w → w.Enabled op → cond w op →
      Reachable cond (w.step D op)

end StopWorld

end Mstar.Walk
