import Mstar.LoopTurns

/-!
# Loops as they are asked to run

What a loop is for, without the counters and caches that implement it. A loop
keeps what its entities made this iteration and in the earlier ones of its
run. An iteration is complete when each entity is; then the loop ends, if a
finish signal is set or its count reaches the cap, and otherwise goes on. A
loop that ends hands what it made to the loop around it.
-/

namespace Mstar.Walk

open Shard (Sym TensorRef)

/-- What a loop, or the worker graph itself, waits for. -/
inductive Entity
  | node (n : NodeId)
  | loop (l : LoopId)
  deriving DecidableEq

namespace CompiledGraph

variable (g : CompiledGraph)

/-- The loop an entity is a member of. A root entity is in none. -/
def scope : Entity → Option LoopId
  | .node n => g.loopId n
  | .loop l => (g.lp l).parent

/-- The members of a loop. -/
def entities (l : LoopId) : List Entity :=
  (g.lp l).memberNodes.map .node ++ (g.childLoops l).map .loop

/-- The members of the worker graph that are in no loop. -/
def rootEntities : List Entity := g.rootNodes.map .node ++ g.rootLoops.map .loop

/-- A node and the loops around it. -/
def entitiesAround (n : NodeId) : List Entity := .node n :: (g.enclosing n).map .loop

/-- What a graph was checked for before it was compiled, and in compiling. -/
structure Checked : Prop where
  /-- A node is claimed once. -/
  members_nodup : ∀ l, (g.lp l).memberNodes.Nodup
  /-- The outputs and the accumulated outputs are disjoint by name. -/
  outputs_disjoint : ∀ l, ∀ name ∈ (g.lp l).accumNames, name ∉ (g.lp l).outputNames
  /-- A cap is a `u32`. -/
  max_iters : ∀ l, (g.lp l).maxIters ≤ 4294967295

end CompiledGraph

/-- An entity that completed, with the edges it put out. -/
abbrev Production := Entity × List RoutedEdge

/-- The tensors an entity put out under a name. A name that goes to several
nodes carries the same tensors to each. -/
def madeFor (own : List RoutedEdge) (name : Sym) : List TensorRef :=
  ((own.find? (·.name == name)).map RoutedEdge.tensors).getD []

/-- The tensors some entities put out under a name, in the order they completed. -/
def produced (ps : List Production) (name : Sym) : List TensorRef :=
  ps.flatMap fun p => madeFor p.2 name

/-- One run of a loop. -/
structure LoopRun where
  iter : ℕ
  /-- It was asked to finish. -/
  signal : Bool
  /-- What completed this iteration. -/
  round : List Production
  /-- What completed in the earlier iterations. -/
  earlier : List Production

/-- A run that has not begun. -/
def LoopRun.fresh : LoopRun := ⟨0, false, [], []⟩

/-- The loops of a worker graph in one pass. -/
structure LoopNest where
  run : LoopId → LoopRun
  cap : LoopId → ℕ
  /-- The root entities that completed. -/
  roots : List Entity

namespace LoopNest

variable (g : CompiledGraph)

def new : LoopNest := ⟨fun _ => .fresh, fun l => (g.lp l).maxIters, []⟩

/-- What completed in the present iteration of a loop, or in the pass. -/
def completedIn (a : LoopNest) : Option LoopId → List Entity
  | none => a.roots
  | some l => (a.run l).round.map Prod.fst

/-- An entity is marked complete in its loop. -/
def mark (a : LoopNest) (p : Production) : LoopNest :=
  match g.scope p.1 with
  | none => { a with roots := a.roots ++ [p.1] }
  | some l =>
    { a with run := Function.update a.run l { a.run l with round := (a.run l).round ++ [p] } }

/-- Every member of a loop has completed this iteration. -/
def RoundOver (a : LoopNest) (l : LoopId) : Prop :=
  ∀ e ∈ g.entities l, e ∈ a.completedIn (some l)

/-- A loop's run goes on as given, and the loops nested in it start over. -/
def turn (a : LoopNest) (l : LoopId) (r : LoopRun) : LoopNest :=
  { a with run := fun d => if d = l then r else if l ∈ g.around d then .fresh else a.run d }

/-- A loop goes on to its next iteration. -/
def advance (a : LoopNest) (l : LoopId) (stride : ℕ) : LoopNest :=
  a.turn g l { a.run l with
    iter := (a.run l).iter + stride
    round := []
    earlier := (a.run l).earlier ++ (a.run l).round }

/-- A loop ends. Its count and its finish signal stay until the loop around
it turns. -/
def finish (a : LoopNest) (l : LoopId) : LoopNest :=
  a.turn g l { a.run l with round := [], earlier := [] }

/-- What a loop that ends puts out: each output with what the last iteration
made for it, each accumulated output with what every iteration made. -/
def results (a : LoopNest) (l : LoopId) : List RoutedEdge :=
  (g.lp l).outputs.map (fun o => routed o (produced (a.run l).round o.name)) ++
    (g.lp l).accumulated.map fun o =>
      routed o (produced ((a.run l).earlier ++ (a.run l).round) o.name)

/-- An entity completes: the loops after it, the edges to route and the loops
that turned. `own` are its edges, after the edges `out` of the same event,
and `saved` the inputs a loop re-injects. -/
inductive Completion (saved : LoopId → List (Sym × NodeId × List TensorRef)) :
    LoopNest → Production → ℕ → List RoutedEdge → LoopNest → List RoutedEdge → List LoopId → Prop
  /-- A root entity is marked complete. -/
  | root {a : LoopNest} {e : Entity} {own out : List RoutedEdge} {stride : ℕ}
      (hscope : g.scope e = none) :
      Completion saved a (e, own) stride out (a.mark g (e, own)) (out ++ own) []
  /-- Some entity of the loop is still to complete. -/
  | waits {a : LoopNest} {e : Entity} {own out : List RoutedEdge} {stride : ℕ} {l : LoopId}
      (hscope : g.scope e = some l) (hround : ¬ (a.mark g (e, own)).RoundOver g l) :
      Completion saved a (e, own) stride out (a.mark g (e, own)) (out ++ own) []
  /-- The iteration is complete and not the last. -/
  | advances {a : LoopNest} {e : Entity} {own out : List RoutedEdge} {stride : ℕ} {l : LoopId}
      (hscope : g.scope e = some l) (hround : (a.mark g (e, own)).RoundOver g l)
      (hsignal : (a.run l).signal = false) (hcap : (a.run l).iter + stride < a.cap l) :
      Completion saved a (e, own) stride out ((a.mark g (e, own)).advance g l stride)
        (out ++ own ++ (saved l).map (RequestState.reinject g)) [l]
  /-- The iteration is complete and the last: what loops back is dropped, and
  the loop completes in the loop around it with its results. -/
  | ends {a a' : LoopNest} {e : Entity} {own out edges : List RoutedEdge} {stride : ℕ} {l : LoopId}
      {turned : List LoopId}
      (hscope : g.scope e = some l) (hround : (a.mark g (e, own)).RoundOver g l)
      (hlast : (a.run l).signal = true ∨ a.cap l ≤ (a.run l).iter + stride)
      (hparent : Completion saved ((a.mark g (e, own)).finish g l)
        (.loop l, (a.mark g (e, own)).results g l) 1
        (RequestState.dropLoopBack g l (out ++ own)) a' edges turned) :
      Completion saved a (e, own) stride out a' edges (l :: turned)

/-- A node may complete: neither it nor a loop around it has completed in the
iteration it is in. -/
def MayComplete (a : LoopNest) (n : NodeId) : Prop :=
  n < g.nodes.length ∧ ∀ e ∈ g.entitiesAround n, e ∉ a.completedIn (g.scope e)

instance (a : LoopNest) (n : NodeId) : Decidable (a.MayComplete g n) :=
  inferInstanceAs (Decidable (_ ∧ _))

/-- Each root entity has completed. -/
def PassOver (a : LoopNest) : Prop := ∀ e ∈ g.rootEntities, e ∈ a.roots

instance (a : LoopNest) : Decidable (a.PassOver g) :=
  inferInstanceAs (Decidable (∀ e ∈ g.rootEntities, e ∈ a.roots))

/-- The pass that comes after a completion: a new one, if this one is over. -/
def settled (a : LoopNest) : LoopNest :=
  if a.PassOver g then { a with run := fun _ => .fresh, roots := [] } else a

/-- A loop is asked to finish. -/
def ask (a : LoopNest) (l : LoopId) : LoopNest :=
  { a with run := Function.update a.run l { a.run l with signal := true } }

/-- An event that completes nothing moves a loop's cap at most. -/
def follow (a : LoopNest) : GraphOp → LoopNest
  | .capLoop l cap => { a with cap := Function.update a.cap l (min (a.cap l) cap) }
  | .setLoopCap l cap => { a with cap := Function.update a.cap l cap }
  | _ => a

/-- The run goes on in step: the walk as the code takes it, and its loops. -/
inductive InStep : RequestState → LoopNest → Prop
  | new : InStep (.new g) (new g)
  /-- An event that completes nothing. -/
  | other {s : RequestState} {a : LoopNest} {op : GraphOp} (h : InStep s a) (he : op.Enabled)
      (hop : ∀ n outTensors stride, op ≠ .complete n outTensors stride) :
      InStep (op.apply g s) (a.follow op)
  /-- A finish signal. -/
  | signal {s : RequestState} {a : LoopNest} (h : InStep s a) (l : LoopId) :
      InStep (s.registerLoopFinish l) (a.ask l)
  /-- A node completes, and a worker graph that is done is reset. -/
  | complete {s : RequestState} {a a' : LoopNest} {n : NodeId}
      {outTensors : List (List TensorRef)} {stride : ℕ} {edges : List RoutedEdge}
      {turned : List LoopId} (h : InStep s a) (hn : a.MayComplete g n)
      (hc : Completion g (fun l => (s.loops l).extInputs) a
        (.node n, RequestState.nodeOutputs g n outTensors) stride [] a' edges turned) :
      InStep ((GraphOp.complete n outTensors stride).apply g s) (a'.settled g)

end LoopNest

end Mstar.Walk
