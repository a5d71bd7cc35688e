import Mathlib.Algebra.Order.Ring.Int
import Mathlib.Logic.Function.Basic
import Mathlib.Data.List.Basic

/-!
# Admission

A request starts on a node once every resource of the node that asks has
reserved for it. A request that must wait is queued at each resource it asked,
in the order requests first asked anything, and is tried when it is first in all
its queues and none of these resources refused its first request since it last
grew. The resources are a parameter, each with a state of its own; what admission
relies on is `Contract`.
-/

namespace Mstar

/-- A resource's answer to a request that would start. -/
inductive Answer (Fault : Type) where
  /-- The request needs none of the resource's capacity. -/
  | served
  /-- It waits for capacity (`ASKS`). -/
  | asks
  /-- It can never fit. -/
  | fails (reason : Fault)

/-- What admission calls of a resource. -/
structure Resource (Rid Node Walk Info State Mark Fault : Type) where
  /-- Whether a request needs the resource's capacity to start on a node. -/
  ask : State → Rid → Node → Walk → Answer Fault × State
  /-- What a request asked taken, or a mark of what it didn't fit against. -/
  reserve : State → Rid → Node → Walk → Option Info → Option Mark × State
  /-- What `reserve` took given back. -/
  unreserve : State → Rid → State
  /-- Whether a request that didn't fit against a mark may fit now. -/
  grewSince : State → Mark → Bool

section Resources

variable {Rid Node Walk Info State Mark Fault Key : Type}

/-- What admission relies on: a resource holds what it reserved until it is given
back, asks only for a request it holds nothing for, and has not grown past a
mark it just refused a request at. -/
structure Contract (r : Resource Rid Node Walk Info State Mark Fault)
    (holds : State → Rid → Prop) : Prop where
  /-- Asking reserves nothing. -/
  ask_holds : ∀ s rid node walk rid', holds (r.ask s rid node walk).2 rid' ↔ holds s rid'
  /-- A request that is held for asks no more. -/
  asks : ∀ s rid node walk, (r.ask s rid node walk).1 = .asks → ¬ holds s rid
  /-- A reservation is for the request alone. -/
  reserved : ∀ s rid node walk info rid', (r.reserve s rid node walk info).1 = none →
    (holds (r.reserve s rid node walk info).2 rid' ↔ holds s rid' ∨ rid' = rid)
  /-- A refusal takes nothing. -/
  refused : ∀ s rid node walk info mark rid', (r.reserve s rid node walk info).1 = some mark →
    (holds (r.reserve s rid node walk info).2 rid' ↔ holds s rid')
  /-- A resource that just refused has not grown since. -/
  not_grown : ∀ s rid node walk info mark, (r.reserve s rid node walk info).1 = some mark →
    r.grewSince (r.reserve s rid node walk info).2 mark = false
  /-- Giving back is for the request alone. -/
  unreserved : ∀ s rid rid', holds (r.unreserve s rid) rid' ↔ holds s rid' ∧ rid' ≠ rid

/-- What a request had published for a node, by resource. -/
abbrev Published (Key Info : Type) := Option (Key → Option Info)

/-- A waiting request: who asked each resource it waits for, and every node that
waits on it, with what the request had published for that node then. -/
structure Waiting (Node Walk Key Info : Type) where
  asked : List (Key × Node × Walk)
  nodes : List Node
  published : Node → Published Key Info

/-- The resources a request waits for. -/
def Waiting.keys (entry : Waiting Node Walk Key Info) : List Key := entry.asked.map Prod.fst

/-- The queues of the resources that ask, and the nodes each request was admitted
on, with the resources' own states. -/
structure Admission (Rid Node Walk Info State Mark Key : Type) where
  /-- The number the next request to ask gets. -/
  arrivals : ℕ
  /-- Each request's number, in the order requests first asked. -/
  arrival : Rid → Option ℕ
  /-- What each waiting request asked. -/
  waiting : Rid → Option (Waiting Node Walk Key Info)
  /-- The requests waiting for each resource. -/
  queues : Key → List Rid
  /-- The marks of the resources whose first request didn't fit. -/
  short : Key → Option Mark
  /-- A queue has a new first request that was not tried. -/
  untried : Bool
  /-- The nodes each request was admitted on. -/
  admitted : Rid → List Node
  /-- The other nodes waiting on a request that was admitted during one node's
  check. -/
  started : List (Rid × List Node)
  /-- The resources' states. -/
  state : Key → State

variable [DecidableEq Rid] [DecidableEq Node] [DecidableEq Key]

/-- A set with one more. -/
def add (node : Node) (nodes : List Node) : List Node :=
  if node ∈ nodes then nodes else nodes ++ [node]

/-- A set with some more. -/
def addAll (more nodes : List Node) : List Node := more.foldl (fun nodes node => add node nodes) nodes

/-- `bisect.insort` into a list sorted by `key`. -/
def insort {α : Type} (key : α → ℕ) (x : α) : List α → List α
  | [] => [x]
  | y :: ys => if key x < key y then x :: y :: ys else y :: insort key x ys

namespace Admission

/-- Before any request. -/
def fresh (state : Key → State) : Admission Rid Node Walk Info State Mark Key where
  arrivals := 0
  arrival _ := none
  waiting _ := none
  queues _ := []
  short _ := none
  untried := false
  admitted _ := []
  started := []
  state := state

variable (res : Key → Resource Rid Node Walk Info State Mark Fault)

/-- A request's number. -/
def number (a : Admission Rid Node Walk Info State Mark Key) (rid : Rid) : ℕ :=
  (a.arrival rid).getD 0

/-- A resource's new state. -/
def setState (a : Admission Rid Node Walk Info State Mark Key) (key : Key) (s : State) :
    Admission Rid Node Walk Info State Mark Key :=
  { a with state := Function.update a.state key s }

/-- A request put in a resource's queue at its arrival. Ahead of the request the
mark measured, the mark goes. -/
def parkRequest (a : Admission Rid Node Walk Info State Mark Key) (rid : Rid) (key : Key)
    (node : Node) (walk : Walk) : Admission Rid Node Walk Info State Mark Key :=
  let a := match a.waiting rid with
    | some _ => a
    | none =>
      { a with
        waiting := Function.update a.waiting rid (some ⟨[], [], fun _ => none⟩)
        arrivals := a.arrivals + 1
        arrival := Function.update a.arrival rid (some ((a.arrival rid).getD a.arrivals)) }
  let queue := insort a.number rid (a.queues key)
  { a with
    waiting := Function.update a.waiting rid ((a.waiting rid).map fun entry =>
      { entry with asked := entry.asked ++ [(key, node, walk)] })
    queues := Function.update a.queues key queue
    short := if queue.head? = some rid then Function.update a.short key none else a.short }

/-- A request taken out of the queues of some resources. A queue it was first in
drops its mark, and its next request is left to be tried. -/
def leave (rid : Rid) : List Key → Admission Rid Node Walk Info State Mark Key →
    Admission Rid Node Walk Info State Mark Key
  | [], a => a
  | key :: keys, a =>
    let queue := a.queues key
    let a := if queue.head? = some rid then
        { a with short := Function.update a.short key none, untried := a.untried || 1 < queue.length }
      else a
    leave rid keys { a with queues := Function.update a.queues key (queue.erase rid) }

/-- A request no longer waits. -/
def dequeue (a : Admission Rid Node Walk Info State Mark Key) (rid : Rid) :
    Admission Rid Node Walk Info State Mark Key :=
  match a.waiting rid with
  | none => a
  | some entry => leave rid entry.keys { a with waiting := Function.update a.waiting rid none }

/-- What some resources reserved for a request given back. -/
def giveBack (a : Admission Rid Node Walk Info State Mark Key) (rid : Rid) (taken : List Key) :
    Admission Rid Node Walk Info State Mark Key :=
  taken.foldl (fun a key => a.setState key ((res key).unreserve (a.state key) rid)) a

/-- Everything a request asked taken, or nothing and the first refusal marked. -/
def takeAll (rid : Rid) (publishedOf : Node → Published Key Info) :
    List (Key × Node × Walk) → List Key → Admission Rid Node Walk Info State Mark Key →
      Bool × Admission Rid Node Walk Info State Mark Key
  | [], _, a => (true, a)
  | (key, node, walk) :: asked, taken, a =>
    match (res key).reserve (a.state key) rid node walk ((publishedOf node).bind (· key)) with
    | (some mark, s) =>
      let a := giveBack res (a.setState key s) rid taken
      (false, { a with short := Function.update a.short key (some mark) })
    | (none, s) => takeAll rid publishedOf asked (taken ++ [key]) (a.setState key s)

/-- A request counted as admitted on some nodes. -/
def admitOn (a : Admission Rid Node Walk Info State Mark Key) (rid : Rid) (nodes : List Node) :
    Admission Rid Node Walk Info State Mark Key :=
  { a with admitted := Function.update a.admitted rid (addAll nodes (a.admitted rid)) }

/-- A waiting request admitted on the nodes that wait on it, which are returned,
or nothing taken. -/
def reserve (a : Admission Rid Node Walk Info State Mark Key) (rid : Rid)
    (publishedOf : Node → Published Key Info) :
    Option (List Node) × Admission Rid Node Walk Info State Mark Key :=
  match a.waiting rid with
  | none => (none, a)
  | some entry =>
    match takeAll res rid publishedOf entry.asked [] a with
    | (false, a) => (none, a)
    | (true, a) =>
      (some entry.nodes, (a.dequeue rid).admitOn rid entry.nodes)

/-- A request is first in every queue it is in, and none of these resources
refused it since it grew. -/
def first (a : Admission Rid Node Walk Info State Mark Key) (rid : Rid)
    (entry : Waiting Node Walk Key Info) : Bool :=
  entry.keys.all fun key => (a.queues key).head? = some rid && (a.short key).isNone

/-- A request's nodes resource by resource: in a queue already, served, failed
for good, or put in its queue. -/
def askKeys (rid : Rid) (node : Node) (walk : Walk) :
    List Key → Bool → Admission Rid Node Walk Info State Mark Key →
      Except (Fault × Key) Bool × Admission Rid Node Walk Info State Mark Key
  | [], waits, a => (.ok waits, a)
  | key :: keys, waits, a =>
    if (a.waiting rid).any fun entry => key ∈ entry.keys then askKeys rid node walk keys true a
    else
      match (res key).ask (a.state key) rid node walk with
      | (.served, s) => askKeys rid node walk keys waits (a.setState key s)
      | (.fails reason, s) => (.error (reason, key), (a.setState key s).dequeue rid)
      | (.asks, s) => askKeys rid node walk keys true ((a.setState key s).parkRequest rid key node walk)

/-- A node noted as waiting on a request. -/
def note (a : Admission Rid Node Walk Info State Mark Key) (rid : Rid) (node : Node)
    (published : Published Key Info) : Admission Rid Node Walk Info State Mark Key :=
  { a with
    waiting := Function.update a.waiting rid ((a.waiting rid).map fun entry =>
      { entry with
        nodes := add node entry.nodes
        published := Function.update entry.published node published }) }

/-- Why a request is not admitted. -/
inductive Outcome (Fault Key : Type) where
  | admitted
  | queued
  | failed (reason : Fault) (key : Key)

/-- What a node's check of a request asks, before anything is reserved. -/
def asking (a : Admission Rid Node Walk Info State Mark Key) (rid : Rid) (node : Node) (walk : Walk)
    (published : Published Key Info) (keys : List Key) :
    Except (Fault × Key) Bool × Admission Rid Node Walk Info State Mark Key :=
  match askKeys res rid node walk keys false a with
  | (.ok true, a) => (.ok true, a.note rid node published)
  | other => other

/-- Nodes that start although another node's check admitted their request. -/
def startAlso (rid : Rid) (nodes : List Node) : List (Rid × List Node) → List (Rid × List Node)
  | [] => [(rid, nodes)]
  | (other, more) :: started =>
    if other = rid then (other, addAll nodes more) :: started
    else (other, more) :: startAlso rid nodes started

/-- A waiting request tried for one node's check, if it is first. -/
def tryFirst (a : Admission Rid Node Walk Info State Mark Key) (rid : Rid) (node : Node) :
    Outcome Fault Key × Admission Rid Node Walk Info State Mark Key :=
  match a.waiting rid with
  | none => (.queued, a)
  | some entry =>
    if a.first rid entry then
      match reserve res a rid entry.published with
      | (none, a) => (.queued, a)
      | (some [], a) => (.queued, a)
      | (some nodes, a) =>
        let others := nodes.filter (· ≠ node)
        (.admitted, if others = [] then a else { a with started := startAlso rid others a.started })
    else (.queued, a)

/-- A node's check of a request: admitted, or why it waits or fails. -/
def admitRequest (a : Admission Rid Node Walk Info State Mark Key) (rid : Rid) (node : Node) (walk : Walk)
    (published : Published Key Info) (keys : List Key) :
    Outcome Fault Key × Admission Rid Node Walk Info State Mark Key :=
  match asking res a rid node walk published keys with
  | (.error (reason, key), a) => (.failed reason key, a)
  | (.ok false, a) => (.admitted, a.admitOn rid [node])
  | (.ok true, a) => tryFirst res a rid node

/-- Each queue's first request tried once. -/
def sweep (publishedOf : Rid → Node → Published Key Info) :
    List Key → Admission Rid Node Walk Info State Mark Key →
      List (Node × Rid) × Admission Rid Node Walk Info State Mark Key
  | [], a => ([], a)
  | key :: keys, a =>
    match (a.queues key).head?.bind fun rid => (a.waiting rid).map (rid, ·) with
    | none => sweep publishedOf keys a
    | some (rid, entry) =>
      if a.first rid entry then
        let tried := reserve res a rid (publishedOf rid)
        let rest := sweep publishedOf keys tried.2
        (((tried.1.getD []).map (·, rid)) ++ rest.1, rest.2)
      else sweep publishedOf keys a

/-- Sweeps until one admits nothing. -/
def sweeps (order : List Key) (publishedOf : Rid → Node → Published Key Info) :
    ℕ → Admission Rid Node Walk Info State Mark Key →
      List (Node × Rid) × Admission Rid Node Walk Info State Mark Key
  | 0, a => ([], a)
  | turns + 1, a =>
    let swept := sweep res publishedOf order a
    if swept.1 = [] then swept
    else
      let rest := sweeps order publishedOf turns swept.2
      (swept.1 ++ rest.1, rest.2)

/-- Requests in the queues, each as often as it is in one. -/
def queued (order : List Key) (a : Admission Rid Node Walk Info State Mark Key) : ℕ :=
  (order.map fun key => (a.queues key).length).sum

/-- The resources that grew since their first request was refused. -/
def grown (order : List Key) (a : Admission Rid Node Walk Info State Mark Key) : List Key :=
  order.filter fun key => (a.short key).any ((res key).grewSince (a.state key))

/-- The marks of some resources dropped. -/
def forget (a : Admission Rid Node Walk Info State Mark Key) (keys : List Key) :
    Admission Rid Node Walk Info State Mark Key :=
  { a with short := fun key => if key ∈ keys then none else a.short key }

/-- Each waiting request that is now first in its queues and fits admitted, with
the nodes that may start. Nothing is tried while no request waits, nor until a
resource that refused its first request has grown or a queue has a new first one.
A sweep that admits takes a request out of a queue, so there are no more of them
than are queued. -/
def admitWaiting (order : List Key) (a : Admission Rid Node Walk Info State Mark Key)
    (publishedOf : Rid → Node → Published Key Info) :
    List (Node × Rid) × Admission Rid Node Walk Info State Mark Key :=
  let started := a.started.flatMap fun (rid, nodes) => nodes.map (·, rid)
  let a := { a with started := [] }
  let keys := grown res order a
  if order.all (fun key => (a.queues key).isEmpty) then (started, a)
  else if keys = [] ∧ a.untried = false then (started, a)
  else
    let a := a.forget keys
    let swept := sweeps res order publishedOf (queued order a + 1) a
    (started ++ swept.1, { swept.2 with untried := false })

/-- A request that is gone. -/
def removeRequest (a : Admission Rid Node Walk Info State Mark Key) (rid : Rid) :
    Admission Rid Node Walk Info State Mark Key :=
  let a := a.dequeue rid
  { a with
    admitted := Function.update a.admitted rid []
    started := a.started.filter (·.1 ≠ rid)
    arrival := Function.update a.arrival rid none }

/-- What can happen: calls of the admission, and what the resources do between
them. -/
inductive Op (Rid Node Walk Info State Key : Type) where
  | admitRequest (rid : Rid) (node : Node) (walk : Walk) (published : Published Key Info) (keys : List Key)
  | admitWaiting (publishedOf : Rid → Node → Published Key Info)
  | removeRequest (rid : Rid)
  | others (state : Key → State)

/-- An operation's effect. -/
def step (order : List Key) (a : Admission Rid Node Walk Info State Mark Key) :
    Op Rid Node Walk Info State Key → Admission Rid Node Walk Info State Mark Key
  | .admitRequest rid node walk published keys => (admitRequest res a rid node walk published keys).2
  | .admitWaiting publishedOf => (admitWaiting res order a publishedOf).2
  | .removeRequest rid => a.removeRequest rid
  | .others state => { a with state := state }

/-- What a node asks are resources that ask, and only admission reserves. -/
def Enabled (order : List Key) (holds : Key → State → Rid → Prop)
    (a : Admission Rid Node Walk Info State Mark Key) : Op Rid Node Walk Info State Key → Prop
  | .admitRequest _ _ _ _ keys => keys ⊆ order
  | .admitWaiting _ => True
  | .removeRequest _ => True
  | .others state => ∀ key rid, holds key (state key) rid → holds key (a.state key) rid

/-- The states that can be reached. -/
inductive Reachable (order : List Key) (holds : Key → State → Rid → Prop) :
    Admission Rid Node Walk Info State Mark Key → Prop
  | fresh (state : Key → State) : Reachable order holds (fresh state)
  | step {a : Admission Rid Node Walk Info State Mark Key} (h : Reachable order holds a)
      (op : Op Rid Node Walk Info State Key) (hop : Enabled order holds a op) :
      Reachable order holds (step res order a op)

end Admission

end Resources

end Mstar
