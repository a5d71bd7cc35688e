import Mathlib.Algebra.Order.Ring.Int
import Mathlib.Logic.Function.Basic
import Mathlib.Data.List.Basic

/-!
# Client streams at the data worker

The data worker is the producer of a call's client streams. It charges and
stores a stream's items, holds them until the conductor's route says where they
go, sends them to the ranks of the consuming node, and then the stream's end
with the number of items it carried.
-/

namespace Mstar.ClientStreams

/-- A stream's `max_items`, and what an item is charged. -/
structure Limits (τ : Type*) where
  maxItems : ℕ
  itemSize : Option (τ → ℕ)

/-- The client streams of a model. -/
structure Deployment (ν π τ : Type*) where
  /-- In sorted order. -/
  edges : List ν
  nodup : edges.Nodup
  partition : ν → π
  limits : ν → Option (Limits τ)

/-- `ClientStreamRoute`: the ranks of each stream that it names, and the node. -/
structure Route (ν ρ κ : Type*) where
  workers : ν → Option (List ρ)
  nodes : ν → κ

/-- A stored item: its uuid and the tensor. -/
abbrev Info (τ : Type*) := ℕ × τ

/-- Items stored before their call's route arrived, and who answers for them. -/
structure HeldItems (ν τ β : Type*) where
  signals : List (ν × List (Info τ))
  onLate : Option β

/-- `ClientCall`. -/
structure ClientCall (ν ρ κ τ β : Type*) where
  route : Option (Route ν ρ κ)
  held : List (HeldItems ν τ β)
  /-- Items sent to each rank of a stream. -/
  itemsSent : ν → ℕ
  /-- Streams that take no more items. -/
  ended : ν → Bool
  charged : ν → ℕ

/-- What goes out on a rank's FIFO. -/
inductive Message (ν ρ κ π τ : Type*)
  /-- A streaming edge of items. -/
  | items (worker : ρ) (name : ν) (node : κ) (partition : π) (infos : List (Info τ))
  /-- `producer_done` of the client, with the streams it ends there. -/
  | ends (worker : ρ) (partition : π) (counts : List (ν × ℕ))

/-- The data worker, as far as one call goes. -/
structure Worker (ν ρ κ π τ β : Type*) where
  call : Option (ClientCall ν ρ κ τ β)
  /-- `_torn_down`. -/
  tornDown : Bool
  refs : ℕ → ℕ
  nextUuid : ℕ
  sent : List (Message ν ρ κ π τ)
  /-- The late answers, each with the streams it names. -/
  late : List (β × List ν)

/-- An append, and what the model made of it. -/
structure ClientAppend (ν τ β : Type*) where
  /-- It has a file or some text. -/
  carries : Bool
  hasText : Bool
  ends : ν → Bool
  /-- The model's stream items; `none` when it raised. -/
  items : Option (List (ν × List τ))
  onLate : Option β

variable {ν ρ κ π τ β : Type*} [DecidableEq ν]

/-- The new items' charge. -/
def charge (limits : Limits τ) (tensors : List τ) : ℕ :=
  match limits.itemSize with
  | some size => (tensors.map size).sum
  | none => tensors.length

/-- `_charge_stream_items`: the charges, and whether every stream stayed within
its limit. -/
def chargeStreamItems (d : Deployment ν π τ) :
    (ν → ℕ) → List (ν × List τ) → (ν → ℕ) × Bool
  | charged, [] => (charged, true)
  | charged, (name, tensors) :: items =>
    match d.limits name with
    | none => chargeStreamItems d charged items
    | some limits =>
      if tensors.isEmpty then chargeStreamItems d charged items
      else
        let total := charged name + charge limits tensors
        if limits.maxItems < total then (charged, false)
        else chargeStreamItems d (Function.update charged name total) items

/-- Fresh uuids for some tensors. -/
def number : ℕ → List τ → List (Info τ)
  | _, [] => []
  | uuid, t :: tensors => (uuid, t) :: number (uuid + 1) tensors

/-- The stored items of each stream, and the next uuid. -/
def storeAll : ℕ → List (ν × List τ) → List (ν × List (Info τ)) × ℕ
  | uuid, [] => ([], uuid)
  | uuid, (name, tensors) :: items =>
    let more := storeAll (uuid + tensors.length) items
    ((name, number uuid tensors) :: more.1, more.2)

/-- References more for some stored items. -/
def increment (k : ℕ) (infos : List (Info τ)) (refs : ℕ → ℕ) : ℕ → ℕ :=
  fun u => if u ∈ infos.map Prod.fst then refs u + k else refs u

/-- A reference less for some stored items. -/
def dereference (infos : List (Info τ)) (refs : ℕ → ℕ) : ℕ → ℕ :=
  fun u => if u ∈ infos.map Prod.fst then refs u - 1 else refs u

/-- The streams of an append whose items come after their end. -/
def lateNames (call : ClientCall ν ρ κ τ β) (items : List (ν × List τ)) : List ν :=
  (items.filter fun p => !p.2.isEmpty && call.ended p.1).map Prod.fst

/-- What an append's model call came to: it raised, it named a stream that is no
client stream, or a text made no item; else the items. -/
def loaded (d : Deployment ν π τ) (a : ClientAppend ν τ β) : Option (List (ν × List τ)) :=
  if a.carries then
    match a.items with
    | none => none
    | some items =>
      if items.any fun p => decide (p.1 ∉ d.edges) then none
      else if a.hasText && items.all fun p => p.2.isEmpty then none
      else some items
  else some []

/-- The ranks that a route gives a stream. -/
def Route.ranks (route : Route ν ρ κ) (name : ν) : List ρ := (route.workers name).getD []

namespace Worker

/-- `_answer_late`. -/
def answerLate (w : Worker ν ρ κ π τ β) (onLate : Option β) (streams : List ν) :
    Worker ν ρ κ π τ β :=
  match onLate with
  | some b => if streams.isEmpty then w else { w with late := w.late ++ [(b, streams)] }
  | none => w

/-- `_store_held`: with one reference of the store's own. -/
def storeHeld (w : Worker ν ρ κ π τ β) (items : List (ν × List τ)) :
    Worker ν ρ κ π τ β × List (ν × List (Info τ)) :=
  let stored := storeAll w.nextUuid items
  ({ w with
      nextUuid := stored.2
      refs := increment 1 (stored.1.flatMap Prod.snd) w.refs }, stored.1)

/-- A stream's stored items, to the ranks of its route; the store's own hold is
dropped whether or not there is one. -/
def sendItems (d : Deployment ν π τ) (route : Route ν ρ κ) (name : ν) (infos : List (Info τ))
    (w : Worker ν ρ κ π τ β) : Worker ν ρ κ π τ β :=
  let ranks := route.ranks name
  { w with
    sent := w.sent ++ ranks.map fun r =>
      .items r name (route.nodes name) (d.partition name) infos
    refs := dereference infos (increment ranks.length infos w.refs) }

/-- The count of a stream's items, once they are sent. -/
def countItems (route : Route ν ρ κ) (name : ν) (infos : List (Info τ)) (itemsSent : ν → ℕ) :
    ν → ℕ :=
  if route.ranks name = [] then itemsSent
  else Function.update itemsSent name (itemsSent name + infos.length)

/-- The streams of some stored items, one after the other. -/
def sendAll (d : Deployment ν π τ) (route : Route ν ρ κ) :
    List (ν × List (Info τ)) → Worker ν ρ κ π τ β → (ν → ℕ) →
      Worker ν ρ κ π τ β × (ν → ℕ)
  | [], w, itemsSent => (w, itemsSent)
  | (name, infos) :: signals, w, itemsSent =>
    sendAll d route signals (w.sendItems d route name infos)
      (countItems route name infos itemsSent)

/-- `_send_stream_items`. -/
def sendStreamItems (d : Deployment ν π τ) (w : Worker ν ρ κ π τ β)
    (call : ClientCall ν ρ κ τ β) (signals : List (ν × List (Info τ))) (onLate : Option β) :
    Worker ν ρ κ π τ β × ClientCall ν ρ κ τ β :=
  match call.route with
  | none => (w, { call with held := call.held ++ [⟨signals, onLate⟩] })
  | some route =>
    let gone := sendAll d route signals w call.itemsSent
    (gone.1.answerLate onLate
      ((signals.filter fun s => (route.ranks s.1).isEmpty).map Prod.fst),
      { call with itemsSent := gone.2 })

/-- Each stream of an end, at each of its ranks with its partition. -/
def endsAt (d : Deployment ν π τ) (route : Route ν ρ κ) (names : ν → Bool) :
    List ((ρ × π) × ν) :=
  (d.edges.filter names).flatMap fun name =>
    (route.ranks name).map fun r => ((r, d.partition name), name)

variable [DecidableEq ρ] [DecidableEq π]

/-- `_send_ends`: each rank gets one message for each partition. -/
def sendEnds (d : Deployment ν π τ) (w : Worker ν ρ κ π τ β) (call : ClientCall ν ρ κ τ β)
    (route : Route ν ρ κ) (names : ν → Bool) : Worker ν ρ κ π τ β :=
  let ends := endsAt d route names
  { w with
    sent := w.sent ++ (ends.map Prod.fst).eraseDups.map fun key =>
      .ends key.1 key.2
        (((ends.filter fun e => e.1 = key).map Prod.snd).eraseDups.map fun name =>
          (name, call.itemsSent name)) }

/-- `_finish_input`, as far as client streams go: the call opens with the items and
ends that came with the request. One past its limit fails the request, which is
dropped. -/
def finishInput (d : Deployment ν π τ) (w : Worker ν ρ κ π τ β) (items : List (ν × List τ))
    (ends : ν → Bool) : Worker ν ρ κ π τ β :=
  let charged := chargeStreamItems d (fun _ => 0) items
  let call : ClientCall ν ρ κ τ β := ⟨none, [], fun _ => 0, ends, charged.1⟩
  if charged.2 then
    if items.isEmpty then { w with call := some call }
    else
      let stored := w.storeHeld items
      { stored.1 with call := some { call with held := [⟨stored.2, none⟩] } }
  else { w with call := none, tornDown := true }

/-- The part of an append that its charge has passed: its items, then its ends. -/
def takeAppend (d : Deployment ν π τ) (w : Worker ν ρ κ π τ β) (call : ClientCall ν ρ κ τ β)
    (items : List (ν × List τ)) (a : ClientAppend ν τ β) : Worker ν ρ κ π τ β :=
  let items := items.filter fun p => !p.2.isEmpty
  let sent :=
    if items.isEmpty then (w, call)
    else
      let stored := w.storeHeld items
      stored.1.sendStreamItems d call stored.2 a.onLate
  let ending := fun name => a.ends name && !call.ended name
  let w :=
    match call.route with
    | none => sent.1
    | some route => sendEnds d sent.1 sent.2 route ending
  { w with call := some { sent.2 with ended := fun name => call.ended name || a.ends name } }

/-- `_process_stream_input`, with the failure of the request that an error of it
comes to. -/
def processStreamInput (d : Deployment ν π τ) (w : Worker ν ρ κ π τ β)
    (a : ClientAppend ν τ β) : Worker ν ρ κ π τ β :=
  match w.call with
  | none => w
  | some call =>
    if w.tornDown then w
    else
      match loaded d a with
      | none => { w with tornDown := true }
      | some items =>
        let late := lateNames call items
        let w := w.answerLate a.onLate late
        let items := items.filter fun p => decide (p.1 ∉ late)
        let charged := chargeStreamItems d call.charged items
        let call := { call with charged := charged.1 }
        if charged.2 then w.takeAppend d call items a
        else { w with call := some call, tornDown := true }

/-- What a call held, sent batch after batch. -/
def sendHeld (d : Deployment ν π τ) :
    List (HeldItems ν τ β) → Worker ν ρ κ π τ β → ClientCall ν ρ κ τ β →
      Worker ν ρ κ π τ β × ClientCall ν ρ κ τ β
  | [], w, call => (w, call)
  | batch :: held, w, call =>
    let sent := w.sendStreamItems d call batch.signals batch.onLate
    sendHeld d held sent.1 sent.2

/-- The streams that a route gives no rank. -/
def unranked (body : Route ν ρ κ) (name : ν) : Bool :=
  match body.workers name with
  | some ranks => ranks.isEmpty
  | none => false

/-- A route's rank lists, merged into an earlier one's. -/
def mergeRoute (route body : Route ν ρ κ) : Route ν ρ κ :=
  { route with
    workers := fun name =>
      match body.workers name with
      | some ranks => some ranks
      | none => route.workers name }

/-- `_route_client_streams`. -/
def routeClientStreams (d : Deployment ν π τ) (w : Worker ν ρ κ π τ β) (body : Route ν ρ κ) :
    Worker ν ρ κ π τ β :=
  match w.call with
  | none => w
  | some call =>
    let ended := fun name => call.ended name || unranked body name
    match call.route with
    | some route =>
      { w with call := some { call with route := some (mergeRoute route body), ended } }
    | none =>
      let call := { call with route := some body, ended }
      if w.tornDown then { w with call := some call }
      else
        let sent := sendHeld d call.held w { call with held := [] }
        let w := sendEnds d sent.1 sent.2 body ended
        { w with call := some sent.2 }

/-- A drain or an abort of the request, or a failure of another of its works. -/
def beginDrain (w : Worker ν ρ κ π τ β) : Worker ν ρ κ π τ β := { w with tornDown := true }

/-- REMOVE: the store drops what the request holds. -/
def remove (w : Worker ν ρ κ π τ β) : Worker ν ρ κ π τ β :=
  { w with call := none, tornDown := true, refs := fun _ => 0 }

end Worker

end Mstar.ClientStreams
