import Mathlib.Data.List.Basic
import Mathlib.Data.List.Nodup
import Mathlib.Logic.Function.Basic

/-!
# The outbox

A loop that must keep reading its input sends through an outbox, which never
waits: what a peer cannot take now is queued behind what was queued for it
before, and tried again later. Each peer has a line of its own, so the outbox
does for every peer what a single line would do for it.
-/

namespace Mstar.Sending

/-- How a send that does not wait comes out. -/
inductive Tried where
  | sent
  | full
  | failed
  deriving DecidableEq

/-- What happens to a message: the outbox takes it from its sender, and later it
is sent or dropped. -/
inductive Event (Data : Type) where
  | took (data : Data)
  | sent (data : Data)
  | dropped (data : Data)

/-- The wrapped communicator: its codec, which may refuse a message, and
`try_send_bytes` on the socket of a peer. -/
structure Transport (Peer Msg Data Wire : Type) where
  encode : Msg → Option Data
  trySend : Peer → Wire → Data → Tried × Wire

section Line

variable {Data Wire : Type}

/-- One peer's socket, what is queued for it, and what happened. -/
structure Line (Data Wire : Type) where
  wire : Wire
  queue : List Data
  trace : List (Event Data)

/-- The messages taken, in order. -/
def tookOf (trace : List (Event Data)) : List Data :=
  trace.filterMap fun
    | .took data => some data
    | _ => none

/-- The messages that left, in order, sent or dropped. -/
def leftOf (trace : List (Event Data)) : List Data :=
  trace.filterMap fun
    | .took _ => none
    | .sent data => some data
    | .dropped data => some data

/-- The messages sent, in order. -/
def sentOf (trace : List (Event Data)) : List Data :=
  trace.filterMap fun
    | .sent data => some data
    | _ => none

/-- Later messages taken come after. -/
@[simp] theorem tookOf_append (trace more : List (Event Data)) :
    tookOf (trace ++ more) = tookOf trace ++ tookOf more :=
  List.filterMap_append

/-- Later messages that left come after. -/
@[simp] theorem leftOf_append (trace more : List (Event Data)) :
    leftOf (trace ++ more) = leftOf trace ++ leftOf more :=
  List.filterMap_append

/-- A message taken. -/
@[simp] theorem tookOf_took (data : Data) (more : List (Event Data)) :
    tookOf (.took data :: more) = data :: tookOf more := rfl

/-- A message sent was taken before. -/
@[simp] theorem tookOf_sent (data : Data) (more : List (Event Data)) :
    tookOf (.sent data :: more) = tookOf more := rfl

/-- So was a message dropped. -/
@[simp] theorem tookOf_dropped (data : Data) (more : List (Event Data)) :
    tookOf (.dropped data :: more) = tookOf more := rfl

/-- A message taken has not left. -/
@[simp] theorem leftOf_took (data : Data) (more : List (Event Data)) :
    leftOf (.took data :: more) = leftOf more := rfl

/-- A message sent. -/
@[simp] theorem leftOf_sent (data : Data) (more : List (Event Data)) :
    leftOf (.sent data :: more) = data :: leftOf more := rfl

/-- A message dropped. -/
@[simp] theorem leftOf_dropped (data : Data) (more : List (Event Data)) :
    leftOf (.dropped data :: more) = data :: leftOf more := rfl

/-- Nothing was taken yet. -/
@[simp] theorem tookOf_nil : tookOf ([] : List (Event Data)) = [] := rfl

/-- Nothing left yet. -/
@[simp] theorem leftOf_nil : leftOf ([] : List (Event Data)) = [] := rfl

section Draining

variable (trySend : Wire → Data → Tried × Wire)

/-- The inner loop of `flush`, which ends where the peer is full: the socket, what
stays queued and what happened. -/
def drain : Wire → List Data → Wire × List Data × List (Event Data)
  | wire, [] => (wire, [], [])
  | wire, data :: queue =>
    match trySend wire data with
    | (.sent, wire) =>
      let rest := drain wire queue
      (rest.1, rest.2.1, .sent data :: rest.2.2)
    | (.full, wire) => (wire, data :: queue, [])
    | (.failed, wire) =>
      let rest := drain wire queue
      (rest.1, rest.2.1, .dropped data :: rest.2.2)

variable {trySend}

/-- Draining takes no message. -/
@[simp] theorem tookOf_drain (wire : Wire) (queue : List Data) :
    tookOf (drain trySend wire queue).2.2 = [] := by
  induction queue generalizing wire with
  | nil => rfl
  | cons data queue ih =>
    unfold drain
    split
    · exact ih _
    · rfl
    · exact ih _

/-- What leaves is off the front of the queue. -/
theorem leftOf_drain (wire : Wire) (queue : List Data) :
    leftOf (drain trySend wire queue).2.2 ++ (drain trySend wire queue).2.1 = queue := by
  induction queue generalizing wire with
  | nil => rfl
  | cons data queue ih =>
    unfold drain
    split
    · exact congrArg (data :: ·) (ih _)
    · rfl
    · exact congrArg (data :: ·) (ih _)

/-- What draining leaves queued, the socket would not take. -/
theorem drain_full (wire : Wire) (queue : List Data) {data : Data} {rest : List Data}
    (h : (drain trySend wire queue).2.1 = data :: rest) :
    ∃ before, trySend before data = (.full, (drain trySend wire queue).1) := by
  induction queue generalizing wire with
  | nil => cases h
  | cons first queue ih =>
    unfold drain at h ⊢
    split at h
    · exact ih _ h
    · rename_i after htry
      cases h
      exact ⟨wire, htry⟩
    · exact ih _ h

end Draining

namespace Line

variable (trySend : Wire → Data → Tried × Wire)

/-- A message for this peer; `false` where the send fails, and the message is its
sender's again. -/
def offer (l : Line Data Wire) (data : Data) : Bool × Line Data Wire :=
  if l.queue ≠ [] then
    (true, { l with queue := l.queue ++ [data], trace := l.trace ++ [.took data] })
  else match trySend l.wire data with
    | (.sent, wire) => (true, { l with wire := wire, trace := l.trace ++ [.took data, .sent data] })
    | (.full, wire) => (true, ⟨wire, [data], l.trace ++ [.took data]⟩)
    | (.failed, wire) => (false, { l with wire := wire })

/-- Sending what is queued until the peer is full. -/
def flush (l : Line Data Wire) : Line Data Wire :=
  let drained := drain trySend l.wire l.queue
  ⟨drained.1, drained.2.1, l.trace ++ drained.2.2⟩

/-- What was taken is what left and what is queued, in order. -/
def InOrder (l : Line Data Wire) : Prop := tookOf l.trace = leftOf l.trace ++ l.queue

variable {trySend}

/-- A message offered goes behind what is queued. -/
theorem InOrder.offer {l : Line Data Wire} (h : l.InOrder) (data : Data) :
    (l.offer trySend data).2.InOrder := by
  unfold InOrder Line.offer
  unfold InOrder at h
  split
  · simp [h]
  · rename_i hempty
    have hqueue : l.queue = [] := not_not.1 hempty
    rw [hqueue, List.append_nil] at h
    split
    · simp [h, hqueue]
    · simp [h]
    · simp [h, hqueue]

/-- Flushing takes messages off the front. -/
theorem InOrder.flush {l : Line Data Wire} (h : l.InOrder) : (l.flush trySend).InOrder := by
  unfold InOrder Line.flush
  unfold InOrder at h
  rw [tookOf_append, leftOf_append, tookOf_drain, List.append_nil, h, List.append_assoc,
    leftOf_drain]

/-- A message that is offered and not refused was taken. -/
theorem tookOf_offer {l : Line Data Wire} {data : Data} (h : (l.offer trySend data).1 = true) :
    tookOf (l.offer trySend data).2.trace = tookOf l.trace ++ [data] := by
  unfold Line.offer at h ⊢
  split
  · simp
  · rename_i hempty
    rw [if_neg hempty] at h
    split
    · simp
    · simp
    · rename_i htry
      rw [htry] at h
      cases h

end Line

/-- What is sent was taken, in the same order. -/
theorem sentOf_sublist (trace : List (Event Data)) : (sentOf trace).Sublist (leftOf trace) := by
  induction trace with
  | nil => exact List.Sublist.refl _
  | cons event trace ih =>
    cases event with
    | took data => exact ih
    | sent data => exact ih.cons_cons data
    | dropped data => exact ih.cons data

end Line

section Peers

variable {Peer Msg Data Wire : Type} [DecidableEq Peer]

/-- `setdefault` and `append`. -/
def enqueue (peer : Peer) (data : Data) : List (Peer × List Data) → List (Peer × List Data)
  | [] => [(peer, [data])]
  | (other, queue) :: queues =>
    if other = peer then (other, queue ++ [data]) :: queues
    else (other, queue) :: enqueue peer data queues

/-- The peers with a queue after another message. -/
theorem mem_enqueue {peer other : Peer} {data : Data} {queues : List (Peer × List Data)} :
    other ∈ (enqueue peer data queues).map Prod.fst ↔
      other = peer ∨ other ∈ queues.map Prod.fst := by
  induction queues with
  | nil => simp [enqueue]
  | cons entry queues ih =>
    unfold enqueue
    split
    · rename_i hsame
      simp [hsame]
    · rw [List.map_cons, List.map_cons, List.mem_cons, List.mem_cons, ih]
      exact or_left_comm

/-- Each peer keeps one queue. -/
theorem nodup_enqueue (peer : Peer) (data : Data) {queues : List (Peer × List Data)}
    (h : (queues.map Prod.fst).Nodup) : ((enqueue peer data queues).map Prod.fst).Nodup := by
  induction queues with
  | nil => simp [enqueue]
  | cons entry queues ih =>
    rw [List.map_cons, List.nodup_cons] at h
    unfold enqueue
    split
    · exact List.nodup_cons.2 h
    · rename_i hother
      rw [List.map_cons, List.nodup_cons]
      refine ⟨?_, ih h.2⟩
      rw [mem_enqueue]
      exact fun hmem => hmem.elim hother h.1

/-- The queues of the peers, in the order peers first had something queued. -/
structure Queues (Peer Data : Type) where
  entries : List (Peer × List Data)
  /-- Each peer has one. -/
  nodup : (entries.map Prod.fst).Nodup

/-- What is queued for one peer. -/
def queueOf (entries : List (Peer × List Data)) (peer : Peer) : List Data :=
  (entries.lookup peer).getD []

/-- `OutboxCommunicator` on a transport, and what happened to the messages for
each peer. -/
structure OutboxCommunicator (Peer Data Wire : Type) where
  wires : Peer → Wire
  outbox : Queues Peer Data
  trace : List (Peer × Event Data)

namespace OutboxCommunicator

variable (t : Transport Peer Msg Data Wire)

/-- Before any message. -/
def start (wires : Peer → Wire) : OutboxCommunicator Peer Data Wire :=
  ⟨wires, ⟨[], .nil⟩, []⟩

/-- One turn of the loop of `send_each`; `false` where the send raises. -/
def sendTo (peer : Peer) (data : Data) (o : OutboxCommunicator Peer Data Wire) :
    Bool × OutboxCommunicator Peer Data Wire :=
  if queueOf o.outbox.entries peer ≠ [] then
    (true, { o with
      outbox := ⟨enqueue peer data o.outbox.entries, nodup_enqueue peer data o.outbox.nodup⟩
      trace := o.trace ++ [(peer, .took data)] })
  else match t.trySend peer (o.wires peer) data with
    | (.sent, wire) =>
      (true, { o with
        wires := Function.update o.wires peer wire
        trace := o.trace ++ [(peer, .took data), (peer, .sent data)] })
    | (.full, wire) =>
      (true,
        { wires := Function.update o.wires peer wire
          outbox := ⟨enqueue peer data o.outbox.entries, nodup_enqueue peer data o.outbox.nodup⟩
          trace := o.trace ++ [(peer, .took data)] })
    | (.failed, wire) => (false, { o with wires := Function.update o.wires peer wire })

/-- The loop of `send_each`, which a send that raises ends. -/
def sendEach (data : Data) :
    List Peer → OutboxCommunicator Peer Data Wire → Bool × OutboxCommunicator Peer Data Wire
  | [], o => (true, o)
  | peer :: peers, o =>
    let next := sendTo t peer data o
    if next.1 then sendEach data peers next.2 else next

/-- The outer loop of `flush`: the sockets, what stays queued and what
happened. -/
def flushFrom (wires : Peer → Wire) : List (Peer × List Data) →
    (Peer → Wire) × List (Peer × List Data) × List (Peer × Event Data)
  | [] => (wires, [], [])
  | (peer, queue) :: queues =>
    let drained := drain (t.trySend peer) (wires peer) queue
    let rest := flushFrom (Function.update wires peer drained.1) queues
    (rest.1, (peer, drained.2.1) :: rest.2.1, drained.2.2.map (Prod.mk peer) ++ rest.2.2)

omit [DecidableEq Peer] in
/-- Flushing keeps the queues, also those it empties. -/
theorem flushFrom_keys [DecidableEq Peer] (wires : Peer → Wire)
    (entries : List (Peer × List Data)) :
    (flushFrom t wires entries).2.1.map Prod.fst = entries.map Prod.fst := by
  induction entries generalizing wires with
  | nil => rfl
  | cons entry entries ih => exact congrArg (entry.1 :: ·) (ih _)

/-- `flush`: whether anything is still queued. -/
def flush (o : OutboxCommunicator Peer Data Wire) : Bool × OutboxCommunicator Peer Data Wire :=
  let flushed := flushFrom t o.wires o.outbox.entries
  (flushed.2.1.any fun entry => !entry.2.isEmpty,
    { wires := flushed.1
      outbox := ⟨flushed.2.1, by rw [flushFrom_keys]; exact o.outbox.nodup⟩
      trace := o.trace ++ flushed.2.2 })

end OutboxCommunicator

/-- A call of the outbox. -/
inductive Op (Peer Msg : Type) where
  | sendEach (peers : List Peer) (msg : Msg)
  | flush

/-- Its answer: done, a codec's refusal, a send that raised, or whether anything
is still queued. -/
inductive Answer where
  | done
  | refused
  | raised
  | flushed (pending : Bool)
  deriving DecidableEq

namespace OutboxCommunicator

variable (t : Transport Peer Msg Data Wire)

/-- A call. The message is encoded first, for all its peers. -/
def step (o : OutboxCommunicator Peer Data Wire) :
    Op Peer Msg → Answer × OutboxCommunicator Peer Data Wire
  | .sendEach peers msg =>
    match t.encode msg with
    | none => (.refused, o)
    | some data =>
      let sent := o.sendEach t data peers
      (if sent.1 then .done else .raised, sent.2)
  | .flush => (.flushed (o.flush t).1, (o.flush t).2)

/-- Calls one after another, whatever each answers. -/
def run (o : OutboxCommunicator Peer Data Wire) :
    List (Op Peer Msg) → List Answer × OutboxCommunicator Peer Data Wire
  | [] => ([], o)
  | op :: ops =>
    let next := o.step t op
    let rest := run next.2 ops
    (next.1 :: rest.1, rest.2)

end OutboxCommunicator

section Lines

/-- What happened to the messages for one peer. -/
def eventsOf (peer : Peer) (trace : List (Peer × Event Data)) : List (Event Data) :=
  trace.filterMap fun entry => if entry.1 = peer then some entry.2 else none

/-- Later events come after. -/
@[simp] theorem eventsOf_append (peer : Peer) (trace more : List (Peer × Event Data)) :
    eventsOf peer (trace ++ more) = eventsOf peer trace ++ eventsOf peer more :=
  List.filterMap_append

/-- An event is of its peer. -/
@[simp] theorem eventsOf_cons (peer other : Peer) (event : Event Data)
    (trace : List (Peer × Event Data)) :
    eventsOf peer ((other, event) :: trace) =
      if other = peer then event :: eventsOf peer trace else eventsOf peer trace := by
  unfold eventsOf
  rw [List.filterMap_cons]
  by_cases h : other = peer
  · simp [h]
  · simp [h]

/-- No events. -/
@[simp] theorem eventsOf_nil (peer : Peer) : eventsOf peer ([] : List (Peer × Event Data)) = [] :=
  rfl

/-- Events of one peer are its own. -/
theorem eventsOf_map (peer other : Peer) (events : List (Event Data)) :
    eventsOf peer (events.map (Prod.mk other)) = if other = peer then events else [] := by
  induction events with
  | nil => simp
  | cons event events ih =>
    rw [List.map_cons, eventsOf_cons, ih]
    split
    · rfl
    · rfl

/-- A queue before others. -/
theorem queueOf_cons (peer other : Peer) (queue : List Data)
    (entries : List (Peer × List Data)) :
    queueOf ((other, queue) :: entries) peer =
      if peer = other then queue else queueOf entries peer := by
  unfold queueOf
  rw [List.lookup_cons]
  by_cases h : peer = other
  · simp [h]
  · simp [h, beq_false_of_ne h]

/-- A message queued for a peer is behind what was. -/
theorem queueOf_enqueue (peer other : Peer) (data : Data) (entries : List (Peer × List Data)) :
    queueOf (enqueue peer data entries) other =
      if other = peer then queueOf entries peer ++ [data] else queueOf entries other := by
  induction entries with
  | nil =>
    rw [enqueue, queueOf_cons]
    rfl
  | cons entry entries ih =>
    obtain ⟨first, queue⟩ := entry
    rw [enqueue]
    by_cases hfirst : first = peer
    · subst hfirst
      rw [if_pos rfl, queueOf_cons, queueOf_cons, queueOf_cons, if_pos rfl]
      split
      · rfl
      · rfl
    · rw [if_neg hfirst, queueOf_cons, queueOf_cons, queueOf_cons, ih,
        if_neg (Ne.symm hfirst)]
      by_cases h : other = first
      · rw [if_pos h, if_pos h, if_neg (h ▸ hfirst)]
      · rw [if_neg h, if_neg h]

/-- A peer without a queue has nothing queued. -/
theorem queueOf_of_not_mem {peer : Peer} {entries : List (Peer × List Data)}
    (h : peer ∉ entries.map Prod.fst) : queueOf entries peer = [] := by
  induction entries with
  | nil => rfl
  | cons entry entries ih =>
    rw [List.map_cons, List.mem_cons, not_or] at h
    rw [queueOf_cons, if_neg h.1, ih h.2]

/-- A peer's socket, its queue and what happened to its messages. -/
def OutboxCommunicator.line (o : OutboxCommunicator Peer Data Wire) (peer : Peer) :
    Line Data Wire :=
  ⟨o.wires peer, queueOf o.outbox.entries peer, eventsOf peer o.trace⟩

variable {t : Transport Peer Msg Data Wire} {o : OutboxCommunicator Peer Data Wire}

/-- A message for a peer goes into its line and changes no other. -/
theorem line_sendTo (peer other : Peer) (data : Data) :
    (o.sendTo t peer data).2.line other =
      if other = peer then ((o.line peer).offer (t.trySend peer) data).2 else o.line other := by
  unfold OutboxCommunicator.sendTo Line.offer
  by_cases hqueue : queueOf o.outbox.entries peer ≠ []
  · rw [if_pos hqueue, if_pos (show (o.line peer).queue ≠ [] from hqueue)]
    by_cases h : other = peer
    · subst h
      simp [OutboxCommunicator.line, queueOf_enqueue]
    · simp [OutboxCommunicator.line, queueOf_enqueue, h, Ne.symm h]
  · rw [if_neg hqueue, if_neg (show ¬ (o.line peer).queue ≠ [] from hqueue)]
    have hempty := not_not.1 hqueue
    cases htry : t.trySend peer (o.wires peer) data with
    | mk tried wire =>
      have hline : t.trySend peer (o.line peer).wire data = (tried, wire) := htry
      rw [hline]
      by_cases h : other = peer
      · subst h
        cases tried with
        | sent => simp [OutboxCommunicator.line]
        | full => simp [OutboxCommunicator.line, queueOf_enqueue, hempty]
        | failed => simp [OutboxCommunicator.line]
      · cases tried with
        | sent => simp [OutboxCommunicator.line, h, Ne.symm h]
        | full => simp [OutboxCommunicator.line, queueOf_enqueue, h, Ne.symm h]
        | failed => simp [OutboxCommunicator.line, h]

/-- It is refused where the line refuses it. -/
theorem fst_sendTo (peer : Peer) (data : Data) :
    (o.sendTo t peer data).1 = ((o.line peer).offer (t.trySend peer) data).1 := by
  unfold OutboxCommunicator.sendTo Line.offer
  by_cases hqueue : queueOf o.outbox.entries peer ≠ []
  · rw [if_pos hqueue, if_pos (show (o.line peer).queue ≠ [] from hqueue)]
  · rw [if_neg hqueue, if_neg (show ¬ (o.line peer).queue ≠ [] from hqueue)]
    cases htry : t.trySend peer (o.wires peer) data with
    | mk tried wire =>
      have hline : t.trySend peer (o.line peer).wire data = (tried, wire) := htry
      rw [hline]
      cases tried with
      | sent => rfl
      | full => rfl
      | failed => rfl

/-- The outer loop of `flush` drains the queue of every peer on its own
socket. -/
theorem flushFrom_line (peer : Peer) (entries : List (Peer × List Data))
    (hnodup : (entries.map Prod.fst).Nodup) (wires : Peer → Wire) :
    ((OutboxCommunicator.flushFrom t wires entries).1 peer,
      queueOf (OutboxCommunicator.flushFrom t wires entries).2.1 peer,
      eventsOf peer (OutboxCommunicator.flushFrom t wires entries).2.2) =
      drain (t.trySend peer) (wires peer) (queueOf entries peer) := by
  induction entries generalizing wires with
  | nil => rfl
  | cons entry entries ih =>
    obtain ⟨other, queue⟩ := entry
    rw [List.map_cons, List.nodup_cons] at hnodup
    have hrest := ih hnodup.2
      (Function.update wires other (drain (t.trySend other) (wires other) queue).1)
    rw [Prod.mk.injEq, Prod.mk.injEq] at hrest
    obtain ⟨hwire, hqueue, hevents⟩ := hrest
    simp only [OutboxCommunicator.flushFrom, queueOf_cons, eventsOf_append, eventsOf_map]
    by_cases h : peer = other
    · subst h
      rw [queueOf_of_not_mem hnodup.1, Function.update_self] at hwire hevents
      rw [if_pos rfl, if_pos rfl, if_pos rfl, hwire, hevents]
      simp [drain]
    · rw [Function.update_of_ne h] at hwire hqueue hevents
      rw [if_neg h, if_neg h, if_neg (Ne.symm h), hwire, hqueue, hevents]
      rfl

/-- Flushing flushes the line of every peer. -/
theorem line_flush (peer : Peer) :
    (o.flush t).2.line peer = (o.line peer).flush (t.trySend peer) := by
  have hline := flushFrom_line (t := t) peer o.outbox.entries o.outbox.nodup o.wires
  rw [Prod.ext_iff, Prod.ext_iff] at hline
  obtain ⟨hwire, hqueue, hevents⟩ := hline
  simp only [OutboxCommunicator.line, OutboxCommunicator.flush, Line.flush, eventsOf_append]
  rw [← hwire, ← hqueue, ← hevents]

/-- Every peer's line is in order. -/
def OutboxCommunicator.InOrder (o : OutboxCommunicator Peer Data Wire) : Prop :=
  ∀ peer, (o.line peer).InOrder

/-- A message for a peer keeps the lines in order. -/
theorem sendTo_inOrder (h : o.InOrder) (peer : Peer) (data : Data) :
    (o.sendTo t peer data).2.InOrder := by
  intro other
  rw [line_sendTo]
  split
  · exact (h peer).offer data
  · exact h other

/-- So does a message for several. -/
theorem sendEach_inOrder (data : Data) (peers : List Peer)
    (o : OutboxCommunicator Peer Data Wire) (h : o.InOrder) :
    (o.sendEach t data peers).2.InOrder := by
  induction peers generalizing o with
  | nil => exact h
  | cons peer peers ih =>
    rw [OutboxCommunicator.sendEach]
    split
    · exact ih _ (sendTo_inOrder h peer data)
    · exact sendTo_inOrder h peer data

/-- Every call keeps the lines in order. -/
theorem step_inOrder (h : o.InOrder) (op : Op Peer Msg) : (o.step t op).2.InOrder := by
  cases op with
  | sendEach peers msg =>
    rw [OutboxCommunicator.step]
    split
    · exact h
    · exact sendEach_inOrder _ peers o h
  | flush =>
    intro peer
    exact (line_flush (t := t) peer) ▸ (h peer).flush

/-- A run keeps the lines in order. -/
theorem run_inOrder (ops : List (Op Peer Msg)) (o : OutboxCommunicator Peer Data Wire)
    (h : o.InOrder) : (o.run t ops).2.InOrder := by
  induction ops generalizing o with
  | nil => exact h
  | cons op ops ih => exact ih _ (step_inOrder h op)

/-- The messages that a call has for a peer. -/
def messagesFor (t : Transport Peer Msg Data Wire) (peer : Peer) : Op Peer Msg → List Data
  | .sendEach peers msg =>
    match t.encode msg with
    | none => []
    | some data => (peers.filter (· = peer)).map fun _ => data
  | .flush => []

/-- A send that does not raise has its peers' lines take the message. -/
theorem sendEach_took (data : Data) (peer : Peer) (peers : List Peer)
    (o : OutboxCommunicator Peer Data Wire) (h : (o.sendEach t data peers).1 = true) :
    tookOf ((o.sendEach t data peers).2.line peer).trace =
      tookOf (o.line peer).trace ++ (peers.filter (· = peer)).map fun _ => data := by
  induction peers generalizing o with
  | nil => simp [OutboxCommunicator.sendEach]
  | cons first peers ih =>
    rw [OutboxCommunicator.sendEach] at h ⊢
    by_cases hfirst : (o.sendTo t first data).1 = true
    · rw [if_pos hfirst] at h ⊢
      rw [ih _ h, line_sendTo]
      rw [fst_sendTo] at hfirst
      by_cases hsame : peer = first
      · subst hsame
        rw [if_pos rfl, Line.tookOf_offer hfirst]
        simp
      · rw [if_neg hsame]
        simp [Ne.symm hsame]
    · rw [if_neg hfirst] at h
      exact absurd h hfirst

/-- A run in which no send raises has every line take the messages for it. -/
theorem run_took (peer : Peer) (ops : List (Op Peer Msg))
    (o : OutboxCommunicator Peer Data Wire) (h : Answer.raised ∉ (o.run t ops).1) :
    tookOf ((o.run t ops).2.line peer).trace =
      tookOf (o.line peer).trace ++ ops.flatMap (messagesFor t peer) := by
  induction ops generalizing o with
  | nil => simp [OutboxCommunicator.run]
  | cons op ops ih =>
    rw [OutboxCommunicator.run, List.mem_cons, not_or] at h
    have hstep : tookOf ((o.step t op).2.line peer).trace =
        tookOf (o.line peer).trace ++ messagesFor t peer op := by
      cases op with
      | sendEach peers msg =>
        simp only [OutboxCommunicator.step, messagesFor] at h ⊢
        cases hencode : t.encode msg with
        | none => simp
        | some data =>
          rw [hencode] at h
          refine sendEach_took data peer peers o ?_
          by_contra hraised
          exact h.1 (if_neg hraised).symm
      | flush =>
        rw [OutboxCommunicator.step, line_flush]
        simp [Line.flush, messagesFor]
    exact (ih _ h.2).trans (by rw [hstep, List.flatMap_cons, List.append_assoc])

omit [DecidableEq Peer] in
/-- A flush answers whether a queue is left. -/
theorem any_queued [DecidableEq Peer] (entries : List (Peer × List Data))
    (hnodup : (entries.map Prod.fst).Nodup) :
    (entries.any fun entry => !entry.2.isEmpty) = true ↔ ∃ peer, queueOf entries peer ≠ [] := by
  induction entries with
  | nil => simp [queueOf]
  | cons entry entries ih =>
    obtain ⟨first, queue⟩ := entry
    rw [List.map_cons, List.nodup_cons] at hnodup
    rw [List.any_cons, Bool.or_eq_true, ih hnodup.2]
    constructor
    · rintro (hqueue | ⟨peer, hpeer⟩)
      · exact ⟨first, by rw [queueOf_cons, if_pos rfl]; simpa using hqueue⟩
      · refine ⟨peer, ?_⟩
        rw [queueOf_cons, if_neg]
        · exact hpeer
        · intro hsame
          exact hpeer (queueOf_of_not_mem (hsame ▸ hnodup.1))
    · rintro ⟨peer, hpeer⟩
      rw [queueOf_cons] at hpeer
      split at hpeer
      · exact .inl (by simpa using hpeer)
      · exact .inr ⟨peer, hpeer⟩

/-- In every run, whatever the sockets do: for every peer, what the outbox took
is what it sent or dropped and then what it has queued, so nothing is sent twice
or out of order; where no send raised, it took every message that its codec
took, and a flush leaves a message queued exactly where the peer's socket would
not take it. -/
theorem outbox_in_order (t : Transport Peer Msg Data Wire) (wires : Peer → Wire)
    (ops : List (Op Peer Msg)) :
    let o := ((OutboxCommunicator.start wires : OutboxCommunicator Peer Data Wire).run t ops).2
    (∀ peer, tookOf (eventsOf peer o.trace) =
        leftOf (eventsOf peer o.trace) ++ queueOf o.outbox.entries peer ∧
      (sentOf (eventsOf peer o.trace)).Sublist (tookOf (eventsOf peer o.trace)) ∧
      (Answer.raised ∉ ((OutboxCommunicator.start wires : OutboxCommunicator Peer Data Wire).run
          t ops).1 →
        tookOf (eventsOf peer o.trace) = ops.flatMap (messagesFor t peer))) ∧
      ((o.flush t).1 = true ↔ ∃ peer, queueOf (o.flush t).2.outbox.entries peer ≠ []) ∧
      ∀ peer data rest, queueOf (o.flush t).2.outbox.entries peer = data :: rest →
        ∃ before, t.trySend peer before data = (.full, (o.flush t).2.wires peer) := by
  intro o
  have horder : o.InOrder := run_inOrder ops _ fun peer => rfl
  refine ⟨fun peer => ⟨horder peer, ?_, run_took peer ops _⟩, ?_, ?_⟩
  · have hleft := (sentOf_sublist (eventsOf peer o.trace)).trans
      (List.sublist_append_left _ (queueOf o.outbox.entries peer))
    exact (horder peer) ▸ hleft
  · exact any_queued _ (o.flush t).2.outbox.nodup
  · intro peer data rest hqueue
    have hline := line_flush (t := t) (o := o) peer
    have hleft : ((o.line peer).flush (t.trySend peer)).queue = data :: rest :=
      hline ▸ hqueue
    obtain ⟨before, hfull⟩ := drain_full _ _ hleft
    refine ⟨before, hfull.trans ?_⟩
    exact congrArg (fun l => (Tried.full, Line.wire l)) hline.symm

/-- A line's part of a call. -/
inductive LineOp (Data : Type) where
  | offer (data : Data)
  | flush

/-- A line after its part of a call. -/
def Line.step (trySend : Wire → Data → Tried × Wire) (l : Line Data Wire) :
    LineOp Data → Line Data Wire
  | .offer data => (l.offer trySend data).2
  | .flush => l.flush trySend

/-- One peer's part of a call. -/
def lineOps (encode : Msg → Option Data) (peer : Peer) : Op Peer Msg → List (LineOp Data)
  | .sendEach peers msg =>
    match encode msg with
    | none => []
    | some data => (peers.filter (· = peer)).map fun _ => .offer data
  | .flush => [.flush]

/-- A send that does not raise offers the message to its peers' lines. -/
theorem sendEach_line (data : Data) (peer : Peer) (peers : List Peer)
    (o : OutboxCommunicator Peer Data Wire) (h : (o.sendEach t data peers).1 = true) :
    (o.sendEach t data peers).2.line peer =
      ((peers.filter (· = peer)).map fun _ => LineOp.offer data).foldl
        (Line.step (t.trySend peer)) (o.line peer) := by
  induction peers generalizing o with
  | nil => rfl
  | cons first peers ih =>
    rw [OutboxCommunicator.sendEach] at h ⊢
    by_cases hfirst : (o.sendTo t first data).1 = true
    · rw [if_pos hfirst] at h ⊢
      rw [ih _ h, line_sendTo]
      by_cases hsame : peer = first
      · subst hsame
        simp [Line.step]
      · simp [hsame, Ne.symm hsame]
    · rw [if_neg hfirst] at h
      exact absurd h hfirst

/-- A run in which no send raises does to each line what the line alone would. -/
theorem run_line (peer : Peer) (ops : List (Op Peer Msg))
    (o : OutboxCommunicator Peer Data Wire) (h : Answer.raised ∉ (o.run t ops).1) :
    (o.run t ops).2.line peer =
      (ops.flatMap (lineOps t.encode peer)).foldl (Line.step (t.trySend peer)) (o.line peer) := by
  induction ops generalizing o with
  | nil => rfl
  | cons op ops ih =>
    rw [OutboxCommunicator.run, List.mem_cons, not_or] at h
    have hstep : (o.step t op).2.line peer =
        (lineOps t.encode peer op).foldl (Line.step (t.trySend peer)) (o.line peer) := by
      cases op with
      | sendEach peers msg =>
        simp only [OutboxCommunicator.step, lineOps] at h ⊢
        cases hencode : t.encode msg with
        | none => rfl
        | some data =>
          rw [hencode] at h
          refine sendEach_line data peer peers o ?_
          by_contra hraised
          exact h.1 (if_neg hraised).symm
      | flush => exact line_flush peer
    exact (ih _ h.2).trans (by rw [hstep, List.flatMap_cons, List.foldl_append])

/-- Where no send raises, a peer's socket, its queue and what happened to its
messages are those of a line that serves this peer alone, so a peer that is full
holds up no other. -/
theorem peers_apart (t : Transport Peer Msg Data Wire) (wires : Peer → Wire)
    (ops : List (Op Peer Msg)) (peer : Peer)
    (h : Answer.raised ∉ ((OutboxCommunicator.start wires : OutboxCommunicator Peer Data Wire).run
      t ops).1) :
    ((OutboxCommunicator.start wires).run t ops).2.line peer =
      (ops.flatMap (lineOps t.encode peer)).foldl (Line.step (t.trySend peer))
        ⟨wires peer, [], []⟩ :=
  run_line peer ops _ h

end Lines

end Peers

/-- Sockets with room for some messages. -/
def roomy : Transport Bool ℕ ℕ ℕ where
  encode := some
  trySend := fun _ room _ => if room = 0 then (.full, 0) else (.sent, room - 1)

/-- One peer has no room, and the other gets its messages. -/
theorem peers_apart_roomy :
    ((OutboxCommunicator.start fun peer => if peer then 0 else 2).run roomy
        [.sendEach [true, false] 7, .flush, .sendEach [false] 8]).2.line false =
      ([.offer 7, .flush, .offer 8] : List (LineOp ℕ)).foldl (Line.step (roomy.trySend false))
        ⟨2, [], []⟩ :=
  peers_apart roomy (fun peer => if peer then 0 else 2)
    [.sendEach [true, false] 7, .flush, .sendEach [false] 8] false (by decide)

end Mstar.Sending
