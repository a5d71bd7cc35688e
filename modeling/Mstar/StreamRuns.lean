import Mstar.StreamPops
import Mathlib.Data.List.Infix

/-!
# Runs of a stream

A run of a stream's buffer in any order: registering, arriving, the end of the producer,
priming, polls, popped chunks, edges taken back and popped again. What the buffer holds
is tracked against everything that was registered and arrived.
-/

namespace Mstar

/-- A buffer with the history of its run. -/
structure StreamRun (Id Walk Item : Type) where
  /-- The buffer. -/
  stream : StreamBuffer Id Walk Item
  /-- The primed lead. -/
  lead : ℕ
  /-- Everything that was registered, in order. -/
  registered : List (StreamEntry Id × Walk)
  /-- What arrived for a tensor. -/
  arrived : Id → Option Item
  /-- The chunks that were popped, in order. -/
  chunks : List (StreamChunk Item)
  /-- The edges that the graph accepted, in order. -/
  accepted : List (StreamingEdge Item)
  /-- The edges handed out that are neither accepted nor refused yet. -/
  outstanding : List (StreamingEdge Item)

namespace StreamRun

open StreamBuffer

variable {Id Walk Item : Type}

/-- A run before its first event. -/
def start (policy : ChunkPolicy Walk) (joinDim : Option ℕ) (walkTagged : Bool) :
    StreamRun Id Walk Item where
  stream := StreamBuffer.new policy joinDim walkTagged
  lead := 0
  registered := []
  arrived := fun _ => none
  chunks := []
  accepted := []
  outstanding := []

/-- The entries that tensors registered together make. -/
def entriesOf (joinDim : Option ℕ) (ids : List Id) : List (StreamEntry Id) :=
  if ids.length = 1 ∨ joinDim = none then ids.map .single
  else if ids = [] then []
  else [.joined ids]

variable {join : List Item → Item} {w w' : StreamRun Id Walk Item}
  {moved : List (StreamEntry Id × Walk)} {items more : List (Item × Walk)} {id : Id} {walk : Walk}

/-- The registered items that arrived in order, with their walks. -/
def inOrder (join : List Item → Item) (w : StreamRun Id Walk Item) : List (Item × Walk) :=
  arrivedItems join w.arrived w.registered

/-- What the buffer holds and counts, against all that was registered and arrived. -/
structure Tracks (join : List Item → Item) (w : StreamRun Id Walk Item)
    (moved : List (StreamEntry Id × Walk)) (items : List (Item × Walk)) : Prop where
  /-- The entries moved into the buffer come before those that were not. -/
  registered : w.registered = moved ++ w.stream.tensorIdsInOrder
  /-- Each moved entry has its item. -/
  items_eq : arrivedItems join w.arrived moved = items
  length_eq : items.length = moved.length
  come : ∀ id ∈ idsOf moved, w.arrived id ≠ none
  /-- No tensor is registered twice, and no entry is without one. -/
  nodup : (idsOf w.registered).Nodup
  nonempty : ∀ entry ∈ w.registered, entry.1.ids ≠ []
  /-- What arrived and was not moved is held. -/
  held : ∀ id, id ∉ idsOf moved → w.stream.idToTensor id = w.arrived id
  /-- The buffer is what was moved and not released. -/
  buffer : w.stream.buffer = (items.map Prod.fst).drop w.stream.consumed
  shaped : Shaped w.stream ((items.map Prod.snd).drop w.stream.consumed)
  consumed_le : w.stream.consumed ≤ items.length
  /-- Tensors are counted one by one. -/
  counted : w.stream.numTensorsRegistered = (idsOf w.registered).length
  writes : w.stream.numBufferWrites = (idsOf moved).length
  /-- The producer's count is of all it registers. -/
  promise : w.stream.producerDone = true → w.stream.numTensorsRegistered ≤ w.stream.numItemsExpected

/-- An entry that has its item has all its tensors. -/
theorem come_of_item {arrived : Id → Option Item} {entry : StreamEntry Id} {item : Item}
    (h : entry.item join arrived = some item) : ∀ id ∈ entry.ids, arrived id ≠ none := by
  cases entry with
  | single id =>
    intro other hother
    rw [List.mem_singleton.1 hother]
    unfold StreamEntry.item at h
    dsimp only at h
    rw [h]
    exact Option.some_ne_none item
  | joined ids =>
    unfold StreamEntry.item at h
    dsimp only at h
    cases hmap : ids.mapM arrived with
    | none =>
      rw [hmap] at h
      cases h
    | some pieces =>
      clear h
      change ∀ id ∈ ids, arrived id ≠ none
      induction ids generalizing pieces with
      | nil => exact fun id hmem => absurd hmem List.not_mem_nil
      | cons first rest ih =>
        rw [List.mapM_cons] at hmap
        cases hfirst : arrived first with
        | none => simp [hfirst] at hmap
        | some piece =>
          cases hrest : rest.mapM arrived with
          | none => simp [hfirst, hrest] at hmap
          | some pieces =>
            intro id hmem
            rcases List.mem_cons.1 hmem with heq | hmem
            · rw [heq, hfirst]
              exact Option.some_ne_none piece
            · exact ih pieces hrest id hmem

/-- What arrived of entries that all have their items, followed by others. -/
theorem arrivedItems_append {arrived : Id → Option Item} {others : List (StreamEntry Id × Walk)}
    (h : (arrivedItems join arrived moved).length = moved.length) :
    arrivedItems join arrived (moved ++ others) =
      arrivedItems join arrived moved ++ arrivedItems join arrived others := by
  induction moved with
  | nil => rfl
  | cons entry rest ih =>
    obtain ⟨entry, walk⟩ := entry
    cases hitem : entry.item join arrived with
    | none =>
      rw [arrivedItems, hitem] at h
      cases h
    | some item =>
      rw [arrivedItems, hitem] at h
      rw [List.cons_append, arrivedItems, arrivedItems, hitem]
      exact congrArg _ (ih (Nat.succ.inj h))

/-- Entries up to the first that has not arrived have their tensors. -/
theorem come_of_arrivedItems {arrived : Id → Option Item} (pending : List (StreamEntry Id × Walk)) :
    ∀ id ∈ idsOf (pending.take (arrivedItems join arrived pending).length), arrived id ≠ none := by
  induction pending with
  | nil => exact fun id hmem => absurd hmem List.not_mem_nil
  | cons entry rest ih =>
    obtain ⟨entry, walk⟩ := entry
    cases hitem : entry.item join arrived with
    | none =>
      rw [arrivedItems, hitem]
      exact fun id hmem => absurd hmem List.not_mem_nil
    | some item =>
      rw [arrivedItems, hitem]
      intro id hmem
      rw [List.length_cons, List.take_succ_cons, idsOf_cons] at hmem
      rcases List.mem_append.1 hmem with hmem | hmem
      · exact come_of_item hitem id hmem
      · exact ih id hmem

/-- Entries moved as far as they arrived have an item each. -/
theorem length_arrivedItems_take {arrived : Id → Option Item}
    (pending : List (StreamEntry Id × Walk)) :
    arrivedItems join arrived (pending.take (arrivedItems join arrived pending).length) =
      arrivedItems join arrived pending := by
  induction pending with
  | nil => rfl
  | cons entry rest ih =>
    obtain ⟨entry, walk⟩ := entry
    cases hitem : entry.item join arrived with
    | none =>
      rw [arrivedItems, hitem]
      rfl
    | some item =>
      rw [arrivedItems, hitem]
      dsimp only
      rw [List.length_cons, List.take_succ_cons, arrivedItems, hitem]
      dsimp only
      rw [ih]

namespace Tracks

/-- The buffered items come first among those that arrived in order. -/
theorem inOrder_eq (h : Tracks join w moved items) :
    w.inOrder join = items ++ arrivedItems join w.arrived w.stream.tensorIdsInOrder := by
  unfold inOrder
  rw [h.registered, arrivedItems_append, h.items_eq]
  rw [h.items_eq, h.length_eq]

/-- Events that leave the items, the counts and the entries alone. -/
theorem of_same (h : Tracks join w moved items) (hregistered : w'.registered = w.registered)
    (harrived : w'.arrived = w.arrived)
    (hstream : w'.stream.tensorIdsInOrder = w.stream.tensorIdsInOrder ∧
      w'.stream.idToTensor = w.stream.idToTensor ∧ w'.stream.buffer = w.stream.buffer ∧
      w'.stream.walkRuns = w.stream.walkRuns ∧ w'.stream.walkTagged = w.stream.walkTagged ∧
      w'.stream.consumed = w.stream.consumed ∧
      w'.stream.numTensorsRegistered = w.stream.numTensorsRegistered ∧
      w'.stream.numBufferWrites = w.stream.numBufferWrites)
    (hpromise : w'.stream.producerDone = true →
      w.stream.numTensorsRegistered ≤ w'.stream.numItemsExpected) : Tracks join w' moved items := by
  obtain ⟨hentries, hheld, hbuffer, hruns, htagged, hconsumed, hcounted, hwrites⟩ := hstream
  constructor
  · rw [hregistered, hentries]
    exact h.registered
  · rw [harrived]
    exact h.items_eq
  · exact h.length_eq
  · rw [harrived]
    exact h.come
  · rw [hregistered]
    exact h.nodup
  · rw [hregistered]
    exact h.nonempty
  · rw [hheld, harrived]
    exact h.held
  · rw [hbuffer, hconsumed]
    exact h.buffer
  · rw [hconsumed]
    constructor
    · rw [hbuffer]
      exact h.shaped.length
    · rw [htagged, hruns]
      exact h.shaped.untagged
    · rw [htagged, hruns]
      exact h.shaped.tagged
    · rw [hruns]
      exact h.shaped.positive
  · rw [hconsumed]
    exact h.consumed_le
  · rw [hcounted, hregistered]
    exact h.counted
  · rw [hwrites]
    exact h.writes
  · rw [hcounted]
    exact hpromise

/-- An entry of new tensors is registered. -/
theorem enter (h : Tracks join w moved items) (entry : StreamEntry Id) (walk : Walk) (hnodup : entry.ids.Nodup)
    (hnonempty : entry.ids ≠ []) (hfresh : ∀ id ∈ entry.ids, id ∉ idsOf w.registered)
    (hcounted : w.stream.producerDone = true →
      w.stream.numTensorsRegistered + entry.ids.length ≤ w.stream.numItemsExpected) :
    Tracks join { w with
      stream := w.stream.enter entry walk
      registered := w.registered ++ [(entry, walk)] } moved items := by
  constructor
  case registered =>
    change w.registered ++ [(entry, walk)] = moved ++ (w.stream.tensorIdsInOrder ++ [(entry, walk)])
    rw [h.registered, List.append_assoc]
  case nodup =>
    change (idsOf (w.registered ++ [(entry, walk)])).Nodup
    rw [idsOf_append, idsOf_cons, idsOf_nil, List.append_nil]
    refine List.nodup_append.2 ⟨h.nodup, hnodup, ?_⟩
    intro id hmem other hother heq
    exact hfresh other hother (heq ▸ hmem)
  case nonempty =>
    intro other hmem
    rcases List.mem_append.1 hmem with hmem | hmem
    · exact h.nonempty other hmem
    · rw [List.mem_singleton.1 hmem]
      exact hnonempty
  case counted =>
    change w.stream.numTensorsRegistered + entry.ids.length = (idsOf (w.registered ++ [(entry, walk)])).length
    rw [idsOf_append, idsOf_cons, idsOf_nil, List.append_nil, List.length_append, h.counted]
  case shaped => exact ⟨h.shaped.length, h.shaped.untagged, h.shaped.tagged, h.shaped.positive⟩
  case promise => exact hcounted
  case items_eq => exact h.items_eq
  case length_eq => exact h.length_eq
  case come => exact h.come
  case held => exact h.held
  case buffer => exact h.buffer
  case consumed_le => exact h.consumed_le
  case writes => exact h.writes

/-- Once all that was counted is read, nothing that was registered is still to come. -/
theorem pending_nil (h : Tracks join w moved items)
    (hread : w.stream.numTensorsRegistered ≤ w.stream.numBufferWrites) :
    w.stream.tensorIdsInOrder = [] := by
  rw [h.counted, h.writes, h.registered, idsOf_append, List.length_append] at hread
  cases hpending : w.stream.tensorIdsInOrder with
  | nil => rfl
  | cons entry rest =>
    have hnonempty := h.nonempty entry (by
      rw [h.registered, hpending]
      exact List.mem_append_right _ List.mem_cons_self)
    rw [hpending, idsOf_cons, List.length_append] at hread
    have hpos := List.length_pos_iff.2 hnonempty
    omega

/-- A popped chunk takes its stride off what is buffered. -/
theorem pop {chunk : StreamChunk Item} {stream : StreamBuffer Id Walk Item} {stride : ℕ}
    {chunks : List (StreamChunk Item)} {outstanding : List (StreamingEdge Item)}
    (h : Tracks join w moved items) (hpop : Popped w.stream chunk stream stride) :
    Tracks join { w with stream := stream, chunks := chunks, outstanding := outstanding } moved items := by
  rw [hpop.after]
  have hrun : stride ≤ w.stream.walkRunLen := Nat.le_trans hpop.stride_le hpop.shown_run
  have hstride : stride ≤ w.stream.buffer.length := Nat.le_trans hpop.stride_le hpop.shown_le
  have hshaped := h.shaped.advance hrun
  rw [List.drop_drop] at hshaped
  constructor
  case buffer =>
    change w.stream.buffer.drop stride = (items.map Prod.fst).drop (w.stream.consumed + stride)
    rw [h.buffer, List.drop_drop]
  case shaped =>
    exact ⟨hshaped.length, hshaped.untagged, hshaped.tagged, hshaped.positive⟩
  case consumed_le =>
    change w.stream.consumed + stride ≤ items.length
    have hconsumed := h.consumed_le
    rw [h.buffer, List.length_drop, List.length_map] at hstride
    omega
  case registered => exact h.registered
  case items_eq => exact h.items_eq
  case length_eq => exact h.length_eq
  case come => exact h.come
  case nodup => exact h.nodup
  case nonempty => exact h.nonempty
  case held => exact h.held
  case counted => exact h.counted
  case writes => exact h.writes
  case promise => exact h.promise

variable [DecidableEq Id]

/-- A tensor arrives that had not. -/
theorem put (h : Tracks join w moved items) (item : Item) (honce : w.arrived id = none) :
    Tracks join { w with
      stream := w.stream.put id item
      arrived := fun other => if other = id then some item else w.arrived other } moved items := by
  have hnew : id ∉ idsOf moved := fun hmem => h.come id hmem honce
  constructor
  case items_eq =>
    rw [← h.items_eq]
    apply arrivedItems_congr
    intro other hmem
    have hne : other ≠ id := fun heq => hnew (heq ▸ hmem)
    exact if_neg hne
  case come =>
    intro other hmem
    have hne : other ≠ id := fun heq => hnew (heq ▸ hmem)
    change (if other = id then some item else w.arrived other) ≠ none
    rw [if_neg hne]
    exact h.come other hmem
  case held =>
    intro other hnot
    change (if other = id then some item else w.stream.idToTensor other) =
      if other = id then some item else w.arrived other
    rw [h.held other hnot]
  case shaped => exact ⟨h.shaped.length, h.shaped.untagged, h.shaped.tagged, h.shaped.positive⟩
  case registered => exact h.registered
  case length_eq => exact h.length_eq
  case nodup => exact h.nodup
  case nonempty => exact h.nonempty
  case buffer => exact h.buffer
  case consumed_le => exact h.consumed_le
  case counted => exact h.counted
  case writes => exact h.writes
  case promise => exact h.promise

variable [DecidableEq Walk]

/-- An update moves what arrived in order. -/
theorem update (h : Tracks join w moved items) :
    ∃ moved' more, Tracks join { w with stream := w.stream.updateBuffer join } moved' (items ++ more) ∧
      arrivedItems join w.arrived (w.stream.updateBuffer join).tensorIdsInOrder = [] ∧
      (w.stream.updateBuffer join).buffer = w.stream.buffer ++ more.map Prod.fst ∧
      (w.stream.tensorIdsInOrder = [] → more = []) := by
  have hnodup := h.nodup
  rw [h.registered, idsOf_append] at hnodup
  obtain ⟨-, hpending, hdisjoint⟩ := List.nodup_append.1 hnodup
  obtain ⟨count, hmove⟩ := moveArrived_movedTo join w.stream w.arrived hpending fun id hmem => h.held id fun hmoved => hdisjoint id hmoved id hmem rfl
  change MovedTo join w.arrived w.stream.tensorIdsInOrder w.stream (w.stream.updateBuffer join) count at hmove
  have hframe := updateBuffer_frame join w.stream
  generalize hstream : w.stream.updateBuffer join = stream at hmove hframe
  have hcount := hmove.items
  have hsplit : w.registered =
      (moved ++ w.stream.tensorIdsInOrder.take count) ++ w.stream.tensorIdsInOrder.drop count := by
    rw [List.append_assoc, List.take_append_drop]
    exact h.registered
  have hmore : arrivedItems join w.arrived (w.stream.tensorIdsInOrder.take count) =
      arrivedItems join w.arrived w.stream.tensorIdsInOrder := by
    rw [← hcount]
    exact length_arrivedItems_take _
  have hconsumed : stream.consumed = w.stream.consumed := by rw [hframe]
  refine ⟨moved ++ w.stream.tensorIdsInOrder.take count,
    arrivedItems join w.arrived w.stream.tensorIdsInOrder, ?_, ?_, ?_, ?_⟩
  · constructor
    case registered =>
      change w.registered = _ ++ stream.tensorIdsInOrder
      rw [hmove.entries]
      exact hsplit
    case items_eq =>
      change arrivedItems join w.arrived (moved ++ _) = _
      rw [arrivedItems_append (by rw [h.items_eq, h.length_eq]), h.items_eq, hmore]
    case length_eq =>
      rw [List.length_append, List.length_append, h.length_eq, hcount, List.length_take,
        Nat.min_eq_left hmove.count_le]
    case come =>
      intro id hmem
      rw [idsOf_append] at hmem
      rcases List.mem_append.1 hmem with hmem | hmem
      · exact h.come id hmem
      · rw [← hcount] at hmem
        exact come_of_arrivedItems _ id hmem
    case held =>
      intro id hnot
      rw [idsOf_append, List.mem_append, not_or] at hnot
      change stream.idToTensor id = w.arrived id
      rw [hmove.held id hnot.2]
      exact h.held id hnot.1
    case buffer =>
      change stream.buffer = _
      rw [hmove.buffer, h.buffer, List.map_append]
      change _ = List.drop stream.consumed _
      rw [hconsumed, List.drop_append_of_le_length]
      rw [List.length_map]
      exact h.consumed_le
    case shaped =>
      have hnext := hmove.shaped _ h.shaped
      change Shaped stream (List.drop stream.consumed _)
      rw [hconsumed, List.map_append, List.drop_append_of_le_length]
      · exact hnext
      · rw [List.length_map]
        exact h.consumed_le
    case consumed_le =>
      change stream.consumed ≤ _
      rw [hconsumed, List.length_append]
      exact Nat.le_trans h.consumed_le (Nat.le_add_right _ _)
    case counted =>
      change stream.numTensorsRegistered = _
      rw [hframe]
      exact h.counted
    case writes =>
      change stream.numBufferWrites = _
      rw [hmove.writes, h.writes, idsOf_append, List.length_append]
    case promise =>
      change stream.producerDone = true → stream.numTensorsRegistered ≤ stream.numItemsExpected
      rw [hframe]
      exact h.promise
    case nodup => exact h.nodup
    case nonempty => exact h.nonempty
  · rw [hmove.entries]
    exact hmove.stops
  · exact hmove.buffer
  · intro hnil
    rw [hnil]
    rfl

end Tracks

variable [DecidableEq Id] [DecidableEq Walk]

/-- One event of a run. Tensors are registered once and arrive once, and the producer's
count is of all it registers. In a serial run an edge is popped only while none is handed
out, refused ones first. -/
inductive Step (join : List Item → Item) (serial : Bool) :
    StreamRun Id Walk Item → StreamRun Id Walk Item → Prop where
  /-- A tensor is registered. -/
  | preReadRegister (w : StreamRun Id Walk Item) (id : Id) (walk : Walk)
      (fresh : id ∉ idsOf w.registered)
      (counted : w.stream.producerDone = true →
        w.stream.numTensorsRegistered + 1 ≤ w.stream.numItemsExpected) :
      Step join serial w { w with
        stream := w.stream.preReadRegister id walk
        registered := w.registered ++ [(.single id, walk)] }
  /-- Tensors are registered together. -/
  | preReadRegisterJoined (w : StreamRun Id Walk Item) (ids : List Id) (walk : Walk)
      (nodup : ids.Nodup) (fresh : ∀ id ∈ ids, id ∉ idsOf w.registered)
      (counted : w.stream.producerDone = true →
        w.stream.numTensorsRegistered + ids.length ≤ w.stream.numItemsExpected) :
      Step join serial w { w with
        stream := w.stream.preReadRegisterJoined ids walk
        registered := w.registered ++ (entriesOf w.stream.joinDim ids).map fun entry => (entry, walk) }
  /-- A tensor arrives, registered or not. -/
  | put (w : StreamRun Id Walk Item) (id : Id) (item : Item) (once : w.arrived id = none) :
      Step join serial w { w with
        stream := w.stream.put id item
        arrived := fun other => if other = id then some item else w.arrived other }
  /-- The producer's end, before or after the tensors it counts. -/
  | signalDone (w : StreamRun Id Walk Item) (numItems : ℕ)
      (counted : w.stream.numTensorsRegistered ≤ numItems)
      (same : w.stream.producerDone = true → numItems = w.stream.numItemsExpected) :
      Step join serial w { w with stream := w.stream.signalDone numItems }
  /-- The stream is primed before its first chunk. -/
  | primeContext (w : StreamRun Id Walk Item) (lead : ℕ) (stream : StreamBuffer Id Walk Item)
      (first : w.stream.chunksPopped = 0) (primed : w.stream.primeContext lead = some stream) :
      Step join serial w { w with stream := stream, lead := lead }
  /-- A poll that pops nothing. -/
  | poll (w : StreamRun Id Walk Item) :
      Step join serial w { w with stream := w.stream.updateBuffer join }
  /-- A ready chunk is popped and handed out. -/
  | pop (w : StreamRun Id Walk Item) (consumerWalk : Walk) (chunk : StreamChunk Item)
      (stream : StreamBuffer Id Walk Item)
      (order : serial = true → w.stream.waitingGraphEdges = [] ∧ w.outstanding = [])
      (ready : w.stream.hasChunkReady join consumerWalk = some true)
      (popped : w.stream.popChunk join = some (chunk, stream)) :
      Step join serial w { w with
        stream := stream
        chunks := w.chunks ++ [chunk]
        outstanding := w.outstanding ++ [edgeOf chunk] }
  /-- A refused edge is popped again. -/
  | popWaiting (w : StreamRun Id Walk Item) (edge : StreamingEdge Item)
      (rest : List (StreamingEdge Item)) (order : serial = true → w.outstanding = [])
      (waiting : w.stream.waitingGraphEdges = edge :: rest) :
      Step join serial w { w with
        stream := { w.stream with waitingGraphEdges := rest }
        outstanding := w.outstanding ++ [edge] }
  /-- The graph accepts an edge. -/
  | ingest (w : StreamRun Id Walk Item) (edge : StreamingEdge Item)
      (before after : List (StreamingEdge Item)) (handed : w.outstanding = before ++ edge :: after) :
      Step join serial w { w with
        accepted := w.accepted ++ [edge]
        outstanding := before ++ after }
  /-- An edge is refused and comes back. -/
  | refuse (w : StreamRun Id Walk Item) (edge : StreamingEdge Item)
      (before after : List (StreamingEdge Item)) (handed : w.outstanding = before ++ edge :: after) :
      Step join serial w { w with
        stream := w.stream.storeUningestedEdge edge
        outstanding := before ++ after }

/-- The states of runs. -/
inductive Reaches (join : List Item → Item) (serial : Bool) (policy : ChunkPolicy Walk)
    (joinDim : Option ℕ) (walkTagged : Bool) : StreamRun Id Walk Item → Prop where
  | start : Reaches join serial policy joinDim walkTagged (start policy joinDim walkTagged)
  | step {w w' : StreamRun Id Walk Item} : Reaches join serial policy joinDim walkTagged w →
      Step join serial w w' → Reaches join serial policy joinDim walkTagged w'

end StreamRun

end Mstar
