import Mstar.StreamEdges

/-!
# A stream delivers every item once, in order

Each event of a run keeps what the buffer holds, what the chunks handed out, where the
stream ends and where the edges are. So in every run the new items of the chunks are the
registered items in order, and a stream that ends does so once, with all of them.
-/

namespace Mstar

namespace StreamRun

open StreamBuffer

variable {Id Walk Item : Type} {join : List Item → Item} {serial : Bool}
  {policy : ChunkPolicy Walk} {joinDim : Option ℕ} {walkTagged : Bool}
  {w w' : StreamRun Id Walk Item} {moved : List (StreamEntry Id × Walk)}
  {items : List (Item × Walk)} {chunk : StreamChunk Item} {stream : StreamBuffer Id Walk Item}
  {stride : ℕ}

/-- What holds in every state of a run. -/
structure Inv (join : List Item → Item) (serial : Bool) (policy : ChunkPolicy Walk)
    (walkTagged : Bool) (w : StreamRun Id Walk Item) (moved : List (StreamEntry Id × Walk))
    (items : List (Item × Walk)) : Prop where
  policy_eq : w.stream.policy = policy
  tagged_eq : w.stream.walkTagged = walkTagged
  tracks : Tracks join w moved items
  handed : Handed w items
  ending : Ending w
  edges : Edges serial w

namespace Inv

/-- Nothing was registered, and nothing popped. -/
theorem start : Inv join serial policy walkTagged
    (StreamRun.start policy joinDim walkTagged : StreamRun Id Walk Item) [] [] := by
  constructor
  case policy_eq => rfl
  case tagged_eq => rfl
  case tracks =>
    constructor
    case shaped =>
      constructor
      · rfl
      · exact fun _ => rfl
      · exact fun _ => rfl
      · exact fun run hmem => absurd hmem List.not_mem_nil
    case promise => exact fun hdone => absurd hdone Bool.false_ne_true
    case held => exact fun _ _ => rfl
    case nodup => exact List.nodup_nil
    case come => exact fun id hmem => absurd hmem List.not_mem_nil
    case nonempty => exact fun entry hmem => absurd hmem List.not_mem_nil
    all_goals rfl
  case handed =>
    constructor
    case described =>
      intro early chunk late heq
      cases early <;> cases heq
    case consumed_le => exact Nat.le_refl 0
    case lead_le => exact Nat.le_refl 0
    case delivered_le => exact Nat.zero_le _
    all_goals rfl
  case ending =>
    constructor
    · exact fun _ chunk hmem => absurd hmem List.not_mem_nil
    · exact fun hemitted => absurd hemitted Bool.false_ne_true
    · exact fun hemitted => absurd hemitted Bool.false_ne_true
  case edges =>
    constructor
    · exact List.Perm.refl []
    · exact fun _ => rfl
    · exact fun _ => Nat.zero_le 1

/-- Events that leave the chunks, the counts and the end of the stream alone. -/
theorem of_kept (h : Inv join serial policy walkTagged w moved items)
    (htracks : Tracks join w' moved items) (hhanded : Handed w' items) (hedges : Edges serial w')
    (hstatic : w'.stream.policy = w.stream.policy ∧ w'.stream.walkTagged = w.stream.walkTagged)
    (hchunks : w'.chunks = w.chunks ∧ w'.stream.finalChunkEmitted = w.stream.finalChunkEmitted)
    (hend : w'.stream.producerDone = w.stream.producerDone ∧
      w'.stream.numItemsExpected = w.stream.numItemsExpected ∧
      w'.stream.numTensorsRegistered = w.stream.numTensorsRegistered ∧
      w'.stream.tensorIdsInOrder = w.stream.tensorIdsInOrder ∧
      w'.stream.buffer = w.stream.buffer) : Inv join serial policy walkTagged w' moved items := by
  obtain ⟨hdone, hexpected, hcounted, hpending, hbuffer⟩ := hend
  constructor
  · exact hstatic.1.trans h.policy_eq
  · exact hstatic.2.trans h.tagged_eq
  · exact htracks
  · exact hhanded
  · refine h.ending.of_same hchunks.1 hchunks.2 ?_
    intro _ hfinished
    constructor
    · exact hdone.trans hfinished.done
    · rw [hexpected, hcounted]
      exact hfinished.counted
    · exact hpending.trans hfinished.pending
    · exact hbuffer.trans hfinished.buffer
    · rw [hstatic.1]
      exact hfinished.stops
  · exact hedges

/-- A stream that ended registers nothing more. -/
theorem no_more (h : Inv join serial policy walkTagged w moved items)
    (hemitted : w.stream.finalChunkEmitted = true) {count : ℕ} (hpos : 0 < count)
    (hcounted : w.stream.producerDone = true →
      w.stream.numTensorsRegistered + count ≤ w.stream.numItemsExpected) : False := by
  have hfinished := h.ending.finished hemitted
  have hle := hcounted hfinished.done
  have hexpected := hfinished.counted
  omega

/-- Tensors are registered. -/
theorem register (h : Inv join serial policy walkTagged w moved items) {walk : Walk}
    {entries : List (StreamEntry Id)} (hnodup : (entries.flatMap StreamEntry.ids).Nodup)
    (hnonempty : ∀ entry ∈ entries, entry.ids ≠ [])
    (hfresh : ∀ id ∈ entries.flatMap StreamEntry.ids, id ∉ idsOf w.registered)
    (hcounted : w.stream.producerDone = true → w.stream.numTensorsRegistered +
      (entries.flatMap StreamEntry.ids).length ≤ w.stream.numItemsExpected) :
    Inv join serial policy walkTagged { w with
      stream := enterAll w.stream entries walk
      registered := w.registered ++ entries.map fun entry => (entry, walk) } moved items := by
  constructor
  case policy_eq => exact h.policy_eq
  case tagged_eq => exact h.tagged_eq
  case tracks => exact h.tracks.enterAll hnodup hnonempty hfresh hcounted
  case handed => exact h.handed.of_same rfl rfl rfl rfl rfl rfl
  case edges => exact h.edges.of_same rfl rfl rfl rfl
  case ending =>
    refine h.ending.of_same rfl rfl ?_
    intro hemitted hfinished
    cases entries with
    | nil =>
      constructor
      · exact hfinished.done
      · exact Nat.le_trans hfinished.counted (Nat.le_add_right _ _)
      · exact (List.append_nil _).trans hfinished.pending
      · exact hfinished.buffer
      · exact hfinished.stops
    | cons entry rest =>
      have hids := List.length_pos_iff.2 (hnonempty entry List.mem_cons_self)
      refine (h.no_more hemitted ?_ hcounted).elim
      rw [List.flatMap_cons, List.length_append]
      omega

section Update

variable [DecidableEq Id] [DecidableEq Walk]

/-- A buffer that is updated has moved all that arrived in order. -/
theorem update (h : Inv join serial policy walkTagged w moved items) :
    ∃ moved' items', Inv join serial policy walkTagged
        { w with stream := w.stream.updateBuffer join } moved' items' ∧
      w.inOrder join = items' := by
  obtain ⟨moved', more, htracks, hstops, hbuffer, hnil⟩ := h.tracks.update
  refine ⟨moved', items ++ more, ?_, ?_⟩
  · constructor
    case policy_eq =>
      dsimp only
      rw [updateBuffer_frame]
      exact h.policy_eq
    case tagged_eq =>
      dsimp only
      rw [updateBuffer_frame]
      exact h.tagged_eq
    case tracks => exact htracks
    case handed =>
      refine (h.handed.append h.tracks.consumed_le).of_same rfl rfl ?_ ?_ ?_ ?_ <;>
        (dsimp only; rw [updateBuffer_frame])
    case edges =>
      refine h.edges.of_same rfl rfl rfl ?_
      dsimp only
      rw [updateBuffer_frame]
    case ending =>
      refine h.ending.of_same rfl ?_ ?_
      · dsimp only
        rw [updateBuffer_frame]
      · intro _ hfinished
        constructor
        · dsimp only
          rw [updateBuffer_frame]
          exact hfinished.done
        · dsimp only
          rw [updateBuffer_frame]
          exact hfinished.counted
        · dsimp only
          rw [updateBuffer_of_nil hfinished.pending]
          exact hfinished.pending
        · dsimp only
          rw [hbuffer, hnil hfinished.pending]
          exact (List.append_nil _).trans hfinished.buffer
        · dsimp only
          rw [updateBuffer_frame]
          exact hfinished.stops
  · have heq := htracks.inOrder_eq
    change w.inOrder join = items ++ more ++ arrivedItems join w.arrived _ at heq
    rw [heq, hstops, List.append_nil]

end Update

/-- All that was counted is read: nothing is to come. -/
theorem pending_nil (h : Inv join serial policy walkTagged w moved items)
    (hread : w.stream.producerDoneAndAllRead = true) :
    w.stream.producerDone = true ∧ w.stream.numItemsExpected ≤ w.stream.numTensorsRegistered ∧
      w.stream.tensorIdsInOrder = [] := by
  unfold producerDoneAndAllRead at hread
  rw [Bool.and_eq_true, Bool.and_eq_true, decide_eq_true_eq, decide_eq_true_eq] at hread
  obtain ⟨⟨hdone, hcounted⟩, hwritten⟩ := hread
  exact ⟨hdone, hcounted, h.tracks.pending_nil hwritten⟩

/-- Nothing is to come, and the producer is done: all that was counted is read. -/
theorem allRead (h : Inv join serial policy walkTagged w moved items)
    (hdone : w.stream.producerDone = true)
    (hcounted : w.stream.numItemsExpected ≤ w.stream.numTensorsRegistered)
    (hpending : w.stream.tensorIdsInOrder = []) : w.stream.producerDoneAndAllRead = true := by
  unfold producerDoneAndAllRead
  rw [Bool.and_eq_true, Bool.and_eq_true, decide_eq_true_eq, decide_eq_true_eq]
  refine ⟨⟨hdone, hcounted⟩, ?_⟩
  rw [h.tracks.counted, h.tracks.writes, h.tracks.registered, hpending, List.append_nil]

/-- Nothing is to come of entries that all arrived, once the buffer is up to date. -/
theorem pending_of_allRead (h : Inv join serial policy walkTagged w moved items)
    (hread : AllRead join w) (heq : w.inOrder join = items) : w.stream.tensorIdsInOrder = [] := by
  have harrived := hread.arrived
  rw [heq, h.tracks.length_eq, h.tracks.registered, List.length_append] at harrived
  exact List.eq_nil_of_length_eq_zero (by omega)

/-- A stream with nothing to come and nothing buffered has delivered all. -/
theorem complete (h : Inv join serial policy walkTagged w moved items)
    (hpending : w.stream.tensorIdsInOrder = []) (hbuffer : w.stream.buffer = []) : Complete join w := by
  have heq : w.inOrder join = items := by
    rw [h.tracks.inOrder_eq, hpending]
    exact List.append_nil items
  have hconsumed : items.length ≤ w.stream.consumed := by
    have hlength := congrArg List.length (h.tracks.buffer.symm.trans hbuffer)
    rw [List.length_drop, List.length_map] at hlength
    exact Nat.le_of_sub_eq_zero hlength
  have hall : ∀ n, items.length ≤ n → (items.map Prod.fst).take n = items.map Prod.fst := by
    intro n hn
    exact List.take_of_length_le (by rwa [List.length_map])
  constructor
  · rw [h.handed.fresh, heq, hall _ (Nat.le_trans hconsumed h.handed.consumed_le)]
  · rw [h.handed.released, heq, hall _ hconsumed]

/-- A stream that ended has all that was counted. -/
theorem allRead_of_emitted (h : Inv join serial policy walkTagged w moved items)
    (hemitted : w.stream.finalChunkEmitted = true) : AllRead join w := by
  have hfinished := h.ending.finished hemitted
  constructor
  · exact hfinished.done
  · rw [← h.tracks.counted]
    exact Nat.le_antisymm hfinished.counted (h.tracks.promise hfinished.done)
  · rw [h.tracks.inOrder_eq, h.tracks.registered, hfinished.pending, List.append_nil]
    exact (congrArg List.length (List.append_nil items)).trans h.tracks.length_eq

/-- The chunks of a stream with a final one. -/
theorem emitted_of_final (h : Inv join serial policy walkTagged w moved items)
    {early late : List (StreamChunk Item)} {chunk : StreamChunk Item}
    (hchunks : w.chunks = early ++ chunk :: late) (hfinal : chunk.isFinal = true) :
    w.stream.finalChunkEmitted = true ∧ late = [] := by
  cases hemitted : w.stream.finalChunkEmitted with
  | false =>
    have hnot := h.ending.notYet hemitted chunk (by
      rw [hchunks]
      exact List.mem_append_right _ List.mem_cons_self)
    rw [hfinal] at hnot
    cases hnot
  | true =>
    refine ⟨rfl, ?_⟩
    obtain ⟨before, last, heq, -, hbefore⟩ := h.ending.ended hemitted
    rcases List.eq_nil_or_concat late with hnil | ⟨rest, other, hlate⟩
    · exact hnil
    · rw [hchunks, hlate, List.concat_eq_append, ← List.cons_append, ← List.append_assoc] at heq
      have hmem : chunk ∈ before := by
        rw [← (List.append_inj' heq rfl).1]
        exact List.mem_append_right _ List.mem_cons_self
      have hnot := hbefore chunk hmem
      rw [hfinal] at hnot
      cases hnot

section Offers

variable [DecidableEq Walk] {consumerWalk : Walk}

/-- A stream that ended offers no chunk. -/
theorem offers_of_emitted (h : Inv join serial policy walkTagged w moved items)
    (hemitted : w.stream.finalChunkEmitted = true) (consumerWalk : Walk) :
    w.stream.offers consumerWalk = some false := by
  have hfinished := h.ending.finished hemitted
  have hread := h.allRead hfinished.done hfinished.counted hfinished.pending
  unfold offers
  rw [hread, hfinished.buffer, hfinished.stops, hemitted]
  rfl

/-- A chunk is popped where the buffer offers one. -/
theorem pop (h : Inv join serial policy walkTagged w moved items)
    (horder : serial = true → w.stream.waitingGraphEdges = [] ∧ w.outstanding = [])
    (hoffers : w.stream.offers consumerWalk = some true)
    (htake : w.stream.takeChunk = some (chunk, stream)) :
    Inv join serial policy walkTagged { w with
      stream := stream
      chunks := w.chunks ++ [chunk]
      outstanding := w.outstanding ++ [edgeOf chunk] } moved items := by
  obtain ⟨stride, hpop⟩ := takeChunk_popped h.tracks.shaped hoffers htake
  have hnot : w.stream.finalChunkEmitted = false := by
    cases hemitted : w.stream.finalChunkEmitted with
    | false => rfl
    | true =>
      rw [h.offers_of_emitted hemitted] at hoffers
      cases hoffers
  have hearly := h.ending.notYet hnot
  have hfinal : stream.finalChunkEmitted = chunk.isFinal := by
    rw [hpop.after, hpop.final]
    change (w.stream.finalChunkEmitted || _) = _
    rw [hnot, Bool.false_or]
  constructor
  case policy_eq =>
    dsimp only
    rw [hpop.after]
    exact h.policy_eq
  case tagged_eq =>
    dsimp only
    rw [hpop.after]
    exact h.tagged_eq
  case tracks => exact h.tracks.pop hpop
  case handed => exact h.handed.pop h.tracks hpop
  case edges =>
    refine h.edges.pop horder ?_
    rw [hpop.after]
    rfl
  case ending =>
    constructor
    · intro hemitted other hmem
      rcases List.mem_append.1 hmem with hmem | hmem
      · exact hearly other hmem
      · rw [List.mem_singleton.1 hmem, ← hfinal]
        exact hemitted
    · intro hemitted
      refine ⟨w.chunks, chunk, rfl, ?_, hearly⟩
      rw [← hfinal]
      exact hemitted
    · intro hemitted
      have hends : (w.stream.advance stride).ends = true := by
        rw [← hpop.final, ← hfinal]
        exact hemitted
      unfold ends at hends
      rw [Bool.and_eq_true, Bool.and_eq_true, Bool.not_eq_true', List.isEmpty_iff] at hends
      obtain ⟨⟨hread, hempty⟩, hstops⟩ := hends
      obtain ⟨hdone, hcounted, hpending⟩ := h.pending_nil hread
      dsimp only
      rw [hpop.after]
      exact ⟨hdone, hcounted, hpending, hempty, hstops⟩

end Offers

variable [DecidableEq Id] [DecidableEq Walk]

/-- Every event of a run keeps what holds. -/
theorem step (h : Inv join serial policy walkTagged w moved items) (hstep : Step join serial w w') :
    ∃ moved' items', Inv join serial policy walkTagged w' moved' items' := by
  cases hstep with
  | preReadRegister id walk fresh counted =>
    have hone : ([StreamEntry.single id].flatMap StreamEntry.ids) = [id] := rfl
    refine ⟨moved, items, ?_⟩
    rw [preReadRegister_eq]
    exact h.register (hone ▸ List.nodup_cons.2 ⟨List.not_mem_nil, List.nodup_nil⟩)
      (fun entry hmem => List.mem_singleton.1 hmem ▸ List.cons_ne_nil id [])
      (fun other hmem => List.mem_singleton.1 (hone ▸ hmem) ▸ fresh) counted
  | preReadRegisterJoined ids walk nodup fresh counted =>
    have hids := flatMap_entriesOf w.stream.joinDim ids
    refine ⟨moved, items, ?_⟩
    rw [preReadRegisterJoined_eq]
    refine h.register ?_ (fun entry hmem => ids_ne_nil_of_mem_entriesOf hmem) ?_ ?_
    · rw [hids]
      exact nodup
    · rw [hids]
      exact fresh
    · rw [hids]
      exact counted
  | put id item once =>
    refine ⟨moved, items, h.of_kept (h.tracks.put item once) ?_ ?_ ⟨rfl, rfl⟩ ⟨rfl, rfl⟩
      ⟨rfl, rfl, rfl, rfl, rfl⟩⟩
    · exact h.handed.of_same rfl rfl rfl rfl rfl rfl
    · exact h.edges.of_same rfl rfl rfl rfl
  | signalDone numItems counted same =>
    refine ⟨moved, items, ?_⟩
    constructor
    case policy_eq => exact h.policy_eq
    case tagged_eq => exact h.tagged_eq
    case tracks => exact h.tracks.of_same rfl rfl ⟨rfl, rfl, rfl, rfl, rfl, rfl, rfl, rfl⟩ fun _ => counted
    case handed => exact h.handed.of_same rfl rfl rfl rfl rfl rfl
    case ending =>
      refine h.ending.of_same rfl rfl ?_
      intro _ hfinished
      constructor
      · rfl
      · change numItems ≤ w.stream.numTensorsRegistered
        rw [same hfinished.done]
        exact hfinished.counted
      · exact hfinished.pending
      · exact hfinished.buffer
      · exact hfinished.stops
    case edges => exact h.edges.of_same rfl rfl rfl rfl
  | primeContext lead stream first primed =>
    have hhanded := h.handed.prime first primed
    obtain ⟨state, -, rfl⟩ := Option.map_eq_some_iff.1 primed
    refine ⟨moved, items, h.of_kept ?_ hhanded ?_ ⟨rfl, rfl⟩ ⟨rfl, rfl⟩ ⟨rfl, rfl, rfl, rfl, rfl⟩⟩
    · exact h.tracks.of_same rfl rfl ⟨rfl, rfl, rfl, rfl, rfl, rfl, rfl, rfl⟩ h.tracks.promise
    · exact h.edges.of_same rfl rfl rfl rfl
  | poll =>
    obtain ⟨moved', items', hnext, -⟩ := h.update
    exact ⟨moved', items', hnext⟩
  | pop consumerWalk chunk stream order ready popped =>
    obtain ⟨moved', items', hnext, -⟩ := h.update
    refine ⟨moved', items', hnext.pop ?_ ready popped⟩
    intro hserial
    dsimp only
    rw [updateBuffer_frame]
    exact order hserial
  | popWaiting edge rest order waiting =>
    refine ⟨moved, items, h.of_kept ?_ ?_ (h.edges.popWaiting waiting) ⟨rfl, rfl⟩ ⟨rfl, rfl⟩
      ⟨rfl, rfl, rfl, rfl, rfl⟩⟩
    · exact h.tracks.of_same rfl rfl ⟨rfl, rfl, rfl, rfl, rfl, rfl, rfl, rfl⟩ h.tracks.promise
    · exact h.handed.of_same rfl rfl rfl rfl rfl rfl
  | ingest edge before after handed =>
    refine ⟨moved, items, h.of_kept ?_ ?_ (h.edges.ingest handed) ⟨rfl, rfl⟩ ⟨rfl, rfl⟩
      ⟨rfl, rfl, rfl, rfl, rfl⟩⟩
    · exact h.tracks.of_same rfl rfl ⟨rfl, rfl, rfl, rfl, rfl, rfl, rfl, rfl⟩ h.tracks.promise
    · exact h.handed.of_same rfl rfl rfl rfl rfl rfl
  | refuse edge before after handed =>
    refine ⟨moved, items, h.of_kept ?_ ?_ (h.edges.refuse handed) ⟨rfl, rfl⟩ ⟨rfl, rfl⟩
      ⟨rfl, rfl, rfl, rfl, rfl⟩⟩
    · exact h.tracks.of_same rfl rfl ⟨rfl, rfl, rfl, rfl, rfl, rfl, rfl, rfl⟩ h.tracks.promise
    · exact h.handed.of_same rfl rfl rfl rfl rfl rfl

/-- What holds in every state of a run. -/
theorem of_reaches (h : Reaches join serial policy joinDim walkTagged w) :
    ∃ moved items, Inv join serial policy walkTagged w moved items := by
  induction h with
  | start => exact ⟨[], [], Inv.start⟩
  | step _ hstep ih =>
    obtain ⟨moved, items, hinv⟩ := ih
    exact hinv.step hstep

end Inv

end StreamRun

end Mstar
