import Mstar.StreamChunks

/-!
# The edges and the end of a stream

A popped chunk's edge is accepted, handed out or waiting to be popped again. A final
chunk is the last one, of a stream that has nothing left. Tensors that are registered
together are registered entry by entry.
-/

namespace Mstar

namespace StreamRun

open StreamBuffer

variable {Id Walk Item : Type} {join : List Item → Item} {serial : Bool}
  {policy : ChunkPolicy Walk} {joinDim : Option ℕ} {walkTagged : Bool}
  {w w' : StreamRun Id Walk Item} {moved : List (StreamEntry Id × Walk)}
  {items more : List (Item × Walk)} {chunk : StreamChunk Item} {stream : StreamBuffer Id Walk Item}
  {stride : ℕ} {entries : List (StreamEntry Id)} {walk : Walk}

/-- A stream with nothing left: the producer is done, and all it counted was released. -/
structure Finished (b : StreamBuffer Id Walk Item) : Prop where
  done : b.producerDone = true
  counted : b.numItemsExpected ≤ b.numTensorsRegistered
  pending : b.tensorIdsInOrder = []
  buffer : b.buffer = []
  stops : b.policy.continueAfterProducerDone = false

/-- A final chunk is the last one, of a finished stream. -/
structure Ending (w : StreamRun Id Walk Item) : Prop where
  notYet : w.stream.finalChunkEmitted = false → ∀ chunk ∈ w.chunks, chunk.isFinal = false
  ended : w.stream.finalChunkEmitted = true → ∃ early chunk, w.chunks = early ++ [chunk] ∧
    chunk.isFinal = true ∧ ∀ other ∈ early, other.isFinal = false
  finished : w.stream.finalChunkEmitted = true → Finished w.stream

/-- Every popped edge is accepted, handed out or waiting, and in a serial run in order. -/
structure Edges (serial : Bool) (w : StreamRun Id Walk Item) : Prop where
  perm : (w.accepted ++ (w.outstanding ++ w.stream.waitingGraphEdges)).Perm (w.chunks.map edgeOf)
  order : serial = true →
    w.accepted ++ (w.outstanding ++ w.stream.waitingGraphEdges) = w.chunks.map edgeOf
  single : serial = true → (w.outstanding ++ w.stream.waitingGraphEdges).length ≤ 1

/-- Everything that was counted is registered and arrived. -/
structure AllRead (join : List Item → Item) (w : StreamRun Id Walk Item) : Prop where
  done : w.stream.producerDone = true
  registered : w.stream.numItemsExpected = (idsOf w.registered).length
  arrived : (w.inOrder join).length = w.registered.length

/-- Every registered item past the lead was handed out, and every item was released. -/
structure Complete (join : List Item → Item) (w : StreamRun Id Walk Item) : Prop where
  fresh : w.chunks.flatMap StreamChunk.fresh = ((w.inOrder join).map Prod.fst).drop w.lead
  released : w.chunks.flatMap StreamChunk.released = (w.inOrder join).map Prod.fst

/-- A buffer with entries of one walk registered. -/
def enterAll (b : StreamBuffer Id Walk Item) (entries : List (StreamEntry Id)) (walk : Walk) :
    StreamBuffer Id Walk Item :=
  { b with
    numTensorsRegistered := b.numTensorsRegistered + (entries.flatMap StreamEntry.ids).length
    tensorIdsInOrder := b.tensorIdsInOrder ++ entries.map fun entry => (entry, walk) }

/-- Entering one entry after another. -/
theorem foldl_enter (entries : List (StreamEntry Id)) (b : StreamBuffer Id Walk Item) :
    entries.foldl (fun b entry => b.enter entry walk) b = enterAll b entries walk := by
  induction entries generalizing b with
  | nil =>
    unfold enterAll
    simp
  | cons entry rest ih =>
    rw [List.foldl_cons, ih]
    unfold enterAll enter
    simp [Nat.add_assoc]

/-- Tensors registered together are their entries, entered in order. -/
theorem preReadRegisterJoined_eq (b : StreamBuffer Id Walk Item) (ids : List Id) :
    b.preReadRegisterJoined ids walk = enterAll b (entriesOf b.joinDim ids) walk := by
  rw [← foldl_enter]
  unfold preReadRegisterJoined entriesOf
  split
  · rw [List.foldl_map]
    rfl
  · split <;> rfl

/-- A tensor registered alone is an entry. -/
theorem preReadRegister_eq (b : StreamBuffer Id Walk Item) (id : Id) :
    b.preReadRegister id walk = enterAll b [.single id] walk := rfl

/-- The entries of tensors have these tensors. -/
theorem flatMap_entriesOf (joinDim : Option ℕ) (ids : List Id) :
    (entriesOf joinDim ids).flatMap StreamEntry.ids = ids := by
  unfold entriesOf
  split
  · rw [List.flatMap_map]
    exact List.flatMap_singleton' ids
  · split
    next hnil => rw [hnil]; rfl
    next => exact List.flatMap_singleton _ _

/-- No entry is without tensors. -/
theorem ids_ne_nil_of_mem_entriesOf {ids : List Id} {entry : StreamEntry Id}
    (h : entry ∈ entriesOf joinDim ids) : entry.ids ≠ [] := by
  unfold entriesOf at h
  split at h
  · obtain ⟨id, -, rfl⟩ := List.mem_map.1 h
    exact List.cons_ne_nil id []
  · split at h
    next => cases h
    next hne =>
      rw [List.mem_singleton.1 h]
      exact hne

/-- Entries of new tensors are registered. -/
theorem Tracks.enterAll (h : Tracks join w moved items)
    (hnodup : (entries.flatMap StreamEntry.ids).Nodup) (hnonempty : ∀ entry ∈ entries, entry.ids ≠ [])
    (hfresh : ∀ id ∈ entries.flatMap StreamEntry.ids, id ∉ idsOf w.registered)
    (hcounted : w.stream.producerDone = true → w.stream.numTensorsRegistered +
      (entries.flatMap StreamEntry.ids).length ≤ w.stream.numItemsExpected) :
    Tracks join { w with
      stream := StreamRun.enterAll w.stream entries walk
      registered := w.registered ++ entries.map fun entry => (entry, walk) } moved items := by
  rw [← foldl_enter]
  induction entries generalizing w with
  | nil =>
    rw [List.map_nil, List.append_nil]
    exact h
  | cons entry rest ih =>
    rw [List.flatMap_cons] at hnodup hfresh hcounted
    obtain ⟨hentry, hrest, hdisjoint⟩ := List.nodup_append.1 hnodup
    have hnext := h.enter entry walk hentry (hnonempty entry List.mem_cons_self)
      (fun id hmem => hfresh id (List.mem_append_left _ hmem)) (by
        intro hdone
        have hle := hcounted hdone
        rw [List.length_append] at hle
        omega)
    have htracks := ih hnext hrest (fun other hmem => hnonempty other (List.mem_cons_of_mem _ hmem)) (by
        intro id hmem hin
        rw [idsOf_append, idsOf_cons, idsOf_nil, List.append_nil] at hin
        rcases List.mem_append.1 hin with hin | hin
        · exact hfresh id (List.mem_append_right _ hmem) hin
        · exact hdisjoint id hin id hmem rfl) (by
        intro hdone
        have hle := hcounted hdone
        rw [List.length_append] at hle
        change w.stream.numTensorsRegistered + entry.ids.length + _ ≤ w.stream.numItemsExpected
        omega)
    rw [List.map_cons, List.append_cons]
    exact htracks

namespace Ending

/-- Events that leave the chunks and the end of the stream alone. -/
theorem of_same (h : Ending w) (hchunks : w'.chunks = w.chunks)
    (hfinal : w'.stream.finalChunkEmitted = w.stream.finalChunkEmitted)
    (hfinished : w.stream.finalChunkEmitted = true → Finished w.stream → Finished w'.stream) :
    Ending w' := by
  constructor
  · rw [hfinal, hchunks]
    exact h.notYet
  · rw [hfinal, hchunks]
    exact h.ended
  · rw [hfinal]
    exact fun hemitted => hfinished hemitted (h.finished hemitted)

end Ending

namespace Edges

/-- Events that leave the chunks and the edges alone. -/
theorem of_same (h : Edges serial w) (hchunks : w'.chunks = w.chunks)
    (haccepted : w'.accepted = w.accepted) (houtstanding : w'.outstanding = w.outstanding)
    (hwaiting : w'.stream.waitingGraphEdges = w.stream.waitingGraphEdges) : Edges serial w' := by
  constructor
  · rw [haccepted, houtstanding, hwaiting, hchunks]
    exact h.perm
  · rw [haccepted, houtstanding, hwaiting, hchunks]
    exact h.order
  · rw [houtstanding, hwaiting]
    exact h.single

/-- A popped chunk's edge is handed out. -/
theorem pop (h : Edges serial w)
    (horder : serial = true → w.stream.waitingGraphEdges = [] ∧ w.outstanding = [])
    (hwaiting : stream.waitingGraphEdges = w.stream.waitingGraphEdges) :
    Edges serial { w with
      stream := stream
      chunks := w.chunks ++ [chunk]
      outstanding := w.outstanding ++ [edgeOf chunk] } := by
  constructor
  · dsimp only
    rw [hwaiting, List.map_append, List.map_singleton, List.append_assoc, ← List.append_assoc]
    refine List.Perm.trans ?_ (h.perm.append_right [edgeOf chunk])
    rw [List.append_assoc w.accepted, ← List.append_assoc]
    rw [← List.append_assoc w.accepted, List.append_assoc (w.accepted ++ w.outstanding)]
    exact (List.perm_append_comm).append_left _
  · intro hserial
    obtain ⟨hnone, hfree⟩ := horder hserial
    have heq := h.order hserial
    dsimp only
    rw [hnone, hfree, List.append_nil, List.append_nil] at heq
    rw [hwaiting, hnone, hfree, List.map_append, ← heq]
    rfl
  · intro hserial
    obtain ⟨hnone, hfree⟩ := horder hserial
    dsimp only
    rw [hwaiting, hnone, hfree]
    exact Nat.le_refl 1

/-- A waiting edge is handed out again. -/
theorem popWaiting {edge : StreamingEdge Item} {rest : List (StreamingEdge Item)} (h : Edges serial w)
    (hwaiting : w.stream.waitingGraphEdges = edge :: rest) :
    Edges serial { w with
      stream := { w.stream with waitingGraphEdges := rest }
      outstanding := w.outstanding ++ [edge] } := by
  have heq : w.outstanding ++ [edge] ++ rest = w.outstanding ++ w.stream.waitingGraphEdges := by
    rw [hwaiting, List.append_assoc]
    rfl
  constructor
  · dsimp only
    rw [heq]
    exact h.perm
  · dsimp only
    rw [heq]
    exact h.order
  · dsimp only
    rw [heq]
    exact h.single

/-- An edge handed out alone is the only one there is. -/
theorem alone {edge : StreamingEdge Item} {before after : List (StreamingEdge Item)}
    (h : Edges serial w) (hserial : serial = true) (hhanded : w.outstanding = before ++ edge :: after) :
    before = [] ∧ after = [] ∧ w.stream.waitingGraphEdges = [] := by
  have hsingle := h.single hserial
  rw [hhanded, List.length_append, List.length_append, List.length_cons] at hsingle
  refine ⟨?_, ?_, ?_⟩ <;> exact List.eq_nil_of_length_eq_zero (by omega)

/-- An edge that is accepted is not handed out any more. -/
theorem ingest {edge : StreamingEdge Item} {before after : List (StreamingEdge Item)}
    (h : Edges serial w) (hhanded : w.outstanding = before ++ edge :: after) :
    Edges serial { w with accepted := w.accepted ++ [edge], outstanding := before ++ after } := by
  constructor
  · refine List.Perm.trans ?_ h.perm
    dsimp only
    rw [hhanded, List.append_assoc]
    exact (List.perm_middle.symm.append_right _).append_left _
  · intro hserial
    obtain ⟨hbefore, hafter, hnone⟩ := h.alone hserial hhanded
    rw [← h.order hserial]
    dsimp only
    rw [hhanded, hbefore, hafter, hnone, List.append_assoc]
    rfl
  · intro hserial
    obtain ⟨hbefore, hafter, hnone⟩ := h.alone hserial hhanded
    dsimp only
    rw [hbefore, hafter, hnone]
    exact Nat.zero_le 1

/-- An edge that is refused waits. -/
theorem refuse {edge : StreamingEdge Item} {before after : List (StreamingEdge Item)}
    (h : Edges serial w) (hhanded : w.outstanding = before ++ edge :: after) :
    Edges serial { w with
      stream := w.stream.storeUningestedEdge edge, outstanding := before ++ after } := by
  constructor
  · refine List.Perm.trans ?_ h.perm
    dsimp only [storeUningestedEdge]
    rw [hhanded, ← List.append_assoc (before ++ after)]
    refine List.Perm.append_left _ ((List.perm_append_singleton edge _).trans ?_)
    exact List.perm_middle.symm.append_right _
  · intro hserial
    obtain ⟨hbefore, hafter, hnone⟩ := h.alone hserial hhanded
    rw [← h.order hserial]
    dsimp only [storeUningestedEdge]
    rw [hhanded, hbefore, hafter, hnone]
    rfl
  · intro hserial
    obtain ⟨hbefore, hafter, hnone⟩ := h.alone hserial hhanded
    dsimp only [storeUningestedEdge]
    rw [hbefore, hafter, hnone]
    exact Nat.le_refl 1

end Edges

end StreamRun

end Mstar
