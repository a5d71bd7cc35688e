import Mstar.StreamRuns

/-!
# The chunks of a stream

What the chunks popped so far have handed out, each described at its own place among the
items, and where the stream ends. Neither is changed by anything but a pop.
-/

namespace Mstar

/-- The items of a chunk that no earlier one handed out. -/
def StreamChunk.fresh {Item : Type} (chunk : StreamChunk Item) : List Item :=
  chunk.data.drop chunk.contextItems

namespace StreamRun

open StreamBuffer

section Slices

variable {α : Type} {list more : List α} {a b c : ℕ}

/-- A part of a list is its first part and the rest of it. -/
theorem slice_append (hab : a ≤ b) (hbc : b ≤ c) :
    (list.take b).drop a ++ (list.take c).drop b = (list.take c).drop a := by
  have hsplit : list.take c = list.take b ++ (list.take c).drop b := by
    conv_lhs => rw [← List.take_append_drop b (list.take c), List.take_take, Nat.min_eq_left hbc]
  by_cases hlong : a ≤ list.length
  · conv_rhs => rw [hsplit]
    rw [List.drop_append_of_le_length]
    rw [List.length_take]
    omega
  · have hnil : ∀ n m, a ≤ n → (list.take m).drop n = [] := by
      intro n m hn
      apply List.drop_eq_nil_of_le
      rw [List.length_take]
      omega
    rw [hnil a b (Nat.le_refl _), hnil b c hab, hnil a c (Nat.le_refl _)]
    rfl

/-- A part that lies within a list lies there in every longer one. -/
theorem slice_of_append (h : a + b ≤ list.length) :
    ((list ++ more).drop a).take b = (list.drop a).take b := by
  rw [List.drop_append_of_le_length (by omega), List.take_append_of_le_length]
  rw [List.length_drop]
  omega

end Slices

variable {Id Walk Item : Type} {join : List Item → Item} {w w' : StreamRun Id Walk Item}
  {items more : List (Item × Walk)} {lead : ℕ} {early chunks : List (StreamChunk Item)}
  {chunk : StreamChunk Item} {stream : StreamBuffer Id Walk Item} {stride : ℕ}

/-- The position past the last item that chunks handed out, or past the primed lead. -/
def handedOut (lead : ℕ) (chunks : List (StreamChunk Item)) : ℕ :=
  chunks.foldl (fun ended chunk => max ended (chunk.startOffset + chunk.numItems)) lead

/-- A chunk's own description, against the items and the chunks before it. -/
structure Described (walkTagged : Bool) (items : List (Item × Walk)) (lead : ℕ)
    (early : List (StreamChunk Item)) (chunk : StreamChunk Item) : Prop where
  /-- It starts past all that was released. -/
  start : chunk.startOffset = (early.flatMap StreamChunk.released).length
  within : chunk.startOffset + chunk.numItems ≤ items.length
  /-- It is the items at its place. -/
  data : chunk.data = ((items.map Prod.fst).drop chunk.startOffset).take chunk.numItems
  /-- Its context is what of it was handed out before. -/
  context : chunk.contextItems = min (handedOut lead early - chunk.startOffset) chunk.numItems
  /-- No item is left out before it, the lead apart. -/
  gapless : chunk.startOffset ≤ handedOut lead early
  index : chunk.chunkIndex = early.length
  /-- It does not span two walks. -/
  walk : walkTagged = true → ∀ item ∈ (items.drop chunk.startOffset).take chunk.numItems,
    ∀ other ∈ (items.drop chunk.startOffset).take chunk.numItems, item.2 = other.2

/-- More items leave a chunk's description as it is. -/
theorem Described.append {walkTagged : Bool} (h : Described walkTagged items lead early chunk) :
    Described walkTagged (items ++ more) lead early chunk := by
  constructor
  case within =>
    rw [List.length_append]
    exact Nat.le_trans h.within (Nat.le_add_right _ _)
  case data =>
    rw [List.map_append, slice_of_append (by rw [List.length_map]; exact h.within)]
    exact h.data
  case walk =>
    rw [slice_of_append h.within]
    exact h.walk
  case start => exact h.start
  case context => exact h.context
  case gapless => exact h.gapless
  case index => exact h.index

/-- What the chunks so far have handed out and released. -/
structure Handed (w : StreamRun Id Walk Item) (items : List (Item × Walk)) : Prop where
  consumed_eq : w.stream.consumed = (w.chunks.flatMap StreamChunk.released).length
  consumed_le : w.stream.consumed ≤ w.stream.deliveredEnd
  delivered_eq : w.stream.deliveredEnd = handedOut w.lead w.chunks
  lead_le : w.lead ≤ w.stream.deliveredEnd
  delivered_le : w.stream.deliveredEnd ≤ max w.lead items.length
  popped : w.stream.chunksPopped = w.chunks.length
  /-- The new items of the chunks are the first ones past the lead. -/
  fresh : w.chunks.flatMap StreamChunk.fresh =
    ((items.map Prod.fst).take w.stream.deliveredEnd).drop w.lead
  /-- The released items are the first ones. -/
  released : w.chunks.flatMap StreamChunk.released = (items.map Prod.fst).take w.stream.consumed
  described : ∀ early chunk late, w.chunks = early ++ chunk :: late →
    Described w.stream.walkTagged items w.lead early chunk

namespace Handed

/-- More items leave what was handed out as it is. -/
theorem append (h : Handed w items) (hle : w.stream.consumed ≤ items.length) :
    Handed w (items ++ more) := by
  constructor
  case delivered_le =>
    have hdelivered := h.delivered_le
    rw [List.length_append]
    omega
  case fresh =>
    rw [h.fresh, List.map_append]
    by_cases hlong : w.stream.deliveredEnd ≤ items.length
    · rw [List.take_append_of_le_length (by rwa [List.length_map])]
    · -- then nothing past the lead was handed out
      have hdelivered := h.delivered_le
      have heq : w.stream.deliveredEnd = w.lead := Nat.le_antisymm (by omega) h.lead_le
      have hnil : ∀ list : List Item, (list.take w.stream.deliveredEnd).drop w.lead = [] := by
        intro list
        apply List.drop_eq_nil_of_le
        rw [List.length_take, heq]
        exact Nat.min_le_left _ _
      rw [hnil, hnil]
  case released =>
    rw [h.released, List.map_append, List.take_append_of_le_length (by rwa [List.length_map])]
  case described => exact fun early chunk late heq => (h.described early chunk late heq).append
  case consumed_eq => exact h.consumed_eq
  case consumed_le => exact h.consumed_le
  case delivered_eq => exact h.delivered_eq
  case lead_le => exact h.lead_le
  case popped => exact h.popped

/-- Events that leave the chunks and the buffer's positions alone. -/
theorem of_same (h : Handed w items) (hchunks : w'.chunks = w.chunks) (hlead : w'.lead = w.lead)
    (hconsumed : w'.stream.consumed = w.stream.consumed)
    (hdelivered : w'.stream.deliveredEnd = w.stream.deliveredEnd)
    (hpopped : w'.stream.chunksPopped = w.stream.chunksPopped)
    (htagged : w'.stream.walkTagged = w.stream.walkTagged) : Handed w' items := by
  constructor
  · rw [hconsumed, hchunks]
    exact h.consumed_eq
  · rw [hconsumed, hdelivered]
    exact h.consumed_le
  · rw [hdelivered, hlead, hchunks]
    exact h.delivered_eq
  · rw [hdelivered, hlead]
    exact h.lead_le
  · rw [hdelivered, hlead]
    exact h.delivered_le
  · rw [hpopped, hchunks]
    exact h.popped
  · rw [hdelivered, hlead, hchunks]
    exact h.fresh
  · rw [hconsumed, hchunks]
    exact h.released
  · rw [htagged, hlead, hchunks]
    exact h.described

/-- Priming before the first chunk sets the lead. -/
theorem prime (h : Handed w items) (hfirst : w.stream.chunksPopped = 0)
    (hprime : w.stream.primeContext lead = some stream) :
    Handed { w with stream := stream, lead := lead } items := by
  have hchunks : w.chunks = [] := List.eq_nil_of_length_eq_zero (h.popped.symm.trans hfirst)
  have hconsumed : w.stream.consumed = 0 := by
    rw [h.consumed_eq, hchunks]
    rfl
  obtain ⟨state, -, rfl⟩ := Option.map_eq_some_iff.1 hprime
  constructor
  case consumed_eq => exact h.consumed_eq
  case consumed_le =>
    change w.stream.consumed ≤ lead
    omega
  case delivered_eq =>
    change lead = handedOut lead w.chunks
    rw [hchunks]
    rfl
  case lead_le => exact Nat.le_refl lead
  case delivered_le => exact Nat.le_max_left _ _
  case popped => exact h.popped
  case fresh =>
    change w.chunks.flatMap StreamChunk.fresh = ((items.map Prod.fst).take lead).drop lead
    rw [hchunks, List.drop_eq_nil_of_le (by rw [List.length_take]; exact Nat.min_le_left _ _)]
    rfl
  case released => exact h.released
  case described =>
    intro early chunk late heq
    change w.chunks = _ at heq
    rw [hchunks] at heq
    cases early <;> cases heq

/-- A popped chunk is described at its place. -/
theorem describes {moved : List (StreamEntry Id × Walk)} (h : Handed w items)
    (htracks : Tracks join w moved items) (hpop : Popped w.stream chunk stream stride) :
    Described w.stream.walkTagged items w.lead w.chunks chunk := by
  have hwithin : w.stream.consumed + chunk.numItems ≤ items.length := by
    have hshown := hpop.shown_le
    have hconsumed := htracks.consumed_le
    rw [htracks.buffer, List.length_drop, List.length_map] at hshown
    omega
  constructor
  · rw [hpop.start]
    exact h.consumed_eq
  · rw [hpop.start]
    exact hwithin
  · rw [hpop.start, hpop.data, htracks.buffer]
  · rw [hpop.start, hpop.context, h.delivered_eq]
  · rw [hpop.start, ← h.delivered_eq]
    exact h.consumed_le
  · rw [hpop.index]
    exact h.popped
  · intro htagged
    rw [hpop.start]
    have hin : ∀ item ∈ (items.drop w.stream.consumed).take chunk.numItems,
        item.2 ∈ ((items.map Prod.snd).drop w.stream.consumed).take w.stream.walkRunLen := by
      intro item hmem
      rw [← List.map_drop, ← List.map_take]
      exact List.mem_map_of_mem (List.take_subset_take_left _ hpop.shown_run hmem)
    intro item hitem other hother
    rcases htracks.shaped.leading_run htagged with ⟨-, hzero⟩ | ⟨walk, hall⟩
    · have hnone : chunk.numItems = 0 := Nat.le_zero.1 (hzero ▸ hpop.shown_run)
      rw [hnone] at hitem
      cases hitem
    · rw [hall item.2 (hin item hitem), hall other.2 (hin other hother)]

/-- The new items of a popped chunk go on where the earlier chunks ended. -/
theorem fresh_pop {moved : List (StreamEntry Id × Walk)} (h : Handed w items)
    (htracks : Tracks join w moved items) (hpop : Popped w.stream chunk stream stride) :
    chunk.fresh = ((items.map Prod.fst).take
      (max w.stream.deliveredEnd (w.stream.consumed + chunk.numItems))).drop w.stream.deliveredEnd := by
  have hconsumed := h.consumed_le
  unfold StreamChunk.fresh
  rw [hpop.context, hpop.data, htracks.buffer]
  by_cases hall : w.stream.consumed + chunk.numItems ≤ w.stream.deliveredEnd
  · -- the chunk shows nothing new
    rw [Nat.max_eq_left hall, Nat.min_eq_right (by omega)]
    rw [List.drop_eq_nil_of_le (by rw [List.length_take]; exact Nat.min_le_left _ _),
      List.drop_eq_nil_of_le (by rw [List.length_take]; exact Nat.min_le_left _ _)]
  · have hnum : chunk.numItems - (w.stream.deliveredEnd - w.stream.consumed) =
        w.stream.consumed + chunk.numItems - w.stream.deliveredEnd := by omega
    rw [Nat.max_eq_right (by omega), Nat.min_eq_left (by omega), List.drop_take, List.drop_take,
      List.drop_drop, Nat.add_sub_cancel' hconsumed, hnum]

/-- What was handed out after one more chunk. -/
theorem pop {moved : List (StreamEntry Id × Walk)} {outstanding : List (StreamingEdge Item)}
    (h : Handed w items) (htracks : Tracks join w moved items)
    (hpop : Popped w.stream chunk stream stride) :
    Handed { w with
      stream := stream, chunks := w.chunks ++ [chunk], outstanding := outstanding } items := by
  have hdescribed := h.describes htracks hpop
  have hconsumed := h.consumed_le
  have hlead := h.lead_le
  have hstride := hpop.stride_le
  have hwithin := hdescribed.within
  rw [hpop.start] at hwithin
  have hreleased : chunk.released.length = stride := by
    rw [hpop.released, List.length_take]
    have hshown := hpop.shown_le
    omega
  rw [hpop.after]
  have hended : (w.stream.afterCut chunk.numItems stride).deliveredEnd =
      max w.stream.deliveredEnd (w.stream.consumed + chunk.numItems) := by
    change max w.stream.deliveredEnd (w.stream.consumed + (w.stream.buffer.take chunk.numItems).length) = _
    rw [List.length_take, Nat.min_eq_left hpop.shown_le]
  constructor
  case consumed_eq =>
    rw [List.flatMap_append, List.length_append, ← h.consumed_eq, List.flatMap_singleton, hreleased]
    rfl
  case consumed_le =>
    change w.stream.consumed + stride ≤ (w.stream.afterCut chunk.numItems stride).deliveredEnd
    rw [hended]
    omega
  case delivered_eq =>
    change (w.stream.afterCut chunk.numItems stride).deliveredEnd = _
    rw [hended, h.delivered_eq, ← hpop.start]
    unfold handedOut
    rw [List.foldl_append]
    rfl
  case lead_le =>
    change w.lead ≤ (w.stream.afterCut chunk.numItems stride).deliveredEnd
    rw [hended]
    omega
  case delivered_le =>
    have hdelivered := h.delivered_le
    change (w.stream.afterCut chunk.numItems stride).deliveredEnd ≤ max w.lead items.length
    rw [hended]
    omega
  case popped =>
    change w.stream.chunksPopped + 1 = (w.chunks ++ [chunk]).length
    rw [h.popped, List.length_append]
    rfl
  case fresh =>
    change (w.chunks ++ [chunk]).flatMap StreamChunk.fresh =
      ((items.map Prod.fst).take (w.stream.afterCut chunk.numItems stride).deliveredEnd).drop w.lead
    rw [hended, List.flatMap_append, List.flatMap_singleton, h.fresh, h.fresh_pop htracks hpop]
    exact slice_append hlead (Nat.le_max_left _ _)
  case released =>
    change (w.chunks ++ [chunk]).flatMap StreamChunk.released =
      (items.map Prod.fst).take (w.stream.consumed + stride)
    rw [List.flatMap_append, List.flatMap_singleton, h.released, hpop.released, htracks.buffer,
      List.take_add]
  case described =>
    intro early other late heq
    change w.chunks ++ [chunk] = _ at heq
    rcases List.eq_nil_or_concat late with hnil | ⟨rest, last, hlate⟩
    · rw [hnil] at heq
      obtain ⟨hearly, hother⟩ := List.append_inj' heq rfl
      cases hother
      rw [← hearly]
      exact hdescribed
    · rw [hlate, List.concat_eq_append, ← List.cons_append, ← List.append_assoc] at heq
      exact h.described early other rest (List.append_inj' heq rfl).1

end Handed

end StreamRun

end Mstar
