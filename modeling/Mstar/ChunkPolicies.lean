import Mathlib.Data.List.Basic
import Mathlib.Data.Nat.Notation

/-!
# Chunk policies

A chunk policy says when a stream has enough items for its consumer, how many of
them the next chunk shows (its window) and by how many the stream advances (its
stride). Whatever the policy, a chunk is ready exactly when its window is
buffered, and the stride never leaves the window.
-/

namespace Mstar

/-- Whether empty chunks keep coming after the producer is done: always or never,
or only while the consumer is in one of some walks. -/
inductive ContinueAfterDone (Walk : Type) where
  /-- The same in every walk. -/
  | flag (value : Bool)
  /-- Only in these walks. -/
  | walks (names : List Walk)

/-- The policies, with what their users and constructors promise of the numbers. -/
inductive ChunkPolicy (Walk : Type) where
  /-- A window of fixed size that advances by a stride. -/
  | slidingWindow (window stride : ℕ) (positive : 1 ≤ stride) (within : stride ≤ window)
  /-- Chunks that repeat the tail of the one before them. -/
  | leftContext (chunk context : ℕ) (within : context ≤ chunk)
  /-- Chunks of one size that do not overlap. -/
  | fixed (chunkSize : ℕ) (continueAfterDone : ContinueAfterDone Walk)
  /-- A first chunk, then chunks that grow. The size after each growth is a rounded
  floating-point number: none once it is infinite, where rounding it raises. -/
  | ramp (firstChunk : ℕ) (size : ℕ → Option ℕ) (continueAfterDone : Bool)
  /-- Left context with scheduled chunk sizes. -/
  | scheduled (schedule : List ℕ) (chunk context : ℕ)
      (positive : 0 < chunk ∧ ∀ size ∈ schedule, 0 < size)

/-- What a policy remembers of the chunks it has seen. -/
structure PolicyState where
  /-- A chunk was registered. -/
  firstChunkRead : Bool
  /-- How often a ramp has grown. -/
  grown : ℕ
  /-- Chunks of a schedule. -/
  chunksPopped : ℕ
  /-- New items a schedule has handed out, the primed lead included. -/
  delivered : ℕ

/-- A policy before its first chunk. -/
def PolicyState.fresh : PolicyState := ⟨false, 0, 0, 0⟩

namespace ChunkPolicy

variable {Walk : Type} {p : ChunkPolicy Walk} {s : PolicyState} {n w d : ℕ}

/-- A ramp's current size. -/
def rampCurrent (firstChunk : ℕ) (size : ℕ → Option ℕ) (s : PolicyState) : Option ℕ :=
  if s.firstChunkRead then size s.grown else some firstChunk

/-- The new items of a schedule's next chunk. -/
def newItems (schedule : List ℕ) (chunk : ℕ) (s : PolicyState) : ℕ :=
  schedule.getD s.chunksPopped chunk

/-- The leading context of a schedule's next chunk: what was primed, then as much of
what was delivered as the policy keeps. -/
def contextItems (context : ℕ) (s : PolicyState) : ℕ :=
  if s.chunksPopped = 0 then s.delivered else min context s.delivered

/-- The window of items in the next chunk; none where the policy raises. -/
def windowSize (p : ChunkPolicy Walk) (s : PolicyState) : Option ℕ :=
  match p with
  | slidingWindow window _ _ _ => some window
  | leftContext chunk context _ => some (if s.firstChunkRead then chunk + context else chunk)
  | fixed chunkSize _ => some chunkSize
  | ramp firstChunk size _ => rampCurrent firstChunk size s
  | scheduled schedule chunk context _ => some (contextItems context s + newItems schedule chunk s)

/-- Whether that many buffered items are enough for a chunk. -/
def isReady (p : ChunkPolicy Walk) (s : PolicyState) (bufferLen : ℕ) : Option Bool :=
  match p with
  | slidingWindow window _ _ _ => some (window ≤ bufferLen)
  | leftContext chunk context _ =>
      if s.firstChunkRead then some (chunk + context ≤ bufferLen) else some (chunk ≤ bufferLen)
  | fixed chunkSize _ => some (chunkSize ≤ bufferLen)
  | ramp firstChunk size _ => (rampCurrent firstChunk size s).map (fun w => decide (w ≤ bufferLen))
  | scheduled schedule chunk context _ =>
      some (contextItems context s + newItems schedule chunk s ≤ bufferLen)

/-- The stride: how many items the next chunk takes out of the buffer. -/
def nextChunkSize (p : ChunkPolicy Walk) (s : PolicyState) : Option ℕ :=
  match p with
  | slidingWindow _ stride _ _ => some stride
  | leftContext chunk context _ => some (if s.firstChunkRead then chunk else chunk - context)
  | fixed chunkSize _ => some chunkSize
  | ramp firstChunk size _ => rampCurrent firstChunk size s
  | scheduled schedule chunk context _ =>
      let deliveredAfter := s.delivered + newItems schedule chunk s
      let nextContext := min context deliveredAfter
      some ((deliveredAfter - nextContext) - (s.delivered - contextItems context s))

/-- The policy after a chunk, flushed ones included. -/
def registerChunk (p : ChunkPolicy Walk) (s : PolicyState) : PolicyState :=
  match p with
  | ramp _ _ _ =>
      { s with firstChunkRead := true, grown := if s.firstChunkRead then s.grown + 1 else s.grown }
  | scheduled schedule chunk _ _ =>
      { s with
        firstChunkRead := true
        delivered := s.delivered + newItems schedule chunk s
        chunksPopped := s.chunksPopped + 1 }
  | _ => { s with firstChunkRead := true }

/-- The stream starts with context-only items. Only a schedule has such a lead, and only
before its first chunk; the others raise unless it is empty. -/
def prime (p : ChunkPolicy Walk) (s : PolicyState) (lead : ℕ) : Option PolicyState :=
  match p with
  | scheduled _ _ _ _ => if s.chunksPopped = 0 then some { s with delivered := lead } else none
  | _ => if lead = 0 then some s else none

/-- Whether empty chunks can follow the producer's end. -/
def continueAfterProducerDone : ChunkPolicy Walk → Bool
  | fixed _ (.flag value) => value
  | fixed _ (.walks names) => !names.isEmpty
  | ramp _ _ continueAfterDone => continueAfterDone
  | _ => false

/-- Whether they do while the consumer is in this walk. -/
def continuesIn [DecidableEq Walk] (p : ChunkPolicy Walk) (consumerWalk : Walk) : Bool :=
  match p with
  | fixed _ (.walks names) => decide (consumerWalk ∈ names)
  | p => p.continueAfterProducerDone

/-- A chunk is ready when its window is buffered. -/
theorem isReady_eq (p : ChunkPolicy Walk) (s : PolicyState) (n : ℕ) :
    p.isReady s n = (p.windowSize s).map (fun w => decide (w ≤ n)) := by
  cases p with
  | leftContext chunk context within =>
    dsimp only [isReady, windowSize, Option.map_some]
    split <;> rfl
  | slidingWindow => rfl
  | fixed => rfl
  | ramp => rfl
  | scheduled => rfl

/-- A chunk that is ready has its window buffered. -/
theorem isReady_iff (hw : p.windowSize s = some w) : p.isReady s n = some true ↔ w ≤ n := by
  rw [isReady_eq, hw]
  simp

/-- A policy that has a window has a stride within it. -/
theorem stride_le_window (hw : p.windowSize s = some w) :
    ∃ d, p.nextChunkSize s = some d ∧ d ≤ w := by
  cases p with
  | slidingWindow window stride positive within =>
    cases hw
    exact ⟨stride, rfl, within⟩
  | leftContext chunk context within =>
    cases hw
    refine ⟨_, rfl, ?_⟩
    split <;> omega
  | fixed chunkSize continueAfterDone =>
    cases hw
    exact ⟨_, rfl, Nat.le_refl _⟩
  | ramp firstChunk size continueAfterDone => exact ⟨w, hw, Nat.le_refl _⟩
  | scheduled schedule chunk context positive =>
    cases hw
    refine ⟨_, rfl, ?_⟩
    dsimp only [contextItems]
    split <;> omega

section Steady

/-- Every chunk of the policy needs at least one item, and no size overflows. -/
def Steady : ChunkPolicy Walk → Prop
  | leftContext chunk _ _ => 0 < chunk
  | fixed chunkSize _ => 0 < chunkSize
  | ramp firstChunk size _ => 0 < firstChunk ∧ ∀ n, ∃ k, size n = some k ∧ 0 < k
  | _ => True

/-- How many chunks of a policy may still leave the stream where it is. -/
def patience (p : ChunkPolicy Walk) (s : PolicyState) : ℕ :=
  match p with
  | leftContext _ _ _ => if s.firstChunkRead then 0 else 1
  | scheduled _ _ context _ => context - s.delivered
  | _ => 0

/-- A scheduled chunk has new items. -/
theorem newItems_pos {schedule : List ℕ} {chunk : ℕ}
    (h : 0 < chunk ∧ ∀ size ∈ schedule, 0 < size) (s : PolicyState) :
    0 < newItems schedule chunk s := by
  unfold newItems
  rw [List.getD_eq_getElem?_getD]
  cases hsize : schedule[s.chunksPopped]? with
  | none => exact h.1
  | some size => exact h.2 size (List.mem_of_getElem? hsize)

/-- A steady policy always has a window. -/
theorem Steady.window (h : p.Steady) (s : PolicyState) : ∃ w, p.windowSize s = some w ∧ 0 < w := by
  cases p with
  | slidingWindow window stride positive within => exact ⟨window, rfl, by omega⟩
  | leftContext chunk context within =>
    refine ⟨_, rfl, ?_⟩
    have hchunk : 0 < chunk := h
    split <;> omega
  | fixed chunkSize continueAfterDone => exact ⟨chunkSize, rfl, h⟩
  | ramp firstChunk size continueAfterDone =>
    dsimp only [windowSize, rampCurrent]
    split
    next => exact h.2 s.grown
    next => exact ⟨firstChunk, rfl, h.1⟩
  | scheduled schedule chunk context positive =>
    refine ⟨_, rfl, ?_⟩
    have hnew := newItems_pos positive s
    omega

/-- A steady policy's chunk either advances the stream or uses up patience. -/
theorem Steady.advance (h : p.Steady) (hd : p.nextChunkSize s = some d) :
    0 < d ∨ p.patience (p.registerChunk s) < p.patience s := by
  cases p with
  | slidingWindow window stride positive within =>
    cases hd
    exact Or.inl (by omega)
  | leftContext chunk context within =>
    cases hd
    have hchunk : 0 < chunk := h
    dsimp only [patience, registerChunk]
    split
    · exact Or.inl hchunk
    · exact Or.inr (by simp)
  | fixed chunkSize continueAfterDone =>
    cases hd
    exact Or.inl h
  | ramp firstChunk size continueAfterDone =>
    obtain ⟨w, hw, hpos⟩ := Steady.window h s
    have heq : d = w := Option.some.inj (hd.symm.trans hw)
    exact Or.inl (heq ▸ hpos)
  | scheduled schedule chunk context positive =>
    cases hd
    have hnew := newItems_pos positive s
    dsimp only [patience, registerChunk, contextItems]
    split <;> omega

/-- Patience does not grow. -/
theorem patience_registerChunk (p : ChunkPolicy Walk) (s : PolicyState) :
    p.patience (p.registerChunk s) ≤ p.patience s := by
  cases p with
  | leftContext =>
    dsimp only [patience, registerChunk]
    simp
  | scheduled =>
    dsimp only [patience, registerChunk]
    omega
  | slidingWindow => exact Nat.le_refl _
  | fixed => exact Nat.le_refl _
  | ramp => exact Nat.le_refl _

end Steady

end ChunkPolicy

end Mstar
