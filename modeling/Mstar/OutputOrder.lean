import Mstar.OutputSlots
import Mstar.ReorderBuffers

/-!
# One request's outputs in order

A request's output state is a reorder buffer whose chunks take frame indices as
they leave. While every sequence number is held, due or emitted, a chunk put
where one is due never raises, and what leaves answers the slots that follow
the ones answered already.
-/

namespace Mstar.OutputSlots

open ReorderBuffers

variable {ρ : Type*}

/-- A chunk that leaves without raising: a frame chunk has a count. -/
def Countable (chunk : ResultChunk ρ) : Prop :=
  chunk.modality = .videoFrame → chunk.frameCount.isSome

/-- The frame index after a chunk. -/
def frameAfter (i : ℕ) (chunk : ResultChunk ρ) : ℕ :=
  if chunk.modality = .videoFrame then i + chunk.frameCount.getD 0 else i

/-- A chunk as it leaves. -/
def numbered (i : ℕ) (chunk : ResultChunk ρ) : ResultChunk ρ :=
  if chunk.modality = .videoFrame then { chunk with frameIndex := some i } else chunk

/-- Chunks as they leave in turn. -/
def numberAll : ℕ → List (ResultChunk ρ) → List (ResultChunk ρ)
  | _, [] => []
  | i, chunk :: chunks => numbered i chunk :: numberAll (frameAfter i chunk) chunks

/-- Frames follow one another: each frame chunk starts where the last ended. -/
def Consecutive : ℕ → List (ResultChunk ρ) → ℕ → Prop
  | i, [], j => i = j
  | i, chunk :: chunks, j =>
    (chunk.modality = .videoFrame → chunk.frameIndex = some i ∧ chunk.frameCount.isSome) ∧
      Consecutive (frameAfter i chunk) chunks j

/-- The slot a chunk answers, if its output took a sequence number. -/
def Answer.slot? : Answer → Option Slot
  | .sequenced slot => some slot
  | _ => none

/-- The slots some chunks answer. -/
def answered (chunks : List (ResultChunk ρ)) : List Slot :=
  chunks.filterMap fun chunk => chunk.answers.slot?

/-- Numbering a chunk keeps what it answers. -/
@[simp] theorem numbered_answers (i : ℕ) (chunk : ResultChunk ρ) :
    (numbered i chunk).answers = chunk.answers := by
  unfold numbered
  split <;> rfl

/-- And its request. -/
@[simp] theorem numbered_requestId (i : ℕ) (chunk : ResultChunk ρ) :
    (numbered i chunk).requestId = chunk.requestId := by
  unfold numbered
  split <;> rfl

/-- What is answered, one list after another. -/
theorem answered_append (a b : List (ResultChunk ρ)) :
    answered (a ++ b) = answered a ++ answered b :=
  List.filterMap_append

/-- Numbering answers the same. -/
theorem answered_numberAll (i : ℕ) (chunks : List (ResultChunk ρ)) :
    answered (numberAll i chunks) = answered chunks := by
  induction chunks generalizing i with
  | nil => rfl
  | cons chunk chunks ih =>
    unfold answered at ih ⊢
    simp only [numberAll, List.filterMap_cons, numbered_answers, ih]

/-- A numbered chunk is one of those given. -/
theorem mem_numberAll {i : ℕ} {chunks : List (ResultChunk ρ)} {c : ResultChunk ρ}
    (h : c ∈ numberAll i chunks) :
    ∃ chunk ∈ chunks, c.requestId = chunk.requestId ∧ c.answers = chunk.answers := by
  induction chunks generalizing i with
  | nil => cases h
  | cons chunk chunks ih =>
    rcases List.mem_cons.1 h with rfl | h
    · exact ⟨chunk, List.mem_cons_self, numbered_requestId i chunk, numbered_answers i chunk⟩
    · obtain ⟨chunk', hmem, hid⟩ := ih h
      exact ⟨chunk', List.mem_cons_of_mem _ hmem, hid⟩

/-- The numbers are consecutive. -/
theorem consecutive_numberAll (i : ℕ) (chunks : List (ResultChunk ρ))
    (h : ∀ c ∈ chunks, Countable c) :
    Consecutive i (numberAll i chunks) (chunks.foldl frameAfter i) := by
  induction chunks generalizing i with
  | nil => rfl
  | cons chunk chunks ih =>
    have hcount := h chunk List.mem_cons_self
    have hafter : frameAfter i (numbered i chunk) = frameAfter i chunk := by
      unfold frameAfter numbered
      split <;> simp
    refine ⟨?_, ?_⟩
    · unfold numbered
      split
      · rename_i hm
        exact fun _ => ⟨rfl, hcount hm⟩
      · rename_i hm
        exact fun hm' => absurd hm' hm
    · rw [hafter]
      exact ih _ fun c hc => h c (List.mem_cons_of_mem _ hc)

/-- Consecutive lists one after another. -/
theorem Consecutive.append {i j k : ℕ} {a b : List (ResultChunk ρ)} (ha : Consecutive i a j)
    (hb : Consecutive j b k) : Consecutive i (a ++ b) k := by
  induction a generalizing i with
  | nil =>
    have hij : i = j := ha
    rw [hij]
    exact hb
  | cons chunk a ih => exact ⟨ha.1, ih ha.2⟩

namespace RequestOutputState

variable {st : RequestOutputState ρ}

/-- The reorder buffer in an output state. -/
def buffer (st : RequestOutputState ρ) : Buffer (ResultChunk ρ) := ⟨st.nextEmit, st.pending⟩

/-- The emitting loop lets go of what the buffer does. -/
theorem emitReady_eq (fuel : ℕ) (st : RequestOutputState ρ)
    (h : ∀ e ∈ st.pending, Countable e.2) :
    st.emitReady fuel =
      ({ st with
          nextEmit := (st.buffer.release fuel).2.next
          pending := (st.buffer.release fuel).2.held
          frameIndex := (st.buffer.release fuel).1.foldl frameAfter st.frameIndex },
        numberAll st.frameIndex (st.buffer.release fuel).1, false) := by
  induction fuel generalizing st with
  | zero => rfl
  | succ fuel ih =>
    unfold emitReady Buffer.release
    dsimp only [buffer]
    cases hl : st.pending.lookup st.nextEmit with
    | none => rfl
    | some ready =>
      have hcount : Countable ready := h _ (Buffer.mem_of_lookup hl)
      have hnumber : st.number ready =
          some (numbered st.frameIndex ready, frameAfter st.frameIndex ready) := by
        unfold number numbered frameAfter
        by_cases hm : ready.modality = .videoFrame
        · obtain ⟨count, hc⟩ := Option.isSome_iff_exists.1 (hcount hm)
          simp [hm, hc]
        · simp [hm]
      dsimp only
      rw [hnumber]
      dsimp only
      rw [ih _ fun e he => h e (List.mem_of_mem_eraseP he)]
      rfl

/-- A chunk for the output that took a sequence number. -/
structure Fits (rid : ρ) (slots : List Slot) (i : ℕ) (chunk : ResultChunk ρ) : Prop where
  requestId : chunk.requestId = rid
  answers : ∃ slot, slots[i]? = some slot ∧ chunk.answers = .sequenced slot
  countable : Countable chunk

/-- Every sequence number taken is emitted, held or due, and what is held waits
for one that is due. -/
structure Ordered (rid : ρ) (st : RequestOutputState ρ) (due : List ℕ) : Prop where
  waits : st.buffer.Waits due st.nextSequence
  settled : st.buffer.Settled
  fits : ∀ e ∈ st.pending, Fits rid st.slots e.1 e.2
  length : st.slots.length = st.nextSequence

/-- What an output state that moved on has put. -/
structure Advance (st st' : RequestOutputState ρ) (puts : List (ResultChunk ρ)) : Prop where
  emits : st.nextEmit ≤ st'.nextEmit
  slots : ∃ more, st'.slots = st.slots ++ more
  answered : answered puts =
    (st'.slots.drop st.nextEmit).take (st'.nextEmit - st.nextEmit)
  frames : Consecutive st.frameIndex puts st'.frameIndex

/-- No advance. -/
theorem Advance.refl (st : RequestOutputState ρ) : Advance st st [] where
  emits := Nat.le_refl _
  slots := ⟨[], by simp⟩
  answered := by simp [OutputSlots.answered]
  frames := rfl

/-- Chunks that answer no slot, put beside the order. -/
theorem Advance.aside {puts : List (ResultChunk ρ)}
    (h : ∀ c ∈ puts, c.modality = .error ∧ c.answers.slot? = none) : Advance st st puts where
  emits := Nat.le_refl _
  slots := ⟨[], by simp⟩
  answered := by
    rw [Nat.sub_self, List.take_zero]
    exact List.filterMap_eq_nil_iff.2 fun c hc => (h c hc).2
  frames := by
    generalize st.frameIndex = i
    induction puts with
    | nil => rfl
    | cons chunk puts ih =>
      have hm : chunk.modality ≠ .videoFrame := by
        rw [(h chunk List.mem_cons_self).1]
        decide
      refine ⟨fun hv => absurd hv hm, ?_⟩
      unfold frameAfter
      rw [if_neg hm]
      exact ih fun c hc => h c (List.mem_cons_of_mem _ hc)

/-- One advance after another. -/
theorem Advance.trans {st' st'' : RequestOutputState ρ} {a b : List (ResultChunk ρ)}
    (h : Advance st st' a) (h' : Advance st' st'' b) (hle : st'.nextEmit ≤ st'.slots.length) :
    Advance st st'' (a ++ b) where
  emits := Nat.le_trans h.emits h'.emits
  slots := by
    obtain ⟨more, hmore⟩ := h.slots
    obtain ⟨more', hmore'⟩ := h'.slots
    exact ⟨more ++ more', by rw [hmore', hmore, List.append_assoc]⟩
  answered := by
    have hemits := h.emits
    have hemits' := h'.emits
    obtain ⟨more', hmore'⟩ := h'.slots
    have hfirst : (st''.slots.drop st.nextEmit).take (st'.nextEmit - st.nextEmit) =
        (st'.slots.drop st.nextEmit).take (st'.nextEmit - st.nextEmit) := by
      rw [hmore', List.drop_append_of_le_length (by omega), List.take_append_of_le_length]
      rw [List.length_drop]
      omega
    have hcut : st''.nextEmit - st.nextEmit =
        (st'.nextEmit - st.nextEmit) + (st''.nextEmit - st'.nextEmit) := by
      omega
    rw [answered_append, h.answered, h'.answered, hcut, List.take_add, hfirst, List.drop_drop,
      Nat.add_sub_cancel' hemits]
  frames := h.frames.append h'.frames

variable {rid : ρ} {due : List ℕ} {sequence : ℕ} {chunk : ResultChunk ρ} {slots : List Slot}

/-- Chunks for a run of sequence numbers answer a run of slots. -/
theorem answered_of_fits {i n : ℕ} {chunks : List (ResultChunk ρ)}
    (h : List.Forall₂ (Fits rid slots) (List.range' i n) chunks) :
    OutputSlots.answered chunks = (slots.drop i).take chunks.length := by
  induction chunks generalizing i n with
  | nil => rfl
  | cons chunk chunks ih =>
    cases n with
    | zero => cases h
    | succ n =>
      rw [List.range'_succ] at h
      cases h with
      | cons hfit hrest =>
        obtain ⟨slot, hslot, hans⟩ := hfit.answers
        obtain ⟨hlt, hat⟩ := List.getElem?_eq_some_iff.1 hslot
        have htail := ih hrest
        unfold OutputSlots.answered at htail ⊢
        rw [List.filterMap_cons, hans, htail, List.length_cons,
          List.drop_eq_getElem_cons hlt, List.take_succ_cons, hat]
        rfl

/-- A chunk of the list fits some slot. -/
theorem fits_of_mem {is : List ℕ} {chunks : List (ResultChunk ρ)}
    (h : List.Forall₂ (Fits rid slots) is chunks) {c : ResultChunk ρ} (hc : c ∈ chunks) :
    ∃ i, Fits rid slots i c := by
  induction h with
  | nil => cases hc
  | cons hfit _ ih =>
    rcases List.mem_cons.1 hc with rfl | hc
    · exact ⟨_, hfit⟩
    · exact ih hc

/-- No more slots are emitted than there are. -/
theorem Ordered.nextEmit_le (h : Ordered rid st due) : st.nextEmit ≤ st.slots.length := by
  rw [h.length]
  exact h.waits.le

/-- A due sequence number has no chunk yet. -/
theorem Ordered.unanswered (h : Ordered rid st due) (hseq : sequence ∈ due) :
    st.unanswered sequence = true := by
  obtain ⟨hle, -, hheld⟩ := h.waits.of_due hseq
  dsimp only [buffer] at hle hheld
  unfold RequestOutputState.unanswered
  rw [decide_eq_true hle, decide_eq_true hheld]
  rfl

/-- A chunk queued where one is due. -/
theorem Ordered.answer (h : Ordered rid st due) (hseq : sequence ∈ due)
    (hfit : Fits rid st.slots sequence chunk) :
    (st.queueCompleted sequence chunk).2.2 = false ∧
      Ordered rid (st.queueCompleted sequence chunk).1 (due.erase sequence) ∧
      Advance st (st.queueCompleted sequence chunk).1 (st.queueCompleted sequence chunk).2.1 ∧
      (∀ c ∈ (st.queueCompleted sequence chunk).2.1,
        c.requestId = rid ∧ c.answers.slot?.isSome) ∧
      (st.queueCompleted sequence chunk).1.order = st.order ∧
      (st.queueCompleted sequence chunk).1.slots = st.slots := by
  have hheld : sequence ∉ st.pending.map Prod.fst := (h.waits.of_due hseq).2.2
  have hcount : ∀ e ∈ st.pending ++ [(sequence, chunk)], Countable e.2 := by
    intro e he
    rcases List.mem_append.1 he with he | he
    · exact (h.fits e he).countable
    · rw [List.mem_singleton.1 he]
      exact hfit.countable
  obtain ⟨hnext, hout, hwaits, hsettled, hsub⟩ :=
    Buffer.put_spec h.waits h.fits hseq hfit
  have hrun : st.queueCompleted sequence chunk =
      ({ st with
          nextEmit := (st.buffer.put sequence chunk).2.next
          pending := (st.buffer.put sequence chunk).2.held
          frameIndex := (st.buffer.put sequence chunk).1.foldl frameAfter st.frameIndex },
        numberAll st.frameIndex (st.buffer.put sequence chunk).1, false) := by
    unfold queueCompleted
    rw [if_neg hheld, emitReady_eq _ _ hcount]
    rfl
  rw [hrun]
  refine ⟨rfl, ⟨hwaits, hsettled, ?_, h.length⟩, ⟨?_, ⟨[], by simp⟩, ?_, ?_⟩, ?_, rfl, rfl⟩
  · intro e he
    rcases hsub e he with he | rfl
    · exact h.fits e he
    · exact hfit
  · rw [hnext]
    exact Nat.le_add_right _ _
  · rw [answered_numberAll, answered_of_fits hout, hnext]
    dsimp only [buffer]
    rw [Nat.add_sub_cancel_left]
  · refine consecutive_numberAll _ _ ?_
    intro c hc
    obtain ⟨i, hfits⟩ := fits_of_mem hout hc
    exact hfits.countable
  · intro c hc
    obtain ⟨chunk', hmem, hid, hans⟩ := mem_numberAll hc
    obtain ⟨i, hfits⟩ := fits_of_mem hout hmem
    obtain ⟨slot, -, hslot⟩ := hfits.answers
    rw [hid, hans, hslot]
    exact ⟨hfits.requestId, rfl⟩

/-- A chunk still fits as slots are added. -/
theorem Fits.append {i : ℕ} (h : Fits rid slots i chunk) (more : List Slot) :
    Fits rid (slots ++ more) i chunk where
  requestId := h.requestId
  answers := by
    obtain ⟨slot, hslot, hans⟩ := h.answers
    refine ⟨slot, ?_, hans⟩
    rw [List.getElem?_append_left (List.getElem?_eq_some_iff.1 hslot).1]
    exact hslot
  countable := h.countable

/-- One sequence number more is due. -/
theorem Ordered.next (h : Ordered rid st due) (slot : Slot)
    (order : List (ℕ × (ℕ × Bool))) :
    Ordered rid
      { st with
        order := order
        nextSequence := st.nextSequence + 1
        slots := st.slots ++ [slot] }
      (due ++ [st.nextSequence]) where
  waits := h.waits.take
  settled := h.settled
  fits := fun e he => (h.fits e he).append _
  length := by
    rw [List.length_append, h.length]
    rfl

/-- A new slot is an advance. -/
theorem advance_next (st : RequestOutputState ρ) (slot : Slot)
    (order : List (ℕ × (ℕ × Bool))) :
    Advance st
      { st with
        order := order
        nextSequence := st.nextSequence + 1
        slots := st.slots ++ [slot] } [] where
  emits := Nat.le_refl _
  slots := ⟨[slot], rfl⟩
  answered := by simp [OutputSlots.answered]
  frames := rfl

/-- The order of what is due does not matter. -/
theorem Ordered.congr {due' : List ℕ} (h : Ordered rid st due) (hperm : due.Perm due') :
    Ordered rid st due' :=
  ⟨h.waits.congr hperm, h.settled, h.fits, h.length⟩

/-- A tensor's entry is not part of the order of the chunks. -/
theorem Ordered.forget (h : Ordered rid st due) (uuid : ℕ) :
    Ordered rid (st.forget uuid) due :=
  ⟨h.waits, h.settled, h.fits, h.length⟩

/-- Forgetting a tensor afterwards is no step. -/
theorem advance_forget {st' : RequestOutputState ρ} {puts : List (ResultChunk ρ)}
    (h : Advance st st' puts) (uuid : ℕ) : Advance st (st'.forget uuid) puts :=
  ⟨h.emits, h.slots, h.answered, h.frames⟩

/-- Nor is it before. -/
theorem advance_from_forget {st' : RequestOutputState ρ} {puts : List (ResultChunk ρ)} {uuid : ℕ}
    (h : Advance (st.forget uuid) st' puts) : Advance st st' puts :=
  ⟨h.emits, h.slots, h.answered, h.frames⟩

/-- A new output is ordered. -/
theorem ordered_new (rid : ρ) : Ordered rid .new [] where
  waits := Buffer.waits_empty
  settled := by simp [Buffer.Settled, buffer, RequestOutputState.new]
  fits := by simp [RequestOutputState.new]
  length := rfl

end RequestOutputState

end Mstar.OutputSlots
