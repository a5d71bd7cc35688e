import Mstar.OutputOrder

/-!
# What one call of the data worker changes

Every call is about one request: it changes that request's part, and puts
chunks for it. A call that answers a sequence number that is due does not
raise.
-/

namespace Mstar.OutputSlots

variable {ρ : Type*}

namespace Worker

variable {w w' w'' : Worker ρ} {rid : ρ} {id : ℕ} {st : RequestOutputState ρ}

/-- A call about one request: what it leaves of the request's output state and
metadata, and the chunks it puts. -/
structure Moves (w w' : Worker ρ) (rid : ρ) (output : Option (ℕ × RequestOutputState ρ))
    (metadata : List ℕ) (puts : List (ResultChunk ρ)) : Prop where
  others : ∀ r, r ≠ rid → w'.requests r = w.requests r
  output : (w'.requests rid).output = output
  metadata : (w'.requests rid).metadata = metadata
  draining : (w.requests rid).draining → (w'.requests rid).draining
  encoding : w'.encoding = w.encoding
  encoded : w'.encoded = w.encoded
  minted : w'.minted = w.minted
  queue : w'.outQueue = w.outQueue ++ puts

/-- Nothing moves. -/
theorem Moves.refl (w : Worker ρ) (rid : ρ) :
    Moves w w rid (w.requests rid).output (w.requests rid).metadata [] :=
  ⟨fun _ _ => rfl, rfl, rfl, id, rfl, rfl, rfl, by simp⟩

/-- One move after another. -/
theorem Moves.trans {o o' : Option (ℕ × RequestOutputState ρ)} {m m' : List ℕ}
    {p p' : List (ResultChunk ρ)} (h : Moves w w' rid o m p) (h' : Moves w' w'' rid o' m' p') :
    Moves w w'' rid o' m' (p ++ p') where
  others := by
    intro r hr
    rw [h'.others r hr, h.others r hr]
  output := h'.output
  metadata := h'.metadata
  draining := fun hd => h'.draining (h.draining hd)
  encoding := by rw [h'.encoding, h.encoding]
  encoded := by rw [h'.encoded, h.encoded]
  minted := by rw [h'.minted, h.minted]
  queue := by rw [h'.queue, h.queue, List.append_assoc]

/-- Chunks put on the queue. -/
theorem moves_put (w : Worker ρ) (rid : ρ) (puts : List (ResultChunk ρ)) :
    Moves w { w with outQueue := w.outQueue ++ puts } rid (w.requests rid).output
      (w.requests rid).metadata puts :=
  ⟨fun _ _ => rfl, rfl, rfl, fun hd => hd, rfl, rfl, rfl, rfl⟩

/-- A request's output is its own. -/
theorem stateOf_of_some (h : (w.requests rid).output = some (id, st)) :
    w.stateOf rid = st := by
  unfold stateOf
  rw [h]
  rfl

variable [DecidableEq ρ]

/-- A request's part changed, with its flags kept or raised. -/
theorem moves_modify (w : Worker ρ) (rid : ρ) (f : Request ρ → Request ρ)
    (hf : (w.requests rid).draining → (f (w.requests rid)).draining) :
    Moves w (w.modify rid f) rid (f (w.requests rid)).output (f (w.requests rid)).metadata [] := by
  unfold modify
  constructor
  · intro r hr
    exact Function.update_of_ne hr _ _
  · simp
  · simp
  · intro hd
    simpa using hf hd
  · rfl
  · rfl
  · rfl
  · simp

/-- Changing a request's output moves it alone. -/
theorem moves_setState (w : Worker ρ) (rid : ρ)
    (f : RequestOutputState ρ → RequestOutputState ρ) :
    Moves w (w.setState rid f) rid ((w.requests rid).output.map fun o => (o.1, f o.2))
      (w.requests rid).metadata [] :=
  moves_modify w rid _ fun hd => hd

/-- A request that has an output keeps it. -/
theorem setdefault_of_some (h : (w.requests rid).output = some (id, st)) :
    w.setdefault rid = w := by
  unfold setdefault
  rw [h]

/-- A chunk queued in a request's output order. -/
theorem moves_queueCompletedOutput (h : (w.requests rid).output = some (id, st))
    (sequence : ℕ) (chunk : ResultChunk ρ) :
    Moves w (w.queueCompletedOutput rid sequence chunk).1 rid
        (some (id, (st.queueCompleted sequence chunk).1)) (w.requests rid).metadata
        (st.queueCompleted sequence chunk).2.1 ∧
      (w.queueCompletedOutput rid sequence chunk).2 = (st.queueCompleted sequence chunk).2.2 := by
  unfold queueCompletedOutput
  rw [setdefault_of_some h]
  dsimp only
  rw [stateOf_of_some h]
  have hset := moves_setState w rid fun _ => (st.queueCompleted sequence chunk).1
  rw [h] at hset
  refine ⟨?_, rfl⟩
  constructor
  · exact hset.others
  · exact hset.output
  · exact hset.metadata
  · exact hset.draining
  · exact hset.encoding
  · exact hset.encoded
  · exact hset.minted
  · rfl

/-- The request may have its walk stopped. -/
theorem moves_abortFailedRequest (w : Worker ρ) (rid : ρ) :
    Moves w (w.abortFailedRequest rid) rid (w.requests rid).output (w.requests rid).metadata
      [] := by
  unfold abortFailedRequest
  split
  · exact Moves.refl w rid
  · split
    · exact Moves.refl w rid
    · exact moves_modify w rid _ fun _ => rfl

/-- The error chunks of a failure. -/
def errors (rid : ρ) (count : ℕ) (answers : List Answer) : List (ResultChunk ρ) :=
  (List.range (max count 1)).map fun i => errorChunk rid (answers.getD i .nothing)

/-- A failure with no output slot: its chunks go straight to the queue. -/
theorem moves_failRequest_aside (w : Worker ρ) (rid : ρ) (count : ℕ) (answers : List Answer) :
    Moves w (w.failRequest rid count none answers).1 rid (w.requests rid).output
        (w.requests rid).metadata (errors rid count answers) ∧
      (w.failRequest rid count none answers).2 = false := by
  unfold failRequest
  dsimp only
  rw [if_neg (by simp)]
  refine ⟨?_, rfl⟩
  have hput := moves_put w rid (errors rid count answers)
  have habort := moves_abortFailedRequest
    { w with outQueue := w.outQueue ++ errors rid count answers } rid
  have hboth := hput.trans habort
  rw [List.append_nil] at hboth
  exact hboth

/-- A failure of an output whose slot is due: its chunk takes the slot. -/
theorem moves_failRequest (h : (w.requests rid).output = some (id, st)) {sequence : ℕ}
    (hun : st.unanswered sequence = true) (answer : Answer)
    (hok : (st.queueCompleted sequence (errorChunk rid answer)).2.2 = false) :
    Moves w (w.failRequest rid 1 (some sequence) [answer]).1 rid
        (some (id, (st.queueCompleted sequence (errorChunk rid answer)).1))
        (w.requests rid).metadata (st.queueCompleted sequence (errorChunk rid answer)).2.1 ∧
      (w.failRequest rid 1 (some sequence) [answer]).2 = false := by
  obtain ⟨hqueue, hraise⟩ := moves_queueCompletedOutput h sequence (errorChunk rid answer)
  rw [hok] at hraise
  have hunanswered : w.sequenceUnanswered rid sequence = true := by
    unfold sequenceUnanswered
    rw [h]
    exact hun
  have hchunks : ((List.range (max 1 1)).map fun i =>
      errorChunk rid ([answer].getD i .nothing)) = [errorChunk rid answer] := rfl
  unfold failRequest
  rw [hchunks]
  dsimp only
  rw [if_pos hunanswered]
  simp only [List.getLast?_singleton, Option.getD_some, List.dropLast_singleton, hraise,
    List.append_nil, Bool.false_eq_true, if_false]
  refine ⟨?_, trivial⟩
  have habort := moves_abortFailedRequest
    (w.queueCompletedOutput rid sequence (errorChunk rid answer)).1 rid
  rw [hqueue.output, hqueue.metadata] at habort
  have hboth := hqueue.trans habort
  rw [List.append_nil] at hboth
  exact hboth

/-- A tensor out of the order. -/
theorem moves_popOrder (w : Worker ρ) (rid : ρ) (uuid : ℕ) :
    Moves w (w.popOrder rid uuid) rid
      ((w.requests rid).output.map fun o => (o.1, o.2.forget uuid))
      ((w.requests rid).metadata.filter fun u => u ≠ uuid) [] := by
  unfold popOrder
  have hmeta := moves_modify w rid
    (fun r => { r with metadata := r.metadata.filter fun u => u ≠ uuid }) fun hd => hd
  have hset := moves_setState (w.modify rid
    fun r => { r with metadata := r.metadata.filter fun u => u ≠ uuid }) rid
    fun st => st.forget uuid
  rw [hmeta.output, hmeta.metadata] at hset
  exact hmeta.trans hset

end Worker

end Mstar.OutputSlots
