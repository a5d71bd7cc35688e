import Mstar.OutputArrivals

/-!
# Every run's outputs

A request that nothing tears down: its chunks answer the outputs that took a
sequence number in order of arrival, an output that waits has an answer on its
way before it, and what the message thread counts is what has not come out.
-/

namespace Mstar.OutputSlots

variable {ρ : Type*} [DecidableEq ρ]

open Handles (flightOf inFlight)

namespace World

variable {w : World ρ} {used : List ℕ} {rid : ρ} {pool : Bool}

/-- Another request changed. -/
theorem Tracks.modify_others (h : w.Tracks rid) {r : ρ} (hr : rid ≠ r)
    (f : Request ρ → Request ρ) : ({ w with worker := w.worker.modify r f } : World ρ).Tracks rid := by
  have hsame : (w.worker.modify r f).requests rid = w.worker.requests rid :=
    Function.update_of_ne hr _ _
  refine h.congr rfl rfl rfl rfl rfl rfl rfl ?_ rfl ?_
  · unfold Worker.stateOf
    dsimp only
    rw [hsame]
  · dsimp only
    rw [hsame]

/-- A result edge arrives. -/
theorem Tracks.newResultTensors (h : w.Tracks rid) (edge : Edge ρ) :
    (w.newResultTensors edge).Tracks rid := by
  unfold World.newResultTensors
  by_cases hnone : (w.reading edge.requestId).isNone = true
  · rw [if_pos hnone]
    exact h
  · rw [if_neg hnone]
    have hwaiting : slotsIn ((w.inbox ++ [Item.tensors edge]).flatMap Item.rows) rid =
        w.waiting rid ++
          slotsIn ((slotsOf edge).map fun slot => (edge.requestId, slot)) rid := by
      rw [List.flatMap_append, slotsIn_append, List.flatMap_singleton]
      rfl
    by_cases hr : rid = edge.requestId
    · subst hr
      rw [slotsIn_own] at hwaiting
      refine h.counted rfl rfl rfl rfl rfl ?_ ?_ hwaiting ?_
      · exact Function.update_self _ _ _
      · exact Function.update_self _ _ _
      · intro hread
        rw [hread] at hnone
        exact absurd rfl hnone
    · rw [slotsIn_others hr] at hwaiting
      refine h.counted rfl rfl rfl rfl rfl ?_ ?_ hwaiting ?_
      · refine (Function.update_of_ne hr _ _).trans ?_
        cases w.reading rid <;> simp
      · exact (Function.update_of_ne hr _ _).trans (List.append_nil _).symm
      · intro _
        refine ⟨rfl, ?_⟩
        intro edge' hedge
        rcases List.mem_append.1 hedge with hmem | hmem
        · exact Or.inl hmem
        · cases List.mem_singleton.1 hmem
          exact Or.inr (Ne.symm hr)

/-- An inline frame arrives. -/
theorem Tracks.newResultTokens (h : w.Tracks rid) (rows : List (ρ × ℤ)) (modality : Modality) :
    (w.newResultTokens rows modality).Tracks rid := by
  obtain ⟨hworker, hinbox, hreads, htaken, hbare, hreceived⟩ := countRows_same w rows
  obtain ⟨hreading, hnotified, hknown⟩ := countRows_apply w rows rid
  unfold World.newResultTokens
  dsimp only
  by_cases hempty : (w.countRows rows).2.isEmpty = true
  · rw [if_pos hempty]
    refine h.counted hworker hreads hreceived htaken hbare hreading hnotified ?_ ?_
    · rw [List.isEmpty_iff.1 hempty]
      unfold World.waiting
      rw [hinbox]
      exact (List.append_nil _).symm
    · intro hnone
      refine ⟨hknown hnone, ?_⟩
      rw [hinbox]
      exact fun edge hedge => Or.inl hedge
  · rw [if_neg hempty]
    refine h.counted hworker hreads hreceived htaken hbare hreading hnotified ?_ ?_
    · unfold World.waiting
      dsimp only
      rw [hinbox, List.flatMap_append, slotsIn_append, List.flatMap_singleton]
      have hzip : ((w.countRows rows).2.map Prod.fst).zip ((w.countRows rows).2.map Prod.snd) =
          (w.countRows rows).2 := (List.zip_of_prod rfl rfl).symm
      unfold Item.rows
      dsimp only
      rw [hzip]
      rfl
    · intro hnone
      refine ⟨hknown hnone, ?_⟩
      dsimp only
      rw [hinbox]
      intro edge hedge
      rcases List.mem_append.1 hedge with hmem | hmem
      · exact Or.inl hmem
      · cases List.mem_singleton.1 hmem

/-- Each event that does not tear the request down. -/
theorem Tracks.step {event : Event ρ} (h : w.Tracks rid) (hsane : w.Sane used)
    (hallowed : w.Allowed used event) (hkept : ¬event.TearsDown rid) :
    (w.step pool event).Tracks rid := by
  cases event with
  | newRequest r =>
    by_cases hr : rid = r
    · subst hr
      exact h.newRequest hsane hallowed
    · have hothers := h.modify_others hr fun q =>
        { q with output := some (w.worker.minted, .new), inFlight := true, live := q.live + 1 }
      exact hothers.congr (Function.update_of_ne hr _ _) rfl rfl rfl rfl rfl rfl rfl rfl rfl
  | newResultTensors edge => exact h.newResultTensors edge
  | newResultTokens rows modality => exact h.newResultTokens rows modality
  | take started outcomes =>
    unfold World.step
    dsimp only
    split
    · exact h
    · rename_i edge inbox hitem
      by_cases hd : (w.worker.requests edge.requestId).draining = true
      · exact h.goes hsane (goes_dropped h hitem hd started)
      · cases started with
        | true => exact h.goes hsane (goes_started h hsane hitem hd)
        | false =>
          obtain ⟨extra, puts, hgoes⟩ := goes_unstarted h hsane hitem hd
          exact h.goes hsane hgoes
    · rename_i frame inbox hitem
      obtain ⟨puts, hgoes⟩ := goes_tokens h hsane hitem outcomes
      exact h.goes hsane hgoes
  | processReadTensors failed ready =>
    obtain ⟨-, puts, hhandles⟩ := hsane.processReadTensors pool hallowed
    have hperm := flightOf_perm (reads_perm hallowed)
    rw [flightOf_append] at hperm
    exact h.goes hsane (goes_of_handles h hhandles hperm)
  | encodeDone index ok =>
    unfold World.step
    dsimp only
    split
    · exact h
    · exact h.congr rfl rfl rfl rfl rfl rfl rfl rfl rfl rfl
  | releaseEncoded =>
    obtain ⟨-, puts, hhandles⟩ := Handles.releaseAll w.worker.encoded hsane.sound rfl
    exact h.goes hsane (goes_of_handles h hhandles (List.Perm.refl _))
  | getResultChunks => exact h.getResultChunks
  | beginDrain r => exact h.modify_others (fun heq => hkept heq.symm) _
  | readsDone r => exact h.modify_others (fun heq => hkept heq.symm) _
  | drop r => exact h.modify_others (fun heq => hkept heq.symm) _
  | release r =>
    have hr : rid ≠ r := fun heq => hkept heq.symm
    exact h.congr (Function.update_of_ne hr _ _) rfl rfl rfl rfl rfl rfl rfl rfl rfl

/-- The empty world tracks every request. -/
theorem tracks_empty (rid : ρ) : (World.empty : World ρ).Tracks rid where
  unknown := fun _ => ⟨rfl, rfl, fun _ h => by cases h⟩
  count := fun _ h => by cases h
  arrived := rfl
  books := ⟨rfl, RequestOutputState.Advance.refl _, rfl, rfl⟩
  flight := fun _ h => by cases h
  dropped := fun h => absurd rfl h

/-- Every run that does not tear the request down. -/
theorem tracks_of_runs {events : List (Event ρ)} (h : Runs pool events w used)
    (hplain : ∀ event ∈ events, event.Plain) (hkept : ∀ event ∈ events, ¬event.TearsDown rid) :
    w.Tracks rid := by
  induction h with
  | start => exact tracks_empty rid
  | step hruns event hallowed ih =>
    have hold := ih (fun e he => hplain e (List.mem_append_left _ he))
      fun e he => hkept e (List.mem_append_left _ he)
    have hsane := sane_of_runs hruns fun e he => hplain e (List.mem_append_left _ he)
    exact hold.step hsane hallowed (hkept event (List.mem_append_right _ List.mem_cons_self))

end World

/-- The output a chunk answers. -/
def Answer.output? : Answer → Option Slot
  | .sequenced slot => some slot
  | .unstarted slot => some slot
  | .nothing => none

/-- What has become of one request's outputs. -/
structure World.InOrder (w : World ρ) (rid : ρ) : Prop where
  /-- The worker takes outputs up in the order they arrived. -/
  arrived : w.notified rid = (w.taken rid).map Prod.fst ++ w.waiting rid
  /-- Tensors whose read was started and tokens have the sequence numbers. -/
  slots : (w.worker.stateOf rid).slots = takenAs .sequenced (w.taken rid)
  /-- The chunks answer a first part of them, each once and in order. -/
  answered : answered (w.puts rid) =
    (takenAs .sequenced (w.taken rid)).take (w.worker.stateOf rid).nextEmit
  /-- Tensors whose read could not be started are answered at once, each once
  and in order. -/
  unread : unread (w.puts rid) = takenAs .unstarted (w.taken rid)
  /-- The first output without a chunk waits for its read or its encode. -/
  next : (w.worker.stateOf rid).nextEmit < (w.worker.stateOf rid).slots.length →
    ∃ uuid, (w.worker.stateOf rid).slots[(w.worker.stateOf rid).nextEmit]? =
        some (.tensor uuid) ∧
      ((rid, uuid) ∈ flightOf w.reads ∨
        ∃ job ∈ w.worker.jobs, job.requestId = rid ∧ job.uuid = uuid)
  frames : Consecutive 0 (w.puts rid) (w.worker.stateOf rid).frameIndex
  /-- One chunk for each output answered, and one for each edge without tensors
  whose read could not be started. -/
  chunks : (w.puts rid).length =
    (w.worker.stateOf rid).nextEmit + (takenAs .unstarted (w.taken rid)).length + w.bare rid
  /-- The message thread counts what has not come out to it. -/
  count : ∀ n, w.reading rid = some n →
    n + w.bare rid = (w.waiting rid).length +
      (((w.worker.stateOf rid).slots.length : ℤ) - (w.worker.stateOf rid).nextEmit) +
      (takenAs .dropped (w.taken rid)).length +
      (w.worker.outQueue.filter fun c => c.requestId = rid).length
  /-- Outputs are dropped only once the worker drains the request. -/
  dropped : takenAs .dropped (w.taken rid) ≠ [] → (w.worker.requests rid).draining = true

namespace World

variable {w : World ρ} {used : List ℕ} {rid : ρ} {pool : Bool}

/-- A slot taken has one of three fates. -/
theorem length_taken (taken : List (Slot × Fate)) :
    taken.length = (takenAs .sequenced taken).length + (takenAs .unstarted taken).length +
      (takenAs .dropped taken).length := by
  unfold takenAs
  induction taken with
  | nil => rfl
  | cons t taken ih =>
    obtain ⟨slot, fate⟩ := t
    simp only [List.length_map] at ih ⊢
    cases fate with
    | sequenced =>
      simp only [List.filter_cons, reduceCtorEq, decide_true, decide_false, if_true,
        Bool.false_eq_true, if_false, List.length_cons]
      omega
    | unstarted =>
      simp only [List.filter_cons, reduceCtorEq, decide_true, decide_false, if_true,
        Bool.false_eq_true, if_false, List.length_cons]
      omega
    | dropped =>
      simp only [List.filter_cons, reduceCtorEq, decide_true, decide_false, if_true,
        Bool.false_eq_true, if_false, List.length_cons]
      omega

/-- The first slot without a chunk is due, so its tensor is being read or
encoded. -/
theorem Sane.next (h : w.Sane used)
    (hlt : (w.worker.stateOf rid).nextEmit < (w.worker.stateOf rid).slots.length) :
    ∃ uuid, (w.worker.stateOf rid).slots[(w.worker.stateOf rid).nextEmit]? =
        some (.tensor uuid) ∧
      ((rid, uuid) ∈ flightOf w.reads ∨
        ∃ job ∈ w.worker.jobs, job.requestId = rid ∧ job.uuid = uuid) := by
  cases hout : (w.worker.requests rid).output with
  | none =>
    rw [Sound.stateOf_of_none hout] at hlt
    exact absurd hlt (Nat.lt_irrefl 0)
  | some o =>
    obtain ⟨id, st⟩ := o
    rw [Worker.stateOf_of_some hout] at hlt ⊢
    have hk := h.sound.kept rid id st hout
    have hstop : st.buffer.next < st.nextSequence := by
      rw [← hk.ordered.length]
      exact hlt
    have hdue := hk.ordered.waits.next_due hk.ordered.settled hstop
    rcases List.mem_append.1 hdue with hdue | hdue
    · obtain ⟨e, he, heq⟩ := List.mem_map.1 hdue
      have hslot := hk.slot e he
      dsimp only [RequestOutputState.buffer] at heq
      rw [heq] at hslot
      exact ⟨e.1, hslot, Or.inl (hk.reading e he)⟩
    · obtain ⟨job, hjob, heq⟩ := List.mem_map.1 hdue
      have hslot := hk.encodes job hjob
      dsimp only [RequestOutputState.buffer] at heq
      rw [heq] at hslot
      obtain ⟨hmem, hmine⟩ := List.mem_filter.1 hjob
      refine ⟨job.uuid, hslot, Or.inr ⟨job, hmem, ?_, rfl⟩⟩
      have hmine' := of_decide_eq_true hmine
      exact hmine'.1

/-- In every run that does not tear the request down, and whose inline frames
hold no frames of a video, its outputs come out in order. -/
theorem outputs_in_order {events : List (Event ρ)} (h : Runs pool events w used)
    (hplain : ∀ event ∈ events, event.Plain) (hkept : ∀ event ∈ events, ¬event.TearsDown rid) :
    w.InOrder rid := by
  have hsane := sane_of_runs h hplain
  have htracks := tracks_of_runs h hplain hkept
  have hadvance := htracks.books.advance
  have hanswered : answered (w.puts rid) =
      (w.worker.stateOf rid).slots.take (w.worker.stateOf rid).nextEmit := hadvance.answered
  have hle := hsane.sound.nextEmit_le rid
  have hlength : (w.puts rid).length = (w.worker.stateOf rid).nextEmit +
      (takenAs .unstarted (w.taken rid)).length + w.bare rid := by
    rw [length_puts, hanswered, htracks.books.unread, htracks.books.bare, List.length_take,
      Nat.min_eq_left hle]
  refine
    { arrived := htracks.arrived
      slots := htracks.books.slots
      answered := by rw [← htracks.books.slots]; exact hanswered
      unread := htracks.books.unread
      next := hsane.next
      frames := hadvance.frames
      chunks := hlength
      count := ?_
      dropped := htracks.dropped }
  intro n hn
  have hcount := htracks.count n hn
  have harrived := congrArg List.length htracks.arrived
  rw [List.length_append, List.length_map, length_taken, ← htracks.books.slots] at harrived
  have hputs : (w.puts rid).length = (w.received.filter fun c => c.requestId = rid).length +
      (w.worker.outQueue.filter fun c => c.requestId = rid).length := by
    unfold World.puts
    rw [List.filter_append, List.length_append]
  omega

/-- A request whose first tensor is being read when the read of its second
cannot be started. -/
def secondUnstarted : List (Event ℕ) :=
  [.newRequest 0, .newResultTensors ⟨0, .other "text", false, [1]⟩,
    .newResultTensors ⟨0, .other "text", false, [2]⟩, .take true [], .take false []]

/-- The events in turn. -/
def after (events : List (Event ℕ)) : World ℕ := events.foldl (step false) .empty

/-- The second request runs without a start. -/
theorem runs_secondUnstarted :
    Runs false secondUnstarted (after secondUnstarted) [1, 2] := by
  have h1 : Runs false (secondUnstarted.take 1) (after (secondUnstarted.take 1)) [] :=
    Runs.step Runs.start (.newRequest 0) rfl
  have h2 : Runs false (secondUnstarted.take 2) (after (secondUnstarted.take 2)) [1] :=
    Runs.step h1 (.newResultTensors ⟨0, .other "text", false, [1]⟩) ⟨by decide, by decide⟩
  have h3 : Runs false (secondUnstarted.take 3) (after (secondUnstarted.take 3)) [1, 2] :=
    Runs.step h2 (.newResultTensors ⟨0, .other "text", false, [2]⟩) ⟨by decide, by decide⟩
  have h4 : Runs false (secondUnstarted.take 4) (after (secondUnstarted.take 4)) [1, 2] :=
    Runs.step h3 (.take true []) trivial
  exact Runs.step h4 (.take false []) trivial

/-- The outputs of that request are in order. -/
theorem outputs_in_order_secondUnstarted : (after secondUnstarted).InOrder 0 :=
  outputs_in_order runs_secondUnstarted (by decide) (by decide)

/-- Its first chunk answers the output that arrived second. -/
theorem second_answered_first :
    Runs false secondUnstarted (after secondUnstarted) [1, 2] ∧
      (∀ event ∈ secondUnstarted, event.Plain ∧ ¬event.TearsDown 0) ∧
      ¬((after secondUnstarted).puts 0).filterMap (fun chunk => chunk.answers.output?) <+:
        (after secondUnstarted).notified 0 :=
  ⟨runs_secondUnstarted, by decide, by decide⟩

end World

end Mstar.OutputSlots
