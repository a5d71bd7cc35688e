import Mstar.OutputTracks

/-!
# Outputs come out in order

Over every run that does not tear a request down, its chunks answer the outputs
that took a sequence number in the order they arrived, and the message thread's
count is what has not come out yet.
-/

namespace Mstar.OutputSlots

variable {ρ : Type*} [DecidableEq ρ]

open Handles (flightOf inFlight)

namespace World

variable {w w' : World ρ} {used : List ℕ} {rid : ρ}

/-- An event that leaves a request alone. -/
theorem Tracks.congr (h : w.Tracks rid) (hreading : w'.reading rid = w.reading rid)
    (hnotified : w'.notified rid = w.notified rid) (hreceived : w'.received = w.received)
    (hinbox : w'.inbox = w.inbox) (htaken : w'.taken = w.taken) (hbare : w'.bare = w.bare)
    (hreads : w'.reads = w.reads) (hstate : w'.worker.stateOf rid = w.worker.stateOf rid)
    (hqueue : w'.worker.outQueue = w.worker.outQueue)
    (hdrain : (w'.worker.requests rid).draining = (w.worker.requests rid).draining) :
    w'.Tracks rid where
  unknown := by
    rw [hreading, hnotified, hbare, hinbox]
    exact h.unknown
  count := by
    rw [hreading, hnotified, hreceived]
    exact h.count
  arrived := by
    unfold World.waiting
    rw [hnotified, htaken, hinbox]
    exact h.arrived
  books := by
    unfold World.puts
    rw [hstate, hreceived, hqueue, htaken, hbare]
    exact h.books
  flight := by
    unfold Worker.reading
    rw [hreads, hstate]
    exact h.flight
  dropped := by
    rw [htaken, hdrain]
    exact h.dropped

/-- Nothing has been put for a request that is not known yet. -/
theorem Tracks.untouched (h : w.Tracks rid) (hnone : w.reading rid = none) :
    w.taken rid = [] ∧ w.puts rid = [] ∧ (w.worker.stateOf rid).slots = [] := by
  obtain ⟨hnotified, hbare, -⟩ := h.unknown hnone
  have harrived := h.arrived
  rw [hnotified] at harrived
  have htaken : w.taken rid = [] :=
    List.map_eq_nil_iff.1 (List.append_eq_nil_iff.1 harrived.symm).1
  have hslots := h.books.slots
  rw [htaken] at hslots
  have hanswered := h.books.advance.answered
  rw [hslots] at hanswered
  have hunread := h.books.unread
  rw [htaken] at hunread
  refine ⟨htaken, ?_, hslots⟩
  rw [← List.length_eq_zero_iff, length_puts, hanswered, hunread, h.books.bare, hbare]
  simp [takenAs]

/-- A request is counted from zero. -/
theorem Tracks.newRequest (h : w.Tracks rid) (hsane : w.Sane used)
    (hnone : w.reading rid = none) : (w.newRequest rid).Tracks rid := by
  obtain ⟨htaken, hputs, hslots⟩ := h.untouched hnone
  obtain ⟨hnotified, hbare, -⟩ := h.unknown hnone
  have hreceived : w.received.filter (fun c => c.requestId = rid) = [] := by
    have happend := hputs
    unfold World.puts at happend
    rw [List.filter_append] at happend
    exact (List.append_eq_nil_iff.1 happend).1
  have hflight : ∀ uuid, (rid, uuid) ∉ flightOf w.reads := by
    intro uuid hu
    have hmem := h.flight uuid hu
    cases hout : (w.worker.requests rid).output with
    | none =>
      unfold Worker.reading at hmem
      rw [Sound.stateOf_of_none hout] at hmem
      cases hmem
    | some o =>
      rw [Handles.reading_of_some hout] at hmem
      rw [Worker.stateOf_of_some hout] at hslots
      obtain ⟨e, he, -⟩ := List.mem_map.1 hmem
      have hslot := (hsane.sound.kept rid o.1 o.2 hout).slot e he
      rw [hslots] at hslot
      cases hslot
  have hstate : (w.newRequest rid).worker.stateOf rid = .new := by
    simp [World.newRequest, Worker.modify, Worker.stateOf]
  refine
    { unknown := ?_
      count := ?_
      arrived := h.arrived
      books := ?_
      flight := fun uuid hu => absurd hu (hflight uuid)
      dropped := ?_ }
  · intro hunknown
    simp [World.newRequest] at hunknown
  · intro n hn
    have hzero : n = 0 := by
      simpa [World.newRequest, eq_comm] using hn
    rw [hzero]
    have hsame : (w.newRequest rid).received = w.received := rfl
    rw [hsame, hreceived]
    exact congrArg (fun l : List Slot => (l.length : ℤ)) hnotified.symm
  · have hsame : (w.newRequest rid).puts rid = w.puts rid := rfl
    rw [hstate, hsame, hputs]
    refine ⟨?_, RequestOutputState.Advance.refl _, ?_, ?_⟩
    · exact (congrArg (takenAs .sequenced) htaken).symm
    · exact (congrArg (takenAs .unstarted) htaken).symm
    · exact hbare.symm
  · intro hne
    exact absurd (congrArg (takenAs .dropped) htaken) hne

/-- Outputs of a request are counted in and wait for the worker. -/
theorem Tracks.counted {slots : List Slot} (h : w.Tracks rid)
    (hworker : w'.worker = w.worker) (hreads : w'.reads = w.reads)
    (hreceived : w'.received = w.received) (htaken : w'.taken = w.taken)
    (hbare : w'.bare = w.bare)
    (hreading : w'.reading rid = (w.reading rid).map (· + (slots.length : ℤ)))
    (hnotified : w'.notified rid = w.notified rid ++ slots)
    (hwaiting : w'.waiting rid = w.waiting rid ++ slots)
    (hknown : w.reading rid = none → slots = [] ∧
      ∀ edge, Item.tensors edge ∈ w'.inbox → Item.tensors edge ∈ w.inbox ∨ edge.requestId ≠ rid) :
    w'.Tracks rid where
  unknown := by
    intro hnone
    rw [hreading, Option.map_eq_none_iff] at hnone
    obtain ⟨hnil, hedges⟩ := hknown hnone
    obtain ⟨hnotified', hbare', hold⟩ := h.unknown hnone
    rw [hnotified, hbare, hnil, hnotified']
    refine ⟨rfl, hbare', ?_⟩
    intro edge hedge
    rcases hedges edge hedge with hmem | hne
    · exact hold edge hmem
    · exact hne
  count := by
    intro n hn
    rw [hreading, Option.map_eq_some_iff] at hn
    obtain ⟨m, hm, rfl⟩ := hn
    have hcount := h.count m hm
    rw [hreceived, hnotified, List.length_append]
    push_cast
    omega
  arrived := by
    rw [hnotified, htaken, hwaiting, h.arrived, List.append_assoc]
  books := by
    unfold World.puts
    rw [hworker, hreceived, htaken, hbare]
    exact h.books
  flight := by
    rw [hreads, hworker]
    exact h.flight
  dropped := by
    rw [htaken, hworker]
    exact h.dropped

/-- The rows that are counted, seen from one request. -/
theorem countRows_apply (w : World ρ) (rows : List (ρ × ℤ)) (rid : ρ) :
    (w.countRows rows).1.reading rid =
        (w.reading rid).map (· + ((slotsIn (rowSlots (w.countRows rows).2) rid).length : ℤ)) ∧
      (w.countRows rows).1.notified rid =
        w.notified rid ++ slotsIn (rowSlots (w.countRows rows).2) rid ∧
      (w.reading rid = none → slotsIn (rowSlots (w.countRows rows).2) rid = []) := by
  induction rows generalizing w with
  | nil =>
    refine ⟨?_, (List.append_nil _).symm, fun _ => rfl⟩
    cases hr : w.reading rid <;> simp [countRows, rowSlots, slotsIn, hr]
  | cons row rows ih =>
    unfold countRows
    by_cases hnone : (w.reading row.1).isNone = true
    · rw [if_pos hnone]
      exact ih w
    · rw [if_neg hnone]
      obtain ⟨hreading, hnotified, hknown⟩ := ih (w.countIn row.1 [.token row.2])
      have hsplit : ∀ kept : List (ρ × ℤ), slotsIn (rowSlots (row :: kept)) rid =
          slotsIn ([Slot.token row.2].map fun slot => (row.1, slot)) rid ++
            slotsIn (rowSlots kept) rid := by
        intro kept
        exact slotsIn_append [(row.1, Slot.token row.2)] _ rid
      dsimp only
      rw [hreading, hnotified, hsplit]
      by_cases hr : rid = row.1
      · subst hr
        rw [slotsIn_own]
        refine ⟨?_, ?_, ?_⟩
        · unfold countIn
          dsimp only
          rw [Function.update_self]
          rw [Option.map_map]
          congr 1
          funext n
          simp only [Function.comp_apply, List.length_append, List.length_singleton]
          push_cast
          omega
        · unfold countIn
          dsimp only
          rw [Function.update_self, List.append_assoc]
        · intro hread
          rw [hread] at hnone
          exact absurd rfl hnone
      · rw [slotsIn_others hr, List.nil_append]
        have hsame : (w.countIn row.1 [.token row.2]).reading rid = w.reading rid :=
          Function.update_of_ne hr _ _
        have hsame' : (w.countIn row.1 [.token row.2]).notified rid = w.notified rid :=
          Function.update_of_ne hr _ _
        rw [hsame] at hknown ⊢
        rw [hsame']
        exact ⟨rfl, rfl, hknown⟩

/-- The queue's chunks counted out. -/
theorem receive_apply (reading : ρ → Option ℤ) (chunks : List (ResultChunk ρ)) (rid : ρ) :
    chunks.foldl receive reading rid =
      (reading rid).map
        (· - (((chunks.filter fun c => c.requestId = rid).length : ℕ) : ℤ)) := by
  induction chunks generalizing reading with
  | nil => cases hr : reading rid <;> simp [hr]
  | cons chunk chunks ih =>
    rw [List.foldl_cons, ih]
    unfold receive
    by_cases hr : rid = chunk.requestId
    · subst hr
      rw [Function.update_self, List.filter_cons_of_pos (by simp)]
      cases reading chunk.requestId with
      | none => rfl
      | some n =>
        simp only [Option.map_some, List.length_cons]
        congr 1
        push_cast
        omega
    · rw [Function.update_of_ne hr, List.filter_cons_of_neg (by simpa using Ne.symm hr)]

/-- The chunks are taken back. -/
theorem Tracks.getResultChunks (h : w.Tracks rid) : w.getResultChunks.Tracks rid := by
  have hreading := receive_apply w.reading w.worker.outQueue rid
  have hputs : w.getResultChunks.puts rid = w.puts rid := by
    simp [World.puts, World.getResultChunks]
  refine
    { unknown := ?_
      count := ?_
      arrived := h.arrived
      books := ?_
      flight := h.flight
      dropped := h.dropped }
  · intro hnone
    have hnone' : w.worker.outQueue.foldl receive w.reading rid = none := hnone
    rw [hreading, Option.map_eq_none_iff] at hnone'
    exact h.unknown hnone'
  · intro n hn
    have hn' : w.worker.outQueue.foldl receive w.reading rid = some n := hn
    rw [hreading, Option.map_eq_some_iff] at hn'
    obtain ⟨m, hm, hmn⟩ := hn'
    have hcount := h.count m hm
    unfold World.getResultChunks
    dsimp only
    rw [List.filter_append, List.length_append]
    push_cast
    omega
  · rw [hputs]
    exact h.books

end World

end Mstar.OutputSlots
