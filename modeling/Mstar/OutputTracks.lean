import Mstar.OutputBooks

/-!
# Each event keeps a request's books

Outputs are noted as the worker takes them up, counted in as they arrive, and
counted out as their chunks are taken back.
-/

namespace Mstar.OutputSlots

variable {ρ : Type*} [DecidableEq ρ]

open Handles (flightOf inFlight)
open Takes (unstarted?)

namespace World

variable {w w' : World ρ} {used : List ℕ} {rid : ρ}

/-- The outputs noted for one request. -/
theorem note_apply (taken : ρ → List (Slot × Fate)) (r : ρ) (slots : List Slot) (fate : Fate)
    (rid : ρ) :
    note taken r slots fate rid =
      taken rid ++ (slotsIn (slots.map fun slot => (r, slot)) rid).map
        fun slot => (slot, fate) := by
  unfold note
  by_cases hr : rid = r
  · subst hr
    rw [Function.update_self, slotsIn_own]
  · rw [Function.update_of_ne hr, slotsIn_others hr, List.map_nil, List.append_nil]

/-- What a row of a frame becomes. -/
def rowFate (worker : Worker ρ) (rid : ρ) : Fate :=
  if (worker.requests rid).draining then .dropped else .sequenced

/-- The rows of a frame with their slots. -/
def rowSlots (rows : List (ρ × ℤ)) : List (ρ × Slot) :=
  rows.map fun row => (row.1, .token row.2)

/-- Each request's slots are noted with its fate. -/
theorem noteRows_apply (worker : Worker ρ) (taken : ρ → List (Slot × Fate))
    (rows : List (ρ × ℤ)) (rid : ρ) :
    noteRows worker taken rows rid =
      taken rid ++ (slotsIn (rowSlots rows) rid).map
        fun slot => (slot, rowFate worker rid) := by
  unfold noteRows rowSlots
  induction rows generalizing taken with
  | nil => simp [slotsIn]
  | cons row rows ih =>
    rw [List.foldl_cons, ih, note_apply]
    have hsplit : slotsIn ((row :: rows).map fun row => (row.1, Slot.token row.2)) rid =
          slotsIn ([Slot.token row.2].map fun slot => (row.1, slot)) rid ++
            slotsIn (rows.map fun row => (row.1, Slot.token row.2)) rid :=
      slotsIn_append [(row.1, Slot.token row.2)] _ rid
    rw [hsplit, List.map_append, List.append_assoc]
    by_cases hr : rid = row.1
    · subst hr
      rfl
    · rw [slotsIn_others hr]
      rfl

/-- The rows that are kept, seen from one request. -/
theorem slotsIn_keptRows (worker : Worker ρ) (frame : InlineTokens ρ) (rid : ρ) :
    slotsIn (rowSlots (worker.keptRows frame)) rid =
      if (worker.requests rid).draining then []
      else slotsIn (rowSlots (frame.requestIds.zip frame.values)) rid := by
  unfold Worker.keptRows rowSlots slotsIn
  rw [List.filter_map, List.filter_map, List.filter_filter, List.map_map, List.map_map]
  split
  · rename_i hd
    rw [List.filter_eq_nil_iff.2, List.map_nil]
    intro row _
    simp only [Function.comp_apply, Bool.and_eq_true, decide_eq_true_eq, not_and]
    intro hrow
    rw [hrow, hd]
    decide
  · rename_i hd
    congr 1
    refine List.filter_congr ?_
    intro row _
    simp only [Function.comp_apply]
    by_cases hrow : row.1 = rid
    · rw [hrow, Bool.not_eq_true _ |>.mp hd]
      simp
    · simp [hrow]

omit [DecidableEq ρ] in
/-- The error chunks of an edge with tensors. -/
theorem errors_eq (rid : ρ) (uuids : List ℕ) (hne : uuids ≠ []) :
    Worker.errors rid uuids.length (uuids.map fun uuid => Answer.unstarted (.tensor uuid)) =
      uuids.map fun uuid => Worker.errorChunk rid (.unstarted (.tensor uuid)) := by
  have hpos : 0 < uuids.length := List.length_pos_of_ne_nil hne
  unfold Worker.errors
  rw [Nat.max_eq_left hpos]
  refine List.ext_getElem (by simp) ?_
  intro i h1 h2
  rw [List.length_map] at h2
  simp [List.getD_eq_getElem?_getD, h2]

omit [DecidableEq ρ] in
/-- What the error chunks of an edge answer. -/
theorem unread_errors (rid : ρ) (uuids : List ℕ) :
    unread (Worker.errors rid uuids.length
        (uuids.map fun uuid => Answer.unstarted (.tensor uuid))) = uuids.map Slot.tensor ∧
      stray (Worker.errors rid uuids.length
        (uuids.map fun uuid => Answer.unstarted (.tensor uuid))) =
          if uuids.isEmpty then 1 else 0 := by
  cases hu : uuids with
  | nil => exact ⟨rfl, rfl⟩
  | cons uuid rest =>
    rw [← hu, errors_eq rid uuids (by rw [hu]; exact List.cons_ne_nil _ _)]
    unfold unread stray
    constructor
    · rw [List.filterMap_map]
      exact congrFun (List.filterMap_eq_map (f := Slot.tensor)) uuids
    · rw [List.filter_eq_nil_iff.2]
      · rw [hu]
        rfl
      · intro c hc
        obtain ⟨u, -, rfl⟩ := List.mem_map.1 hc
        simp [Worker.errorChunk]

/-- The chunks of one request among those of another. -/
theorem filter_errors (r rid : ρ) (count : ℕ) (answers : List Answer) :
    (Worker.errors r count answers).filter (fun c => c.requestId = rid) =
      if r = rid then Worker.errors r count answers else [] := by
  split
  · rename_i heq
    rw [List.filter_eq_self]
    intro c hc
    obtain ⟨i, -, rfl⟩ := List.mem_map.1 hc
    simpa [Worker.errorChunk] using heq
  · rename_i hne
    rw [List.filter_eq_nil_iff]
    intro c hc
    obtain ⟨i, -, rfl⟩ := List.mem_map.1 hc
    simpa [Worker.errorChunk] using hne

/-- What waits: the first item's slots and the others'. -/
theorem waiting_cons {item : Item ρ} {inbox : List (Item ρ)} (hitem : w.inbox = item :: inbox)
    (rid : ρ) :
    w.waiting rid = slotsIn item.rows rid ++ slotsIn (inbox.flatMap Item.rows) rid := by
  unfold World.waiting
  rw [hitem, List.flatMap_cons, slotsIn_append]

omit [DecidableEq ρ] in
/-- The items after the first are in the inbox. -/
theorem mem_inbox_of_cons {item : Item ρ} {inbox : List (Item ρ)}
    (hitem : w.inbox = item :: inbox) : ∀ i ∈ inbox, i ∈ w.inbox := by
  intro i hi
  rw [hitem]
  exact List.mem_cons_of_mem _ hi

/-- The slots of one fate. -/
theorem map_fst_fate (slots : List Slot) (fate : Fate) :
    (slots.map fun slot => (slot, fate)).map Prod.fst = slots := by
  rw [List.map_map]
  exact List.map_id slots

/-- An edge of a draining request. -/
theorem goes_dropped {edge : Edge ρ} {inbox : List (Item ρ)} (h : w.Tracks rid)
    (hitem : w.inbox = .tensors edge :: inbox)
    (hd : (w.worker.requests edge.requestId).draining = true) (started : Bool) :
    w.Goes ({ w with inbox := inbox }.takeTensors edge started) rid
      ((slotsIn (Item.tensors edge).rows rid).map fun slot => (slot, .dropped)) 0 [] := by
  unfold World.takeTensors
  rw [if_pos hd]
  refine
    { reading := rfl
      notified := rfl
      received := rfl
      inbox := mem_inbox_of_cons hitem
      waiting := ?_
      taken := note_apply _ _ _ _ _
      bare := rfl
      known := fun _ => rfl
      does := Sound.does_refl _
      slots := ?_
      unread := ?_
      stray := rfl
      flight := h.flight
      dropped := ?_ }
  · rw [waiting_cons hitem, map_fst_fate]
    rfl
  · rw [takenAs_map]
    exact (List.append_nil _).symm
  · rw [takenAs_map]
    rfl
  · intro hne
    by_cases hr : rid = edge.requestId
    · rw [hr]
      exact hd
    · have hnone : slotsIn (Item.tensors edge).rows rid = [] := slotsIn_others hr _
      rw [hnone] at hne
      exact absurd rfl hne

/-- An edge whose read is started. -/
theorem goes_started {edge : Edge ρ} {inbox : List (Item ρ)} (h : w.Tracks rid)
    (hsane : w.Sane used) (hitem : w.inbox = .tensors edge :: inbox)
    (hd : (w.worker.requests edge.requestId).draining ≠ true) :
    w.Goes ({ w with inbox := inbox }.takeTensors edge true) rid
      ((slotsIn (Item.tensors edge).rows rid).map fun slot => (slot, .sequenced)) 0 [] := by
  obtain ⟨hnodup, hfresh⟩ := hsane.fresh hitem
  have htakes := Takes.readResultTensor edge hsane.sound hnodup hfresh
  unfold World.takeTensors
  rw [if_neg hd]
  refine
    { reading := rfl
      notified := rfl
      received := rfl
      inbox := mem_inbox_of_cons hitem
      waiting := ?_
      taken := note_apply _ _ _ _ _
      bare := rfl
      known := fun _ => rfl
      does := htakes.does
      slots := ?_
      unread := ?_
      stray := rfl
      flight := ?_
      dropped := ?_ }
  · rw [waiting_cons hitem, map_fst_fate]
    rfl
  · rw [takenAs_map]
    exact htakes.slots rid
  · rw [takenAs_map]
    rfl
  · intro uuid hu
    have hflight := flightOf_started w.reads edge
    dsimp only at hu
    rw [hflight] at hu
    rcases List.mem_append.1 hu with hu | hu
    · exact htakes.reading rid uuid (h.flight uuid hu)
    · obtain ⟨u, hmem, heq⟩ := List.mem_map.1 hu
      obtain ⟨rfl, rfl⟩ := Prod.mk.inj heq
      refine htakes.read _ _ (List.mem_map.2 ⟨_, List.mem_map.2 ⟨_, hmem, rfl⟩, rfl⟩)
  · rw [takenAs_map]
    exact fun hne => absurd rfl hne

/-- An edge whose read could not be started. -/
theorem goes_unstarted {edge : Edge ρ} {inbox : List (Item ρ)} (h : w.Tracks rid)
    (hsane : w.Sane used) (hitem : w.inbox = .tensors edge :: inbox)
    (hd : (w.worker.requests edge.requestId).draining ≠ true) :
    ∃ extra puts, w.Goes ({ w with inbox := inbox }.takeTensors edge false) rid
      ((slotsIn (Item.tensors edge).rows rid).map fun slot => (slot, .unstarted)) extra puts := by
  obtain ⟨puts, hdoes, hsound, hstates, hputs⟩ :=
    Takes.readResultTensor_failed edge hsane.sound
  obtain ⟨hunread, hstray⟩ := unread_errors edge.requestId edge.uuids
  have hreading : ∀ r, (w.worker.readResultTensor edge false).1.reading r =
      w.worker.reading r := by
    intro r
    unfold Worker.reading
    rw [hstates r]
  refine ⟨if edge.requestId = rid then (if edge.uuids.isEmpty then 1 else 0) else 0, puts, ?_⟩
  unfold World.takeTensors
  rw [if_neg hd]
  refine
    { reading := rfl
      notified := rfl
      received := rfl
      inbox := mem_inbox_of_cons hitem
      waiting := ?_
      taken := note_apply _ _ _ _ _
      bare := ?_
      known := ?_
      does := hdoes
      slots := ?_
      unread := ?_
      stray := ?_
      flight := fun uuid hu => (hreading rid).symm ▸ h.flight uuid hu
      dropped := ?_ }
  · rw [waiting_cons hitem, map_fst_fate]
    rfl
  · cases hempty : edge.uuids.isEmpty with
    | false => simp
    | true =>
      by_cases hr : edge.requestId = rid
      · subst hr
        simp
      · rw [if_neg hr, Nat.add_zero]
        simp [Function.update_of_ne (Ne.symm hr)]
  · intro hnone
    have hne := (h.unknown hnone).2.2 edge (by rw [hitem]; exact List.mem_cons_self)
    rw [if_neg hne]
  · rw [takenAs_map]
    exact (congrArg _ (hstates rid)).trans (List.append_nil _).symm
  · rw [takenAs_map, hputs, filter_errors]
    by_cases hr : edge.requestId = rid
    · rw [if_pos hr, if_pos rfl, hunread, ← hr]
      exact (slotsIn_own _ _).symm
    · rw [if_neg hr, if_pos rfl]
      exact (slotsIn_others (Ne.symm hr) _).symm
  · rw [hputs, filter_errors]
    by_cases hr : edge.requestId = rid
    · rw [if_pos hr, if_pos hr, hstray]
    · rw [if_neg hr, if_neg hr]
      rfl
  · rw [takenAs_map]
    exact fun hne => absurd rfl hne

/-- A frame. -/
theorem goes_tokens {frame : InlineTokens ρ} {inbox : List (Item ρ)} (h : w.Tracks rid)
    (hsane : w.Sane used) (hitem : w.inbox = .tokens frame :: inbox) (outcomes : List Bool) :
    ∃ puts, w.Goes ({ w with inbox := inbox }.takeTokens frame outcomes) rid
      ((slotsIn (Item.tokens frame).rows rid).map fun slot => (slot, rowFate w.worker rid)) 0
      puts := by
  have hmodality := hsane.frames frame (by rw [hitem]; exact List.mem_cons_self)
  obtain ⟨-, puts, htakes⟩ :=
    Takes.emitRows hsane.sound hmodality (w.worker.keptRows frame) outcomes
  have hslots := htakes.slots rid
  have hkept := slotsIn_keptRows w.worker frame rid
  unfold rowSlots at hkept
  rw [hkept] at hslots
  obtain ⟨hunread, hstray⟩ :=
    unread_of_sequenced fun c (hc : c ∈ puts.filter fun c => c.requestId = rid) =>
      htakes.sequenced c (List.mem_filter.1 hc).1
  refine ⟨puts, ?_⟩
  refine
    { reading := rfl
      notified := rfl
      received := rfl
      inbox := mem_inbox_of_cons hitem
      waiting := ?_
      taken := noteRows_apply _ _ _ _
      bare := rfl
      known := fun _ => rfl
      does := htakes.does
      slots := ?_
      unread := ?_
      stray := hstray
      flight := fun uuid hu => htakes.reading rid uuid (h.flight uuid hu)
      dropped := ?_ }
  · rw [waiting_cons hitem, map_fst_fate]
    rfl
  · refine hslots.trans ?_
    rw [takenAs_map]
    unfold rowFate
    by_cases hd : (w.worker.requests rid).draining = true
    · rw [if_pos hd, if_pos hd]
      rfl
    · rw [if_neg hd, if_neg hd]
      rfl
  · rw [takenAs_map, hunread]
    unfold rowFate
    split <;> rfl
  · rw [takenAs_map]
    unfold rowFate
    by_cases hd : (w.worker.requests rid).draining = true
    · exact fun _ => htakes.does.draining rid hd
    · rw [if_neg hd]
      exact fun hne => absurd rfl hne

end World

end Mstar.OutputSlots
