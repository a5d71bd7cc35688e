import Mstar.OutputReads

/-!
# Outputs the data worker takes up

An edge whose read starts gives each of its tensors a sequence number. The row
of an inline frame takes one and answers it at once, with its chunk or with an
error.
-/

namespace Mstar.OutputSlots

variable {ρ : Type*} [DecidableEq ρ]

/-- The slots of one request among those of several. -/
def slotsIn (taken : List (ρ × Slot)) (rid : ρ) : List Slot :=
  (taken.filter fun t => t.1 = rid).map Prod.snd

/-- A call that takes outputs up, in turn. -/
structure Takes (w w' : Worker ρ) (taken : List (ρ × Slot)) (flight : List (ρ × ℕ))
    (puts : List (ResultChunk ρ)) : Prop where
  does : Does w w' puts
  sound : Sound w' flight w'.jobs
  reading : ∀ rid uuid, uuid ∈ w.reading rid → uuid ∈ w'.reading rid
  read : ∀ rid uuid, (rid, Slot.tensor uuid) ∈ taken → uuid ∈ w'.reading rid
  sequenced : ∀ c ∈ puts, c.answers.slot?.isSome
  slots : ∀ rid, (w'.stateOf rid).slots = (w.stateOf rid).slots ++ slotsIn taken rid

/-- A request's slots, one list after another. -/
theorem slotsIn_append (a b : List (ρ × Slot)) (rid : ρ) :
    slotsIn (a ++ b) rid = slotsIn a rid ++ slotsIn b rid := by
  unfold slotsIn
  rw [List.filter_append, List.map_append]

/-- All of a request's own slots. -/
theorem slotsIn_own (rid : ρ) (slots : List Slot) :
    slotsIn (slots.map fun slot => (rid, slot)) rid = slots := by
  unfold slotsIn
  rw [List.filter_eq_self.2, List.map_map]
  · exact List.map_id slots
  · intro t ht
    obtain ⟨slot, -, rfl⟩ := List.mem_map.1 ht
    simp

/-- None of another's. -/
theorem slotsIn_others {rid r : ρ} (hr : r ≠ rid) (slots : List Slot) :
    slotsIn (slots.map fun slot => (rid, slot)) r = [] := by
  unfold slotsIn
  rw [List.filter_eq_nil_iff.2, List.map_nil]
  intro t ht
  obtain ⟨slot, -, rfl⟩ := List.mem_map.1 ht
  simpa using Ne.symm hr

namespace Takes

open RequestOutputState Worker

variable {w w' w'' : Worker ρ} {taken taken' : List (ρ × Slot)} {flight flight' : List (ρ × ℕ)}
  {rid : ρ} {id uuid : ℕ} {st st' : RequestOutputState ρ} {puts puts' : List (ResultChunk ρ)}
  {metadata : List ℕ}

/-- Nothing taken. -/
theorem refl (h : Sound w flight w.jobs) : Takes w w [] flight [] where
  does := Sound.does_refl w
  sound := h
  reading := fun _ _ hu => hu
  read := fun _ _ hu => by cases hu
  sequenced := fun _ hc => by cases hc
  slots := by
    intro r
    simp [slotsIn]

/-- One take after another. -/
theorem trans (h : Takes w w' taken flight puts) (h' : Takes w' w'' taken' flight' puts') :
    Takes w w'' (taken ++ taken') flight' (puts ++ puts') where
  does := Sound.does_trans h.does h.sound h'.does
  sound := h'.sound
  reading := fun r u hu => h'.reading r u (h.reading r u hu)
  read := by
    intro r u hu
    rcases List.mem_append.1 hu with hu | hu
    · exact h'.reading r u (h.read r u hu)
    · exact h'.read r u hu
  sequenced := by
    intro c hc
    rcases List.mem_append.1 hc with hc | hc
    · exact h.sequenced c hc
    · exact h'.sequenced c hc
  slots := by
    intro r
    rw [h'.slots r, h.slots r, slotsIn_append, List.append_assoc]

/-- A request gets an output state if it has none. -/
theorem setdefault (h : Sound w flight w.jobs) (rid : ρ) :
    Takes w (w.setdefault rid) [] flight [] ∧
      ((w.setdefault rid).requests rid).output.isSome ∧
      ((w.setdefault rid).requests rid).metadata = (w.requests rid).metadata := by
  cases hout : (w.requests rid).output with
  | some o =>
    rw [setdefault_of_some hout]
    exact ⟨refl h, by rw [hout]; rfl, rfl⟩
  | none =>
    have hnew : w.setdefault rid =
        { w.modify rid fun r => { r with output := some (w.minted, .new) } with
          minted := w.minted + 1 } := by
      unfold Worker.setdefault
      rw [hout]
    rw [hnew]
    have hothers : ∀ r, r ≠ rid → (w.modify rid fun r =>
        { r with output := some (w.minted, .new) }).requests r = w.requests r :=
      fun r hr => Function.update_of_ne hr _ _
    have hmine : (w.modify rid fun r =>
        { r with output := some (w.minted, .new) }).requests rid =
          { w.requests rid with output := some (w.minted, .new) } :=
      Function.update_self _ _ _
    have hstates : ∀ r, Worker.stateOf { w.modify rid fun r =>
        { r with output := some (w.minted, .new) } with minted := w.minted + 1 } r =
          w.stateOf r := by
      intro r
      unfold Worker.stateOf
      dsimp only
      by_cases hr : r = rid
      · subst hr
        rw [hmine, hout]
        rfl
      · rw [hothers r hr]
    refine ⟨⟨⟨by simp [Worker.modify], ?_, ?_⟩, ?_, ?_, fun _ _ hu => (by cases hu),
      fun _ hc => (by cases hc), ?_⟩, ?_, ?_⟩
    · intro r
      rw [hstates r]
      exact Advance.refl _
    · intro r hd
      dsimp only
      by_cases hr : r = rid
      · subst hr
        rw [hmine]
        exact hd
      · rw [hothers r hr]
        exact hd
    · refine Sound.renewed h rfl hothers ?_
      dsimp only
      rw [hmine]
    · intro r u hu
      unfold Worker.reading at hu ⊢
      rw [hstates r]
      exact hu
    · intro r
      rw [hstates r]
      simp [slotsIn]
    · dsimp only
      rw [hmine]
      rfl
    · dsimp only
      rw [hmine]

/-- A call about one request that takes some outputs of it up. -/
theorem of_moves (h : Sound w flight w.jobs) (hout : (w.requests rid).output = some (id, st))
    (hm : Moves w w' rid (some (id, st')) metadata puts)
    (hflight : (flight'.map Prod.snd).Nodup) (hsub : ∀ f ∈ flight, f ∈ flight')
    (hkept : Kept flight' w.jobs metadata rid id st') (hadv : st.Advance st' puts)
    (hmine : ∀ c ∈ puts, c.requestId = rid ∧ c.answers.slot?.isSome)
    (horder : ∀ u ∈ st.order.map Prod.fst, u ∈ st'.order.map Prod.fst) {more : List Slot}
    (hslots : st'.slots = st.slots ++ more)
    (hread : ∀ u, Slot.tensor u ∈ more → u ∈ st'.order.map Prod.fst) :
    Takes w w' (more.map fun slot => (rid, slot)) flight' puts where
  does := Sound.does_of_moves (stateOf_of_some hout) hm (stateOf_of_some hm.output) hadv
    fun c hc => (hmine c hc).1
  sound := by
    have hjobs : w'.jobs = w.jobs := by
      unfold Worker.jobs
      rw [hm.encoding, hm.encoded]
    rw [hjobs]
    exact Sound.of_moves h hm (h.minted rid id st hout) hflight (fun _ _ _ hu => hsub _ hu)
      h.pooled (fun _ _ _ => rfl) hkept
  reading := by
    intro r u hu
    by_cases hrid : r = rid
    · subst hrid
      rw [Handles.reading_of_some hout] at hu
      rw [Handles.reading_of_some hm.output]
      exact horder u hu
    · rw [Handles.reading_of_others hm hrid]
      exact hu
  read := by
    intro r u hu
    obtain ⟨slot, hslot, heq⟩ := List.mem_map.1 hu
    obtain ⟨rfl, rfl⟩ := Prod.mk.inj heq
    rw [Handles.reading_of_some hm.output]
    exact hread u hslot
  sequenced := fun c hc => (hmine c hc).2
  slots := by
    intro r
    by_cases hrid : r = rid
    · subst hrid
      rw [stateOf_of_some hout, stateOf_of_some hm.output, hslots, slotsIn_own]
    · rw [Sound.stateOf_of_others hm hrid, slotsIn_others hrid, List.append_nil]

/-- The next sequence number is not due yet. -/
theorem not_due (h : Kept flight w.jobs metadata rid id st) :
    st.nextSequence ∉ due w.jobs rid id st := by
  intro hmem
  exact absurd (h.ordered.waits.of_due hmem).2.1 (Nat.lt_irrefl _)

/-- An output state with one slot more. -/
theorem slot_append {slots : List Slot} {i : ℕ} {slot : Slot} (h : slots[i]? = some slot)
    (more : List Slot) : (slots ++ more)[i]? = some slot := by
  rw [List.getElem?_append_left (List.getElem?_eq_some_iff.1 h).1]
  exact h

/-- The row of a frame that is answered. -/
theorem of_row (h : Sound w flight w.jobs) (hout : (w.requests rid).output = some (id, st))
    {value : ℤ} {chunk : ResultChunk ρ}
    (hchunk : Fits rid (st.orderToken value).slots st.nextSequence chunk)
    (hm : Moves (w.setState rid fun st => st.orderToken value) w' rid
      (some (id, ((st.orderToken value).queueCompleted st.nextSequence chunk).1))
      (w.requests rid).metadata
      ((st.orderToken value).queueCompleted st.nextSequence chunk).2.1) :
    Takes w w' [(rid, .token value)] flight
      ((st.orderToken value).queueCompleted st.nextSequence chunk).2.1 := by
  have hk := h.kept rid id st hout
  have hordered : (st.orderToken value).Ordered rid
      (due w.jobs rid id st ++ [st.nextSequence]) := hk.ordered.next (.token value) st.order
  obtain ⟨-, hord, hadv, hmine, horder, hslots⟩ :=
    hordered.answer (List.mem_append_right _ List.mem_cons_self) hchunk
  have hset := moves_setState w rid fun st => st.orderToken value
  rw [hout, Option.map_some] at hset
  have hboth := hset.trans hm
  rw [List.nil_append] at hboth
  have hdue : ((due w.jobs rid id st ++ [st.nextSequence]).erase st.nextSequence) =
      due w.jobs rid id st := by
    rw [List.erase_append_right _ (not_due hk), List.erase_cons_head, List.append_nil]
  rw [hdue] at hord
  have hnext : st.Advance (st.orderToken value) [] := advance_next st (.token value) st.order
  refine of_moves h hout hboth h.distinct (fun _ hf => hf) ?_
    (hnext.trans hadv hordered.nextEmit_le) hmine ?_ hslots ?_
  · constructor
    · unfold due at hord ⊢
      rw [horder]
      exact hord
    · rw [horder]
      exact hk.keys
    · intro e he
      rw [horder] at he
      rw [hslots]
      exact slot_append (hk.slot e he) _
    · rw [horder]
      exact hk.reading
    · rw [horder]
      exact hk.described
    · intro j hj
      rw [hslots]
      exact slot_append (hk.encodes j hj) _
  · rw [horder]
    exact fun _ hu => hu
  · intro u hu
    cases List.mem_singleton.1 hu

/-- A row of a frame whose values are not frames of a video. -/
theorem emitRow (h : Sound w flight w.jobs) {modality : Modality}
    (hmodality : modality ≠ .videoFrame) (rid : ρ) (value : ℤ) (ok : Bool) :
    (w.emitRow modality rid value ok).2 = false ∧
      ∃ puts, Takes w (w.emitRow modality rid value ok).1 [(rid, .token value)] flight puts := by
  obtain ⟨hdefault, hsome, -⟩ := setdefault h rid
  obtain ⟨⟨id, st⟩, hout⟩ := Option.isSome_iff_exists.1 hsome
  have hk := hdefault.sound.kept rid id st hout
  have hordered : (st.orderToken value).Ordered rid
      (due (w.setdefault rid).jobs rid id st ++ [st.nextSequence]) :=
    hk.ordered.next (.token value) st.order
  have hdue : st.nextSequence ∈ due (w.setdefault rid).jobs rid id st ++ [st.nextSequence] :=
    List.mem_append_right _ List.mem_cons_self
  have hslot : (st.orderToken value).slots[st.nextSequence]? = some (.token value) := by
    unfold orderToken
    rw [← hk.ordered.length]
    exact List.getElem?_concat_length
  have hset := moves_setState (w.setdefault rid) rid fun st => st.orderToken value
  rw [hout, Option.map_some] at hset
  unfold Worker.emitRow
  dsimp only
  rw [stateOf_of_some hout]
  cases ok with
  | true =>
    have hfit : Fits rid (st.orderToken value).slots st.nextSequence
        (⟨rid, modality, none, none, .sequenced (.token value)⟩ : ResultChunk ρ) :=
      ⟨rfl, ⟨_, hslot, rfl⟩, fun hv => absurd hv hmodality⟩
    obtain ⟨hok, -⟩ := hordered.answer hdue hfit
    obtain ⟨hm, hraise⟩ := moves_queueCompletedOutput hset.output st.nextSequence
      ⟨rid, modality, none, none, .sequenced (.token value)⟩
    rw [hset.metadata] at hm
    simp only [if_true, hraise.trans hok, Bool.false_eq_true, if_false]
    exact ⟨trivial, _, hdefault.trans (of_row hdefault.sound hout hfit hm)⟩
  | false =>
    have hfit : Fits rid (st.orderToken value).slots st.nextSequence
        (errorChunk rid (.sequenced (.token value))) :=
      ⟨rfl, ⟨_, hslot, rfl⟩, fun hv => by cases hv⟩
    obtain ⟨hok, -⟩ := hordered.answer hdue hfit
    obtain ⟨hm, hraise⟩ := moves_failRequest hset.output (hordered.unanswered hdue) _ hok
    rw [hset.metadata] at hm
    simp only [Bool.false_eq_true, if_false, if_true]
    exact ⟨hraise, _, hdefault.trans (of_row hdefault.sound hout hfit hm)⟩

/-- The rows of a frame. -/
theorem emitRows (h : Sound w flight w.jobs) {modality : Modality}
    (hmodality : modality ≠ .videoFrame) (rows : List (ρ × ℤ)) (outcomes : List Bool) :
    (emitRows modality w rows outcomes).2 = false ∧
      ∃ puts, Takes w (Worker.emitRows modality w rows outcomes).1
        (rows.map fun row => (row.1, .token row.2)) flight puts := by
  induction rows generalizing w outcomes with
  | nil => exact ⟨rfl, [], refl h⟩
  | cons row rows ih =>
    obtain ⟨hraise, puts, hone⟩ := emitRow h hmodality row.1 row.2 (outcomes.headD false)
    obtain ⟨hraise', puts', hrest⟩ := ih hone.sound outcomes.tail
    unfold Worker.emitRows
    dsimp only
    rw [if_neg (by rw [hraise]; decide)]
    exact ⟨hraise', _, hone.trans hrest⟩

/-- A tensor whose read is started takes the next sequence number. -/
theorem orderTensor (h : Sound w flight w.jobs) (hout : (w.requests rid).output = some (id, st))
    (looped : Bool) (hfresh : uuid ∉ flight.map Prod.snd)
    (hmeta : uuid ∈ (w.requests rid).metadata) :
    Takes w (w.setState rid fun st => st.orderTensor looped uuid) [(rid, .tensor uuid)]
      (flight ++ [(rid, uuid)]) [] := by
  have hk := h.kept rid id st hout
  have hnot : uuid ∉ st.order.map Prod.fst := by
    intro hmem
    obtain ⟨e, he, rfl⟩ := List.mem_map.1 hmem
    exact hfresh (List.mem_map.2 ⟨_, hk.reading e he, rfl⟩)
  have horder : (st.orderTensor looped uuid).order =
      st.order ++ [(uuid, (st.nextSequence, looped))] := by
    have hsame := congrArg RequestOutputState.order (Kept.forget_eq hnot)
    unfold forget at hsame
    unfold RequestOutputState.orderTensor
    dsimp only at hsame ⊢
    rw [hsame]
  have hset := moves_setState w rid fun st => st.orderTensor looped uuid
  rw [hout, Option.map_some] at hset
  have hslots : (st.orderTensor looped uuid).slots = st.slots ++ [.tensor uuid] := rfl
  have hmem : ∀ e ∈ (st.orderTensor looped uuid).order,
      e ∈ st.order ∨ e = (uuid, (st.nextSequence, looped)) := by
    intro e he
    rw [horder] at he
    simpa using he
  refine of_moves h hout hset ?_ (fun f hf => List.mem_append_left _ hf) ?_ ?_
    (fun _ hc => by cases hc) ?_ hslots ?_
  · rw [List.map_append, List.nodup_append]
    refine ⟨h.distinct, List.nodup_singleton _, ?_⟩
    intro a ha b hb heq
    rw [List.map_cons, List.map_nil, List.mem_singleton] at hb
    rw [heq, hb] at ha
    exact hfresh ha
  · constructor
    · have hordered : (st.orderTensor looped uuid).Ordered rid
          (due w.jobs rid id st ++ [st.nextSequence]) := hk.ordered.next (.tensor uuid) _
      refine hordered.congr ?_
      unfold due
      rw [horder, List.map_append, List.append_assoc, List.append_assoc]
      exact List.Perm.append_left _ List.perm_append_comm
    · rw [horder, List.map_append, List.nodup_append]
      refine ⟨hk.keys, List.nodup_singleton _, ?_⟩
      intro a ha b hb heq
      rw [List.map_cons, List.map_nil, List.mem_singleton] at hb
      rw [heq, hb] at ha
      exact hnot ha
    · intro e he
      rcases hmem e he with he | rfl
      · exact slot_append (hk.slot e he) _
      · rw [hslots, ← hk.ordered.length]
        exact List.getElem?_concat_length
    · intro e he
      rcases hmem e he with he | rfl
      · exact List.mem_append_left _ (hk.reading e he)
      · exact List.mem_append_right _ List.mem_cons_self
    · intro e he
      rcases hmem e he with he | rfl
      · exact hk.described e he
      · exact hmeta
    · exact fun j hj => slot_append (hk.encodes j hj) _
  · exact advance_next st (.tensor uuid) _
  · intro u hu
    rw [horder, List.map_append]
    exact List.mem_append_left _ hu
  · intro u hu
    have hu' : u = uuid := by
      simpa using hu
    rw [hu', horder, List.map_append]
    exact List.mem_append_right _ List.mem_cons_self

/-- The tensors of an edge whose read is started. -/
theorem orderTensors (looped : Bool) (uuids : List ℕ) (h : Sound w flight w.jobs)
    (hout : (w.requests rid).output.isSome) (hnodup : uuids.Nodup)
    (hfresh : ∀ uuid ∈ uuids, uuid ∉ flight.map Prod.snd)
    (hmeta : ∀ uuid ∈ uuids, uuid ∈ (w.requests rid).metadata) :
    Takes w (uuids.foldl
        (fun w uuid => w.setState rid fun st => st.orderTensor looped uuid) w)
      ((uuids.map Slot.tensor).map fun slot => (rid, slot))
      (flight ++ Handles.inFlight rid uuids) [] := by
  induction uuids generalizing w flight with
  | nil =>
    have hsame : flight ++ Handles.inFlight rid [] = flight := List.append_nil flight
    rw [hsame]
    exact refl h
  | cons uuid uuids ih =>
    obtain ⟨⟨id, st⟩, hstate⟩ := Option.isSome_iff_exists.1 hout
    rw [List.nodup_cons] at hnodup
    have hone := orderTensor h hstate looped (hfresh uuid List.mem_cons_self)
      (hmeta uuid List.mem_cons_self)
    have hset := moves_setState w rid fun st => st.orderTensor looped uuid
    rw [hstate, Option.map_some] at hset
    have hrest := ih hone.sound (by rw [hset.output]; rfl) hnodup.2 ?_ ?_
    · have hboth := hone.trans hrest
      rw [List.append_assoc] at hboth
      exact hboth
    · intro u hu hmem
      rw [List.map_append, List.mem_append] at hmem
      rcases hmem with hmem | hmem
      · exact hfresh u (List.mem_cons_of_mem _ hu) hmem
      · have heq : u = uuid := by
          simpa using hmem
        exact hnodup.1 (heq ▸ hu)
    · intro u hu
      rw [hset.metadata]
      exact hmeta u (List.mem_cons_of_mem _ hu)

/-- An edge whose read is started. -/
theorem readResultTensor (edge : Edge ρ) (h : Sound w flight w.jobs) (hnodup : edge.uuids.Nodup)
    (hfresh : ∀ uuid ∈ edge.uuids, uuid ∉ flight.map Prod.snd) :
    Takes w (w.readResultTensor edge true).1
      ((edge.uuids.map Slot.tensor).map fun slot => (edge.requestId, slot))
      (flight ++ Handles.inFlight edge.requestId edge.uuids) [] := by
  obtain ⟨hdefault, hsome, -⟩ := setdefault h edge.requestId
  obtain ⟨⟨id, st⟩, hout⟩ := Option.isSome_iff_exists.1 hsome
  have hk := hdefault.sound.kept _ id st hout
  have hmeta := moves_modify (w.setdefault edge.requestId) edge.requestId
    (fun r => { r with metadata := r.metadata ++ edge.uuids }) fun hd => hd
  rw [hout] at hmeta
  have hdescribed : Takes (w.setdefault edge.requestId)
      ((w.setdefault edge.requestId).modify edge.requestId fun r =>
        { r with metadata := r.metadata ++ edge.uuids }) [] flight [] := by
    have hsame : st.slots = st.slots ++ [] := (List.append_nil _).symm
    refine of_moves hdefault.sound hout hmeta h.distinct (fun _ hf => hf) ?_ (Advance.refl st)
      (fun _ hc => by cases hc) (fun _ hu => hu) hsame (fun _ hu => by cases hu)
    exact ⟨hk.ordered, hk.keys, hk.slot, hk.reading,
      fun e he => List.mem_append_left _ (hk.described e he), hk.encodes⟩
  have hrest := orderTensors edge.looped edge.uuids hdescribed.sound
    (by rw [hmeta.output]; rfl) hnodup hfresh ?_
  · have hboth := (hdefault.trans hdescribed).trans hrest
    unfold Worker.readResultTensor
    rw [if_pos rfl]
    exact hboth
  · intro u hu
    rw [hmeta.metadata]
    exact List.mem_append_right _ hu

/-- The tensor a chunk answers, if its read was never started. -/
def unstarted? : Answer → Option Slot
  | .unstarted slot => some slot
  | _ => none

/-- An edge whose read could not be started: the chunks answer its tensors in
turn, and take no slot. -/
theorem readResultTensor_failed (edge : Edge ρ) (h : Sound w flight w.jobs) :
    ∃ puts, Does w (w.readResultTensor edge false).1 puts ∧
      Sound (w.readResultTensor edge false).1 flight (w.readResultTensor edge false).1.jobs ∧
      (∀ r, (w.readResultTensor edge false).1.stateOf r = w.stateOf r) ∧
      puts = errors edge.requestId edge.uuids.length
        (edge.uuids.map fun uuid => .unstarted (.tensor uuid)) := by
  obtain ⟨hm, -⟩ := moves_failRequest_aside w edge.requestId edge.uuids.length
    (edge.uuids.map fun uuid => .unstarted (.tensor uuid))
  unfold Worker.readResultTensor
  rw [if_neg (by decide)]
  generalize hputs : errors edge.requestId edge.uuids.length
    (edge.uuids.map fun uuid => Answer.unstarted (.tensor uuid)) = puts at hm ⊢
  generalize (w.failRequest edge.requestId edge.uuids.length none
    (edge.uuids.map fun uuid => .unstarted (.tensor uuid))).1 = w' at hm ⊢
  have herrors : ∀ c ∈ puts, c.requestId = edge.requestId ∧ c.modality = .error ∧
      c.answers.slot? = none := by
    intro c hc
    rw [← hputs] at hc
    obtain ⟨i, -, rfl⟩ := List.mem_map.1 hc
    refine ⟨rfl, rfl, ?_⟩
    unfold errorChunk
    dsimp only
    rw [List.getD_eq_getElem?_getD, List.getElem?_map]
    cases edge.uuids[i]? <;> rfl
  have hmine : w'.stateOf edge.requestId = w.stateOf edge.requestId := by
    unfold Worker.stateOf
    rw [hm.output]
  have hjobs : w'.jobs = w.jobs := by
    unfold Worker.jobs
    rw [hm.encoding, hm.encoded]
  refine ⟨puts, ?_, ?_, ?_, rfl⟩
  · exact Sound.does_of_moves rfl hm hmine (Advance.aside fun c hc => (herrors c hc).2)
      fun c hc => (herrors c hc).1
  · rw [hjobs]
    refine h.congr hm.minted ?_
    intro r
    by_cases hr : r = edge.requestId
    · subst hr
      exact Or.inr ⟨hm.output, hm.metadata⟩
    · rw [hm.others r hr]
      exact Or.inr ⟨rfl, rfl⟩
  · intro r
    by_cases hr : r = edge.requestId
    · subst hr
      exact hmine
    · exact Sound.stateOf_of_others hm hr

end Takes

end Mstar.OutputSlots
