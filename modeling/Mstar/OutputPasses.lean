import Mstar.OutputAnswers

/-!
# The data worker's passes

A pass over the reads that came back, or over the jobs that ended, answers each
of their tensors once and never raises.
-/

namespace Mstar.OutputSlots

variable {ρ : Type*} [DecidableEq ρ]

/-- The jobs the worker has handed out or not released yet. -/
def Worker.jobs (w : Worker ρ) : List (EncodeJob ρ) :=
  w.encoding ++ w.encoded.map fun out => out.job

/-- A call that deals with some tensors in flight and leaves the others. Chunks
of a request that has all those tensors in its order answer its slots. -/
structure Handles (w w' : Worker ρ) (gone flight : List (ρ × ℕ))
    (puts : List (ResultChunk ρ)) : Prop where
  does : Does w w' puts
  sound : Sound w' flight w'.jobs
  reading : ∀ rid uuid, (rid, uuid) ∈ flight → uuid ∈ w.reading rid → uuid ∈ w'.reading rid
  sequenced : ∀ rid, (∀ uuid, (rid, uuid) ∈ gone → uuid ∈ w.reading rid) →
    ∀ c ∈ puts, c.requestId = rid → c.answers.slot?.isSome
  slots : ∀ rid, (w'.stateOf rid).slots = (w.stateOf rid).slots

namespace Handles

open RequestOutputState Worker

variable {w w' w'' : Worker ρ} {gone gone' flight : List (ρ × ℕ)}
  {jobs jobs' : List (EncodeJob ρ)} {rid : ρ} {id uuid sequence : ℕ} {looped : Bool}
  {st st' : RequestOutputState ρ} {puts puts' : List (ResultChunk ρ)} {metadata : List ℕ}

/-- Nothing handled. -/
theorem refl (h : Sound w flight w.jobs) : Handles w w [] flight [] :=
  ⟨Sound.does_refl w, h, fun _ _ _ hu => hu, fun _ _ _ hc => (by cases hc), fun _ => rfl⟩

/-- One pass after another. -/
theorem trans (h : Handles w w' gone (gone' ++ flight) puts)
    (h' : Handles w' w'' gone' flight puts') :
    Handles w w'' (gone ++ gone') flight (puts ++ puts') where
  does := Sound.does_trans h.does h.sound h'.does
  sound := h'.sound
  reading := by
    intro r u hu hr
    exact h'.reading r u hu (h.reading r u (List.mem_append_right _ hu) hr)
  sequenced := by
    intro r hr c hc hid
    rcases List.mem_append.1 hc with hc | hc
    · exact h.sequenced r (fun u hu => hr u (List.mem_append_left _ hu)) c hc hid
    · refine h'.sequenced r ?_ c hc hid
      intro u hu
      exact h.reading r u (List.mem_append_left _ hu) (hr u (List.mem_append_right _ hu))
  slots := fun r => (h'.slots r).trans (h.slots r)

/-- The slots of a request whose output state kept them, and of the others. -/
theorem slots_of_moves {o : Option (ℕ × RequestOutputState ρ)} (hst : w.stateOf rid = st)
    (h : Moves w w' rid o metadata puts) (hst' : w'.stateOf rid = st')
    (hslots : st'.slots = st.slots) (r : ρ) :
    (w'.stateOf r).slots = (w.stateOf r).slots := by
  by_cases hrid : r = rid
  · subst hrid
    rw [hst, hst', hslots]
  · rw [Sound.stateOf_of_others h hrid]

omit [DecidableEq ρ] in
/-- The output state of a request, read where it has one. -/
theorem reading_of_some (h : (w.requests rid).output = some (id, st)) :
    w.reading rid = st.order.map Prod.fst := by
  unfold Worker.reading
  rw [stateOf_of_some h]

omit [DecidableEq ρ] in
/-- Another request's reads stay. -/
theorem reading_of_others {o : Option (ℕ × RequestOutputState ρ)}
    (h : Moves w w' rid o metadata puts) {r : ρ} (hr : r ≠ rid) :
    w'.reading r = w.reading r := by
  unfold Worker.reading stateOf
  rw [h.others r hr]

omit [DecidableEq ρ] in
/-- Whatever else is in the order stays once a tensor is forgotten. -/
theorem mem_order_forget {u : ℕ} (hu : u ∈ st.order.map Prod.fst) (hne : u ≠ uuid) :
    u ∈ (st.forget uuid).order.map Prod.fst := by
  obtain ⟨e, hmem, rfl⟩ := List.mem_map.1 hu
  exact List.mem_map.2 ⟨e, List.mem_filter.2 ⟨hmem, by simpa using hne⟩, rfl⟩

/-- A tensor in the order is answered: its request goes on with the rest of the
order. -/
theorem of_answer (h : Sound w ((rid, uuid) :: flight) w.jobs)
    (hout : (w.requests rid).output = some (id, st))
    (he : (uuid, (sequence, looped)) ∈ st.order)
    (hm : Moves w w' rid (some (id, st'))
      ((w.requests rid).metadata.filter fun u => u ≠ uuid) puts)
    (horder : st'.order = (st.forget uuid).order) (hslots : st'.slots = st.slots)
    (hord : st'.Ordered rid ((due w.jobs rid id st).erase sequence))
    (hadv : st.Advance st' puts)
    (hmine : ∀ c ∈ puts, c.requestId = rid ∧ c.answers.slot?.isSome) :
    Handles w w' [(rid, uuid)] flight puts := by
  have hk := h.kept rid id st hout
  have hjobs : w'.jobs = w.jobs := by
    unfold Worker.jobs
    rw [hm.encoding, hm.encoded]
  have hdistinct := h.distinct
  rw [List.map_cons, List.nodup_cons] at hdistinct
  have hdue : due w.jobs rid id st' = due w.jobs rid id (st.forget uuid) := by
    unfold due
    rw [horder]
  constructor
  · exact Sound.does_of_moves (stateOf_of_some hout) hm (stateOf_of_some hm.output) hadv
      fun c hc => (hmine c hc).1
  · rw [hjobs]
    refine Sound.of_moves h hm (h.minted rid id st hout) hdistinct.2 ?_ h.pooled
      (fun _ _ _ => rfl) ?_
    · intro r u hr hu
      rcases List.mem_cons.1 hu with heq | hu
      · exact absurd (Prod.mk.inj heq).1 hr
      · exact hu
    · refine hk.forget ⟨[], by rw [hslots, List.append_nil]⟩ horder ?_ ?_
      · rw [hslots]
        exact hk.encodes
      · rw [hdue]
        exact hord.congr (hk.due_erase he)
  · intro r u hu hr
    by_cases hrid : r = rid
    · subst hrid
      rw [reading_of_some hm.output, horder]
      rw [reading_of_some hout] at hr
      refine mem_order_forget hr ?_
      rintro rfl
      exact hdistinct.1 (List.mem_map.2 ⟨_, hu, rfl⟩)
    · rw [reading_of_others hm hrid]
      exact hr
  · exact fun _ _ c hc _ => (hmine c hc).2
  · exact slots_of_moves (stateOf_of_some hout) hm (stateOf_of_some hm.output) hslots

/-- A tensor answered first and taken out of the order after. -/
theorem of_answer_pop (h : Sound w ((rid, uuid) :: flight) w.jobs)
    (hout : (w.requests rid).output = some (id, st))
    (he : (uuid, (sequence, looped)) ∈ st.order)
    (hm : Moves w w' rid (some (id, st')) (w.requests rid).metadata puts)
    (horder : st'.order = st.order) (hslots : st'.slots = st.slots)
    (hord : st'.Ordered rid ((due w.jobs rid id st).erase sequence))
    (hadv : st.Advance st' puts)
    (hmine : ∀ c ∈ puts, c.requestId = rid ∧ c.answers.slot?.isSome) :
    Handles w (w'.popOrder rid uuid) [(rid, uuid)] flight puts := by
  have hpop := moves_popOrder w' rid uuid
  rw [hm.output, hm.metadata, Option.map_some] at hpop
  have hboth := hm.trans hpop
  rw [List.append_nil] at hboth
  have hrest : (st'.forget uuid).order = (st.forget uuid).order := by
    unfold forget
    rw [horder]
  exact of_answer h hout he hboth hrest hslots (hord.forget uuid) (advance_forget hadv uuid)
    hmine

omit [DecidableEq ρ] in
/-- An error chunk that fits a slot. -/
theorem fits_error {slots : List Slot} (h : slots[sequence]? = some (.tensor uuid)) :
    Fits rid slots sequence (errorChunk rid (.sequenced (.tensor uuid))) where
  requestId := rfl
  answers := ⟨_, h, rfl⟩
  countable := by
    intro hm
    cases hm

omit [DecidableEq ρ] in
/-- The chunk of a tensor fits its slot. -/
theorem fits_tensorChunk {slots : List Slot} (h : slots[sequence]? = some (.tensor uuid))
    {modality : Modality} {frames : ℕ} {chunk : ResultChunk ρ}
    (hc : tensorChunk rid modality uuid frames = some chunk) :
    Fits rid slots sequence chunk := by
  unfold tensorChunk at hc
  split at hc
  · split at hc
    · cases hc
    · cases hc
      exact ⟨rfl, ⟨_, h, rfl⟩, fun _ => rfl⟩
  · rename_i hm
    cases hc
    exact ⟨rfl, ⟨_, h, rfl⟩, fun hv => absurd hv hm⟩

omit [DecidableEq ρ] in
/-- A tensor with a slot is in the request's order. -/
theorem mem_of_slotOf {slot : ℕ × Bool} (h : w.slotOf rid uuid = some slot) :
    ∃ id st, (w.requests rid).output = some (id, st) ∧ (uuid, slot) ∈ st.order := by
  unfold slotOf at h
  cases hout : (w.requests rid).output with
  | none =>
    rw [hout] at h
    cases h
  | some o =>
    rw [hout, Option.bind_some] at h
    exact ⟨o.1, o.2, rfl, ReorderBuffers.Buffer.mem_of_lookup h⟩

omit [DecidableEq ρ] in
/-- One without is not being read. -/
theorem not_mem_of_slotOf (h : w.slotOf rid uuid = none) : uuid ∉ w.reading rid := by
  unfold slotOf at h
  unfold Worker.reading stateOf
  cases hout : (w.requests rid).output with
  | none => simp [RequestOutputState.new]
  | some o =>
    rw [hout, Option.bind_some] at h
    exact ReorderBuffers.Buffer.lookup_eq_none.1 h

/-- A tensor without a slot: an error goes straight to the queue. -/
theorem of_aside (h : Sound w ((rid, uuid) :: flight) w.jobs)
    (hnone : w.slotOf rid uuid = none) {count : ℕ} {answers : List Answer}
    (hm : Moves w w' rid ((w.requests rid).output.map fun o => (o.1, o.2.forget uuid))
      ((w.requests rid).metadata.filter fun u => u ≠ uuid) (errors rid count answers))
    (hanswers : ∀ c ∈ errors rid count answers, c.answers.slot? = none) :
    Handles w w' [(rid, uuid)] flight (errors rid count answers) := by
  have hnot := not_mem_of_slotOf hnone
  have hdistinct := h.distinct
  rw [List.map_cons, List.nodup_cons] at hdistinct
  have hjobs : w'.jobs = w.jobs := by
    unfold Worker.jobs
    rw [hm.encoding, hm.encoded]
  have hothers : ∀ r u, r ≠ rid → (r, u) ∈ (rid, uuid) :: flight → (r, u) ∈ flight := by
    intro r u hr hu
    rcases List.mem_cons.1 hu with heq | hu
    · exact absurd (Prod.mk.inj heq).1 hr
    · exact hu
  have herrors : ∀ c ∈ errors rid count answers, c.requestId = rid ∧ c.modality = .error := by
    intro c hc
    obtain ⟨i, -, rfl⟩ := List.mem_map.1 hc
    exact ⟨rfl, rfl⟩
  have hseq : ∀ r, (∀ u, (r, u) ∈ [(rid, uuid)] → u ∈ w.reading r) →
      ∀ c ∈ errors rid count answers, c.requestId = r → c.answers.slot?.isSome := by
    intro r hr c hc hid
    rw [(herrors c hc).1] at hid
    subst hid
    exact absurd (hr uuid (by simp)) hnot
  cases hout : (w.requests rid).output with
  | none =>
    rw [hout] at hm
    refine ⟨?_, ?_, ?_, hseq, slots_of_moves (Sound.stateOf_of_none hout) hm
      (Sound.stateOf_of_none hm.output) rfl⟩
    · refine Sound.does_of_moves (Sound.stateOf_of_none hout) hm
        (Sound.stateOf_of_none hm.output) (Advance.aside ?_) fun c hc => (herrors c hc).1
      exact fun c hc => ⟨(herrors c hc).2, hanswers c hc⟩
    · rw [hjobs]
      exact Sound.of_moves_none h hout hm hdistinct.2 hothers
    · intro r u _ hr
      by_cases hrid : r = rid
      · subst hrid
        unfold Worker.reading stateOf at hr ⊢
        rw [hout] at hr
        rw [hm.output]
        exact hr
      · rw [reading_of_others hm hrid]
        exact hr
  | some o =>
    obtain ⟨id, st⟩ := o
    rw [reading_of_some hout] at hnot
    rw [hout, Option.map_some, Kept.forget_eq hnot] at hm
    have hk := h.kept rid id st hout
    refine ⟨?_, ?_, ?_, hseq, slots_of_moves (stateOf_of_some hout) hm
      (stateOf_of_some hm.output) rfl⟩
    · refine Sound.does_of_moves (stateOf_of_some hout) hm (stateOf_of_some hm.output)
        (Advance.aside ?_) fun c hc => (herrors c hc).1
      exact fun c hc => ⟨(herrors c hc).2, hanswers c hc⟩
    · rw [hjobs]
      refine Sound.of_moves h hm (h.minted rid id st hout) hdistinct.2 hothers h.pooled
        (fun _ _ _ => rfl) ?_
      refine hk.forget ⟨[], by simp⟩ ?_ hk.encodes hk.ordered
      rw [Kept.forget_eq hnot]
    · intro r u _ hr
      by_cases hrid : r = rid
      · subst hrid
        rw [reading_of_some hout] at hr
        rw [reading_of_some hm.output]
        exact hr
      · rw [reading_of_others hm hrid]
        exact hr

/-- A tensor whose postprocessing raised: its error takes its slot. -/
theorem of_error (h : Sound w ((rid, uuid) :: flight) w.jobs)
    (hout : (w.requests rid).output = some (id, st))
    (he : (uuid, (sequence, looped)) ∈ st.order) :
    (w.failRequest rid 1 (some sequence) [.sequenced (.tensor uuid)]).2 = false ∧
      ∃ puts, Handles w
        ((w.failRequest rid 1 (some sequence) [.sequenced (.tensor uuid)]).1.popOrder rid uuid)
        [(rid, uuid)] flight puts := by
  have hk := h.kept rid id st hout
  have hdue := hk.due_of_order he
  obtain ⟨hok, hord, hadv, hmine, horder, hslots⟩ :=
    hk.ordered.answer hdue (fits_error (hk.slot _ he))
  obtain ⟨hm, hraise⟩ := moves_failRequest hout (hk.ordered.unanswered hdue) _ hok
  exact ⟨hraise, _, of_answer_pop h hout he hm horder hslots hord hadv hmine⟩

/-- A tensor whose read failed: its error takes its slot. -/
theorem of_unread (h : Sound w ((rid, uuid) :: flight) w.jobs)
    (hout : (w.requests rid).output = some (id, st))
    (he : (uuid, (sequence, looped)) ∈ st.order) :
    ((w.popOrder rid uuid).failRequest rid 1 (some sequence)
        [.sequenced (.tensor uuid)]).2 = false ∧
      ∃ puts, Handles w
        ((w.popOrder rid uuid).failRequest rid 1 (some sequence)
          [.sequenced (.tensor uuid)]).1
        [(rid, uuid)] flight puts := by
  have hk := h.kept rid id st hout
  have hdue := hk.due_of_order he
  have hpop := moves_popOrder w rid uuid
  rw [hout, Option.map_some] at hpop
  obtain ⟨hok, hord, hadv, hmine, horder, hslots⟩ :=
    (hk.ordered.forget uuid).answer hdue (fits_error (hk.slot _ he))
  obtain ⟨hm, hraise⟩ := moves_failRequest hpop.output
    ((hk.ordered.forget uuid).unanswered hdue) _ hok
  rw [hpop.metadata] at hm
  exact ⟨hraise, _, of_answer h hout he (hpop.trans hm) horder hslots hord
    (advance_from_forget hadv) hmine⟩

/-- A tensor postprocessed in place: its chunk takes its slot. -/
theorem of_chunk (h : Sound w ((rid, uuid) :: flight) w.jobs)
    (hout : (w.requests rid).output = some (id, st))
    (he : (uuid, (sequence, looped)) ∈ st.order) {chunk : ResultChunk ρ}
    (hfit : Fits rid st.slots sequence chunk) :
    (w.queueCompletedOutput rid sequence chunk).2 = false ∧
      ∃ puts, Handles w ((w.queueCompletedOutput rid sequence chunk).1.popOrder rid uuid)
        [(rid, uuid)] flight puts := by
  have hk := h.kept rid id st hout
  have hdue := hk.due_of_order he
  obtain ⟨hok, hord, hadv, hmine, horder, hslots⟩ := hk.ordered.answer hdue hfit
  obtain ⟨hm, hraise⟩ := moves_queueCompletedOutput hout sequence chunk
  exact ⟨hraise.trans hok, _, of_answer_pop h hout he hm horder hslots hord hadv hmine⟩

/-- A request's jobs, one list after another. -/
theorem jobsOf_append (a b : List (EncodeJob ρ)) (rid : ρ) (id : ℕ) :
    jobsOf (a ++ b) rid id = jobsOf a rid id ++ jobsOf b rid id :=
  List.filter_append a b

/-- A tensor handed to the pool: its job answers its slot. -/
theorem of_submit (h : Sound w ((rid, uuid) :: flight) w.jobs)
    (hout : (w.requests rid).output = some (id, st))
    (he : (uuid, (sequence, looped)) ∈ st.order) {modality : Modality}
    (hmodality : modality ≠ .videoFrame) :
    Handles w ((w.submitEncode rid sequence modality uuid).popOrder rid uuid)
      [(rid, uuid)] flight [] := by
  have hk := h.kept rid id st hout
  have hdistinct := h.distinct
  rw [List.map_cons, List.nodup_cons] at hdistinct
  have hpop := moves_popOrder w rid uuid
  rw [hout, Option.map_some] at hpop
  -- the job is handed over before the tensor leaves the order; neither reads the other
  have hsubmit : (w.submitEncode rid sequence modality uuid).popOrder rid uuid =
      { w.popOrder rid uuid with
        encoding := w.encoding ++ [⟨uuid, rid, id, sequence, modality⟩] } := by
    unfold submitEncode
    rw [hout]
    rfl
  have hmine : jobsOf [⟨uuid, rid, id, sequence, modality⟩] rid id =
      [⟨uuid, rid, id, sequence, modality⟩] := by
    simp [jobsOf]
  have hjobs : ({ w.popOrder rid uuid with
      encoding := w.encoding ++ [⟨uuid, rid, id, sequence, modality⟩] } : Worker ρ).jobs =
      w.encoding ++ [⟨uuid, rid, id, sequence, modality⟩] ++
        w.encoded.map fun out => out.job := by
    unfold Worker.jobs
    rfl
  have hsound : Sound (w.popOrder rid uuid) flight
      (w.encoding ++ [⟨uuid, rid, id, sequence, modality⟩] ++
        w.encoded.map fun out => out.job) := by
    refine Sound.of_moves h hpop (h.minted rid id st hout) hdistinct.2 ?_ ?_ ?_ ?_
    · intro r u hr hu
      rcases List.mem_cons.1 hu with heq | hu
      · exact absurd (Prod.mk.inj heq).1 hr
      · exact hu
    · intro j hj
      rcases List.mem_append.1 hj with hj | hj
      · rcases List.mem_append.1 hj with hj | hj
        · exact h.pooled j (List.mem_append_left _ hj)
        · rw [List.mem_singleton.1 hj]
          exact ⟨h.minted rid id st hout, hmodality⟩
      · exact h.pooled j (List.mem_append_right _ hj)
    · intro r i hr
      have hnone : jobsOf [(⟨uuid, rid, id, sequence, modality⟩ : EncodeJob ρ)] r i = [] := by
        simp [jobsOf, Ne.symm hr]
      unfold Worker.jobs
      rw [jobsOf_append, jobsOf_append, jobsOf_append, hnone, List.append_nil]
    · refine hk.forget ⟨[], by simp [forget]⟩ rfl ?_ ?_
      · intro j hj
        rw [jobsOf_append, jobsOf_append, hmine] at hj
        rcases List.mem_append.1 hj with hj | hj
        · rcases List.mem_append.1 hj with hj | hj
          · refine hk.encodes j ?_
            unfold Worker.jobs
            rw [jobsOf_append]
            exact List.mem_append_left _ hj
          · rw [List.mem_singleton.1 hj]
            exact hk.slot _ he
        · refine hk.encodes j ?_
          unfold Worker.jobs
          rw [jobsOf_append]
          exact List.mem_append_right _ hj
      · refine (hk.ordered.forget uuid).congr ((hk.due_perm he).trans ?_)
        unfold due Worker.jobs
        rw [jobsOf_append, jobsOf_append, jobsOf_append, hmine]
        simp only [List.map_append, List.map_cons, List.append_assoc,
          List.cons_append, List.nil_append]
        rw [← List.append_assoc, ← List.append_assoc]
        exact List.perm_middle.symm
  rw [hsubmit]
  refine ⟨?_, ?_, ?_, fun _ _ c hc => (by cases hc), ?_⟩
  · have hdoes := Sound.does_of_moves (stateOf_of_some hout) hpop (stateOf_of_some hpop.output)
      (advance_forget (Advance.refl st) uuid) fun c hc => by cases hc
    exact ⟨hdoes.queue, hdoes.advance, hdoes.draining⟩
  · rw [hjobs]
    exact ⟨hsound.distinct, hsound.minted, hsound.kept, hsound.pooled⟩
  · intro r u hu hr
    by_cases hrid : r = rid
    · subst hrid
      have hread := reading_of_some hpop.output
      rw [reading_of_some hout] at hr
      unfold Worker.reading stateOf at hread ⊢
      rw [hread]
      refine mem_order_forget hr ?_
      rintro rfl
      exact hdistinct.1 (List.mem_map.2 ⟨_, hu, rfl⟩)
    · have hread := reading_of_others hpop hrid
      unfold Worker.reading stateOf at hread hr ⊢
      rw [hread]
      exact hr
  · intro r
    have hslots := slots_of_moves (stateOf_of_some hout) hpop (stateOf_of_some hpop.output) rfl r
    unfold stateOf at hslots ⊢
    exact hslots

end Handles

end Mstar.OutputSlots
