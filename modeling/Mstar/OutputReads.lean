import Mstar.OutputPasses

/-!
# Passes over reads and encodes

The tensors of the reads that came back and the jobs that ended, in turn.
-/

namespace Mstar.OutputSlots

variable {ρ : Type*} [DecidableEq ρ]

namespace Handles

open RequestOutputState Worker

variable {w : Worker ρ} {flight : List (ρ × ℕ)} {rid : ρ} {id uuid : ℕ}
  {st : RequestOutputState ρ}

/-- A tensor without a slot that came back. -/
theorem of_stray (h : Sound w ((rid, uuid) :: flight) w.jobs)
    (hnone : w.slotOf rid uuid = none) :
    Handles w ((w.failRequest rid 1 none [.nothing]).1.popOrder rid uuid) [(rid, uuid)]
      flight (errors rid 1 [.nothing]) := by
  obtain ⟨hm, -⟩ := moves_failRequest_aside w rid 1 [.nothing]
  have hpop := moves_popOrder (w.failRequest rid 1 none [.nothing]).1 rid uuid
  rw [hm.output, hm.metadata] at hpop
  have hboth := hm.trans hpop
  rw [List.append_nil] at hboth
  refine of_aside h hnone hboth ?_
  intro c hc
  obtain ⟨i, hi, rfl⟩ := List.mem_map.1 hc
  have hzero : i = 0 := by simpa using hi
  rw [hzero]
  rfl

/-- A tensor without a slot whose read failed. -/
theorem of_stray_unread (h : Sound w ((rid, uuid) :: flight) w.jobs)
    (hnone : w.slotOf rid uuid = none) :
    Handles w ((w.popOrder rid uuid).failRequest rid 1 none [.nothing]).1 [(rid, uuid)]
      flight (errors rid 1 [.nothing]) := by
  have hpop := moves_popOrder w rid uuid
  obtain ⟨hm, -⟩ := moves_failRequest_aside (w.popOrder rid uuid) rid 1 [.nothing]
  rw [hpop.output, hpop.metadata] at hm
  refine of_aside h hnone (hpop.trans hm) ?_
  intro c hc
  obtain ⟨i, hi, rfl⟩ := List.mem_map.1 hc
  have hzero : i = 0 := by simpa using hi
  rw [hzero]
  rfl

omit [DecidableEq ρ] in
/-- What the pool encodes is no frame. -/
theorem pooled_ne {modality : Modality} {looped : Bool}
    (h : pooledOutput modality looped = true) : modality ≠ .videoFrame := by
  rintro rfl
  cases h

/-- A raised tensor is answered by an error and leaves the order. -/
theorem settleTensor_raised {slot : Option (ℕ × Bool)}
    (h : (w.failRequest rid 1 (slot.map Prod.fst) [answerFor slot uuid]).2 = false) :
    settleTensor rid uuid slot (w, true) =
      ((w.failRequest rid 1 (slot.map Prod.fst) [answerFor slot uuid]).1.popOrder rid uuid,
        false) := by
  unfold settleTensor
  simp only [if_true, h, Bool.false_eq_true, if_false]

/-- So does one that is settled. -/
theorem settleTensor_ok (slot : Option (ℕ × Bool)) {tried : Worker ρ × Bool}
    (h : tried.2 = false) :
    settleTensor rid uuid slot tried = (tried.1.popOrder rid uuid, false) := by
  unfold settleTensor
  simp only [h, Bool.false_eq_true, if_false]

/-- What postprocessing a tensor comes to. -/
theorem postprocess_cases (pool : Bool) (edge : Edge ρ) (w : Worker ρ) (uuid sequence : ℕ)
    (looped : Bool) (outcome : Outcome) :
    w.postprocess pool edge uuid sequence looped outcome = (w, true) ∨
      (pooledOutput edge.modality looped ∧
        w.postprocess pool edge uuid sequence looped outcome =
          (w.submitEncode edge.requestId sequence edge.modality uuid, false)) ∨
      ∃ frames chunk, tensorChunk edge.requestId edge.modality uuid frames = some chunk ∧
        w.postprocess pool edge uuid sequence looped outcome =
          w.queueCompletedOutput edge.requestId sequence chunk := by
  unfold postprocess
  cases outcome with
  | failed => exact Or.inl rfl
  | encoded frames =>
    dsimp only
    by_cases hmeta : uuid ∉ (w.requests edge.requestId).metadata
    · rw [if_pos hmeta]
      exact Or.inl rfl
    · rw [if_neg hmeta]
      by_cases hpool : (pool && pooledOutput edge.modality looped) = true
      · rw [if_pos hpool]
        rw [Bool.and_eq_true] at hpool
        exact Or.inr (Or.inl ⟨hpool.2, rfl⟩)
      · rw [if_neg hpool]
        cases hc : tensorChunk edge.requestId edge.modality uuid frames with
        | none => exact Or.inl rfl
        | some chunk => exact Or.inr (Or.inr ⟨frames, chunk, hc, rfl⟩)

/-- One tensor of a read that finished. -/
theorem readTensor (pool : Bool) (edge : Edge ρ) (outcome : Outcome)
    (h : Sound w ((edge.requestId, uuid) :: flight) w.jobs) :
    (readTensor pool edge w uuid outcome).2 = false ∧
      ∃ puts, Handles w (Worker.readTensor pool edge w uuid outcome).1
        [(edge.requestId, uuid)] flight puts := by
  unfold Worker.readTensor
  cases hslot : w.slotOf edge.requestId uuid with
  | none =>
    dsimp only
    rw [settleTensor_raised (moves_failRequest_aside w edge.requestId 1 [.nothing]).2]
    exact ⟨rfl, _, of_stray h hslot⟩
  | some slot =>
    obtain ⟨sequence, looped⟩ := slot
    obtain ⟨id, st, hout, he⟩ := mem_of_slotOf hslot
    have hk := h.kept _ id st hout
    dsimp only
    rcases postprocess_cases pool edge w uuid sequence looped outcome with
      heq | ⟨hpooled, heq⟩ | ⟨frames, chunk, hc, heq⟩
    · obtain ⟨hraise, hfailed⟩ := of_error h hout he
      rw [heq, settleTensor_raised hraise]
      exact ⟨rfl, hfailed⟩
    · rw [heq, settleTensor_ok _ rfl]
      exact ⟨rfl, _, of_submit h hout he (pooled_ne hpooled)⟩
    · obtain ⟨hok, hhandles⟩ := of_chunk h hout he (fits_tensorChunk (hk.slot _ he) hc)
      rw [heq, settleTensor_ok _ hok]
      exact ⟨rfl, hhandles⟩

/-- The tensors of an edge, as they are in flight. -/
def inFlight (rid : ρ) (uuids : List ℕ) : List (ρ × ℕ) := uuids.map fun uuid => (rid, uuid)

/-- The tensors of a read that finished. -/
theorem readTensors (pool : Bool) (edge : Edge ρ) (uuids : List ℕ) (outcomes : List Outcome)
    (h : Sound w (inFlight edge.requestId uuids ++ flight) w.jobs) :
    (readTensors pool edge w uuids outcomes).2 = false ∧
      ∃ puts, Handles w (Worker.readTensors pool edge w uuids outcomes).1
        (inFlight edge.requestId uuids) flight puts := by
  induction uuids generalizing w outcomes with
  | nil => exact ⟨rfl, [], Handles.refl h⟩
  | cons uuid uuids ih =>
    obtain ⟨hraise, puts, hone⟩ := readTensor pool edge (outcomes.headD .failed) h
    obtain ⟨hraise', puts', hrest⟩ := ih outcomes.tail hone.sound
    unfold Worker.readTensors
    dsimp only
    rw [if_neg (by rw [hraise]; decide)]
    exact ⟨hraise', _, hone.trans hrest⟩

/-- The tensors of a read that failed. -/
theorem failUnread (uuids : List ℕ) (h : Sound w (inFlight rid uuids ++ flight) w.jobs) :
    (failUnread rid w uuids).2 = false ∧
      ∃ puts, Handles w (Worker.failUnread rid w uuids).1 (inFlight rid uuids) flight puts := by
  induction uuids generalizing w with
  | nil => exact ⟨rfl, [], Handles.refl h⟩
  | cons uuid uuids ih =>
    have hone : ((w.popOrder rid uuid).failRequest rid 1
          ((w.slotOf rid uuid).map Prod.fst) [answerFor (w.slotOf rid uuid) uuid]).2 = false ∧
        ∃ puts, Handles w ((w.popOrder rid uuid).failRequest rid 1
          ((w.slotOf rid uuid).map Prod.fst) [answerFor (w.slotOf rid uuid) uuid]).1
          [(rid, uuid)] (inFlight rid uuids ++ flight) puts := by
      cases hslot : w.slotOf rid uuid with
      | none => exact ⟨(moves_failRequest_aside _ _ _ _).2, _, of_stray_unread h hslot⟩
      | some slot =>
        obtain ⟨id, st, hout, he⟩ := mem_of_slotOf hslot
        exact of_unread h hout he
    obtain ⟨hraise, puts, hone⟩ := hone
    obtain ⟨hraise', puts', hrest⟩ := ih hone.sound
    unfold Worker.failUnread
    dsimp only
    rw [if_neg (by rw [hraise]; decide)]
    exact ⟨hraise', _, hone.trans hrest⟩

/-- The tensors of some reads. -/
def flightOf (edges : List (Edge ρ)) : List (ρ × ℕ) :=
  edges.flatMap fun edge => inFlight edge.requestId edge.uuids

/-- A pass over the reads that came back. -/
theorem processReadTensors (pool : Bool) (failed : List (Edge ρ))
    (ready : List (Edge ρ × List Outcome))
    (h : Sound w (flightOf failed ++ (flightOf (ready.map Prod.fst) ++ flight)) w.jobs) :
    (processReadTensors pool w failed ready).2 = false ∧
      ∃ puts, Handles w (Worker.processReadTensors pool w failed ready).1
        (flightOf failed ++ flightOf (ready.map Prod.fst)) flight puts := by
  induction failed generalizing w with
  | nil =>
    induction ready generalizing w with
    | nil =>
      unfold Worker.processReadTensors
      exact ⟨rfl, [], Handles.refl h⟩
    | cons read ready ih =>
      have hsplit : flightOf ((read :: ready).map Prod.fst) ++ flight =
          inFlight read.1.requestId read.1.uuids ++
            (flightOf (ready.map Prod.fst) ++ flight) := by
        simp [flightOf]
      rw [hsplit] at h
      obtain ⟨hraise, puts, hone⟩ := readTensors pool read.1 read.1.uuids read.2 h
      obtain ⟨hraise', puts', hrest⟩ := ih hone.sound
      unfold Worker.processReadTensors
      dsimp only
      rw [if_neg (by rw [hraise]; decide)]
      exact ⟨hraise', _, by simpa [flightOf] using hone.trans hrest⟩
  | cons edge failed ih =>
    have hsplit : flightOf (edge :: failed) ++ (flightOf (ready.map Prod.fst) ++ flight) =
        inFlight edge.requestId edge.uuids ++
          (flightOf failed ++ (flightOf (ready.map Prod.fst) ++ flight)) := by
      simp [flightOf]
    rw [hsplit] at h
    obtain ⟨hraise, puts, hone⟩ := failUnread edge.uuids h
    obtain ⟨hraise', puts', hrest⟩ := ih hone.sound
    unfold Worker.processReadTensors failUnreadOutputs
    dsimp only
    rw [if_neg (by rw [hraise]; decide)]
    refine ⟨hraise', puts ++ puts', ?_⟩
    rw [← List.append_assoc] at hone
    have hboth := hone.trans hrest
    simpa [flightOf] using hboth

/-- The jobs of the other requests once one job has ended. -/
theorem jobsOf_others {out : EncodedOutput ρ} {rest : List (EncodedOutput ρ)} (r : ρ) (i : ℕ)
    (h : ¬(out.job.requestId = r ∧ out.job.state = i)) (enc : List (EncodeJob ρ)) :
    jobsOf (enc ++ rest.map fun out => out.job) r i =
      jobsOf (enc ++ (out :: rest).map fun out => out.job) r i := by
  unfold jobsOf
  rw [List.map_cons, List.filter_append, List.filter_append,
    List.filter_cons_of_neg (by simpa using h)]

/-- Those of its own request. -/
theorem jobsOf_own {out : EncodedOutput ρ} {rest : List (EncodedOutput ρ)}
    (enc : List (EncodeJob ρ)) :
    (jobsOf (enc ++ (out :: rest).map fun out => out.job) out.job.requestId
        out.job.state).Perm
      (out.job :: jobsOf (enc ++ rest.map fun out => out.job) out.job.requestId
        out.job.state) := by
  unfold jobsOf
  rw [List.map_cons, List.filter_append, List.filter_append,
    List.filter_cons_of_pos (by simp)]
  exact List.perm_middle

/-- A job of a request that was torn down meanwhile. -/
theorem of_outdated {out : EncodedOutput ρ} {rest : List (EncodedOutput ρ)}
    (h : Sound w flight w.jobs) (hencoded : w.encoded = out :: rest)
    (hgone : (w.requests out.job.requestId).output.map Prod.fst ≠ some out.job.state) :
    Handles w { w with encoded := rest } [] flight [] := by
  have hjobs : ∀ r i s, (w.requests r).output = some (i, s) →
      jobsOf ({ w with encoded := rest } : Worker ρ).jobs r i = jobsOf w.jobs r i := by
    intro r i s hr
    unfold Worker.jobs
    rw [hencoded]
    refine jobsOf_others r i ?_ _
    rintro ⟨rfl, rfl⟩
    rw [hr] at hgone
    exact hgone rfl
  refine ⟨⟨by simp, fun r => Advance.refl (w.stateOf r), fun _ hd => hd⟩, ?_,
    fun _ _ _ hu => hu, fun _ _ c hc => (by cases hc), fun _ => rfl⟩
  refine ⟨h.distinct, h.minted, ?_, ?_⟩
  · intro r i s hr
    have hk := h.kept r i s hr
    refine ⟨?_, hk.keys, hk.slot, hk.reading, hk.described, ?_⟩
    · unfold due
      rw [hjobs r i s hr]
      exact hk.ordered
    · rw [hjobs r i s hr]
      exact hk.encodes
  · intro j hj
    refine h.pooled j ?_
    unfold Worker.jobs at hj ⊢
    rw [hencoded, List.map_cons]
    rcases List.mem_append.1 hj with hj | hj
    · exact List.mem_append_left _ hj
    · exact List.mem_append_right _ (List.mem_cons_of_mem _ hj)

/-- A job that ended answers its slot. -/
theorem of_encoded {out : EncodedOutput ρ} {rest : List (EncodedOutput ρ)} {w' : Worker ρ}
    {st' : RequestOutputState ρ} {puts : List (ResultChunk ρ)} (h : Sound w flight w.jobs)
    (hencoded : w.encoded = out :: rest)
    (hout : (w.requests out.job.requestId).output = some (out.job.state, st))
    (hm : Moves { w with encoded := rest } w' out.job.requestId (some (out.job.state, st'))
      (w.requests out.job.requestId).metadata puts)
    (horder : st'.order = st.order) (hslots : st'.slots = st.slots)
    (hord : st'.Ordered out.job.requestId
      ((due w.jobs out.job.requestId out.job.state st).erase out.job.sequence))
    (hadv : st.Advance st' puts)
    (hmine : ∀ c ∈ puts, c.requestId = out.job.requestId ∧ c.answers.slot?.isSome) :
    Handles w w' [] flight puts := by
  have hk := h.kept _ _ st hout
  have hjobs : w'.jobs = w.encoding ++ rest.map fun out => out.job := by
    unfold Worker.jobs
    rw [hm.encoding, hm.encoded]
  have hown : (jobsOf w.jobs out.job.requestId out.job.state).Perm
      (out.job :: jobsOf w'.jobs out.job.requestId out.job.state) := by
    rw [hjobs]
    unfold Worker.jobs
    rw [hencoded]
    exact jobsOf_own w.encoding
  have hsame : Sound { w with encoded := rest } flight w.jobs :=
    ⟨h.distinct, h.minted, h.kept, h.pooled⟩
  have hst : ({ w with encoded := rest } : Worker ρ).stateOf out.job.requestId = st :=
    stateOf_of_some hout
  have hdoes := Sound.does_of_moves hst hm (stateOf_of_some hm.output) hadv
    fun c hc => (hmine c hc).1
  have hkept := slots_of_moves hst hm (stateOf_of_some hm.output) hslots
  refine ⟨⟨hdoes.queue, hdoes.advance, hdoes.draining⟩, ?_, ?_,
    fun _ _ c hc _ => (hmine c hc).2, hkept⟩
  · refine Sound.of_moves hsame hm (h.minted _ _ st hout) h.distinct (fun _ _ _ hu => hu) ?_ ?_ ?_
    · intro j hj
      refine h.pooled j ?_
      rw [hjobs] at hj
      unfold Worker.jobs
      rw [hencoded, List.map_cons]
      rcases List.mem_append.1 hj with hj | hj
      · exact List.mem_append_left _ hj
      · exact List.mem_append_right _ (List.mem_cons_of_mem _ hj)
    · intro r i hr
      rw [hjobs]
      unfold Worker.jobs
      rw [hencoded]
      exact jobsOf_others r i (fun hboth => hr hboth.1.symm) _
    · have hdue : ((due w.jobs out.job.requestId out.job.state st).erase out.job.sequence).Perm
          (due w'.jobs out.job.requestId out.job.state st') := by
        have hperm : (due w.jobs out.job.requestId out.job.state st).Perm
            (out.job.sequence :: due w'.jobs out.job.requestId out.job.state st') := by
          unfold due
          rw [horder]
          refine ((hown.map fun j => j.sequence).append_left _).trans ?_
          rw [List.map_cons]
          exact List.perm_middle
        have herase := hperm.erase out.job.sequence
        rwa [List.erase_cons_head] at herase
      constructor
      · exact hord.congr hdue
      · rw [horder]
        exact hk.keys
      · rw [horder, hslots]
        exact hk.slot
      · rw [horder]
        exact hk.reading
      · rw [horder]
        exact hk.described
      · intro j hj
        rw [hslots]
        exact hk.encodes j (hown.mem_iff.2 (List.mem_cons_of_mem _ hj))
  · intro r u _ hr
    by_cases hrid : r = out.job.requestId
    · subst hrid
      rw [reading_of_some hout] at hr
      rw [reading_of_some hm.output, horder]
      exact hr
    · rw [reading_of_others hm hrid]
      exact hr

/-- One job that ended. -/
theorem releaseOne {out : EncodedOutput ρ} {rest : List (EncodedOutput ρ)}
    (h : Sound w flight w.jobs) (hencoded : w.encoded = out :: rest) :
    (({ w with encoded := rest } : Worker ρ).releaseOne out).2 = false ∧
      (({ w with encoded := rest } : Worker ρ).releaseOne out).1.encoded = rest ∧
      ∃ puts, Handles w (({ w with encoded := rest } : Worker ρ).releaseOne out).1 [] flight
        puts := by
  unfold Worker.releaseOne
  dsimp only
  by_cases hgone : (w.requests out.job.requestId).output.map Prod.fst ≠ some out.job.state
  · rw [if_pos hgone]
    exact ⟨rfl, rfl, _, of_outdated h hencoded hgone⟩
  · rw [if_neg hgone]
    obtain ⟨st, hout⟩ : ∃ st, (w.requests out.job.requestId).output =
        some (out.job.state, st) := by
      rw [not_not, Option.map_eq_some_iff] at hgone
      obtain ⟨⟨i, st⟩, ho, hi⟩ := hgone
      dsimp only at hi
      subst hi
      exact ⟨st, ho⟩
    have hk := h.kept _ _ st hout
    have hmem : out.job ∈ jobsOf w.jobs out.job.requestId out.job.state := by
      unfold Worker.jobs
      rw [hencoded]
      exact (jobsOf_own w.encoding).mem_iff.2 List.mem_cons_self
    have hdue : out.job.sequence ∈ due w.jobs out.job.requestId out.job.state st :=
      List.mem_append_right _ (List.mem_map.2 ⟨_, hmem, rfl⟩)
    have hslot := hk.encodes _ hmem
    have hjob : out.job ∈ w.jobs := (List.mem_filter.1 hmem).1
    cases hok : out.ok with
    | true =>
      have hfit : Fits out.job.requestId st.slots out.job.sequence
          (⟨out.job.requestId, out.job.modality, none, none,
            .sequenced (.tensor out.job.uuid)⟩ : ResultChunk ρ) :=
        ⟨rfl, ⟨_, hslot, rfl⟩, fun hv => absurd hv (h.pooled _ hjob).2⟩
      obtain ⟨hraise, hord, hadv, hmine, horder, hslots⟩ := hk.ordered.answer hdue hfit
      have hout' : (({ w with encoded := rest } : Worker ρ).requests
          out.job.requestId).output = some (out.job.state, st) := hout
      obtain ⟨hm, hraise'⟩ := moves_queueCompletedOutput hout' out.job.sequence
        ⟨out.job.requestId, out.job.modality, none, none, .sequenced (.tensor out.job.uuid)⟩
      simp only [if_true]
      exact ⟨hraise'.trans hraise, hm.encoded, _,
        of_encoded h hencoded hout hm horder hslots hord hadv hmine⟩
    | false =>
      obtain ⟨hraise, hord, hadv, hmine, horder, hslots⟩ :=
        hk.ordered.answer hdue (fits_error hslot)
      have hout' : (({ w with encoded := rest } : Worker ρ).requests
          out.job.requestId).output = some (out.job.state, st) := hout
      obtain ⟨hm, hraise'⟩ := moves_failRequest hout' (hk.ordered.unanswered hdue)
        (.sequenced (.tensor out.job.uuid)) hraise
      simp only [Bool.false_eq_true, if_false]
      exact ⟨hraise', hm.encoded, _,
        of_encoded h hencoded hout hm horder hslots hord hadv hmine⟩

/-- Every job that ended. -/
theorem releaseAll (outs : List (EncodedOutput ρ)) (h : Sound w flight w.jobs)
    (hencoded : w.encoded = outs) :
    (releaseAll w outs).2 = false ∧
      ∃ puts, Handles w (Worker.releaseAll w outs).1 [] flight puts := by
  induction outs generalizing w with
  | nil =>
    unfold Worker.releaseAll
    have hsame : ({ w with encoded := [] } : Worker ρ) = w := by
      rw [← hencoded]
    rw [hsame]
    exact ⟨rfl, [], Handles.refl h⟩
  | cons out rest ih =>
    obtain ⟨hraise, hrest, puts, hone⟩ := releaseOne h hencoded
    obtain ⟨hraise', puts', hmore⟩ := ih hone.sound hrest
    unfold Worker.releaseAll
    dsimp only
    rw [if_neg (by rw [hraise]; decide)]
    refine ⟨hraise', puts ++ puts', ?_⟩
    have hone' : Handles w (Worker.releaseOne { w with encoded := rest } out).1 []
        ([] ++ flight) puts := hone
    have hboth := hone'.trans hmore
    simpa using hboth

end Handles

end Mstar.OutputSlots
