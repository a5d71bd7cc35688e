import Mstar.ConductorHandlers

/-!
# Nobody waits below capacity

Between two messages the queue is empty or every slot is taken: whoever frees
a slot admits from the queue, and whoever comes while a slot is free finds the
queue empty. Meanwhile no teardown loses its deadline.
-/

namespace Mstar.Teardown

namespace Conductor

/-- The queue is empty, or every slot is taken. -/
def Settled (cfg : Config) (c : Conductor) : Prop := c.waitingQueue ≠ [] → c.full cfg = true

/-- The queue did not grow, and every teardown has its deadline. -/
structure Orderly (c c' : Conductor) : Prop where
  /-- The queue did not grow. -/
  shrinks : c'.waitingQueue.length ≤ c.waitingQueue.length
  /-- No deadline was lost. -/
  deadlines : c.drainingDeadlines ⊆ c'.drainingDeadlines
  /-- A new teardown has a deadline. -/
  draining : ∀ rid, c'.draining rid ≠ none →
    c.draining rid ≠ none ∨ ∃ t, (t, rid) ∈ c'.drainingDeadlines

variable {cfg : Config} {c c' c'' x : Conductor} {rid : RequestId} {f : Conductor → Conductor}

/-- Orderly steps one after another. -/
theorem Orderly.trans (h : Orderly c c') (h' : Orderly c' c'') : Orderly c c'' where
  shrinks := h'.shrinks.trans h.shrinks
  deadlines := List.Subset.trans h.deadlines h'.deadlines
  draining r hr := by
    rcases h'.draining r hr with hr | hr
    · exact (h.draining r hr).imp_right fun ⟨t, ht⟩ => ⟨t, h'.deadlines ht⟩
    · exact .inr hr

/-- Tables that keep the queue, the teardowns and their deadlines. -/
theorem Orderly.of_eq (hqueue : c'.waitingQueue.length ≤ c.waitingQueue.length)
    (hdeadlines : c'.drainingDeadlines = c.drainingDeadlines)
    (hdraining : ∀ rid, c'.draining rid ≠ none → c.draining rid ≠ none) : Orderly c c' where
  shrinks := hqueue
  deadlines := hdeadlines ▸ List.Subset.refl _
  draining r hr := .inl (hdraining r hr)

/-- Nothing done is orderly. -/
theorem Orderly.refl : Orderly c c := .of_eq (le_refl _) rfl fun _ h => h

/-- A request dropped leaves the queue as it is. -/
@[simp] theorem dropRequest_waitingQueue :
    (c.dropRequest rid).waitingQueue = c.waitingQueue := by
  rw [dropRequest]
  split <;> rfl

/-- And the drains. -/
@[simp] theorem dropRequest_draining : (c.dropRequest rid).draining = c.draining := by
  rw [dropRequest]
  split <;> rfl

/-- And their deadlines. -/
@[simp] theorem dropRequest_drainingDeadlines :
    (c.dropRequest rid).drainingDeadlines = c.drainingDeadlines := by
  rw [dropRequest]
  split <;> rfl

/-- Ending a drain is orderly where what follows is. -/
theorem finalizeDraining_orderly (hf : ∀ c, Orderly c (f c)) (rid : RequestId) :
    Orderly c (c.finalizeDraining f rid) := by
  rw [finalizeDraining]
  split
  next => exact .refl
  next =>
    refine Orderly.trans (.of_eq ?_ ?_ fun r hr => ?_) (hf _)
    · rw [dropRequest_waitingQueue]
      exact le_refl _
    · rw [dropRequest_drainingDeadlines]
      rfl
    · by_cases hrid : r = rid
      · simp [note, hrid] at hr
      · simpa [note, hrid] using hr

/-- So is letting a request drain. -/
theorem registerDraining_orderly (hf : ∀ c, Orderly c (f c))
    (expected participants : List Entity) (failureError : Option String) :
    Orderly c (c.registerDraining cfg f rid expected participants failureError) := by
  have hbegun : ∀ acts, Orderly c (({ c.popEarlyReadsDone rid with
      draining := Function.update c.draining rid
        (some ⟨expected.filter (· ∉ c.earlyAcks rid), participants, failureError, 500⟩)
      drainingDeadlines := c.drainingDeadlines ++ [(c.clock + cfg.drainTtl, rid)] }).note rid
        acts) := by
    refine fun acts => ⟨le_refl _, List.subset_append_left _ _, fun r hr => ?_⟩
    by_cases hrid : r = rid
    · subst hrid
      exact .inr ⟨_, List.mem_append_right _ (List.mem_singleton.2 rfl)⟩
    · exact .inl (by simpa [note, hrid] using hr)
  rw [registerDraining]
  dsimp only
  split
  next => exact (hbegun _).trans (finalizeDraining_orderly hf rid)
  next => exact hbegun _

/-- And removing one. -/
theorem removeRequest_orderly (hf : ∀ c, Orderly c (f c)) (data : RequestData)
    (failureError : Option String) :
    Orderly c (c.removeRequest cfg f rid data failureError) := by
  have hdrains : ∀ acts, Orderly c (c.note rid acts) := fun _ =>
    .of_eq (le_refl _) rfl fun _ h => h
  exact (hdrains _).trans (registerDraining_orderly hf _ _ _)

/-- Ingesting a request is orderly. -/
theorem doIngestRequest_orderly (body : NewRequest) :
    Orderly c (c.doIngestRequest cfg body).1 := by
  rw [doIngestRequest]
  split <;> exact .of_eq (le_refl _) rfl fun _ h => h

/-- An admission leaves the request as it was ingested, refused or removed. -/
theorem admitRequest_cases (cfg : Config) (f : Conductor → Conductor) (c : Conductor)
    (body : NewRequest) :
    c.admitRequest cfg f body = ((c.note body.requestId [.admitted]).doIngestRequest cfg body).1 ∨
    (∃ error status, c.admitRequest cfg f body =
      ((((c.note body.requestId [.admitted]).doIngestRequest cfg body).1.dropRequest
        body.requestId).rejectRequest body.requestId error status)) ∨
    ∃ data failureError, c.admitRequest cfg f body =
      ((c.note body.requestId [.admitted]).doIngestRequest cfg body).1.removeRequest cfg f
        body.requestId data failureError := by
  rw [admitRequest]
  cases (c.note body.requestId [.admitted]).doIngestRequest cfg body with
  | mk y error =>
    cases error with
    | none => exact .inl rfl
    | some error =>
      dsimp only
      split
      next => split <;> exact .inr (.inl ⟨_, _, rfl⟩)
      next =>
        split
        next => split <;> exact .inr (.inl ⟨_, _, rfl⟩)
        next =>
          split
          next => exact .inr (.inr ⟨_, _, rfl⟩)
          next => exact .inl rfl

/-- So is admitting it. -/
theorem admitRequest_orderly (hf : ∀ c, Orderly c (f c)) (body : NewRequest) :
    Orderly c (c.admitRequest cfg f body) := by
  have hnote : Orderly c (c.note body.requestId [.admitted]) :=
    .of_eq (le_refl _) rfl fun _ h => h
  have hingest : Orderly c ((c.note body.requestId [.admitted]).doIngestRequest cfg body).1 :=
    hnote.trans (doIngestRequest_orderly body)
  have hrefuse : ∀ (x : Conductor) error status,
      Orderly x ((x.dropRequest body.requestId).rejectRequest body.requestId error status) := by
    intro x error status
    refine .of_eq ?_ ?_ fun r hr => ?_
    · simp [rejectRequest, note, popEarlyReadsDone]
    · simp [rejectRequest, note, popEarlyReadsDone]
    · simpa [rejectRequest, note, popEarlyReadsDone] using hr
  rcases c.admitRequest_cases cfg f body with h | ⟨error, status, h⟩ | ⟨data, failureError, h⟩
  · exact h ▸ hingest
  · exact h ▸ hingest.trans (hrefuse _ error status)
  · exact h ▸ hingest.trans (removeRequest_orderly hf data failureError)

/-- And each of those that wait. -/
theorem tryAdmitWaitingFor_orderly (calls : ℕ) (c : Conductor) :
    Orderly c (c.tryAdmitWaitingFor cfg calls) := by
  induction calls generalizing c with
  | zero => exact .refl
  | succ calls ih =>
    rw [tryAdmitWaitingFor]
    cases hqueue : c.waitingQueue with
    | nil => exact .refl
    | cons body rest =>
      dsimp only
      split
      next => exact .refl
      next =>
        have hpopped : Orderly c { c with waitingQueue := rest } :=
          .of_eq (by simp [hqueue]) rfl fun _ h => h
        exact (hpopped.trans (admitRequest_orderly ih body)).trans (ih _)

/-- And all of them. -/
theorem tryAdmitWaiting_orderly (c : Conductor) : Orderly c (c.tryAdmitWaiting cfg) :=
  tryAdmitWaitingFor_orderly _ c

/-- A history that grew without a READS_DONE taken in. -/
def Quiet (h h' : History) : Prop := ∃ more, h' = h ++ more ∧ ∀ e, ¬ Did more (.readsDone e)

/-- A teardown still waits for somebody, and for nobody heard since its barrier was put
up. -/
def Unmet (h : History) (dr : DrainingRequest) : Prop :=
  dr.expectedAcks ≠ [] ∧ ∃ before since expected after,
    h = before ++ (since, Act.draining expected) :: after ∧ dr.expectedAcks ⊆ expected ∧
    ∀ e ∈ dr.expectedAcks, ¬ Did after (.readsDone e)

/-- Nothing done is quiet. -/
theorem Quiet.refl (h : History) : Quiet h h := ⟨[], by simp, by simp [Did]⟩

/-- So are two quiet steps. -/
theorem Quiet.trans {h h' h'' : History} (hq : Quiet h h') (hq' : Quiet h' h'') : Quiet h h'' := by
  obtain ⟨more, rfl, hmore⟩ := hq
  obtain ⟨rest, rfl, hrest⟩ := hq'
  refine ⟨more ++ rest, by simp, fun e hdid => ?_⟩
  obtain ⟨t, ht⟩ := hdid
  rcases List.mem_append.1 ht with ht | ht
  · exact hmore e ⟨t, ht⟩
  · exact hrest e ⟨t, ht⟩

/-- A note that ends no read is quiet. -/
theorem Quiet.note {acts : List Act} (hno : ∀ e, Act.readsDone e ∉ acts) (r : RequestId) :
    Quiet (c.history r) ((c.note rid acts).history r) := by
  by_cases hr : r = rid
  · rw [hr, history_note]
    refine ⟨_, rfl, fun e hdid => hno e ?_⟩
    obtain ⟨t, ht⟩ := hdid
    obtain ⟨a, ha, heq⟩ := List.mem_map.1 ht
    exact (Prod.mk.inj heq).2 ▸ ha
  · rw [history_note_of_ne hr]
    exact Quiet.refl _

/-- Whoever was not heard before is not heard in the quiet. -/
theorem Unmet.quiet {h h' : History} {dr : DrainingRequest} (hu : Unmet h dr) (hq : Quiet h h') :
    Unmet h' dr := by
  obtain ⟨hne, before, since, expected, after, rfl, hsub, hunheard⟩ := hu
  obtain ⟨more, rfl, hmore⟩ := hq
  refine ⟨hne, before, since, expected, after ++ more, by simp, hsub, fun e he hdid => ?_⟩
  obtain ⟨t, ht⟩ := hdid
  rcases List.mem_append.1 ht with ht | ht
  · exact hunheard e he ⟨t, ht⟩
  · exact hmore e ⟨t, ht⟩

/-- Every teardown is as it was and nobody was heard for it, or still waits. -/
def Barred (c c' : Conductor) : Prop := ∀ r dr, c'.draining r = some dr →
  c.draining r = some dr ∧ Quiet (c.history r) (c'.history r) ∨ Unmet (c'.history r) dr

/-- Nothing done keeps the drain barred. -/
theorem Barred.refl : Barred c c := fun _ _ h => .inl ⟨h, Quiet.refl _⟩

/-- So do two steps that each do. -/
theorem Barred.trans (h : Barred c c') (h' : Barred c' c'') : Barred c c'' := by
  intro r dr hdr
  rcases h' r dr hdr with ⟨hbefore, hquiet⟩ | hunmet
  · rcases h r dr hbefore with ⟨hfirst, hquiet'⟩ | hunmet
    · exact .inl ⟨hfirst, hquiet'.trans hquiet⟩
    · exact .inr (hunmet.quiet hquiet)
  · exact .inr hunmet

/-- Tables that keep the teardowns and the trace. -/
theorem Barred.of_eq (htrace : x.trace = c.trace)
    (hdraining : ∀ r dr, x.draining r = some dr → c.draining r = some dr) : Barred c x := by
  intro r dr hdr
  refine .inl ⟨hdraining r dr hdr, ?_⟩
  rw [history, history, htrace]
  exact Quiet.refl _

/-- So does a note that ends no read. -/
theorem Barred.note {acts : List Act} (hno : ∀ e, Act.readsDone e ∉ acts) :
    Barred c (c.note rid acts) := fun r _ hdr => .inl ⟨hdr, Quiet.note hno r⟩

/-- So does dropping a request. -/
theorem dropRequest_barred : Barred c (c.dropRequest rid) := by
  rw [dropRequest]
  split
  next => exact .refl
  next data _ =>
    refine Barred.trans (.of_eq (x := { c with requests := c.requests.erase rid }) rfl
      fun _ _ h => h) (.note fun e hmem => ?_)
    cases data.routing <;> simp at hmem

/-- Ending one request's teardown leaves the others as they were. -/
theorem finalizeDraining_barred (hf : ∀ c, Barred c (f c))
    (hothers : ∀ r dr, r ≠ rid → x.draining r = some dr →
      c.draining r = some dr ∧ Quiet (c.history r) (x.history r) ∨ Unmet (x.history r) dr) :
    Barred c (x.finalizeDraining f rid) := by
  rw [finalizeDraining]
  split
  next hnone =>
    intro r dr hdr
    refine hothers r dr ?_ hdr
    rintro rfl
    rw [hnone] at hdr
    cases hdr
  next dr _ =>
    have hno : ∀ e, Act.readsDone e ∉ dr.participants.map Act.remove ++ dr.lastWord := by
      intro e hmem
      cases hfail : dr.failureError <;> simp [DrainingRequest.lastWord, hfail] at hmem
    have hfirst : Barred c { x with draining := Function.update x.draining rid none } := by
      intro r dr' hdr
      by_cases hr : r = rid
      · subst hr
        exact absurd ((Function.update_self r _ _).symm.trans hdr) (by simp)
      · exact hothers r dr' hr ((Function.update_of_ne hr _ _).symm.trans hdr)
    exact ((hfirst.trans (.note hno)).trans dropRequest_barred).trans (hf _)

/-- And letting one drain. -/
theorem registerDraining_barred (hf : ∀ c, Barred c (f c))
    (expected participants : List Entity) (failureError : Option String) :
    Barred c (c.registerDraining cfg f rid expected participants failureError) := by
  have hothers : ∀ r dr, r ≠ rid → (({ c.popEarlyReadsDone rid with
      draining := Function.update c.draining rid
        (some ⟨expected.filter (· ∉ c.earlyAcks rid), participants, failureError, 500⟩)
      drainingDeadlines := c.drainingDeadlines ++ [(c.clock + cfg.drainTtl, rid)] }).note rid
        [.draining expected]).draining r = some dr →
      c.draining r = some dr ∧ Quiet (c.history r) ((({ c.popEarlyReadsDone rid with
        draining := Function.update c.draining rid
          (some ⟨expected.filter (· ∉ c.earlyAcks rid), participants, failureError, 500⟩)
        drainingDeadlines := c.drainingDeadlines ++ [(c.clock + cfg.drainTtl, rid)] }).note rid
          [.draining expected]).history r) := by
    intro r dr hr hdr
    have hkept : c.draining r = some dr := (Function.update_of_ne hr _ _).symm.trans hdr
    refine ⟨hkept, ?_⟩
    rw [history_note_of_ne hr]
    exact Quiet.refl _
  rw [registerDraining]
  dsimp only
  split
  next => exact finalizeDraining_barred hf fun r dr hr hdr => .inl (hothers r dr hr hdr)
  next hleft =>
    intro r dr hdr
    by_cases hr : r = rid
    · subst hr
      have hself : some _ = some dr := (Function.update_self r _ _).symm.trans hdr
      rw [← Option.some.inj hself]
      refine .inr ⟨hleft, c.history r, c.clock, expected, [], ?_,
        fun e he => List.mem_of_mem_filter he, ?_⟩
      · rw [history_note]
        rfl
      · intro e _ hdid
        obtain ⟨t, ht⟩ := hdid
        cases ht
    · exact .inl (hothers r dr hr hdr)

/-- And removing one. -/
theorem removeRequest_barred (hf : ∀ c, Barred c (f c)) (data : RequestData)
    (failureError : Option String) : Barred c (c.removeRequest cfg f rid data failureError) :=
  (Barred.note (by simp)).trans (registerDraining_barred hf _ _ _)

/-- And ingesting one. -/
theorem doIngestRequest_barred (body : NewRequest) : Barred c (c.doIngestRequest cfg body).1 := by
  have hregister : ∀ data, Barred c (c.registerRequest body.requestId data) := fun data =>
    Barred.trans (.of_eq (x := { c with requests := c.requests.insert body.requestId data }) rfl
      fun _ _ h => h) (.note (by simp))
  rw [doIngestRequest]
  split
  next => exact .refl
  next => exact hregister _
  next => exact (hregister _).trans (.note (by simp))

/-- And rejecting one. -/
theorem rejectRequest_barred (error : String) (status : ℕ) :
    Barred c (c.rejectRequest rid error status) :=
  Barred.trans (.of_eq (x := c.popEarlyReadsDone rid) rfl fun _ _ h => h) (.note (by simp))

/-- And admitting one. -/
theorem admitRequest_barred (hf : ∀ c, Barred c (f c)) (body : NewRequest) :
    Barred c (c.admitRequest cfg f body) := by
  have hnote : Barred c (c.note body.requestId [.admitted]) := .note (by simp)
  have hingest : Barred c ((c.note body.requestId [.admitted]).doIngestRequest cfg body).1 :=
    hnote.trans (doIngestRequest_barred body)
  have hrefuse : ∀ (x : Conductor) error status,
      Barred x ((x.dropRequest body.requestId).rejectRequest body.requestId error status) :=
    fun _ _ _ => dropRequest_barred.trans (rejectRequest_barred _ _)
  rcases c.admitRequest_cases cfg f body with h | ⟨error, status, h⟩ | ⟨data, failureError, h⟩
  · exact h ▸ hingest
  · exact h ▸ hingest.trans (hrefuse _ error status)
  · exact h ▸ hingest.trans (removeRequest_barred hf data failureError)

/-- And each of those that wait. -/
theorem tryAdmitWaitingFor_barred (calls : ℕ) (c : Conductor) :
    Barred c (c.tryAdmitWaitingFor cfg calls) := by
  induction calls generalizing c with
  | zero => exact .refl
  | succ calls ih =>
    rw [tryAdmitWaitingFor]
    cases c.waitingQueue with
    | nil => exact .refl
    | cons body rest =>
      dsimp only
      split
      next => exact .refl
      next =>
        have hpopped : Barred c { c with waitingQueue := rest } := .of_eq rfl fun _ _ h => h
        exact (hpopped.trans (admitRequest_barred ih body)).trans (ih _)

/-- And all of them. -/
theorem tryAdmitWaiting_barred (c : Conductor) : Barred c (c.tryAdmitWaiting cfg) :=
  tryAdmitWaitingFor_barred _ c

/-- Ending teardowns one after the other leaves the others as they were. -/
theorem finalizeAll_barred (rids : List RequestId) (c : Conductor) :
    Barred c (rids.foldl (fun c rid => c.finalizeDraining (tryAdmitWaiting cfg) rid) c) := by
  induction rids generalizing c with
  | nil => exact .refl
  | cons rid rids ih =>
    exact (finalizeDraining_barred tryAdmitWaiting_barred
      fun _ _ _ hdr => .inl ⟨hdr, Quiet.refl _⟩).trans (ih _)

/-- Every teardown still waits for somebody not heard since. -/
def Waits (c : Conductor) : Prop := ∀ r dr, c.draining r = some dr → Unmet (c.history r) dr

/-- What still drains waits for someone. -/
theorem Barred.waits (h : Barred c c') (hw : Waits c) : Waits c' := by
  intro r dr hdr
  rcases h r dr hdr with ⟨hbefore, hquiet⟩ | hunmet
  · exact (hw r dr hbefore).quiet hquiet
  · exact hunmet

/-- A READS_DONE is struck off, and whoever was waited for last ends the teardown. -/
theorem handleReadsDone_waits (hw : Waits c) (entity : Entity) :
    Waits (c.handleReadsDone cfg rid entity) := by
  have hothers : ∀ r dr, r ≠ rid → c.draining r = some dr →
      Unmet ((c.note rid [.readsDone entity]).history r) dr := by
    intro r dr hr hdr
    rw [history_note_of_ne hr]
    exact hw r dr hdr
  rw [handleReadsDone]
  cases hdraining : c.draining rid with
  | none =>
    have hnone : (c.note rid [.readsDone entity]).draining rid = none := hdraining
    dsimp only
    rw [hnone]
    intro r dr hdr
    refine hothers r dr ?_ hdr
    rintro rfl
    exact absurd (hdraining.symm.trans hdr) (by simp)
  | some dr =>
    have hsome : (c.note rid [.readsDone entity]).draining rid = some dr := hdraining
    have hother : ∀ (left : DrainingRequest) r dr', r ≠ rid →
        Function.update c.draining rid (some left) r = some dr' →
        Unmet ((c.note rid [.readsDone entity]).history r) dr' := by
      intro left r dr' hr hdr
      rw [Function.update_of_ne hr] at hdr
      exact hothers r dr' hr hdr
    dsimp only
    rw [hsome]
    dsimp only
    split
    next =>
      have hbarred := finalizeDraining_barred (c := { c.note rid [.readsDone entity] with
        draining := fun _ => none }) (x := { c.note rid [.readsDone entity] with
          draining := Function.update c.draining rid
            (some { dr with expectedAcks := dr.expectedAcks.filter (· ≠ entity) }) })
        (@tryAdmitWaiting_barred cfg) fun r dr' hr hdr => .inr (hother _ r dr' hr hdr)
      exact hbarred.waits fun r dr' hdr => by cases hdr
    next hleft =>
      intro r dr' hdr
      by_cases hr : r = rid
      · subst hr
        have hself : some _ = some dr' := (Function.update_self r _ _).symm.trans hdr
        rw [← Option.some.inj hself]
        obtain ⟨-, before, since, expected, after, hsplit, hsub, hunheard⟩ := hw r dr hdraining
        refine ⟨hleft, before, since, expected, after ++ stamp c.clock [.readsDone entity], ?_,
          fun e he => hsub (List.mem_of_mem_filter he), ?_⟩
        · change (c.note r [.readsDone entity]).history r = _
          rw [history_note, hsplit]
          simp
        · intro e he hdid
          have hne : e ≠ entity := by simpa using (List.mem_filter.1 he).2
          rcases (did_append_stamp _ _ _ _).1 hdid with hdid | hmem
          · exact hunheard e (List.mem_of_mem_filter he) hdid
          · exact hne (Act.readsDone.inj (List.mem_singleton.1 hmem))
      · exact hother _ r dr' hr hdr

/-- As many calls as requests wait are enough. -/
theorem tryAdmitWaitingFor_settled (calls : ℕ) (c : Conductor)
    (hcalls : c.waitingQueue.length ≤ calls) : Settled cfg (c.tryAdmitWaitingFor cfg calls) := by
  induction calls generalizing c with
  | zero =>
    intro hqueue
    exact absurd (List.length_eq_zero_iff.1 (Nat.le_zero.1 hcalls)) hqueue
  | succ calls ih =>
    rw [tryAdmitWaitingFor]
    cases hqueue : c.waitingQueue with
    | nil => exact fun hne => absurd hqueue hne
    | cons body rest =>
      dsimp only
      split
      next hfull => exact fun _ => hfull
      next =>
        have horderly : ∀ x : Conductor,
            Orderly x (x.admitRequest cfg (tryAdmitWaitingFor cfg calls) body) :=
          fun x => admitRequest_orderly (tryAdmitWaitingFor_orderly calls) body
        rw [hqueue, List.length_cons] at hcalls
        exact ih _ ((horderly _).shrinks.trans (Nat.le_of_succ_le_succ hcalls))

/-- Once all are tried, none that fits is left waiting. -/
theorem tryAdmitWaiting_settled (c : Conductor) : Settled cfg (c.tryAdmitWaiting cfg) :=
  tryAdmitWaitingFor_settled _ c (le_refl _)

/-- Who neither queues nor frees a slot leaves the queue settled. -/
theorem Settled.of_eq (hs : Settled cfg c) (hqueue : c.waitingQueue = [] → x.waitingQueue = [])
    (hinFlight : x.inFlight = c.inFlight) : Settled cfg x := by
  intro hne
  have hfull := hs fun hempty => hne (hqueue hempty)
  have hsame : x.full cfg = c.full cfg := by rw [full, full, hinFlight]
  exact hsame.trans hfull

/-- So it is after a drain ends. -/
theorem finalizeDraining_settled (hs : Settled cfg c) (rid : RequestId) :
    Settled cfg (c.finalizeDraining (tryAdmitWaiting cfg) rid) := by
  rw [finalizeDraining]
  split
  next => exact hs
  next => exact tryAdmitWaiting_settled _

/-- And after one begins. -/
theorem registerDraining_settled (hs : Settled cfg c) (expected participants : List Entity)
    (failureError : Option String) : Settled cfg (c.registerDraining cfg (tryAdmitWaiting cfg) rid
      expected participants failureError) := by
  have hregistered : ∀ acts, Settled cfg (({ c.popEarlyReadsDone rid with
      draining := Function.update c.draining rid
        (some ⟨expected.filter (· ∉ c.earlyAcks rid), participants, failureError, 500⟩)
      drainingDeadlines := c.drainingDeadlines ++ [(c.clock + cfg.drainTtl, rid)] }).note rid
        acts) := fun acts => hs.of_eq id rfl
  rw [registerDraining]
  dsimp only
  split
  next => exact finalizeDraining_settled (hregistered _) rid
  next => exact hregistered _

/-- And after a removal. -/
theorem removeRequest_settled (hs : Settled cfg c) (data : RequestData)
    (failureError : Option String) :
    Settled cfg (c.removeRequest cfg (tryAdmitWaiting cfg) rid data failureError) :=
  have hdrains : ∀ acts, Settled cfg (c.note rid acts) := fun _ => hs.of_eq id rfl
  registerDraining_settled (hdrains _) _ _ _

/-- An admission with nobody waiting leaves nobody waiting, or frees its slot
again. -/
theorem admitRequest_settled (hempty : c.waitingQueue = []) (body : NewRequest) :
    Settled cfg (c.admitRequest cfg (tryAdmitWaiting cfg) body) := by
  have hnobody : ∀ {y : Conductor}, y.waitingQueue = [] → Settled cfg y := fun hy hne =>
    absurd hy hne
  have hingest : ((c.note body.requestId [.admitted]).doIngestRequest cfg body).1.waitingQueue =
      [] := by
    rw [doIngestRequest]
    split <;> exact hempty
  rcases c.admitRequest_cases cfg (tryAdmitWaiting cfg) body with
    h | ⟨error, status, h⟩ | ⟨data, failureError, h⟩
  · exact h ▸ hnobody hingest
  · exact h ▸ hnobody (by simpa [rejectRequest, note, popEarlyReadsDone] using hingest)
  · exact h ▸ removeRequest_settled (hnobody hingest) data failureError

/-- Every teardown has a deadline. -/
def Deadlined (c : Conductor) : Prop :=
  ∀ rid, c.draining rid ≠ none → ∃ t, (t, rid) ∈ c.drainingDeadlines

/-- An orderly step keeps every drain's deadline. -/
theorem Orderly.deadlined (h : Orderly c c') (hd : Deadlined c) : Deadlined c' := by
  intro r hr
  rcases h.draining r hr with hr | hr
  · exact (hd r hr).imp fun t ht => h.deadlines ht
  · exact hr

/-- A request whose teardown began is over once it does not drain. -/
theorem over_of_began (ht : Tables cfg c) {since : ℕ} {expected : List Entity}
    (hbegan : (since, Act.draining expected) ∈ c.history rid) (hdone : c.draining rid = none) :
    releases (c.history rid) ≠ [] := by
  refine ((ht.lives rid).began hbegan).resolve_left fun h => ?_
  obtain ⟨d, dr, hst⟩ := h
  rw [stage, hdone] at hst
  cases hheld : c.requests.lookup rid with
  | none =>
    rw [hheld] at hst
    cases hwaiting : c.isWaiting rid <;> simp [hwaiting] at hst
  | some data => simp [hheld] at hst

section Over

variable {new : Set RequestId}

/-- What was released stays released. -/
theorem released_of_moves (hreleased : releases (c.history rid) ≠ [])
    (hmoves : Moves cfg new c c') : releases (c'.history rid) ≠ [] := by
  have hgrows : releases (c.history rid) <+: releases (c'.history rid) :=
    ((Moves.grows hmoves).1 rid).filterMap _
  exact fun hnil => hreleased (List.prefix_nil.1 (hnil ▸ hgrows))

/-- A request whose routing was released is neither held nor waiting. -/
theorem gone_of_released (ht : Tables cfg c) (hreleased : releases (c.history rid) ≠ []) :
    c.requests.lookup rid = none ∧ c.isWaiting rid = false :=
  unheld_of_absent ((ht.lives rid).released hreleased)

/-- The request's teardown began, or is over. -/
def Ended (h : History) : Prop := Began h ∨ releases h ≠ []

/-- What ended stays so. -/
theorem Ended.moves (h : Ended (c.history rid)) (hmoves : Moves cfg new c c') :
    Ended (c'.history rid) :=
  h.imp (fun hbegan => began_of_moves hbegan hmoves)
    fun hreleased => released_of_moves hreleased hmoves

/-- A request that ended waits no more, and drains or is gone. -/
theorem Ended.gone (ht : Tables cfg c) (h : Ended (c.history rid)) :
    c.isWaiting rid = false ∧ (c.draining rid ≠ none ∨ c.requests.lookup rid = none) := by
  cases hdraining : c.draining rid with
  | none =>
    have hreleased : releases (c.history rid) ≠ [] := by
      rcases h with ⟨since, expected, hbegan⟩ | hreleased
      · exact over_of_began ht hbegan hdraining
      · exact hreleased
    have hgone := gone_of_released ht hreleased
    exact ⟨hgone.2, .inr hgone.1⟩
  | some dr =>
    refine ⟨isWaiting_eq_false_iff.2 fun body hmem heq => ?_, .inl (by simp)⟩
    have hunheld := heq ▸ ht.queues.waiting_unheld body hmem
    exact absurd ((ht.queues.draining_held rid hunheld).symm.trans hdraining) (by simp)

/-- What was placed stays placed. -/
theorem dispatched_of_moves (hplaced : dispatches (c.history rid) ≠ [])
    (hmoves : Moves cfg new c c') : dispatches (c'.history rid) ≠ [] := by
  have hgrows : dispatches (c.history rid) <+: dispatches (c'.history rid) :=
    ((Moves.grows hmoves).1 rid).filterMap _
  exact fun hnil => hplaced (List.prefix_nil.1 (hnil ▸ hgrows))

/-- A placed request that drains or is not held ended. -/
theorem ended_of_placed (ht : Tables cfg c) (hplaced : dispatches (c.history rid) ≠ [])
    (hgone : c.draining rid ≠ none ∨ c.requests.lookup rid = none) : Ended (c.history rid) := by
  have hsound := (ht.lives rid).sound
  cases hheld : c.requests.lookup rid with
  | none =>
    cases hwaiting : c.isWaiting rid with
    | true =>
      rw [stage_waiting hheld hwaiting] at hsound
      exact absurd hsound.2.dispatches hplaced
    | false =>
      rw [stage_absent hheld hwaiting] at hsound
      rcases hsound with ⟨-, hfresh⟩ | hover
      · exact absurd hfresh.dispatches hplaced
      · rcases hover.cleaned with ⟨hnone, -⟩ | ⟨workers, handle, -, hreleases, -⟩
        · exact absurd hnone hplaced
        · exact .inr (by simp [hreleases])
  | some data =>
    obtain ⟨dr, hdraining⟩ : ∃ dr, c.draining rid = some dr :=
      Option.ne_none_iff_exists'.1 (hgone.resolve_right (by simp [hheld]))
    rw [stage_draining hheld hdraining] at hsound
    obtain ⟨-, -, -, -, since, expected, hbegan, -⟩ := hsound
    exact .inl ⟨since, expected, hbegan⟩

/-- A teardown that is due is over once it is pushed through. -/
theorem finalizeDraining_over (ht : Tables cfg c)
    (hdue : ∃ since expected, (since, Act.draining expected) ∈ c.history rid ∧
      since + cfg.drainTtl ≤ c.clock) :
    releases ((c.finalizeDraining (tryAdmitWaiting cfg) rid).history rid) ≠ [] := by
  cases hdraining : c.draining rid with
  | none =>
    obtain ⟨since, expected, hbegan, -⟩ := hdue
    rw [finalizeDraining, hdraining]
    exact over_of_began ht hbegan hdraining
  | some dr =>
    obtain ⟨y, hmove, heq, hreleased⟩ : ∃ y, Move cfg ∅ c y ∧
        c.finalizeDraining (tryAdmitWaiting cfg) rid = tryAdmitWaiting cfg y ∧
        releases (y.history rid) ≠ [] := finalizeDraining_some ht hdraining (.inr hdue)
    have hmoves : Moves cfg ∅ y _ := tryAdmitWaiting_tame y (hmove.tables ht)
    rw [heq]
    exact released_of_moves hreleased hmoves

/-- Every teardown that is pushed through is over. -/
theorem finalizeAll_over (ht : Tables cfg c) (rids : List RequestId)
    (hdue : ∀ rid ∈ rids, ∃ since expected, (since, Act.draining expected) ∈ c.history rid ∧
      since + cfg.drainTtl ≤ c.clock) (hrid : rid ∈ rids) :
    releases ((rids.foldl (fun c rid => c.finalizeDraining (tryAdmitWaiting cfg) rid) c).history
      rid) ≠ [] := by
  induction rids generalizing c with
  | nil => simp at hrid
  | cons first rids ih =>
    have hfirst : Moves cfg ∅ c (c.finalizeDraining (tryAdmitWaiting cfg) first) :=
      finalizeDraining_moves tryAdmitWaiting_tame ht
        fun dr _ => .inr (hdue first List.mem_cons_self)
    have hgrows := Moves.grows hfirst
    have hlater : ∀ r ∈ rids, ∃ since expected, (since, Act.draining expected) ∈
        (c.finalizeDraining (tryAdmitWaiting cfg) first).history r ∧
          since + cfg.drainTtl ≤ (c.finalizeDraining (tryAdmitWaiting cfg) first).clock := by
      intro r hr
      obtain ⟨since, expected, hbegan, hlate⟩ := hdue r (List.mem_cons_of_mem _ hr)
      exact ⟨since, expected, (hgrows.1 r).subset hbegan, hlate.trans hgrows.2⟩
    have htables := Moves.tables hfirst ht
    rcases List.mem_cons.1 hrid with rfl | hrid
    · have hrest : Moves cfg ∅ _ _ := finalizeAll_moves htables rids hlater
      exact released_of_moves (finalizeDraining_over ht (hdue rid List.mem_cons_self)) hrest
    · exact ih htables hlater hrid

/-- A sweep ends every expired teardown. -/
theorem sweepDraining_over (ht : Tables cfg c)
    (hrid : rid ∈ (popExpired c.drainingDeadlines c.clock).1) :
    releases ((c.sweepDraining cfg c.clock).history rid) ≠ [] := by
  have hpop : Move cfg ∅ c { c with
      drainingDeadlines := (popExpired c.drainingDeadlines c.clock).2 } :=
    Move.recalls c 0 _ _ _ _ _ ht.memory.early_heard ht.memory.tombs_heard
      (List.dropWhile_sublist _).subset
  exact finalizeAll_over (hpop.tables ht) _ (expired_due ht) hrid

/-- Ending several drains is orderly. -/
theorem finalizeAll_orderly (rids : List RequestId) (c : Conductor) :
    Orderly c (rids.foldl (fun c rid => c.finalizeDraining (tryAdmitWaiting cfg) rid) c) := by
  induction rids generalizing c with
  | nil => exact .refl
  | cons rid rids ih =>
    exact (finalizeDraining_orderly tryAdmitWaiting_orderly rid).trans (ih _)

/-- A sweep leaves a deadline to every teardown it leaves. -/
theorem sweepDraining_deadlined (ht : Tables cfg c) (hd : Deadlined c) :
    Deadlined (c.sweepDraining cfg c.clock) := by
  have horderly : Orderly _ (c.sweepDraining cfg c.clock) := finalizeAll_orderly _ _
  have hmoves : Moves cfg ∅ c (c.sweepDraining cfg c.clock) := sweepDraining_moves ht
  have htables := Moves.tables hmoves ht
  intro r hr
  rcases horderly.draining r hr with hdraining | hdeadline
  · obtain ⟨t, hmem⟩ := hd r hdraining
    have hsplit : (t, r) ∈ c.drainingDeadlines.takeWhile (·.1 ≤ c.clock) ∨
        (t, r) ∈ c.drainingDeadlines.dropWhile (·.1 ≤ c.clock) := by
      rw [← List.mem_append, List.takeWhile_append_dropWhile]
      exact hmem
    rcases hsplit with hexpired | hkept
    · have hover := sweepDraining_over ht (List.mem_map_of_mem hexpired)
      have hgone := gone_of_released htables hover
      exact absurd (htables.queues.draining_held r hgone.1) hr
    · exact ⟨t, horderly.deadlines hkept⟩
  · exact hdeadline

end Over

/-- Erasing tombs changes nothing else. -/
theorem foldl_erase_frame (rids : List RequestId) (c : Conductor) :
    ∃ tombs, rids.foldl
      (fun c rid => { c with earlyAbortRequests := c.earlyAbortRequests.erase rid }) c =
        { c with earlyAbortRequests := tombs } := by
  induction rids generalizing c with
  | nil => exact ⟨c.earlyAbortRequests, rfl⟩
  | cons rid rids ih =>
    obtain ⟨tombs, h⟩ := ih { c with earlyAbortRequests := c.earlyAbortRequests.erase rid }
    exact ⟨tombs, h⟩

/-- Nor does popping early reads. -/
theorem foldl_popEarly_frame (rids : List RequestId) (c : Conductor) :
    ∃ early, rids.foldl popEarlyReadsDone c = { c with earlyReadsDone := early } := by
  induction rids generalizing c with
  | nil => exact ⟨c.earlyReadsDone, rfl⟩
  | cons rid rids ih =>
    obtain ⟨early, h⟩ := ih (c.popEarlyReadsDone rid)
    exact ⟨early, h⟩

/-- Forgetting early messages changes nothing else. -/
theorem sweepExpiry_frame (cfg : Config) (c : Conductor) : ∃ tombs early reads aborts, c.sweepExpiry cfg =
    { c.sweepDraining cfg c.clock with
      earlyAbortRequests := tombs, earlyReadsDone := early
      earlyReadsDoneDeadlines := reads, earlyAbortDeadlines := aborts } := by
  obtain ⟨tombs, haborts⟩ := foldl_erase_frame
    (popExpired (c.sweepDraining cfg c.clock).earlyAbortDeadlines c.clock).1
    { c.sweepDraining cfg c.clock with earlyAbortDeadlines :=
        (popExpired (c.sweepDraining cfg c.clock).earlyAbortDeadlines c.clock).2 }
  rw [sweepExpiry, sweepEarlyAborts, haborts, sweepEarlyReadsDone]
  obtain ⟨early, hreads⟩ := foldl_popEarly_frame
    (popExpired (c.sweepDraining cfg c.clock).earlyReadsDoneDeadlines c.clock).1
    { c.sweepDraining cfg c.clock with
      earlyAbortRequests := tombs
      earlyAbortDeadlines :=
        (popExpired (c.sweepDraining cfg c.clock).earlyAbortDeadlines c.clock).2
      earlyReadsDoneDeadlines :=
        (popExpired (c.sweepDraining cfg c.clock).earlyReadsDoneDeadlines c.clock).2 }
  exact ⟨tombs, early, _, _, hreads⟩

end Conductor

end Mstar.Teardown
