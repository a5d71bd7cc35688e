import Mathlib.Data.List.TakeWhile
import Mstar.ConductorSlots

/-!
# The handlers are moves

Each handler of the conductor does nothing but moves whose guards hold: the
tables tell it so, or a message it has just taken in does. Handlers that free
a slot go on to admit from the queue, and that too is moves.
-/

namespace Mstar.Teardown

namespace Conductor

variable {cfg : Config} {new : Set RequestId} {c x : Conductor} {rid : RequestId} {f : Conductor → Conductor}

/-- A way of admitting from the queue that does nothing but moves. -/
def Tame (cfg : Config) (new : Set RequestId) (f : Conductor → Conductor) : Prop :=
  ∀ c, Tables cfg c → Moves cfg new c (f c)

/-- The early READS_DONE of a request may be forgotten at any time. -/
theorem popEarlyReadsDone_moves (rid : RequestId) (ht : Tables cfg c) :
    Move cfg new c (c.popEarlyReadsDone rid) := by
  refine Move.recalls c 0 _ _ _ _ _ (fun r e he => ?_) ht.memory.tombs_heard (List.Subset.refl _)
  by_cases hr : r = rid
  · simp [hr] at he
  · rw [Function.update_of_ne hr] at he
    exact ht.memory.early_heard r e he

/-- Dropping a request that is not held does nothing. -/
theorem dropRequest_of_unheld (hheld : c.requests.lookup rid = none) : c.dropRequest rid = c := by
  rw [dropRequest, hheld]

/-- A drained request that is due is cleaned up by one move before the queue is
looked at. -/
theorem finalizeDraining_some {dr : DrainingRequest} (ht : Tables cfg c)
    (hdraining : c.draining rid = some dr)
    (hdue : dr.expectedAcks = [] ∨ ∃ since expected,
      (since, .draining expected) ∈ c.history rid ∧ since + cfg.drainTtl ≤ c.clock) :
    ∃ y, Move cfg new c y ∧ c.finalizeDraining f rid = f y ∧ releases (y.history rid) ≠ [] := by
  cases hheld : c.requests.lookup rid with
  | none => exact absurd ((ht.queues.draining_held rid hheld).symm.trans hdraining) (by simp)
  | some data =>
    have hsound := (ht.lives rid).sound
    rw [stage_draining hheld hdraining] at hsound
    obtain ⟨handle, hrouting, -⟩ := hsound.1.placed
    refine ⟨_, Move.finalizes c rid data dr handle hheld hdraining hrouting hdue, ?_, ?_⟩
    · have hlookup : (({ c with draining := Function.update c.draining rid none }).note rid
          (dr.participants.map Act.remove ++ dr.lastWord)).requests.lookup rid = some data := hheld
      rw [finalizeDraining, hdraining]
      dsimp only
      rw [dropRequest, hlookup]
      simp [note, hrouting, lastActs]
    · rw [history_note, releases_append_stamp, lastActs_release]
      simp

/-- A drained request that is due is finished by moves. -/
theorem finalizeDraining_moves (hf : Tame cfg new f) (ht : Tables cfg c)
    (hdue : ∀ dr, c.draining rid = some dr → dr.expectedAcks = [] ∨ ∃ since expected,
      (since, .draining expected) ∈ c.history rid ∧ since + cfg.drainTtl ≤ c.clock) :
    Moves cfg new c (c.finalizeDraining f rid) := by
  cases hdraining : c.draining rid with
  | none => rw [finalizeDraining, hdraining]
  | some dr =>
    obtain ⟨y, hmove, heq, -⟩ := finalizeDraining_some ht hdraining (hdue dr hdraining)
    rw [heq]
    exact (Relation.ReflTransGen.single hmove).trans (hf y (hmove.tables ht))

/-- A teardown whose barrier is up. -/
def begun (cfg : Config) (c : Conductor) (rid : RequestId) (expected participants : List Entity)
    (failureError : Option String) : Conductor :=
  ({ c with
    draining := Function.update c.draining rid
      (some ⟨expected.filter (· ∉ c.earlyAcks rid), participants, failureError, 500⟩)
    drainingDeadlines := c.drainingDeadlines ++ [(c.clock + cfg.drainTtl, rid)] }).note rid
      [.draining expected]

/-- Once a barrier is up, the rest of its handler is moves. -/
theorem begun_moves {expected participants : List Entity} {failureError : Option String}
    (hf : Tame cfg new f) (ht : Tables cfg (x.begun cfg rid expected participants failureError)) :
    Moves cfg new (x.begun cfg rid expected participants failureError)
      (x.registerDraining cfg f rid expected participants failureError) := by
  have hpop : Move cfg new _ _ := popEarlyReadsDone_moves rid ht
  have htables := hpop.tables ht
  have hmoves := Relation.ReflTransGen.single hpop
  rw [registerDraining]
  dsimp only
  split
  next hempty =>
    refine hmoves.trans (finalizeDraining_moves hf htables fun dr hdr => .inl ?_)
    have hself : some (DrainingRequest.mk (expected.filter (· ∉ x.earlyAcks rid)) participants
        failureError 500) = some dr := by
      simpa [begun, note, popEarlyReadsDone] using hdr
    rw [← Option.some.inj hself]
    exact hempty
  next => exact hmoves

/-- Putting up a barrier by a move is moves. -/
theorem registerDraining_moves {expected participants : List Entity}
    {failureError : Option String} (hf : Tame cfg new f) (ht : Tables cfg c)
    (hbegun : Move cfg new c (x.begun cfg rid expected participants failureError)) :
    Moves cfg new c (x.registerDraining cfg f rid expected participants failureError) :=
  (Relation.ReflTransGen.single hbegun).trans (begun_moves hf (hbegun.tables ht))

/-- The request's teardown began. -/
def Began (h : History) : Prop := ∃ since expected, (since, Act.draining expected) ∈ h

/-- A teardown that began stays so. -/
theorem began_of_moves {c' : Conductor} (hbegan : Began (c.history rid))
    (hmoves : Moves cfg new c c') : Began (c'.history rid) := by
  obtain ⟨since, expected, hmem⟩ := hbegan
  exact ⟨since, expected, ((Moves.grows hmoves).1 rid).subset hmem⟩

/-- After a barrier is put up by a move, the teardown began. -/
theorem registerDraining_began {expected participants : List Entity}
    {failureError : Option String} (hf : Tame cfg new f) (ht : Tables cfg c)
    (hbegun : Move cfg new c (x.begun cfg rid expected participants failureError)) :
    Began ((x.registerDraining cfg f rid expected participants failureError).history rid) := by
  refine began_of_moves ⟨x.clock, expected, ?_⟩ (begun_moves hf (hbegun.tables ht))
  rw [begun, history_note]
  exact List.mem_append_right _ (by simp [stamp])

/-- What was expected and is not any more came early. -/
theorem early_acks (ht : Tables cfg c) (expected : List Entity) :
    ∀ e ∈ expected, e ∈ expected.filter (· ∉ c.earlyAcks rid) ∨
      Did (c.history rid) (.readsDone e) := by
  intro e he
  by_cases hearly : e ∈ c.earlyAcks rid
  · exact .inr (ht.memory.early_heard rid e hearly)
  · exact .inl (by simp [he, hearly])

/-- The barrier of an aborted or failed request is put up by a move. -/
theorem removeRequest_begun {data : RequestData} {failureError : Option String}
    (ht : Tables cfg c) (hheld : c.requests.lookup rid = some data)
    (hrunning : c.draining rid = none)
    (hquiet : failureError = none → Did (c.history rid) .aborted) :
    Move cfg new c ((c.note rid ((participants data.workers).map Act.drain)).begun cfg rid
      (participants data.workers) (participants data.workers) failureError) := by
  convert Move.begins c rid data (participants data.workers) (participants data.workers) _
    failureError hheld hrunning hquiet rfl (early_acks ht _) using 1
  simp only [begun, note, List.map_append, List.append_assoc]
  rfl

/-- A teardown begins with moves. -/
theorem removeRequest_moves {data : RequestData} {failureError : Option String}
    (hf : Tame cfg new f) (ht : Tables cfg c) (hheld : c.requests.lookup rid = some data)
    (hrunning : c.draining rid = none)
    (hquiet : failureError = none → Did (c.history rid) .aborted) :
    Moves cfg new c (c.removeRequest cfg f rid data failureError) :=
  registerDraining_moves hf ht (removeRequest_begun ht hheld hrunning hquiet)

/-- It begins. -/
theorem removeRequest_began {data : RequestData} {failureError : Option String}
    (ht : Tables cfg c) (hf : Tame cfg ∅ f) (hheld : c.requests.lookup rid = some data)
    (hrunning : c.draining rid = none)
    (hquiet : failureError = none → Did (c.history rid) .aborted) :
    Began ((c.removeRequest cfg f rid data failureError).history rid) :=
  registerDraining_began hf ht (removeRequest_begun ht hheld hrunning hquiet)

/-- A request that comes back out of the table leaves it as it was. -/
theorem erase_insert_of_new {data : RequestData} (hnew : c.requests.lookup rid = none) :
    (c.requests.insert rid data).erase rid = c.requests := by
  apply AList.ext
  change List.kerase rid (c.requests.insert rid data).entries = c.requests.entries
  rw [AList.entries_insert_of_notMem (AList.lookup_eq_none.1 hnew)]
  exact List.kerase_cons_eq rfl

/-- A registered request is held. -/
theorem registerRequest_lookup (data : RequestData) :
    (c.registerRequest rid data).requests.lookup rid = some data :=
  AList.lookup_insert c.requests

/-- A request registered and not placed is dropped without a trace in the table. -/
theorem registerRequest_drop {workers : List ℕ} {sent : Bool}
    (hnew : c.requests.lookup rid = none) :
    (c.registerRequest rid ⟨workers, none, false, sent⟩).dropRequest rid =
      c.note rid [.held, .dropped] := by
  rw [dropRequest, registerRequest_lookup]
  simp [registerRequest, note, erase_insert_of_new hnew]

/-- A request refused at its dispatch is rejected by moves. -/
theorem refuse_moves {body : NewRequest} {rest : List NewRequest} {acts : List Act}
    {error : String} {status : ℕ} (ht : Tables cfg c)
    (hmove : Move cfg new c (({ c with waitingQueue := rest }).note body.requestId
      (acts ++ [Act.remove .preprocess, Act.failed error status]))) :
    Moves cfg new c ((({ c with waitingQueue := rest }).note body.requestId acts).rejectRequest
      body.requestId error status) := by
  have hpop : Move cfg new _ _ := popEarlyReadsDone_moves body.requestId (hmove.tables ht)
  convert (Relation.ReflTransGen.single hmove).tail hpop using 1
  simp [rejectRequest, note, popEarlyReadsDone]

/-- The dispatch of the first of the queue is moves. -/
theorem admitRequest_moves {body : NewRequest} {rest : List NewRequest} (hf : Tame cfg new f)
    (ht : Tables cfg c) (hqueue : c.waitingQueue = body :: rest) (hroom : c.full cfg = false) :
    Moves cfg new c (({ c with waitingQueue := rest }).admitRequest cfg f body) := by
  have hunheld : (({ c with waitingQueue := rest }).note body.requestId
      [.admitted]).requests.lookup body.requestId = none :=
    ht.queues.waiting_unheld body (by simp [hqueue])
  rw [admitRequest]
  dsimp only [doIngestRequest]
  cases cfg.ingest body with
  | refused error =>
    dsimp only
    rw [hunheld, dropRequest_of_unheld hunheld]
    dsimp only
    split
    all_goals
      apply refuse_moves ht
      exact Move.refuses c body rest _ _ hqueue
  | unplaced workers error =>
    dsimp only
    rw [registerRequest_lookup, registerRequest_drop hunheld, note_note]
    dsimp only
    rw [if_pos rfl]
    split
    all_goals
      apply refuse_moves ht
      exact Move.bounces c body rest _ _ hqueue hroom
  | placed workers handle error =>
    have hmove : Move cfg new c (((({ c with waitingQueue := rest }).note body.requestId
        [.admitted]).registerRequest body.requestId ⟨workers, some handle, true, false⟩).note
          body.requestId [.dispatched workers handle]) := by
      convert Move.dispatches c body rest workers handle hqueue hroom using 1
      simp [registerRequest, note]
    have htables := hmove.tables ht
    cases error with
    | none => exact .single hmove
    | some error =>
      have hheld : ((((({ c with waitingQueue := rest }).note body.requestId
          [.admitted]).registerRequest body.requestId ⟨workers, some handle, true, false⟩).note
            body.requestId [.dispatched workers handle])).requests.lookup body.requestId =
          some ⟨workers, some handle, true, false⟩ := AList.lookup_insert _
      have hrunning : ((((({ c with waitingQueue := rest }).note body.requestId
          [.admitted]).registerRequest body.requestId ⟨workers, some handle, true, false⟩).note
            body.requestId [.dispatched workers handle])).draining body.requestId = none :=
        ht.queues.draining_held _ hunheld
      dsimp only
      rw [hheld, hrunning]
      exact (Relation.ReflTransGen.single hmove).trans
        (removeRequest_moves hf htables hheld hrunning (by simp))

/-- Admitting from the queue is moves. -/
theorem tryAdmitWaitingFor_tame (calls : ℕ) : Tame cfg new (tryAdmitWaitingFor cfg calls) := by
  induction calls with
  | zero => exact fun c _ => .refl
  | succ calls ih =>
    intro c ht
    rw [tryAdmitWaitingFor]
    cases hqueue : c.waitingQueue with
    | nil => exact .refl
    | cons body rest =>
      dsimp only
      split
      next => exact .refl
      next hroom =>
        have hfree : c.full cfg = false := by simpa using hroom
        have hmoves := admitRequest_moves ih ht hqueue hfree
        exact hmoves.trans (ih _ (Moves.tables hmoves ht))

/-- Admitting what waits is tame. -/
theorem tryAdmitWaiting_tame : Tame cfg new (tryAdmitWaiting cfg) :=
  fun c ht => tryAdmitWaitingFor_tame _ c ht

/-- The conductor once a NEW_REQUEST was taken in and queued. -/
def queued (c : Conductor) (body : NewRequest) : Conductor :=
  ({ c with waitingQueue := c.waitingQueue ++ [body] }).note body.requestId [.arrived]

/-- A request not heard of before is queued by a move. -/
theorem queued_move {body : NewRequest} (hallowed : body.requestId ∈ new)
    (hnew : ¬ Did (c.history body.requestId) .arrived) : Move cfg new c (c.queued body) :=
  Move.arrives c body hallowed hnew

/-- A queued request may be taken out at once. -/
theorem queued_then {body : NewRequest} {acts : List Act}
    (hleave : ∀ x : Conductor, x.waitingQueue = c.waitingQueue ++ body :: [] →
      (∀ a, Did (c.history body.requestId) a → Did (x.history body.requestId) a) →
      Move cfg new x (({ x with waitingQueue := c.waitingQueue ++ [] }).note body.requestId acts)) :
    Moves cfg new (c.queued body) ((c.note body.requestId [.arrived]).note body.requestId acts) := by
  have hdid : ∀ a, Did (c.history body.requestId) a →
      Did ((c.queued body).history body.requestId) a := fun a ha => did_note ha
  have hmove := hleave (c.queued body) rfl hdid
  convert Relation.ReflTransGen.single hmove using 1
  simp [queued, note]

/-- Once a NEW_REQUEST is queued, the rest of its handler is moves, if no queue is passed
over. -/
theorem ingestRequest_queued {body : NewRequest} (ht : Tables cfg c)
    (hqueued : Tables cfg (c.queued body))
    (hturn : c.full cfg = false → c.waitingQueue = []) :
    Moves cfg new (c.queued body) (c.ingestRequest cfg body) := by
  have hreject : ∀ error status, Moves cfg new (c.queued body)
      ((c.note body.requestId [.arrived]).rejectRequest body.requestId error status) := by
    intro error status
    have hmoves : Moves cfg new (c.queued body) ((c.note body.requestId [.arrived]).note
        body.requestId [.remove .preprocess, .failed error status]) :=
      queued_then fun x hqueue _ => Move.rejects x _ body [] error status hqueue
    exact hmoves.tail (popEarlyReadsDone_moves body.requestId (Moves.tables hmoves hqueued))
  rw [ingestRequest]
  split
  next hearly =>
    have hmoves : Moves cfg new (c.queued body) ((c.note body.requestId [.arrived]).note
        body.requestId [.remove .preprocess]) :=
      queued_then fun x hqueue hdid =>
        Move.withdraws x _ body [] hqueue (hdid _ (ht.memory.tombs_heard _ hearly))
    have htables := Moves.tables hmoves hqueued
    have hpop : Move cfg new _ _ := popEarlyReadsDone_moves body.requestId htables
    have hmemory := (hpop.tables htables).memory
    exact (hmoves.tail hpop).tail (Move.recalls _ 0 _ _ _ _ _ hmemory.early_heard
      (fun r hr => hmemory.tombs_heard r (Finset.mem_of_mem_erase hr)) (List.Subset.refl _))
  next =>
    cases checkSeed body.seed with
    | some error => exact hreject error 400
    | none =>
      dsimp only
      split
      next =>
        split
        next => exact hreject _ 503
        next => exact .refl
      next hroom =>
        have hfree : c.full cfg = false := Bool.eq_false_iff.2 hroom
        have hempty := hturn hfree
        have hqueue : (c.queued body).waitingQueue = body :: [] := by
          simp [queued, note, hempty]
        have hadmit : Moves cfg new _ _ :=
          admitRequest_moves tryAdmitWaiting_tame hqueued hqueue hfree
        convert hadmit using 1
        simp [queued, note, hempty]

/-- A NEW_REQUEST is moves, if no queue is passed over. -/
theorem ingestRequest_moves {body : NewRequest} (ht : Tables cfg c)
    (hallowed : body.requestId ∈ new)
    (hnew : ¬ Did (c.history body.requestId) .arrived)
    (hturn : c.full cfg = false → c.waitingQueue = []) :
    Moves cfg new c (c.ingestRequest cfg body) := by
  have hqueued : Move cfg new c (c.queued body) := queued_move hallowed hnew
  exact (Relation.ReflTransGen.single hqueued).trans
    (ingestRequest_queued ht (hqueued.tables ht) hturn)

/-- Once a READS_DONE is taken in, the rest of its handler is moves. -/
theorem handleReadsDone_noted (ht : Tables cfg c) (rid : RequestId) (entity : Entity) :
    Moves cfg new (c.note rid [.readsDone entity]) (c.handleReadsDone cfg rid entity) := by
  have hread : Move cfg new c _ := Move.reads c rid entity
  have htables := hread.tables ht
  have hdid : Did ((c.note rid [.readsDone entity]).history rid) (.readsDone entity) := by
    rw [history_note, did_append_stamp]
    exact .inr (by simp)
  rw [handleReadsDone]
  cases hdraining : c.draining rid with
  | none =>
    have hnone : (c.note rid [.readsDone entity]).draining rid = none := hdraining
    dsimp only
    rw [hnone]
    refine .single (Move.recalls _ 0 _ _ _ _ _ (fun r e he => ?_) htables.memory.tombs_heard
      (List.Subset.refl _))
    by_cases hr : r = rid
    · subst hr
      rw [Function.update_self, Option.getD_some, List.mem_insert_iff] at he
      rcases he with rfl | he
      · exact hdid
      · exact htables.memory.early_heard r e he
    · rw [Function.update_of_ne hr] at he
      exact htables.memory.early_heard r e he
  | some dr =>
    have hsome : (c.note rid [.readsDone entity]).draining rid = some dr := hdraining
    have hack : Move cfg new _ _ := Move.acks _ rid dr entity hsome hdid
    have hmoves := Relation.ReflTransGen.single hack
    dsimp only
    rw [hsome]
    dsimp only
    split
    next hempty =>
      refine hmoves.trans (finalizeDraining_moves tryAdmitWaiting_tame
        (Moves.tables hmoves htables) fun dr' hdr => .inl ?_)
      have hself := (Function.update_self rid _ _).symm.trans hdr
      rw [← Option.some.inj hself]
      exact hempty
    next => exact hmoves

/-- A READS_DONE is moves. -/
theorem handleReadsDone_moves (ht : Tables cfg c) (rid : RequestId) (entity : Entity) :
    Moves cfg new c (c.handleReadsDone cfg rid entity) :=
  (Relation.ReflTransGen.single (Move.reads c rid entity)).trans
    (handleReadsDone_noted ht rid entity)

/-- Finishing teardowns whose time is up is moves. -/
theorem finalizeAll_moves (ht : Tables cfg c) (rids : List RequestId)
    (hdue : ∀ rid ∈ rids, ∃ since expected, (since, Act.draining expected) ∈ c.history rid ∧
      since + cfg.drainTtl ≤ c.clock) :
    Moves cfg new c (rids.foldl (fun c rid => c.finalizeDraining (tryAdmitWaiting cfg) rid) c) := by
  induction rids generalizing c with
  | nil => exact .refl
  | cons rid rids ih =>
    have hfirst : Moves cfg new c (c.finalizeDraining (tryAdmitWaiting cfg) rid) :=
      finalizeDraining_moves tryAdmitWaiting_tame ht fun dr _ => .inr (hdue rid List.mem_cons_self)
    have hgrows := Moves.grows hfirst
    refine hfirst.trans (ih (Moves.tables hfirst ht) fun r hr => ?_)
    obtain ⟨since, expected, hbegan, hlate⟩ := hdue r (List.mem_cons_of_mem _ hr)
    exact ⟨since, expected, (hgrows.1 r).subset hbegan, hlate.trans hgrows.2⟩

/-- Forgetting an early abort is a move. -/
theorem eraseEarlyAbort_move (ht : Tables cfg c) (rid : RequestId) :
    Move cfg new c { c with earlyAbortRequests := c.earlyAbortRequests.erase rid } :=
  Move.recalls c 0 _ _ _ _ _ ht.memory.early_heard
    (fun r hr => ht.memory.tombs_heard r (Finset.mem_of_mem_erase hr)) (List.Subset.refl _)

/-- One move for each of a list is moves. -/
theorem foldl_moves {act : Conductor → RequestId → Conductor}
    (hact : ∀ c rid, Tables cfg c → Moves cfg new c (act c rid)) (ht : Tables cfg c)
    (rids : List RequestId) : Moves cfg new c (rids.foldl act c) := by
  induction rids generalizing c with
  | nil => exact .refl
  | cons rid rids ih =>
    have hfirst := hact c rid ht
    exact hfirst.trans (ih (Moves.tables hfirst ht))

/-- Every expired teardown began, and its time is up. -/
theorem expired_due (ht : Tables cfg c) : ∀ rid ∈ (popExpired c.drainingDeadlines c.clock).1,
    ∃ since expected, (since, Act.draining expected) ∈ c.history rid ∧
      since + cfg.drainTtl ≤ c.clock := by
  intro rid hr
  obtain ⟨deadline, hmem, rfl⟩ := List.mem_map.1 hr
  have hlate : deadline.1 ≤ c.clock := by simpa using List.mem_takeWhile_imp hmem
  obtain ⟨since, expected, hbegan, htime, -⟩ :=
    ht.memory.deadlines_began deadline ((List.takeWhile_sublist _).subset hmem)
  exact ⟨since, expected, hbegan, htime.le.trans hlate⟩

/-- Pushing expired teardowns through is moves. -/
theorem sweepDraining_moves (ht : Tables cfg c) :
    Moves cfg new c (c.sweepDraining cfg c.clock) := by
  have hpop : Move cfg new c { c with
      drainingDeadlines := (popExpired c.drainingDeadlines c.clock).2 } :=
    Move.recalls c 0 _ _ _ _ _ ht.memory.early_heard ht.memory.tombs_heard
      (List.dropWhile_sublist _).subset
  exact (Relation.ReflTransGen.single hpop).trans
    (finalizeAll_moves (hpop.tables ht) _ (expired_due ht))

/-- Forgetting expired early aborts is moves. -/
theorem sweepEarlyAborts_moves (ht : Tables cfg c) (now : ℕ) :
    Moves cfg new c (c.sweepEarlyAborts now) := by
  have hpop : Move cfg new c { c with
      earlyAbortDeadlines := (popExpired c.earlyAbortDeadlines now).2 } :=
    Move.recalls c 0 _ _ _ _ _ ht.memory.early_heard ht.memory.tombs_heard (List.Subset.refl _)
  exact (Relation.ReflTransGen.single hpop).trans
    (foldl_moves (fun c rid hc => .single (eraseEarlyAbort_move hc rid)) (hpop.tables ht) _)

/-- Forgetting expired early READS_DONE is moves. -/
theorem sweepEarlyReadsDone_moves (ht : Tables cfg c) (now : ℕ) :
    Moves cfg new c (c.sweepEarlyReadsDone now) := by
  have hpop : Move cfg new c { c with
      earlyReadsDoneDeadlines := (popExpired c.earlyReadsDoneDeadlines now).2 } :=
    Move.recalls c 0 _ _ _ _ _ ht.memory.early_heard ht.memory.tombs_heard (List.Subset.refl _)
  exact (Relation.ReflTransGen.single hpop).trans
    (foldl_moves (fun c rid hc => .single (popEarlyReadsDone_moves rid hc)) (hpop.tables ht) _)

/-- Looking at the deadlines is moves. -/
theorem sweepExpiry_moves (ht : Tables cfg c) : Moves cfg new c (c.sweepExpiry cfg) := by
  have hdrained : Moves cfg new c _ := sweepDraining_moves ht
  have haborts := hdrained.trans (sweepEarlyAborts_moves (Moves.tables hdrained ht) c.clock)
  exact haborts.trans (sweepEarlyReadsDone_moves (Moves.tables haborts ht) c.clock)

/-- The failures a worker reported are moves. -/
theorem failRequests_moves (ht : Tables cfg c) (errors : List (RequestId × String)) :
    Moves cfg new c (c.failRequests cfg errors) := by
  induction errors generalizing c with
  | nil => exact .refl
  | cons entry errors ih =>
    have hfirst : Moves cfg new c (c.failRequests cfg [entry]) := by
      simp only [failRequests, List.foldl_cons, List.foldl_nil]
      split
      next => exact .refl
      next data hheld =>
        split
        next => exact .refl
        next hdraining =>
          exact removeRequest_moves tryAdmitWaiting_tame ht hheld (by simpa using hdraining)
            (by simp)
    exact hfirst.trans (ih (Moves.tables hfirst ht))

/-- Once a client's abort is taken in, the rest of its handler is moves. -/
theorem abortRequest_noted (ht : Tables cfg c) (rid : RequestId) :
    Moves cfg new (c.note rid [.aborted]) (c.abortRequest cfg rid) := by
  have habort : Move cfg new c _ := Move.aborts c rid
  have htables := habort.tables ht
  have hdid : Did ((c.note rid [.aborted]).history rid) .aborted := by
    rw [history_note, did_append_stamp]
    exact .inr (by simp)
  rw [abortRequest]
  split
  next hwaiting =>
    obtain ⟨body, hmem, hbody⟩ := List.any_eq_true.1 hwaiting
    obtain ⟨found, before, after, -, hfound, hqueue, herase⟩ :=
      List.exists_of_eraseP (p := fun body : NewRequest => decide (body.requestId = rid)) hmem hbody
    have hrid : found.requestId = rid := by simpa using hfound
    have hmove : Move cfg new _ _ :=
      Move.withdraws (c.note rid [.aborted]) before found after hqueue (hrid.symm ▸ hdid)
    have hmoves := Relation.ReflTransGen.single hmove
    have hpop := hmoves.tail (popEarlyReadsDone_moves rid (Moves.tables hmoves htables))
    rw [herase, ← hrid]
    rw [← hrid] at hpop
    exact hpop
  next =>
    split
    next =>
      refine .single (Move.recalls _ 0 _ _ _ _ _ htables.memory.early_heard (fun r hr => ?_)
        (List.Subset.refl _))
      rcases Finset.mem_insert.1 hr with rfl | hr
      · exact hdid
      · exact htables.memory.tombs_heard r hr
    next data hheld =>
      split
      next => exact .refl
      next hdraining =>
        exact removeRequest_moves tryAdmitWaiting_tame htables hheld (by simpa using hdraining)
          (fun _ => hdid)

/-- A client's abort is moves. -/
theorem abortRequest_moves (ht : Tables cfg c) (rid : RequestId) :
    Moves cfg new c (c.abortRequest cfg rid) :=
  (Relation.ReflTransGen.single (Move.aborts c rid)).trans (abortRequest_noted ht rid)

/-- Failing a request whose handling raised is moves. -/
theorem failAfterError_moves (ht : Tables cfg c) (rid : RequestId) (step : String)
    (error : Raised) : Moves cfg new c (c.failAfterError cfg rid step error) := by
  rw [failAfterError]
  split
  next => exact .refl
  next data hheld =>
    split
    next => exact .refl
    next hdraining =>
      have hrunning : c.draining rid = none := by simpa using hdraining
      have hopen := ht.queues.running_open rid data hheld hrunning
      rw [hopen]
      exact removeRequest_moves tryAdmitWaiting_tame ht hheld hrunning (by simp)

/-- The barrier of an answered request is put up by a move. -/
theorem conclude_begun {data : RequestData} (ht : Tables cfg c)
    (hheld : c.requests.lookup rid = some data) (hrunning : c.draining rid = none)
    (entities expected : List Entity)
    (hexpected : expected = participants data.workers ∨
      expected = concludingAcks cfg data.workers) :
    Move cfg new c ((({ c with
      requests := c.requests.insert rid { data with completionSent := true } }).note rid
        (.complete :: entities.map Act.drain)).begun cfg rid expected (participants data.workers)
          none) := by
  convert Move.concludes c rid data entities expected _ hheld hrunning hexpected
    (early_acks ht expected) using 1
  simp only [begun, note, List.map_append, List.map_cons, List.append_assoc, List.cons_append]
  rfl

/-- Completing a running request goes through the barrier of a failed one or of an
answered one. -/
theorem processRequestDone_cases {data : RequestData} (hrunning : c.draining rid = none)
    (completion : Completion) {P : Conductor → Prop}
    (hfails : ∀ step error, P (c.failAfterError cfg rid step error))
    (hconcludes : ∀ entities expected : List Entity,
      expected = participants data.workers ∨ expected = concludingAcks cfg data.workers →
      P ((({ c with
        requests := c.requests.insert rid { data with completionSent := true } }).note rid
          (.complete :: entities.map Act.drain)).registerDraining cfg (tryAdmitWaiting cfg) rid
            expected (participants data.workers) none)) :
    P (c.processRequestDone cfg rid data completion) := by
  cases completion with
  | unsent error => exact hfails _ error
  | persisted error =>
    have hconclude :=
      hconcludes (participants data.workers) (participants data.workers) (.inl rfl)
    have htold : (({ c with
        requests := c.requests.insert rid { data with completionSent := true } } : Conductor).note
          rid [.complete]).requests.lookup rid = some { data with completionSent := true } :=
      AList.lookup_insert c.requests
    have hopen : (({ c with
        requests := c.requests.insert rid { data with completionSent := true } } : Conductor).note
          rid [.complete]).draining rid = none := hrunning
    rw [processRequestDone, failAfterError, htold]
    dsimp only
    rw [hopen, removeRequest, note_note]
    exact hconclude
  | clean =>
    rw [processRequestDone]
    split
    next hstreams =>
      rw [note_note]
      exact hconcludes _ _ (.inr (by rw [concludingAcks, if_pos hstreams]))
    next hstreams => exact hconcludes [] _ (.inr (by rw [concludingAcks, if_neg hstreams]))

/-- Completing a running request is moves. -/
theorem processRequestDone_moves {data : RequestData} (ht : Tables cfg c)
    (hheld : c.requests.lookup rid = some data) (hrunning : c.draining rid = none)
    (completion : Completion) : Moves cfg new c (c.processRequestDone cfg rid data completion) :=
  processRequestDone_cases hrunning completion
    (fun step error => failAfterError_moves ht rid step error)
    fun entities expected hexpected => registerDraining_moves tryAdmitWaiting_tame ht
      (conclude_begun ht hheld hrunning entities expected hexpected)

end Conductor

end Mstar.Teardown
