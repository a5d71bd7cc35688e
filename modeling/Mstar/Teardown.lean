import Mstar.ConductorTurns

/-!
# Every request is torn down once

Whatever reaches the conductor and in whatever order, a request is answered
once, removed once wherever it was placed, and not before its readers are
done or its time is up. Slots are never overbooked, and the queue moves up
whenever there is one.
-/

namespace Mstar.Teardown

namespace Conductor

/-- What holds between two turns of the conductor. -/
structure Sane (cfg : Config) (c : Conductor) : Prop where
  /-- The tables fit together. -/
  tables : Tables cfg c
  /-- Slots and turns are kept. -/
  slots : Slots cfg c
  /-- Nobody waits below capacity. -/
  settled : Settled cfg c
  /-- Every teardown has a deadline. -/
  deadlined : Deadlined c
  /-- Every teardown was begun with the right ones to wait for. -/
  expecting : Expecting cfg c
  /-- Every teardown still waits for somebody not heard since. -/
  waits : Waits c

/-- The requests an event brings in. -/
def Event.arrivals : Event → List RequestId
  | .newRequest body => [body.requestId]
  | _ => []

/-- What an event says of which request. -/
def Event.tells : Event → List (RequestId × Act)
  | .newRequest body => [(body.requestId, .arrived)]
  | .abortRequest rid => [(rid, .aborted)]
  | .readsDone rid entity => [(rid, .readsDone entity)]
  | _ => []

/-- The requests an event is to end. -/
def Event.ends : Event → List RequestId
  | .abortRequest rid => [rid]
  | .failRequests errors => errors.map Prod.fst
  | .raised rids _ _ => rids
  | .requestDone rid _ => [rid]
  | _ => []

variable {cfg : Config} {c : Conductor} {rid : RequestId}

/-- Failing a request is orderly. -/
theorem failAfterError_orderly (step : String) (error : Raised) :
    Orderly c (c.failAfterError cfg rid step error) := by
  rw [failAfterError]
  split
  next => exact .refl
  next =>
    split
    next => exact .refl
    next => exact removeRequest_orderly tryAdmitWaiting_orderly _ _

/-- None that fits is left waiting after it. -/
theorem failAfterError_settled (hs : Settled cfg c) (step : String) (error : Raised) :
    Settled cfg (c.failAfterError cfg rid step error) := by
  rw [failAfterError]
  split
  next => exact hs
  next =>
    split
    next => exact hs
    next => exact removeRequest_settled hs _ _

/-- What each request's failure keeps, the failure of all keeps. -/
theorem failRequests_keeps {P : Conductor → Prop} (errors : List (RequestId × String))
    (hstep : ∀ c rid data error, P c → P (c.removeRequest cfg (tryAdmitWaiting cfg) rid data
      (some error))) (hp : P c) : P (c.failRequests cfg errors) := by
  induction errors generalizing c with
  | nil => exact hp
  | cons entry errors ih =>
    have hfirst : P (c.failRequests cfg [entry]) := by
      simp only [failRequests, List.foldl_cons, List.foldl_nil]
      split
      next => exact hp
      next =>
        split
        next => exact hp
        next => exact hstep _ _ _ _ hp
    exact ih hfirst

/-- So is completing one. -/
theorem processRequestDone_orderly (data : RequestData) (completion : Completion) :
    Orderly c (c.processRequestDone cfg rid data completion) := by
  have htold : ∀ acts, Orderly c (({ c with
      requests := c.requests.insert rid { data with completionSent := true } }).note rid acts) :=
    fun _ => .of_eq (le_refl _) rfl fun _ h => h
  cases completion with
  | unsent error => exact failAfterError_orderly _ _
  | persisted error => exact (htold _).trans (failAfterError_orderly _ _)
  | clean =>
    rw [processRequestDone]
    split
    next =>
      rw [note_note]
      exact (htold _).trans (registerDraining_orderly tryAdmitWaiting_orderly _ _ _)
    next => exact (htold _).trans (registerDraining_orderly tryAdmitWaiting_orderly _ _ _)

/-- Nor after a completion. -/
theorem processRequestDone_settled {data : RequestData} (hs : Settled cfg c)
    (hheld : c.requests.lookup rid = some data) (completion : Completion) :
    Settled cfg (c.processRequestDone cfg rid data completion) := by
  have htold : ∀ acts, Settled cfg (({ c with
      requests := c.requests.insert rid { data with completionSent := true } }).note rid acts) :=
    fun _ => hs.of_eq id ((length_of_held hheld).1 _)
  cases completion with
  | unsent error => exact failAfterError_settled hs _ _
  | persisted error => exact failAfterError_settled (htold _) _ _
  | clean =>
    rw [processRequestDone]
    split
    next =>
      rw [note_note]
      exact registerDraining_settled (htold _) _ _ _
    next => exact registerDraining_settled (htold _) _ _ _

/-- A turn of the conductor is moves, in which at most its own request arrives. -/
theorem step_moves (hs : Sane cfg c) (event : Event)
    (hnew : ∀ rid ∈ event.arrivals, ¬ Did (c.history rid) .arrived) :
    Moves cfg {rid | rid ∈ event.arrivals} c (c.step cfg event) := by
  have ht := hs.tables
  cases event with
  | newRequest body =>
    refine ingestRequest_moves ht (List.mem_singleton.2 rfl) (hnew _ (List.mem_singleton.2 rfl)) ?_
    intro hroom
    by_contra hne
    exact absurd (hs.settled hne) (by simp [hroom])
  | abortRequest rid => exact abortRequest_moves ht rid
  | failRequests errors => exact failRequests_moves ht errors
  | readsDone rid entity => exact handleReadsDone_moves ht rid entity
  | raised rids step error =>
    exact foldl_moves (fun c rid hc => failAfterError_moves hc rid step error) ht rids
  | requestDone rid completion =>
    rw [step]
    split
    next => exact .refl
    next data hheld =>
      split
      next => exact .refl
      next hdraining =>
        exact processRequestDone_moves ht hheld (by simpa using hdraining) completion
  | sweep => exact sweepExpiry_moves ht
  | tick elapsed =>
    exact .single (Move.recalls c elapsed _ _ _ _ _ ht.memory.early_heard ht.memory.tombs_heard
      (List.Subset.refl _))

/-- A turn leaves the queue settled. -/
theorem step_settled (hs : Settled cfg c) (event : Event) : Settled cfg (c.step cfg event) := by
  have hnote : ∀ rid acts, Settled cfg (c.note rid acts) := fun _ _ => hs.of_eq id rfl
  cases event with
  | newRequest body =>
    have hreject : ∀ error status, Settled cfg ((c.note body.requestId [.arrived]).rejectRequest
        body.requestId error status) := fun _ _ => hs.of_eq id rfl
    rw [step, ingestRequest]
    split
    next => exact hs.of_eq id rfl
    next =>
      split
      next => exact hreject _ _
      next =>
        split
        next hfull =>
          split
          next => exact hreject _ _
          next => exact fun _ => hfull
        next hroom =>
          apply admitRequest_settled
          by_contra hne
          exact hroom (hs hne)
  | abortRequest rid =>
    rw [step, abortRequest]
    split
    next =>
      refine (hnote rid [.aborted]).of_eq (fun hempty => ?_) rfl
      change (c.note rid [.aborted]).waitingQueue.eraseP _ = []
      rw [hempty, List.eraseP_nil]
    next =>
      split
      next => exact hs.of_eq id rfl
      next =>
        split
        next => exact hnote _ _
        next => exact removeRequest_settled (hnote _ _) _ _
  | failRequests errors =>
    exact failRequests_keeps errors (fun _ _ _ _ h => removeRequest_settled h _ _) hs
  | readsDone rid entity =>
    rw [step, handleReadsDone]
    split
    next => exact hs.of_eq id rfl
    next =>
      dsimp only
      split
      next =>
        apply finalizeDraining_settled
        exact hs.of_eq id rfl
      next => exact hs.of_eq id rfl
  | raised rids step error =>
    change Settled cfg (rids.foldl (fun c rid => c.failAfterError cfg rid step error) c)
    clear hnote
    induction rids generalizing c with
    | nil => exact hs
    | cons rid rids ih => exact ih (failAfterError_settled hs _ _)
  | requestDone rid completion =>
    rw [step]
    split
    next => exact hs
    next data hheld =>
      split
      next => exact hs
      next => exact processRequestDone_settled hs hheld completion
  | sweep =>
    have hdrained : Settled cfg (c.sweepDraining cfg c.clock) := by
      have hall : ∀ (rids : List RequestId) (x : Conductor), Settled cfg x → Settled cfg
          (rids.foldl (fun c rid => c.finalizeDraining (tryAdmitWaiting cfg) rid) x) := by
        intro rids
        induction rids with
        | nil => exact fun x hx => hx
        | cons rid rids ih => exact fun x hx => ih _ (finalizeDraining_settled hx rid)
      exact hall _ _ (hs.of_eq id rfl)
    obtain ⟨tombs, early, reads, aborts, hframe⟩ := sweepExpiry_frame cfg c
    rw [step, hframe]
    exact hdrained.of_eq id rfl
  | tick elapsed => exact hs.of_eq id rfl

/-- A turn leaves every teardown a deadline. -/
theorem step_deadlined (ht : Tables cfg c) (hd : Deadlined c) (event : Event) :
    Deadlined (c.step cfg event) := by
  have hnote : ∀ rid acts, Orderly c (c.note rid acts) := fun _ _ =>
    .of_eq (le_refl _) rfl fun _ h => h
  cases event with
  | newRequest body =>
    have hreject : ∀ error status, Deadlined ((c.note body.requestId [.arrived]).rejectRequest
        body.requestId error status) := fun _ _ => hd
    rw [step, ingestRequest]
    split
    next => exact hd
    next =>
      split
      next => exact hreject _ _
      next =>
        split
        next =>
          split
          next => exact hreject _ _
          next => exact hd
        next =>
          exact (admitRequest_orderly tryAdmitWaiting_orderly body).deadlined
            ((hnote _ _).deadlined hd)
  | abortRequest rid =>
    rw [step, abortRequest]
    split
    next => exact hd
    next =>
      split
      next => exact hd
      next =>
        split
        next => exact hd
        next =>
          exact ((hnote _ _).trans
            (removeRequest_orderly tryAdmitWaiting_orderly _ _)).deadlined hd
  | failRequests errors =>
    exact failRequests_keeps errors
      (fun _ _ _ _ h => (removeRequest_orderly tryAdmitWaiting_orderly _ _).deadlined h) hd
  | readsDone rid entity =>
    rw [step, handleReadsDone]
    split
    next => exact hd
    next dr hdraining =>
      have hack : ∀ left, Orderly c { c.note rid [.readsDone entity] with
          draining := Function.update c.draining rid (some left) } := by
        refine fun left => .of_eq (le_refl _) rfl fun r hr => ?_
        by_cases hrid : r = rid
        · rw [hrid]
          exact fun hnone => absurd (hnone.symm.trans hdraining) (by simp)
        · simpa [hrid] using hr
      dsimp only
      split
      next =>
        exact ((hack _).trans (finalizeDraining_orderly tryAdmitWaiting_orderly rid)).deadlined hd
      next => exact (hack _).deadlined hd
  | raised rids step error =>
    change Deadlined (rids.foldl (fun c rid => c.failAfterError cfg rid step error) c)
    clear hnote ht
    induction rids generalizing c with
    | nil => exact hd
    | cons rid rids ih => exact ih ((failAfterError_orderly _ _).deadlined hd)
  | requestDone rid completion =>
    rw [step]
    split
    next => exact hd
    next data hheld =>
      split
      next => exact hd
      next => exact (processRequestDone_orderly data completion).deadlined hd
  | sweep =>
    obtain ⟨tombs, early, reads, aborts, hframe⟩ := sweepExpiry_frame cfg c
    rw [step, hframe]
    exact sweepDraining_deadlined ht hd
  | tick elapsed => exact hd

/-- A failure keeps the drains barred. -/
theorem failAfterError_barred (step : String) (error : Raised) :
    Barred c (c.failAfterError cfg rid step error) := by
  rw [failAfterError]
  split
  next => exact .refl
  next =>
    split
    next => exact .refl
    next => exact removeRequest_barred tryAdmitWaiting_barred _ _

/-- So does a completion. -/
theorem processRequestDone_barred {data : RequestData} (hrunning : c.draining rid = none)
    (completion : Completion) : Barred c (c.processRequestDone cfg rid data completion) := by
  refine processRequestDone_cases hrunning completion (fun _ _ => failAfterError_barred _ _) ?_
  intro entities expected _
  have htold : Barred c (({ c with
      requests := c.requests.insert rid { data with completionSent := true } }).note rid
        (.complete :: entities.map Act.drain)) :=
    Barred.trans (.of_eq rfl fun _ _ h => h) (.note (by simp))
  exact htold.trans (registerDraining_barred tryAdmitWaiting_barred _ _ _)

/-- And an abort. -/
theorem abortRequest_barred (rid : RequestId) : Barred c (c.abortRequest cfg rid) := by
  have hnote : Barred c (c.note rid [.aborted]) := .note (by simp)
  rw [abortRequest]
  split
  next =>
    exact hnote.trans (Barred.trans (.of_eq rfl fun _ _ h => h) (.note (by simp)))
  next =>
    split
    next => exact hnote.trans (.of_eq rfl fun _ _ h => h)
    next =>
      split
      next => exact hnote
      next => exact hnote.trans (removeRequest_barred tryAdmitWaiting_barred _ _)

/-- And a request that arrives. -/
theorem ingestRequest_barred (body : NewRequest) : Barred c (c.ingestRequest cfg body) := by
  have hnote : Barred c (c.note body.requestId [.arrived]) := .note (by simp)
  rw [ingestRequest]
  split
  next => exact hnote.trans (Barred.trans (.of_eq rfl fun _ _ h => h) (.note (by simp)))
  next =>
    split
    next => exact hnote.trans (rejectRequest_barred _ _)
    next =>
      split
      next =>
        split
        next => exact hnote.trans (rejectRequest_barred _ _)
        next => exact hnote.trans (.of_eq rfl fun _ _ h => h)
      next => exact hnote.trans (admitRequest_barred tryAdmitWaiting_barred body)

/-- After a turn every teardown still waits for somebody not heard since. -/
theorem step_waits (hw : Waits c) (event : Event) : Waits (c.step cfg event) := by
  cases event with
  | newRequest body => exact (ingestRequest_barred body).waits hw
  | abortRequest rid => exact (abortRequest_barred rid).waits hw
  | failRequests errors =>
    exact failRequests_keeps errors
      (fun _ _ _ _ h => (removeRequest_barred tryAdmitWaiting_barred _ _).waits h) hw
  | readsDone rid entity => exact handleReadsDone_waits hw entity
  | raised rids step error =>
    change Waits (rids.foldl (fun c rid => c.failAfterError cfg rid step error) c)
    induction rids generalizing c with
    | nil => exact hw
    | cons rid rids ih => exact ih ((failAfterError_barred _ _).waits hw)
  | requestDone rid completion =>
    rw [step]
    split
    next => exact hw
    next =>
      split
      next => exact hw
      next hdraining =>
        exact (processRequestDone_barred (by simpa using hdraining) completion).waits hw
  | sweep =>
    obtain ⟨tombs, early, reads, aborts, hframe⟩ := sweepExpiry_frame cfg c
    have hpop : Barred c { c with
        drainingDeadlines := (popExpired c.drainingDeadlines c.clock).2 } :=
      .of_eq rfl fun _ _ h => h
    rw [step, hframe]
    exact (hpop.trans (finalizeAll_barred _ _)).waits hw
  | tick elapsed => exact hw

/-- A turn keeps the conductor sane, if it brings in no request a second time. -/
theorem step_sane (hs : Sane cfg c) (event : Event)
    (hnew : ∀ rid ∈ event.arrivals, ¬ Did (c.history rid) .arrived) :
    Sane cfg (c.step cfg event) where
  tables := Moves.tables (step_moves hs event hnew) hs.tables
  slots := Moves.slots (step_moves hs event hnew) hs.tables hs.slots
  settled := step_settled hs.settled event
  deadlined := step_deadlined hs.tables hs.deadlined event
  expecting := Moves.expecting (step_moves hs event hnew) hs.tables hs.expecting
  waits := step_waits hs.waits event

/-- A run in which no request comes twice stays sane, and only what came in it
has arrived. -/
theorem run_sane (events : List Event) (hnodup : (events.flatMap Event.arrivals).Nodup) :
    Sane cfg (run cfg events) ∧
      ∀ rid, Did ((run cfg events).history rid) .arrived → rid ∈ events.flatMap Event.arrivals := by
  induction events using List.reverseRecOn with
  | nil =>
    refine ⟨⟨tables_start, slots_start, fun h => absurd rfl h, fun r h => absurd rfl h,
      fun _ => always_nil, fun _ _ h => by simp [run, start] at h⟩, ?_⟩
    intro rid h
    exact absurd h (by simp [run, start, history, Did])
  | append_singleton events event ih =>
    rw [List.flatMap_append, List.flatMap_singleton, List.nodup_append] at hnodup
    obtain ⟨hsane, harrived⟩ := ih hnodup.1
    have hrun : run cfg (events ++ [event]) = (run cfg events).step cfg event := by
      simp [run]
    have hnew : ∀ rid ∈ event.arrivals, ¬ Did ((run cfg events).history rid) .arrived :=
      fun rid hmem hdid => hnodup.2.2 rid (harrived rid hdid) rid hmem rfl
    rw [hrun]
    refine ⟨step_sane hsane event hnew, fun rid hdid => ?_⟩
    rw [List.flatMap_append, List.flatMap_singleton, List.mem_append]
    exact (Moves.arrived (step_moves hsane event hnew) hdid).imp_left (harrived rid)

/-- Every request is torn down once, its client told once, and no slot is
overbooked or left idle while somebody waits. -/
structure TornDown (cfg : Config) (c : Conductor) : Prop where
  /-- A client gets at most one of `request_complete` and `request_failed`. -/
  told_once : ∀ rid, answers (c.history rid) ≤ 1
  /-- A client whose request is gone was told, unless it aborted. -/
  told : ∀ rid, Did (c.history rid) .arrived → c.requests.lookup rid = none →
    c.isWaiting rid = false → answers (c.history rid) = 1 ∨ Did (c.history rid) .aborted
  /-- A dispatched request is placed once, and once it is gone each of its
  participants was sent one REMOVE_REQUEST and nobody else any. -/
  removed_once : ∀ rid placement, placement ∈ dispatches (c.history rid) →
    dispatches (c.history rid) = [placement] ∧ ∀ e, removals (c.history rid) e =
      if c.requests.lookup rid = none ∧ e ∈ participants placement.1 then 1 else 0
  /-- Everyone that may still read is expected. -/
  expected : ∀ rid, Always (Expects cfg) (c.history rid)
  /-- A teardown that goes on still expects somebody it has not heard. -/
  unmet : ∀ rid dr, c.draining rid = some dr → Unmet (c.history rid) dr
  /-- A REMOVE_REQUEST waits for every expected READS_DONE or the deadline. -/
  removed_late : ∀ rid, Always (Waited cfg.drainTtl) (c.history rid)
  /-- No DRAIN_REQUEST follows it. -/
  drained_first : ∀ rid, Always DrainsFirst (c.history rid)
  /-- What the router recorded is released when the request is gone, and once. -/
  released_once : ∀ rid, releases (c.history rid) =
    if c.requests.lookup rid = none then (dispatches (c.history rid)).map Prod.snd else []
  /-- The table holds who was held and not dropped. -/
  balance : times .held c.trace = times .dropped c.trace + c.inFlight
  /-- At no moment were more held than the cap. -/
  within_cap : ∀ cap, cfg.maxConcurrentRequests = some cap → ∀ before, before <+: c.trace →
    times .held before ≤ times .dropped before + cap
  /-- Requests are admitted in the order they arrived, and the queue is next. -/
  in_turn : (requestsOf .admitted c.trace ++ c.waitingQueue.map NewRequest.requestId).Sublist
    (requestsOf .arrived c.trace)
  /-- Nobody waits below capacity. -/
  no_idle_slot : c.waitingQueue ≠ [] → c.full cfg = true

/-- A request out of the table waits, was never heard of, or is over. -/
theorem Sane.unheld (hs : Sane cfg c) (hheld : c.requests.lookup rid = none) :
    Fresh (c.history rid) ∧ (c.isWaiting rid = true ∨ ¬ Did (c.history rid) .arrived) ∨
      Over (c.history rid) := by
  have hsound := (hs.tables.lives rid).sound
  cases hwaiting : c.isWaiting rid with
  | true =>
    rw [stage_waiting hheld hwaiting] at hsound
    exact .inl ⟨hsound.2, .inl rfl⟩
  | false =>
    rw [stage_absent hheld hwaiting] at hsound
    exact hsound.imp_left fun h => ⟨h.2, .inr h.1⟩

/-- A request in the table is placed and answered at most once. -/
theorem Sane.held (hs : Sane cfg c) {data : RequestData}
    (hheld : c.requests.lookup rid = some data) :
    Placed (c.history rid) data ∧ answers (c.history rid) ≤ 1 := by
  have hsound := (hs.tables.lives rid).sound
  cases hdraining : c.draining rid with
  | none =>
    rw [stage_running hheld hdraining] at hsound
    refine ⟨hsound.1, hsound.2.trans_le ?_⟩
    split <;> omega
  | some dr =>
    rw [stage_draining hheld hdraining] at hsound
    obtain ⟨hplaced, -, hnone, hsome, -⟩ := hsound
    refine ⟨hplaced, ?_⟩
    cases hfail : dr.failureError with
    | none =>
      have hanswers := hnone hfail
      omega
    | some error =>
      have hanswers := hsome (by simp [hfail])
      omega

/-- A sane conductor has torn down once what it has torn down. -/
theorem Sane.tornDown (hs : Sane cfg c) : TornDown cfg c where
  told_once rid := by
    cases hheld : c.requests.lookup rid with
    | none =>
      rcases hs.unheld hheld with ⟨hfresh, -⟩ | hover
      · exact hfresh.answers.trans_le (Nat.zero_le 1)
      · have hanswered := hover.answered
        omega
    | some data => exact (hs.held hheld).2
  told rid harrived hheld hwaiting := by
    rcases hs.unheld hheld with ⟨-, hwaits | hnever⟩ | hover
    · exact absurd (hwaits.symm.trans hwaiting) (by simp)
    · exact absurd harrived hnever
    · exact hover.answered.imp_right And.right
  removed_once rid placement hplacement := by
    cases hheld : c.requests.lookup rid with
    | none =>
      rcases hs.unheld hheld with ⟨hfresh, -⟩ | hover
      · rw [hfresh.dispatches] at hplacement
        simp at hplacement
      · rcases hover.cleaned with ⟨hnone, -⟩ | ⟨workers, handle, hone, -, hremovals⟩
        · rw [hnone] at hplacement
          simp at hplacement
        · rw [hone, List.mem_singleton] at hplacement
          subst hplacement
          exact ⟨hone, fun e => by simp [hremovals e]⟩
    | some data =>
      have hplaced := (hs.held hheld).1
      obtain ⟨handle, -, hone⟩ := hplaced.placed
      rw [hone, List.mem_singleton] at hplacement
      subst hplacement
      exact ⟨hone, fun e => by simp [hplaced.removals e]⟩
  expected := hs.expecting
  unmet := hs.waits
  removed_late rid := (hs.tables.lives rid).waited
  drained_first rid := (hs.tables.lives rid).drainsFirst
  released_once rid := by
    cases hheld : c.requests.lookup rid with
    | none =>
      rcases hs.unheld hheld with ⟨hfresh, -⟩ | hover
      · simp [hfresh.releases, hfresh.dispatches]
      · rcases hover.cleaned with ⟨hnone, hreleases⟩ | ⟨workers, handle, hone, hreleases, -⟩
        · simp [hnone, hreleases]
        · simp [hone, hreleases]
    | some data => simp [(hs.held hheld).1.releases]
  balance := hs.slots.balance
  within_cap := hs.slots.bounded
  in_turn := hs.slots.turns
  no_idle_slot := hs.settled

/-- A teardown is over once its time has passed, whatever was not heard. -/
theorem Sane.expires (hs : Sane cfg c) (hdraining : c.draining rid ≠ none) {elapsed : ℕ}
    (hlate : cfg.drainTtl ≤ elapsed) :
    ((c.step cfg (.tick elapsed)).step cfg .sweep).requests.lookup rid = none := by
  have hlater : Sane cfg (c.step cfg (.tick elapsed)) :=
    step_sane hs (.tick elapsed) fun r hr => by simp [Event.arrivals] at hr
  have hmoves : Moves cfg ∅ _ _ := sweepDraining_moves hlater.tables
  obtain ⟨t, hmem⟩ := hs.deadlined rid hdraining
  have hall : ∀ deadline ∈ c.drainingDeadlines, deadline.1 ≤ c.clock + elapsed := by
    intro deadline hdeadline
    obtain ⟨since, expected, -, htime, hle⟩ := hs.tables.memory.deadlines_began deadline hdeadline
    omega
  have hexpired : rid ∈ (popExpired c.drainingDeadlines (c.clock + elapsed)).1 := by
    have htake : c.drainingDeadlines.takeWhile (·.1 ≤ c.clock + elapsed) = c.drainingDeadlines :=
      List.takeWhile_eq_self_iff.2 fun deadline hdeadline => by
        simpa using hall deadline hdeadline
    rw [popExpired, htake]
    exact List.mem_map_of_mem hmem
  have hover := sweepDraining_over hlater.tables hexpired
  obtain ⟨tombs, early, reads, aborts, hframe⟩ := sweepExpiry_frame cfg (c.step cfg (.tick elapsed))
  rw [step, hframe]
  exact (gone_of_released (Moves.tables hmoves hlater.tables) hover).1

/-- What one turn does about the event it takes in. -/
structure Heeds (cfg : Config) (c : Conductor) (event : Event) (c' : Conductor) : Prop where
  /-- The message is taken in. -/
  taken : ∀ m ∈ event.tells, c.history m.1 ++ [(c.clock, m.2)] <+: c'.history m.1
  /-- A held request that it is to end drains or is gone. -/
  ended : ∀ rid ∈ event.ends, c.requests.lookup rid ≠ none →
    c'.draining rid ≠ none ∨ c'.requests.lookup rid = none
  /-- An aborted request does not wait any more, and one not seen yet is remembered. -/
  withdrawn : ∀ rid, event = .abortRequest rid → c'.isWaiting rid = false ∧
    (c.requests.lookup rid = none → c.isWaiting rid = false → rid ∈ c'.earlyAbortRequests)
  /-- A request aborted before it came is neither queued nor held. -/
  refused : ∀ rid ∈ event.arrivals, rid ∈ c.earlyAbortRequests →
    c'.isWaiting rid = false ∧ c'.requests.lookup rid = none

/-- A teardown that begins ends the request. -/
theorem removeRequest_ended {data : RequestData} {failureError : Option String}
    (ht : Tables cfg c) (hheld : c.requests.lookup rid = some data)
    (hrunning : c.draining rid = none)
    (hquiet : failureError = none → Did (c.history rid) .aborted) :
    Ended ((c.removeRequest cfg (tryAdmitWaiting cfg) rid data failureError).history rid) :=
  .inl (removeRequest_began ht tryAdmitWaiting_tame hheld hrunning hquiet)

/-- A placed request whose handling raised ended. -/
theorem failAfterError_ended (ht : Tables cfg c) (hplaced : dispatches (c.history rid) ≠ [])
    (step : String) (error : Raised) :
    Ended ((c.failAfterError cfg rid step error).history rid) := by
  rw [failAfterError]
  cases hheld : c.requests.lookup rid with
  | none => exact ended_of_placed ht hplaced (.inr hheld)
  | some data =>
    dsimp only
    cases hdraining : c.draining rid with
    | some dr => exact ended_of_placed ht hplaced (.inl (by simp [hdraining]))
    | none =>
      rw [ht.queues.running_open rid data hheld hdraining]
      exact removeRequest_ended ht hheld hdraining (by simp)

/-- Every placed request whose handling raised ended. -/
theorem raised_ended (ht : Tables cfg c) (hplaced : dispatches (c.history rid) ≠ [])
    {rids : List RequestId} (hmem : rid ∈ rids) (step : String) (error : Raised) :
    Ended ((rids.foldl (fun c rid => c.failAfterError cfg rid step error) c).history rid) := by
  induction rids generalizing c with
  | nil => simp at hmem
  | cons first rids ih =>
    have hfirst : Moves cfg ∅ c (c.failAfterError cfg first step error) :=
      failAfterError_moves ht first step error
    have htables := Moves.tables hfirst ht
    rcases List.mem_cons.1 hmem with rfl | hmem
    · have hrest : Moves cfg ∅ _ _ := foldl_moves
        (fun c rid hc => failAfterError_moves hc rid step error) htables rids
      exact (failAfterError_ended ht hplaced step error).moves hrest
    · exact ih htables (dispatched_of_moves hplaced hfirst) hmem

/-- Every placed request that a worker failed ended. -/
theorem failRequests_ended (ht : Tables cfg c) (hplaced : dispatches (c.history rid) ≠ [])
    {errors : List (RequestId × String)} (hmem : rid ∈ errors.map Prod.fst) :
    Ended ((c.failRequests cfg errors).history rid) := by
  induction errors generalizing c with
  | nil => simp at hmem
  | cons entry errors ih =>
    have hfirst : Moves cfg ∅ c (c.failRequests cfg [entry]) := failRequests_moves ht [entry]
    have htables := Moves.tables hfirst ht
    change Ended (((c.failRequests cfg [entry]).failRequests cfg errors).history rid)
    rcases List.mem_cons.1 hmem with rfl | hmem
    · have hrest : Moves cfg ∅ _ _ := failRequests_moves htables errors
      refine Ended.moves ?_ hrest
      simp only [failRequests, List.foldl_cons, List.foldl_nil]
      cases hheld : c.requests.lookup entry.1 with
      | none => exact ended_of_placed ht hplaced (.inr hheld)
      | some data =>
        dsimp only
        cases hdraining : c.draining entry.1 with
        | some dr => exact ended_of_placed ht hplaced (.inl (by simp [hdraining]))
        | none => exact removeRequest_ended ht hheld hdraining (by simp)
    · exact ih htables (dispatched_of_moves hplaced hfirst) hmem

/-- A running request that completes ended. -/
theorem processRequestDone_ended {data : RequestData} (ht : Tables cfg c)
    (hheld : c.requests.lookup rid = some data) (hrunning : c.draining rid = none)
    (completion : Completion) :
    Ended ((c.processRequestDone cfg rid data completion).history rid) := by
  have hplaced : dispatches (c.history rid) ≠ [] := by
    obtain ⟨handle, -, hone⟩ := (ht.lives.placed hheld).placed
    simp [hone]
  refine processRequestDone_cases (P := fun x => Ended (x.history rid)) hrunning completion
    (fun step error => failAfterError_ended ht hplaced step error) ?_
  intro entities expected hexpected
  have hbegun : Move cfg ∅ c _ := conclude_begun ht hheld hrunning entities expected hexpected
  exact .inl (registerDraining_began tryAdmitWaiting_tame ht hbegun)

/-- An aborted request ended, if it was placed. -/
theorem abortRequest_ended (ht : Tables cfg c) (hheld : c.requests.lookup rid ≠ none) :
    Ended ((c.abortRequest cfg rid).history rid) := by
  obtain ⟨data, hdata⟩ := Option.ne_none_iff_exists'.1 hheld
  have habort : Move cfg ∅ c _ := Move.aborts c rid
  have htables := habort.tables ht
  have hdid : Did ((c.note rid [.aborted]).history rid) .aborted := by
    rw [history_note, did_append_stamp]
    exact .inr (by simp)
  have hplaced : dispatches ((c.note rid [.aborted]).history rid) ≠ [] := by
    obtain ⟨handle, -, hone⟩ := (htables.lives.placed (c := c.note rid [.aborted]) hdata).placed
    simp [hone]
  have hqueue : ¬ (c.note rid [.aborted]).waitingQueue.any (·.requestId = rid) = true := by
    intro hwaiting
    obtain ⟨body, hmem, hbody⟩ := isWaiting_iff.1 hwaiting
    exact hheld (hbody ▸ ht.queues.waiting_unheld body hmem)
  have hlookup : (c.note rid [.aborted]).requests.lookup rid = some data := hdata
  rw [abortRequest, if_neg hqueue, hlookup]
  dsimp only
  cases hdraining : (c.note rid [.aborted]).draining rid with
  | some dr => exact ended_of_placed htables hplaced (.inl (by simp [hdraining]))
  | none => exact removeRequest_ended htables hdata hdraining fun _ => hdid

/-- An aborted request waits no more, and one not seen yet is remembered. -/
theorem abortRequest_withdrawn (ht : Tables cfg c) :
    (c.abortRequest cfg rid).isWaiting rid = false ∧
      (c.requests.lookup rid = none → c.isWaiting rid = false →
        rid ∈ (c.abortRequest cfg rid).earlyAbortRequests) := by
  cases hwaiting : c.isWaiting rid with
  | true =>
    refine ⟨?_, fun _ h => by simp at h⟩
    obtain ⟨body, hmem, hbody⟩ := List.any_eq_true.1 hwaiting
    obtain ⟨found, before, after, -, hfound, hqueue, herase⟩ :=
      List.exists_of_eraseP (p := fun body : NewRequest => decide (body.requestId = rid)) hmem hbody
    have hrid : found.requestId = rid := by simpa using hfound
    have hany : (c.note rid [.aborted]).waitingQueue.any (·.requestId = rid) = true := hwaiting
    rw [abortRequest, if_pos hany, ← hrid]
    refine not_isWaiting_of_removed ht.queues hqueue ?_
    rw [hrid]
    exact herase
  | false =>
    have hany : ¬ (c.note rid [.aborted]).waitingQueue.any (·.requestId = rid) = true :=
      fun h => absurd (hwaiting.symm.trans h) (by simp)
    cases hheld : c.requests.lookup rid with
    | some data =>
      have habort : Moves cfg ∅ c (c.abortRequest cfg rid) := abortRequest_moves ht rid
      have hended := abortRequest_ended ht (Option.ne_none_iff_exists'.2 ⟨data, hheld⟩)
      exact ⟨(hended.gone (Moves.tables habort ht)).1, fun h => by simp at h⟩
    | none =>
      have hlookup : (c.note rid [.aborted]).requests.lookup rid = none := hheld
      rw [abortRequest, if_neg hany, hlookup]
      exact ⟨hwaiting, fun _ _ => Finset.mem_insert_self _ _⟩

/-- A request aborted before it came is neither queued nor held. -/
theorem ingestRequest_refused {body : NewRequest} (ht : Tables cfg c)
    (hnew : ¬ Did (c.history body.requestId) .arrived)
    (hearly : body.requestId ∈ c.earlyAbortRequests) :
    (c.ingestRequest cfg body).isWaiting body.requestId = false ∧
      (c.ingestRequest cfg body).requests.lookup body.requestId = none := by
  have habsent := unheld_of_absent (ht.lives.absent hnew)
  have htomb : body.requestId ∈ (c.note body.requestId [.arrived]).earlyAbortRequests := hearly
  rw [ingestRequest, if_pos htomb]
  exact ⟨habsent.2, habsent.1⟩

/-- Every turn heeds its event. -/
theorem step_heeds (hs : Sane cfg c) (event : Event)
    (hnew : ∀ rid ∈ event.arrivals, ¬ Did (c.history rid) .arrived) :
    Heeds cfg c event (c.step cfg event) where
  taken m hm := by
    have htaken : ∀ x : Conductor, (∀ r, x.history r = c.history r) → x.clock = c.clock →
        Moves cfg Set.univ (x.note m.1 [m.2]) (c.step cfg event) →
        c.history m.1 ++ [(c.clock, m.2)] <+: (c.step cfg event).history m.1 := by
      intro x hhistory hclock hmoves
      have hgrows := (Moves.grows hmoves).1 m.1
      rw [history_note, hhistory, hclock] at hgrows
      exact hgrows
    cases event with
    | newRequest body =>
      obtain rfl := List.mem_singleton.1 hm
      have hfresh := hnew _ (List.mem_singleton.2 rfl)
      have hqueued : Move cfg Set.univ c (c.queued body) := queued_move (Set.mem_univ _) hfresh
      refine htaken { c with waitingQueue := c.waitingQueue ++ [body] } (fun _ => rfl) rfl
        (ingestRequest_queued hs.tables (hqueued.tables hs.tables) fun hroom => ?_)
      by_contra hne
      exact absurd (hs.settled hne) (by simp [hroom])
    | abortRequest rid =>
      obtain rfl := List.mem_singleton.1 hm
      exact htaken c (fun _ => rfl) rfl (abortRequest_noted hs.tables rid)
    | readsDone rid entity =>
      obtain rfl := List.mem_singleton.1 hm
      exact htaken c (fun _ => rfl) rfl (handleReadsDone_noted hs.tables rid entity)
    | _ => simp [Event.tells] at hm
  ended rid hrid hheld := by
    obtain ⟨data, hdata⟩ := Option.ne_none_iff_exists'.1 hheld
    have hplaced : dispatches (c.history rid) ≠ [] := by
      obtain ⟨handle, -, hone⟩ := (hs.tables.lives.placed hdata).placed
      simp [hone]
    have htables := Moves.tables (step_moves hs event hnew) hs.tables
    refine (Ended.gone htables ?_).2
    cases event with
    | abortRequest r =>
      obtain rfl := List.mem_singleton.1 hrid
      exact abortRequest_ended hs.tables hheld
    | failRequests errors => exact failRequests_ended hs.tables hplaced hrid
    | raised rids step error => exact raised_ended hs.tables hplaced hrid step error
    | requestDone r completion =>
      obtain rfl := List.mem_singleton.1 hrid
      rw [step, hdata]
      dsimp only
      cases hdraining : c.draining rid with
      | some dr => exact ended_of_placed hs.tables hplaced (.inl (by simp [hdraining]))
      | none => exact processRequestDone_ended hs.tables hdata hdraining completion
    | _ => simp [Event.ends] at hrid
  withdrawn rid hevent := by
    subst hevent
    exact abortRequest_withdrawn hs.tables
  refused rid hrid hearly := by
    cases event with
    | newRequest body =>
      obtain rfl := List.mem_singleton.1 hrid
      exact ingestRequest_refused hs.tables (hnew _ hrid) hearly
    | _ => simp [Event.arrivals] at hrid

/-- Whatever reaches the conductor, in whatever order, every request is torn
down once; each event is heeded; and once a teardown's time has passed, it is
over. -/
theorem torn_down_once (cfg : Config) (events : List Event)
    (hnodup : (events.flatMap Event.arrivals).Nodup) :
    TornDown cfg (run cfg events) ∧
    (∀ event, (∀ rid ∈ event.arrivals, rid ∉ events.flatMap Event.arrivals) →
      Heeds cfg (run cfg events) event (run cfg (events ++ [event]))) ∧
    ∀ rid elapsed, cfg.drainTtl ≤ elapsed → (run cfg events).draining rid ≠ none →
      (run cfg (events ++ [.tick elapsed, .sweep])).requests.lookup rid = none := by
  obtain ⟨hsane, harrived⟩ : Sane cfg (run cfg events) ∧ _ := run_sane events hnodup
  refine ⟨hsane.tornDown, fun event hnew => ?_, fun rid elapsed hlate hdraining => ?_⟩
  · have hrun : run cfg (events ++ [event]) = (run cfg events).step cfg event := by
      simp [run]
    rw [hrun]
    exact step_heeds hsane event fun rid hrid hdid => hnew rid hrid (harrived rid hdid)
  · have hrun : run cfg (events ++ [.tick elapsed, .sweep]) =
        ((run cfg events).step cfg (.tick elapsed)).step cfg .sweep := by
      simp [run]
    rw [hrun]
    exact hsane.expires hdraining hlate

/-- A conductor with one slot and two minutes for a teardown. -/
def oneSlot : Config := ⟨some 1, false, 120, fun _ => .placed [0, 1] 7 none⟩

/-- Two requests, the first of which ends while the second waits. -/
def twoRequests : List Event :=
  [.newRequest ⟨1, .absent, false⟩, .newRequest ⟨2, .int 5, false⟩, .requestDone 1 .clean,
    .readsDone 1 .preprocess]

/-- The second request takes the slot of the first. -/
theorem torn_down_once_twoRequests :
    ((run oneSlot twoRequests).waitingQueue = [] ∧ answers ((run oneSlot twoRequests).history 1) = 1) ∧
      TornDown oneSlot (run oneSlot twoRequests) :=
  ⟨by decide, (torn_down_once oneSlot twoRequests (by decide)).1⟩

end Conductor

end Mstar.Teardown
