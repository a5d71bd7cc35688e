import Mstar.RequestLife
import Mathlib.Data.Set.Defs
import Mathlib.Logic.Relation

/-!
# What a handler may do to the tables

Every handler of the conductor is a sequence of a few moves, each of which
takes one request from one stage of its life to the next. A move may be made
at any time its guard holds; what all moves keep holds after any run.
-/

namespace Mstar.Teardown

namespace Conductor

/-- What was done for one request. -/
def history (c : Conductor) (rid : RequestId) : History :=
  c.trace.filterMap fun m => if m.request = rid then some (m.clock, m.act) else none

/-- The request waits for a slot. -/
def isWaiting (c : Conductor) (rid : RequestId) : Bool :=
  c.waitingQueue.any (·.requestId = rid)

/-- Where the tables have a request. -/
def stage (c : Conductor) (rid : RequestId) : Stage :=
  match c.requests.lookup rid with
  | some data =>
    match c.draining rid with
    | none => .running data
    | some dr => .draining data dr
  | none => if c.isWaiting rid then .waiting else .absent

variable {c : Conductor} {rid r : RequestId} {acts more : List Act}

/-- A note goes to its request's history. -/
theorem history_note : (c.note rid acts).history rid = c.history rid ++ stamp c.clock acts := by
  have hall : (acts.map (Mark.mk c.clock rid)).filterMap
      (fun m => if m.request = rid then some (m.clock, m.act) else none) = stamp c.clock acts := by
    rw [List.filterMap_map]
    simp [stamp]
  rw [history, note, List.filterMap_append, hall]
  rfl

/-- And to no other's. -/
theorem history_note_of_ne (h : r ≠ rid) : (c.note rid acts).history r = c.history r := by
  have hnone : (acts.map (Mark.mk c.clock rid)).filterMap
      (fun m => if m.request = r then some (m.clock, m.act) else none) = [] := by
    simp [List.filterMap_map, h.symm]
  rw [history, note, List.filterMap_append, hnone, List.append_nil]
  rfl

/-- Acts recorded one after the other. -/
theorem note_note : (c.note rid acts).note rid more = c.note rid (acts ++ more) := by
  simp [note]

/-- What was done stays done. -/
theorem did_note {a : Act} (h : Did (c.history r) a) : Did ((c.note rid acts).history r) a := by
  by_cases hr : r = rid
  · rw [hr] at h ⊢
    rw [history_note]
    exact h.imp fun t ht => List.mem_append_left _ ht
  · rwa [history_note_of_ne hr]

/-- A note removes none. -/
theorem mem_history_note {x : ℕ × Act} (h : x ∈ c.history r) :
    x ∈ (c.note rid acts).history r := by
  by_cases hr : r = rid
  · rw [hr] at h ⊢
    rw [history_note]
    exact List.mem_append_left _ h
  · rwa [history_note_of_ne hr]

end Conductor

open Conductor

/-- Whom the teardown of an answered request waits for. -/
def concludingAcks (cfg : Config) (workers : List ℕ) : List Entity :=
  if cfg.clientStreams then .preprocess :: requestWorkers workers else [.preprocess]

/-- One move on the tables; only the given requests may be new. -/
inductive Move (cfg : Config) (new : Set RequestId) : Conductor → Conductor → Prop where
  /-- Early messages are recalled or forgotten, and time passes. -/
  | recalls (c : Conductor) (elapsed : ℕ) (early : RequestId → Option (List Entity))
      (tombs : Finset RequestId) (drains reads aborts : List (ℕ × RequestId))
      (hearly : ∀ rid, ∀ e ∈ (early rid).getD [], Did (c.history rid) (.readsDone e))
      (htombs : ∀ rid ∈ tombs, Did (c.history rid) .aborted)
      (hdrains : drains ⊆ c.drainingDeadlines) :
      Move cfg new c { c with
        clock := c.clock + elapsed, earlyReadsDone := early, earlyAbortRequests := tombs
        drainingDeadlines := drains
        earlyReadsDoneDeadlines := reads, earlyAbortDeadlines := aborts }
  /-- A client's abort is taken in. -/
  | aborts (c : Conductor) (rid : RequestId) : Move cfg new c (c.note rid [.aborted])
  /-- A READS_DONE is taken in. -/
  | reads (c : Conductor) (rid : RequestId) (e : Entity) : Move cfg new c (c.note rid [.readsDone e])
  /-- A READS_DONE that was waited for is struck off. -/
  | acks (c : Conductor) (rid : RequestId) (dr : DrainingRequest) (e : Entity)
      (hdraining : c.draining rid = some dr) (hread : Did (c.history rid) (.readsDone e)) :
      Move cfg new c { c with
        draining := Function.update c.draining rid
          (some { dr with expectedAcks := dr.expectedAcks.filter (· ≠ e) }) }
  /-- A NEW_REQUEST is queued. -/
  | arrives (c : Conductor) (body : NewRequest)
      (hallowed : body.requestId ∈ new) (hnew : ¬ Did (c.history body.requestId) .arrived) :
      Move cfg new c (({ c with waitingQueue := c.waitingQueue ++ [body] }).note body.requestId
        [.arrived])
  /-- An aborted request leaves the queue. -/
  | withdraws (c : Conductor) (before : List NewRequest) (body : NewRequest)
      (after : List NewRequest) (hqueue : c.waitingQueue = before ++ body :: after)
      (haborted : Did (c.history body.requestId) .aborted) :
      Move cfg new c (({ c with waitingQueue := before ++ after }).note body.requestId
        [.remove .preprocess])
  /-- A queued request is rejected. -/
  | rejects (c : Conductor) (before : List NewRequest) (body : NewRequest)
      (after : List NewRequest) (error : String) (status : ℕ)
      (hqueue : c.waitingQueue = before ++ body :: after) :
      Move cfg new c (({ c with waitingQueue := before ++ after }).note body.requestId
        [.remove .preprocess, .failed error status])
  /-- The first of the queue is rejected at its dispatch. -/
  | refuses (c : Conductor) (body : NewRequest) (rest : List NewRequest) (error : String)
      (status : ℕ) (hqueue : c.waitingQueue = body :: rest) :
      Move cfg new c (({ c with waitingQueue := rest }).note body.requestId
        [.admitted, .remove .preprocess, .failed error status])
  /-- The first of the queue is registered, dropped and rejected. -/
  | bounces (c : Conductor) (body : NewRequest) (rest : List NewRequest) (error : String)
      (status : ℕ) (hqueue : c.waitingQueue = body :: rest) (hroom : c.full cfg = false) :
      Move cfg new c (({ c with waitingQueue := rest }).note body.requestId
        [.admitted, .held, .dropped, .remove .preprocess, .failed error status])
  /-- The first of the queue is dispatched. -/
  | dispatches (c : Conductor) (body : NewRequest) (rest : List NewRequest) (workers : List ℕ)
      (handle : RoutingHandle) (hqueue : c.waitingQueue = body :: rest)
      (hroom : c.full cfg = false) :
      Move cfg new c (({ c with
        waitingQueue := rest
        requests := c.requests.insert body.requestId ⟨workers, some handle, true, false⟩ }).note
          body.requestId [.admitted, .held, .dispatched workers handle])
  /-- An aborted or failed request begins to drain. -/
  | begins (c : Conductor) (rid : RequestId) (data : RequestData)
      (entities expected remaining : List Entity) (failureError : Option String)
      (hheld : c.requests.lookup rid = some data) (hrunning : c.draining rid = none)
      (hquiet : failureError = none → Did (c.history rid) .aborted)
      (hexpected : expected = participants data.workers)
      (hacks : ∀ e ∈ expected, e ∈ remaining ∨ Did (c.history rid) (.readsDone e)) :
      Move cfg new c (({ c with
        draining := Function.update c.draining rid
          (some ⟨remaining, participants data.workers, failureError, 500⟩)
        drainingDeadlines := c.drainingDeadlines ++ [(c.clock + cfg.drainTtl, rid)] }).note rid
          (entities.map Act.drain ++ [Act.draining expected]))
  /-- A request is answered and begins to drain. -/
  | concludes (c : Conductor) (rid : RequestId) (data : RequestData)
      (entities expected remaining : List Entity)
      (hheld : c.requests.lookup rid = some data) (hrunning : c.draining rid = none)
      (hexpected : expected = participants data.workers ∨
        expected = concludingAcks cfg data.workers)
      (hacks : ∀ e ∈ expected, e ∈ remaining ∨ Did (c.history rid) (.readsDone e)) :
      Move cfg new c (({ c with
        requests := c.requests.insert rid { data with completionSent := true }
        draining := Function.update c.draining rid
          (some ⟨remaining, participants data.workers, none, 500⟩)
        drainingDeadlines := c.drainingDeadlines ++ [(c.clock + cfg.drainTtl, rid)] }).note rid
          (.complete :: (entities.map Act.drain ++ [Act.draining expected])))
  /-- A drained request is cleaned up. -/
  | finalizes (c : Conductor) (rid : RequestId) (data : RequestData) (dr : DrainingRequest)
      (handle : RoutingHandle) (hheld : c.requests.lookup rid = some data)
      (hdraining : c.draining rid = some dr) (hrouting : data.routing = some handle)
      (hdue : dr.expectedAcks = [] ∨ ∃ since expected,
        (since, .draining expected) ∈ c.history rid ∧ since + cfg.drainTtl ≤ c.clock) :
      Move cfg new c (({ c with
        requests := c.requests.erase rid
        draining := Function.update c.draining rid none }).note rid (lastActs dr handle))

/-- Any number of moves. -/
abbrev Moves (cfg : Config) (new : Set RequestId) : Conductor → Conductor → Prop :=
  Relation.ReflTransGen (Move cfg new)

/-- Who is held, who drains and who waits fit together. -/
structure Queues (c : Conductor) : Prop where
  /-- Only held requests drain. -/
  draining_held : ∀ rid, c.requests.lookup rid = none → c.draining rid = none
  /-- A running request was not answered yet. -/
  running_open : ∀ rid data, c.requests.lookup rid = some data → c.draining rid = none →
    data.completionSent = false
  /-- Nobody waits twice. -/
  waiting_nodup : (c.waitingQueue.map NewRequest.requestId).Nodup
  /-- Who waits is not held. -/
  waiting_unheld : ∀ body ∈ c.waitingQueue, c.requests.lookup body.requestId = none

/-- The tables remember only what was taken in. -/
structure Memory (ttl : ℕ) (c : Conductor) : Prop where
  /-- Early READS_DONE were taken in. -/
  early_heard : ∀ rid, ∀ e ∈ c.earlyAcks rid, Did (c.history rid) (.readsDone e)
  /-- Early aborts were taken in. -/
  tombs_heard : ∀ rid ∈ c.earlyAbortRequests, Did (c.history rid) .aborted
  /-- A deadline is the teardown's begin and the time it has. -/
  deadlines_began : ∀ deadline ∈ c.drainingDeadlines, ∃ since expected,
    (since, Act.draining expected) ∈ c.history deadline.2 ∧
      since + ttl = deadline.1 ∧ since ≤ c.clock

/-- Every request has lived its life so far. -/
def Lives (ttl : ℕ) (c : Conductor) : Prop := ∀ rid, Lived ttl (c.history rid) (c.stage rid)

section Lives

variable {ttl : ℕ} {c x : Conductor} {rid r : RequestId} {acts : List Act}

/-- A request's stage depends on nothing else. -/
theorem stage_eq (hlookup : x.requests.lookup r = c.requests.lookup r)
    (hdraining : x.draining r = c.draining r) (hwaiting : x.isWaiting r = c.isWaiting r) :
    x.stage r = c.stage r := by
  rw [stage, stage, hlookup, hdraining, hwaiting]

/-- A held request that is not draining runs. -/
theorem stage_running {data : RequestData} (hheld : c.requests.lookup rid = some data)
    (hrunning : c.draining rid = none) : c.stage rid = .running data := by
  rw [stage, hheld, hrunning]

/-- One that is drains. -/
theorem stage_draining {data : RequestData} {dr : DrainingRequest}
    (hheld : c.requests.lookup rid = some data) (hdraining : c.draining rid = some dr) :
    c.stage rid = .draining data dr := by
  rw [stage, hheld, hdraining]

/-- One not held may wait. -/
theorem stage_waiting (hheld : c.requests.lookup rid = none) (hwaiting : c.isWaiting rid = true) :
    c.stage rid = .waiting := by
  rw [stage, hheld, hwaiting]
  rfl

/-- Or be absent. -/
theorem stage_absent (hheld : c.requests.lookup rid = none) (hwaiting : c.isWaiting rid = false) :
    c.stage rid = .absent := by
  rw [stage, hheld, hwaiting]
  rfl

/-- Acts for one request are a step of its own life and of no other. -/
theorem Lives.note {st : Stage} (hl : Lives ttl c) (htrace : x.trace = c.trace)
    (hclock : x.clock = c.clock) (hother : ∀ r, r ≠ rid → x.stage r = c.stage r)
    (hst : x.stage rid = st) (hself : Lived ttl (c.history rid ++ stamp c.clock acts) st) :
    Lives ttl (x.note rid acts) := by
  have hhistory : ∀ r, x.history r = c.history r := fun r => by rw [history, history, htrace]
  intro r
  by_cases hr : r = rid
  · rw [hr, history_note, hhistory, hclock]
    exact hst ▸ hself
  · rw [history_note_of_ne hr, hhistory]
    exact hother r hr ▸ hl r

/-- A request whose NEW_REQUEST was not taken in is absent. -/
theorem Lives.absent (hl : Lives ttl c) (hnew : ¬ Did (c.history rid) .arrived) :
    c.stage rid = .absent := by
  have hsound := (hl rid).sound
  cases hst : c.stage rid with
  | absent => rfl
  | waiting => exact absurd (hst ▸ hsound).1 hnew
  | running data => exact absurd (hst ▸ hsound).1.arrived hnew
  | draining data dr => exact absurd (hst ▸ hsound).1.arrived hnew

/-- An absent request is neither held nor waiting. -/
theorem unheld_of_absent (h : c.stage rid = .absent) :
    c.requests.lookup rid = none ∧ c.isWaiting rid = false := by
  cases hlookup : c.requests.lookup rid with
  | none =>
    cases hwaiting : c.isWaiting rid with
    | false => exact ⟨rfl, rfl⟩
    | true => exact absurd (h.symm.trans (stage_waiting hlookup hwaiting)) (by simp)
  | some data =>
    cases hdraining : c.draining rid with
    | none => exact absurd (h.symm.trans (stage_running hlookup hdraining)) (by simp)
    | some dr => exact absurd (h.symm.trans (stage_draining hlookup hdraining)) (by simp)

end Lives

section Waiting

variable {c : Conductor} {before after : List NewRequest} {body : NewRequest} {r : RequestId}

/-- A request waits if it is in the queue. -/
theorem isWaiting_iff : c.isWaiting r = true ↔ ∃ body ∈ c.waitingQueue, body.requestId = r := by
  simp [isWaiting]

/-- And only then. -/
theorem isWaiting_eq_false_iff :
    c.isWaiting r = false ↔ ∀ body ∈ c.waitingQueue, body.requestId ≠ r := by
  simp [isWaiting]

/-- Who leaves the queue is the only one whose waiting ends. -/
theorem isWaiting_of_removed {x : Conductor} (hqueue : c.waitingQueue = before ++ body :: after)
    (hx : x.waitingQueue = before ++ after) (hr : r ≠ body.requestId) :
    x.isWaiting r = c.isWaiting r := by
  rw [Bool.eq_iff_iff, isWaiting_iff, isWaiting_iff, hqueue, hx]
  constructor
  · intro h
    obtain ⟨other, hmem, heq⟩ := h
    refine ⟨other, ?_, heq⟩
    rcases List.mem_append.1 hmem with hmem | hmem
    · exact List.mem_append_left _ hmem
    · exact List.mem_append_right _ (List.mem_cons_of_mem _ hmem)
  · intro h
    obtain ⟨other, hmem, heq⟩ := h
    refine ⟨other, ?_, heq⟩
    rcases List.mem_append.1 hmem with hmem | hmem
    · exact List.mem_append_left _ hmem
    · rcases List.mem_cons.1 hmem with rfl | hmem
      · exact absurd heq.symm hr
      · exact List.mem_append_right _ hmem

variable (hq : Queues c) (hqueue : c.waitingQueue = before ++ body :: after)
include hq hqueue

/-- Who leaves the queue does not wait any more. -/
theorem not_isWaiting_of_removed {x : Conductor} (hx : x.waitingQueue = before ++ after) :
    x.isWaiting body.requestId = false := by
  have hnodup := hq.waiting_nodup
  rw [hqueue] at hnodup
  simp only [List.map_append, List.map_cons, List.nodup_append, List.nodup_cons, List.mem_cons,
    List.mem_map] at hnodup
  rw [isWaiting_eq_false_iff, hx]
  intro other hmem heq
  rcases List.mem_append.1 hmem with hmem | hmem
  · exact hnodup.2.2 _ ⟨other, hmem, rfl⟩ _ (.inl rfl) heq
  · exact hnodup.2.1.1 ⟨other, hmem, heq⟩

/-- Who is in the queue is at the waiting stage. -/
theorem stage_of_queued : c.stage body.requestId = .waiting := by
  have hmem : body ∈ c.waitingQueue := by simp [hqueue]
  exact stage_waiting (hq.waiting_unheld body hmem) (isWaiting_iff.2 ⟨body, hmem, rfl⟩)

/-- The queue without one of its requests is a queue as well. -/
theorem Queues.removed {x : Conductor} (hx : x.waitingQueue = before ++ after)
    (hrequests : x.requests = c.requests) (hdraining : x.draining = c.draining) : Queues x where
  draining_held := by
    rw [hrequests, hdraining]
    exact hq.draining_held
  running_open := by
    rw [hrequests, hdraining]
    exact hq.running_open
  waiting_nodup := by
    have hsub : (before ++ after).Sublist c.waitingQueue := by
      rw [hqueue]
      exact (List.Sublist.refl before).append (List.sublist_cons_self body after)
    rw [hx]
    exact hq.waiting_nodup.sublist (hsub.map _)
  waiting_unheld := by
    intro other hmem
    rw [hrequests]
    refine hq.waiting_unheld other ?_
    rw [hx] at hmem
    rw [hqueue]
    rcases List.mem_append.1 hmem with hmem | hmem
    · exact List.mem_append_left _ hmem
    · exact List.mem_append_right _ (List.mem_cons_of_mem _ hmem)

/-- A step of its life for a request that leaves the queue. -/
theorem Lives.removed {ttl : ℕ} {x : Conductor} {acts : List Act} (hl : Lives ttl c)
    (hx : x.waitingQueue = before ++ after) (hrequests : x.requests = c.requests)
    (hdraining : x.draining = c.draining) (htrace : x.trace = c.trace)
    (hclock : x.clock = c.clock)
    (hstep : Lived ttl (c.history body.requestId) .waiting →
      Lived ttl (c.history body.requestId ++ stamp c.clock acts) .absent) :
    Lives ttl (x.note body.requestId acts) := by
  have hmem : body ∈ c.waitingQueue := by simp [hqueue]
  have hunheld := hq.waiting_unheld body hmem
  have hgone : x.stage body.requestId = .absent :=
    stage_absent (by rw [hrequests, hunheld]) (not_isWaiting_of_removed hq hqueue hx)
  refine hl.note htrace hclock (fun r hr => ?_) hgone ?_
  · exact stage_eq (by rw [hrequests]) (by rw [hdraining]) (isWaiting_of_removed hqueue hx hr)
  · exact hstep (stage_of_queued hq hqueue ▸ hl body.requestId)

end Waiting

/-- The tables fit together. -/
structure Tables (cfg : Config) (c : Conductor) : Prop where
  /-- Every request has lived its life so far. -/
  lives : Lives cfg.drainTtl c
  /-- Who is held, who drains and who waits fit together. -/
  queues : Queues c
  /-- What is remembered was taken in. -/
  memory : Memory cfg.drainTtl c

section Moves

variable {cfg : Config} {new : Set RequestId} {c c' : Conductor}

/-- What is remembered stays so when more is done. -/
theorem Memory.note {ttl : ℕ} (hm : Memory ttl c) (rid : RequestId) (acts : List Act) :
    Memory ttl (c.note rid acts) where
  early_heard r e he := did_note (hm.early_heard r e he)
  tombs_heard r hr := did_note (hm.tombs_heard r hr)
  deadlines_began deadline hmem := by
    obtain ⟨since, expected, hbegan, htime⟩ := hm.deadlines_began deadline hmem
    exact ⟨since, expected, mem_history_note hbegan, htime⟩

/-- A new teardown's deadline is remembered from its begin. -/
theorem Memory.begins {x : Conductor} {rid : RequestId} {acts : List Act} (expected : List Entity)
    (hm : Memory cfg.drainTtl c) (htrace : x.trace = c.trace) (hclock : x.clock = c.clock)
    (hearly : x.earlyReadsDone = c.earlyReadsDone)
    (htombs : x.earlyAbortRequests = c.earlyAbortRequests)
    (hdeadlines : x.drainingDeadlines = c.drainingDeadlines ++ [(c.clock + cfg.drainTtl, rid)])
    (hmem : Act.draining expected ∈ acts) : Memory cfg.drainTtl (x.note rid acts) := by
  have hhistory : ∀ r, x.history r = c.history r := fun r => by rw [history, history, htrace]
  constructor
  · intro r e he
    have he' : e ∈ c.earlyAcks r := by
      rw [earlyAcks, ← hearly]
      exact he
    exact did_note (hhistory r ▸ hm.early_heard r e he')
  · intro r hr
    exact did_note (hhistory r ▸ hm.tombs_heard r (htombs ▸ hr))
  · intro deadline hdeadline
    change deadline ∈ x.drainingDeadlines at hdeadline
    rw [hdeadlines, List.mem_append, List.mem_singleton] at hdeadline
    rcases hdeadline with hdeadline | rfl
    · obtain ⟨since, ex, hbegan, htime, hle⟩ := hm.deadlines_began deadline hdeadline
      exact ⟨since, ex, mem_history_note (hhistory _ ▸ hbegan), htime, hclock ▸ hle⟩
    · refine ⟨c.clock, expected, ?_, rfl, hclock ▸ le_refl _⟩
      rw [history_note, hclock]
      exact List.mem_append_right _ (List.mem_map_of_mem hmem)

/-- Every move keeps what is remembered. -/
theorem Move.memory (hmove : Move cfg new c c') (hm : Memory cfg.drainTtl c) :
    Memory cfg.drainTtl c' := by
  have hsame : ∀ x : Conductor, x.trace = c.trace → x.clock = c.clock →
      x.earlyReadsDone = c.earlyReadsDone → x.earlyAbortRequests = c.earlyAbortRequests →
      x.drainingDeadlines = c.drainingDeadlines → Memory cfg.drainTtl x := by
    intro x htrace hclock hearly htombs hdeadlines
    have hhistory : ∀ r, x.history r = c.history r := fun r => by rw [history, history, htrace]
    refine ⟨fun r e he => ?_, fun r hr => ?_, fun deadline hmem => ?_⟩
    · rw [earlyAcks, hearly] at he
      exact hhistory r ▸ hm.early_heard r e he
    · exact hhistory r ▸ hm.tombs_heard r (htombs ▸ hr)
    · rw [hhistory, hclock]
      exact hm.deadlines_began deadline (hdeadlines ▸ hmem)
  have hnoted : ∀ (x : Conductor) (rid : RequestId) (acts : List Act), x.trace = c.trace →
      x.clock = c.clock → x.earlyReadsDone = c.earlyReadsDone →
      x.earlyAbortRequests = c.earlyAbortRequests → x.drainingDeadlines = c.drainingDeadlines →
      Memory cfg.drainTtl (x.note rid acts) :=
    fun x rid acts htrace hclock hearly htombs hdeadlines =>
      (hsame x htrace hclock hearly htombs hdeadlines).note rid acts
  cases hmove with
  | recalls elapsed early tombs drains reads aborts hearly htombs hdrains =>
    refine ⟨hearly, htombs, fun deadline hmem => ?_⟩
    obtain ⟨since, expected, hbegan, htime, hle⟩ := hm.deadlines_began deadline (hdrains hmem)
    exact ⟨since, expected, hbegan, htime, le_trans hle (Nat.le_add_right _ _)⟩
  | aborts rid => exact hm.note rid _
  | reads rid e => exact hm.note rid _
  | acks rid dr e hdraining hread => exact hsame _ rfl rfl rfl rfl rfl
  | arrives body hallowed hnew => exact hnoted _ _ _ rfl rfl rfl rfl rfl
  | withdraws before body after hqueue haborted => exact hnoted _ _ _ rfl rfl rfl rfl rfl
  | rejects before body after error status hqueue =>
    exact hnoted _ _ _ rfl rfl rfl rfl rfl
  | refuses body rest error status hqueue => exact hnoted _ _ _ rfl rfl rfl rfl rfl
  | bounces body rest error status hqueue hroom => exact hnoted _ _ _ rfl rfl rfl rfl rfl
  | dispatches body rest workers handle hqueue hroom =>
    exact hnoted _ _ _ rfl rfl rfl rfl rfl
  | begins rid data entities expected remaining failureError hheld hrunning hquiet hexpected hacks =>
    exact hm.begins expected rfl rfl rfl rfl rfl (by simp)
  | concludes rid data entities expected remaining hheld hrunning hexpected hacks =>
    exact hm.begins expected rfl rfl rfl rfl rfl (by simp)
  | finalizes rid data dr handle hheld hdraining hrouting hdue =>
    exact hnoted _ _ _ rfl rfl rfl rfl rfl

/-- A request that is neither held nor waiting may be queued. -/
theorem Queues.queued (hq : Queues c) (body : NewRequest) {x : Conductor}
    (hx : x.waitingQueue = c.waitingQueue ++ [body]) (hrequests : x.requests = c.requests)
    (hdraining : x.draining = c.draining) (hheld : c.requests.lookup body.requestId = none)
    (hwaiting : c.isWaiting body.requestId = false) : Queues x where
  draining_held := by
    rw [hrequests, hdraining]
    exact hq.draining_held
  running_open := by
    rw [hrequests, hdraining]
    exact hq.running_open
  waiting_nodup := by
    rw [isWaiting_eq_false_iff] at hwaiting
    rw [hx, List.map_append, List.nodup_append]
    refine ⟨hq.waiting_nodup, List.nodup_singleton _, fun r hr r' hr' heq => ?_⟩
    obtain ⟨other, hmem, rfl⟩ := List.mem_map.1 hr
    rw [List.map_singleton, List.mem_singleton] at hr'
    exact hwaiting other hmem (heq.trans hr')
  waiting_unheld := by
    intro other hmem
    rw [hrequests]
    rw [hx, List.mem_append, List.mem_singleton] at hmem
    rcases hmem with hmem | rfl
    · exact hq.waiting_unheld other hmem
    · exact hheld

/-- The tables of a held request may change as long as it is held. -/
theorem Queues.held (hq : Queues c) {x : Conductor} {rid : RequestId} {data data' : RequestData}
    (hheld : c.requests.lookup rid = some data) (hx : x.waitingQueue = c.waitingQueue)
    (hself : x.requests.lookup rid = some data')
    (hother : ∀ r, r ≠ rid → x.requests.lookup r = c.requests.lookup r)
    (hdraining : ∀ r, r ≠ rid → x.draining r = c.draining r) (hopen : x.draining rid ≠ none) :
    Queues x where
  draining_held r hr := by
    by_cases hrid : r = rid
    · rw [hrid, hself] at hr
      exact absurd hr (by simp)
    · rw [hdraining r hrid]
      exact hq.draining_held r (hother r hrid ▸ hr)
  running_open r d hr hrunning := by
    by_cases hrid : r = rid
    · exact absurd (hrid ▸ hrunning) hopen
    · rw [hother r hrid] at hr
      exact hq.running_open r d hr (hdraining r hrid ▸ hrunning)
  waiting_nodup := hx ▸ hq.waiting_nodup
  waiting_unheld body hmem := by
    rw [hx] at hmem
    have hunheld := hq.waiting_unheld body hmem
    have hne : body.requestId ≠ rid := by
      intro heq
      rw [heq, hheld] at hunheld
      exact absurd hunheld (by simp)
    rw [hother _ hne]
    exact hunheld

/-- Every move keeps the tables fitting together. -/
theorem Move.queues (hmove : Move cfg new c c') (hl : Lives cfg.drainTtl c) (hq : Queues c) :
    Queues c' := by
  cases hmove with
  | recalls elapsed early tombs drains reads aborts hearly htombs hdrains => exact ⟨hq.1, hq.2, hq.3, hq.4⟩
  | aborts rid => exact ⟨hq.1, hq.2, hq.3, hq.4⟩
  | reads rid e => exact ⟨hq.1, hq.2, hq.3, hq.4⟩
  | acks rid dr e hdraining hread =>
    cases hheld : c.requests.lookup rid with
    | none => exact absurd ((hq.draining_held rid hheld).symm.trans hdraining) (by simp)
    | some data =>
      exact hq.held hheld rfl hheld (fun r _ => rfl) (fun r hr => Function.update_of_ne hr _ _)
        (by simp)
  | arrives body hallowed hnew =>
    have habsent := unheld_of_absent (hl.absent hnew)
    exact hq.queued body rfl rfl rfl habsent.1 habsent.2
  | withdraws before body after hqueue haborted => exact hq.removed hqueue rfl rfl rfl
  | rejects before body after error status hqueue => exact hq.removed hqueue rfl rfl rfl
  | refuses body rest error status hqueue =>
    have hfirst : c.waitingQueue = [] ++ body :: rest := hqueue
    exact hq.removed hfirst rfl rfl rfl
  | bounces body rest error status hqueue hroom =>
    have hfirst : c.waitingQueue = [] ++ body :: rest := hqueue
    exact hq.removed hfirst rfl rfl rfl
  | dispatches body rest workers handle hqueue hroom =>
    have hfirst : c.waitingQueue = [] ++ body :: rest := hqueue
    have hrest : Queues { c with waitingQueue := rest } := hq.removed hfirst rfl rfl rfl
    have hgone : ({ c with waitingQueue := rest } : Conductor).isWaiting body.requestId = false :=
      not_isWaiting_of_removed hq hfirst rfl
    refine ⟨fun r hr => ?_, fun r d hr hrunning => ?_, hrest.waiting_nodup, fun other hmem => ?_⟩
    · exact hq.draining_held r (AList.lookup_insert_eq_none.1 hr).2
    · by_cases hrid : r = body.requestId
      · subst hrid
        have hd := Option.some.inj ((AList.lookup_insert c.requests).symm.trans hr)
        exact hd ▸ rfl
      · exact hq.running_open r d ((AList.lookup_insert_ne hrid).symm.trans hr) hrunning
    · have hne : other.requestId ≠ body.requestId := isWaiting_eq_false_iff.1 hgone other hmem
      exact (AList.lookup_insert_ne hne).trans (hrest.waiting_unheld other hmem)
  | begins rid data entities expected remaining failureError hheld hrunning hquiet hexpected hacks =>
    exact hq.held hheld rfl hheld (fun r _ => rfl) (fun r hr => Function.update_of_ne hr _ _)
      (by simp [note])
  | concludes rid data entities expected remaining hheld hrunning hexpected hacks =>
    exact hq.held hheld rfl (AList.lookup_insert c.requests)
      (fun r hr => AList.lookup_insert_ne hr) (fun r hr => Function.update_of_ne hr _ _)
      (by simp [note])
  | finalizes rid data dr handle hheld hdraining hrouting hdue =>
    refine ⟨fun r hr => ?_, fun r d hr hrunning => ?_, hq.waiting_nodup, fun other hmem => ?_⟩
    · by_cases hrid : r = rid
      · simp [note, hrid]
      · refine (Function.update_of_ne hrid _ _).trans (hq.draining_held r ?_)
        exact (AList.lookup_erase_ne hrid).symm.trans hr
    · by_cases hrid : r = rid
      · subst hrid
        exact absurd ((AList.lookup_erase r c.requests).symm.trans hr) (by simp)
      · exact hq.running_open r d ((AList.lookup_erase_ne hrid).symm.trans hr)
          ((Function.update_of_ne hrid _ _).symm.trans hrunning)
    · by_cases hrid : other.requestId = rid
      · rw [hrid]
        exact AList.lookup_erase rid c.requests
      · exact (AList.lookup_erase_ne hrid).trans (hq.waiting_unheld other hmem)

/-- Acts of one moment split where one likes. -/
theorem lived_stamp {ttl t : ℕ} {h : History} {st : Stage} {acts more : List Act}
    (hl : Lived ttl (h ++ stamp t acts ++ stamp t more) st) :
    Lived ttl (h ++ stamp t (acts ++ more)) st := by
  simpa [stamp] using hl

/-- A life up to the stage it has. -/
theorem lived_of_stage {ttl : ℕ} {rid : RequestId} {st : Stage} (hst : c.stage rid = st)
    (hl : Lived ttl (c.history rid) st) : Lived ttl (c.history rid) (c.stage rid) := by
  rw [hst]
  exact hl

/-- Every move is a step of the life of one request. -/
theorem Move.lives (hmove : Move cfg new c c') (ht : Tables cfg c) : Lives cfg.drainTtl c' := by
  have hl := ht.lives
  have hq := ht.queues
  cases hmove with
  | recalls elapsed early tombs drains reads aborts hearly htombs hdrains => exact hl
  | aborts rid => exact hl.note rfl rfl (fun _ _ => rfl) rfl ((hl rid).aborts c.clock)
  | reads rid e => exact hl.note rfl rfl (fun _ _ => rfl) rfl ((hl rid).reads c.clock e)
  | acks rid dr e hdraining hread =>
    cases hheld : c.requests.lookup rid with
    | none => exact absurd ((hq.draining_held rid hheld).symm.trans hdraining) (by simp)
    | some data =>
      intro r
      by_cases hr : r = rid
      · subst hr
        have hlife := hl r
        rw [stage_draining hheld hdraining] at hlife
        refine lived_of_stage (stage_draining hheld (Function.update_self r _ _)) ?_
        exact hlife.acks e hread
      · have hsame : ∀ x : Conductor, x.requests = c.requests →
            x.waitingQueue = c.waitingQueue → x.draining r = c.draining r →
            x.stage r = c.stage r := fun x hrequests hqueue hdraining =>
          stage_eq (by rw [hrequests]) hdraining (by rw [isWaiting, isWaiting, hqueue])
        exact lived_of_stage (hsame _ rfl rfl (Function.update_of_ne hr _ _)) (hl r)
  | arrives body hallowed hnew =>
    have habsent := hl.absent hnew
    have hnone := unheld_of_absent habsent
    refine hl.note rfl rfl (fun r hr => stage_eq rfl rfl ?_)
      (stage_waiting hnone.1 (isWaiting_iff.2 ⟨body, by simp, rfl⟩)) ?_
    · rw [Bool.eq_iff_iff, isWaiting_iff, isWaiting_iff]
      constructor
      · intro h
        obtain ⟨other, hmem, heq⟩ := h
        rcases List.mem_append.1 hmem with hmem | hmem
        · exact ⟨other, hmem, heq⟩
        · exact absurd (heq.symm.trans (List.mem_singleton.1 hmem ▸ rfl)) hr
      · intro h
        obtain ⟨other, hmem, heq⟩ := h
        exact ⟨other, List.mem_append_left _ hmem, heq⟩
    · exact (habsent ▸ hl body.requestId).arrives c.clock hnew
  | withdraws before body after hqueue haborted =>
    exact hl.removed hq hqueue rfl rfl rfl rfl rfl fun hlife => hlife.withdrawn c.clock haborted
  | rejects before body after error status hqueue =>
    exact hl.removed hq hqueue rfl rfl rfl rfl rfl fun hlife =>
      hlife.rejected c.clock error status
  | refuses body rest error status hqueue =>
    have hfirst : c.waitingQueue = [] ++ body :: rest := hqueue
    exact hl.removed hq hfirst rfl rfl rfl rfl rfl fun hlife =>
      lived_stamp ((hlife.admitted c.clock).rejected c.clock error status)
  | bounces body rest error status hqueue hroom =>
    have hfirst : c.waitingQueue = [] ++ body :: rest := hqueue
    exact hl.removed hq hfirst rfl rfl rfl rfl rfl fun hlife =>
      lived_stamp (lived_stamp
        (((hlife.admitted c.clock).bounced c.clock).rejected c.clock error status))
  | dispatches body rest workers handle hqueue hroom =>
    have hfirst : c.waitingQueue = [] ++ body :: rest := hqueue
    have hunheld := hq.waiting_unheld body (by simp [hqueue])
    refine hl.note rfl rfl (fun r hr => stage_eq ?_ rfl ?_)
      (stage_running (AList.lookup_insert c.requests) (hq.draining_held _ hunheld)) ?_
    · exact AList.lookup_insert_ne hr
    · exact isWaiting_of_removed hfirst rfl hr
    · have hlife := hl body.requestId
      rw [stage_of_queued hq hfirst] at hlife
      exact lived_stamp ((hlife.admitted c.clock).dispatched c.clock workers handle)
  | begins rid data entities expected remaining failureError hheld hrunning hquiet hexpected hacks =>
    refine hl.note rfl rfl (fun r hr => stage_eq rfl (Function.update_of_ne hr _ _) rfl)
      (stage_draining hheld (Function.update_self rid _ _)) ?_
    have hlife := hl rid
    rw [stage_running hheld hrunning] at hlife
    have hopen := hq.running_open rid data hheld hrunning
    have hdrains := hlife.drains c.clock entities
    refine lived_stamp (hdrains.begins c.clock expected remaining failureError 500 ?_ ?_ ?_)
    · exact fun hnone => .inr ((did_append_stamp _ _ _ _).2 (.inl (hquiet hnone)))
    · exact fun _ => hopen
    · exact fun e he => (hacks e he).imp_right fun hx => (did_append_stamp _ _ _ _).2 (.inl hx)
  | concludes rid data entities expected remaining hheld hrunning hexpected hacks =>
    refine hl.note rfl rfl (fun r hr => stage_eq (AList.lookup_insert_ne hr)
      (Function.update_of_ne hr _ _) rfl)
      (stage_draining (AList.lookup_insert c.requests) (Function.update_self rid _ _)) ?_
    have hlife := hl rid
    rw [stage_running hheld hrunning] at hlife
    have hopen := hq.running_open rid data hheld hrunning
    have hdrains := (hlife.completes c.clock hopen).drains c.clock entities
    have hmem : ∀ a, Did (c.history rid) a →
        Did (c.history rid ++ stamp c.clock [.complete] ++ stamp c.clock (entities.map .drain)) a :=
      fun a ha => (did_append_stamp _ _ _ _).2 (.inl ((did_append_stamp _ _ _ _).2 (.inl ha)))
    have hbegins := hdrains.begins c.clock expected remaining none 500 (fun _ => .inl rfl)
      (fun h => absurd rfl h) (fun e he => (hacks e he).imp_right (hmem _))
    simpa [stamp] using hbegins
  | finalizes rid data dr handle hheld hdraining hrouting hdue =>
    have hwaiting : c.isWaiting rid = false := by
      rw [isWaiting_eq_false_iff]
      intro body hmem heq
      have hunheld := hq.waiting_unheld body hmem
      rw [heq, hheld] at hunheld
      exact absurd hunheld (by simp)
    refine hl.note rfl rfl (fun r hr => stage_eq (AList.lookup_erase_ne hr)
      (Function.update_of_ne hr _ _) rfl)
      (stage_absent (AList.lookup_erase rid c.requests) hwaiting) ?_
    have hlife := hl rid
    rw [stage_draining hheld hdraining] at hlife
    exact hlife.finalizes c.clock hrouting hdue

/-- Every move keeps the tables. -/
theorem Move.tables (hmove : Move cfg new c c') (ht : Tables cfg c) : Tables cfg c' where
  lives := hmove.lives ht
  queues := hmove.queues ht.lives ht.queues
  memory := hmove.memory ht.memory

/-- Any number of moves keeps the tables. -/
theorem Moves.tables (hmoves : Moves cfg new c c') (ht : Tables cfg c) : Tables cfg c' := by
  induction hmoves with
  | refl => exact ht
  | tail _ hmove ih => exact hmove.tables ih

/-- A teardown waits for everyone that may hold something of the request, or, once its
client was sent the result, for whoever may still read. -/
def Expects (cfg : Config) (before : History) (entry : ℕ × Act) : Prop :=
  ∀ expected, entry.2 = .draining expected → ∃ workers handle,
    dispatches before = [(workers, handle)] ∧ (expected = participants workers ∨
      Did before .complete ∧ expected = concludingAcks cfg workers)

/-- Every teardown waits for the right ones. -/
def Expecting (cfg : Config) (c : Conductor) : Prop :=
  ∀ rid, Always (Expects cfg) (c.history rid)

/-- Acts that put up no barrier expect nobody. -/
theorem Expecting.note {x : Conductor} {rid : RequestId} {acts : List Act} (he : Expecting cfg c)
    (htrace : x.trace = c.trace) (hno : ∀ expected, Act.draining expected ∉ acts) :
    Expecting cfg (x.note rid acts) := by
  have hhistory : ∀ r, x.history r = c.history r := fun r => by rw [history, history, htrace]
  intro r
  by_cases hr : r = rid
  · rw [hr, history_note, hhistory]
    refine (he rid).append fun before entry after heq expected hexpected => ?_
    exact absurd (hexpected ▸ (stamp_entry heq).2) (hno expected)
  · rw [history_note_of_ne hr, hhistory]
    exact he r

/-- A barrier put up last expects the right ones. -/
theorem Expecting.begins {x : Conductor} {rid : RequestId} {acts : List Act}
    {expected : List Entity} {workers : List ℕ} {handle : RoutingHandle} (he : Expecting cfg c)
    (htrace : x.trace = c.trace) (hno : ∀ expected, Act.draining expected ∉ acts)
    (hplaced : dispatches (c.history rid ++ stamp c.clock acts) = [(workers, handle)])
    (hclock : x.clock = c.clock)
    (hright : expected = participants workers ∨
      Act.complete ∈ acts ∧ expected = concludingAcks cfg workers) :
    Expecting cfg (x.note rid (acts ++ [.draining expected])) := by
  have hacts : Expecting cfg (x.note rid acts) := he.note htrace hno
  rw [← note_note]
  intro r
  by_cases hr : r = rid
  · subst hr
    rw [history_note]
    refine (hacts r).append fun before entry after heq found hfound => ?_
    obtain ⟨hbefore, hentry⟩ : before = [] ∧ entry.2 = .draining expected := by
      cases before with
      | nil => exact ⟨rfl, by simpa using (stamp_entry heq).2⟩
      | cons first before => simp [stamp] at heq
    have hsame : found = expected := by
      rw [hentry] at hfound
      exact (Act.draining.inj hfound).symm
    have hhistory : (x.note r acts).history r = c.history r ++ stamp c.clock acts := by
      rw [history_note, hclock, history, history, htrace]
    rw [hbefore, List.append_nil, hhistory, hsame]
    refine ⟨workers, handle, hplaced, hright.imp_right fun h => ⟨?_, h.2⟩⟩
    exact (did_append_stamp _ _ _ _).2 (.inr h.1)
  · rw [history_note_of_ne hr]
    exact hacts r

/-- A running or draining request is placed once, on its workers. -/
theorem Lives.placed {ttl : ℕ} {rid : RequestId} {data : RequestData} (hl : Lives ttl c)
    (hheld : c.requests.lookup rid = some data) : Placed (c.history rid) data := by
  have hsound := (hl rid).sound
  cases hdraining : c.draining rid with
  | none =>
    rw [stage_running hheld hdraining] at hsound
    exact hsound.1
  | some dr =>
    rw [stage_draining hheld hdraining] at hsound
    exact hsound.1

/-- Every move has its teardown wait for the right ones. -/
theorem Move.expecting (hmove : Move cfg new c c') (ht : Tables cfg c) (he : Expecting cfg c) :
    Expecting cfg c' := by
  have hdrains : ∀ entities : List Entity, (entities.map Act.drain).filterMap Act.placement = [] := by
    intro entities
    rw [List.filterMap_eq_nil_iff]
    intro a ha
    obtain ⟨e, -, rfl⟩ := List.mem_map.1 ha
    rfl
  cases hmove with
  | recalls elapsed early tombs drains reads aborts hearly htombs hdrains => exact he
  | acks rid dr e hdraining hread => exact he
  | begins rid data entities expected remaining failureError hheld hrunning hquiet hexpected hacks =>
    obtain ⟨handle, -, hplaced⟩ := (ht.lives.placed hheld).placed
    have hall : Teardown.dispatches (c.history rid ++ stamp c.clock (entities.map Act.drain)) =
        [(data.workers, handle)] := by
      rw [dispatches_append_stamp, hplaced, hdrains, List.append_nil]
    exact he.begins rfl (by simp) hall rfl (.inl hexpected)
  | concludes rid data entities expected remaining hheld hrunning hexpected hacks =>
    obtain ⟨handle, -, hplaced⟩ := (ht.lives.placed hheld).placed
    have hall : Teardown.dispatches (c.history rid ++ stamp c.clock (.complete :: entities.map Act.drain)) =
        [(data.workers, handle)] := by
      rw [dispatches_append_stamp, hplaced, List.filterMap_cons_none rfl, hdrains, List.append_nil]
    rw [← List.cons_append]
    exact he.begins rfl (by simp) hall rfl (hexpected.imp_right fun h => ⟨by simp, h⟩)
  | finalizes rid data dr handle hheld hdraining hrouting hdue =>
    refine he.note rfl fun expected hmem => ?_
    cases hfail : dr.failureError <;> simp [lastActs, DrainingRequest.lastWord, hfail] at hmem
  | _ => exact he.note rfl (by simp)

/-- So does any number of moves. -/
theorem Moves.expecting (hmoves : Moves cfg new c c') (ht : Tables cfg c) (he : Expecting cfg c) :
    Expecting cfg c' := by
  induction hmoves with
  | refl => exact he
  | tail hmoves hmove ih => exact hmove.expecting (Moves.tables hmoves ht) ih

/-- Moves only add to the trace, and time does not go back. -/
theorem Move.grows (hmove : Move cfg new c c') : c.trace <+: c'.trace ∧ c.clock ≤ c'.clock := by
  cases hmove with
  | recalls elapsed early tombs drains reads aborts hearly htombs hdrains =>
    exact ⟨List.prefix_refl _, Nat.le_add_right _ _⟩
  | acks rid dr e hdraining hread => exact ⟨List.prefix_refl _, le_refl _⟩
  | _ => exact ⟨List.prefix_append _ _, le_refl _⟩

/-- Any number of moves only adds to every history. -/
theorem Moves.grows (hmoves : Moves cfg new c c') :
    (∀ rid, c.history rid <+: c'.history rid) ∧ c.clock ≤ c'.clock := by
  induction hmoves with
  | refl => exact ⟨fun _ => List.prefix_refl _, le_refl _⟩
  | tail _ hmove ih =>
    exact ⟨fun rid => (ih.1 rid).trans (hmove.grows.1.filterMap _), ih.2.trans hmove.grows.2⟩

/-- Nothing arrives but what may be new. -/
theorem Move.arrived {rid : RequestId} (hmove : Move cfg new c c')
    (h : Did (c'.history rid) .arrived) : Did (c.history rid) .arrived ∨ rid ∈ new := by
  have hnote : ∀ (x : Conductor) (r : RequestId) (acts : List Act), x.trace = c.trace →
      (Act.arrived ∈ acts → r ∈ new) → Did ((x.note r acts).history rid) .arrived →
      Did (c.history rid) .arrived ∨ rid ∈ new := by
    intro x r acts htrace hacts hdid
    have hhistory : x.history rid = c.history rid := by rw [history, history, htrace]
    by_cases hr : rid = r
    · subst hr
      rw [history_note, did_append_stamp, hhistory] at hdid
      exact hdid.imp_right hacts
    · rw [history_note_of_ne hr, hhistory] at hdid
      exact .inl hdid
  cases hmove with
  | recalls elapsed early tombs drains reads aborts hearly htombs hdrains => exact .inl h
  | acks r dr e hdraining hread => exact .inl h
  | arrives body hallowed hnew => exact hnote _ _ _ rfl (fun _ => hallowed) h
  | finalizes r data dr handle hheld hdraining hrouting hdue =>
    refine hnote _ _ _ rfl (fun hmem => ?_) h
    cases hfail : dr.failureError <;> simp [lastActs, DrainingRequest.lastWord, hfail] at hmem
  | _ => exact hnote _ _ _ rfl (fun hmem => by simp at hmem) h

/-- Nothing arrives in any number of moves but what may be new. -/
theorem Moves.arrived {rid : RequestId} (hmoves : Moves cfg new c c')
    (h : Did (c'.history rid) .arrived) : Did (c.history rid) .arrived ∨ rid ∈ new := by
  induction hmoves with
  | refl => exact .inl h
  | tail _ hmove ih => exact (hmove.arrived h).elim ih .inr

/-- The tables of a fresh conductor. -/
theorem tables_start : Tables cfg start where
  lives _ := .unborn
  queues := ⟨fun _ _ => rfl, fun _ _ h => by simp [start] at h, by simp [start], by simp [start]⟩
  memory := ⟨by simp [start, earlyAcks], by simp [start], by simp [start]⟩

end Moves

end Mstar.Teardown
