import Mstar.ConductorMoves

/-!
# Slots and turns

The trace of a conductor says who held a slot when and in which order
requests came and were admitted. No move holds more requests than the cap at
any moment, and none admits out of turn.
-/

namespace Mstar.Teardown

open Conductor

/-- Who did an act, in the order it was done. -/
def requestsOf (a : Act) (trace : List Mark) : List RequestId :=
  (trace.filter (·.act = a)).map Mark.request

/-- How often an act was done. -/
def times (a : Act) (trace : List Mark) : ℕ := trace.countP (·.act = a)

section Trace

variable {c : Conductor} {rid : RequestId} (a : Act) (acts : List Act)

/-- How often a note's actions were taken. -/
@[simp] theorem times_note :
    times a (c.note rid acts).trace = times a c.trace + acts.count a := by
  simp only [times, note, List.countP_append, List.countP_map, List.count]
  congr 1

/-- And for whom. -/
@[simp] theorem requestsOf_note : requestsOf a (c.note rid acts).trace =
    requestsOf a c.trace ++ List.replicate (acts.count a) rid := by
  have hall : ∀ acts : List Act, ((acts.map (Mark.mk c.clock rid)).filter (·.act = a)).map
      Mark.request = List.replicate (acts.count a) rid := by
    intro acts
    induction acts with
    | nil => simp
    | cons b acts ih =>
      by_cases hb : b = a
      · simp [hb, ih, List.replicate_succ]
      · simp [hb, ih]
  rw [requestsOf, note, List.filter_append, List.map_append, hall]
  rfl

end Trace

/-- Slots are never overbooked, and turns are kept. -/
structure Slots (cfg : Config) (c : Conductor) : Prop where
  /-- At no moment were more requests held than the cap allows. -/
  bounded : ∀ cap, cfg.maxConcurrentRequests = some cap → ∀ before, before <+: c.trace →
    times .held before ≤ times .dropped before + cap
  /-- Who was held and not dropped is in the table. -/
  balance : times .held c.trace = times .dropped c.trace + c.inFlight
  /-- Requests were admitted in the order they came, and the queue is next. -/
  turns : (requestsOf .admitted c.trace ++ c.waitingQueue.map NewRequest.requestId).Sublist
    (requestsOf .arrived c.trace)

section Slots

variable {cfg : Config} {new : Set RequestId} {c c' : Conductor}

/-- The table itself is within the cap. -/
theorem Slots.inFlight_le (hs : Slots cfg c) {cap : ℕ}
    (hcap : cfg.maxConcurrentRequests = some cap) : c.inFlight ≤ cap := by
  have hbounded := hs.bounded cap hcap c.trace (List.prefix_refl _)
  have hbalance := hs.balance
  omega

/-- With a slot free the table is below the cap. -/
theorem inFlight_lt_of_room (hroom : c.full cfg = false) {cap : ℕ}
    (hcap : cfg.maxConcurrentRequests = some cap) : c.inFlight < cap := by
  simpa [full, hcap] using hroom

/-- Acts that hold no more than there is room for stay within the cap. -/
theorem Slots.bounded_note (hs : Slots cfg c) {x : Conductor} (htrace : x.trace = c.trace)
    (rid : RequestId) (acts : List Act)
    (hroom : ∀ cap, cfg.maxConcurrentRequests = some cap → c.inFlight + acts.count .held ≤ cap) :
    ∀ cap, cfg.maxConcurrentRequests = some cap → ∀ before, before <+: (x.note rid acts).trace →
      times .held before ≤ times .dropped before + cap := by
  intro cap hcap before hbefore
  obtain ⟨after, heq⟩ := hbefore
  have hbalance := hs.balance
  have hfits := hroom cap hcap
  rw [note, htrace, List.append_eq_append_iff] at heq
  rcases heq with ⟨rest, htraced, _⟩ | ⟨own, rfl, hown⟩
  · exact hs.bounded cap hcap before ⟨rest, htraced.symm⟩
  · have hheld : times .held own ≤ acts.count .held := by
      have hall : times .held (acts.map (Mark.mk x.clock rid)) = acts.count .held := by
        simp only [times, List.countP_map, List.count]
        congr 1
      rw [← hall, hown, times, times, List.countP_append]
      exact Nat.le_add_right _ _
    have hsplit : ∀ a, times a (c.trace ++ own) = times a c.trace + times a own := by
      simp [times]
    rw [hsplit, hsplit]
    omega

/-- Acts that neither hold, drop, admit nor let in leave the slots. -/
theorem Slots.plain (hs : Slots cfg c) {x : Conductor} (rid : RequestId) (acts : List Act)
    (htrace : x.trace = c.trace) (hinFlight : x.inFlight = c.inFlight)
    (hqueue : x.waitingQueue.Sublist c.waitingQueue)
    (hno : ∀ a ∈ [Act.held, .dropped, .admitted, .arrived], a ∉ acts) :
    Slots cfg (x.note rid acts) := by
  have hcount : ∀ a ∈ [Act.held, .dropped, .admitted, .arrived], acts.count a = 0 := fun a ha =>
    List.count_eq_zero.2 (hno a ha)
  constructor
  · refine hs.bounded_note htrace rid acts fun cap hcap => ?_
    rw [hcount .held (by simp)]
    exact hs.inFlight_le hcap
  · rw [times_note, times_note, htrace, hcount .held (by simp), hcount .dropped (by simp)]
    exact hs.balance.trans (congrArg _ hinFlight.symm)
  · rw [requestsOf_note, requestsOf_note, htrace, hcount .admitted (by simp),
      hcount .arrived (by simp)]
    simp only [List.replicate_zero, List.append_nil]
    exact ((List.Sublist.refl _).append (hqueue.map _)).trans hs.turns

/-- The first of the queue takes its turn. -/
theorem Slots.admits (hs : Slots cfg c) {x : Conductor} {body : NewRequest}
    {rest : List NewRequest} {acts : List Act} (hqueue : c.waitingQueue = body :: rest)
    (htrace : x.trace = c.trace) (hx : x.waitingQueue = rest)
    (hroom : acts.count .held = 0 ∨ acts.count .held = 1 ∧ c.full cfg = false)
    (hbalance : c.inFlight + acts.count .held = x.inFlight + acts.count .dropped)
    (hadmitted : acts.count .admitted = 1) (harrived : acts.count .arrived = 0) :
    Slots cfg (x.note body.requestId acts) := by
  constructor
  · refine hs.bounded_note htrace _ acts fun cap hcap => ?_
    rcases hroom with hzero | ⟨hone, hfree⟩
    · rw [hzero]
      exact hs.inFlight_le hcap
    · rw [hone]
      exact inFlight_lt_of_room hfree hcap
  · have hbefore := hs.balance
    rw [times_note, times_note, htrace]
    change times .held c.trace + acts.count .held =
      times .dropped c.trace + acts.count .dropped + x.inFlight
    omega
  · have hturns := hs.turns
    rw [hqueue] at hturns
    rw [requestsOf_note, requestsOf_note, htrace, hadmitted, harrived]
    change (requestsOf .admitted c.trace ++ List.replicate 1 body.requestId ++
      x.waitingQueue.map NewRequest.requestId).Sublist _
    simpa [hx] using hturns

/-- A held request leaves one entry less, and its update leaves as many. -/
theorem length_of_held {rid : RequestId} {data : RequestData}
    (hheld : c.requests.lookup rid = some data) :
    (∀ data', (c.requests.insert rid data').entries.length = c.requests.entries.length) ∧
      (c.requests.erase rid).entries.length + 1 = c.requests.entries.length := by
  have hmem : rid ∈ c.requests.keys := by
    have hin : rid ∈ c.requests := AList.lookup_isSome.1 (by simp [hheld])
    exact AList.mem_keys.1 hin
  have hlength : ∀ l : AList fun _ : RequestId => RequestData,
      l.keys.length = l.entries.length := fun l => List.length_map _
  have herase := List.length_erase_of_mem hmem
  have hpos := List.length_pos_of_mem hmem
  constructor
  · intro data'
    rw [← hlength, ← hlength, AList.keys_insert, List.length_cons]
    omega
  · rw [← hlength, ← hlength, AList.keys_erase]
    omega

/-- A new request is one entry more. -/
theorem length_insert_of_new {rid : RequestId} (hnew : c.requests.lookup rid = none)
    (data : RequestData) :
    (c.requests.insert rid data).entries.length = c.requests.entries.length + 1 := by
  rw [AList.entries_insert_of_notMem (AList.lookup_eq_none.1 hnew), List.length_cons]

/-- Every move keeps the slots. -/
theorem Move.slots (hmove : Move cfg new c c') (hq : Queues c) (hs : Slots cfg c) : Slots cfg c' := by
  cases hmove with
  | recalls elapsed early tombs drains reads aborts hearly htombs hdrains => exact ⟨hs.1, hs.2, hs.3⟩
  | aborts rid => exact hs.plain rid _ rfl rfl (List.Sublist.refl _) (by simp)
  | reads rid e => exact hs.plain rid _ rfl rfl (List.Sublist.refl _) (by simp)
  | acks rid dr e hdraining hread => exact ⟨hs.1, hs.2, hs.3⟩
  | arrives body hallowed hnew =>
    constructor
    · refine hs.bounded_note rfl _ _ fun cap hcap => ?_
      simpa using hs.inFlight_le hcap
    · rw [times_note, times_note]
      exact hs.balance
    · have hturns := hs.turns.append (List.Sublist.refl [body.requestId])
      rw [requestsOf_note, requestsOf_note]
      simpa [note] using hturns
  | withdraws before body after hqueue haborted =>
    refine hs.plain _ _ rfl rfl ?_ (by simp)
    exact hqueue ▸ (List.Sublist.refl before).append (List.sublist_cons_self body after)
  | rejects before body after error status hqueue =>
    refine hs.plain _ _ rfl rfl ?_ (by simp)
    exact hqueue ▸ (List.Sublist.refl before).append (List.sublist_cons_self body after)
  | refuses body rest error status hqueue =>
    exact hs.admits hqueue rfl rfl (.inl (by simp)) (by simp [inFlight]) (by simp) (by simp)
  | bounces body rest error status hqueue hroom =>
    exact hs.admits hqueue rfl rfl (.inr ⟨by simp, hroom⟩) (by simp [inFlight]) (by simp) (by simp)
  | dispatches body rest workers handle hqueue hroom =>
    have hunheld := hq.waiting_unheld body (by simp [hqueue])
    refine hs.admits hqueue rfl rfl (.inr ⟨by simp, hroom⟩) ?_ (by simp) (by simp)
    simpa [inFlight] using (length_insert_of_new hunheld ⟨workers, some handle, true, false⟩).symm
  | begins rid data entities expected remaining failureError hheld hrunning hquiet hexpected hacks =>
    exact hs.plain rid _ rfl rfl (List.Sublist.refl _) (by simp)
  | concludes rid data entities expected remaining hheld hrunning hexpected hacks =>
    exact hs.plain rid _ rfl ((length_of_held hheld).1 _) (List.Sublist.refl _) (by simp)
  | finalizes rid data dr handle hheld hdraining hrouting hdue =>
    have hcounts : (lastActs dr handle).count .held = 0 ∧
        (lastActs dr handle).count .dropped = 1 ∧ (lastActs dr handle).count .admitted = 0 ∧
        (lastActs dr handle).count .arrived = 0 := by
      have hremoves : ∀ a, (∀ e, a ≠ Act.remove e) → (dr.participants.map Act.remove).count a = 0 :=
        fun a ha => List.count_eq_zero.2 fun hmem => by
          obtain ⟨e, -, he⟩ := List.mem_map.1 hmem
          exact ha e he.symm
      cases hfail : dr.failureError <;>
        simp [lastActs, DrainingRequest.lastWord, hfail, hremoves]
    have hfewer := (length_of_held hheld).2
    have hbalance := hs.balance
    constructor
    · refine hs.bounded_note rfl _ _ fun cap hcap => ?_
      rw [hcounts.1]
      exact hs.inFlight_le hcap
    · rw [times_note, times_note, hcounts.1, hcounts.2.1]
      change times .held c.trace + 0 =
        times .dropped c.trace + 1 + (c.requests.erase rid).entries.length
      change times .held c.trace = times .dropped c.trace + c.requests.entries.length at hbalance
      omega
    · rw [requestsOf_note, requestsOf_note, hcounts.2.2.1, hcounts.2.2.2]
      simpa [note] using hs.turns

/-- Any number of moves keeps the slots. -/
theorem Moves.slots (hmoves : Moves cfg new c c') (ht : Tables cfg c) (hs : Slots cfg c) :
    Slots cfg c' := by
  induction hmoves with
  | refl => exact hs
  | tail hmoves hmove ih => exact hmove.slots (Moves.tables hmoves ht).queues ih

/-- The slots of a fresh conductor. -/
theorem slots_start : Slots cfg start where
  bounded cap _ before hbefore := by
    have hnil : before = [] := List.prefix_nil.1 hbefore
    simp [hnil, times]
  balance := rfl
  turns := by simp [start, requestsOf]

end Slots

end Mstar.Teardown
