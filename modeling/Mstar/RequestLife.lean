import Mstar.Conductor
import Mstar.Histories

/-!
# The life of one request

Between the tables of the conductor one request goes through few stages: it
waits, runs, drains and is gone. What is done for it on the way makes its
history, and everything that is promised of a single request holds of every
history such a life can have.
-/

namespace Mstar.Teardown

/-- Where a request stands. -/
inductive Stage where
  /-- Not seen yet, or gone. -/
  | absent
  /-- Taken in, not dispatched. -/
  | waiting
  /-- Dispatched. -/
  | running (data : RequestData)
  /-- Being torn down. -/
  | draining (data : RequestData) (dr : DrainingRequest)

/-- What was done for one request, and when. -/
abbrev History := List (ℕ × Act)

/-- Acts of one moment. -/
def stamp (t : ℕ) (acts : List Act) : History := acts.map (Prod.mk t)

/-- The act is in the history. -/
def Did (h : History) (a : Act) : Prop := ∃ t, (t, a) ∈ h

/-- An answer to the client. -/
def Act.isAnswer : Act → Bool
  | .complete => true
  | .failed _ _ => true
  | _ => false

/-- How often the client was answered. -/
def answers (h : History) : ℕ := h.countP (·.2.isAnswer)

/-- How many REMOVE_REQUESTs an entity was sent. -/
def removals (h : History) (e : Entity) : ℕ := h.countP (·.2 = .remove e)

/-- Where an act places the request. -/
def Act.placement : Act → Option (List ℕ × RoutingHandle)
  | .dispatched workers handle => some (workers, handle)
  | _ => none

/-- What an act gives back to the router. -/
def Act.release : Act → Option RoutingHandle
  | .released handle => some handle
  | _ => none

/-- The placements of the request. -/
def dispatches (h : History) : List (List ℕ × RoutingHandle) := h.filterMap (·.2.placement)

/-- The releases of what the router recorded. -/
def releases (h : History) : List RoutingHandle := h.filterMap (·.2.release)

/-- What is done when a teardown ends. -/
def lastActs (dr : DrainingRequest) (handle : RoutingHandle) : List Act :=
  dr.participants.map .remove ++ dr.lastWord ++ [.dropped, .released handle]

/-- The histories that lead a request to a stage. -/
inductive Lived (ttl : ℕ) : History → Stage → Prop where
  /-- Nothing was heard of it. -/
  | unborn : Lived ttl [] .absent
  /-- Its client's abort was taken in. -/
  | aborts {h st} (t : ℕ) : Lived ttl h st → Lived ttl (h ++ stamp t [.aborted]) st
  /-- A READS_DONE was taken in. -/
  | reads {h st} (t : ℕ) (e : Entity) : Lived ttl h st →
      Lived ttl (h ++ stamp t [.readsDone e]) st
  /-- A READS_DONE it waited for is struck off. -/
  | acks {h d dr} (e : Entity) : Lived ttl h (.draining d dr) → Did h (.readsDone e) →
      Lived ttl h (.draining d { dr with expectedAcks := dr.expectedAcks.filter (· ≠ e) })
  /-- Its NEW_REQUEST was taken in. -/
  | arrives {h} (t : ℕ) : Lived ttl h .absent → ¬ Did h .arrived →
      Lived ttl (h ++ stamp t [.arrived]) .waiting
  /-- It was aborted before its dispatch. -/
  | withdrawn {h} (t : ℕ) : Lived ttl h .waiting → Did h .aborted →
      Lived ttl (h ++ stamp t [.remove .preprocess]) .absent
  /-- It was rejected. -/
  | rejected {h} (t : ℕ) (error : String) (status : ℕ) : Lived ttl h .waiting →
      Lived ttl (h ++ stamp t [.remove .preprocess, .failed error status]) .absent
  /-- It was handed to dispatch. -/
  | admitted {h} (t : ℕ) : Lived ttl h .waiting → Lived ttl (h ++ stamp t [.admitted]) .waiting
  /-- It was registered and dropped again. -/
  | bounced {h} (t : ℕ) : Lived ttl h .waiting → Lived ttl (h ++ stamp t [.held, .dropped]) .waiting
  /-- It was placed on its workers. -/
  | dispatched {h} (t : ℕ) (workers : List ℕ) (handle : RoutingHandle) : Lived ttl h .waiting →
      Lived ttl (h ++ stamp t [.held, .dispatched workers handle])
        (.running ⟨workers, some handle, true, false⟩)
  /-- Its client was sent the result. -/
  | completes {h d} (t : ℕ) : Lived ttl h (.running d) → d.completionSent = false →
      Lived ttl (h ++ stamp t [.complete]) (.running { d with completionSent := true })
  /-- DRAIN_REQUESTs were sent. -/
  | drains {h d} (t : ℕ) (entities : List Entity) : Lived ttl h (.running d) →
      Lived ttl (h ++ stamp t (entities.map .drain)) (.running d)
  /-- The barrier was put up; those not expected any more were heard. -/
  | begins {h d} (t : ℕ) (expected remaining : List Entity) (failureError : Option String)
      (status : ℕ) : Lived ttl h (.running d) →
      (failureError = none → d.completionSent = true ∨ Did h .aborted) →
      (failureError ≠ none → d.completionSent = false) →
      (∀ e ∈ expected, e ∈ remaining ∨ Did h (.readsDone e)) →
      Lived ttl (h ++ stamp t [.draining expected])
        (.draining d ⟨remaining, participants d.workers, failureError, status⟩)
  /-- The barrier was met, or its time was up. -/
  | finalizes {h d dr handle} (t : ℕ) : Lived ttl h (.draining d dr) →
      d.routing = some handle →
      (dr.expectedAcks = [] ∨ ∃ since expected, (since, .draining expected) ∈ h ∧
        since + ttl ≤ t) →
      Lived ttl (h ++ stamp t (lastActs dr handle)) .absent

section Counting

variable (h : History) (t : ℕ) (acts : List Act) (a : Act)

/-- What was done, with one more step. -/
@[simp] theorem did_append_stamp : Did (h ++ stamp t acts) a ↔ Did h a ∨ a ∈ acts := by
  constructor
  · intro hd
    obtain ⟨s, hs⟩ := hd
    rcases List.mem_append.1 hs with hs | hs
    · exact .inl ⟨s, hs⟩
    · obtain ⟨b, hb, heq⟩ := List.mem_map.1 hs
      exact .inr ((Prod.mk.inj heq).2 ▸ hb)
  · intro hd
    rcases hd with ⟨s, hs⟩ | ha
    · exact ⟨s, List.mem_append_left _ hs⟩
    · exact ⟨t, List.mem_append_right _ (List.mem_map_of_mem ha)⟩

/-- The answers, with one more step. -/
@[simp] theorem answers_append_stamp :
    answers (h ++ stamp t acts) = answers h + acts.countP Act.isAnswer := by
  simp only [answers, stamp, List.countP_append, List.countP_map]
  rfl

/-- The removals. -/
@[simp] theorem removals_append_stamp (e : Entity) :
    removals (h ++ stamp t acts) e = removals h e + acts.count (.remove e) := by
  simp only [removals, stamp, List.countP_append, List.countP_map, List.count]
  congr 1

/-- The dispatches. -/
@[simp] theorem dispatches_append_stamp :
    dispatches (h ++ stamp t acts) = dispatches h ++ acts.filterMap Act.placement := by
  simp only [dispatches, stamp, List.filterMap_append, List.filterMap_map]
  rfl

/-- The releases. -/
@[simp] theorem releases_append_stamp :
    releases (h ++ stamp t acts) = releases h ++ acts.filterMap Act.release := by
  simp only [releases, stamp, List.filterMap_append, List.filterMap_map]
  rfl

end Counting

/-- Nobody was answered, placed, released or removed. -/
structure Fresh (h : History) : Prop where
  /-- No answer. -/
  answers : answers h = 0
  /-- No placement. -/
  dispatches : dispatches h = []
  /-- No release. -/
  releases : releases h = []
  /-- No removal. -/
  removals : ∀ e, removals h e = 0

/-- Placed once, and still held everywhere. -/
structure Placed (h : History) (d : RequestData) : Prop where
  /-- Its NEW_REQUEST was taken in. -/
  arrived : Did h .arrived
  /-- One placement, on its workers, which the router still records. -/
  placed : ∃ handle, d.routing = some handle ∧ dispatches h = [(d.workers, handle)]
  /-- Its workers may know of it. -/
  dispatched : d.dispatched = true
  /-- No release. -/
  releases : releases h = []
  /-- No removal. -/
  removals : ∀ e, removals h e = 0

/-- Gone: answered once or aborted, and cleaned up where it was placed. -/
structure Over (h : History) : Prop where
  /-- Its NEW_REQUEST was taken in. -/
  arrived : Did h .arrived
  /-- Its client was told once, or not at all after an abort. -/
  answered : answers h = 1 ∨ answers h = 0 ∧ Did h .aborted
  /-- It was never placed, or all that was placed was cleaned up once. -/
  cleaned : dispatches h = [] ∧ releases h = [] ∨
    ∃ workers handle, dispatches h = [(workers, handle)] ∧ releases h = [handle] ∧
      ∀ e, removals h e = if e ∈ participants workers then 1 else 0

/-- What a history says at each stage. -/
def Sound (h : History) : Stage → Prop
  | .absent => ¬ Did h .arrived ∧ Fresh h ∨ Over h
  | .waiting => Did h .arrived ∧ Fresh h
  | .running d => Placed h d ∧ answers h = if d.completionSent then 1 else 0
  | .draining d dr => Placed h d ∧ dr.participants = participants d.workers ∧
      (dr.failureError = none → answers h = 1 ∨ answers h = 0 ∧ Did h .aborted) ∧
      (dr.failureError ≠ none → answers h = 0) ∧
      ∃ since expected, (since, .draining expected) ∈ h ∧
        ∀ e ∈ expected, e ∈ dr.expectedAcks ∨ Did h (.readsDone e)

/-- The participants of a request are distinct. -/
theorem participants_nodup (workers : List ℕ) : (participants workers).Nodup := by
  have hworkers : (requestWorkers workers).Nodup :=
    (List.nodup_dedup workers).map fun a b h => Entity.worker.inj h
  have hnot : Entity.preprocess ∉ requestWorkers workers := by
    simp [requestWorkers]
  simpa [participants, List.nodup_append] using ⟨hworkers, fun e he h => hnot (h ▸ he)⟩

/-- Acts that place, release, remove and answer nothing. -/
def Idle (acts : List Act) : Prop :=
  ∀ a ∈ acts, a.isAnswer = false ∧ (∀ e, a ≠ .remove e) ∧ a.placement = none ∧ a.release = none

section Idle

variable {h : History} {acts : List Act} (hidle : Idle acts) (t : ℕ)
include hidle

/-- An idle step answers nothing. -/
theorem answers_idle : answers (h ++ stamp t acts) = answers h := by
  have hnone : acts.countP Act.isAnswer = 0 := by
    rw [List.countP_eq_zero]
    intro a ha
    simp [(hidle a ha).1]
  rw [answers_append_stamp, hnone, Nat.add_zero]

/-- It removes nothing. -/
theorem removals_idle (e : Entity) : removals (h ++ stamp t acts) e = removals h e := by
  have hnone : acts.count (.remove e) = 0 := by
    rw [List.count_eq_zero]
    intro hmem
    exact (hidle _ hmem).2.1 e rfl
  rw [removals_append_stamp, hnone, Nat.add_zero]

/-- It dispatches nothing. -/
theorem dispatches_idle : dispatches (h ++ stamp t acts) = dispatches h := by
  have hnone : acts.filterMap Act.placement = [] := by
    rw [List.filterMap_eq_nil_iff]
    exact fun a ha => (hidle a ha).2.2.1
  rw [dispatches_append_stamp, hnone, List.append_nil]

/-- It releases nothing. -/
theorem releases_idle : releases (h ++ stamp t acts) = releases h := by
  have hnone : acts.filterMap Act.release = [] := by
    rw [List.filterMap_eq_nil_iff]
    exact fun a ha => (hidle a ha).2.2.2
  rw [releases_append_stamp, hnone, List.append_nil]

/-- A fresh request stays fresh. -/
theorem Fresh.idle (hf : Fresh h) : Fresh (h ++ stamp t acts) where
  answers := (answers_idle hidle t).trans hf.answers
  dispatches := (dispatches_idle hidle t).trans hf.dispatches
  releases := (releases_idle hidle t).trans hf.releases
  removals e := (removals_idle hidle t e).trans (hf.removals e)

/-- A placed one stays placed. -/
theorem Placed.idle {d : RequestData} (hp : Placed h d) : Placed (h ++ stamp t acts) d where
  arrived := (did_append_stamp h t acts _).2 (.inl hp.arrived)
  placed := by simpa only [dispatches_idle hidle t] using hp.placed
  dispatched := hp.dispatched
  releases := (releases_idle hidle t).trans hp.releases
  removals e := (removals_idle hidle t e).trans (hp.removals e)

/-- One that is over stays over. -/
theorem Over.idle (ho : Over h) : Over (h ++ stamp t acts) where
  arrived := (did_append_stamp h t acts _).2 (.inl ho.arrived)
  answered := by
    rw [answers_idle hidle t]
    exact ho.answered.imp_right fun hx => ⟨hx.1, (did_append_stamp h t acts _).2 (.inl hx.2)⟩
  cleaned := by
    simpa only [dispatches_idle hidle t, releases_idle hidle t, removals_idle hidle t]
      using ho.cleaned

/-- Idle acts that are no arrival leave what a stage says. -/
theorem Sound.idle {st : Stage} (hs : Sound h st) (harrived : Act.arrived ∉ acts) :
    Sound (h ++ stamp t acts) st := by
  have hdid : ∀ a, Did h a → Did (h ++ stamp t acts) a := fun a ha =>
    (did_append_stamp h t acts a).2 (.inl ha)
  cases st with
  | absent =>
    refine hs.imp (fun hx => ⟨?_, hx.2.idle hidle t⟩) (fun hx => hx.idle hidle t)
    rw [did_append_stamp]
    exact not_or.2 ⟨hx.1, harrived⟩
  | waiting => exact ⟨hdid _ hs.1, hs.2.idle hidle t⟩
  | running d => exact ⟨hs.1.idle hidle t, (answers_idle hidle t).trans hs.2⟩
  | draining d dr =>
    obtain ⟨hplaced, hpart, hnone, hsome, since, expected, hbegan, hacks⟩ := hs
    refine ⟨hplaced.idle hidle t, hpart, ?_, ?_, since, expected,
      List.mem_append_left _ hbegan, fun e he => (hacks e he).imp_right (hdid _)⟩
    · rw [answers_idle hidle t]
      exact fun hx => (hnone hx).imp_right fun hy => ⟨hy.1, hdid _ hy.2⟩
    · rw [answers_idle hidle t]
      exact hsome

end Idle

section LastActs

variable (dr : DrainingRequest) (handle : RoutingHandle)

/-- The last actions answer once, unless it failed. -/
theorem lastActs_answers :
    (lastActs dr handle).countP Act.isAnswer = if dr.failureError = none then 0 else 1 := by
  have hremoves : (dr.participants.map Act.remove).countP Act.isAnswer = 0 := by
    simp [List.countP_eq_zero, Act.isAnswer]
  rw [lastActs, List.countP_append, List.countP_append, hremoves, DrainingRequest.lastWord]
  cases dr.failureError <;> simp [Act.isAnswer]

/-- They place nothing. -/
theorem lastActs_placement : (lastActs dr handle).filterMap Act.placement = [] := by
  rw [List.filterMap_eq_nil_iff]
  intro a ha
  cases hfail : dr.failureError <;>
    simp only [lastActs, DrainingRequest.lastWord, hfail, Option.map_none, Option.map_some,
      Option.toList_none, Option.toList_some, List.mem_append, List.mem_map, List.mem_cons,
      List.not_mem_nil, or_false] at ha
  · rcases ha with ⟨e, -, rfl⟩ | rfl | rfl <;> rfl
  · rcases ha with (⟨e, -, rfl⟩ | rfl) | rfl | rfl <;> rfl

/-- They release its handle. -/
theorem lastActs_release : (lastActs dr handle).filterMap Act.release = [handle] := by
  have hremoves : (dr.participants.map Act.remove).filterMap Act.release = [] := by
    simp [List.filterMap_eq_nil_iff, Act.release]
  rw [lastActs, List.filterMap_append, List.filterMap_append, hremoves, DrainingRequest.lastWord]
  cases dr.failureError <;> rfl

/-- They remove it from each participant. -/
theorem lastActs_remove (e : Entity) :
    (lastActs dr handle).count (.remove e) = dr.participants.count e := by
  have hremoves : (dr.participants.map Act.remove).count (.remove e) = dr.participants.count e :=
    List.count_map_of_injective _ _ (fun a b h => Act.remove.inj h) e
  rw [lastActs, List.count_append, List.count_append, hremoves, DrainingRequest.lastWord]
  cases dr.failureError <;> simp

end LastActs

/-- A REMOVE_REQUEST for a placed request comes after every READS_DONE its
teardown expected, or after the teardown's time. -/
def Waited (ttl : ℕ) (before : History) (entry : ℕ × Act) : Prop :=
  ∀ e, entry.2 = .remove e → dispatches before = [] ∨
    ∃ since expected, (since, .draining expected) ∈ before ∧
      ((∀ x ∈ expected, Did before (.readsDone x)) ∨ since + ttl ≤ entry.1)

/-- A DRAIN_REQUEST comes before any REMOVE_REQUEST. -/
def DrainsFirst (before : History) (entry : ℕ × Act) : Prop :=
  ∀ e, entry.2 = .drain e → ∀ e', ¬ Did before (.remove e')

/-- Every history a life can have is sound at the stage it leads to. -/
theorem Lived.sound {ttl : ℕ} {h : History} {st : Stage} (hl : Lived ttl h st) : Sound h st := by
  induction hl with
  | unborn => exact .inl ⟨by simp [Did], ⟨rfl, rfl, rfl, fun _ => rfl⟩⟩
  | aborts t _ ih => exact ih.idle (by simp [Idle, Act.isAnswer, Act.placement, Act.release]) t (by simp)
  | reads t e _ ih => exact ih.idle (by simp [Idle, Act.isAnswer, Act.placement, Act.release]) t (by simp)
  | acks e _ hread ih =>
    obtain ⟨hplaced, hpart, hnone, hsome, since, expected, hbegan, hacks⟩ := ih
    refine ⟨hplaced, hpart, hnone, hsome, since, expected, hbegan, ?_⟩
    intro x hx
    rcases hacks x hx with hx | hx
    · by_cases hxe : x = e
      · exact .inr (hxe ▸ hread)
      · exact .inl (by simp [hx, hxe])
    · exact .inr hx
  | arrives t _ harrived ih =>
    rcases ih with ih | ih
    · exact ⟨by simp, ih.2.idle (by simp [Idle, Act.isAnswer, Act.placement, Act.release]) t⟩
    · exact absurd ih.arrived harrived
  | withdrawn t _ haborted ih =>
    refine .inr ⟨?_, .inr ⟨?_, ?_⟩, .inl ⟨?_, ?_⟩⟩
    · simp [ih.1]
    · simp [ih.2.answers, Act.isAnswer]
    · simp [haborted]
    · simp [ih.2.dispatches, Act.placement]
    · simp [ih.2.releases, Act.release]
  | rejected t error status _ ih =>
    refine .inr ⟨?_, .inl ?_, .inl ⟨?_, ?_⟩⟩
    · simp [ih.1]
    · simp [ih.2.answers, Act.isAnswer]
    · simp [ih.2.dispatches, Act.placement]
    · simp [ih.2.releases, Act.release]
  | admitted t _ ih => exact ih.idle (by simp [Idle, Act.isAnswer, Act.placement, Act.release]) t (by simp)
  | bounced t _ ih => exact ih.idle (by simp [Idle, Act.isAnswer, Act.placement, Act.release]) t (by simp)
  | dispatched t workers handle _ ih =>
    refine ⟨⟨?_, ⟨handle, rfl, ?_⟩, rfl, ?_, fun e => ?_⟩, ?_⟩
    · simp [ih.1]
    · rw [dispatches_append_stamp, ih.2.dispatches]
      rfl
    · simp [ih.2.releases, Act.release]
    · simp [ih.2.removals]
    · simp [ih.2.answers, Act.isAnswer]
  | completes t _ hsent ih =>
    refine ⟨⟨?_, ?_, ih.1.dispatched, ?_, fun e => ?_⟩, ?_⟩
    · simp [ih.1.arrived]
    · obtain ⟨handle, hrouting, hplaced⟩ := ih.1.placed
      refine ⟨handle, hrouting, ?_⟩
      rw [dispatches_append_stamp, hplaced]
      rfl
    · simp [ih.1.releases, Act.release]
    · simp [ih.1.removals]
    · simp [ih.2, hsent, Act.isAnswer]
  | drains t entities _ ih => exact ih.idle (by simp [Idle, Act.isAnswer, Act.placement, Act.release]) t (by simp)
  | @begins h d t expected remaining failureError status _ hquiet hfails hacks ih =>
    have hidle : Idle [Act.draining expected] := by
      simp [Idle, Act.isAnswer, Act.placement, Act.release]
    refine ⟨ih.1.idle hidle t, rfl, fun hnone => ?_, fun hsome => ?_, t, expected, ?_, ?_⟩
    · rw [answers_idle hidle t, ih.2]
      by_cases hsent : d.completionSent = true
      · simp [hsent]
      · have haborted := (hquiet hnone).resolve_left hsent
        simp [hsent, haborted]
    · rw [answers_idle hidle t, ih.2, hfails hsome]
      rfl
    · simp [stamp]
    · exact fun e he => (hacks e he).imp_right fun hx => by simp [hx]
  | @finalizes h d dr handle t _ hrouting hdue ih =>
    obtain ⟨hplaced, hpart, hnone, hsome, -⟩ := ih
    obtain ⟨other, hother, hdispatches⟩ := hplaced.placed
    have hsame : other = handle := Option.some.inj (hother.symm.trans hrouting)
    subst hsame
    refine .inr ⟨?_, ?_, .inr ⟨d.workers, other, ?_, ?_, fun e => ?_⟩⟩
    · simp [hplaced.arrived]
    · rw [answers_append_stamp, lastActs_answers, did_append_stamp]
      cases hfail : dr.failureError with
      | none => exact (hnone hfail).imp id fun hx => ⟨hx.1, .inl hx.2⟩
      | some error =>
        have hquiet := hsome (by simp [hfail])
        exact .inl (by simp [hquiet])
    · rw [dispatches_append_stamp, hdispatches, lastActs_placement, List.append_nil]
    · rw [releases_append_stamp, hplaced.releases, lastActs_release, List.nil_append]
    · rw [removals_append_stamp, hplaced.removals, lastActs_remove, hpart,
        (participants_nodup d.workers).count, Nat.zero_add]

/-- An act of a stamped list is one of the list's. -/
theorem stamp_entry {t : ℕ} {acts : List Act} {before after : History} {entry : ℕ × Act}
    (h : stamp t acts = before ++ entry :: after) : entry.1 = t ∧ entry.2 ∈ acts := by
  have hmem : entry ∈ stamp t acts := by simp [h]
  obtain ⟨a, ha, rfl⟩ := List.mem_map.1 hmem
  exact ⟨rfl, ha⟩

/-- Acts that remove nothing owe no waiting. -/
theorem Waited.of_no_remove {ttl t : ℕ} {h : History} {acts : List Act}
    (hw : Always (Waited ttl) h) (hno : ∀ e, Act.remove e ∉ acts) :
    Always (Waited ttl) (h ++ stamp t acts) := by
  refine hw.append fun before entry after heq e he => ?_
  exact absurd (he ▸ (stamp_entry heq).2) (hno e)

/-- Acts that remove before any placement owe no waiting. -/
theorem Waited.of_unplaced {ttl t : ℕ} {h : History} {acts : List Act}
    (hw : Always (Waited ttl) h) (hnone : dispatches h = [])
    (hno : acts.filterMap Act.placement = []) :
    Always (Waited ttl) (h ++ stamp t acts) := by
  refine hw.append fun before entry after heq e he => .inl ?_
  have hall : dispatches (stamp t acts) = [] := by
    simpa [dispatches, hnone, hno] using dispatches_append_stamp [] t acts
  have hbefore : dispatches before = [] := by
    rw [heq] at hall
    have hsplit : dispatches before ++ dispatches (entry :: after) = [] := by
      simpa [dispatches] using hall
    exact (List.append_eq_nil_iff.1 hsplit).1
  simpa [dispatches] using And.intro hnone hbefore

/-- No REMOVE_REQUEST of a placed request outruns its teardown. -/
theorem Lived.waited {ttl : ℕ} {h : History} {st : Stage} (hl : Lived ttl h st) :
    Always (Waited ttl) h := by
  induction hl with
  | unborn => exact always_nil
  | aborts t _ ih => exact Waited.of_no_remove ih (by simp)
  | reads t e _ ih => exact Waited.of_no_remove ih (by simp)
  | acks e _ _ ih => exact ih
  | arrives t _ _ ih => exact Waited.of_no_remove ih (by simp)
  | withdrawn t hlife _ ih => exact Waited.of_unplaced ih hlife.sound.2.dispatches rfl
  | rejected t error status hlife ih => exact Waited.of_unplaced ih hlife.sound.2.dispatches rfl
  | admitted t _ ih => exact Waited.of_no_remove ih (by simp)
  | bounced t _ ih => exact Waited.of_no_remove ih (by simp)
  | dispatched t workers handle _ ih => exact Waited.of_no_remove ih (by simp)
  | completes t _ _ ih => exact Waited.of_no_remove ih (by simp)
  | drains t entities _ ih => exact Waited.of_no_remove ih (by simp)
  | begins t expected remaining failureError status _ _ _ _ ih =>
    exact Waited.of_no_remove ih (by simp)
  | @finalizes h d dr handle t hlife hrouting hdue ih =>
    refine ih.append fun before entry after heq e _ => .inr ?_
    have htime := (stamp_entry heq).1
    rcases hdue with hempty | ⟨since, expected, hbegan, hlate⟩
    · obtain ⟨-, -, -, -, since, expected, hbegan, hacks⟩ := hlife.sound
      refine ⟨since, expected, List.mem_append_left _ hbegan, .inl fun x hx => ?_⟩
      have hread : Did h (.readsDone x) := (hacks x hx).resolve_left (by simp [hempty])
      exact hread.imp fun s hs => List.mem_append_left _ hs
    · exact ⟨since, expected, List.mem_append_left _ hbegan, .inr (htime ▸ hlate)⟩

/-- Acts without a DRAIN_REQUEST keep the drains first. -/
theorem DrainsFirst.of_no_drain {t : ℕ} {h : History} {acts : List Act}
    (hd : Always DrainsFirst h) (hno : ∀ e, Act.drain e ∉ acts) :
    Always DrainsFirst (h ++ stamp t acts) := by
  refine hd.append fun before entry after heq e he => ?_
  exact absurd (he ▸ (stamp_entry heq).2) (hno e)

/-- No DRAIN_REQUEST follows a REMOVE_REQUEST of its request. -/
theorem Lived.drainsFirst {ttl : ℕ} {h : History} {st : Stage} (hl : Lived ttl h st) :
    Always DrainsFirst h := by
  induction hl with
  | unborn => exact always_nil
  | aborts t _ ih => exact DrainsFirst.of_no_drain ih (by simp)
  | reads t e _ ih => exact DrainsFirst.of_no_drain ih (by simp)
  | acks e _ _ ih => exact ih
  | arrives t _ _ ih => exact DrainsFirst.of_no_drain ih (by simp)
  | withdrawn t _ _ ih => exact DrainsFirst.of_no_drain ih (by simp)
  | rejected t error status _ ih => exact DrainsFirst.of_no_drain ih (by simp)
  | admitted t _ ih => exact DrainsFirst.of_no_drain ih (by simp)
  | bounced t _ ih => exact DrainsFirst.of_no_drain ih (by simp)
  | dispatched t workers handle _ ih => exact DrainsFirst.of_no_drain ih (by simp)
  | completes t _ _ ih => exact DrainsFirst.of_no_drain ih (by simp)
  | begins t expected remaining failureError status _ _ _ _ ih =>
    exact DrainsFirst.of_no_drain ih (by simp)
  | @finalizes h d dr handle t _ _ _ ih =>
    refine DrainsFirst.of_no_drain ih fun e he => ?_
    cases hfail : dr.failureError <;> simp [lastActs, DrainingRequest.lastWord, hfail] at he
  | @drains h d t entities hlife ih =>
    refine ih.append fun before entry after heq e _ e' hremoved => ?_
    obtain ⟨s, hs⟩ := hremoved
    rcases List.mem_append.1 hs with hs | hs
    · have hnone := hlife.sound.1.removals e'
      rw [removals, List.countP_eq_zero] at hnone
      exact hnone _ hs (by simp)
    · have hmem : (s, Act.remove e') ∈ stamp t (entities.map .drain) := by
        rw [heq]
        exact List.mem_append_left _ hs
      simp [stamp] at hmem

/-- What was placed is released only at the end of a life. -/
theorem Lived.released {ttl : ℕ} {h : History} {st : Stage} (hl : Lived ttl h st)
    (hreleased : releases h ≠ []) : st = .absent := by
  have hsound := hl.sound
  cases st with
  | absent => rfl
  | waiting => exact absurd hsound.2.releases hreleased
  | running d => exact absurd hsound.1.releases hreleased
  | draining d dr => exact absurd hsound.1.releases hreleased

/-- A life whose teardown began is still being torn down, or over. -/
theorem Lived.began {ttl : ℕ} {h : History} {st : Stage} (hl : Lived ttl h st) {since : ℕ}
    {expected : List Entity} (hbegan : (since, Act.draining expected) ∈ h) :
    (∃ d dr, st = .draining d dr) ∨ releases h ≠ [] := by
  have hold : ∀ {t : ℕ} {h : History} {acts : List Act} (st' : Stage),
      ((since, Act.draining expected) ∈ h → (∃ d dr, st' = .draining d dr) ∨ releases h ≠ []) →
      Act.draining expected ∉ acts → (since, Act.draining expected) ∈ h ++ stamp t acts →
      (∃ d dr, st' = .draining d dr) ∨ releases (h ++ stamp t acts) ≠ [] := by
    intro t h acts st' ih hno hmem
    rcases List.mem_append.1 hmem with hmem | hmem
    · refine (ih hmem).imp_right fun hreleased => ?_
      rw [releases_append_stamp]
      exact fun hnil => hreleased (List.append_eq_nil_iff.1 hnil).1
    · obtain ⟨a, ha, heq⟩ := List.mem_map.1 hmem
      exact absurd ((Prod.mk.inj heq).2 ▸ ha) hno
  induction hl with
  | unborn => simp at hbegan
  | aborts t _ ih => exact hold _ ih (by simp) hbegan
  | reads t e _ ih => exact hold _ ih (by simp) hbegan
  | acks e _ _ _ => exact .inl ⟨_, _, rfl⟩
  | arrives t _ _ ih => exact .inr ((hold _ ih (by simp) hbegan).resolve_left (by simp))
  | withdrawn t _ _ ih => exact .inr ((hold _ ih (by simp) hbegan).resolve_left (by simp))
  | rejected t error status _ ih =>
    exact .inr ((hold _ ih (by simp) hbegan).resolve_left (by simp))
  | admitted t _ ih => exact hold _ ih (by simp) hbegan
  | bounced t _ ih => exact hold _ ih (by simp) hbegan
  | dispatched t workers handle _ ih =>
    exact .inr ((hold _ ih (by simp) hbegan).resolve_left (by simp))
  | completes t _ _ ih => exact .inr ((hold _ ih (by simp) hbegan).resolve_left (by simp))
  | drains t entities _ ih => exact hold _ ih (by simp) hbegan
  | begins t _ remaining failureError status _ _ _ _ _ => exact .inl ⟨_, _, rfl⟩
  | finalizes t _ _ _ _ =>
    rw [releases_append_stamp, lastActs_release]
    exact .inr (by simp)

end Mstar.Teardown
