import Mathlib.Data.List.Basic
import Mathlib.Logic.Function.Basic

/-!
# Device streams

A stream runs what is submitted to it in order. An event recorded on a stream
has completed once it has left the stream's queue, and everything submitted
before it has run by then.
-/

namespace DeviceStreams

/-- What a stream's queue holds. -/
inductive Entry (Op : Type)
  | work (op : Op)
  | event (id : ℕ)

/-- The work of an entry, if it is not an event. -/
def Entry.toWork {Op : Type} : Entry Op → Option Op
  | .work op => some op
  | .event _ => none

/-- The queues of some streams, and the number of the next event. -/
structure Queues (Stream Op : Type) where
  queue : Stream → List (Entry Op)
  nextEvent : ℕ

namespace Queues

variable {Stream Op : Type} [DecidableEq Stream]

/-- Nothing submitted yet. -/
def new : Queues Stream Op := ⟨fun _ => [], 0⟩

/-- Work submitted to a stream. -/
def submit (q : Queues Stream Op) (s : Stream) (op : Op) : Queues Stream Op :=
  { q with queue := Function.update q.queue s (q.queue s ++ [.work op]) }

/-- An event recorded on a stream. -/
def record (q : Queues Stream Op) (s : Stream) : Queues Stream Op :=
  ⟨Function.update q.queue s (q.queue s ++ [.event q.nextEvent]), q.nextEvent + 1⟩

/-- An event recorded on each of some streams. -/
def recordAll : List Stream → Queues Stream Op → List (Stream × ℕ) × Queues Stream Op
  | [], q => ([], q)
  | s :: ss, q => ((s, q.nextEvent) :: (recordAll ss (q.record s)).1, (recordAll ss (q.record s)).2)

/-- The rest of a stream's queue once its first entry has run. -/
def rest (q : Queues Stream Op) (s : Stream) (entries : List (Entry Op)) : Queues Stream Op :=
  { q with queue := Function.update q.queue s entries }

/-- The work that has not run yet, stream by stream. -/
def works (q : Queues Stream Op) (s : Stream) : List Op := (q.queue s).filterMap Entry.toWork

/-- The event has completed. -/
def Done (q : Queues Stream Op) (event : Stream × ℕ) : Prop :=
  .event event.2 ∉ q.queue event.1

/-- All work that has not run meets a condition, which may speak of what is
behind it in its stream. -/
def Pending (q : Queues Stream Op) (P : Stream → Op → List (Entry Op) → Prop) : Prop :=
  ∀ s before op behind, q.queue s = before ++ .work op :: behind → P s op behind

/-- A condition that more entries behind do not break. -/
def Lasting (P : Stream → Op → List (Entry Op) → Prop) : Prop :=
  ∀ s op behind more, P s op behind → P s op (behind ++ more)

variable {q : Queues Stream Op} {P Q : Stream → Op → List (Entry Op) → Prop} {s : Stream}

omit [DecidableEq Stream] in
/-- Nothing is pending on empty queues. -/
theorem pending_new : (new : Queues Stream Op).Pending P := by
  intro s before op behind h
  cases before <;> cases h

omit [DecidableEq Stream] in
/-- A weaker condition. -/
theorem Pending.mono (h : q.Pending P) (hle : ∀ s op behind, P s op behind → Q s op behind) :
    q.Pending Q :=
  fun s before op behind heq => hle s op behind (h s before op behind heq)

/-- Submitting work that meets the condition. -/
theorem Pending.submit (h : q.Pending P) (hlast : Lasting P) {op : Op} (hop : P s op []) :
    (q.submit s op).Pending P := by
  intro t before other behind heq
  unfold Queues.submit at heq
  dsimp only at heq
  by_cases ht : t = s
  · subst ht
    rw [Function.update_self] at heq
    rcases List.eq_nil_or_concat behind with rfl | ⟨body, last, rfl⟩
    · obtain ⟨-, hlast'⟩ := List.append_inj' heq rfl
      obtain rfl : op = other := by simpa using hlast'
      exact hop
    · rw [List.concat_eq_append] at heq ⊢
      rw [← List.cons_append, ← List.append_assoc] at heq
      obtain ⟨hbody, -⟩ := List.append_inj' heq rfl
      exact hlast _ _ _ _ (h t before other body hbody)
  · rw [Function.update_of_ne ht] at heq
    exact h t before other behind heq

omit [DecidableEq Stream] in
/-- Events behind a queue hold no work. -/
theorem work_of_append_events {entries before behind : List (Entry Op)} {ids : List ℕ} {op : Op}
    (heq : entries ++ ids.map .event = before ++ .work op :: behind) :
    ∃ body, entries = before ++ .work op :: body ∧ behind = body ++ ids.map .event := by
  rcases List.append_eq_append_iff.1 heq with ⟨mid, hbefore, hevents⟩ | ⟨mid, hentries, hbehind⟩
  · exfalso
    have hmem : Entry.work op ∈ ids.map Entry.event := by
      rw [hevents]
      exact List.mem_append_right _ (List.mem_cons_self ..)
    obtain ⟨id, -, hid⟩ := List.mem_map.1 hmem
    cases hid
  · cases mid with
    | nil =>
      exfalso
      rw [List.nil_append] at hbehind
      have hmem : Entry.work op ∈ ids.map Entry.event := by
        rw [← hbehind]
        exact List.mem_cons_self ..
      obtain ⟨id, -, hid⟩ := List.mem_map.1 hmem
      cases hid
    | cons first mid =>
      rw [List.cons_append] at hbehind
      obtain ⟨rfl, rfl⟩ := List.cons.inj hbehind
      exact ⟨mid, hentries, rfl⟩

/-- Recording events appends them to their streams' queues. -/
theorem recordAll_queue (ss : List Stream) (q : Queues Stream Op) (s : Stream) :
    (recordAll ss q).2.queue s = q.queue s ++
      (((recordAll ss q).1.filter fun event => event.1 = s).map Prod.snd).map .event := by
  induction ss generalizing q with
  | nil => simp [recordAll]
  | cons t ss ih =>
    unfold recordAll
    rw [ih, List.filter_cons]
    by_cases ht : t = s
    · subst ht
      simp [record]
    · simp [record, ht, Function.update_of_ne (Ne.symm ht)]

/-- Each of the streams gets an event. -/
theorem exists_recordAll {ss : List Stream} (hs : s ∈ ss) (q : Queues Stream Op) :
    ∃ id, (s, id) ∈ (recordAll ss q).1 := by
  induction ss generalizing q with
  | nil => cases hs
  | cons t ss ih =>
    unfold recordAll
    rcases List.mem_cons.1 hs with rfl | hs
    · exact ⟨q.nextEvent, List.mem_cons_self ..⟩
    · obtain ⟨id, hid⟩ := ih hs (q.record t)
      exact ⟨id, List.mem_cons_of_mem _ hid⟩

/-- Recording events leaves the condition, and puts an event behind all work of
the streams it is recorded on. -/
theorem Pending.recordAll (h : q.Pending P) (hlast : Lasting P) (ss : List Stream) :
    (recordAll ss q).2.Pending fun s op behind => P s op behind ∧
      (s ∈ ss → ∃ id, (s, id) ∈ (recordAll ss q).1 ∧ .event id ∈ behind) := by
  intro s before op behind heq
  rw [recordAll_queue] at heq
  obtain ⟨body, hbody, rfl⟩ := work_of_append_events heq
  refine ⟨hlast _ _ _ _ (h s before op body hbody), fun hs => ?_⟩
  obtain ⟨id, hid⟩ := exists_recordAll hs q
  refine ⟨id, hid, List.mem_append_right _ (List.mem_map_of_mem ?_)⟩
  exact List.mem_map.2 ⟨(s, id), List.mem_filter.2 ⟨hid, by simp⟩, rfl⟩

/-- Running the first entry of a queue. -/
theorem Pending.rest (h : q.Pending P) {entry : Entry Op} {entries : List (Entry Op)}
    (hqueue : q.queue s = entry :: entries) : (q.rest s entries).Pending P := by
  intro t before op behind heq
  unfold Queues.rest at heq
  dsimp only at heq
  by_cases ht : t = s
  · subst ht
    rw [Function.update_self] at heq
    refine h t (entry :: before) op behind ?_
    rw [hqueue, heq, List.cons_append]
  · rw [Function.update_of_ne ht] at heq
    exact h t before op behind heq

/-- Submitted work goes behind what its stream has. -/
theorem works_submit (q : Queues Stream Op) (s : Stream) (op : Op) :
    (q.submit s op).works = Function.update q.works s (q.works s ++ [op]) := by
  funext t
  unfold works submit
  by_cases ht : t = s
  · subst ht
    simp only [Function.update_self, List.filterMap_append]
    rfl
  · simp only [Function.update_of_ne ht]

/-- Events are no work. -/
theorem works_recordAll (ss : List Stream) (q : Queues Stream Op) :
    (Queues.recordAll ss q).2.works = q.works := by
  funext s
  unfold works
  rw [recordAll_queue, List.filterMap_append]
  simp [Entry.toWork, List.filterMap_map, Function.comp_def]

/-- What is left once the first entry has run. -/
theorem works_rest (q : Queues Stream Op) (s : Stream) (entries : List (Entry Op)) :
    (q.rest s entries).works = Function.update q.works s (entries.filterMap Entry.toWork) := by
  funext t
  unfold works Queues.rest
  by_cases ht : t = s
  · subst ht
    simp only [Function.update_self]
  · simp only [Function.update_of_ne ht]

/-- An event in front of a queue completes. -/
theorem works_rest_event {id : ℕ} {entries : List (Entry Op)}
    (hqueue : q.queue s = .event id :: entries) : (q.rest s entries).works = q.works := by
  have hsame : entries.filterMap Entry.toWork = q.works s := by
    unfold works
    rw [hqueue]
    rfl
  rw [works_rest, hsame, Function.update_eq_self]

omit [DecidableEq Stream] in
/-- Work in front of a queue. -/
theorem works_of_first {op : Op} {entries : List (Entry Op)}
    (hqueue : q.queue s = .work op :: entries) :
    q.works s = op :: entries.filterMap Entry.toWork := by
  unfold works
  rw [hqueue]
  rfl

omit [DecidableEq Stream] in
/-- The work in front of a queue. -/
theorem Pending.first (h : q.Pending P) {op : Op} {entries : List (Entry Op)}
    (hqueue : q.queue s = .work op :: entries) : P s op entries :=
  h s [] op entries hqueue

end Queues

end DeviceStreams
