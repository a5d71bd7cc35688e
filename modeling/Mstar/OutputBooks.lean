import Mstar.OutputRuns

/-!
# One request's outputs over a run

While nothing tears a request down, the slots of its output state are the
outputs taken up in the order they arrived, its chunks answer a first part of
them, and every chunk is an output counted in.
-/

namespace Mstar.OutputSlots

variable {ρ : Type*} [DecidableEq ρ]

open Handles (flightOf inFlight)
open Takes (unstarted?)

/-- The outputs with one fate. -/
def takenAs (fate : Fate) (taken : List (Slot × Fate)) : List Slot :=
  (taken.filter fun t => t.2 = fate).map Prod.fst

/-- The tensors some chunks answer whose read was never started. -/
def unread (chunks : List (ResultChunk ρ)) : List Slot :=
  chunks.filterMap fun chunk => unstarted? chunk.answers

/-- How many chunks answer no output. -/
def stray (chunks : List (ResultChunk ρ)) : ℕ :=
  (chunks.filter fun chunk => chunk.answers = .nothing).length

/-- What one request's chunks amount to. -/
structure Books (st : RequestOutputState ρ) (puts : List (ResultChunk ρ))
    (taken : List (Slot × Fate)) (bare : ℕ) : Prop where
  slots : st.slots = takenAs .sequenced taken
  advance : RequestOutputState.Advance .new st puts
  unread : unread puts = takenAs .unstarted taken
  bare : stray puts = bare

/-- The outputs of an item, with their requests. -/
def Item.rows : Item ρ → List (ρ × Slot)
  | .tensors edge => (World.slotsOf edge).map fun slot => (edge.requestId, slot)
  | .tokens frame =>
    (frame.requestIds.zip frame.values).map fun row => (row.1, .token row.2)

/-- The outputs of a request that wait for the worker. -/
def World.waiting (w : World ρ) (rid : ρ) : List Slot := slotsIn (w.inbox.flatMap Item.rows) rid

/-- One request between events. -/
structure World.Tracks (w : World ρ) (rid : ρ) : Prop where
  unknown : w.reading rid = none → w.notified rid = [] ∧ w.bare rid = 0 ∧
    ∀ edge, Item.tensors edge ∈ w.inbox → edge.requestId ≠ rid
  count : ∀ n, w.reading rid = some n →
    n + ((w.received.filter fun c => c.requestId = rid).length : ℕ) = (w.notified rid).length
  arrived : w.notified rid = (w.taken rid).map Prod.fst ++ w.waiting rid
  books : Books (w.worker.stateOf rid) (w.puts rid) (w.taken rid) (w.bare rid)
  flight : ∀ uuid, (rid, uuid) ∈ flightOf w.reads → uuid ∈ w.worker.reading rid
  dropped : takenAs .dropped (w.taken rid) ≠ [] → (w.worker.requests rid).draining = true

/-- What the worker did in one event, seen from one request: outputs taken up
and chunks put. -/
structure World.Goes (w w' : World ρ) (rid : ρ) (new : List (Slot × Fate)) (extra : ℕ)
    (puts : List (ResultChunk ρ)) : Prop where
  reading : w'.reading = w.reading
  notified : w'.notified = w.notified
  received : w'.received = w.received
  inbox : ∀ item ∈ w'.inbox, item ∈ w.inbox
  waiting : w.waiting rid = new.map Prod.fst ++ w'.waiting rid
  taken : w'.taken rid = w.taken rid ++ new
  bare : w'.bare rid = w.bare rid + extra
  known : w.reading rid = none → extra = 0
  does : Does w.worker w'.worker puts
  slots : (w'.worker.stateOf rid).slots = (w.worker.stateOf rid).slots ++ takenAs .sequenced new
  unread : unread (puts.filter fun c => c.requestId = rid) = takenAs .unstarted new
  stray : stray (puts.filter fun c => c.requestId = rid) = extra
  flight : ∀ uuid, (rid, uuid) ∈ flightOf w'.reads → uuid ∈ w'.worker.reading rid
  dropped : takenAs .dropped new ≠ [] → (w'.worker.requests rid).draining = true

/-- What was taken, one list after another. -/
theorem takenAs_append (fate : Fate) (a b : List (Slot × Fate)) :
    takenAs fate (a ++ b) = takenAs fate a ++ takenAs fate b := by
  unfold takenAs
  rw [List.filter_append, List.map_append]

/-- Outputs that share a fate. -/
theorem takenAs_map (fate fate' : Fate) (slots : List Slot) :
    takenAs fate (slots.map fun slot => (slot, fate')) = if fate' = fate then slots else [] := by
  unfold takenAs
  split
  · rename_i heq
    subst heq
    rw [List.filter_eq_self.2, List.map_map]
    · exact List.map_id slots
    · intro t ht
      obtain ⟨slot, -, rfl⟩ := List.mem_map.1 ht
      simp
  · rename_i hne
    rw [List.filter_eq_nil_iff.2, List.map_nil]
    intro t ht
    obtain ⟨slot, -, rfl⟩ := List.mem_map.1 ht
    simpa using hne

omit [DecidableEq ρ] in
/-- Every chunk answers a slot, a tensor that was not read, or nothing. -/
theorem length_puts (chunks : List (ResultChunk ρ)) :
    chunks.length = (answered chunks).length + (unread chunks).length + stray chunks := by
  unfold answered unread stray
  induction chunks with
  | nil => rfl
  | cons chunk chunks ih =>
    cases ha : chunk.answers with
    | sequenced slot =>
      have hslot : (Answer.sequenced slot).slot? = some slot := rfl
      have hunread : unstarted? (.sequenced slot) = none := rfl
      simp only [List.filterMap_cons, List.filter_cons, ha, hslot, hunread, List.length_cons,
        reduceCtorEq, decide_false, Bool.false_eq_true, if_false]
      omega
    | unstarted slot =>
      have hslot : (Answer.unstarted slot).slot? = none := rfl
      have hunread : unstarted? (.unstarted slot) = some slot := rfl
      simp only [List.filterMap_cons, List.filter_cons, ha, hslot, hunread, List.length_cons,
        reduceCtorEq, decide_false, Bool.false_eq_true, if_false]
      omega
    | nothing =>
      have hslot : Answer.nothing.slot? = none := rfl
      have hunread : unstarted? .nothing = none := rfl
      simp only [List.filterMap_cons, List.filter_cons, ha, hslot, hunread, List.length_cons,
        decide_true, if_true]
      omega

omit [DecidableEq ρ] in
/-- Chunks that all answer slots. -/
theorem unread_of_sequenced {chunks : List (ResultChunk ρ)}
    (h : ∀ c ∈ chunks, c.answers.slot?.isSome) : unread chunks = [] ∧ stray chunks = 0 := by
  unfold unread stray
  constructor
  · rw [List.filterMap_eq_nil_iff]
    intro c hc
    have hc := h c hc
    cases ha : c.answers with
    | sequenced slot => rfl
    | unstarted slot =>
      rw [ha] at hc
      cases hc
    | nothing => rfl
  · rw [List.length_eq_zero_iff, List.filter_eq_nil_iff]
    intro c hc
    have hc := h c hc
    cases ha : c.answers with
    | nothing =>
      rw [ha] at hc
      cases hc
    | sequenced slot => simp
    | unstarted slot => simp

namespace World

variable {w w' : World ρ} {used : List ℕ} {rid : ρ} {new : List (Slot × Fate)} {extra : ℕ}
  {puts : List (ResultChunk ρ)}

/-- A request's chunks go on with what a step puts. -/
theorem puts_of_does (hreceived : w'.received = w.received)
    (hdoes : Does w.worker w'.worker puts) (rid : ρ) :
    w'.puts rid = w.puts rid ++ puts.filter fun c => c.requestId = rid := by
  unfold World.puts
  rw [hreceived, hdoes.queue, ← List.append_assoc, List.filter_append]

/-- The books of a request after the worker went on. -/
theorem Tracks.goes (h : w.Tracks rid) (hsane : w.Sane used) (hg : w.Goes w' rid new extra puts) :
    w'.Tracks rid where
  unknown := by
    intro hnone
    rw [hg.reading] at hnone
    obtain ⟨hnotified, hbare, hedges⟩ := h.unknown hnone
    rw [hg.notified, hg.bare, hg.known hnone, hbare]
    exact ⟨hnotified, rfl, fun edge hedge => hedges edge (hg.inbox _ hedge)⟩
  count := by
    rw [hg.reading, hg.notified, hg.received]
    exact h.count
  arrived := by
    rw [hg.notified, hg.taken, h.arrived, hg.waiting, List.map_append, List.append_assoc]
  books := by
    rw [puts_of_does hg.received hg.does rid, hg.taken, hg.bare]
    constructor
    · rw [hg.slots, h.books.slots, takenAs_append]
    · exact h.books.advance.trans (hg.does.advance rid) (hsane.sound.nextEmit_le rid)
    · have hunread := h.books.unread
      have hmore := hg.unread
      unfold OutputSlots.unread at hunread hmore ⊢
      rw [List.filterMap_append, hunread, hmore, takenAs_append]
    · have hbare := h.books.bare
      have hmore := hg.stray
      unfold OutputSlots.stray at hbare hmore ⊢
      rw [List.filter_append, List.length_append, hbare, hmore]
  flight := hg.flight
  dropped := by
    rw [hg.taken, takenAs_append]
    intro hne
    by_cases hold : takenAs .dropped (w.taken rid) = []
    · rw [hold, List.nil_append] at hne
      exact hg.dropped hne
    · exact hg.does.draining rid (h.dropped hold)

/-- A pass of the worker that takes nothing up. -/
theorem goes_of_handles {worker : Worker ρ} {reads : List (Edge ρ)}
    {gone : List (ρ × ℕ)} (h : w.Tracks rid)
    (hh : Handles w.worker worker gone (flightOf reads) puts)
    (hperm : (gone ++ flightOf reads).Perm (flightOf w.reads)) :
    w.Goes { w with worker := worker, reads := reads } rid [] 0 puts := by
  have hseq := hh.sequenced rid fun uuid hu =>
    h.flight uuid (hperm.mem_iff.1 (List.mem_append_left _ hu))
  obtain ⟨hunread, hstray⟩ :=
    unread_of_sequenced fun c (hc : c ∈ puts.filter fun c => c.requestId = rid) =>
      hseq c (List.mem_filter.1 hc).1 (by simpa using (List.mem_filter.1 hc).2)
  exact
    { reading := rfl
      notified := rfl
      received := rfl
      inbox := fun _ hi => hi
      waiting := rfl
      taken := (List.append_nil _).symm
      bare := rfl
      known := fun _ => rfl
      does := hh.does
      slots := (hh.slots rid).trans (List.append_nil _).symm
      unread := hunread
      stray := hstray
      flight := fun uuid hu => hh.reading rid uuid hu
        (h.flight uuid (hperm.mem_iff.1 (List.mem_append_right _ hu)))
      dropped := fun hne => absurd rfl hne }

end World

end Mstar.OutputSlots
