import Mathlib.Data.List.Lemmas
import Mathlib.Data.List.Perm.Subperm
import Mstar.OutputCounts
import Mstar.OutputTakes

/-!
# Every run keeps the worker sound

Whatever comes next, the reads that have not come back hold tensors of their
own, and every sequence number without a chunk has one answer on its way.
-/

namespace Mstar.OutputSlots

variable {ρ : Type*} [DecidableEq ρ]

open Handles (flightOf inFlight)

/-- The tensors of what waits for the worker. -/
def Item.uuids : Item ρ → List ℕ
  | .tensors edge => edge.uuids
  | .tokens _ => []

/-- The tensors that wait for the worker or for their read. -/
def World.uuids (w : World ρ) : List ℕ :=
  w.inbox.flatMap Item.uuids ++ (flightOf w.reads).map Prod.snd

/-- Both threads between events. -/
structure World.Sane (w : World ρ) (used : List ℕ) : Prop where
  sound : Sound w.worker (flightOf w.reads) w.worker.jobs
  distinct : w.uuids.Nodup
  used : ∀ uuid ∈ w.uuids, uuid ∈ used
  frames : ∀ frame, Item.tokens frame ∈ w.inbox → frame.modality ≠ .videoFrame

/-- No inline frame holds frames of a video. -/
def Event.Plain : Event ρ → Prop
  | .newResultTokens _ modality => modality ≠ .videoFrame
  | _ => True

instance : DecidablePred (Event.Plain : Event ρ → Prop)
  | .newResultTokens _ modality => inferInstanceAs (Decidable (modality ≠ .videoFrame))
  | .newRequest _ | .newResultTensors _ | .take _ _ | .processReadTensors _ _
  | .encodeDone _ _ | .releaseEncoded | .getResultChunks | .beginDrain _ | .readsDone _
  | .drop _ | .release _ => inferInstanceAs (Decidable True)

namespace Sound

variable {w w' : Worker ρ} {flight flight' : List (ρ × ℕ)} {jobs jobs' : List (EncodeJob ρ)}

/-- The tensors in flight in another order. -/
theorem flight_perm (h : Sound w flight jobs) (hperm : flight.Perm flight') :
    Sound w flight' jobs where
  distinct := (hperm.map Prod.snd).nodup_iff.1 h.distinct
  minted := h.minted
  kept := by
    intro r i s hr
    have hk := h.kept r i s hr
    exact ⟨hk.ordered, hk.keys, hk.slot, fun e he => hperm.mem_iff.1 (hk.reading e he),
      hk.described, hk.encodes⟩
  pooled := h.pooled

/-- The jobs in another order. -/
theorem jobs_perm (h : Sound w flight jobs) (hperm : jobs.Perm jobs') : Sound w flight jobs' where
  distinct := h.distinct
  minted := h.minted
  kept := by
    intro r i s hr
    have hk := h.kept r i s hr
    have hof : (jobsOf jobs r i).Perm (jobsOf jobs' r i) := hperm.filter _
    refine ⟨hk.ordered.congr ?_, hk.keys, hk.slot, hk.reading, hk.described,
      fun j hj => hk.encodes j (hof.mem_iff.2 hj)⟩
    exact List.Perm.append_left _ (hof.map _)
  pooled := fun j hj => h.pooled j (hperm.mem_iff.2 hj)

end Sound

omit [DecidableEq ρ] in
/-- What is in flight, one list after another. -/
theorem flightOf_append (a b : List (Edge ρ)) : flightOf (a ++ b) = flightOf a ++ flightOf b :=
  List.flatMap_append

omit [DecidableEq ρ] in
/-- The order of edges does not matter. -/
theorem flightOf_perm {a b : List (Edge ρ)} (h : a.Perm b) : (flightOf a).Perm (flightOf b) :=
  h.flatMap_right _

omit [DecidableEq ρ] in
/-- The tensors in flight for a request. -/
theorem map_snd_inFlight (rid : ρ) (uuids : List ℕ) :
    (inFlight rid uuids).map Prod.snd = uuids := by
  unfold inFlight
  rw [List.map_map]
  exact List.map_id uuids

omit [DecidableEq ρ] in
/-- An edge whose read has been started. -/
theorem flightOf_started (reads : List (Edge ρ)) (edge : Edge ρ) :
    flightOf (if true && !edge.uuids.isEmpty then reads ++ [edge] else reads) =
      flightOf reads ++ inFlight edge.requestId edge.uuids := by
  cases hu : edge.uuids with
  | nil => simp [inFlight]
  | cons uuid uuids =>
    rw [if_pos (by simp), flightOf_append]
    simp [flightOf, hu]

/-- The reads that come back are among those that were started. -/
theorem reads_perm {back reads : List (Edge ρ)} (h : back.Subperm reads) :
    (back ++ reads.diff back).Perm reads :=
  List.subperm_append_diff_self_of_count_le (List.subperm_ext_iff.1 h)

namespace World

variable {w : World ρ} {used : List ℕ}

/-- The rows that are counted leave everything but the counts. -/
theorem countRows_same (w : World ρ) (rows : List (ρ × ℤ)) :
    (w.countRows rows).1.worker = w.worker ∧ (w.countRows rows).1.inbox = w.inbox ∧
      (w.countRows rows).1.reads = w.reads ∧ (w.countRows rows).1.taken = w.taken ∧
      (w.countRows rows).1.bare = w.bare ∧ (w.countRows rows).1.received = w.received := by
  induction rows generalizing w with
  | nil => exact ⟨rfl, rfl, rfl, rfl, rfl, rfl⟩
  | cons row rows ih =>
    unfold countRows
    split
    · exact ih w
    · exact ih _

/-- What the events about the worker alone keep. -/
theorem Sane.congr {w' : World ρ} (h : w.Sane used) (hinbox : w'.inbox = w.inbox)
    (hreads : w'.reads = w.reads)
    (hsound : Sound w'.worker (flightOf w.reads) w'.worker.jobs) : w'.Sane used := by
  have huuids : w'.uuids = w.uuids := by
    unfold World.uuids
    rw [hinbox, hreads]
  refine ⟨by rw [hreads]; exact hsound, by rw [huuids]; exact h.distinct,
    by rw [huuids]; exact h.used, by rw [hinbox]; exact h.frames⟩

/-- The worker has taken the next item, and the reads are as before. -/
theorem Sane.of_taken {w' : World ρ} {item : Item ρ} {inbox : List (Item ρ)}
    (h : w.Sane used) (hitem : w.inbox = item :: inbox) (hinbox : w'.inbox = inbox)
    (hreads : w'.reads = w.reads)
    (hsound : Sound w'.worker (flightOf w.reads) w'.worker.jobs) : w'.Sane used := by
  have hsub : w'.uuids.Sublist w.uuids := by
    unfold World.uuids
    rw [hinbox, hreads, hitem, List.flatMap_cons, List.append_assoc]
    exact List.sublist_append_right _ _
  refine ⟨by rw [hreads]; exact hsound, hsub.nodup h.distinct,
    fun u hu => h.used u (hsub.subset hu), ?_⟩
  rw [hinbox]
  intro frame hframe
  exact h.frames frame (by rw [hitem]; exact List.mem_cons_of_mem _ hframe)

/-- An item more waits for the worker. -/
theorem Sane.of_queued {w' : World ρ} {item : Item ρ} (h : w.Sane used)
    (hworker : w'.worker = w.worker) (hinbox : w'.inbox = w.inbox ++ [item])
    (hreads : w'.reads = w.reads) (hnodup : item.uuids.Nodup)
    (hfresh : ∀ uuid ∈ item.uuids, uuid ∉ used)
    (hframe : ∀ frame, item = .tokens frame → frame.modality ≠ .videoFrame) :
    w'.Sane (used ++ item.uuids) := by
  have hperm : w'.uuids.Perm (w.uuids ++ item.uuids) := by
    unfold World.uuids
    rw [hinbox, hreads, List.flatMap_append, List.flatMap_singleton, List.append_assoc,
      List.append_assoc]
    exact List.Perm.append_left _ List.perm_append_comm
  constructor
  · rw [hworker, hreads]
    exact h.sound
  · rw [hperm.nodup_iff, List.nodup_append]
    refine ⟨h.distinct, hnodup, ?_⟩
    intro a ha b hb heq
    exact hfresh b hb (heq ▸ h.used a ha)
  · intro u hu
    rcases List.mem_append.1 (hperm.mem_iff.1 hu) with hu | hu
    · exact List.mem_append_left _ (h.used u hu)
    · exact List.mem_append_right _ hu
  · rw [hinbox]
    intro frame hmem
    rcases List.mem_append.1 hmem with hmem | hmem
    · exact h.frames frame hmem
    · exact hframe frame (List.mem_singleton.1 hmem).symm

/-- More uuids used keep a world sane. -/
theorem Sane.mono (h : w.Sane used) (more : List ℕ) : w.Sane (used ++ more) :=
  ⟨h.sound, h.distinct, fun u hu => List.mem_append_left _ (h.used u hu), h.frames⟩

/-- The tensors of an item the worker takes up are not in flight. -/
theorem Sane.fresh {item : Item ρ} {inbox : List (Item ρ)} (h : w.Sane used)
    (hitem : w.inbox = item :: inbox) :
    item.uuids.Nodup ∧ ∀ uuid ∈ item.uuids, uuid ∉ (flightOf w.reads).map Prod.snd := by
  have hdistinct := h.distinct
  unfold World.uuids at hdistinct
  rw [hitem, List.flatMap_cons, List.append_assoc, List.nodup_append] at hdistinct
  refine ⟨hdistinct.1, ?_⟩
  intro u hu hmem
  exact hdistinct.2.2 u hu u (List.mem_append_right _ hmem) rfl

/-- The worker has taken up an edge. -/
theorem Sane.takeTensors {edge : Edge ρ} {inbox : List (Item ρ)} (h : w.Sane used)
    (hitem : w.inbox = .tensors edge :: inbox) (started : Bool) :
    ({ w with inbox := inbox }.takeTensors edge started).Sane used := by
  unfold World.takeTensors
  by_cases hd : (w.worker.requests edge.requestId).draining = true
  · rw [if_pos hd]
    exact h.of_taken hitem rfl rfl h.sound
  · rw [if_neg hd]
    cases started with
    | false =>
      obtain ⟨-, -, hsound, -⟩ := Takes.readResultTensor_failed edge h.sound
      exact h.of_taken hitem rfl rfl hsound
    | true =>
      obtain ⟨hnodup, hfresh⟩ := h.fresh hitem
      have htakes := Takes.readResultTensor edge h.sound hnodup hfresh
      have hsound := htakes.sound
      have hflight := flightOf_started w.reads edge
      have hperm : ∀ w' : World ρ, w'.inbox = inbox →
          flightOf w'.reads = flightOf w.reads ++ inFlight edge.requestId edge.uuids →
          w'.uuids.Perm w.uuids := by
        intro w' hinbox hreads
        unfold World.uuids
        rw [hinbox, hreads, hitem, List.map_append, map_snd_inFlight, List.flatMap_cons,
          ← List.append_assoc]
        exact List.perm_append_comm.trans (by rw [List.append_assoc]; exact List.Perm.refl _)
      have hsame := hperm (World.mk (w.worker.readResultTensor edge true).1 inbox
        (if true && !edge.uuids.isEmpty then w.reads ++ [edge] else w.reads) w.reading
        w.notified w.taken w.bare w.received) rfl hflight
      refine ⟨?_, hsame.nodup_iff.2 h.distinct, fun u hu => h.used u (hsame.mem_iff.1 hu), ?_⟩
      · dsimp only
        rw [hflight]
        exact hsound
      · intro frame hframe
        exact h.frames frame (by rw [hitem]; exact List.mem_cons_of_mem _ hframe)

/-- The worker has taken up a frame. -/
theorem Sane.takeTokens {frame : InlineTokens ρ} {inbox : List (Item ρ)} (h : w.Sane used)
    (hitem : w.inbox = .tokens frame :: inbox) (outcomes : List Bool) :
    ({ w with inbox := inbox }.takeTokens frame outcomes).Sane used := by
  have hmodality := h.frames frame (by rw [hitem]; exact List.mem_cons_self)
  obtain ⟨-, puts, htakes⟩ :=
    Takes.emitRows h.sound hmodality (w.worker.keptRows frame) outcomes
  exact h.of_taken hitem rfl rfl htakes.sound

/-- Reads have come back. -/
theorem Sane.processReadTensors (pool : Bool) {failed : List (Edge ρ)}
    {ready : List (Edge ρ × List Outcome)} (h : w.Sane used)
    (hback : (failed ++ ready.map Prod.fst).Subperm w.reads) :
    (w.worker.processReadTensors pool failed ready).2 = false ∧
      ∃ puts, Handles w.worker (w.worker.processReadTensors pool failed ready).1
        (flightOf (failed ++ ready.map Prod.fst))
        (flightOf (w.reads.diff (failed ++ ready.map Prod.fst))) puts := by
  have hperm := flightOf_perm (reads_perm hback)
  rw [flightOf_append, flightOf_append, List.append_assoc] at hperm
  rw [flightOf_append]
  exact Handles.processReadTensors pool failed ready (h.sound.flight_perm hperm.symm)

/-- Each event. -/
theorem Sane.step {pool : Bool} {event : Event ρ} (h : w.Sane used)
    (hallowed : w.Allowed used event) (hplain : event.Plain) :
    (w.step pool event).Sane (used ++ event.uuids) := by
  cases event with
  | newRequest rid =>
    refine World.Sane.mono ?_ _
    refine h.congr rfl rfl ?_
    refine Sound.renewed h.sound rfl (fun r hr => Function.update_of_ne hr _ _) ?_
    simp [World.step, World.newRequest, Worker.modify]
  | newResultTensors edge =>
    unfold World.step World.newResultTensors
    dsimp only
    by_cases hnone : (w.reading edge.requestId).isNone = true
    · rw [if_pos hnone]
      exact h.mono _
    · rw [if_neg hnone]
      have hframe : ∀ frame, Item.tensors edge = .tokens frame →
          frame.modality ≠ .videoFrame := by
        intro frame hframe
        cases hframe
      refine World.Sane.of_queued h ?_ ?_ ?_ ?_ ?_ hframe
      · rfl
      · rfl
      · rfl
      · exact hallowed.1
      · exact hallowed.2
  | newResultTokens rows modality =>
    obtain ⟨hworker, hinbox, hreads, -⟩ := countRows_same w rows
    unfold World.step World.newResultTokens
    dsimp only
    have hcounted : (w.countRows rows).1.Sane (used ++ []) := by
      refine (h.congr hinbox hreads ?_).mono _
      rw [hworker]
      exact h.sound
    by_cases hempty : (w.countRows rows).2.isEmpty = true
    · rw [if_pos hempty]
      exact hcounted
    · rw [if_neg hempty]
      rw [List.append_nil] at hcounted
      have hframe : ∀ frame, Item.tokens ⟨(w.countRows rows).2.map Prod.fst,
          (w.countRows rows).2.map Prod.snd, modality⟩ = .tokens frame →
            frame.modality ≠ .videoFrame := by
        intro frame hframe
        cases hframe
        exact hplain
      refine World.Sane.of_queued hcounted ?_ ?_ ?_ ?_ ?_ hframe
      · rfl
      · rfl
      · rfl
      · exact List.nodup_nil
      · intro u hu
        cases hu
  | take started outcomes =>
    unfold World.step
    dsimp only
    split
    · exact h.mono _
    · rename_i edge inbox hitem
      exact (h.takeTensors hitem started).mono _
    · rename_i frame inbox hitem
      exact (h.takeTokens hitem outcomes).mono _
  | processReadTensors failed ready =>
    obtain ⟨-, puts, hhandles⟩ := h.processReadTensors pool hallowed
    have hperm := (flightOf_perm (reads_perm hallowed)).map Prod.snd
    rw [flightOf_append, List.map_append] at hperm
    have hall := (List.Perm.append_left (w.inbox.flatMap Item.uuids) hperm).symm
    have hsub : (w.inbox.flatMap Item.uuids ++
        (flightOf (w.reads.diff (failed ++ ready.map Prod.fst))).map Prod.snd).Sublist
          (w.inbox.flatMap Item.uuids ++ ((flightOf (failed ++ ready.map Prod.fst)).map Prod.snd ++
            (flightOf (w.reads.diff (failed ++ ready.map Prod.fst))).map Prod.snd)) :=
      List.Sublist.append_left (List.sublist_append_right _ _) _
    refine World.Sane.mono ?_ _
    exact ⟨hhandles.sound, hsub.nodup (hall.nodup_iff.1 h.distinct),
      fun u hu => h.used u (hall.mem_iff.2 (hsub.subset hu)), h.frames⟩
  | encodeDone index ok =>
    unfold World.step
    dsimp only
    cases hjob : w.worker.encoding[index]? with
    | none => exact h.mono _
    | some job =>
      refine World.Sane.mono ?_ _
      refine h.congr rfl rfl ?_
      have hperm : w.worker.jobs.Perm
          (w.worker.encoding.eraseIdx index ++
            (w.worker.encoded ++ [(⟨job, ok⟩ : EncodedOutput ρ)]).map fun out => out.job) := by
        obtain ⟨hlt, hat⟩ := List.getElem?_eq_some_iff.1 hjob
        have herase := (List.getElem_cons_eraseIdx_perm hlt).symm
        rw [hat] at herase
        unfold Worker.jobs
        rw [List.map_append, List.map_singleton]
        refine (herase.append_right _).trans ?_
        rw [List.cons_append, ← List.append_assoc]
        exact List.perm_append_singleton _ _ |>.symm
      have hsame := h.sound.jobs_perm hperm
      exact ⟨hsame.distinct, hsame.minted, hsame.kept, hsame.pooled⟩
  | releaseEncoded =>
    obtain ⟨-, puts, hhandles⟩ := Handles.releaseAll w.worker.encoded h.sound rfl
    refine World.Sane.mono ?_ _
    exact h.congr rfl rfl hhandles.sound
  | getResultChunks =>
    refine World.Sane.mono ?_ _
    refine h.congr rfl rfl ?_
    exact ⟨h.sound.distinct, h.sound.minted, h.sound.kept, h.sound.pooled⟩
  | beginDrain rid =>
    refine World.Sane.mono ?_ _
    refine h.congr rfl rfl (h.sound.congr rfl ?_)
    intro r
    refine Or.inr ?_
    by_cases hr : r = rid
    · subst hr
      simp [World.step, Worker.modify]
    · simp [World.step, Worker.modify, Function.update_of_ne hr]
  | readsDone rid =>
    refine World.Sane.mono ?_ _
    refine h.congr rfl rfl (h.sound.congr rfl ?_)
    intro r
    refine Or.inr ?_
    by_cases hr : r = rid
    · subst hr
      simp [World.step, Worker.modify]
    · simp [World.step, Worker.modify, Function.update_of_ne hr]
  | drop rid =>
    refine World.Sane.mono ?_ _
    refine h.congr rfl rfl (h.sound.congr rfl ?_)
    intro r
    by_cases hr : r = rid
    · subst hr
      exact Or.inl (by simp [World.step, Worker.modify, Request.none])
    · exact Or.inr (by simp [World.step, Worker.modify, Function.update_of_ne hr])
  | release rid =>
    refine World.Sane.mono ?_ _
    exact h.congr rfl rfl h.sound

/-- The empty world is sane. -/
theorem sane_empty : (World.empty : World ρ).Sane [] where
  sound :=
    ⟨List.nodup_nil, fun _ _ _ h => (by cases h), fun _ _ _ h => (by cases h),
      fun _ h => (by cases h)⟩
  distinct := List.nodup_nil
  used := fun _ h => by cases h
  frames := fun _ h => by cases h

/-- Every run. -/
theorem sane_of_runs {pool : Bool} {events : List (Event ρ)} (h : Runs pool events w used)
    (hplain : ∀ event ∈ events, event.Plain) : w.Sane used := by
  induction h with
  | start => exact sane_empty
  | step _ event hallowed ih =>
    refine (ih fun e he => hplain e (List.mem_append_left _ he)).step hallowed ?_
    exact hplain event (List.mem_append_right _ List.mem_cons_self)

end World

end Mstar.OutputSlots
