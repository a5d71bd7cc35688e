import Mstar.OutputMoves

/-!
# Every sequence number has one answer on its way

A sequence number that has no chunk yet belongs to a tensor whose read is in
flight or to one job of the encode pool. The worker's calls keep it so: each
tensor that comes back and each job that ends answers its own number.
-/

namespace Mstar.OutputSlots

variable {ρ : Type*} [DecidableEq ρ]

/-- The jobs of one request's output state. -/
def jobsOf (jobs : List (EncodeJob ρ)) (rid : ρ) (id : ℕ) : List (EncodeJob ρ) :=
  jobs.filter fun j => j.requestId = rid ∧ j.state = id

/-- The sequence numbers an answer is on its way for. -/
def due (jobs : List (EncodeJob ρ)) (rid : ρ) (id : ℕ) (st : RequestOutputState ρ) : List ℕ :=
  st.order.map (fun e => e.2.1) ++ (jobsOf jobs rid id).map fun j => j.sequence

/-- One request's output state between the calls, with the tensors in flight
and the jobs of the pool. -/
structure Kept (flight : List (ρ × ℕ)) (jobs : List (EncodeJob ρ)) (metadata : List ℕ)
    (rid : ρ) (id : ℕ) (st : RequestOutputState ρ) : Prop where
  ordered : st.Ordered rid (due jobs rid id st)
  keys : (st.order.map Prod.fst).Nodup
  slot : ∀ e ∈ st.order, st.slots[e.2.1]? = some (.tensor e.1)
  reading : ∀ e ∈ st.order, (rid, e.1) ∈ flight
  described : ∀ e ∈ st.order, e.1 ∈ metadata
  encodes : ∀ j ∈ jobsOf jobs rid id, st.slots[j.sequence]? = some (.tensor j.uuid)

/-- The worker between its calls. -/
structure Sound (w : Worker ρ) (flight : List (ρ × ℕ)) (jobs : List (EncodeJob ρ)) :
    Prop where
  distinct : (flight.map Prod.snd).Nodup
  minted : ∀ rid id st, (w.requests rid).output = some (id, st) → id < w.minted
  kept : ∀ rid id st, (w.requests rid).output = some (id, st) →
    Kept flight jobs (w.requests rid).metadata rid id st
  pooled : ∀ j ∈ jobs, j.state < w.minted ∧ j.modality ≠ .videoFrame

/-- What a call did for every request: the output states move on, and the
chunks of each are put in turn. -/
structure Does (w w' : Worker ρ) (puts : List (ResultChunk ρ)) : Prop where
  queue : w'.outQueue = w.outQueue ++ puts
  advance : ∀ rid, (w.stateOf rid).Advance (w'.stateOf rid)
    (puts.filter fun c => c.requestId = rid)
  draining : ∀ rid, (w.requests rid).draining → (w'.requests rid).draining

/-- The tensors of a request that wait for their read. -/
def Worker.reading (w : Worker ρ) (rid : ρ) : List ℕ := (w.stateOf rid).order.map Prod.fst

namespace Sound

open RequestOutputState Worker

variable {w w' w'' : Worker ρ} {flight flight' : List (ρ × ℕ)}
  {jobs jobs' : List (EncodeJob ρ)} {rid : ρ} {id : ℕ} {st st' : RequestOutputState ρ}
  {puts puts' : List (ResultChunk ρ)} {metadata : List ℕ}

omit [DecidableEq ρ] in
/-- A request without output has a new one. -/
theorem stateOf_of_none (h : (w.requests rid).output = none) : w.stateOf rid = .new := by
  unfold stateOf
  rw [h]
  rfl

/-- No more slots are emitted than there are. -/
theorem nextEmit_le (h : Sound w flight jobs) (rid : ρ) :
    (w.stateOf rid).nextEmit ≤ (w.stateOf rid).slots.length := by
  cases hout : (w.requests rid).output with
  | none =>
    rw [stateOf_of_none hout]
    exact Nat.le_refl _
  | some o =>
    rw [stateOf_of_some hout]
    exact (h.kept rid o.1 o.2 hout).ordered.nextEmit_le

/-- Nothing done. -/
theorem does_refl (w : Worker ρ) : Does w w [] where
  queue := by simp
  advance := fun rid => Advance.refl (w.stateOf rid)
  draining := fun _ h => h

/-- One step after another. -/
theorem does_trans (h : Does w w' puts) (hs : Sound w' flight jobs) (h' : Does w' w'' puts') :
    Does w w'' (puts ++ puts') where
  queue := by rw [h'.queue, h.queue, List.append_assoc]
  advance := by
    intro rid
    rw [List.filter_append]
    exact (h.advance rid).trans (h'.advance rid) (hs.nextEmit_le rid)
  draining := fun rid hd => h'.draining rid (h.draining rid hd)

omit [DecidableEq ρ] in
/-- Another request's output stays. -/
theorem stateOf_of_others {o : Option (ℕ × RequestOutputState ρ)}
    (h : Moves w w' rid o metadata puts) {r : ρ} (hr : r ≠ rid) :
    w'.stateOf r = w.stateOf r := by
  unfold stateOf
  rw [h.others r hr]

/-- A call about one request. -/
theorem does_of_moves {o : Option (ℕ × RequestOutputState ρ)} (hst : w.stateOf rid = st)
    (h : Moves w w' rid o metadata puts) (hst' : w'.stateOf rid = st')
    (hadv : st.Advance st' puts) (hmine : ∀ c ∈ puts, c.requestId = rid) :
    Does w w' puts where
  queue := h.queue
  advance := by
    intro r
    by_cases hrid : r = rid
    · subst hrid
      rw [hst, hst', List.filter_eq_self.2 fun c hc => by simpa using hmine c hc]
      exact hadv
    · rw [stateOf_of_others h hrid, List.filter_eq_nil_iff.2]
      · exact Advance.refl (w.stateOf r)
      · intro c hc
        rw [hmine c hc]
        simpa using Ne.symm hrid
  draining := by
    intro r hd
    by_cases hrid : r = rid
    · subst hrid
      exact h.draining hd
    · rw [h.others r hrid]
      exact hd

/-- The worker after a call about one request, whose own part is kept. -/
theorem of_moves (h : Sound w flight jobs)
    (hm : Moves w w' rid (some (id, st')) metadata puts)
    (hminted : id < w.minted) (hflight : (flight'.map Prod.snd).Nodup)
    (hothers : ∀ r u, r ≠ rid → (r, u) ∈ flight → (r, u) ∈ flight')
    (hjobs : ∀ j ∈ jobs', j.state < w.minted ∧ j.modality ≠ .videoFrame)
    (hjobsOf : ∀ r i, r ≠ rid → jobsOf jobs' r i = jobsOf jobs r i)
    (hkept : Kept flight' jobs' metadata rid id st') : Sound w' flight' jobs' where
  distinct := hflight
  minted := by
    intro r i s hr
    rw [hm.minted]
    by_cases hrid : r = rid
    · subst hrid
      rw [hm.output] at hr
      cases hr
      exact hminted
    · rw [hm.others r hrid] at hr
      exact h.minted r i s hr
  kept := by
    intro r i s hr
    by_cases hrid : r = rid
    · subst hrid
      rw [hm.output] at hr
      cases hr
      rw [hm.metadata]
      exact hkept
    · rw [hm.others r hrid] at hr ⊢
      have hk := h.kept r i s hr
      constructor
      · have hord := hk.ordered
        unfold due at hord ⊢
        rw [hjobsOf r i hrid]
        exact hord
      · exact hk.keys
      · exact hk.slot
      · exact fun e he => hothers r e.1 hrid (hk.reading e he)
      · exact hk.described
      · rw [hjobsOf r i hrid]
        exact hk.encodes
  pooled := by
    rw [hm.minted]
    exact hjobs

/-- A call about a request that has no output state, and makes none. -/
theorem of_moves_none (h : Sound w flight jobs) (hout : (w.requests rid).output = none)
    (hm : Moves w w' rid none metadata puts) (hflight : (flight'.map Prod.snd).Nodup)
    (hothers : ∀ r u, r ≠ rid → (r, u) ∈ flight → (r, u) ∈ flight') :
    Sound w' flight' jobs where
  distinct := hflight
  minted := by
    intro r i s hr
    rw [hm.minted]
    by_cases hrid : r = rid
    · subst hrid
      rw [hm.output] at hr
      cases hr
    · rw [hm.others r hrid] at hr
      exact h.minted r i s hr
  kept := by
    intro r i s hr
    by_cases hrid : r = rid
    · subst hrid
      rw [hm.output] at hr
      cases hr
    · rw [hm.others r hrid] at hr ⊢
      have hk := h.kept r i s hr
      exact ⟨hk.ordered, hk.keys, hk.slot, fun e he => hothers r e.1 hrid (hk.reading e he),
        hk.described, hk.encodes⟩
  pooled := by
    rw [hm.minted]
    exact h.pooled

/-- No job is for an output state that is not made yet. -/
theorem jobsOf_minted (h : Sound w flight jobs) (rid : ρ) : jobsOf jobs rid w.minted = [] := by
  unfold jobsOf
  rw [List.filter_eq_nil_iff]
  intro j hj
  have hlt := (h.pooled j hj).1
  simp only [decide_eq_true_eq, not_and]
  intro _
  omega

/-- A request with a new output state. -/
theorem renewed (h : Sound w flight jobs) (hminted : w'.minted = w.minted + 1)
    (hothers : ∀ r, r ≠ rid → w'.requests r = w.requests r)
    (hout : (w'.requests rid).output = some (w.minted, .new)) : Sound w' flight jobs where
  distinct := h.distinct
  minted := by
    intro r i s hr
    rw [hminted]
    by_cases hrid : r = rid
    · subst hrid
      rw [hout] at hr
      cases hr
      exact Nat.lt_succ_self _
    · rw [hothers r hrid] at hr
      exact Nat.lt_succ_of_lt (h.minted r i s hr)
  kept := by
    intro r i s hr
    by_cases hrid : r = rid
    · subst hrid
      rw [hout] at hr
      cases hr
      have hnone := h.jobsOf_minted r
      constructor
      · unfold due
        rw [hnone]
        exact ordered_new r
      · exact List.nodup_nil
      · intro e he
        cases he
      · intro e he
        cases he
      · intro e he
        cases he
      · rw [hnone]
        intro j hj
        cases hj
    · rw [hothers r hrid] at hr ⊢
      exact h.kept r i s hr
  pooled := by
    intro j hj
    obtain ⟨hlt, hmodality⟩ := h.pooled j hj
    rw [hminted]
    exact ⟨Nat.lt_succ_of_lt hlt, hmodality⟩

/-- Output states and metadata that are the same, or gone. -/
theorem congr (h : Sound w flight jobs) (hminted : w'.minted = w.minted)
    (hsame : ∀ r, (w'.requests r).output = none ∨
      (w'.requests r).output = (w.requests r).output ∧
        (w'.requests r).metadata = (w.requests r).metadata) : Sound w' flight jobs where
  distinct := h.distinct
  minted := by
    intro r i s hr
    rw [hminted]
    rcases hsame r with hnone | ⟨hout, -⟩
    · rw [hnone] at hr
      cases hr
    · rw [hout] at hr
      exact h.minted r i s hr
  kept := by
    intro r i s hr
    rcases hsame r with hnone | ⟨hout, hmeta⟩
    · rw [hnone] at hr
      cases hr
    · rw [hout] at hr
      rw [hmeta]
      exact h.kept r i s hr
  pooled := by
    rw [hminted]
    exact h.pooled

end Sound

/-- The entry of a key and the entries of the others. -/
theorem perm_cons_others {β : Type*} {l : List (ℕ × β)} (h : (l.map Prod.fst).Nodup)
    {e : ℕ × β} (he : e ∈ l) : l.Perm (e :: l.filter fun x => x.1 ≠ e.1) := by
  induction l with
  | nil => cases he
  | cons first l ih =>
    rw [List.map_cons, List.nodup_cons] at h
    rcases List.mem_cons.1 he with rfl | he
    · have hrest : l.filter (fun x => decide (x.1 ≠ e.1)) = l := by
        rw [List.filter_eq_self]
        intro x hx
        have hne : x.1 ≠ e.1 := fun heq => h.1 (heq ▸ List.mem_map_of_mem hx)
        simpa using hne
      rw [List.filter_cons_of_neg (by simp), hrest]
    · have hne : first.1 ≠ e.1 := fun heq => h.1 (heq ▸ List.mem_map_of_mem he)
      rw [List.filter_cons_of_pos (by simpa using hne)]
      exact ((ih h.2 he).cons first).trans (List.Perm.swap e first _)

namespace Kept

open RequestOutputState

variable {flight : List (ρ × ℕ)} {jobs jobs' : List (EncodeJob ρ)} {metadata : List ℕ}
  {rid : ρ} {id uuid sequence : ℕ} {looped : Bool} {st st' : RequestOutputState ρ}

/-- What is in order is due. -/
theorem due_of_order (_h : Kept flight jobs metadata rid id st)
    (he : (uuid, (sequence, looped)) ∈ st.order) : sequence ∈ due jobs rid id st :=
  List.mem_append_left _ (List.mem_map.2 ⟨_, he, rfl⟩)

/-- A tensor that leaves the order leaves the rest of it. -/
theorem due_perm (h : Kept flight jobs metadata rid id st)
    (he : (uuid, (sequence, looped)) ∈ st.order) :
    (due jobs rid id st).Perm
      (sequence :: due jobs rid id (st.forget uuid)) :=
  ((perm_cons_others h.keys he).map fun e => e.2.1).append_right _

/-- Once forgotten it no longer is. -/
theorem due_erase (h : Kept flight jobs metadata rid id st)
    (he : (uuid, (sequence, looped)) ∈ st.order) :
    ((due jobs rid id st).erase sequence).Perm (due jobs rid id (st.forget uuid)) := by
  have hperm := (h.due_perm he).erase sequence
  rwa [List.erase_cons_head] at hperm

/-- The rest of the order once one tensor has come back. -/
theorem forget (h : Kept ((rid, uuid) :: flight) jobs metadata rid id st)
    (hslots : ∃ more, st'.slots = st.slots ++ more)
    (horder : st'.order = (st.forget uuid).order)
    (hjobs : ∀ j ∈ jobsOf jobs' rid id, st'.slots[j.sequence]? = some (.tensor j.uuid))
    (hord : st'.Ordered rid (due jobs' rid id st')) :
    Kept flight jobs' (metadata.filter fun u => u ≠ uuid) rid id st' := by
  have hsub : ∀ e ∈ st'.order, e ∈ st.order ∧ e.1 ≠ uuid := by
    intro e he
    rw [horder] at he
    unfold RequestOutputState.forget at he
    simpa using List.mem_filter.1 he
  constructor
  · exact hord
  · rw [horder]
    exact h.keys.sublist (List.filter_sublist.map _)
  · intro e he
    obtain ⟨more, hmore⟩ := hslots
    have hslot := h.slot e (hsub e he).1
    rw [hmore, List.getElem?_append_left (List.getElem?_eq_some_iff.1 hslot).1]
    exact hslot
  · intro e he
    obtain ⟨hmem, hne⟩ := hsub e he
    rcases List.mem_cons.1 (h.reading e hmem) with heq | hfl
    · exact absurd (Prod.mk.inj heq).2 hne
    · exact hfl
  · intro e he
    obtain ⟨hmem, hne⟩ := hsub e he
    exact List.mem_filter.2 ⟨h.described e hmem, by simpa using hne⟩
  · exact hjobs

omit [DecidableEq ρ] in
/-- A tensor without an entry. -/
theorem forget_eq (h : uuid ∉ st.order.map Prod.fst) : st.forget uuid = st := by
  unfold RequestOutputState.forget
  have hall : st.order.filter (fun e => e.1 ≠ uuid) = st.order := by
    rw [List.filter_eq_self]
    intro e he
    have hne : e.1 ≠ uuid := fun heq => h (heq ▸ List.mem_map_of_mem he)
    simpa using hne
  rw [hall]

end Kept

end Mstar.OutputSlots
