import Mstar.RingVisibility

/-!
# One session of a ring

What a pass does to a session depends on the rows of that session alone. A session
that has committed its frames in order holds, in each addressed slot, the last kept
frame of the slot, and its visibility row marks exactly the blocks that are planned.
-/

namespace Mstar.RingKV

variable {α : Type*} {g : Geometry} {tokens : ℕ}

/-- Two rings agree on a session's tokens. -/
def Agree (g : Geometry) (tokens s : ℕ) (ring ring' : LayerRing α) : Prop :=
  ∀ j ≤ g.ringFrames, ∀ t < tokens,
    ring.kv (g.base tokens s j + t) = ring'.kv (g.base tokens s j + t) ∧
      ring.written (g.base tokens s j + t) = ring'.written (g.base tokens s j + t)

namespace Agree

/-- A ring agrees with itself. -/
theorem refl (g : Geometry) (tokens s : ℕ) (ring : LayerRing α) : Agree g tokens s ring ring :=
  fun _ _ _ _ => ⟨rfl, rfl⟩

/-- A row written into one frame slot. -/
theorem scatterRow_at (s s' : ℕ) {j j' t : ℕ} (hj : j ≤ g.ringFrames) (hj' : j' ≤ g.ringFrames)
    (ht : t < tokens) (frame : ℕ → α) (mark : Bool) (ring : LayerRing α) :
    (scatterRow tokens (g.base tokens s' j') frame mark ring).kv (g.base tokens s j + t) =
        (if s = s' ∧ j = j' then frame t else ring.kv (g.base tokens s j + t)) ∧
      (scatterRow tokens (g.base tokens s' j') frame mark ring).written
          (g.base tokens s j + t) =
        ((mark && decide (s = s' ∧ j = j')) || ring.written (g.base tokens s j + t)) := by
  unfold scatterRow
  dsimp only
  rw [g.inFrame_base tokens hj hj' ht]
  refine ⟨?_, rfl⟩
  by_cases h : s = s' ∧ j = j'
  · obtain ⟨rfl, rfl⟩ := h
    simp
  · simp [h]

/-- The rows of other sessions leave a session as it was. -/
theorem ringScatter {s : ℕ} (place : Row α → ℕ) (hplace : ∀ r, place r ≤ g.ringFrames)
    (mark : Bool) (rows : List (Row α)) {ring ring' : LayerRing α}
    (h : Agree g tokens s ring ring') :
    Agree g tokens s
      (RingKV.ringScatter tokens (fun r => g.base tokens r.sessionIdx (place r)) mark rows ring)
      (RingKV.ringScatter tokens (fun r => g.base tokens r.sessionIdx (place r)) mark
        (rows.filter fun r => r.sessionIdx == s) ring') := by
  induction rows generalizing ring ring' with
  | nil => exact h
  | cons r rows ih =>
    have hkeep (j : ℕ) (hj : j ≤ g.ringFrames) (t : ℕ) (ht : t < tokens)
        (into : LayerRing α) :=
      scatterRow_at s r.sessionIdx hj (hplace r) ht r.frame mark into
    by_cases hr : r.sessionIdx = s
    · rw [List.filter_cons_of_pos (by simpa using hr)]
      refine ih fun j hj t ht => ?_
      rw [(hkeep j hj t ht ring).1, (hkeep j hj t ht ring').1, (hkeep j hj t ht ring).2,
        (hkeep j hj t ht ring').2, (h j hj t ht).1, (h j hj t ht).2]
      exact ⟨rfl, rfl⟩
    · rw [List.filter_cons_of_neg (by simpa using hr)]
      refine ih fun j hj t ht => ?_
      have hno : ¬(s = r.sessionIdx ∧ j = place r) := fun hin => hr hin.1.symm
      rw [(hkeep j hj t ht ring).1, (hkeep j hj t ht ring).2, if_neg hno, decide_eq_false hno,
        Bool.and_false, Bool.false_or]
      exact h j hj t ht

end Agree

/-- A slot is in the ring or behind it. -/
theorem slot_le (g : Geometry) (f : ℕ) : g.slot f ≤ g.ringFrames :=
  le_trans (le_of_lt (Nat.mod_lt _ g.buckets_pos)) g.buckets_le

/-- Where a committed row goes, as a frame slot. -/
def commitPlace (g : Geometry) (r : Row α) : ℕ :=
  if g.writeStep r.framePos then g.slot r.framePos else g.ringFrames

/-- So is the place of a commit. -/
theorem commitPlace_le (r : Row α) : commitPlace g r ≤ g.ringFrames := by
  unfold commitPlace
  split
  · exact slot_le g r.framePos
  · exact le_refl _

/-- A row is committed at its place. -/
theorem commitBase_eq (r : Row α) :
    g.commitBase tokens r = g.base tokens r.sessionIdx (commitPlace g r) := by
  unfold Geometry.commitBase commitPlace
  split
  · rfl
  · rfl

/-- A pass does to a session what its own rows do. -/
theorem upsert_own (g : Geometry) (tokens s : ℕ) (rows : List (Row α)) (commit : Bool) (ring : LayerRing α) :
    Agree g tokens s (ring.upsert g tokens rows commit)
      (ring.upsert g tokens (rows.filter fun r => r.sessionIdx == s) commit) := by
  have hbase : g.commitBase (α := α) tokens =
      fun r => g.base tokens r.sessionIdx (commitPlace g r) := funext commitBase_eq
  have hcurrent := (Agree.refl g tokens s ring).ringScatter (fun _ => g.ringFrames)
    (fun _ => le_refl _) false rows
  unfold LayerRing.upsert
  rw [hbase]
  cases commit with
  | false => exact hcurrent
  | true => exact hcurrent.ringScatter (commitPlace g) commitPlace_le true rows

/-- What a session holds that has committed some frames in order: its scratch is
readable, its addressed slots are those that a kept frame took, and each holds the
last frame that took it. -/
structure Holds (g : Geometry) (tokens s : ℕ) (past : List (ℕ → α)) (ring : LayerRing α) :
    Prop where
  scratch : ∀ t < tokens, ring.written (g.base tokens s g.ringFrames + t) = true
  slots : ∀ j < g.ringFrames, ∀ t < tokens, ring.written (g.base tokens s j + t) = true ↔
    ∃ k, k * g.dilation < past.length ∧ k % g.ringBuckets = j
  frames : ∀ k frame, past[k * g.dilation]? = some frame →
    past.length ≤ (k + g.ringBuckets) * g.dilation →
      ∀ t < tokens, ring.kv (g.base tokens s (k % g.ringBuckets) + t) = frame t

namespace Holds

variable {s : ℕ} {past : List (ℕ → α)} {ring ring' : LayerRing α}

/-- A bucket is in the ring. -/
theorem bucket_lt (g : Geometry) (k : ℕ) : k % g.ringBuckets < g.ringFrames :=
  lt_of_lt_of_le (Nat.mod_lt _ g.buckets_pos) g.buckets_le

/-- It depends on the session's tokens alone. -/
theorem agree (h : Holds g tokens s past ring') (hagree : Agree g tokens s ring ring') :
    Holds g tokens s past ring where
  scratch t ht := (hagree _ (le_refl _) t ht).2.trans (h.scratch t ht)
  slots j hj t ht := by
    rw [(hagree j (le_of_lt hj) t ht).2]
    exact h.slots j hj t ht
  frames k frame hk hle t ht :=
    (hagree _ (le_of_lt (bucket_lt g k)) t ht).1.trans (h.frames k frame hk hle t ht)

/-- The scratch of a session is apart from what it holds. -/
theorem scratchRow (h : Holds g tokens s past ring) (frame : ℕ → α) (mark : Bool) :
    Holds g tokens s past
      (scatterRow tokens (g.base tokens s g.ringFrames) frame mark ring) := by
  constructor
  · intro t ht
    rw [(Agree.scatterRow_at s s (le_refl _) (le_refl _) ht frame mark ring).2, h.scratch t ht,
      Bool.or_true]
  · intro j hj t ht
    have hno : ¬(s = s ∧ j = g.ringFrames) := fun hin => absurd hin.2 (Nat.ne_of_lt hj)
    rw [(Agree.scatterRow_at s s (le_of_lt hj) (le_refl _) ht frame mark ring).2,
      decide_eq_false hno, Bool.and_false, Bool.false_or]
    exact h.slots j hj t ht
  · intro k frame' hk hle t ht
    have hno : ¬(s = s ∧ k % g.ringBuckets = g.ringFrames) := fun hin =>
      absurd hin.2 (Nat.ne_of_lt (bucket_lt g k))
    rw [(Agree.scatterRow_at s s (le_of_lt (bucket_lt g k)) (le_refl _) ht frame mark ring).1,
      if_neg hno]
    exact h.frames k frame' hk hle t ht

/-- A pass without a row of the session leaves it as it was. -/
theorem upsert_none (h : Holds g tokens s past ring) {rows : List (Row α)} (commit : Bool)
    (hrows : (rows.filter fun r => r.sessionIdx == s) = []) :
    Holds g tokens s past (ring.upsert g tokens rows commit) := by
  have hagree := upsert_own g tokens s rows commit ring
  rw [hrows] at hagree
  refine h.agree ?_
  cases commit with
  | false => exact hagree
  | true => exact hagree

/-- Passes that are not committed only reach the scratch. -/
theorem upsert_passes (h : Holds g tokens s past ring) (rows : List (Row α)) :
    Holds g tokens s past (ring.upsert g tokens rows false) := by
  refine Holds.agree ?_ (upsert_own g tokens s rows false ring)
  have hown : ∀ r ∈ rows.filter (fun r => r.sessionIdx == s), r.sessionIdx = s := by
    intro r hr
    simpa using (List.mem_filter.1 hr).2
  unfold LayerRing.upsert
  simp only [Bool.false_eq_true, if_false]
  generalize (rows.filter fun r => r.sessionIdx == s) = own at hown
  induction own generalizing ring with
  | nil => exact h
  | cons r own ih =>
    have hr := hown r List.mem_cons_self
    unfold RingKV.ringScatter
    rw [g.currentBase_eq, hr]
    exact ih (h.scratchRow r.frame false) fun r' hr' => hown r' (List.mem_cons_of_mem r hr')

/-- A committed frame joins the history. -/
theorem commitRow (h : Holds g tokens s past ring) {r : Row α} (hs : r.sessionIdx = s)
    (hclock : r.framePos = past.length) :
    Holds g tokens s (past ++ [r.frame])
      (scatterRow tokens (g.commitBase tokens r) r.frame true ring) := by
  have hbuckets := g.buckets_pos
  have hplace := commitPlace_le (g := g) r
  rw [commitBase_eq, hs]
  have hat {j t : ℕ} (hj : j ≤ g.ringFrames) (ht : t < tokens) :=
    Agree.scatterRow_at s s hj hplace ht r.frame true ring
  have hlen : (past ++ [r.frame]).length = past.length + 1 := List.length_append
  cases hstep : g.writeStep r.framePos with
  | false =>
    -- The layer does not keep the frame: it stays in the scratch.
    have hto : commitPlace g r = g.ringFrames := by
      unfold commitPlace
      rw [hstep]
      rfl
    have hne (k : ℕ) : k * g.dilation ≠ past.length := by
      intro heq
      rw [hclock, g.writeStep_iff.2 ⟨k, heq.symm⟩] at hstep
      cases hstep
    rw [hto]
    have hkept := h.scratchRow r.frame true
    refine ⟨hkept.scratch, fun j hj t ht => ?_, fun k frame hk hle t ht => ?_⟩
    · rw [hkept.slots j hj t ht, hlen]
      refine exists_congr fun k => and_congr_left fun _ => ?_
      have := hne k
      omega
    · rw [hlen] at hle
      refine hkept.frames k frame ?_ (by omega) t ht
      have hin : k * g.dilation < (past ++ [r.frame]).length :=
        (List.getElem?_eq_some_iff.1 hk).1
      have := hne k
      rwa [List.getElem?_append_left (by omega)] at hk
  | true =>
    obtain ⟨n, hn⟩ := g.writeStep_iff.1 hstep
    have hto : commitPlace g r = n % g.ringBuckets := by
      unfold commitPlace
      rw [hstep, if_pos rfl, g.slot_eq, hn, g.kept_mul]
    rw [hto] at hat ⊢
    rw [hclock] at hn
    constructor
    · intro t ht
      rw [(hat (le_refl _) ht).2, h.scratch t ht, Bool.or_true]
    · intro j hj t ht
      rw [(hat (le_of_lt hj) ht).2, hlen, Bool.or_eq_true, h.slots j hj t ht, Bool.true_and,
        decide_eq_true_iff]
      constructor
      · rintro (⟨-, rfl⟩ | ⟨k, hk, hmod⟩)
        · exact ⟨n, by omega, rfl⟩
        · exact ⟨k, by omega, hmod⟩
      · rintro ⟨k, hk, hmod⟩
        by_cases hlast : k * g.dilation = past.length
        · left
          rw [hn] at hlast
          obtain rfl := Nat.eq_of_mul_eq_mul_right g.dilation_pos hlast
          exact ⟨rfl, hmod.symm⟩
        · exact Or.inr ⟨k, by omega, hmod⟩
    · intro k frame hk hle t ht
      rw [hlen] at hle
      have hin : k * g.dilation < (past ++ [r.frame]).length :=
        (List.getElem?_eq_some_iff.1 hk).1
      rw [(hat (le_of_lt (bucket_lt g k)) ht).1]
      by_cases hlast : k * g.dilation = past.length
      · rw [hlast, List.getElem?_append_right (le_refl _)] at hk
        rw [hn] at hlast
        obtain rfl := Nat.eq_of_mul_eq_mul_right g.dilation_pos hlast
        rw [if_pos ⟨rfl, rfl⟩]
        simp only [Nat.sub_self, List.getElem?_cons_zero, Option.some.injEq] at hk
        rw [hk]
      · -- An earlier frame of the slot is a whole ring back, so it is not recent.
        have hless : k * g.dilation < past.length := by omega
        have hno : ¬(s = s ∧ k % g.ringBuckets = n % g.ringBuckets) := by
          rintro ⟨-, hmod⟩
          have hkn : k < n := by
            rw [hn] at hless
            exact Nat.lt_of_mul_lt_mul_right hless
          have hdvd : g.ringBuckets ∣ n - k := (Nat.modEq_iff_dvd' (le_of_lt hkn)).1 hmod
          have hroom := Nat.le_of_dvd (by omega) hdvd
          have hmul : (k + g.ringBuckets) * g.dilation ≤ n * g.dilation :=
            Nat.mul_le_mul_right g.dilation (by omega)
          omega
        rw [if_neg hno]
        rw [List.getElem?_append_left hless] at hk
        exact h.frames k frame hk (by omega) t ht

/-- So a committed pass with one row of the session commits that row's frame. -/
theorem upsert_commit (h : Holds g tokens s past ring) {rows : List (Row α)} {r : Row α}
    (hrows : (rows.filter fun r => r.sessionIdx == s) = [r]) (hclock : r.framePos = past.length) :
    Holds g tokens s (past ++ [r.frame]) (ring.upsert g tokens rows true) := by
  have hs : r.sessionIdx = s := by
    have hin : r ∈ rows.filter fun r => r.sessionIdx == s := by
      rw [hrows]
      exact List.mem_singleton.2 rfl
    simpa using (List.mem_filter.1 hin).2
  refine Holds.agree ?_ (upsert_own g tokens s rows true ring)
  rw [hrows]
  unfold LayerRing.upsert
  simp only [if_true, RingKV.ringScatter]
  refine Holds.commitRow ?_ hs hclock
  rw [g.currentBase_eq, hs]
  exact h.scratchRow r.frame false

end Holds

end Mstar.RingKV
