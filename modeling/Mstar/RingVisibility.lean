import Mstar.RingAddresses
import Mathlib.Data.Finset.Sort
import Mathlib.Data.Finset.Image
import Mathlib.Data.Finset.Range

/-!
# Planned visibility of a ring

The attention manager lists a session's visible blocks from its clock alone. The
lists of two periods are all there are, so it keeps them in a table and stages the
row of the clock's phase.
-/

namespace Mstar.RingKV

/-- The rows of a geometry's table: for each session and phase, how many blocks are
visible, and those blocks, filled up with zeros. -/
structure VisibilityTable where
  counts : List (List ℕ)
  rows : List (List (List ℕ))
  period : ℕ

namespace Geometry

variable (g : Geometry) (blocksPerFrame : ℕ)

/-- The ring slots of the frames that a session committed, without the one that its
next frame takes. -/
def visibleSlots (framePos : ℕ) : Finset ℕ :=
  let committed := (List.range framePos).filter fun frame => frame % g.dilation == 0
  let slots := (committed.map fun frame => frame / g.dilation % g.ringBuckets).toFinset
  if framePos % g.dilation = 0 then slots.erase (framePos / g.dilation % g.ringBuckets)
  else slots

/-- `_visible_blocks_for`. -/
def visibleBlocksFor (sessionIdx framePos : ℕ) : List ℕ :=
  let sessionBase := sessionIdx * ((g.ringFrames + 1) * blocksPerFrame)
  ((g.visibleSlots framePos).sort fun a b => a ≤ b).flatMap (fun ringSlot =>
      List.range' (sessionBase + ringSlot * blocksPerFrame) blocksPerFrame) ++
    List.range' (sessionBase + g.ringFrames * blocksPerFrame) blocksPerFrame

/-- `_visibility_table_for`. -/
def visibilityTableFor (totalSessions : ℕ) : VisibilityTable :=
  let period := g.ringBuckets * g.dilation
  let totalBlocks := (g.ringFrames + 1) * blocksPerFrame * totalSessions
  { counts := (List.range totalSessions).map fun sessionIdx =>
      (List.range (2 * period)).map fun framePos =>
        (g.visibleBlocksFor blocksPerFrame sessionIdx framePos).length
    rows := (List.range totalSessions).map fun sessionIdx =>
      (List.range (2 * period)).map fun framePos =>
        let visible := g.visibleBlocksFor blocksPerFrame sessionIdx framePos
        visible ++ List.replicate (totalBlocks - visible.length) 0
    period }

end Geometry

/-- What is staged for one row of a plan: the number of full blocks, and their
indices; `none` where the table has no such entry. -/
def VisibilityTable.stageRow (table : VisibilityTable) (sessionIdx framePos : ℕ) :
    Option (ℕ × List ℕ) :=
  let phase := if framePos < table.period then framePos
    else table.period + framePos % table.period
  match table.counts[sessionIdx]?, table.rows[sessionIdx]? with
  | some counts, some rows =>
    match counts[phase]?, rows[phase]? with
    | some count, some row => some (count, row)
    | _, _ => none
  | _, _ => none

/-- `_stage`, row by row. -/
def VisibilityTable.stage (table : VisibilityTable) (plan : List (ℕ × ℕ)) :
    Option (List (ℕ × List ℕ)) :=
  plan.mapM fun r => table.stageRow r.1 r.2

/-- The blocks that a staged row makes visible. -/
def stagedBlocks (staged : ℕ × List ℕ) : List ℕ := staged.2.take staged.1

namespace Geometry

variable (g : Geometry) (blocksPerFrame : ℕ)

/-- The visible slots are those that a kept frame wrote, but for the one that the next
frame takes. -/
theorem mem_visibleSlots_written {f j : ℕ} : j ∈ g.visibleSlots f ↔
    ¬(g.writeStep f = true ∧ j = g.slot f) ∧
      ∃ k, k * g.dilation < f ∧ k % g.ringBuckets = j := by
  have hdilation := g.dilation_pos
  have hwritten : j ∈ (((List.range f).filter fun frame => frame % g.dilation == 0).map
      fun frame => frame / g.dilation % g.ringBuckets).toFinset ↔
        ∃ k, k * g.dilation < f ∧ k % g.ringBuckets = j := by
    rw [List.mem_toFinset, List.mem_map]
    constructor
    · rintro ⟨frame, hframe, rfl⟩
      rw [List.mem_filter, List.mem_range, beq_iff_eq] at hframe
      refine ⟨frame / g.dilation, ?_, rfl⟩
      rw [Nat.div_mul_cancel (Nat.dvd_of_mod_eq_zero hframe.2)]
      exact hframe.1
    · rintro ⟨k, hk, rfl⟩
      refine ⟨k * g.dilation, List.mem_filter.2 ⟨List.mem_range.2 hk, ?_⟩, ?_⟩
      · rw [Nat.mul_mod_left]
        rfl
      · rw [Nat.mul_div_cancel _ hdilation]
  unfold visibleSlots
  dsimp only
  cases hstep : g.writeStep f with
  | true =>
    have hmod : f % g.dilation = 0 := by simpa [writeStep] using hstep
    obtain ⟨n, rfl⟩ := g.writeStep_iff.1 hstep
    rw [if_pos hmod, Finset.mem_erase, hwritten, g.slot_eq, g.kept_mul,
      Nat.mul_div_cancel _ hdilation]
    simp
  | false =>
    have hmod : ¬f % g.dilation = 0 := by simpa [writeStep] using hstep
    rw [if_neg hmod, hwritten]
    simp

/-- They are the slots of the most recent kept frames. -/
theorem mem_visibleSlots {f j : ℕ} :
    j ∈ g.visibleSlots f ↔ ∃ k ∈ g.recent f, k % g.ringBuckets = j := by
  have hbuckets := g.buckets_pos
  -- Of the kept frames of a slot, the last one is within a ring of the clock.
  have hlast {k : ℕ} (hk : k < g.kept f) : ∃ k', k' % g.ringBuckets = k % g.ringBuckets ∧
      k' < g.kept f ∧ g.kept f - g.ringBuckets ≤ k' := by
    refine ⟨k + g.ringBuckets * ((g.kept f - 1 - k) / g.ringBuckets),
      Nat.add_mul_mod_self_left _ _ _, ?_, ?_⟩
    · have := Nat.mul_div_le (g.kept f - 1 - k) g.ringBuckets
      omega
    · have hrest := Nat.div_add_mod (g.kept f - 1 - k) g.ringBuckets
      have hsmall := Nat.mod_lt (g.kept f - 1 - k) hbuckets
      omega
  rw [mem_visibleSlots_written]
  simp only [← g.lt_kept_iff, g.mem_recent_kept, g.slot_eq]
  cases hstep : g.writeStep f with
  | true =>
    simp only [true_and, if_true]
    constructor
    · rintro ⟨hne, k, hk, rfl⟩
      obtain ⟨k', hsame, hlt, hle⟩ := hlast hk
      refine ⟨k', ⟨?_, hlt⟩, hsame⟩
      by_contra hgap
      have heq : g.kept f = k' + g.ringBuckets := by omega
      rw [heq, Nat.add_mod_right] at hne
      exact hne hsame.symm
    · rintro ⟨k, ⟨hle, hlt⟩, rfl⟩
      refine ⟨fun heq => ?_, k, hlt, rfl⟩
      have hdvd : g.ringBuckets ∣ g.kept f - k := (Nat.modEq_iff_dvd' (le_of_lt hlt)).1 heq
      have hroom := Nat.le_of_dvd (by omega) hdvd
      omega
  | false =>
    simp only [Bool.false_eq_true, false_and, not_false_eq_true, true_and, if_false]
    constructor
    · rintro ⟨k, hk, rfl⟩
      obtain ⟨k', hsame, hlt, hle⟩ := hlast hk
      exact ⟨k', ⟨hle, hlt⟩, hsame⟩
    · rintro ⟨k, ⟨-, hlt⟩, rfl⟩
      exact ⟨k, hlt, rfl⟩

/-- The blocks of a session's frame slot. -/
theorem mem_visibleBlocksFor {s f b : ℕ} :
    b ∈ g.visibleBlocksFor blocksPerFrame s f ↔
      ∃ j, (j = g.ringFrames ∨ ∃ k ∈ g.recent f, k % g.ringBuckets = j) ∧
        (s * (g.ringFrames + 1) + j) * blocksPerFrame ≤ b ∧
        b < (s * (g.ringFrames + 1) + j) * blocksPerFrame + blocksPerFrame := by
  have hplace (j : ℕ) : s * ((g.ringFrames + 1) * blocksPerFrame) + j * blocksPerFrame =
      (s * (g.ringFrames + 1) + j) * blocksPerFrame := by ring
  unfold visibleBlocksFor
  simp only [List.mem_append, List.mem_flatMap, Finset.mem_sort, mem_visibleSlots, hplace,
    List.mem_range'_1]
  constructor
  · rintro (⟨j, hj, hb⟩ | hb)
    · exact ⟨j, Or.inr hj, hb⟩
    · exact ⟨g.ringFrames, Or.inl rfl, hb⟩
  · rintro ⟨j, rfl | hj, hb⟩
    · exact Or.inr hb
    · exact Or.inl ⟨j, hj, hb⟩

/-- Past the wrap every addressed slot is written. -/
theorem visibleSlots_wrapped {f : ℕ} (hf : g.ringBuckets * g.dilation ≤ f) :
    g.visibleSlots f = if f % g.dilation = 0
      then (Finset.range g.ringBuckets).erase (f / g.dilation % g.ringBuckets)
      else Finset.range g.ringBuckets := by
  have hbuckets := g.buckets_pos
  have hall : (((List.range f).filter fun frame => frame % g.dilation == 0).map
      fun frame => frame / g.dilation % g.ringBuckets).toFinset =
        Finset.range g.ringBuckets := by
    ext j
    rw [List.mem_toFinset, List.mem_map, Finset.mem_range]
    constructor
    · rintro ⟨frame, -, rfl⟩
      exact Nat.mod_lt _ hbuckets
    · intro hj
      refine ⟨j * g.dilation, List.mem_filter.2 ⟨List.mem_range.2 ?_, ?_⟩, ?_⟩
      · exact lt_of_lt_of_le (Nat.mul_lt_mul_of_pos_right hj g.dilation_pos) hf
      · rw [Nat.mul_mod_left]
        rfl
      · rw [Nat.mul_div_cancel _ g.dilation_pos, Nat.mod_eq_of_lt hj]
  unfold visibleSlots
  dsimp only
  rw [hall]

/-- The second period of the table stands for all later ones. -/
theorem visibleBlocksFor_phase {s f : ℕ} (hf : g.ringBuckets * g.dilation ≤ f) :
    g.visibleBlocksFor blocksPerFrame s
        (g.ringBuckets * g.dilation + f % (g.ringBuckets * g.dilation)) =
      g.visibleBlocksFor blocksPerFrame s f := by
  have hmod : (g.ringBuckets * g.dilation + f % (g.ringBuckets * g.dilation)) % g.dilation =
      f % g.dilation := by
    rw [Nat.mul_add_mod_self_right, Nat.mod_mul_left_mod]
  have hdiv : (g.ringBuckets * g.dilation + f % (g.ringBuckets * g.dilation)) / g.dilation %
      g.ringBuckets = f / g.dilation % g.ringBuckets := by
    rw [Nat.add_comm, Nat.add_mul_div_right _ _ g.dilation_pos, Nat.add_mod_right,
      Nat.mod_mul_left_div_self, Nat.mod_mod]
  unfold visibleBlocksFor
  rw [g.visibleSlots_wrapped hf, g.visibleSlots_wrapped (Nat.le_add_right _ _), hmod, hdiv]

/-- What is staged is the list of the clock itself, whatever the clock. -/
theorem stageRow_eq {sessions s : ℕ} (hs : s < sessions) (f : ℕ) :
    ∃ staged, (g.visibilityTableFor blocksPerFrame sessions).stageRow s f = some staged ∧
      stagedBlocks staged = g.visibleBlocksFor blocksPerFrame s f := by
  have hperiod : 0 < g.ringBuckets * g.dilation := Nat.mul_pos g.buckets_pos g.dilation_pos
  have hentry {phase : ℕ} (hphase : phase < 2 * (g.ringBuckets * g.dilation))
      (hsame : g.visibleBlocksFor blocksPerFrame s phase =
        g.visibleBlocksFor blocksPerFrame s f)
      (hout : (if f < g.ringBuckets * g.dilation then f
        else g.ringBuckets * g.dilation + f % (g.ringBuckets * g.dilation)) = phase) :
      ∃ staged, (g.visibilityTableFor blocksPerFrame sessions).stageRow s f = some staged ∧
        stagedBlocks staged = g.visibleBlocksFor blocksPerFrame s f := by
    unfold VisibilityTable.stageRow visibilityTableFor
    simp only [hout, List.getElem?_map, List.getElem?_range hs, List.getElem?_range hphase,
      Option.map_some]
    refine ⟨_, rfl, ?_⟩
    unfold stagedBlocks
    rw [hsame]
    exact List.take_left' rfl
  by_cases hf : f < g.ringBuckets * g.dilation
  · exact hentry (by omega) rfl (if_pos hf)
  · have hless := Nat.mod_lt f hperiod
    exact hentry (by omega) (g.visibleBlocksFor_phase blocksPerFrame (by omega)) (if_neg hf)

end Geometry

end Mstar.RingKV
