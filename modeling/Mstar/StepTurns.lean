import Mstar.StepPicks

/-!
# The loop over the rows of a step

What one row does to the loop, and what the loop keeps: the rows it takes are rows in
line, ready and of one capture group, and a composition of walks counts them under its
caps.
-/

namespace Mstar.StepPicks

variable {ρ ω γ κ : Type}

/-- The smaller cap is within the first. -/
theorem minCap_le_left {a : Option ℕ} (b : Option ℕ) {m : ℕ} (ha : a = some m) :
    ∃ k, minCap a b = some k ∧ k ≤ m := by
  rw [ha]
  cases b with
  | none => exact ⟨m, rfl, le_rfl⟩
  | some k => exact ⟨min m k, rfl, Nat.min_le_left m k⟩

/-- And within the second. -/
theorem minCap_le_right {a b : Option ℕ} {m : ℕ} (hb : b = some m) :
    ∃ k, minCap a b = some k ∧ k ≤ m := by
  rw [hb]
  cases a with
  | none => exact ⟨m, rfl, le_rfl⟩
  | some k => exact ⟨min k m, rfl, Nat.min_le_right k m⟩

variable [DecidableEq ω]

namespace Composition

/-- The composition without the cap kept for the row that was last let in. -/
def settled (s : Composition ω) : Composition ω := { s with nextCap := none }

/-- A row that joins leaves the step below its cap and its row caps. -/
theorem admits_joins {s joined : Composition ω} {walk : ω}
    (h : s.admits walk = (.joins, joined)) :
    joined = { s with nextCap := s.capWith walk } ∧
      (∀ m, s.capWith walk = some m → s.n < m) ∧ s.passesRowCap walk = false := by
  unfold admits at h
  dsimp only at h
  by_cases hcap : (s.capWith walk).any (· ≤ s.n) = true
  · rw [if_pos hcap, Prod.mk.injEq] at h
    split at h
    · cases h.1
    · cases h.1
  · rw [if_neg hcap] at h
    by_cases hover : s.passesRowCap walk = true
    · rw [if_pos hover] at h
      cases h
    · rw [if_neg hover, Prod.mk.injEq] at h
      refine ⟨h.2.symm, ?_, by simpa using hover⟩
      intro m hm
      rw [hm] at hcap
      simpa using hcap

/-- A settled composition admits the same. -/
theorem admits_settled (s : Composition ω) (walk : ω) :
    (s.settled.admits walk).1 = (s.admits walk).1 ∧
      (s.admits walk).2.settled = s.settled := by
  have hcap : s.settled.capWith walk = s.capWith walk := rfl
  have hover : s.settled.passesRowCap walk = s.passesRowCap walk := rfl
  have hn : s.settled.n = s.n := rfl
  have hwalks : s.settled.walks = s.walks := rfl
  unfold admits
  dsimp only
  rw [hcap, hover, hn, hwalks]
  split
  · exact ⟨rfl, rfl⟩
  · split
    · exact ⟨rfl, rfl⟩
    · exact ⟨rfl, rfl⟩

/-- A row added to compositions that agree on the rows before it. -/
theorem add_settled {s t : Composition ω} {walk : ω} (h : s.settled = t.settled)
    (hs : (s.admits walk).1 = .joins) :
    ((s.admits walk).2.add walk).settled = ((t.admits walk).2.add walk).settled := by
  have ht : (t.admits walk).1 = .joins := by
    rw [← (admits_settled t walk).1, ← h, (admits_settled s walk).1, hs]
  have hjoined := (admits_joins (Prod.ext hs rfl : s.admits walk = (.joins, (s.admits walk).2))).1
  have hjoined' := (admits_joins (Prod.ext ht rfl : t.admits walk = (.joins, (t.admits walk).2))).1
  have hcap : s.capWith walk = t.capWith walk := congrArg (fun u => u.capWith walk) h
  rw [hjoined, hjoined', hcap]
  have hcaps : s.caps = t.caps := congrArg (fun u => u.caps) h
  have hrowCaps : s.rowCaps = t.rowCaps := congrArg (fun u => u.rowCaps) h
  have hlabel : s.label = t.label := congrArg (fun u => u.label) h
  have hwalks : s.walks = t.walks := congrArg (fun u => u.walks) h
  have hcounts : s.counts = t.counts := congrArg (fun u => u.counts) h
  have hn : s.n = t.n := congrArg (fun u => u.n) h
  have hmost : s.most = t.most := congrArg (fun u => u.most) h
  unfold add settled
  simp only [hcaps, hrowCaps, hlabel, hwalks, hcounts, hn, hmost]

end Composition

variable [DecidableEq ρ] {c : StepCandidates ρ ω γ κ}

/-- What a composition knows of the rows it has taken. -/
structure Tallied (c : StepCandidates ρ ω γ κ) (taken : List ρ) (s : Composition ω) : Prop where
  caps : s.caps = c.walkCaps
  rowCaps : s.rowCaps = c.walkRowCaps
  label : s.label = c.graphWalk
  n : s.n = taken.length
  walks : ∀ walk, walk ∈ s.walks ↔ ∃ rid ∈ taken, c.walkIn rid = walk
  distinct : s.walks.Nodup
  counts : ∀ walk, s.counts walk = taken.countP (c.walkIn · = walk)
  bound : ∀ m, s.cap = some m → s.n ≤ m
  /-- A mixed step has the label's cap where there is one. -/
  mixed : 1 < s.walks.length → ∀ k, capOf c.walkCaps c.graphWalk = some k → s.cap = some k
  /-- Else no walk of the step has a smaller cap. -/
  smallest : s.walks.length ≤ 1 ∨ capOf c.walkCaps c.graphWalk = none → ∀ walk ∈ s.walks,
    ∀ k, capOf c.walkCaps walk = some k → ∃ m, s.cap = some m ∧ m ≤ k
  rows : 1 < s.walks.length → ∀ walk k, c.walkRowCaps.lookup walk = some k → s.counts walk ≤ k

namespace Tallied

variable {taken : List ρ} {s t : Composition ω}

/-- A new composition has taken nothing. -/
theorem new : Tallied c [] (Composition.new c) where
  caps := rfl
  rowCaps := rfl
  label := rfl
  n := rfl
  walks walk := by simp [Composition.new]
  distinct := List.nodup_nil
  counts _ := rfl
  bound m hm := by cases hm
  mixed hmixed := absurd hmixed (by simp [Composition.new])
  smallest _ walk hwalk := absurd hwalk List.not_mem_nil
  rows hmixed := absurd hmixed (by simp [Composition.new])

/-- The cap kept for the last row is no part of what it knows. -/
theorem of_settled (h : Tallied c taken s) (hsame : s.settled = t.settled) :
    Tallied c taken t := by
  have hcaps : s.caps = t.caps := congrArg (fun u => u.caps) hsame
  have hrowCaps : s.rowCaps = t.rowCaps := congrArg (fun u => u.rowCaps) hsame
  have hlabel : s.label = t.label := congrArg (fun u => u.label) hsame
  have hwalks : s.walks = t.walks := congrArg (fun u => u.walks) hsame
  have hcounts : s.counts = t.counts := congrArg (fun u => u.counts) hsame
  have hn : s.n = t.n := congrArg (fun u => u.n) hsame
  have hcap : s.cap = t.cap := congrArg (fun u => u.cap) hsame
  constructor
  · exact hcaps ▸ h.caps
  · exact hrowCaps ▸ h.rowCaps
  · exact hlabel ▸ h.label
  · exact hn ▸ h.n
  · exact hwalks ▸ h.walks
  · exact hwalks ▸ h.distinct
  · exact hcounts ▸ h.counts
  · exact hcap ▸ hn ▸ h.bound
  · exact hcap ▸ hwalks ▸ h.mixed
  · exact hcap ▸ hwalks ▸ h.smallest
  · exact hcounts ▸ hwalks ▸ h.rows

/-- A walk's rows counted with one more row. -/
theorem counts_update (h : Tallied c taken s) (rid : ρ) (walk : ω) :
    Function.update s.counts (c.walkIn rid) (s.counts (c.walkIn rid) + 1) walk =
      (taken ++ [rid]).countP (c.walkIn · = walk) := by
  rw [List.countP_append, List.countP_singleton, ← h.counts]
  by_cases hsame : walk = c.walkIn rid
  · rw [hsame, Function.update_self, if_pos (by simp)]
  · rw [Function.update_of_ne hsame, if_neg (by simpa using fun heq => hsame heq.symm)]
    rfl

/-- One more row is counted. -/
theorem length_concat (h : Tallied c taken s) (rid : ρ) : s.n + 1 = (taken ++ [rid]).length := by
  rw [List.length_append, List.length_singleton, h.n]

/-- A row taken whose walk is in the step. -/
theorem add_old {rid : ρ} (h : Tallied c taken s) (hold : c.walkIn rid ∈ s.walks)
    (hbelow : ∀ m, s.cap = some m → s.n < m) (hover : s.passesRowCap (c.walkIn rid) = false) :
    Tallied c (taken ++ [rid])
      { s with
        counts := Function.update s.counts (c.walkIn rid) (s.counts (c.walkIn rid) + 1)
        n := s.n + 1
        nextCap := s.cap } where
  caps := h.caps
  rowCaps := h.rowCaps
  label := h.label
  n := h.length_concat rid
  walks walk := by
    change walk ∈ s.walks ↔ _
    rw [h.walks]
    constructor
    · intro ⟨other, hother, heq⟩
      exact ⟨other, List.mem_append_left _ hother, heq⟩
    · intro ⟨other, hother, heq⟩
      rw [List.mem_append, List.mem_singleton] at hother
      cases hother with
      | inl hbefore => exact ⟨other, hbefore, heq⟩
      | inr hsame =>
        rw [← heq, hsame]
        exact (h.walks _).1 hold
  distinct := h.distinct
  counts := h.counts_update rid
  bound m hm := hbelow m hm
  mixed := h.mixed
  smallest := h.smallest
  rows hmixed walk k hk := by
    change Function.update s.counts _ _ walk ≤ k
    change 1 < s.walks.length at hmixed
    by_cases hsame : walk = c.walkIn rid
    · rw [hsame, Function.update_self]
      rw [hsame] at hk
      have hsome : ¬ (s.rowCaps = [] ∨ s.walks = []) := by
        intro hor
        cases hor with
        | inl hnone =>
          rw [← h.rowCaps, hnone] at hk
          cases hk
        | inr hnone =>
          rw [hnone] at hold
          cases hold
      unfold Composition.passesRowCap at hover
      rw [if_neg hsome, if_neg (by simpa using hold), h.rowCaps, hk] at hover
      simp only [decide_eq_false_iff_not] at hover
      omega
    · rw [Function.update_of_ne hsame]
      exact h.rows hmixed walk k hk

/-- A row taken whose walk is new to the step. -/
theorem add_new {rid : ρ} {cap : Option ℕ} (h : Tallied c taken s) (hnew : c.walkIn rid ∉ s.walks)
    (hcap : s.capWith (c.walkIn rid) = cap) (hbelow : ∀ m, cap = some m → s.n < m)
    (hover : s.passesRowCap (c.walkIn rid) = false) :
    Tallied c (taken ++ [rid])
      { s with
        walks := s.walks ++ [c.walkIn rid]
        counts := Function.update s.counts (c.walkIn rid) (s.counts (c.walkIn rid) + 1)
        n := s.n + 1
        cap := cap
        nextCap := cap } where
  caps := h.caps
  rowCaps := h.rowCaps
  label := h.label
  n := h.length_concat rid
  walks walk := by
    change walk ∈ s.walks ++ [c.walkIn rid] ↔ _
    rw [List.mem_append, List.mem_singleton, h.walks]
    constructor
    · intro hor
      cases hor with
      | inl hold =>
        obtain ⟨other, hother, heq⟩ := hold
        exact ⟨other, List.mem_append_left _ hother, heq⟩
      | inr heq => exact ⟨rid, List.mem_append_right _ List.mem_cons_self, heq.symm⟩
    · intro ⟨other, hother, heq⟩
      rw [List.mem_append, List.mem_singleton] at hother
      cases hother with
      | inl hbefore => exact Or.inl ⟨other, hbefore, heq⟩
      | inr hsame => exact Or.inr (by rw [← heq, hsame])
  distinct := by
    change (s.walks ++ [c.walkIn rid]).Nodup
    rw [List.nodup_append]
    refine ⟨h.distinct, List.nodup_singleton _, ?_⟩
    intro walk hwalk other hother heq
    rw [List.mem_singleton] at hother
    exact hnew (by rwa [← hother, ← heq])
  counts := h.counts_update rid
  bound m hm := hbelow m hm
  mixed hmixed k hk := by
    change 1 < (s.walks ++ [c.walkIn rid]).length at hmixed
    change cap = some k
    have hsome : s.walks ≠ [] := by
      intro hnone
      rw [hnone] at hmixed
      simp at hmixed
    rw [← hcap]
    unfold Composition.capWith
    rw [if_neg hnew, if_neg hsome, h.caps, h.label, hk]
  smallest hone walk hwalk k hk := by
    change (s.walks ++ [c.walkIn rid]).length ≤ 1 ∨ _ at hone
    change walk ∈ s.walks ++ [c.walkIn rid] at hwalk
    change ∃ m, cap = some m ∧ m ≤ k
    have hmin : cap = minCap s.cap (capOf c.walkCaps (c.walkIn rid)) := by
      rw [← hcap]
      unfold Composition.capWith
      rw [if_neg hnew, h.caps, h.label]
      by_cases hnone : s.walks = []
      · rw [if_pos hnone]
      · rw [if_neg hnone]
        cases hone with
        | inl hlength =>
          rw [List.length_append, List.length_singleton] at hlength
          exact absurd (List.length_eq_zero_iff.1 (by omega)) hnone
        | inr hlabel => rw [hlabel]
    rw [hmin]
    rw [List.mem_append, List.mem_singleton] at hwalk
    cases hwalk with
    | inl hold =>
      have hbefore : s.walks.length ≤ 1 ∨ capOf c.walkCaps c.graphWalk = none := by
        cases hone with
        | inl hlength =>
          rw [List.length_append, List.length_singleton] at hlength
          left
          omega
        | inr hlabel => exact Or.inr hlabel
      obtain ⟨m, hm, hle⟩ := h.smallest hbefore walk hold k hk
      obtain ⟨l, hl, hlm⟩ := minCap_le_left (capOf c.walkCaps (c.walkIn rid)) hm
      exact ⟨l, hl, by omega⟩
    | inr hsame =>
      rw [hsame] at hk
      exact minCap_le_right hk
  rows hmixed walk k hk := by
    change Function.update s.counts _ _ walk ≤ k
    change 1 < (s.walks ++ [c.walkIn rid]).length at hmixed
    have hsome : ¬ (s.rowCaps = [] ∨ s.walks = []) := by
      intro hor
      cases hor with
      | inl hnone =>
        rw [← h.rowCaps, hnone] at hk
        cases hk
      | inr hnone =>
        rw [hnone] at hmixed
        simp at hmixed
    unfold Composition.passesRowCap at hover
    rw [if_neg hsome, if_pos hnew, List.any_eq_false] at hover
    by_cases hmem : walk ∈ s.walks ++ [c.walkIn rid]
    · have hrow := hover walk hmem
      rw [h.rowCaps, hk] at hrow
      simp only [decide_eq_true_eq] at hrow
      by_cases hsame : walk = c.walkIn rid
      · rw [if_pos hsame] at hrow
        rw [hsame, Function.update_self]
        rw [hsame] at hrow
        omega
      · rw [if_neg hsame] at hrow
        rw [Function.update_of_ne hsame]
        omega
    · rw [List.mem_append, List.mem_singleton, not_or] at hmem
      have hzero : s.counts walk = 0 := by
        rw [h.counts, List.countP_eq_zero]
        intro other hother heq
        exact hmem.1 ((h.walks walk).2 ⟨other, hother, of_decide_eq_true heq⟩)
      rw [Function.update_of_ne hmem.2, hzero]
      omega

/-- A row taken where its walk can join. -/
theorem add {joined : Composition ω} {rid : ρ} (h : Tallied c taken s)
    (hjoins : s.admits (c.walkIn rid) = (.joins, joined)) :
    Tallied c (taken ++ [rid]) (joined.add (c.walkIn rid)) := by
  obtain ⟨rfl, hbelow, hover⟩ := Composition.admits_joins hjoins
  by_cases hold : c.walkIn rid ∈ s.walks
  · have hcap : s.capWith (c.walkIn rid) = s.cap := by
      unfold Composition.capWith
      rw [if_pos hold]
    have hadd := h.add_old hold (by rwa [← hcap]) hover
    unfold Composition.add
    dsimp only
    rw [if_pos hold, hcap]
    exact hadd
  · have hadd := h.add_new hold rfl hbelow hover
    unfold Composition.add
    dsimp only
    rw [if_neg hold]
    exact hadd

end Tallied

end Mstar.StepPicks
