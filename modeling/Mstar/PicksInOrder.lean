import Mstar.StepLoops

/-!
# A pick keeps its caps and its order

Where no row is listed twice, a pick takes each row once, under its caps, out of
one capture group, in line, with or without the loop. The loop takes a chain's row
again where a queue lists it again.
-/

namespace Mstar.StepPicks

variable {ρ ω γ κ : Type} [DecidableEq ω] [DecidableEq ρ] [DecidableEq γ]

open StepCandidates

section Loop

variable {c : StepCandidates ρ ω γ κ}

/-- Whether a row can run in a step of a capture group. -/
def inGroup (c : StepCandidates ρ ω γ κ) (group : Option γ) (rid : ρ) : Bool :=
  c.canRun rid && match c.captureGroup with
    | none => true
    | some groupOf => decide (c.groupIn groupOf rid = group)

/-- In a step that has its group, a row that can join by its walk is taken if it can run
in that group. -/
theorem joinRow_all (rid : ρ) {s : Loop ρ ω γ} (hstep : s.step = none)
    (hgroup : c.captureGroup = none ∨ s.group ≠ none) :
    ∃ s', c.joinRow false rid s = some s' ∧
      s'.taken = s.taken ++ (if inGroup c s.group rid then [rid] else []) ∧
      s'.group = s.group ∧ s'.step = none ∧
      (c.captureGroup = none → s'.heldBack = s.heldBack) := by
  have hgroupIn : ∀ groupOf, (if decide (rid ∈ c.chain) = true then c.chainGroup
      else some (groupOf rid)) = c.groupIn groupOf rid := by
    intro groupOf
    unfold groupIn
    simp only [decide_eq_true_eq]
  have hcanRun : (!decide (rid ∈ c.chain) && !c.ready rid) = !c.canRun rid := by
    unfold canRun
    rw [Bool.not_or]
  unfold joinRow inGroup
  dsimp only
  rw [hcanRun]
  cases hrun : c.canRun rid with
  | false =>
    refine ⟨s, rfl, ?_, rfl, hstep, fun _ => rfl⟩
    rw [Bool.false_and, if_neg (by decide), List.append_nil]
  | true =>
    rw [Bool.not_true, if_neg (by decide), Bool.true_and]
    cases hcapture : c.captureGroup with
    | none =>
      refine ⟨_, rfl, rfl, rfl, ?_, fun _ => rfl⟩
      change s.step.map _ = none
      rw [hstep]
      rfl
    | some groupOf =>
      cases hhas : s.group with
      | none =>
        cases hgroup with
        | inl hnone =>
          rw [hcapture] at hnone
          cases hnone
        | inr hsome => exact absurd hhas hsome
      | some group =>
        dsimp only
        rw [hgroupIn]
        by_cases hsame : c.groupIn groupOf rid = some group
        · rw [if_pos hsame, if_pos (by simpa using hsame)]
          refine ⟨_, rfl, rfl, hhas, ?_, fun _ => rfl⟩
          change s.step.map _ = none
          rw [hstep]
          rfl
        · rw [if_neg hsame, if_neg (by decide), if_neg (by simpa using hsame)]
          refine ⟨_, rfl, (List.append_nil _).symm, rfl, hstep, ?_⟩
          intro hnone
          cases hnone

/-- Where all rows of one walk fit, the loop takes each that can run in the step's
group. -/
theorem walkRows_all {rows : List ρ} {s : Loop ρ ω γ} (hstep : s.step = none)
    (hgroup : c.captureGroup = none ∨ s.group ≠ none)
    (hroom : ∀ cap, c.oneCap = some cap → s.taken.length + rows.length ≤ cap) :
    (c.walkRows false rows s).taken = s.taken ++ rows.filter (inGroup c s.group) ∧
      (c.walkRows false rows s).step = none ∧
      (c.captureGroup = none → (c.walkRows false rows s).heldBack = s.heldBack) := by
  induction rows generalizing s with
  | nil =>
    refine ⟨?_, hstep, fun _ => rfl⟩
    rw [List.filter_nil, List.append_nil]
    rfl
  | cons rid rows ih =>
    obtain ⟨s', hjoin, htaken, hsame, hstep', hheld⟩ := joinRow_all rid hstep hgroup
    have hcap : c.oneCap.any (· ≤ s.taken.length) = false := by
      cases hone : c.oneCap with
      | none => rfl
      | some cap =>
        have hfits := hroom cap hone
        rw [List.length_cons] at hfits
        rw [Option.any_some, decide_eq_false_iff_not]
        omega
    have hturn : c.turn false rid s = some s' := by
      unfold turn
      rw [hstep]
      dsimp only
      rw [hcap, if_neg (by decide)]
      exact hjoin
    have hroom' : ∀ cap, c.oneCap = some cap → s'.taken.length + rows.length ≤ cap := by
      intro cap hone
      have hfits := hroom cap hone
      rw [List.length_cons] at hfits
      rw [htaken, List.length_append]
      split
      next =>
        rw [List.length_singleton]
        omega
      next =>
        rw [List.length_nil]
        omega
    obtain ⟨hrest, hnone, hheld'⟩ := ih hstep' (by rwa [hsame]) hroom'
    rw [walkRows_of_turn hturn]
    refine ⟨?_, hnone, fun hcapture => (hheld' hcapture).trans (hheld hcapture)⟩
    rw [hrest, htaken, hsame, List.filter_cons, List.append_assoc]
    congr 1
    split
    next => rfl
    next => rfl

end Loop

/-- The chain's rows share one capture group. -/
def SharesGroup (c : StepCandidates ρ ω γ κ) : Prop :=
  ∀ groupOf, c.captureGroup = some groupOf →
    ∀ rid ∈ c.continuing, ∀ other ∈ c.continuing, groupOf rid = groupOf other

/-- The rows that the loop of a capped step takes of the places ahead. -/
def ahead (c : StepCandidates ρ ω γ κ) (before : List ρ) : List ρ :=
  (c.walkRows true before (c.startLoop true)).taken

/-- A row that its capture group alone leaves out of a step: it can run, and its walk can
join the rows taken ahead of it. -/
def LeftForGroup (c : StepCandidates ρ ω γ κ) (taken before : List ρ) (rid : ρ) : Prop :=
  rid ∉ taken ∧ c.canRun rid = true ∧
    (c.oneWalk = none →
      ((c.compositionOf (ahead c before)).admits (c.walkIn rid)).1 = .joins)

section Walked

variable {c : StepCandidates ρ ω γ κ}

omit [DecidableEq ω] [DecidableEq γ] in
/-- The chain is of what continues. -/
theorem mem_chain {rid : ρ} : rid ∈ c.chain ↔ rid ∈ c.continuing := List.mem_dedup

omit [DecidableEq ω] [DecidableEq γ] in
/-- A row's own capture group is the one it has in the step. -/
theorem groupIn_eq (h : SharesGroup c) {groupOf : ρ → γ} (hgroup : c.captureGroup = some groupOf)
    (rid : ρ) : c.groupIn groupOf rid = some (groupOf rid) := by
  unfold groupIn
  split
  next hin =>
    rw [mem_chain] at hin
    unfold chainGroup
    rw [hgroup]
    cases hcontinuing : c.continuing with
    | nil =>
      rw [hcontinuing] at hin
      cases hin
    | cons first rest =>
      dsimp only
      rw [h groupOf hgroup rid hin first (by rw [hcontinuing]; exact List.mem_cons_self)]
  next => rfl

/-- The rows that a pick's loop takes are some of its rows. -/
theorem walked_sublist (c : StepCandidates ρ ω γ κ) (ordered strict : Bool) (rows : List ρ) :
    (c.walked ordered strict rows).taken.Sublist rows := by
  obtain ⟨more, hmore, htaken⟩ := walkRows_sublist strict rows (c.startLoop ordered)
  change (c.walkRows strict rows (c.startLoop ordered)).taken.Sublist rows
  rw [htaken]
  exact hmore

/-- A loop that takes no row twice lists each of the chain's rows once, those it took first,
if none that it leaves out has two places. -/
theorem walked_continuing {rows : List ρ} (ordered strict : Bool) (hperm : rows.Perm c.rows)
    (honce : (c.walked ordered strict rows).taken.Nodup)
    (hleft : ∀ rid ∈ c.continuing, rid ∉ (c.walked ordered strict rows).taken →
      rows.count rid ≤ 1) :
    ∃ behind, (c.walked ordered strict rows).continuing =
        (c.walked ordered strict rows).taken.filter (· ∈ c.chain) ++ behind ∧
      (c.walked ordered strict rows).continuing.Perm c.chain := by
  unfold StepCandidates.walked pickOf at honce hleft ⊢
  dsimp only at honce hleft ⊢
  refine ⟨_, rfl, ?_⟩
  generalize (c.walkRows strict rows (c.startLoop ordered)).taken = taken at honce hleft
  have hdistinct : c.chain.Nodup := List.nodup_dedup _
  have hkept : (taken.filter (· ∈ c.chain)).Nodup := honce.filter _
  have hsubset : ∀ rid ∈ taken.filter (· ∈ c.chain), rid ∈ c.chain := by
    intro rid hrid
    exact of_decide_eq_true (List.mem_filter.1 hrid).2
  split
  next hshort =>
    rw [List.perm_ext_iff_of_nodup _ hdistinct]
    · intro rid
      rw [List.mem_append]
      constructor
      · intro hor
        cases hor with
        | inl hin => exact hsubset rid hin
        | inr hin => exact (of_decide_eq_true (List.mem_filter.1 hin).2).1
      · intro hin
        by_cases hmem : rid ∈ taken.filter (· ∈ c.chain)
        · exact Or.inl hmem
        · right
          rw [List.mem_filter]
          refine ⟨?_, decide_eq_true ⟨hin, hmem⟩⟩
          rw [hperm.mem_iff]
          exact List.mem_append_left _ (List.mem_append_right _ (mem_chain.1 hin))
    · rw [List.nodup_append]
      refine ⟨hkept, ?_, ?_⟩
      · rw [List.nodup_iff_count_le_one]
        intro rid
        by_cases hbehind : rid ∈ c.chain ∧ rid ∉ taken.filter (· ∈ c.chain)
        · have hcount : (rows.filter fun r => r ∈ c.chain ∧ r ∉ taken.filter (· ∈ c.chain)).count
              rid = rows.count rid := List.count_filter (decide_eq_true hbehind)
          rw [hcount]
          refine hleft rid (mem_chain.1 hbehind.1) fun hin => hbehind.2 ?_
          exact List.mem_filter.2 ⟨hin, decide_eq_true hbehind.1⟩
        · rw [List.count_eq_zero.2]
          · exact Nat.zero_le 1
          · exact fun hin => hbehind (of_decide_eq_true (List.mem_filter.1 hin).2)
      · intro rid hrid other hother heq
        rw [heq] at hrid
        exact (of_decide_eq_true (List.mem_filter.1 hother).2).2 hrid
  next hlong =>
    rw [List.append_nil]
    exact (List.subperm_of_subset hkept hsubset).perm_of_length_le (by omega)

/-- A loop that lists each of the chain's rows once leaves out none that has two places. -/
theorem count_of_walked_continuing {rows : List ρ} (ordered strict : Bool)
    (honce : (c.walked ordered strict rows).taken.Nodup)
    (hcontinuing : (c.walked ordered strict rows).continuing.Perm c.chain) {rid : ρ}
    (hchain : rid ∈ c.continuing) (hleft : rid ∉ (c.walked ordered strict rows).taken) :
    rows.count rid ≤ 1 := by
  have hdistinct : c.chain.Nodup := List.nodup_dedup _
  have hnodup := hcontinuing.nodup_iff.2 hdistinct
  unfold StepCandidates.walked pickOf at honce hleft hnodup
  dsimp only at honce hleft hnodup
  generalize (c.walkRows strict rows (c.startLoop ordered)).taken = taken at honce hleft hnodup
  have hout : rid ∉ taken.filter (· ∈ c.chain) := fun hin => hleft (List.mem_of_mem_filter hin)
  have hshort : (taken.filter (· ∈ c.chain)).length < c.chain.length := by
    have hsubset : (rid :: taken.filter (· ∈ c.chain)).Subperm c.chain := by
      refine List.subperm_of_subset (List.nodup_cons.2 ⟨hout, honce.filter _⟩) ?_
      intro other hother
      rcases List.mem_cons.1 hother with rfl | hother
      · exact mem_chain.2 hchain
      · exact of_decide_eq_true (List.mem_filter.1 hother).2
    have hlength := hsubset.length_le
    rw [List.length_cons] at hlength
    omega
  rw [if_pos hshort] at hnodup
  have hbehind := List.nodup_iff_count_le_one.1 (List.nodup_append.1 hnodup).2.1 rid
  have hcount : (rows.filter fun r => r ∈ c.chain ∧ r ∉ taken.filter (· ∈ c.chain)).count
      rid = rows.count rid := List.count_filter (decide_eq_true ⟨mem_chain.2 hchain, hout⟩)
  rwa [hcount] at hbehind

/-- Where all rows of one walk fit and no group splits them, the loop picks what is picked
without it. -/
theorem unsplit_eq (hfit : c.allFit c.rows = true) (hcapture : c.captureGroup = none)
    (hone : c.oneWalk ≠ none) (honce : (c.walked false false c.rows).taken.Nodup) :
    c.unsplit = c.walked false false c.rows := by
  obtain ⟨walk, hwalk⟩ := Option.ne_none_iff_exists'.1 hone
  have hstep : (c.startLoop false).step = none := by
    unfold startLoop
    rw [hwalk]
    rfl
  have hroom : ∀ cap, c.oneCap = some cap →
      (c.startLoop false).taken.length + c.rows.length ≤ cap := by
    intro cap hcap
    unfold oneCap at hcap
    unfold allFit at hfit
    rw [hwalk] at hcap hfit
    dsimp only at hcap hfit
    rw [hcap] at hfit
    have hle := of_decide_eq_true hfit
    change 0 + c.rows.length ≤ cap
    omega
  obtain ⟨htaken, hnone, hheld⟩ := walkRows_all hstep (Or.inl hcapture) hroom
  have hrun : ∀ rid, inGroup c (c.startLoop false).group rid = c.canRun rid := by
    intro rid
    unfold inGroup
    rw [hcapture, Bool.and_true]
  -- all that can run are taken, and no row twice
  obtain ⟨hcontinuing, hbacklog, hapart⟩ : c.continuing.Nodup ∧
      (∀ rid ∈ c.backlog, rid ∉ c.continuing) ∧ ∀ rid ∈ c.queued, rid ∉ c.continuing := by
    change (c.walkRows false c.rows (c.startLoop false)).taken.Nodup at honce
    have hchainRuns : ∀ rid ∈ c.continuing, c.canRun rid = true := by
      intro rid hrid
      unfold canRun
      rw [decide_eq_true (mem_chain.2 hrid), Bool.true_or]
    rw [htaken, List.filter_congr fun rid _ => hrun rid] at honce
    change ([] ++ _).Nodup at honce
    unfold StepCandidates.rows at honce
    rw [List.nil_append, List.filter_append, List.filter_append,
      List.filter_eq_self.2 hchainRuns, List.nodup_append, List.nodup_append] at honce
    obtain ⟨⟨_, hcontinuing, hfirst⟩, _, hlast⟩ := honce
    refine ⟨hcontinuing, fun rid hrid hin => ?_, fun rid hrid hin => ?_⟩
    · exact hfirst rid (List.mem_filter.2 ⟨hrid, hchainRuns rid hin⟩) rid hin rfl
    · exact hlast rid (List.mem_append_right _ hin) rid
        (List.mem_filter.2 ⟨hrid, hchainRuns rid hin⟩) rfl
  have hchain : c.chain = c.continuing := hcontinuing.dedup
  have hfilter : c.rows.filter (inGroup c (c.startLoop false).group) =
      c.backlog.filter c.ready ++ c.continuing ++
        c.queued.filter fun rid => rid ∉ c.chain ∧ c.ready rid := by
    unfold StepCandidates.rows
    rw [List.filter_append, List.filter_append]
    congr 1
    · congr 1
      · apply List.filter_congr
        intro rid hrid
        rw [hrun]
        unfold canRun
        rw [hchain, decide_eq_false (hbacklog rid hrid), Bool.false_or]
      · rw [List.filter_eq_self]
        intro rid hrid
        rw [hrun]
        unfold canRun
        rw [hchain, decide_eq_true hrid, Bool.true_or]
    · apply List.filter_congr
      intro rid hrid
      rw [hrun]
      unfold canRun
      rw [hchain, decide_eq_false (hapart rid hrid), Bool.false_or]
      simp [hapart rid hrid]
  have hkept : (c.walkRows false c.rows (c.startLoop false)).taken.filter (· ∈ c.chain) =
      c.continuing := by
    rw [htaken, hfilter, hchain]
    change ([] ++ _).filter _ = _
    rw [List.nil_append, List.filter_append, List.filter_append, List.filter_filter]
    have hnoBacklog : (c.backlog.filter fun rid =>
        decide (rid ∈ c.continuing) && c.ready rid) = [] := by
      rw [List.filter_eq_nil_iff]
      intro rid hrid
      simp [hbacklog rid hrid]
    have hnoQueued : ((c.queued.filter fun rid => rid ∉ c.continuing ∧ c.ready rid).filter
        (· ∈ c.continuing)) = [] := by
      rw [List.filter_eq_nil_iff]
      intro rid hrid
      simp [hapart rid (List.mem_filter.1 hrid).1]
    rw [hnoBacklog, hnoQueued, List.nil_append, List.append_nil, List.filter_eq_self]
    intro rid hrid
    exact decide_eq_true hrid
  unfold StepCandidates.walked pickOf unsplit
  dsimp only
  rw [hkept, hnone, hheld hcapture, htaken, hfilter, hchain,
    if_neg (Nat.lt_irrefl c.continuing.length), List.append_nil]
  change _ = StepPick.mk ([] ++ _) _ _ _ _
  rw [List.nil_append]
  simp [startLoop]

/-- No row is taken behind one that its group alone leaves out. -/
theorem walked_inOrder {rows before behind : List ρ} {rid : ρ}
    (hrows : rows = before ++ rid :: behind)
    (hleft : LeftForGroup c (c.walked true true rows).taken before rid) :
    ∀ other ∈ (c.walked true true rows).taken, other ∈ before := by
  obtain ⟨hout, hrun, hjoins⟩ := hleft
  obtain ⟨first, hfirst, htaken⟩ := walkRows_sublist true before (c.startLoop true)
  change (c.walkRows true before (c.startLoop true)).taken = [] ++ first at htaken
  rw [List.nil_append] at htaken
  change ∀ other ∈ (c.walkRows true rows (c.startLoop true)).taken, other ∈ before
  change rid ∉ (c.walkRows true rows (c.startLoop true)).taken at hout
  have hbefore : ∀ other ∈ (c.walkRows true before (c.startLoop true)).taken,
      other ∈ before := by
    intro other hother
    rw [htaken] at hother
    exact hfirst.subset hother
  unfold ahead at hjoins
  rw [hrows] at hout ⊢
  cases walkRows_append true before (rid :: behind) (c.startLoop true) with
  | inl hended =>
    rw [hended]
    exact hbefore
  | inr hwent =>
    rw [hwent] at hout ⊢
    have hkept := (Kept.start c true).walked true before
    generalize c.walkRows true before (c.startLoop true) = s at *
    cases hturn : c.turn true rid s with
    | none =>
      rw [walkRows_of_stop hturn]
      exact hbefore
    | some s' =>
      exfalso
      rw [walkRows_of_turn hturn] at hout
      obtain ⟨more, _, htaken'⟩ := walkRows_sublist true behind s'
      have htook : s'.taken = s.taken ++ [rid] := by
        apply turn_strict hturn hrun
        intro step hstep
        cases hwalk : c.oneWalk with
        | some walk =>
          have hnone := (hkept.one (by rw [hwalk]; exact Option.some_ne_none _)).1
          rw [hstep] at hnone
          cases hnone
        | none =>
          obtain ⟨step', hstep', _, hsettled⟩ := hkept.many hwalk
          rw [hstep, Option.some.injEq] at hstep'
          rw [hstep', ← (Composition.admits_settled step' _).1, hsettled,
            (Composition.admits_settled _ _).1]
          exact hjoins hwalk
      apply hout
      rw [htaken', htook]
      simp

end Walked

end Mstar.StepPicks
