import Mstar.PicksInOrder

/-!
# Each row once

What a pick owes its step. It gives it where no place in line comes again to a row that the
step has taken and still has room for, and no row of the chain that the step leaves out has
two places: and only there.
-/

namespace Mstar.StepPicks

variable {ρ ω γ κ : Type} [DecidableEq ω] [DecidableEq ρ] [DecidableEq γ] [LinearOrder κ]

open StepCandidates

/-- Whether a pick's rows are of several walks. -/
def Mixes (c : StepCandidates ρ ω γ κ) (taken : List ρ) : Prop :=
  ∃ rid ∈ taken, ∃ other ∈ taken, c.walkIn rid ≠ c.walkIn other

/-- What a pick owes its step. -/
structure Picked (c : StepCandidates ρ ω γ κ) : Prop where
  /-- No row is taken twice. -/
  once : c.pick.taken.Nodup
  /-- Only the chain's rows and ready rows are taken. -/
  listed : ∀ rid ∈ c.pick.taken,
    rid ∈ c.continuing ∨ ((rid ∈ c.backlog ∨ rid ∈ c.queued) ∧ c.ready rid = true)
  /-- They are all of one capture group. -/
  oneGroup : ∀ groupOf, c.captureGroup = some groupOf →
    ∀ rid ∈ c.pick.taken, ∀ other ∈ c.pick.taken, groupOf rid = groupOf other
  /-- Rows that share a walk are at most its cap. -/
  oneCap : ∀ walk cap, c.oneWalk = some walk → capOf c.walkCaps walk = some cap →
    c.pick.taken.length ≤ cap
  /-- Rows of several walks are at most the combined walk's cap, where it has one. -/
  mixedCap : c.oneWalk = none → Mixes c c.pick.taken →
    ∀ cap, capOf c.walkCaps c.graphWalk = some cap → c.pick.taken.length ≤ cap
  /-- Else they are at most the smallest cap of the walks present. -/
  smallestCap : c.oneWalk = none →
    ¬ Mixes c c.pick.taken ∨ capOf c.walkCaps c.graphWalk = none →
    ∀ rid ∈ c.pick.taken, ∀ cap, capOf c.walkCaps (c.walkIn rid) = some cap →
      c.pick.taken.length ≤ cap
  /-- No walk passes its row cap in a step of several walks. -/
  rowCaps : c.oneWalk = none → Mixes c c.pick.taken →
    ∀ walk most, c.walkRowCaps.lookup walk = some most →
      c.pick.taken.countP (c.walkIn · = walk) ≤ most
  /-- Where everything fits and no group splits the rows, the loop picks the same. -/
  sameAsLoop : c.allFit c.rows = true → c.captureGroup = none → c.oneWalk ≠ none →
    c.pick = c.walked false false c.rows
  /-- Under a strict order, no row is taken behind one left out for its group. -/
  inOrder : c.allFit c.rows = false → c.lineOrder.strict = true →
    ∀ before rid behind, c.line = before ++ rid :: behind →
      LeftForGroup c c.pick.taken before rid → ∀ other ∈ c.pick.taken, other ∈ before
  /-- Each of the chain's rows is listed once, those taken first. -/
  chainOnce : ∃ behind, c.pick.continuing = c.pick.taken.filter (· ∈ c.chain) ++ behind ∧
    c.pick.continuing.Perm c.chain

/-- Whether a step has room for one row more of a row's walk. -/
def hasRoom (c : StepCandidates ρ ω γ κ) (s : Loop ρ ω γ) (rid : ρ) : Bool :=
  match s.step with
  | none => !c.oneCap.any (· ≤ s.taken.length)
  | some step => !step.isFull && decide ((step.admits (c.walkIn rid)).1 = .joins)

/-- Whether a row can join a step: there is room, it can run, and its capture group is the
step's. -/
def canJoin (c : StepCandidates ρ ω γ κ) (s : Loop ρ ω γ) (rid : ρ) : Bool :=
  hasRoom c s rid && c.canRun rid && match c.captureGroup with
    | none => true
    | some groupOf => decide (s.group = none ∨ s.group = c.groupIn groupOf rid)

/-- Where a loop stands once it is through some rows; none where it ended among them. -/
def through (c : StepCandidates ρ ω γ κ) (strict : Bool) : List ρ → Loop ρ ω γ → Option (Loop ρ ω γ)
  | [], s => some s
  | rid :: rows, s => (c.turn strict rid s).bind (through c strict rows)

/-- Where a step stands when a place of its line comes up; none where the loop ended ahead
of it. -/
def loopAt (c : StepCandidates ρ ω γ κ) (before : List ρ) : Option (Loop ρ ω γ) :=
  through c (!c.allFit c.rows && c.lineOrder.strict) before (c.startLoop (!c.allFit c.rows))

/-- No row of the line comes up again while the step that took it has room for it, and each
of the chain's rows with two places can join at one of them. -/
structure Unrepeated (c : StepCandidates ρ ω γ κ) : Prop where
  again : ∀ before rid behind s, c.line = before ++ rid :: behind → loopAt c before = some s →
    rid ∈ s.taken → hasRoom c s rid = false
  chain : ∀ rid ∈ c.continuing, 1 < c.line.count rid → ∃ before behind s,
    c.line = before ++ rid :: behind ∧ loopAt c before = some s ∧ canJoin c s rid = true

section Room

variable {c : StepCandidates ρ ω γ κ}

omit [LinearOrder κ] in
/-- A row that can join is taken. -/
theorem turn_of_canJoin (strict : Bool) {rid : ρ} {s : Loop ρ ω γ} (h : canJoin c s rid = true) :
    ∃ s', c.turn strict rid s = some s' ∧ s'.taken = s.taken ++ [rid] := by
  unfold canJoin at h
  rw [Bool.and_eq_true, Bool.and_eq_true] at h
  obtain ⟨⟨hroom, hrun⟩, hgroup⟩ := h
  have hjoin : ∀ t : Loop ρ ω γ, t.taken = s.taken → t.group = s.group →
      ∃ s', c.joinRow strict rid t = some s' ∧ s'.taken = s.taken ++ [rid] := by
    intro t htaken hsame
    have hcanRun : (!decide (rid ∈ c.chain) && !c.ready rid) = !c.canRun rid := by
      unfold canRun
      rw [Bool.not_or]
    unfold joinRow
    dsimp only
    rw [hcanRun, hrun, Bool.not_true, if_neg (by decide)]
    cases hcapture : c.captureGroup with
    | none => exact ⟨_, rfl, congrArg (· ++ [rid]) htaken⟩
    | some groupOf =>
      rw [hcapture] at hgroup
      have hgroup' := of_decide_eq_true hgroup
      have hgroupIn : (if decide (rid ∈ c.chain) = true then c.chainGroup
          else some (groupOf rid)) = c.groupIn groupOf rid := by
        unfold groupIn
        simp only [decide_eq_true_eq]
      dsimp only
      rw [hgroupIn, hsame]
      cases hhas : s.group with
      | none => exact ⟨_, rfl, congrArg (· ++ [rid]) htaken⟩
      | some group =>
        rw [hhas] at hgroup'
        have hown := hgroup'.resolve_left (Option.some_ne_none group)
        dsimp only
        rw [if_pos hown.symm]
        exact ⟨_, rfl, congrArg (· ++ [rid]) htaken⟩
  unfold hasRoom at hroom
  unfold turn
  cases hstep : s.step with
  | none =>
    rw [hstep] at hroom
    dsimp only at hroom ⊢
    rw [Bool.not_eq_true'] at hroom
    rw [hroom, if_neg (by decide)]
    exact hjoin s rfl rfl
  | some step =>
    rw [hstep] at hroom
    dsimp only at hroom ⊢
    rw [Bool.and_eq_true, Bool.not_eq_true', decide_eq_true_eq] at hroom
    rw [hroom.1, if_neg (by decide)]
    cases hadmits : step.admits (c.walkIn rid) with
    | mk verdict joined =>
      rw [hadmits] at hroom
      have hverdict : verdict = .joins := hroom.2
      rw [hverdict]
      exact hjoin { s with step := some joined } rfl rfl

omit [LinearOrder κ] in
/-- A row that is taken could join. -/
theorem canJoin_of_turn {strict : Bool} {rid : ρ} {s s' : Loop ρ ω γ}
    (h : c.turn strict rid s = some s') (htook : s'.taken = s.taken ++ [rid]) :
    canJoin c s rid = true := by
  cases turn_cases h with
  | passed hsame =>
    rw [htook] at hsame
    exact absurd (congrArg List.length hsame) (by simp)
  | took _ hrun hgroup hone hmany =>
    have hroom : hasRoom c s rid = true := by
      unfold hasRoom
      cases hstep : s.step with
      | none =>
        dsimp only
        rw [Bool.not_eq_true']
        cases hcap : c.oneCap with
        | none => rfl
        | some cap =>
          have hbelow := (hone hstep).2 cap hcap
          rw [Option.any_some, decide_eq_false_iff_not]
          omega
      | some step =>
        obtain ⟨joined, hadmits, _⟩ := hmany step hstep
        have hopen : step.isFull = false := by
          cases hfull : step.isFull with
          | false => rfl
          | true =>
            unfold turn at h
            rw [hstep] at h
            dsimp only at h
            rw [hfull, if_pos rfl] at h
            cases h
        dsimp only
        rw [hopen, hadmits]
        rfl
    unfold canJoin
    rw [hroom, hrun]
    cases hcapture : c.captureGroup with
    | none => rfl
    | some groupOf => exact decide_eq_true (hgroup groupOf hcapture).2

omit [LinearOrder κ] in
/-- A row that was taken can join again where there is room. -/
theorem Kept.canJoin_again {s : Loop ρ ω γ} (h : Kept c s) {rid : ρ} (hin : rid ∈ s.taken)
    (hroom : hasRoom c s rid = true) : canJoin c s rid = true := by
  unfold canJoin
  rw [hroom, h.ready rid hin]
  cases hcapture : c.captureGroup with
  | none => rfl
  | some groupOf => exact decide_eq_true (Or.inr (h.group groupOf hcapture rid hin))

omit [LinearOrder κ] in
/-- The loop over some rows and those behind them goes on where it stands between. -/
theorem walkRows_of_through {strict : Bool} {before : List ρ} (behind : List ρ)
    {s s' : Loop ρ ω γ} (h : through c strict before s = some s') :
    c.walkRows strict (before ++ behind) s = c.walkRows strict behind s' := by
  induction before generalizing s with
  | nil =>
    cases h
    rfl
  | cons rid before ih =>
    unfold through at h
    cases hturn : c.turn strict rid s with
    | none =>
      rw [hturn] at h
      cases h
    | some next =>
      rw [hturn] at h
      rw [List.cons_append, walkRows_of_turn hturn]
      exact ih h

omit [LinearOrder κ] in
/-- What the loop knows of the rows it has taken, it knows between. -/
theorem Kept.through {strict : Bool} {before : List ρ} {s s' : Loop ρ ω γ} (h : Kept c s)
    (hthrough : through c strict before s = some s') : Kept c s' := by
  have hwalked := h.walked strict before
  have hend := walkRows_of_through (c := c) [] hthrough
  rw [List.append_nil] at hend
  rw [hend] at hwalked
  exact hwalked

omit [LinearOrder κ] in
/-- A row that can join at its place is one of those taken. -/
theorem mem_taken_of_canJoin {strict : Bool} {before : List ρ} (behind : List ρ) {rid : ρ}
    {s s' : Loop ρ ω γ} (h : through c strict before s = some s')
    (hjoin : canJoin c s' rid = true) :
    ∃ more, (c.walkRows strict (before ++ rid :: behind) s).taken = s'.taken ++ rid :: more := by
  obtain ⟨next, hturn, htook⟩ := turn_of_canJoin strict hjoin
  obtain ⟨more, _, htaken⟩ := walkRows_sublist strict behind next
  refine ⟨more, ?_⟩
  rw [walkRows_of_through _ h, walkRows_of_turn hturn, htaken, htook, List.append_assoc]
  rfl

omit [LinearOrder κ] in
/-- A row that the loop takes can join at one of its places. -/
theorem exists_canJoin {strict : Bool} {rows : List ρ} {rid : ρ} {s : Loop ρ ω γ}
    (h : rid ∈ (c.walkRows strict rows s).taken) (hnew : rid ∉ s.taken) :
    ∃ before behind s', rows = before ++ rid :: behind ∧ through c strict before s = some s' ∧
      canJoin c s' rid = true := by
  induction rows generalizing s with
  | nil => exact absurd h hnew
  | cons first rows ih =>
    cases hturn : c.turn strict first s with
    | none =>
      rw [walkRows_of_stop hturn] at h
      exact absurd h hnew
    | some next =>
      rw [walkRows_of_turn hturn] at h
      have hlater : rid ∉ next.taken → ∃ before behind s', first :: rows = before ++ rid :: behind ∧
          through c strict before s = some s' ∧ canJoin c s' rid = true := by
        intro hnot
        obtain ⟨before, behind, s', hrows, hthrough, hjoin⟩ := ih h hnot
        refine ⟨first :: before, behind, s', by rw [hrows, List.cons_append], ?_, hjoin⟩
        unfold through
        rw [hturn]
        exact hthrough
      cases turn_cases hturn with
      | passed hsame => exact hlater (by rwa [hsame])
      | took htook =>
        by_cases hfirst : rid = first
        · subst hfirst
          exact ⟨[], rows, s, rfl, rfl, canJoin_of_turn hturn htook⟩
        · refine hlater ?_
          rw [htook, List.mem_append, List.mem_singleton]
          exact not_or.2 ⟨hnew, hfirst⟩

omit [LinearOrder κ] in
/-- Where no row comes up again while there is room for it, none is taken twice. -/
theorem walkRows_nodup {strict : Bool} {rows : List ρ} {s : Loop ρ ω γ} (hkept : Kept c s)
    (hnodup : s.taken.Nodup)
    (hagain : ∀ before rid behind s', rows = before ++ rid :: behind →
      through c strict before s = some s' → rid ∈ s'.taken → hasRoom c s' rid = false) :
    (c.walkRows strict rows s).taken.Nodup := by
  induction rows generalizing s with
  | nil => exact hnodup
  | cons rid rows ih =>
    cases hturn : c.turn strict rid s with
    | none =>
      rw [walkRows_of_stop hturn]
      exact hnodup
    | some next =>
      rw [walkRows_of_turn hturn]
      refine ih (hkept.turned (turn_cases hturn)) ?_ fun before other behind s' hrows hthrough => ?_
      · cases turn_cases hturn with
        | passed hsame => rwa [hsame]
        | took htook =>
          rw [htook, List.nodup_append]
          refine ⟨hnodup, List.nodup_singleton rid, fun other hother other' hother' heq => ?_⟩
          obtain rfl := List.mem_singleton.1 hother'
          subst heq
          have hjoin := canJoin_of_turn hturn htook
          unfold canJoin at hjoin
          rw [hagain [] other rows s rfl rfl hother] at hjoin
          cases hjoin
      · refine hagain (rid :: before) other behind s' (by rw [hrows, List.cons_append]) ?_
        unfold through
        rw [hturn]
        exact hthrough

end Room

section Pick

variable {c : StepCandidates ρ ω γ κ}

omit [DecidableEq γ] in
/-- The line is the rows in another order. -/
theorem line_perm (c : StepCandidates ρ ω γ κ) : c.line.Perm c.rows := by
  unfold line
  split
  next => exact List.Perm.refl _
  next => exact List.perm_insertionSort _ _

/-- What the loop over a step's line picks. -/
def loopPick (c : StepCandidates ρ ω γ κ) : StepPick ρ :=
  c.walked (!c.allFit c.rows) (!c.allFit c.rows && c.lineOrder.strict) c.line

/-- Where everything fits, the loop goes over the rows as they came. -/
theorem loopPick_of_fit (hfit : c.allFit c.rows = true) :
    loopPick c = c.walked false false c.rows := by
  have hline : c.line = c.rows := by
    unfold line
    rw [if_pos hfit]
  unfold loopPick
  rw [hfit, hline]
  rfl

/-- Where the loop takes no row twice, a pick is what its loop picks. -/
theorem pick_eq (honce : (loopPick c).taken.Nodup) : c.pick = loopPick c := by
  unfold pick
  dsimp only
  split
  next hfast =>
    obtain ⟨hfit, hcapture, hone⟩ := hfast
    rw [Bool.not_not] at hfit
    rw [loopPick_of_fit hfit] at honce ⊢
    exact unsplit_eq hfit (Option.isNone_iff_eq_none.1 hcapture)
      (Option.isSome_iff_ne_none.1 hone) honce
  next => rfl

/-- A pick that gives its step all it owes is what its loop picks. -/
theorem Picked.pick_eq (h : Picked c) : c.pick = loopPick c := by
  by_cases hfast : c.allFit c.rows = true ∧ c.captureGroup = none ∧ c.oneWalk ≠ none
  · rw [loopPick_of_fit hfast.1]
    exact h.sameAsLoop hfast.1 hfast.2.1 hfast.2.2
  · unfold pick
    dsimp only
    rw [if_neg]
    · rfl
    · intro hslow
      refine hfast ⟨?_, Option.isNone_iff_eq_none.1 hslow.2.1,
        Option.isSome_iff_ne_none.1 hslow.2.2⟩
      rw [← Bool.not_not (c.allFit c.rows)]
      exact hslow.1

omit [DecidableEq γ] [LinearOrder κ] in
/-- A step mixes walks when its composition has several. -/
theorem mixes_iff {taken : List ρ} {step : Composition ω} (h : Tallied c taken step) :
    Mixes c taken ↔ 1 < step.walks.length := by
  have hdistinct := h.distinct
  have hwalks := h.walks
  generalize step.walks = walks at hdistinct hwalks
  constructor
  · intro ⟨rid, hrid, other, hother, hne⟩
    have hin := (hwalks _).2 ⟨rid, hrid, rfl⟩
    have hin' := (hwalks _).2 ⟨other, hother, rfl⟩
    cases walks with
    | nil => cases hin
    | cons walk walks =>
      cases walks with
      | nil =>
        rw [List.mem_singleton] at hin hin'
        exact absurd (hin.trans hin'.symm) hne
      | cons =>
        rw [List.length_cons, List.length_cons]
        omega
  · intro hmany
    cases walks with
    | nil => cases hmany
    | cons walk walks =>
      cases walks with
      | nil =>
        rw [List.length_singleton] at hmany
        omega
      | cons walk' walks =>
        obtain ⟨rid, hrid, heq⟩ := (hwalks walk).1 List.mem_cons_self
        obtain ⟨other, hother, heq'⟩ := (hwalks walk').1
          (List.mem_cons_of_mem _ List.mem_cons_self)
        refine ⟨rid, hrid, other, hother, ?_⟩
        rw [heq, heq']
        intro hsame
        rw [hsame] at hdistinct
        exact (List.nodup_cons.1 hdistinct).1 List.mem_cons_self

omit [DecidableEq γ] [LinearOrder κ] in
/-- The composition of a finished loop. -/
theorem Kept.caps {s : Loop ρ ω γ} (h : Kept c s) (hmany : c.oneWalk = none) :
    (Mixes c s.taken → ∀ cap, capOf c.walkCaps c.graphWalk = some cap → s.taken.length ≤ cap) ∧
      (¬ Mixes c s.taken ∨ capOf c.walkCaps c.graphWalk = none → ∀ rid ∈ s.taken,
        ∀ cap, capOf c.walkCaps (c.walkIn rid) = some cap → s.taken.length ≤ cap) ∧
      (Mixes c s.taken → ∀ walk most, c.walkRowCaps.lookup walk = some most →
        s.taken.countP (c.walkIn · = walk) ≤ most) := by
  obtain ⟨step, _, htallied, _⟩ := h.many hmany
  have hn := htallied.n
  rw [mixes_iff htallied]
  refine ⟨?_, ?_, ?_⟩
  · intro hmixed cap hcap
    have hbound := htallied.bound cap (htallied.mixed hmixed cap hcap)
    omega
  · intro hone rid hrid cap hcap
    have hfew : step.walks.length ≤ 1 ∨ capOf c.walkCaps c.graphWalk = none := by
      cases hone with
      | inl hnot =>
        left
        omega
      | inr hnone => exact Or.inr hnone
    obtain ⟨m, hm, hle⟩ := htallied.smallest hfew _ ((htallied.walks _).2 ⟨rid, hrid, rfl⟩) cap
      hcap
    have hbound := htallied.bound m hm
    omega
  · intro hmixed walk most hmost
    rw [← htallied.counts]
    exact htallied.rows hmixed walk most hmost

/-- Where no row comes up again with room for it, the loop takes none twice. -/
theorem Unrepeated.once (h : Unrepeated c) : (loopPick c).taken.Nodup :=
  walkRows_nodup (Kept.start c _) List.nodup_nil h.again

/-- A step whose line has no row twice with room for it gets all that is owed to it. -/
theorem Unrepeated.picked (h : Unrepeated c) (hshares : SharesGroup c) : Picked c := by
  have hperm := line_perm c
  have honce := h.once
  have hpick := pick_eq honce
  have hsublist := walked_sublist c (!c.allFit c.rows)
    (!c.allFit c.rows && c.lineOrder.strict) c.line
  have hkept := (Kept.start c (!c.allFit c.rows)).walked
    (!c.allFit c.rows && c.lineOrder.strict) c.line
  have htaken : (c.walkRows (!c.allFit c.rows && c.lineOrder.strict) c.line
      (c.startLoop (!c.allFit c.rows))).taken = c.pick.taken := by
    rw [hpick]
    rfl
  change (loopPick c).taken.Sublist c.line at hsublist
  rw [← hpick] at hsublist
  generalize c.walkRows (!c.allFit c.rows && c.lineOrder.strict) c.line
    (c.startLoop (!c.allFit c.rows)) = s at hkept htaken
  rw [← htaken] at hsublist
  constructor
  · rw [hpick]
    exact honce
  · rw [← htaken]
    intro rid hrid
    have hrun := hkept.ready rid hrid
    have hin := hperm.mem_iff.1 (hsublist.subset hrid)
    unfold StepCandidates.rows at hin
    rw [List.mem_append, List.mem_append] at hin
    unfold canRun at hrun
    rw [Bool.or_eq_true, decide_eq_true_eq, mem_chain] at hrun
    by_cases hchain : rid ∈ c.continuing
    · exact Or.inl hchain
    · right
      refine ⟨?_, hrun.resolve_left hchain⟩
      cases hin with
      | inl hfirst => exact Or.inl (hfirst.resolve_right hchain)
      | inr hqueued => exact Or.inr hqueued
  · rw [← htaken]
    intro groupOf hgroup rid hrid other hother
    have hgroupRid := hkept.group groupOf hgroup rid hrid
    have hgroupOther := hkept.group groupOf hgroup other hother
    rw [groupIn_eq hshares hgroup] at hgroupRid hgroupOther
    rw [hgroupRid, Option.some.injEq] at hgroupOther
    exact hgroupOther
  · rw [← htaken]
    intro walk cap hwalk hcap
    apply (hkept.one (by rw [hwalk]; exact Option.some_ne_none _)).2
    unfold StepCandidates.oneCap
    rw [hwalk]
    exact hcap
  · rw [← htaken]
    intro hmany
    exact (hkept.caps hmany).1
  · rw [← htaken]
    intro hmany
    exact (hkept.caps hmany).2.1
  · rw [← htaken]
    intro hmany
    exact (hkept.caps hmany).2.2
  · intro hfit _ _
    rw [hpick, loopPick_of_fit hfit]
  · intro hfit hstrict before rid behind hline hleft
    unfold loopPick at hpick
    rw [hfit, hstrict] at hpick
    change c.pick = c.walked true true c.line at hpick
    rw [hpick] at hleft ⊢
    exact walked_inOrder hline hleft
  · rw [hpick]
    refine walked_continuing _ _ hperm honce fun rid hrid hout => ?_
    by_contra hmany
    obtain ⟨before, behind, s, hline, hat, hjoin⟩ := h.chain rid hrid (by omega)
    obtain ⟨more, hmore⟩ := mem_taken_of_canJoin behind hat hjoin
    rw [← hline] at hmore
    change (loopPick c).taken = s.taken ++ rid :: more at hmore
    refine hout ?_
    change rid ∈ (loopPick c).taken
    rw [hmore]
    exact List.mem_append_right _ List.mem_cons_self

/-- A step that gets all that is owed to it has no row twice with room for it. -/
theorem Picked.unrepeated (h : Picked c) : Unrepeated c := by
  have honce : (loopPick c).taken.Nodup := h.pick_eq ▸ h.once
  constructor
  · intro before rid behind s hline hat hin
    cases hroom : hasRoom c s rid with
    | false => rfl
    | true =>
      exfalso
      have hkept := (Kept.start c _).through hat
      obtain ⟨more, hmore⟩ := mem_taken_of_canJoin behind hat
        (hkept.canJoin_again hin hroom)
      rw [← hline] at hmore
      change (loopPick c).taken = s.taken ++ rid :: more at hmore
      rw [hmore, List.nodup_append] at honce
      exact honce.2.2 rid hin rid List.mem_cons_self rfl
  · intro rid hrid hmany
    have htaken : rid ∈ (loopPick c).taken := by
      by_contra hout
      obtain ⟨_, _, hperm⟩ := h.chainOnce
      rw [h.pick_eq] at hperm
      have hfew := count_of_walked_continuing _ _ honce hperm hrid hout
      omega
    exact exists_canJoin htaken List.not_mem_nil

/-- A line with no row twice has none again. -/
theorem unrepeated_of_nodup (hnodup : c.rows.Nodup) : Unrepeated c := by
  have hline : c.line.Nodup := (line_perm c).nodup_iff.2 hnodup
  constructor
  · intro before rid behind s hsplit hat hin
    have hend := walkRows_of_through (c := c) [] hat
    obtain ⟨more, hmore, htaken⟩ := walkRows_sublist (c := c)
      (!c.allFit c.rows && c.lineOrder.strict) before (c.startLoop (!c.allFit c.rows))
    rw [List.append_nil] at hend
    rw [hend] at htaken
    change s.taken = [] ++ more at htaken
    rw [htaken, List.nil_append] at hin
    have hbefore : rid ∈ before := hmore.subset hin
    rw [hsplit, List.nodup_append] at hline
    exact absurd rfl (hline.2.2 rid hbefore rid List.mem_cons_self)
  · intro rid _ hmany
    have hfew := List.nodup_iff_count_le_one.1 hline rid
    omega

end Pick

/-- A chain of two rows with one row parked and one queued, under a cap of three. -/
def cappedChain : StepCandidates ℕ ℕ ℕ ℕ where
  graphWalk := 0
  continuing := [1, 2]
  ownWalk := 0
  backlog := [3]
  queued := [4]
  walkOf _ := 0
  oneWalk := some 0
  ready _ := true
  captureGroup := some fun _ => 0
  walkCaps := [(0, some 3)]
  walkRowCaps := []
  lineOrder := ⟨fun rid => rid, true⟩

/-- A chain of one row that the queue lists again, its step split by capture group. -/
def relistedChain : StepCandidates ℕ ℕ ℕ ℕ where
  graphWalk := 0
  continuing := [1]
  ownWalk := 0
  backlog := []
  queued := [1]
  walkOf _ := 0
  oneWalk := some 0
  ready _ := true
  captureGroup := some fun _ => 0
  walkCaps := []
  walkRowCaps := []
  lineOrder := ⟨fun rid => rid, true⟩

-- under a cap of one the step has no room for the row when it comes up again
example : ({ relistedChain with walkCaps := [(0, some 1)] } : StepCandidates ℕ ℕ ℕ ℕ).pick.taken =
    [1] := by
  decide

end Mstar.StepPicks
