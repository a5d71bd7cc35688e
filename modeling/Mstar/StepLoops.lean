import Mstar.StepTurns

/-!
# The rows a loop takes

One row leaves the loop as it was, or is taken: then it is ready, of the step's capture
group, and lets the step stay under its cap.
-/

namespace Mstar.StepPicks

variable {ρ ω γ κ : Type} [DecidableEq ω] [DecidableEq ρ] [DecidableEq γ]
  {c : StepCandidates ρ ω γ κ}

namespace StepCandidates

/-- A row's capture group in the step, the chain's for a row of the chain. -/
def groupIn (c : StepCandidates ρ ω γ κ) (groupOf : ρ → γ) (rid : ρ) : Option γ :=
  if rid ∈ c.chain then c.chainGroup else some (groupOf rid)

/-- Whether a row can run: a chain's own row, or one its engine is ready for. -/
def canRun (c : StepCandidates ρ ω γ κ) (rid : ρ) : Bool :=
  decide (rid ∈ c.chain) || c.ready rid

/-- The composition of some rows, each taken just after it was let in. -/
def compositionOf (c : StepCandidates ρ ω γ κ) (rows : List ρ) : Composition ω :=
  rows.foldl (fun step rid => (step.admits (c.walkIn rid)).2.add (c.walkIn rid))
    (Composition.new c)

end StepCandidates

open StepCandidates

/-- What one row does to the loop. -/
inductive Turned (c : StepCandidates ρ ω γ κ) (rid : ρ) (s s' : Loop ρ ω γ) : Prop
  /-- It is passed over. -/
  | passed (taken : s'.taken = s.taken) (group : s'.group = s.group)
      (step : s'.step.map Composition.settled = s.step.map Composition.settled)
  /-- It is taken. -/
  | took (taken : s'.taken = s.taken ++ [rid]) (ready : c.canRun rid = true)
      (group : ∀ groupOf, c.captureGroup = some groupOf →
        s'.group = c.groupIn groupOf rid ∧ (s.group = none ∨ s.group = c.groupIn groupOf rid))
      (one : s.step = none → s'.step = none ∧ ∀ cap, c.oneCap = some cap → s.taken.length < cap)
      (many : ∀ step, s.step = some step → ∃ joined,
        step.admits (c.walkIn rid) = (.joins, joined) ∧
          s'.step = some (joined.add (c.walkIn rid)))

/-- A row that can join by its walk is passed over or taken. -/
theorem joinRow_cases {strict : Bool} {rid : ρ} {s s' : Loop ρ ω γ}
    (h : c.joinRow strict rid s = some s') :
    (s'.taken = s.taken ∧ s'.group = s.group ∧ s'.step = s.step) ∨
      (s'.taken = s.taken ++ [rid] ∧ c.canRun rid = true ∧
        (∀ groupOf, c.captureGroup = some groupOf → s'.group = c.groupIn groupOf rid ∧
          (s.group = none ∨ s.group = c.groupIn groupOf rid)) ∧
        s'.step = s.step.map fun step => step.add (c.walkIn rid)) := by
  unfold joinRow at h
  dsimp only at h
  by_cases hwaits : (!decide (rid ∈ c.chain) && !c.ready rid) = true
  · rw [if_pos hwaits, Option.some.injEq] at h
    left
    rw [← h]
    exact ⟨rfl, rfl, rfl⟩
  · rw [if_neg hwaits] at h
    have hready : c.canRun rid = true := by
      unfold canRun
      cases hin : decide (rid ∈ c.chain) with
      | true => rfl
      | false =>
        rw [hin] at hwaits
        simpa using hwaits
    cases hgroup : c.captureGroup with
    | none =>
      rw [hgroup, Option.some.injEq] at h
      right
      rw [← h]
      refine ⟨rfl, hready, ?_, rfl⟩
      intro groupOf hsome
      cases hsome
    | some groupOf =>
      have hgroupIn : (if decide (rid ∈ c.chain) = true then c.chainGroup
          else some (groupOf rid)) = c.groupIn groupOf rid := by
        unfold groupIn
        simp only [decide_eq_true_eq]
      rw [hgroup] at h
      dsimp only at h
      rw [hgroupIn] at h
      cases hhas : s.group with
      | none =>
        rw [hhas] at h
        dsimp only at h
        rw [Option.some.injEq] at h
        right
        rw [← h]
        refine ⟨rfl, hready, ?_, rfl⟩
        intro other hother
        rw [Option.some.injEq] at hother
        rw [← hother]
        exact ⟨rfl, Or.inl rfl⟩
      | some group =>
        rw [hhas] at h
        dsimp only at h
        by_cases hsame : c.groupIn groupOf rid = some group
        · rw [if_pos hsame, Option.some.injEq] at h
          right
          rw [← h]
          refine ⟨rfl, hready, ?_, rfl⟩
          intro other hother
          rw [Option.some.injEq] at hother
          rw [← hother, hsame]
          exact ⟨hhas, Or.inr rfl⟩
        · rw [if_neg hsame] at h
          cases strict with
          | true => cases h
          | false =>
            rw [if_neg (by decide), Option.some.injEq] at h
            left
            rw [← h]
            exact ⟨rfl, rfl, rfl⟩

/-- What a row of the loop does. -/
theorem turn_cases {strict : Bool} {rid : ρ} {s s' : Loop ρ ω γ}
    (h : c.turn strict rid s = some s') : Turned c rid s s' := by
  unfold turn at h
  cases hstep : s.step with
  | none =>
    rw [hstep] at h
    dsimp only at h
    by_cases hcap : c.oneCap.any (· ≤ s.taken.length) = true
    · rw [if_pos hcap] at h
      cases h
    · rw [if_neg hcap] at h
      cases joinRow_cases h with
      | inl hpassed =>
        obtain ⟨htaken, hgroup, hsame⟩ := hpassed
        exact .passed htaken hgroup (by rw [hsame])
      | inr htook =>
        obtain ⟨htaken, hready, hgroup, hadd⟩ := htook
        refine .took htaken hready hgroup ?_ ?_
        · intro _
          constructor
          · rw [hadd, hstep]
            rfl
          · intro cap hone
            rw [hone] at hcap
            simpa using hcap
        · intro step hsome
          rw [hstep] at hsome
          cases hsome
  | some step =>
    rw [hstep] at h
    dsimp only at h
    have hsettled := (Composition.admits_settled step (c.walkIn rid)).2
    by_cases hfull : step.isFull = true
    · rw [if_pos hfull] at h
      cases h
    · rw [if_neg hfull] at h
      cases hadmits : step.admits (c.walkIn rid) with
      | mk verdict joined =>
        rw [hadmits] at h hsettled
        cases verdict with
        | joins =>
          cases joinRow_cases h with
          | inl hpassed =>
            obtain ⟨htaken, hgroup, hsame⟩ := hpassed
            refine .passed htaken hgroup ?_
            rw [hsame, hstep]
            exact congrArg some hsettled
          | inr htook =>
            obtain ⟨htaken, hready, hgroup, hadd⟩ := htook
            refine .took htaken hready hgroup ?_ ?_
            · intro hnone
              rw [hstep] at hnone
              cases hnone
            · intro other hother
              rw [hstep, Option.some.injEq] at hother
              rw [← hother]
              exact ⟨joined, hadmits, hadd⟩
        | full =>
          dsimp only at h
          rw [Option.some.injEq] at h
          rw [← h]
          refine .passed rfl rfl ?_
          rw [hstep]
          exact congrArg some hsettled
        | walkLeftOut =>
          dsimp only at h
          rw [Option.some.injEq] at h
          rw [← h]
          refine .passed rfl rfl ?_
          rw [hstep]
          exact congrArg some hsettled

/-- A turn that stops the walk. -/
theorem walkRows_of_stop {strict : Bool} {rid : ρ} {rows : List ρ} {s : Loop ρ ω γ}
    (h : c.turn strict rid s = none) : c.walkRows strict (rid :: rows) s = s := by
  rw [walkRows, h]

/-- One that goes on. -/
theorem walkRows_of_turn {strict : Bool} {rid : ρ} {rows : List ρ} {s s' : Loop ρ ω γ}
    (h : c.turn strict rid s = some s') :
    c.walkRows strict (rid :: rows) s = c.walkRows strict rows s' := by
  rw [walkRows, h]

/-- What each row's turn keeps, the loop keeps. -/
theorem walkRows_keeps {strict : Bool} {P : Loop ρ ω γ → Prop} {rows : List ρ}
    {s : Loop ρ ω γ} (hstart : P s)
    (hturn : ∀ rid ∈ rows, ∀ s s', Turned c rid s s' → P s → P s') :
    P (c.walkRows strict rows s) := by
  induction rows generalizing s with
  | nil => exact hstart
  | cons rid rows ih =>
    cases hone : c.turn strict rid s with
    | none => rwa [walkRows_of_stop hone]
    | some s' =>
      rw [walkRows_of_turn hone]
      exact ih (hturn rid List.mem_cons_self s s' (turn_cases hone) hstart)
        fun other hother => hturn other (List.mem_cons_of_mem _ hother)

/-- The loop takes some of its rows, in their order. -/
theorem walkRows_sublist (strict : Bool) (rows : List ρ) (s : Loop ρ ω γ) :
    ∃ more, more.Sublist rows ∧ (c.walkRows strict rows s).taken = s.taken ++ more := by
  induction rows generalizing s with
  | nil => exact ⟨[], List.Sublist.slnil, (List.append_nil _).symm⟩
  | cons rid rows ih =>
    cases hone : c.turn strict rid s with
    | none =>
      rw [walkRows_of_stop hone]
      exact ⟨[], List.nil_sublist _, (List.append_nil _).symm⟩
    | some s' =>
      rw [walkRows_of_turn hone]
      obtain ⟨more, hmore, htaken⟩ := ih s'
      cases turn_cases hone with
      | passed hsame => exact ⟨more, hmore.cons _, by rw [htaken, hsame]⟩
      | took hsame =>
        refine ⟨rid :: more, hmore.cons_cons _, ?_⟩
        rw [htaken, hsame, List.append_assoc]
        rfl

/-- The loop over rows behind others starts where theirs ends, if it does not end there. -/
theorem walkRows_append (strict : Bool) (a b : List ρ) (s : Loop ρ ω γ) :
    c.walkRows strict (a ++ b) s = c.walkRows strict a s ∨
      c.walkRows strict (a ++ b) s = c.walkRows strict b (c.walkRows strict a s) := by
  induction a generalizing s with
  | nil => exact Or.inr rfl
  | cons rid a ih =>
    rw [List.cons_append]
    cases hone : c.turn strict rid s with
    | none =>
      rw [walkRows_of_stop hone, walkRows_of_stop hone]
      exact Or.inl rfl
    | some s' =>
      rw [walkRows_of_turn hone, walkRows_of_turn hone]
      exact ih s'

/-- What the loop knows of the rows it has taken. -/
structure Kept (c : StepCandidates ρ ω γ κ) (s : Loop ρ ω γ) : Prop where
  ready : ∀ rid ∈ s.taken, c.canRun rid = true
  group : ∀ groupOf, c.captureGroup = some groupOf →
    ∀ rid ∈ s.taken, s.group = c.groupIn groupOf rid
  one : c.oneWalk ≠ none → s.step = none ∧
    ∀ cap, c.oneCap = some cap → s.taken.length ≤ cap
  many : c.oneWalk = none → ∃ step, s.step = some step ∧ Tallied c s.taken step ∧
    step.settled = (c.compositionOf s.taken).settled

namespace Kept

variable {s s' : Loop ρ ω γ}

omit [DecidableEq γ] in
/-- The loop starts with the invariant. -/
theorem start (c : StepCandidates ρ ω γ κ) (ordered : Bool) : Kept c (c.startLoop ordered) where
  ready _ hrid := absurd hrid List.not_mem_nil
  group _ _ _ hrid := absurd hrid List.not_mem_nil
  one hone := by
    constructor
    · unfold startLoop
      exact if_pos (Option.isSome_iff_ne_none.2 hone)
    · intro cap _
      exact Nat.zero_le cap
  many hmany := by
    refine ⟨Composition.new c, ?_, Tallied.new, rfl⟩
    unfold startLoop
    rw [hmany]
    rfl

omit [DecidableEq γ] in
/-- A turn keeps it. -/
theorem turned {rid : ρ} (h : Kept c s) (hturn : Turned c rid s s') : Kept c s' := by
  cases hturn with
  | passed htaken hgroup hstep =>
    constructor
    · rw [htaken]
      exact h.ready
    · rw [htaken, hgroup]
      exact h.group
    · intro hone
      obtain ⟨hnone, hcap⟩ := h.one hone
      rw [hnone, Option.map_none, Option.map_eq_none_iff] at hstep
      rw [htaken]
      exact ⟨hstep, hcap⟩
    · intro hmany
      obtain ⟨step, hsome, htallied, hsettled⟩ := h.many hmany
      rw [hsome, Option.map_some, Option.map_eq_some_iff] at hstep
      obtain ⟨step', hsome', hsame⟩ := hstep
      rw [htaken]
      exact ⟨step', hsome', htallied.of_settled hsame.symm, hsame.trans hsettled⟩
  | took htaken hready hgroup hone hmany =>
    constructor
    · rw [htaken]
      intro other hother
      rw [List.mem_append, List.mem_singleton] at hother
      cases hother with
      | inl hold => exact h.ready other hold
      | inr hsame => rwa [hsame]
    · intro groupOf hsome other hother
      obtain ⟨hnew, hbefore⟩ := hgroup groupOf hsome
      rw [htaken, List.mem_append, List.mem_singleton] at hother
      cases hother with
      | inl hold =>
        have hgroupOld := h.group groupOf hsome other hold
        cases hbefore with
        | inl hnone =>
          -- a step with a row has a group
          rw [hnone] at hgroupOld
          unfold groupIn at hgroupOld
          split at hgroupOld
          next hin =>
            have hchain := hgroupOld.symm
            unfold chainGroup at hchain
            unfold chain at hin
            rw [List.mem_dedup] at hin
            rw [hsome] at hchain
            cases hcontinuing : c.continuing with
            | nil =>
              rw [hcontinuing] at hin
              cases hin
            | cons =>
              rw [hcontinuing] at hchain
              cases hchain
          next => cases hgroupOld
        | inr hsame => rw [hnew, ← hsame, hgroupOld]
      | inr hsame => rw [hnew, hsame]
    · intro hwalk
      obtain ⟨hnone, hcap⟩ := h.one hwalk
      obtain ⟨hnone', hbelow⟩ := hone hnone
      refine ⟨hnone', ?_⟩
      intro cap hsome
      have := hbelow cap hsome
      rw [htaken, List.length_append, List.length_singleton]
      omega
    · intro hwalk
      obtain ⟨step, hsome, htallied, hsettled⟩ := h.many hwalk
      obtain ⟨joined, hadmits, hsome'⟩ := hmany step hsome
      have hverdict : (step.admits (c.walkIn rid)).1 = .joins := by rw [hadmits]
      have hadd := Composition.add_settled hsettled hverdict
      refine ⟨_, hsome', ?_, ?_⟩
      · rw [htaken]
        exact htallied.add hadmits
      · rw [htaken]
        unfold compositionOf at hadd ⊢
        rw [List.foldl_append]
        rw [hadmits] at hadd
        exact hadd

/-- So does a walk. -/
theorem walked (strict : Bool) (rows : List ρ) (h : Kept c s) :
    Kept c (c.walkRows strict rows s) :=
  walkRows_keeps h fun _ _ _ _ hturn hkept => hkept.turned hturn

end Kept

/-- Under a strict order the loop ends at a row that it leaves out though the row can run
and its walk can join. -/
theorem turn_strict {rid : ρ} {s s' : Loop ρ ω γ} (h : c.turn true rid s = some s')
    (hready : c.canRun rid = true)
    (hjoins : ∀ step, s.step = some step → (step.admits (c.walkIn rid)).1 = .joins) :
    s'.taken = s.taken ++ [rid] := by
  have hjoin : ∀ {t t' : Loop ρ ω γ}, c.joinRow true rid t = some t' →
      t'.taken = t.taken ++ [rid] := by
    intro t t' hrow
    unfold joinRow at hrow
    dsimp only at hrow
    have hgoes : ¬ (!decide (rid ∈ c.chain) && !c.ready rid) = true := by
      unfold canRun at hready
      rw [Bool.or_eq_true] at hready
      intro hwaits
      rw [Bool.and_eq_true] at hwaits
      cases hready with
      | inl hin => simp [hin] at hwaits
      | inr hok => simp [hok] at hwaits
    rw [if_neg hgoes] at hrow
    cases hgroup : c.captureGroup with
    | none =>
      rw [hgroup, Option.some.injEq] at hrow
      rw [← hrow]
      rfl
    | some groupOf =>
      rw [hgroup] at hrow
      dsimp only at hrow
      cases hhas : t.group with
      | none =>
        rw [hhas] at hrow
        dsimp only at hrow
        rw [Option.some.injEq] at hrow
        rw [← hrow]
        rfl
      | some group =>
        rw [hhas] at hrow
        dsimp only at hrow
        generalize (if decide (rid ∈ c.chain) = true then c.chainGroup
          else some (groupOf rid)) = ridGroup at hrow
        split at hrow
        next =>
          rw [Option.some.injEq] at hrow
          rw [← hrow]
          rfl
        next =>
          rw [if_pos rfl] at hrow
          cases hrow
  unfold turn at h
  cases hstep : s.step with
  | none =>
    rw [hstep] at h
    dsimp only at h
    split at h
    next => cases h
    next => exact hjoin h
  | some step =>
    rw [hstep] at h
    dsimp only at h
    split at h
    next => cases h
    next =>
      have hverdict := hjoins step hstep
      cases hadmits : step.admits (c.walkIn rid) with
      | mk verdict joined =>
        rw [hadmits] at h hverdict
        dsimp only at hverdict
        rw [hverdict] at h
        exact hjoin (t := { s with step := some joined }) h

end Mstar.StepPicks
