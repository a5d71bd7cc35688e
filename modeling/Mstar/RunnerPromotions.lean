import Mstar.RunnerStages

/-!
# Promotions

Over every run of the runner a resource promotes a staged share only in the plan
of the very step it was staged for, and a refused step leaves nothing behind.
-/

namespace Mstar.StepRunner

namespace Runner

/-- Where the runner stands. -/
inductive Phase (κ : Type)
  | idle
  /-- A step has been pre-admitted, and its pre-plan comes next. -/
  | asked (k : κ)
  /-- A step's stage is up; the step may have been admitted under it. -/
  | up (k : κ) (admitted : Bool)

namespace Phase

variable {κ : Type}

def staged : Phase κ → Option κ
  | .up k _ => some k
  | _ => none

def ahead : Phase κ → Option κ
  | .idle => none
  | .asked k => some k
  | .up k _ => some k

def admitted : Phase κ → Bool
  | .up _ admitted => admitted
  | _ => false

end Phase

variable {ρ Walk Rid Capture Segment Rest Out : Type} [DecidableEq ρ]
  {S : Setup ρ (Step ρ Walk Rid Capture Segment Rest) Out}

/-- The runner's records, the shares and the reservations agree with a phase. -/
structure Inv (C : ∀ r, Contract (S.resources r) (stepKey S))
    (p : Phase (StepKey ρ Walk Rid Capture Segment))
    (s : Runner S (StepKey ρ Walk Rid Capture Segment)) : Prop where
  staged : s.staged = p.staged
  pre : s.preAdmitted.map Prod.fst = p.ahead
  /-- The share of the staged step is on its resources that pre-plan. -/
  share : ∀ r k, (C r).share (s.states r) = some k ↔ p.staged = some k ∧ PreNames S k r
  own : ∀ k, p.ahead = some k → Taken C p.admitted s.states k ∨ Everywhere C s.states k
  others : ∀ k, p.ahead ≠ some k → Settled C s.states k

variable {C : ∀ r, Contract (S.resources r) (stepKey S)}
  {t : Step ρ Walk Rid Capture Segment Rest}
  {s : Runner S (StepKey ρ Walk Rid Capture Segment)}
  {p : Phase (StepKey ρ Walk Rid Capture Segment)}

/-- Where every declared resource that is asked holds the step, all admit and
nothing changes. -/
theorem admitAll_held (b : Bool) {keys : List ρ} (hkeys : keys.Nodup) {st : S.States}
    (ready : Bool) (h : ∀ r ∈ keys, (C r).holds (st r) (stepKey S t)) :
    (∃ ready', (admitAll S t b keys st ready).2.2 = .admitted ready') ∧
      (admitAll S t b keys st ready).1 = st := by
  rcases admitAll_cases (S := S) t b hkeys st ready with ⟨hready, -, hin, hout⟩ |
    ⟨j, outcome, -, hfirst, hno, -, -⟩
  · refine ⟨hready, ?_⟩
    funext r
    by_cases hr : r ∈ keys
    · rw [(hin r hr).1]
      exact ((C r).admit_held (st r) t b (h r hr)).1
    · exact hout r hr
  · have hj : j ∈ keys := hfirst.subset (List.mem_append_right _ List.mem_cons_self)
    have hok := ((C j).admit_held (st j) t b (h j hj)).2
    rw [hno] at hok
    cases hok

/-- A refusal gives back everything. -/
theorem unwind_refused {b : Bool} {taken keys : List ρ} (htaken : taken.Nodup)
    (hkeys : keys.Nodup) (hapart : ∀ r ∈ keys, r ∉ taken) {st : S.States} {ready : Bool} {j : ρ}
    {outcome : AdmitOutcome}
    (hrefused : (admitAll S t b keys st ready).2.2 = .refused j outcome)
    (hothers : ∀ r, r ∉ taken →
      ¬(C r).holds (st r) (stepKey S t) ∧ ¬(C r).ahead (st r) (stepKey S t)) :
    (taken ++ (admitAll S t b keys st ready).2.1 ++ [j]).Nodup ∧
      Nowhere C (unwind S t (taken ++ (admitAll S t b keys st ready).2.1 ++ [j])
        (admitAll S t b keys st ready).1) (stepKey S t) := by
  rcases admitAll_cases (S := S) t b hkeys st ready with ⟨⟨ready', hready⟩, -⟩ |
    ⟨j', outcome', hrefused', hfirst, -, hin, hout⟩
  · rw [hrefused] at hready
    cases hready
  · obtain ⟨rfl, rfl⟩ := FullAdmitOutcome.refused.inj (hrefused.symm.trans hrefused')
    have hnodup : (taken ++ (admitAll S t b keys st ready).2.1 ++ [j]).Nodup := by
      rw [List.append_assoc, List.nodup_append]
      refine ⟨htaken, hkeys.sublist hfirst.sublist, ?_⟩
      intro r hr r' hr' heq
      subst heq
      exact hapart r (hfirst.subset hr') hr
    refine ⟨hnodup, unwind_nowhere hnodup ?_⟩
    intro r hr
    rw [List.append_assoc, List.mem_append, not_or] at hr
    rw [hout r hr.2]
    exact hothers r hr.1

/-- Dropping a stage whose step has not been admitted. -/
theorem Inv.clearPreplan (h : Inv C p s) (hp : p.admitted = false) :
    Inv C .idle s.clearPreplan where
  staged := rfl
  pre := rfl
  share := by
    intro r k
    constructor
    · intro hshare
      have hnone : (C r).share (s.clearPreplan.states r) = none := clear_share r
      rw [hnone] at hshare
      cases hshare
    · rintro ⟨hstaged, -⟩
      cases hstaged
  own := by
    intro k hk
    cases hk
  others := by
    intro k _
    have hpreserved : Settled C s.states k → Settled C (clearAll S s.states) k :=
      fun hsettled => (clear_sameOn hsettled.not_ahead).settled hsettled
    by_cases hk : p.ahead = some k
    · rcases h.own k hk with htaken | hall
      · rw [hp] at htaken
        exact Or.inl (clear_nowhere htaken)
      · exact hpreserved (Or.inr hall)
    · exact hpreserved (h.others k hk)

/-- A call about a step whose stage is not up. -/
theorem Inv.step (h : Inv C p s) (hp : p.ahead ≠ some (stepKey S t)) (st' : S.States)
    (hshare : ∀ r, (C r).share (st' r) = (C r).share (s.states r))
    (hsame : ∀ k, k ≠ stepKey S t → SameOn C k s.states st')
    (hown : Settled C st' (stepKey S t)) : Inv C p { s with states := st' } where
  staged := h.staged
  pre := h.pre
  share := by
    intro r k
    dsimp only
    rw [hshare r]
    exact h.share r k
  own := by
    intro k hk
    have hne : k ≠ stepKey S t := fun heq => hp (heq ▸ hk)
    rcases h.own k hk with htaken | hall
    · exact Or.inl ((hsame k hne).taken htaken)
    · exact Or.inr ((hsame k hne).everywhere hall)
  others := by
    intro k hk
    by_cases hne : k = stepKey S t
    · rw [hne]
      exact hown
    · exact (hsame k hne).settled (h.others k hk)

/-- A sweep over resources that held nothing for a step. -/
theorem admitted_everywhere {st : S.States} {ready : Bool} (h : Settled C st (stepKey S t))
    (hadmitted : ∃ ready', (admitAll S t false (keysFor S t) st ready).2.2 = .admitted ready') :
    Everywhere C (admitAll S t false (keysFor S t) st ready).1 (stepKey S t) := by
  have hkeys : (keysFor S t).Nodup := nodup_keysFor t
  rcases h with hnone | hall
  · rcases admitAll_cases (S := S) t false hkeys st ready with ⟨-, -, hin, hout⟩ |
      ⟨j, outcome, hrefused, -⟩
    · intro r
      rw [names_stepKey]
      by_cases hr : r ∈ keysFor S t
      · obtain ⟨heq, hok⟩ := hin r hr
        obtain ⟨hholds, hahead⟩ := (C r).admit_ok (st r) t false hok (hnone r).1
        rw [heq]
        refine ⟨iff_of_true hholds hr, ?_⟩
        rw [hahead]
        exact Bool.false_ne_true
      · rw [hout r hr]
        exact ⟨iff_of_false (hnone r).1 hr, (hnone r).2⟩
    · obtain ⟨ready', hready⟩ := hadmitted
      rw [hrefused] at hready
      cases hready
  · have hheld : ∀ r ∈ keysFor S t, (C r).holds (st r) (stepKey S t) := by
      intro r hr
      rw [(hall r).1, names_stepKey]
      exact hr
    rw [(admitAll_held false hkeys ready hheld).2]
    exact hall

/-- A step that is refused was held nowhere. -/
theorem Settled.nowhere_of_refused {b : Bool} {st : S.States} {ready : Bool} {keys : List ρ}
    (hkeys : keys.Nodup) (hin : ∀ r ∈ keys, r ∈ keysFor S t) {j : ρ} {outcome : AdmitOutcome}
    (hrefused : (admitAll S t b keys st ready).2.2 = .refused j outcome)
    (h : Settled C st (stepKey S t)) : Nowhere C st (stepKey S t) := by
  rcases h with hnone | hall
  · exact hnone
  · have hheld : ∀ r ∈ keys, (C r).holds (st r) (stepKey S t) := by
      intro r hr
      rw [(hall r).1, names_stepKey]
      exact hin r hr
    obtain ⟨ready', hready⟩ := (admitAll_held b hkeys ready hheld).1
    rw [hrefused] at hready
    cases hready

/-- The resources that are left to admit a step whose stage is up. -/
theorem mem_left (r : ρ) :
    r ∈ (keysFor S t).filter (fun k => decide (k ∉ preplanKeysFor S t)) ↔
      Names (stepKey S t) r ∧ ¬PreNames S (stepKey S t) r := by
  rw [List.mem_filter, decide_eq_true_iff, names_stepKey, preNames_stepKey]

/-- A pre-admit. -/
theorem Inv.preAdmit (h : Inv C .idle s) :
    (∀ ready, (s.preAdmit t).2 = .admitted ready →
        Inv C (.asked (stepKey S t)) (s.preAdmit t).1) ∧
      ∀ j outcome, (s.preAdmit t).2 = .refused j outcome →
        Inv C .idle (s.preAdmit t).1 ∧ Nowhere C (s.preAdmit t).1.states (stepKey S t) := by
  have hsettled : Settled C s.states (stepKey S t) := h.others _ (fun heq => by cases heq)
  have hnodup : (preplanKeysFor S t).Nodup := nodup_preplanKeysFor t
  have hin : ∀ r ∈ preplanKeysFor S t, r ∈ keysFor S t := by
    intro r hr
    rw [← names_stepKey]
    exact ((preNames_stepKey t r).2 hr).2
  have hshare : ∀ r, (C r).share ((admitAll S t true (preplanKeysFor S t) s.states true).1 r) =
      (C r).share (s.states r) := fun r => admit_share hnodup r
  have hsame : ∀ k, k ≠ stepKey S t →
      SameOn C k s.states (admitAll S t true (preplanKeysFor S t) s.states true).1 :=
    fun k hk => admit_sameOn hnodup hk
  have hidle : ∀ k : StepKey ρ Walk Rid Capture Segment, Phase.idle.ahead ≠ some k :=
    fun k heq => by cases heq
  unfold Runner.preAdmit
  cases hout : (admitAll S t true (preplanKeysFor S t) s.states true).2.2 with
  | admitted ready =>
    dsimp only
    rw [hout]
    dsimp only
    refine ⟨?_, fun j outcome hrefused => by cases hrefused⟩
    intro _ _
    constructor
    · exact h.staged
    · rfl
    · intro r k
      rw [hshare r]
      exact h.share r k
    · intro k hk
      obtain rfl := Option.some.inj hk
      rcases hsettled with hnone | hall
      · refine Or.inl ?_
        rcases admitAll_cases (S := S) t true hnodup s.states true with
          ⟨-, -, hok, hstay⟩ | ⟨j, outcome, hrefused, -⟩
        · intro r
          rw [preNames_stepKey]
          by_cases hr : r ∈ preplanKeysFor S t
          · obtain ⟨heq, hgranted⟩ := hok r hr
            obtain ⟨hholds, hahead⟩ :=
              (C r).admit_ok (s.states r) t true hgranted (hnone r).1
            dsimp only
            rw [heq]
            exact ⟨iff_of_true hholds (Or.inl hr), iff_of_true (hahead.2 rfl) hr⟩
          · dsimp only
            rw [hstay r hr]
            refine ⟨iff_of_false (hnone r).1 ?_, iff_of_false (hnone r).2 hr⟩
            rintro (hmem | ⟨hfalse, -⟩)
            · exact hr hmem
            · cases hfalse
        · rw [hout] at hrefused
          cases hrefused
      · have hheld : ∀ r ∈ preplanKeysFor S t, (C r).holds (s.states r) (stepKey S t) := by
          intro r hr
          rw [(hall r).1, names_stepKey]
          exact hin r hr
        dsimp only
        rw [(admitAll_held true hnodup true hheld).2]
        exact Or.inr hall
    · intro k hk
      have hne : k ≠ stepKey S t := fun heq => hk (congrArg some heq.symm)
      exact (hsame k hne).settled (h.others k (hidle k))
  | refused j outcome =>
    have hnone := hsettled.nowhere_of_refused hnodup hin hout
    obtain ⟨hlist, hnowhere⟩ := unwind_refused (C := C) List.nodup_nil hnodup
      (fun r _ => List.not_mem_nil) hout fun r _ => hnone r
    rw [List.nil_append] at hlist hnowhere
    dsimp only
    rw [hout]
    dsimp only
    refine ⟨(fun ready hready => by cases hready), fun _ _ _ => ⟨?_, hnowhere⟩⟩
    have hinv := h.step (hidle (stepKey S t)) (unwind S t
      ((admitAll S t true (preplanKeysFor S t) s.states true).2.1 ++ [j])
      (admitAll S t true (preplanKeysFor S t) s.states true).1) ?_ ?_ (Or.inl hnowhere)
    · exact ⟨hinv.staged, rfl, hinv.share, hinv.own, hinv.others⟩
    · intro r
      rw [unwind_share, hshare r]
    · intro k hk
      exact (hsame k hk).trans (unwind_sameOn hlist hk)

/-- Where what is left of a step is admitted, it holds all of it, what was pre-planned
ahead. -/
theorem Taken.admit_left {admitted ready ready' : Bool} {st : S.States} {keys : List ρ}
    (h : Taken C admitted st (stepKey S t)) (hkeys : keys.Nodup)
    (hmem : ∀ r, r ∈ keys ↔ Names (stepKey S t) r ∧ ¬PreNames S (stepKey S t) r)
    (hout : (admitAll S t false keys st ready).2.2 = .admitted ready') :
    Taken C true (admitAll S t false keys st ready).1 (stepKey S t) := by
  rcases admitAll_cases (S := S) t false hkeys st ready with
    ⟨-, -, hin, hstay⟩ | ⟨j, outcome, hrefused, -⟩
  · intro r
    by_cases hr : r ∈ keys
    · obtain ⟨hname, hnot⟩ := (hmem r).1 hr
      obtain ⟨heq, hok⟩ := hin r hr
      rw [heq]
      by_cases hheld : (C r).holds (st r) (stepKey S t)
      · rw [((C r).admit_held (st r) t false hheld).1]
        exact ⟨iff_of_true hheld (Or.inr ⟨rfl, hname⟩), (h r).2⟩
      · obtain ⟨hholds, hahead⟩ := (C r).admit_ok (st r) t false hok hheld
        refine ⟨iff_of_true hholds (Or.inr ⟨rfl, hname⟩), ?_⟩
        rw [hahead]
        exact iff_of_false Bool.false_ne_true hnot
    · rw [hstay r hr, (h r).1]
      refine ⟨?_, (h r).2⟩
      constructor
      · rintro (hpre | ⟨-, hname⟩)
        · exact Or.inl hpre
        · exact Or.inr ⟨rfl, hname⟩
      · rintro (hpre | ⟨-, hname⟩)
        · exact Or.inl hpre
        · refine Or.inl ?_
          by_cases hnot : PreNames S (stepKey S t) r
          · exact hnot
          · exact absurd ((hmem r).2 ⟨hname, hnot⟩) hr
  · rw [hout] at hrefused
    cases hrefused

/-- What is left of a step that already holds it is admitted. -/
theorem not_refused_of_held {ready : Bool} {st : S.States} {keys : List ρ} (hkeys : keys.Nodup)
    (hheld : ∀ r ∈ keys, (C r).holds (st r) (stepKey S t)) {j : ρ} {outcome : AdmitOutcome} :
    (admitAll S t false keys st ready).2.2 ≠ .refused j outcome := by
  intro hout
  obtain ⟨ready', hready⟩ := (admitAll_held false hkeys ready hheld).1
  rw [hout] at hready
  cases hready

/-- A step refused under its stage holds what was pre-planned and nothing else. -/
theorem Inv.taken_of_refused {admitted ready : Bool} {keys : List ρ}
    (h : Inv C (.up (stepKey S t) admitted) s) (hkeys : keys.Nodup)
    (hmem : ∀ r, r ∈ keys ↔ Names (stepKey S t) r ∧ ¬PreNames S (stepKey S t) r) {j : ρ}
    {outcome : AdmitOutcome}
    (hout : (admitAll S t false keys s.states ready).2.2 = .refused j outcome) :
    Taken C false s.states (stepKey S t) := by
  rcases h.own (stepKey S t) rfl with htaken | hall
  · cases admitted with
    | false => exact htaken
    | true =>
      refine absurd hout (not_refused_of_held (C := C) hkeys fun r hr => ?_)
      rw [(htaken r).1]
      exact Or.inr ⟨rfl, ((hmem r).1 hr).1⟩
  · refine absurd hout (not_refused_of_held (C := C) hkeys fun r hr => ?_)
    rw [(hall r).1]
    exact ((hmem r).1 hr).1

/-- The stage is dropped of a step that is nowhere any more. -/
theorem Inv.cleared {admitted : Bool} {st' : S.States}
    (h : Inv C (.up (stepKey S t) admitted) s)
    (hsame : ∀ k, k ≠ stepKey S t → SameOn C k s.states st')
    (hnowhere : Nowhere C st' (stepKey S t)) :
    Inv C .idle (Runner.clearPreplan { s with states := st' }) ∧
      Nowhere C (Runner.clearPreplan { s with states := st' }).states (stepKey S t) := by
  have hclear : Nowhere C (clearAll S st') (stepKey S t) := by
    intro r
    rw [clearAll_apply, (C r).clear_holds]
    exact ⟨fun hheld => (hnowhere r).1 hheld.1, (C r).clear_ahead _ _⟩
  refine ⟨⟨rfl, rfl, fun r k => ?_, fun k hk => ?_, fun k _ => ?_⟩, hclear⟩
  · have hnone : (C r).share (clearAll S st' r) = none := clear_share r
    constructor
    · intro hsome
      exact absurd (hnone.symm.trans hsome) (by simp)
    · rintro ⟨hfalse, -⟩
      cases hfalse
  · cases hk
  · by_cases hne : k = stepKey S t
    · rw [hne]
      exact Or.inl hclear
    · have hother : Settled C s.states k :=
        h.others k fun heq => hne (Option.some.inj heq).symm
      have hafter := (hsame k hne).settled hother
      exact (clear_sameOn hafter.not_ahead).settled hafter

section Steps

variable [DecidableEq Walk] [DecidableEq Rid] [DecidableEq Capture] [DecidableEq Segment]

/-- Without a stage there is none to drop. -/
theorem dropStale_idle (h : s.staged = none) : s.dropStalePreplan t = (s, none) := by
  unfold dropStalePreplan
  rw [h]

/-- A step keeps its own stage. -/
theorem dropStale_own (h : s.staged = some (stepKey S t)) :
    s.dropStalePreplan t = (s, some (stepKey S t)) := by
  unfold dropStalePreplan
  rw [h]
  exact if_pos rfl

/-- Another step than the staged one drops the stage. -/
theorem dropStale_other {k : StepKey ρ Walk Rid Capture Segment} (h : s.staged = some k)
    (hk : k ≠ stepKey S t) : s.dropStalePreplan t = (s.clearPreplan, none) := by
  unfold dropStalePreplan
  rw [h]
  exact if_neg hk

/-- A step without its stage is not covered. -/
theorem covered_none (h : (s.dropStalePreplan t).2 = none) : s.covered t = ([], true) := by
  unfold covered
  rw [h]

/-- A step whose stage is up is covered by its own pre-admit. -/
theorem covered_own (h : Inv C p s) (hp : p.staged = some (stepKey S t)) :
    ∃ ready, s.covered t = (preplanKeysFor S t, ready) := by
  have hpre := h.pre
  have hahead : p.ahead = some (stepKey S t) := by
    cases p with
    | idle => cases hp
    | asked k => cases hp
    | up k admitted => exact hp
  rw [hahead, Option.map_eq_some_iff] at hpre
  obtain ⟨pre, hpre, hkey⟩ := hpre
  unfold covered
  rw [dropStale_own (h.staged.trans hp)]
  dsimp only
  rw [hpre]
  dsimp only
  rw [if_pos hkey]
  exact ⟨_, rfl⟩

/-- Another step is admitted as if nothing had been staged. -/
theorem admit_other {k : StepKey ρ Walk Rid Capture Segment} (h : s.staged = some k)
    (hk : k ≠ stepKey S t) : s.admits t = s.clearPreplan.admits t := by
  have hdrop := dropStale_other (t := t) h hk
  have hclear : s.clearPreplan.dropStalePreplan t = (s.clearPreplan, none) := rfl
  have hcov : s.covered t = s.clearPreplan.covered t := by
    rw [covered_none (by rw [hdrop]), covered_none (by rw [hclear])]
  unfold admits
  rw [hdrop, hcov, hclear]

/-- And planned. -/
theorem plan_other {k : StepKey ρ Walk Rid Capture Segment} (h : s.staged = some k)
    (hk : k ≠ stepKey S t) : s.plan t = s.clearPreplan.plan t := by
  have hdrop := dropStale_other (t := t) h hk
  have hclear : s.clearPreplan.dropStalePreplan t = (s.clearPreplan, none) := rfl
  unfold plan
  rw [hdrop, hclear]

/-- A step admitted with no stage up. -/
theorem Inv.admit_idle (h : Inv C .idle s) :
    Inv C .idle (s.admits t).1 ∧
      ∀ j outcome, (s.admits t).2 = .refused j outcome →
        Nowhere C (s.admits t).1.states (stepKey S t) := by
  have hdrop : s.dropStalePreplan t = (s, none) := dropStale_idle h.staged
  have hcov : s.covered t = ([], true) := covered_none (by rw [hdrop])
  have hkeys : (keysFor S t).filter (fun k => decide (k ∉ ([] : List ρ))) = keysFor S t := by
    rw [List.filter_eq_self]
    intro k _
    exact decide_eq_true List.not_mem_nil
  have hsettled : Settled C s.states (stepKey S t) := h.others _ (fun heq => by cases heq)
  have hnodup : (keysFor S t).Nodup := nodup_keysFor t
  have hstaged : s.staged = none := h.staged
  have hidle : Phase.idle.ahead ≠ some (stepKey S t) := fun heq => by cases heq
  unfold admits
  rw [hdrop, hcov]
  dsimp only
  rw [hkeys]
  cases hout : (admitAll S t false (keysFor S t) s.states true).2.2 with
  | admitted ready =>
    dsimp only
    refine ⟨h.step hidle _ (admit_share hnodup) (fun k hk => admit_sameOn hnodup hk)
      (Or.inr (admitted_everywhere hsettled ⟨ready, hout⟩)), ?_⟩
    intro j outcome hrefused
    cases hrefused
  | refused j outcome =>
    have hnone := hsettled.nowhere_of_refused hnodup (fun r hr => hr) hout
    obtain ⟨hlist, hnowhere⟩ := unwind_refused (C := C) List.nodup_nil hnodup
      (fun r _ => List.not_mem_nil) hout fun r _ => hnone r
    dsimp only
    rw [hstaged]
    simp only [Option.isSome_none, Bool.false_eq_true, if_false]
    have hinv := h.step hidle (unwind S t
      ([] ++ (admitAll S t false (keysFor S t) s.states true).2.1 ++ [j])
      (admitAll S t false (keysFor S t) s.states true).1) ?_ ?_ (Or.inl hnowhere)
    · rw [hstaged] at hinv
      exact ⟨hinv, fun _ _ _ => hnowhere⟩
    · intro r
      rw [unwind_share, admit_share hnodup]
    · intro k hk
      exact (admit_sameOn hnodup hk).trans (unwind_sameOn hlist hk)

/-- A step admitted under its stage. -/
theorem Inv.admit_own {admitted : Bool} (h : Inv C (.up (stepKey S t) admitted) s) :
    (∀ ready, (s.admits t).2 = .admitted ready →
        Inv C (.up (stepKey S t) true) (s.admits t).1) ∧
      ∀ j outcome, (s.admits t).2 = .refused j outcome →
        Inv C .idle (s.admits t).1 ∧ Nowhere C (s.admits t).1.states (stepKey S t) := by
  have hdrop : s.dropStalePreplan t = (s, some (stepKey S t)) := dropStale_own h.staged
  obtain ⟨ready, hcov⟩ := covered_own h rfl
  have hstaged : s.staged = some (stepKey S t) := h.staged
  have hnodup : ((keysFor S t).filter fun k => decide (k ∉ preplanKeysFor S t)).Nodup :=
    (nodup_keysFor t).filter _
  have hmem := mem_left (S := S) (t := t)
  have hpreName := preNames_stepKey (S := S) t
  unfold admits
  rw [hdrop, hcov]
  dsimp only
  generalize (keysFor S t).filter (fun k => decide (k ∉ preplanKeysFor S t)) = keys
    at hnodup hmem
  have hsame : ∀ k, k ≠ stepKey S t →
      SameOn C k s.states (admitAll S t false keys s.states ready).1 :=
    fun k hk => admit_sameOn hnodup hk
  cases hout : (admitAll S t false keys s.states ready).2.2 with
  | admitted ready' =>
    dsimp only
    refine ⟨fun _ _ => ⟨h.staged, h.pre, fun r k => ?_, fun k hk => ?_, fun k hk => ?_⟩,
      fun j outcome hrefused => by cases hrefused⟩
    · rw [admit_share hnodup r]
      exact h.share r k
    · obtain rfl := Option.some.inj hk
      rcases h.own (stepKey S t) rfl with htaken | hall
      · exact Or.inl (htaken.admit_left hnodup hmem hout)
      · have hheld : ∀ r ∈ keys, (C r).holds (s.states r) (stepKey S t) := by
          intro r hr
          rw [(hall r).1]
          exact ((hmem r).1 hr).1
        rw [(admitAll_held false hnodup ready hheld).2]
        exact Or.inr hall
    · have hne : k ≠ stepKey S t := fun heq => hk (congrArg some heq.symm)
      exact (hsame k hne).settled (h.others k hk)
  | refused j outcome =>
    have htaken := h.taken_of_refused hnodup hmem hout
    have hapart : ∀ r ∈ keys, r ∉ preplanKeysFor S t := by
      intro r hr
      rw [← hpreName]
      exact ((hmem r).1 hr).2
    obtain ⟨hlist, hnowhere⟩ := unwind_refused (C := C) (nodup_preplanKeysFor t) hnodup hapart
      hout (by
        intro r hr
        rw [(htaken r).1, (htaken r).2, hpreName]
        refine ⟨?_, hr⟩
        rintro (hin | ⟨hfalse, -⟩)
        · exact hr hin
        · cases hfalse)
    dsimp only
    rw [hstaged]
    simp only [Option.isSome_some, if_true]
    refine ⟨(fun ready hready => by cases hready), fun _ _ _ => ?_⟩
    have hclear := h.cleared (fun k hk => (hsame k hk).trans (unwind_sameOn hlist hk)) hnowhere
    rw [hstaged] at hclear
    exact hclear

end Steps

end Runner

end Mstar.StepRunner
