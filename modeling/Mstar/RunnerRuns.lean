import Mathlib.Tactic.Common
import Mstar.RunnerPromotions

/-!
# Runs of the runner

A pre-plan follows the pre-admit of its step, and one stage is up at most. A
step whose stage is up is neither committed nor given back before its plan,
which it reaches only once admitted, and from then on its plan comes before any
other step's.
-/

namespace Mstar.StepRunner

namespace Runner

variable {ρ Walk Rid Capture Segment Rest Out : Type} [DecidableEq ρ]
  {S : Setup ρ (Step ρ Walk Rid Capture Segment Rest) Out}
  {C : ∀ r, Contract (S.resources r) (stepKey S)}
  {t : Step ρ Walk Rid Capture Segment Rest}
  {s : Runner S (StepKey ρ Walk Rid Capture Segment)}
  {p : Phase (StepKey ρ Walk Rid Capture Segment)}

/-- A runner before its first call. -/
structure Fresh (C : ∀ r, Contract (S.resources r) (stepKey S))
    (s : Runner S (StepKey ρ Walk Rid Capture Segment)) : Prop where
  staged : s.staged = none
  preAdmitted : s.preAdmitted = none
  share : ∀ r, (C r).share (s.states r) = none
  nowhere : ∀ k, Nowhere C s.states k

/-- A runner before its first call. -/
theorem Fresh.inv (h : Fresh C s) : Inv C .idle s where
  staged := h.staged
  pre := by
    rw [h.preAdmitted]
    rfl
  share := by
    intro r k
    rw [h.share r]
    constructor
    · intro hk
      cases hk
    · rintro ⟨hk, -⟩
      cases hk
  own := by
    intro k hk
    cases hk
  others := fun k _ => Or.inl (h.nowhere k)

/-- A pre-plan of the step that was pre-admitted. -/
theorem Inv.prePlan (h : Inv C (.asked (stepKey S t)) s) (results : List (ρ × Out)) :
    Inv C (.up (stepKey S t) false) (s.prePlan t results).1 := by
  have hnodup : (preplanKeysFor S t).Nodup := nodup_preplanKeysFor t
  have hsame : ∀ k, SameOn C k s.states
      (planAll S t true (preplanKeysFor S t) s.states results).1 :=
    fun k => plan_sameOn hnodup (Or.inl rfl)
  constructor
  · rfl
  · exact h.pre
  · intro r k
    obtain ⟨hin, hout⟩ := planAll_apply (S := S) t true hnodup s.states results r
    have hnone : ∀ k, (C r).share (s.states r) ≠ some k := by
      intro k hk
      obtain ⟨hstaged, -⟩ := (h.share r k).1 hk
      cases hstaged
    unfold Runner.prePlan
    dsimp only
    by_cases hr : r ∈ preplanKeysFor S t
    · obtain ⟨results', hr'⟩ := hin hr
      rw [hr', (C r).prePlan_share]
      constructor
      · rintro heq
        obtain rfl := Option.some.inj heq
        exact ⟨rfl, (preNames_stepKey t r).2 hr⟩
      · rintro ⟨hstaged, -⟩
        exact hstaged
    · rw [hout hr]
      refine iff_of_false (hnone k) ?_
      rintro ⟨hstaged, hname⟩
      obtain rfl := Option.some.inj hstaged
      exact hr ((preNames_stepKey t r).1 hname)
  · intro k hk
    rcases h.own k hk with htaken | hall
    · exact Or.inl ((hsame k).taken htaken)
    · exact Or.inr ((hsame k).everywhere hall)
  · intro k hk
    exact (hsame k).settled (h.others k hk)

/-- What a live plan leaves of the shares: none, where only its own resources had
one. -/
theorem plan_shares {st : S.States}
    (hshare : ∀ r k, (C r).share (st r) = some k → r ∈ keysFor S t) (r : ρ) :
    (C r).share ((planAll S t false (keysFor S t) st []).1 r) = none := by
  obtain ⟨hin, hout⟩ := planAll_apply (S := S) t false (nodup_keysFor t) st [] r
  by_cases hr : r ∈ keysFor S t
  · obtain ⟨results', hr'⟩ := hin hr
    rw [hr']
    exact (C r).plan_share (st r) t results'
  · rw [hout hr]
    cases hs : (C r).share (st r) with
    | none => rfl
    | some k => exact absurd (hshare r k hs) hr

/-- A live plan of a step promotes its reservation. -/
theorem plan_settled {st : S.States}
    (h : Settled C st (stepKey S t) ∨ Taken C true st (stepKey S t)) :
    Settled C (planAll S t false (keysFor S t) st []).1 (stepKey S t) := by
  have hholds : ∀ r, (C r).holds ((planAll S t false (keysFor S t) st []).1 r) (stepKey S t) ↔
      (C r).holds (st r) (stepKey S t) := by
    intro r
    obtain ⟨hin, hout⟩ := planAll_apply (S := S) t false (nodup_keysFor t) st [] r
    by_cases hr : r ∈ keysFor S t
    · obtain ⟨results', hr'⟩ := hin hr
      rw [hr']
      exact (C r).plan_holds (st r) t results' (stepKey S t)
    · rw [hout hr]
  have hahead : (∀ r, r ∉ keysFor S t → ¬(C r).ahead (st r) (stepKey S t)) →
      ∀ r, ¬(C r).ahead ((planAll S t false (keysFor S t) st []).1 r) (stepKey S t) := by
    intro hundeclared r
    obtain ⟨hin, hout⟩ := planAll_apply (S := S) t false (nodup_keysFor t) st [] r
    by_cases hr : r ∈ keysFor S t
    · obtain ⟨results', hr'⟩ := hin hr
      rw [hr']
      exact (C r).plan_own (st r) t results'
    · rw [hout hr]
      exact hundeclared r hr
  rcases h with hsettled | htaken
  · have hnot := hahead fun r _ => hsettled.not_ahead r
    rcases hsettled with hnone | hall
    · refine Or.inl fun r => ⟨?_, hnot r⟩
      rw [hholds r]
      exact (hnone r).1
    · refine Or.inr fun r => ⟨?_, hnot r⟩
      rw [hholds r]
      exact (hall r).1
  · have hnot := hahead (by
      intro r hr
      rw [(htaken r).2]
      rintro ⟨-, hname⟩
      exact hr ((names_stepKey t r).1 hname))
    refine Or.inr fun r => ⟨?_, hnot r⟩
    rw [hholds r, (htaken r).1]
    constructor
    · rintro (⟨-, hname⟩ | ⟨-, hname⟩)
      · exact hname
      · exact hname
    · intro hname
      exact Or.inr ⟨rfl, hname⟩

/-- The runner once a live plan has run over some states. -/
theorem inv_planned {st : S.States}
    (hshare : ∀ r k, (C r).share (st r) = some k → r ∈ keysFor S t)
    (hown : Settled C st (stepKey S t) ∨ Taken C true st (stepKey S t))
    (hothers : ∀ k, k ≠ stepKey S t → Settled C st k) :
    Inv C .idle ⟨none, none, (planAll S t false (keysFor S t) st []).1⟩ where
  staged := rfl
  pre := rfl
  share := by
    intro r k
    dsimp only
    rw [plan_shares hshare r]
    constructor
    · intro hk
      cases hk
    · rintro ⟨hk, -⟩
      cases hk
  own := by
    intro k hk
    cases hk
  others := by
    intro k _
    by_cases hk : k = stepKey S t
    · rw [hk]
      exact plan_settled hown
    · exact (plan_sameOn (nodup_keysFor t) (Or.inr hk)).settled (hothers k hk)

/-- A commit of a step whose stage is not up. -/
theorem Inv.commit (h : Inv C p s) (hp : p.ahead ≠ some (stepKey S t)) :
    Inv C p (s.commit t) :=
  h.step hp _ commit_share (fun _ hk => commit_sameOn hk)
    (Or.inl (commit_nowhere (h.others _ hp)))

/-- And its rollback. -/
theorem Inv.rollbackAdmit (h : Inv C p s) (hp : p.ahead ≠ some (stepKey S t)) :
    Inv C p (s.rollbackAdmit t) :=
  h.step hp _ (unwind_share _) (fun _ hk => unwind_sameOn (nodup_keysFor t) hk)
    (Or.inl (unwind_nowhere (nodup_keysFor t) fun _ hr => (h.others _ hp).undeclared hr))

section Runs

variable [DecidableEq Walk] [DecidableEq Rid] [DecidableEq Capture] [DecidableEq Segment]

/-- A plan without a stage. -/
theorem Inv.plan_idle (h : Inv C .idle s) : Inv C .idle (s.plan t).1 := by
  unfold plan
  rw [dropStale_idle h.staged]
  refine inv_planned ?_ (Or.inl (h.others _ fun hk => by cases hk)) ?_
  · intro r k hk
    obtain ⟨hstaged, -⟩ := (h.share r k).1 hk
    cases hstaged
  · intro k _
    exact h.others k fun hk => by cases hk

/-- The plan that promotes a stage. -/
theorem Inv.plan_own (h : Inv C (.up (stepKey S t) true) s) : Inv C .idle (s.plan t).1 := by
  unfold plan
  rw [dropStale_own h.staged]
  refine inv_planned ?_ ?_ ?_
  · intro r k hk
    obtain ⟨hstaged, -, hname⟩ := (h.share r k).1 hk
    obtain rfl := Option.some.inj hstaged
    exact (names_stepKey t r).1 hname
  · rcases h.own _ rfl with htaken | hall
    · exact Or.inr htaken
    · exact Or.inl (Or.inr hall)
  · intro k hk
    exact h.others k fun heq => hk (Option.some.inj heq).symm

/-- A run of calls, and where the runner stands after it. -/
inductive Runs (C : ∀ r, Contract (S.resources r) (stepKey S)) :
    Phase (StepKey ρ Walk Rid Capture Segment) →
      Runner S (StepKey ρ Walk Rid Capture Segment) → Prop
  | start {w} (h : Fresh C w) : Runs C .idle w
  | preAdmit {w} (h : Runs C .idle w) (u) (ready) (hout : (w.preAdmit u).2 = .admitted ready) :
      Runs C (.asked (stepKey S u)) (w.preAdmit u).1
  | preRefused {w} (h : Runs C .idle w) (u) (j outcome)
      (hout : (w.preAdmit u).2 = .refused j outcome) : Runs C .idle (w.preAdmit u).1
  /-- A pre-plan follows its pre-admit. -/
  | prePlan {w} (u) (h : Runs C (.asked (stepKey S u)) w) (results) :
      Runs C (.up (stepKey S u) false) (w.prePlan u results).1
  | admits {w} (h : Runs C .idle w) (u) : Runs C .idle (w.admits u).1
  /-- Another step than the staged one. -/
  | admitOther {w k} (h : Runs C (.up k false) w) (u) (hk : k ≠ stepKey S u) :
      Runs C .idle (w.admits u).1
  | admitOwn {w admitted} (u) (h : Runs C (.up (stepKey S u) admitted) w) (ready)
      (hout : (w.admits u).2 = .admitted ready) : Runs C (.up (stepKey S u) true) (w.admits u).1
  | ownRefused {w admitted} (u) (h : Runs C (.up (stepKey S u) admitted) w) (j outcome)
      (hout : (w.admits u).2 = .refused j outcome) : Runs C .idle (w.admits u).1
  | plan {w} (h : Runs C .idle w) (u) : Runs C .idle (w.plan u).1
  | planOther {w k} (h : Runs C (.up k false) w) (u) (hk : k ≠ stepKey S u) :
      Runs C .idle (w.plan u).1
  | planOwn {w} (u) (h : Runs C (.up (stepKey S u) true) w) : Runs C .idle (w.plan u).1
  | commit {q w} (h : Runs C q w) (u) (hp : q.ahead ≠ some (stepKey S u)) : Runs C q (w.commit u)
  | rollbackAdmit {q w} (h : Runs C q w) (u) (hp : q.ahead ≠ some (stepKey S u)) :
      Runs C q (w.rollbackAdmit u)
  | clearPreplan {q w} (h : Runs C q w) (hp : q.admitted = false) :
      Runs C .idle w.clearPreplan

/-- Every run keeps the invariant. -/
theorem Runs.inv (h : Runs C p s) : Inv C p s := by
  induction h with
  | start h => exact h.inv
  | preAdmit _ t ready hout ih => exact (ih.preAdmit).1 ready hout
  | preRefused _ t j outcome hout ih => exact ((ih.preAdmit).2 j outcome hout).1
  | prePlan t _ results ih => exact ih.prePlan results
  | admits _ t ih => exact (ih.admit_idle).1
  | admitOther _ t hk ih =>
    rw [admit_other ih.staged hk]
    exact ((ih.clearPreplan rfl).admit_idle).1
  | admitOwn t _ ready hout ih => exact (ih.admit_own).1 ready hout
  | ownRefused t _ j outcome hout ih => exact ((ih.admit_own).2 j outcome hout).1
  | plan _ t ih => exact ih.plan_idle
  | planOther _ t hk ih =>
    rw [plan_other ih.staged hk]
    exact (ih.clearPreplan rfl).plan_idle
  | planOwn t _ ih => exact ih.plan_own
  | commit _ t hp ih => exact ih.commit hp
  | rollbackAdmit _ t hp ih => exact ih.rollbackAdmit hp
  | clearPreplan _ hp ih => exact ih.clearPreplan hp

/-- A refused step is on no resource and staged nowhere. -/
def Gone (C : ∀ r, Contract (S.resources r) (stepKey S))
    (s : Runner S (StepKey ρ Walk Rid Capture Segment))
    (t : Step ρ Walk Rid Capture Segment Rest) : Prop :=
  Nowhere C s.states (stepKey S t) ∧ s.staged = none ∧ s.preAdmitted = none ∧
    ∀ r, (C r).share (s.states r) = none

omit [DecidableEq Walk] [DecidableEq Rid] [DecidableEq Capture] [DecidableEq Segment] in
/-- A step that holds nothing, with no stage up, is gone. -/
theorem Inv.gone (h : Inv C .idle s) (hnone : Nowhere C s.states (stepKey S t)) : Gone C s t := by
  have hpre : s.preAdmitted = none := by
    have hmap := h.pre
    cases hs : s.preAdmitted with
    | none => rfl
    | some pre =>
      rw [hs] at hmap
      cases hmap
  refine ⟨hnone, h.staged, hpre, fun r => ?_⟩
  cases hs : (C r).share (s.states r) with
  | none => rfl
  | some k =>
    obtain ⟨hstaged, -⟩ := (h.share r k).1 hs
    cases hstaged

/-- A run of calls in which a pre-plan follows the pre-admit of its step and one
stage is up at most. -/
inductive Calls (C : ∀ r, Contract (S.resources r) (stepKey S)) :
    Runner S (StepKey ρ Walk Rid Capture Segment) → Prop
  | start {w} (h : Fresh C w) : Calls C w
  | preAdmit {w} (h : Calls C w) (u) : Calls C (w.preAdmit u).1
  | prePlan {w} (h : Calls C w) (u) (hpre : w.preAdmitted.map Prod.fst = some (stepKey S u))
      (hstaged : w.staged = none) (results) : Calls C (w.prePlan u results).1
  | admits {w} (h : Calls C w) (u) : Calls C (w.admits u).1
  | plan {w} (h : Calls C w) (u) : Calls C (w.plan u).1
  | commit {w} (h : Calls C w) (u) : Calls C (w.commit u)
  | rollbackAdmit {w} (h : Calls C w) (u) : Calls C (w.rollbackAdmit u)
  | clearPreplan {w} (h : Calls C w) : Calls C w.clearPreplan

/-- The runs that keep to the phases are among them. -/
theorem Runs.calls (h : Runs C p s) : Calls C s := by
  induction h with
  | start h => exact .start h
  | preAdmit _ t ready hout ih => exact ih.preAdmit t
  | preRefused _ t j outcome hout ih => exact ih.preAdmit t
  | prePlan t h results ih => exact ih.prePlan t h.inv.pre h.inv.staged results
  | admits _ t ih => exact ih.admits t
  | admitOther _ t hk ih => exact ih.admits t
  | admitOwn t _ ready hout ih => exact ih.admits t
  | ownRefused t _ j outcome hout ih => exact ih.admits t
  | plan _ t ih => exact ih.plan t
  | planOther _ t hk ih => exact ih.plan t
  | planOwn t _ ih => exact ih.plan t
  | commit _ t hp ih => exact ih.commit t
  | rollbackAdmit _ t hp ih => exact ih.rollbackAdmit t
  | clearPreplan _ hp ih => exact ih.clearPreplan

/-- Every share is of the staged step, on a resource that it declares. -/
def Shared (C : ∀ r, Contract (S.resources r) (stepKey S))
    (s : Runner S (StepKey ρ Walk Rid Capture Segment)) : Prop :=
  ∀ r k, (C r).share (s.states r) = some k → s.staged = some k ∧ Names k r

section Shares

omit [DecidableEq Walk] [DecidableEq Rid] [DecidableEq Capture] [DecidableEq Segment]

variable {s' : Runner S (StepKey ρ Walk Rid Capture Segment)}

/-- Where there is no share. -/
theorem Shared.of_none (h : ∀ r, (C r).share (s.states r) = none) : Shared C s := by
  intro r k hk
  rw [h r] at hk
  cases hk

/-- Where no share and no stage changes. -/
theorem Shared.of_same (h : Shared C s) (hstaged : s'.staged = s.staged)
    (hshare : ∀ r, (C r).share (s'.states r) = (C r).share (s.states r)) : Shared C s' := by
  intro r k hk
  rw [hshare r] at hk
  rw [hstaged]
  exact h r k hk

/-- A pre-admit leaves the shares. -/
theorem Shared.preAdmit (h : Shared C s) : Shared C (s.preAdmit t).1 := by
  have hshare : ∀ r, (C r).share ((admitAll S t true (preplanKeysFor S t) s.states true).1 r) =
      (C r).share (s.states r) := fun r => admit_share (nodup_preplanKeysFor t) r
  unfold Runner.preAdmit
  dsimp only
  split
  · exact h.of_same rfl hshare
  · exact h.of_same rfl fun r => (unwind_share _ r).trans (hshare r)

/-- A pre-plan where no stage is up. -/
theorem Shared.prePlan (h : Shared C s) (hstaged : s.staged = none) (results : List (ρ × Out)) :
    Shared C (s.prePlan t results).1 := by
  intro r k hk
  obtain ⟨hin, hout⟩ :=
    planAll_apply (S := S) t true (nodup_preplanKeysFor t) s.states results r
  unfold Runner.prePlan at hk ⊢
  dsimp only at hk ⊢
  by_cases hr : r ∈ preplanKeysFor S t
  · obtain ⟨results', hr'⟩ := hin hr
    rw [hr', (C r).prePlan_share] at hk
    obtain rfl := Option.some.inj hk
    exact ⟨rfl, ((preNames_stepKey t r).2 hr).2⟩
  · rw [hout hr] at hk
    have hown := (h r k hk).1
    rw [hstaged] at hown
    cases hown

end Shares

/-- What is left of the stage as a step arrives is its own. -/
theorem Shared.own (h : Shared C s) {r : ρ} {k : StepKey ρ Walk Rid Capture Segment}
    (hk : (C r).share ((s.dropStalePreplan t).1.states r) = some k) :
    k = stepKey S t ∧ r ∈ keysFor S t := by
  cases hs : s.staged with
  | none =>
    rw [dropStale_idle hs] at hk
    have hstaged := (h r k hk).1
    rw [hs] at hstaged
    cases hstaged
  | some k' =>
    by_cases heq : k' = stepKey S t
    · subst heq
      rw [dropStale_own hs] at hk
      obtain ⟨hstaged, hname⟩ := h r k hk
      obtain rfl := Option.some.inj (hs.symm.trans hstaged)
      exact ⟨rfl, (names_stepKey t r).1 hname⟩
    · rw [dropStale_other hs heq] at hk
      have hnone : (C r).share (s.clearPreplan.states r) = none := clear_share r
      rw [hnone] at hk
      cases hk

/-- A stage dropped leaves none. -/
theorem Shared.drop (h : Shared C s) : Shared C (s.dropStalePreplan t).1 := by
  unfold dropStalePreplan
  split
  · exact h
  · split
    · exact h
    · exact .of_none clear_share

/-- An admit leaves the shares or drops all. -/
theorem Shared.admits (h : Shared C s) : Shared C (s.admits t).1 := by
  have hshare : ∀ r, (C r).share ((admitAll S t false
      ((keysFor S t).filter fun k => decide (k ∉ (s.covered t).1))
      (s.dropStalePreplan t).1.states (s.covered t).2).1 r) =
        (C r).share ((s.dropStalePreplan t).1.states r) :=
    fun r => admit_share ((nodup_keysFor t).filter _) r
  unfold Runner.admits
  dsimp only
  split
  · exact h.drop.of_same rfl hshare
  · dsimp only
    split
    · exact .of_none clear_share
    · exact h.drop.of_same rfl fun r => (unwind_share _ r).trans (hshare r)

/-- In every run the shares are of the staged step. -/
theorem Calls.shared (h : Calls C s) : Shared C s := by
  induction h with
  | start h => exact .of_none h.share
  | preAdmit _ t ih => exact ih.preAdmit
  | prePlan _ t hpre hstaged results ih => exact ih.prePlan hstaged results
  | admits _ t ih => exact ih.admits
  | plan _ t ih => exact .of_none (plan_shares fun r k hk => (ih.own hk).2)
  | commit _ t ih => exact ih.of_same rfl commit_share
  | rollbackAdmit _ t ih => exact ih.of_same rfl (unwind_share _)
  | clearPreplan _ ih => exact .of_none clear_share

/-- What admit skips holds the step. -/
theorem Inv.holds_of_covered (h : Inv C p s) {r : ρ} (hr : r ∈ (s.covered t).1) :
    (C r).holds ((s.dropStalePreplan t).1.states r) (stepKey S t) := by
  cases hs : p.staged with
  | none =>
    rw [covered_none (by rw [dropStale_idle (h.staged.trans hs)])] at hr
    cases hr
  | some k =>
    by_cases heq : k = stepKey S t
    · have hown : p.staged = some (stepKey S t) := hs.trans (congrArg some heq)
      obtain ⟨ready, hcov⟩ := covered_own h hown
      rw [hcov] at hr
      rw [dropStale_own (h.staged.trans hown)]
      have hname : PreNames S (stepKey S t) r := (preNames_stepKey t r).2 hr
      have hahead : p.ahead = some (stepKey S t) := by
        cases p with
        | idle => cases hown
        | asked k' => cases hown
        | up k' admitted => exact hown
      rcases h.own _ hahead with htaken | hall
      · exact (htaken r).1.2 (Or.inl hname)
      · exact (hall r).1.2 hname.2
    · rw [covered_none (by rw [dropStale_other (h.staged.trans hs) heq])] at hr
      cases hr

/-- A refused admit leaves nothing of its step. -/
theorem Inv.gone_of_refused (h : Inv C p s) (hp : ∀ k, p ≠ .asked k)
    (hown : p.admitted = true → p.staged = some (stepKey S t)) {j : ρ} {outcome : AdmitOutcome}
    (hrefused : (s.admits t).2 = .refused j outcome) : Gone C (s.admits t).1 t := by
  cases p with
  | idle => exact (h.admit_idle.1).gone (h.admit_idle.2 j outcome hrefused)
  | asked k => exact absurd rfl (hp k)
  | up k admitted =>
    by_cases heq : k = stepKey S t
    · subst heq
      obtain ⟨hidle, hnone⟩ := h.admit_own.2 j outcome hrefused
      exact hidle.gone hnone
    · have hfalse : admitted = false := by
        cases admitted with
        | false => rfl
        | true => exact absurd (Option.some.inj (hown rfl)) heq
      subst hfalse
      have hclear := h.clearPreplan rfl
      rw [admit_other h.staged heq] at hrefused ⊢
      exact (hclear.admit_idle.1).gone (hclear.admit_idle.2 j outcome hrefused)

/-- Over every run a plan promotes no share but its own step's, and another step
than the staged one runs as if nothing had been staged. Where moreover the calls
keep to the phases, a resource that admit skips holds the step, and a refused
step leaves nothing. -/
theorem promotes_own (t : Step ρ Walk Rid Capture Segment Rest) :
    (∀ s, Calls C s →
      (∀ r k, (C r).share ((s.dropStalePreplan t).1.states r) = some k → k = stepKey S t) ∧
      ∀ k, s.staged = some k → k ≠ stepKey S t →
        s.admits t = s.clearPreplan.admits t ∧ s.plan t = s.clearPreplan.plan t ∧
          s.clearPreplan.covered t = ([], true) ∧
          ∀ r, (C r).share (s.clearPreplan.states r) = none ∧
            ∀ k, ¬(C r).ahead (s.clearPreplan.states r) k) ∧
    ∀ p s, Runs C p s → (∀ k, p ≠ .asked k) →
      (∀ r ∈ (s.covered t).1,
        (C r).holds ((s.dropStalePreplan t).1.states r) (stepKey S t)) ∧
      ((p.admitted = true → p.staged = some (stepKey S t)) → ∀ j outcome,
        (s.admits t).2 = .refused j outcome → Gone C (s.admits t).1 t) ∧
      (p = .idle → ∀ j outcome,
        (s.preAdmit t).2 = .refused j outcome → Gone C (s.preAdmit t).1 t) := by
  refine ⟨fun s h => ⟨fun r k hk => (h.shared.own hk).1, fun k hs hk => ?_⟩, fun p s h hp => ?_⟩
  · refine ⟨admit_other hs hk, plan_other hs hk, rfl, fun r => ⟨clear_share r, fun k' => ?_⟩⟩
    have hcleared : s.clearPreplan.states r = (S.resources r).clearPreplan (s.states r) :=
      clearAll_apply s.states r
    rw [hcleared]
    exact (C r).clear_ahead (s.states r) k'
  · refine ⟨fun r hr => h.inv.holds_of_covered hr,
      fun hown j outcome hrefused => h.inv.gone_of_refused hp hown hrefused, ?_⟩
    rintro rfl j outcome hrefused
    obtain ⟨hidle, hnone⟩ := h.inv.preAdmit.2 j outcome hrefused
    exact hidle.gone hnone

end Runs

section Slots

/-- A step of three resources, as plain as can be. -/
abbrev PlainStep := Step (Fin 3) ℕ ℕ Unit Unit Unit

abbrev PlainKey := StepKey (Fin 3) ℕ ℕ Unit Unit

/-- What a resource of so many slots remembers. -/
structure Slots where
  share : Option PlainKey
  held : List PlainKey
  taken : List PlainKey

/-- The key of a step of three resources in an order. -/
def plainKey (order : List (Fin 3)) (t : PlainStep) : PlainKey where
  walk := t.graphWalk
  rows := t.paddedRequestIds
  slotLease := t.slotLease
  captureKey := t.cgKeyInfo
  segments := (order.filter fun k => decide (k ∈ t.declared)).map fun k => (k, t.segments k)

/-- A resource that holds so many steps and refuses more. -/
def slots (order : List (Fin 3)) (capacity : ℕ) (supportsPreplan : Bool) :
    Resource (Fin 3) PlainStep Unit where
  State := Slots
  admits := fun s t ahead =>
    let key := plainKey order t
    if key ∈ s.held then (s, ⟨true, true⟩)
    else if s.held.length < capacity then
      ({ s with
          held := key :: s.held
          taken := if ahead then key :: s.taken else s.taken.filter fun k => decide (k ≠ key) },
        ⟨true, true⟩)
    else (s, ⟨false, false⟩)
  rollbackAdmit := fun s t =>
    { s with held := s.held.filter fun k => decide (k ≠ plainKey order t) }
  plan := fun s t ahead _ =>
    (if ahead then { s with share := some (plainKey order t) }
      else { s with
        share := none
        taken := s.taken.filter fun k => decide (k ≠ plainKey order t) }, ())
  commit := fun s t =>
    { s with held := s.held.filter fun k => decide (k ≠ plainKey order t) }
  clearPreplan := fun s =>
    { share := none, held := s.held.filter fun k => decide (k ∉ s.taken), taken := [] }
  supportsPreplan := supportsPreplan

/-- It meets the contract. -/
def slotsContract (order : List (Fin 3)) (capacity : ℕ) (supportsPreplan : Bool) :
    Contract (slots order capacity supportsPreplan) (plainKey order) where
  share := Slots.share
  holds := fun s k => k ∈ s.held
  ahead := fun s k => k ∈ s.taken ∧ k ∈ s.held
  admit_share := by
    intro s t b
    dsimp only [slots]
    split
    · rfl
    · split <;> rfl
  admit_others := by
    intro s t b k hk
    dsimp only [slots]
    split
    · simp
    · split
      · cases b <;> simp [hk]
      · simp
  admit_ok := by
    intro s t b hok hnot
    dsimp only [slots] at hok ⊢
    rw [if_neg hnot] at hok ⊢
    split
    · cases b <;> simp
    · rename_i hfull
      rw [if_neg hfull] at hok
      cases hok
  admit_held := by
    intro s t b hheld
    dsimp only [slots]
    rw [if_pos hheld]
    exact ⟨rfl, rfl⟩
  rollback_share := fun _ _ => rfl
  rollback_others := by
    intro s t k hk
    simp [slots, hk]
  rollback_own := by
    intro s t
    simp [slots]
  commit_share := fun _ _ => rfl
  commit_others := by
    intro s t k hk
    simp [slots, hk]
  commit_own := by
    intro s t
    simp [slots]
  prePlan_share := fun _ _ _ => rfl
  prePlan_same := fun _ _ _ _ => ⟨Iff.rfl, Iff.rfl⟩
  plan_share := fun _ _ _ => rfl
  plan_holds := fun _ _ _ _ => Iff.rfl
  plan_others := by
    intro s t results k hk
    simp [slots, hk]
  plan_own := by
    intro s t results
    simp [slots]
  clear_share := fun _ => rfl
  clear_holds := by
    intro s k
    simp only [slots, List.mem_filter, decide_eq_true_eq]
    tauto
  clear_ahead := by
    intro s k
    simp [slots]

/-- Three resources of one slot, the middle one of which pre-plans. -/
def threeSlots : Setup (Fin 3) PlainStep Unit where
  resources := fun r => slots [0, 1, 2] 1 (decide (r = 1))
  order := [0, 1, 2]
  all := by decide
  nodup := by decide

def threeContracts : ∀ r, Contract (threeSlots.resources r) (stepKey threeSlots) :=
  fun r => slotsContract [0, 1, 2] 1 (decide (r = 1))

/-- Before the first call. -/
def freshSlots : Runner threeSlots PlainKey where
  staged := none
  preAdmitted := none
  states := fun _ => ⟨none, [], []⟩

/-- A step of some resources. -/
def plainStep (walk : ℕ) (declared : List (Fin 3)) : PlainStep where
  graphWalk := walk
  paddedRequestIds := [walk]
  slotLease := none
  cgKeyInfo := none
  declared := declared
  segments := fun _ => []
  rest := ()

/-- The slots before their first step. -/
theorem fresh_freshSlots : Fresh threeContracts freshSlots where
  staged := rfl
  preAdmitted := rfl
  share := fun _ => rfl
  nowhere := by
    intro k r
    constructor
    · intro h
      cases h
    · rintro ⟨h, -⟩
      cases h

/-- With the stage of a step of all three up. -/
def stagedSlots : Runner threeSlots PlainKey :=
  ((freshSlots.preAdmit (plainStep 0 [0, 1, 2])).1.prePlan (plainStep 0 [0, 1, 2]) []).1

/-- A step is staged on the slots. -/
theorem runs_stagedSlots :
    Runs threeContracts (.up (stepKey threeSlots (plainStep 0 [0, 1, 2])) false) stagedSlots :=
  Runs.prePlan (plainStep 0 [0, 1, 2])
    (Runs.preAdmit (Runs.start fresh_freshSlots) (plainStep 0 [0, 1, 2]) true rfl) []

/-- It is covered by its own stage. -/
theorem promotes_own_stagedSlots :
    (∀ r k, (threeContracts r).share
        ((stagedSlots.dropStalePreplan (plainStep 0 [0, 1, 2])).1.states r) = some k →
      k = stepKey threeSlots (plainStep 0 [0, 1, 2])) ∧
    ∀ r ∈ (stagedSlots.covered (plainStep 0 [0, 1, 2])).1, (threeContracts r).holds
      ((stagedSlots.dropStalePreplan (plainStep 0 [0, 1, 2])).1.states r)
        (stepKey threeSlots (plainStep 0 [0, 1, 2])) := by
  obtain ⟨hcalls, hruns⟩ := promotes_own (C := threeContracts) (plainStep 0 [0, 1, 2])
  exact ⟨(hcalls _ runs_stagedSlots.calls).1,
    (hruns _ _ runs_stagedSlots fun k hk => by cases hk).1⟩

/-- A staged step that is given back, or committed, is still taken for admitted;
one whose stage another step dropped after its admit, or that was planned
without one, leaves a reservation behind when it is refused. -/
theorem rolled_back_covered :
    (∃ r ∈ ((stagedSlots.rollbackAdmit (plainStep 0 [0, 1, 2])).covered
        (plainStep 0 [0, 1, 2])).1, ¬(threeContracts r).holds
          (((stagedSlots.rollbackAdmit (plainStep 0 [0, 1, 2])).dropStalePreplan
            (plainStep 0 [0, 1, 2])).1.states r) (stepKey threeSlots (plainStep 0 [0, 1, 2]))) ∧
    (∃ r ∈ ((stagedSlots.commit (plainStep 0 [0, 1, 2])).covered
        (plainStep 0 [0, 1, 2])).1, ¬(threeContracts r).holds
          (((stagedSlots.commit (plainStep 0 [0, 1, 2])).dropStalePreplan
            (plainStep 0 [0, 1, 2])).1.states r) (stepKey threeSlots (plainStep 0 [0, 1, 2]))) ∧
    (∃ j outcome, ((((stagedSlots.admits (plainStep 0 [0, 1, 2])).1.admits
          (plainStep 1 [1])).1.admits (plainStep 0 [0, 1, 2]))).2 = .refused j outcome ∧
      (threeContracts 2).holds (((((stagedSlots.admits (plainStep 0 [0, 1, 2])).1.admits
          (plainStep 1 [1])).1.admits (plainStep 0 [0, 1, 2]))).1.states 2)
        (stepKey threeSlots (plainStep 0 [0, 1, 2]))) ∧
    ∃ j outcome, ((((stagedSlots.plan (plainStep 0 [0, 1, 2])).1.admits
          (plainStep 1 [0])).1.admits (plainStep 0 [0, 1, 2]))).2 = .refused j outcome ∧
      (threeContracts 1).holds (((((stagedSlots.plan (plainStep 0 [0, 1, 2])).1.admits
          (plainStep 1 [0])).1.admits (plainStep 0 [0, 1, 2]))).1.states 1)
        (stepKey threeSlots (plainStep 0 [0, 1, 2])) := by
  refine ⟨⟨1, ?_, ?_⟩, ⟨1, ?_, ?_⟩, ⟨1, ⟨false, false⟩, rfl, ?_⟩, 0, ⟨false, false⟩, rfl, ?_⟩
  · decide
  · exact List.not_mem_nil
  · decide
  · exact List.not_mem_nil
  · exact List.mem_cons_self
  · exact List.mem_cons_self

end Slots

end Runner

end Mstar.StepRunner
