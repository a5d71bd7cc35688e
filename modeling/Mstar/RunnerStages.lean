import Mstar.RunnerContracts

/-!
# Stages of the runner

Where a runner stands between pre-admit and plan, and what its resources hold
there: a reservation of a step is on every resource the step declares, on none,
or, while its stage is up, on those that pre-plan.
-/

namespace Mstar.StepRunner

namespace Runner

variable {ρ Walk Rid Capture Segment Rest Out : Type} [DecidableEq ρ]
  {S : Setup ρ (Step ρ Walk Rid Capture Segment Rest) Out}
  {C : ∀ r, Contract (S.resources r) (stepKey S)}
  {t : Step ρ Walk Rid Capture Segment Rest} {k : StepKey ρ Walk Rid Capture Segment}
  {st st' : S.States}

/-- The resources that a step declares. -/
def Names (k : StepKey ρ Walk Rid Capture Segment) (r : ρ) : Prop := r ∈ k.segments.map Prod.fst

/-- Those that pre-plan. -/
def PreNames (S : Setup ρ (Step ρ Walk Rid Capture Segment Rest) Out)
    (k : StepKey ρ Walk Rid Capture Segment) (r : ρ) : Prop :=
  (S.resources r).supportsPreplan = true ∧ Names k r

/-- A step's key names the resources it declares. -/
theorem names_stepKey (t : Step ρ Walk Rid Capture Segment Rest) (r : ρ) :
    Names (stepKey S t) r ↔ r ∈ keysFor S t := by
  unfold Names stepKey
  rw [List.map_map]
  simp

/-- And those that pre-plan. -/
theorem preNames_stepKey (t : Step ρ Walk Rid Capture Segment Rest) (r : ρ) :
    PreNames S (stepKey S t) r ↔ r ∈ preplanKeysFor S t := by
  unfold PreNames
  rw [names_stepKey]
  unfold keysFor preplanKeysFor
  rw [List.mem_filter, List.mem_filter, Bool.and_eq_true]
  constructor
  · rintro ⟨hpre, hmem, hdeclared⟩
    exact ⟨hmem, hpre, hdeclared⟩
  · rintro ⟨hmem, hpre, hdeclared⟩
    exact ⟨hpre, hmem, hdeclared⟩

/-- No resource of a step is twice. -/
theorem nodup_keysFor (t : Step ρ Walk Rid Capture Segment Rest) : (keysFor S t).Nodup :=
  S.nodup.filter _

/-- Nor of those that pre-plan. -/
theorem nodup_preplanKeysFor (t : Step ρ Walk Rid Capture Segment Rest) :
    (preplanKeysFor S t).Nodup := S.nodup.filter _

/-- No resource holds anything for a step. -/
def Nowhere (C : ∀ r, Contract (S.resources r) (stepKey S)) (st : S.States)
    (k : StepKey ρ Walk Rid Capture Segment) : Prop :=
  ∀ r, ¬(C r).holds (st r) k ∧ ¬(C r).ahead (st r) k

/-- Every resource that the step declares holds its reservation, none of it ahead. -/
def Everywhere (C : ∀ r, Contract (S.resources r) (stepKey S)) (st : S.States)
    (k : StepKey ρ Walk Rid Capture Segment) : Prop :=
  ∀ r, ((C r).holds (st r) k ↔ Names k r) ∧ ¬(C r).ahead (st r) k

/-- The resources that pre-plan hold the step's reservation ahead, and once it is
admitted the others hold theirs. -/
def Taken (C : ∀ r, Contract (S.resources r) (stepKey S)) (admitted : Bool) (st : S.States)
    (k : StepKey ρ Walk Rid Capture Segment) : Prop :=
  ∀ r, ((C r).holds (st r) k ↔ PreNames S k r ∨ admitted = true ∧ Names k r) ∧
    ((C r).ahead (st r) k ↔ PreNames S k r)

/-- All or nothing. -/
def Settled (C : ∀ r, Contract (S.resources r) (stepKey S)) (st : S.States)
    (k : StepKey ρ Walk Rid Capture Segment) : Prop :=
  Nowhere C st k ∨ Everywhere C st k

/-- Nothing changes for a step. -/
def SameOn (C : ∀ r, Contract (S.resources r) (stepKey S))
    (k : StepKey ρ Walk Rid Capture Segment) (st st' : S.States) : Prop :=
  ∀ r, ((C r).holds (st' r) k ↔ (C r).holds (st r) k) ∧
    ((C r).ahead (st' r) k ↔ (C r).ahead (st r) k)

/-- Where nothing changes for a step it stays settled. -/
theorem SameOn.settled (h : SameOn C k st st') (hs : Settled C st k) : Settled C st' k := by
  rcases hs with hs | hs
  · refine Or.inl fun r => ?_
    rw [(h r).1, (h r).2]
    exact hs r
  · refine Or.inr fun r => ?_
    rw [(h r).1, (h r).2]
    exact hs r

/-- Or taken. -/
theorem SameOn.taken {admitted : Bool} (h : SameOn C k st st') (hs : Taken C admitted st k) :
    Taken C admitted st' k := by
  intro r
  rw [(h r).1, (h r).2]
  exact hs r

/-- Or on every resource it declares. -/
theorem SameOn.everywhere (h : SameOn C k st st') (hs : Everywhere C st k) :
    Everywhere C st' k := by
  intro r
  rw [(h r).1, (h r).2]
  exact hs r

/-- One such change after another. -/
theorem SameOn.trans {st'' : S.States} (h : SameOn C k st st') (h' : SameOn C k st' st'') :
    SameOn C k st st'' := by
  intro r
  exact ⟨(h' r).1.trans (h r).1, (h' r).2.trans (h r).2⟩

/-- An operation on some resources changes nothing for other steps. -/
theorem sameOn_of_apply (keys : List ρ) (f : ∀ r, (S.resources r).State)
    (hin : ∀ r ∈ keys, st' r = f r) (hout : ∀ r, r ∉ keys → st' r = st r)
    (hf : ∀ r ∈ keys, ((C r).holds (f r) k ↔ (C r).holds (st r) k) ∧
      ((C r).ahead (f r) k ↔ (C r).ahead (st r) k)) : SameOn C k st st' := by
  intro r
  by_cases hr : r ∈ keys
  · rw [hin r hr]
    exact hf r hr
  · rw [hout r hr]
    exact ⟨Iff.rfl, Iff.rfl⟩

/-- An unwind changes nothing for other steps. -/
theorem unwind_sameOn {keys : List ρ} (hkeys : keys.Nodup) (hk : k ≠ stepKey S t) :
    SameOn C k st (unwind S t keys st) := by
  refine sameOn_of_apply keys (fun r => (S.resources r).rollbackAdmit (st r) t) ?_ ?_ ?_
  · intro r hr
    rw [unwind_apply t hkeys, if_pos hr]
  · intro r hr
    rw [unwind_apply t hkeys, if_neg hr]
  · intro r _
    exact (C r).rollback_others (st r) t k hk

/-- What a step's unwind leaves, where the others held nothing for it. -/
theorem unwind_nowhere {keys : List ρ} (hkeys : keys.Nodup)
    (hothers : ∀ r, r ∉ keys →
      ¬(C r).holds (st r) (stepKey S t) ∧ ¬(C r).ahead (st r) (stepKey S t)) :
    Nowhere C (unwind S t keys st) (stepKey S t) := by
  intro r
  rw [unwind_apply t hkeys]
  split
  · exact (C r).rollback_own (st r) t
  · exact hothers r ‹_›

/-- An unwind leaves the shares. -/
theorem unwind_share (keys : List ρ) (r : ρ) :
    (C r).share (unwind S t keys st r) = (C r).share (st r) := by
  unfold unwind
  induction keys.reverse generalizing st with
  | nil => rfl
  | cons k keys ih =>
    rw [List.foldl_cons, ih]
    by_cases hr : r = k
    · subst hr
      rw [Function.update_self]
      exact (C r).rollback_share (st r) t
    · rw [Function.update_of_ne hr]

/-- Nor does a commit. -/
theorem commit_sameOn (hk : k ≠ stepKey S t) :
    SameOn C k st (commitAll S t (keysFor S t) st) := by
  refine sameOn_of_apply (keysFor S t) (fun r => (S.resources r).commit (st r) t) ?_ ?_ ?_
  · intro r hr
    rw [commitAll_apply t (nodup_keysFor t), if_pos hr]
  · intro r hr
    rw [commitAll_apply t (nodup_keysFor t), if_neg hr]
  · intro r _
    exact (C r).commit_others (st r) t k hk

/-- A commit leaves the shares. -/
theorem commit_share (r : ρ) :
    (C r).share (commitAll S t (keysFor S t) st r) = (C r).share (st r) := by
  rw [commitAll_apply t (nodup_keysFor t)]
  split
  · exact (C r).commit_share (st r) t
  · rfl

/-- A resource that a settled step does not declare holds nothing for it. -/
theorem Settled.undeclared (h : Settled C st (stepKey S t)) {r : ρ} (hr : r ∉ keysFor S t) :
    ¬(C r).holds (st r) (stepKey S t) ∧ ¬(C r).ahead (st r) (stepKey S t) := by
  rcases h with h | h
  · exact h r
  · refine ⟨?_, (h r).2⟩
    rw [(h r).1, names_stepKey]
    exact hr

/-- A committed step holds nothing. -/
theorem commit_nowhere (h : Settled C st (stepKey S t)) :
    Nowhere C (commitAll S t (keysFor S t) st) (stepKey S t) := by
  intro r
  rw [commitAll_apply t (nodup_keysFor t)]
  split
  · exact (C r).commit_own (st r) t
  · exact h.undeclared ‹_›

/-- Dropping a stage changes nothing where none is taken ahead. -/
theorem clear_sameOn (h : ∀ r, ¬(C r).ahead (st r) k) : SameOn C k st (clearAll S st) := by
  intro r
  rw [clearAll_apply, (C r).clear_holds]
  refine ⟨and_iff_left (h r), ?_⟩
  exact iff_of_false ((C r).clear_ahead (st r) k) (h r)

/-- A settled step has nothing ahead. -/
theorem Settled.not_ahead (h : Settled C st k) (r : ρ) : ¬(C r).ahead (st r) k := by
  rcases h with h | h
  · exact (h r).2
  · exact (h r).2

/-- Dropping the stage drops what was taken ahead. -/
theorem clear_nowhere (h : Taken C false st k) : Nowhere C (clearAll S st) k := by
  intro r
  rw [clearAll_apply, (C r).clear_holds, (h r).1, (h r).2]
  refine ⟨?_, (C r).clear_ahead (st r) k⟩
  rintro ⟨hpre | ⟨hfalse, -⟩, hnot⟩
  · exact hnot hpre
  · cases hfalse

/-- No share is left of a dropped stage. -/
theorem clear_share (r : ρ) : (C r).share (clearAll S st r) = none := by
  rw [clearAll_apply]
  exact (C r).clear_share (st r)

/-- A plan changes nothing for other steps. -/
theorem plan_sameOn {b : Bool} {keys : List ρ} (hkeys : keys.Nodup) {results : List (ρ × Out)}
    (hk : b = true ∨ k ≠ stepKey S t) : SameOn C k st (planAll S t b keys st results).1 := by
  intro r
  obtain ⟨hin, hout⟩ := planAll_apply (S := S) t b hkeys st results r
  by_cases hr : r ∈ keys
  · obtain ⟨results', hr'⟩ := hin hr
    rw [hr']
    cases b with
    | true => exact (C r).prePlan_same (st r) t results' k
    | false =>
      have hne : k ≠ stepKey S t := hk.resolve_left Bool.false_ne_true
      exact ⟨(C r).plan_holds (st r) t results' k, (C r).plan_others (st r) t results' k hne⟩
  · rw [hout hr]
    exact ⟨Iff.rfl, Iff.rfl⟩

/-- Nor does an admit. -/
theorem admit_sameOn {b : Bool} {keys : List ρ} (hkeys : keys.Nodup) {ready : Bool}
    (hk : k ≠ stepKey S t) : SameOn C k st (admitAll S t b keys st ready).1 := by
  rcases admitAll_cases (S := S) t b hkeys st ready with ⟨-, -, hin, hout⟩ |
    ⟨j, outcome, -, -, -, hin, hout⟩
  · exact sameOn_of_apply _ _ (fun r hr => (hin r hr).1) hout
      fun r _ => (C r).admit_others (st r) t b k hk
  · exact sameOn_of_apply _ _ hin hout fun r _ => (C r).admit_others (st r) t b k hk

/-- An admit leaves the shares. -/
theorem admit_share {b : Bool} {keys : List ρ} (hkeys : keys.Nodup) {ready : Bool} (r : ρ) :
    (C r).share ((admitAll S t b keys st ready).1 r) = (C r).share (st r) := by
  rcases admitAll_cases (S := S) t b hkeys st ready with ⟨-, -, hin, hout⟩ |
    ⟨j, outcome, -, -, -, hin, hout⟩
  · by_cases hr : r ∈ keys
    · rw [(hin r hr).1]
      exact (C r).admit_share (st r) t b
    · rw [hout r hr]
  · by_cases hr : r ∈ (admitAll S t b keys st ready).2.1 ++ [j]
    · rw [hin r hr]
      exact (C r).admit_share (st r) t b
    · rw [hout r hr]

end Runner

end Mstar.StepRunner
