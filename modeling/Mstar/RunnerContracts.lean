import Mathlib.Data.List.Nodup
import Mstar.StepRunner

/-!
# The contract of a resource

What the runner relies on: a plan a step ahead stages a share, which a live plan
promotes without a check of its own; an admitted step reserves nothing more; a
reservation is given back by a rollback or a commit of its step, and what a
pre-admit took by dropping the share.
-/

namespace Mstar.StepRunner

variable {ρ κ τ Out : Type} [DecidableEq ρ]

/-- What can be seen of a resource's state, and what each operation does to it. -/
structure Contract (R : Resource ρ τ Out) (key : τ → κ) where
  /-- The step that the staged share was planned for. -/
  share : R.State → Option κ
  /-- The step holds a reservation. -/
  holds : R.State → κ → Prop
  /-- It was taken a step ahead and no plan has promoted it yet. -/
  ahead : R.State → κ → Prop
  admit_share : ∀ s t b, share (R.admits s t b).1 = share s
  admit_others : ∀ s t b k, k ≠ key t →
    (holds (R.admits s t b).1 k ↔ holds s k) ∧ (ahead (R.admits s t b).1 k ↔ ahead s k)
  /-- An admitted step holds its reservation. -/
  admit_ok : ∀ s t b, (R.admits s t b).2.ok = true → ¬holds s (key t) →
    holds (R.admits s t b).1 (key t) ∧ (ahead (R.admits s t b).1 (key t) ↔ b = true)
  /-- An admit of an admitted step reserves nothing more. -/
  admit_held : ∀ s t b, holds s (key t) → (R.admits s t b).1 = s ∧ (R.admits s t b).2.ok = true
  rollback_share : ∀ s t, share (R.rollbackAdmit s t) = share s
  rollback_others : ∀ s t k, k ≠ key t →
    (holds (R.rollbackAdmit s t) k ↔ holds s k) ∧ (ahead (R.rollbackAdmit s t) k ↔ ahead s k)
  rollback_own : ∀ s t,
    ¬holds (R.rollbackAdmit s t) (key t) ∧ ¬ahead (R.rollbackAdmit s t) (key t)
  commit_share : ∀ s t, share (R.commit s t) = share s
  commit_others : ∀ s t k, k ≠ key t →
    (holds (R.commit s t) k ↔ holds s k) ∧ (ahead (R.commit s t) k ↔ ahead s k)
  commit_own : ∀ s t, ¬holds (R.commit s t) (key t) ∧ ¬ahead (R.commit s t) (key t)
  /-- A plan a step ahead stages a share. -/
  prePlan_share : ∀ s t results, share (R.plan s t true results).1 = some (key t)
  prePlan_same : ∀ s t results k,
    (holds (R.plan s t true results).1 k ↔ holds s k) ∧
      (ahead (R.plan s t true results).1 k ↔ ahead s k)
  /-- A live plan promotes whatever share is staged, and the step's reservation. -/
  plan_share : ∀ s t results, share (R.plan s t false results).1 = none
  plan_holds : ∀ s t results k, holds (R.plan s t false results).1 k ↔ holds s k
  plan_others : ∀ s t results k, k ≠ key t →
    (ahead (R.plan s t false results).1 k ↔ ahead s k)
  plan_own : ∀ s t results, ¬ahead (R.plan s t false results).1 (key t)
  /-- Dropping the share drops what was reserved ahead. -/
  clear_share : ∀ s, share (R.clearPreplan s) = none
  clear_holds : ∀ s k, holds (R.clearPreplan s) k ↔ holds s k ∧ ¬ahead s k
  clear_ahead : ∀ s k, ¬ahead (R.clearPreplan s) k

/-- An operation on some of the resources, each once. -/
theorem foldl_update {State : ρ → Type} (f : ∀ r, State r → State r) (keys : List ρ)
    (hkeys : keys.Nodup) (states : ∀ r, State r) (r : ρ) :
    keys.foldl (fun states k => Function.update states k (f k (states k))) states r =
      if r ∈ keys then f r (states r) else states r := by
  induction keys generalizing states with
  | nil => rfl
  | cons k keys ih =>
    rw [List.nodup_cons] at hkeys
    rw [List.foldl_cons, ih hkeys.2]
    by_cases hr : r = k
    · subst hr
      rw [if_neg hkeys.1, if_pos List.mem_cons_self, Function.update_self]
    · rw [Function.update_of_ne hr]
      have hmem : r ∈ k :: keys ↔ r ∈ keys := by
        rw [List.mem_cons]
        exact or_iff_right hr
      simp only [hmem]

section Sweeps

variable {S : Setup ρ τ Out}

/-- An unwind is a rollback on each of its resources. -/
theorem unwind_apply (t : τ) {keys : List ρ} (hkeys : keys.Nodup) (states : S.States) (r : ρ) :
    unwind S t keys states r =
      if r ∈ keys then (S.resources r).rollbackAdmit (states r) t else states r := by
  have hall := foldl_update (fun k s => (S.resources k).rollbackAdmit s t) keys.reverse
    (List.nodup_reverse.2 hkeys) states r
  unfold unwind
  rw [hall]
  simp only [List.mem_reverse]

/-- Every resource drops its share. -/
theorem clearAll_apply (states : S.States) (r : ρ) :
    clearAll S states r = (S.resources r).clearPreplan (states r) := by
  have hall := foldl_update (fun k s => (S.resources k).clearPreplan s) S.order S.nodup states r
  unfold clearAll
  rw [hall, if_pos (S.all r)]

/-- A commit is one on each of its resources. -/
theorem commitAll_apply (t : τ) {keys : List ρ} (hkeys : keys.Nodup) (states : S.States) (r : ρ) :
    commitAll S t keys states r =
      if r ∈ keys then (S.resources r).commit (states r) t else states r :=
  foldl_update (fun k s => (S.resources k).commit s t) keys hkeys states r

/-- Each resource is planned on its own state. -/
theorem planAll_apply (t : τ) (b : Bool) {keys : List ρ} (hkeys : keys.Nodup) (states : S.States)
    (results : List (ρ × Out)) (r : ρ) :
    (r ∈ keys → ∃ results', (planAll S t b keys states results).1 r =
        ((S.resources r).plan (states r) t b results').1) ∧
      (r ∉ keys → (planAll S t b keys states results).1 r = states r) := by
  induction keys generalizing states results with
  | nil =>
    constructor
    · intro hr
      cases hr
    · intro _
      rfl
  | cons k keys ih =>
    rw [List.nodup_cons] at hkeys
    unfold planAll
    dsimp only
    obtain ⟨hin, hout⟩ := ih hkeys.2
      (Function.update states k ((S.resources k).plan (states k) t b results).1)
      ((k, ((S.resources k).plan (states k) t b results).2) :: results.filter fun r => r.1 ≠ k)
    by_cases hr : r = k
    · subst hr
      constructor
      · intro _
        refine ⟨results, ?_⟩
        rw [hout hkeys.1, Function.update_self]
      · intro hnot
        exact absurd List.mem_cons_self hnot
    · rw [Function.update_of_ne hr] at hin hout
      constructor
      · intro hmem
        exact hin ((List.mem_cons.1 hmem).resolve_left hr)
      · intro hnot
        exact hout fun hmem => hnot (List.mem_cons_of_mem k hmem)

/-- An admit over several resources: those up to the one that refuses are asked,
and no others. -/
theorem admitAll_cases (t : τ) (b : Bool) {keys : List ρ} (hkeys : keys.Nodup)
    (states : S.States) (ready : Bool) :
    ((∃ ready', (admitAll S t b keys states ready).2.2 = .admitted ready') ∧
      (admitAll S t b keys states ready).2.1 = keys ∧
      (∀ r ∈ keys, (admitAll S t b keys states ready).1 r =
          ((S.resources r).admits (states r) t b).1 ∧
        ((S.resources r).admits (states r) t b).2.ok = true) ∧
      ∀ r, r ∉ keys → (admitAll S t b keys states ready).1 r = states r) ∨
    ∃ k outcome, (admitAll S t b keys states ready).2.2 = .refused k outcome ∧
      ((admitAll S t b keys states ready).2.1 ++ [k]) <+: keys ∧
      ((S.resources k).admits (states k) t b).2.ok = false ∧
      (∀ r ∈ (admitAll S t b keys states ready).2.1 ++ [k],
        (admitAll S t b keys states ready).1 r = ((S.resources r).admits (states r) t b).1) ∧
      ∀ r, r ∉ (admitAll S t b keys states ready).2.1 ++ [k] →
        (admitAll S t b keys states ready).1 r = states r := by
  induction keys generalizing states ready with
  | nil =>
    refine Or.inl ⟨⟨ready, rfl⟩, rfl, ?_, fun _ _ => rfl⟩
    intro r hr
    cases hr
  | cons k keys ih =>
    rw [List.nodup_cons] at hkeys
    unfold admitAll
    dsimp only
    cases hok : ((S.resources k).admits (states k) t b).2.ok with
    | false =>
      rw [if_neg Bool.false_ne_true]
      refine Or.inr ⟨k, _, rfl, List.prefix_append [k] keys, hok, ?_, ?_⟩
      · intro r hr
        obtain rfl := List.mem_singleton.1 hr
        exact Function.update_self _ _ _
      · intro r hr
        have hne : r ≠ k := fun h => hr (by rw [h]; exact List.mem_cons_self)
        exact Function.update_of_ne hne _ _
    | true =>
      rw [if_pos rfl]
      have hmoved : ∀ r, r ≠ k →
          Function.update states k ((S.resources k).admits (states k) t b).1 r = states r :=
        fun r hr => Function.update_of_ne hr _ _
      have hne : ∀ r ∈ keys, r ≠ k := fun r hr h => hkeys.1 (h ▸ hr)
      have hself : Function.update states k ((S.resources k).admits (states k) t b).1 k =
          ((S.resources k).admits (states k) t b).1 := Function.update_self _ _ _
      specialize ih hkeys.2 (Function.update states k ((S.resources k).admits (states k) t b).1)
        (ready && ((S.resources k).admits (states k) t b).2.ready)
      generalize admitAll S t b keys
        (Function.update states k ((S.resources k).admits (states k) t b).1)
        (ready && ((S.resources k).admits (states k) t b).2.ready) = swept at ih
      rcases ih with ⟨hready, hall, hin, hout⟩ | ⟨j, outcome, hrefused, hfirst, hno, hin, hout⟩
      · refine Or.inl ⟨hready, by rw [hall], ?_, ?_⟩
        · intro r hr
          rcases List.mem_cons.1 hr with rfl | hr
          · rw [hout r hkeys.1, hself]
            exact ⟨rfl, hok⟩
          · have hr' := hin r hr
            rw [hmoved r (hne r hr)] at hr'
            exact hr'
        · intro r hr
          rw [List.mem_cons, not_or] at hr
          rw [hout r hr.2, hmoved r hr.1]
      · have hjk : j ∈ keys := hfirst.subset (List.mem_append_right _ List.mem_cons_self)
        refine Or.inr ⟨j, outcome, hrefused, List.cons_prefix_cons.2 ⟨rfl, hfirst⟩, ?_, ?_, ?_⟩
        · rw [hmoved j (hne j hjk)] at hno
          exact hno
        · intro r hr
          rcases List.mem_cons.1 hr with rfl | hr
          · rw [hout r fun h => hkeys.1 (hfirst.subset h), hself]
          · have hr' := hin r hr
            rw [hmoved r (hne r (hfirst.subset hr))] at hr'
            exact hr'
        · intro r hr
          have hr' : r ≠ k ∧ r ∉ swept.2.1 ++ [j] := by
            rw [List.cons_append, List.mem_cons, not_or] at hr
            exact hr
          rw [hout r hr'.2, hmoved r hr'.1]

end Sweeps

end Mstar.StepRunner
