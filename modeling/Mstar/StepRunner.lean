import Mathlib.Logic.Function.Basic
import Mathlib.Data.List.Basic

/-!
# Driving resources through a step

The runner admits a step on the resources it declares, plans it on them in
dependency order and commits it. The resources that pre-plan may be admitted and
planned a step ahead; the runner keeps which step that stage is for, and drops
it on every resource when another step comes first.
-/

namespace Mstar.StepRunner

/-- What identifies the step a pre-plan was staged for. -/
structure StepKey (ρ Walk Rid Capture Segment : Type) where
  walk : Walk
  /-- The rows it runs, padding included. -/
  rows : List Rid
  slotLease : Option ℕ
  captureKey : Option Capture
  segments : List (ρ × List Segment)
deriving DecidableEq

/-- A step, as declared. -/
structure Step (ρ Walk Rid Capture Segment Rest : Type) where
  graphWalk : Walk
  paddedRequestIds : List Rid
  /-- The slot of its lease. -/
  slotLease : Option ℕ
  cgKeyInfo : Option Capture
  /-- The resources it declares. -/
  declared : List ρ
  segments : ρ → List Segment
  /-- All else that the resources are given with it. -/
  rest : Rest

structure AdmitOutcome where
  ok : Bool
  ready : Bool

/-- What an admit over several resources came to. -/
inductive FullAdmitOutcome (ρ : Type)
  | refused (key : ρ) (outcome : AdmitOutcome)
  | admitted (ready : Bool)

/-- One resource. What it is asked for a step ahead of time it knows by a flag. -/
structure Resource (ρ τ Out : Type) where
  State : Type
  admits : State → τ → Bool → State × AdmitOutcome
  rollbackAdmit : State → τ → State
  /-- Its plan, from those of the resources before it. -/
  plan : State → τ → Bool → List (ρ × Out) → State × Out
  commit : State → τ → State
  clearPreplan : State → State
  supportsPreplan : Bool

variable {ρ Walk Rid Capture Segment Rest Out : Type} [DecidableEq ρ] [DecidableEq Walk]
  [DecidableEq Rid] [DecidableEq Capture] [DecidableEq Segment]

/-- The resources of a node, in dependency order. -/
structure Setup (ρ τ Out : Type) where
  resources : ρ → Resource ρ τ Out
  order : List ρ
  all : ∀ r, r ∈ order
  nodup : order.Nodup

/-- The states of the resources. -/
abbrev Setup.States {τ : Type} (S : Setup ρ τ Out) := ∀ r, (S.resources r).State

/-- The runner. -/
structure Runner {τ : Type} (S : Setup ρ τ Out) (κ : Type) where
  /-- The step whose pre-plan is staged. -/
  staged : Option κ
  /-- The step of the last pre-admit, and whether it was ready. -/
  preAdmitted : Option (κ × Bool)
  states : S.States

section Sweeps

variable {τ : Type} (S : Setup ρ τ Out)

/-- Give back what some resources reserved, in reverse. -/
def unwind (t : τ) (keys : List ρ) (states : S.States) : S.States :=
  keys.reverse.foldl
    (fun states k => Function.update states k ((S.resources k).rollbackAdmit (states k) t)) states

/-- Drop the share of every resource. -/
def clearAll (states : S.States) : S.States :=
  S.order.foldl
    (fun states k => Function.update states k ((S.resources k).clearPreplan (states k))) states

/-- Commit on some resources. -/
def commitAll (t : τ) (keys : List ρ) (states : S.States) : S.States :=
  keys.foldl
    (fun states k => Function.update states k ((S.resources k).commit (states k) t)) states

/-- Admit on some resources until one refuses: the states, those that admitted,
and the outcome. -/
def admitAll (t : τ) (ahead : Bool) : List ρ → S.States → Bool →
    S.States × List ρ × FullAdmitOutcome ρ
  | [], states, ready => (states, [], .admitted ready)
  | k :: keys, states, ready =>
    let asked := (S.resources k).admits (states k) t ahead
    let states := Function.update states k asked.1
    if asked.2.ok then
      let more := admitAll t ahead keys states (ready && asked.2.ready)
      (more.1, k :: more.2.1, more.2.2)
    else (states, [], .refused k asked.2)

/-- Plan on some resources, each given the plans before it. -/
def planAll (t : τ) (ahead : Bool) : List ρ → S.States → List (ρ × Out) →
    S.States × List (ρ × Out)
  | [], states, results => (states, results)
  | k :: keys, states, results =>
    let planned := (S.resources k).plan (states k) t ahead results
    planAll t ahead keys (Function.update states k planned.1)
      ((k, planned.2) :: results.filter fun r => r.1 ≠ k)

end Sweeps

namespace Runner

variable {S : Setup ρ (Step ρ Walk Rid Capture Segment Rest) Out}

/-- `_keys_for`: the resources of a step, in order. -/
def keysFor (S : Setup ρ (Step ρ Walk Rid Capture Segment Rest) Out)
    (t : Step ρ Walk Rid Capture Segment Rest) : List ρ :=
  S.order.filter fun k => decide (k ∈ t.declared)

/-- `_preplan_keys_for`: those that pre-plan. -/
def preplanKeysFor (S : Setup ρ (Step ρ Walk Rid Capture Segment Rest) Out)
    (t : Step ρ Walk Rid Capture Segment Rest) : List ρ :=
  S.order.filter fun k => (S.resources k).supportsPreplan && decide (k ∈ t.declared)

/-- `_step_key`. -/
def stepKey (S : Setup ρ (Step ρ Walk Rid Capture Segment Rest) Out)
    (t : Step ρ Walk Rid Capture Segment Rest) : StepKey ρ Walk Rid Capture Segment where
  walk := t.graphWalk
  rows := t.paddedRequestIds
  slotLease := t.slotLease
  captureKey := t.cgKeyInfo
  segments := (keysFor S t).map fun k => (k, t.segments k)

variable (s : Runner S (StepKey ρ Walk Rid Capture Segment))
  (t : Step ρ Walk Rid Capture Segment Rest)

/-- `clear_preplan`. -/
def clearPreplan : Runner S (StepKey ρ Walk Rid Capture Segment) where
  staged := none
  preAdmitted := none
  states := clearAll S s.states

/-- `_drop_stale_preplan`, for a step that is not a pre-plan: the step's key when
the stage is for this very step. -/
def dropStalePreplan : Runner S (StepKey ρ Walk Rid Capture Segment) ×
    Option (StepKey ρ Walk Rid Capture Segment) :=
  match s.staged with
  | none => (s, none)
  | some staged => if staged = stepKey S t then (s, some staged) else (s.clearPreplan, none)

/-- The resources that admit skips, since the step's pre-admit covered them, and
whether that was ready. -/
def covered : List ρ × Bool :=
  match (s.dropStalePreplan t).2, (s.dropStalePreplan t).1.preAdmitted with
  | some key, some pre => if pre.1 = key then (preplanKeysFor S t, pre.2) else ([], true)
  | _, _ => ([], true)

/-- `admit`, of a whole step. -/
def admits : Runner S (StepKey ρ Walk Rid Capture Segment) × FullAdmitOutcome ρ :=
  let dropped := (s.dropStalePreplan t).1
  let covered := s.covered t
  let keys := (keysFor S t).filter fun k => decide (k ∉ covered.1)
  let swept := admitAll S t false keys dropped.states covered.2
  let s := { dropped with states := swept.1 }
  match swept.2.2 with
  | .admitted ready => (s, .admitted ready)
  | .refused key outcome =>
    let s := { s with states := unwind S t (covered.1 ++ swept.2.1 ++ [key]) s.states }
    (if s.staged.isSome then s.clearPreplan else s, .refused key outcome)

/-- `rollback_admit`. -/
def rollbackAdmit : Runner S (StepKey ρ Walk Rid Capture Segment) :=
  { s with states := unwind S t (keysFor S t) s.states }

/-- `plan`. -/
def plan : Runner S (StepKey ρ Walk Rid Capture Segment) × List (ρ × Out) :=
  let dropped := (s.dropStalePreplan t).1
  let planned := planAll S t false (keysFor S t) dropped.states []
  ({ staged := none, preAdmitted := none, states := planned.1 }, planned.2)

/-- `pre_admit`. -/
def preAdmit : Runner S (StepKey ρ Walk Rid Capture Segment) × FullAdmitOutcome ρ :=
  let swept := admitAll S t true (preplanKeysFor S t) s.states true
  match swept.2.2 with
  | .admitted ready =>
    ({ s with states := swept.1, preAdmitted := some (stepKey S t, ready) }, .admitted ready)
  | .refused key outcome =>
    ({ s with states := unwind S t (swept.2.1 ++ [key]) swept.1, preAdmitted := none },
      .refused key outcome)

/-- `pre_plan`, with the plan results that the step's context holds. -/
def prePlan (results : List (ρ × Out)) :
    Runner S (StepKey ρ Walk Rid Capture Segment) × List (ρ × Out) :=
  let planned := planAll S t true (preplanKeysFor S t) s.states results
  ({ s with states := planned.1, staged := some (stepKey S t) }, planned.2)

/-- `commit`. -/
def commit : Runner S (StepKey ρ Walk Rid Capture Segment) :=
  { s with states := commitAll S t (keysFor S t) s.states }

end Runner

end Mstar.StepRunner
