import Mathlib.Data.List.Lex
import Mathlib.Data.Prod.Lex
import Mathlib.Order.WithBot
import Mstar.WalkReferences

/-!
# The runs of a loop

A loop runs again in every pass of its worker graph and in every iteration of
the loops around it. Its clock is the pass and these iterations, up to one
that is over: it never goes back, and whatever moves it on leaves the loop
without a finish signal.
-/

namespace Mstar.Walk

open Shard (Sym TensorRef)

namespace CompiledGraph

variable (g : CompiledGraph)

/-- The loops around a loop, outer to inner. -/
def around (l : LoopId) : List LoopId := (g.loopOrder l).dropLast

variable {g}

/-- The way outward goes on until there is no parent. -/
theorem outward_eq {l : LoopId} (hl : l < g.loops.length) :
    g.outward g.loops.length l = l :: (match (g.lp l).parent with
      | none => []
      | some p => g.outward g.loops.length p) := by
  obtain ⟨height, hlt, hup⟩ := g.nested
  have hdeep : ∀ k k' l, l < g.loops.length → g.loops.length ≤ height l + k →
      g.loops.length ≤ height l + k' → g.outward k l = g.outward k' l := by
    intro k
    induction k with
    | zero =>
      intro _ l hl h
      have := (hlt l).resolve_right (Nat.not_le.2 hl)
      omega
    | succ k ih =>
      intro k' l hl h h'
      have hheight := (hlt l).resolve_right (Nat.not_le.2 hl)
      obtain ⟨k', rfl⟩ : ∃ j, k' = j + 1 := ⟨k' - 1, by omega⟩
      unfold outward
      cases hp : (g.lp l).parent with
      | none => rfl
      | some p =>
        have := hup l p hp
        dsimp only
        rw [ih k' p (parent_lt_length hp) (by omega) (by omega)]
  have hheight := (hlt l).resolve_right (Nat.not_le.2 hl)
  exact hdeep _ (g.loops.length + 1) l hl (by omega) (by omega)

/-- A loop comes after the loops around it. -/
theorem loopOrder_eq {l : LoopId} (hl : l < g.loops.length) : g.loopOrder l = g.around l ++ [l] := by
  unfold around loopOrder
  rw [outward_eq hl, List.reverse_cons, List.dropLast_concat]

/-- What is around a loop is around its parent, or is the parent. -/
theorem around_eq {l p : LoopId} (hp : (g.lp l).parent = some p) : g.around l = g.around p ++ [p] := by
  rw [← loopOrder_eq (parent_lt_length hp)]
  unfold around loopOrder
  rw [outward_eq (lt_length_of_parent hp), hp]
  simp

/-- Nothing is around an outermost loop. -/
theorem around_eq_nil {l : LoopId} (hl : l < g.loops.length) (hp : (g.lp l).parent = none) :
    g.around l = [] := by
  unfold around loopOrder
  rw [outward_eq hl, hp]
  rfl

/-- A loop is nested in those around it. -/
theorem below_of_mem_around {l d : LoopId} (hl : l < g.loops.length) (hd : d ∈ g.around l) :
    g.Below l d := by
  obtain ⟨height, hlt, hup⟩ := g.nested
  have hdeep : ∀ k l, l < g.loops.length → g.loops.length ≤ height l + k → d ∈ g.around l →
      g.Below l d := by
    intro k
    induction k with
    | zero =>
      intro l hl h
      have := (hlt l).resolve_right (Nat.not_le.2 hl)
      omega
    | succ k ih =>
      intro l hl h hd
      cases hp : (g.lp l).parent with
      | none =>
        rw [around_eq_nil hl hp] at hd
        exact absurd hd List.not_mem_nil
      | some p =>
        have hheight := hup l p hp
        rw [around_eq hp, List.mem_append, List.mem_singleton] at hd
        rcases hd with hd | rfl
        · exact (ih p (parent_lt_length hp) (by omega) hd).head hp
        · exact .single hp
  exact hdeep g.loops.length l hl (by omega) hd

/-- A loop that another is nested in splits the loops around it. Those before
it are around it too. -/
theorem around_split {l m : LoopId} (h : g.Below l m) :
    ∃ pre post, g.around l = pre ++ m :: post ∧ ∀ d ∈ pre, d ≠ m ∧ ¬ g.Below d m := by
  induction h using Relation.TransGen.head_induction_on with
  | single hp =>
    refine ⟨g.around m, [], around_eq hp, fun d hd => ?_⟩
    have hbelow := below_of_mem_around (parent_lt_length hp) hd
    refine ⟨?_, fun hd' => not_below_self m (hbelow.trans hd')⟩
    rintro rfl
    exact not_below_self d hbelow
  | @head a p hp _ ih =>
    obtain ⟨pre, post, hsplit, hpre⟩ := ih
    refine ⟨pre, post ++ [p], ?_, hpre⟩
    rw [around_eq hp, hsplit, List.append_assoc, List.cons_append]

end CompiledGraph

namespace RequestState

open CompiledGraph (below_of_mem_around around_split mem_childLoops not_below_self)

/-- The iterations of loops nested in one another, outer to inner, up to one
that is over. -/
def clockAlong (s : RequestState) : List LoopId → List (WithTop ℕ)
  | [] => []
  | m :: ms => if (s.loops m).done then [⊤] else WithTop.some (s.loops m).currIter :: clockAlong s ms

/-- Where a walk is among the runs of a loop: its pass, and the iterations of
the loops around it. -/
def clock (g : CompiledGraph) (s : RequestState) (l : LoopId) : ℕ ×ₗ List (WithTop ℕ) :=
  toLex (s.numTimesRun, clockAlong s (g.around l))

/-- The run of a loop that the walk's counters name. -/
def runOf (g : CompiledGraph) (s : RequestState) (l : LoopId) : ℕ × List ℕ :=
  (s.numTimesRun, (g.around l).map fun m => (s.loops m).currIter)

/-- A stop reached the loop, or the loop is over. -/
def Ending (s : RequestState) (l : LoopId) : Prop :=
  (s.loops l).done = true ∨ (s.loops l).finishSignal = true

/-- A loop is in the same iteration as before. -/
def SameIter (s s' : RequestState) (d : LoopId) : Prop :=
  (s'.loops d).currIter = (s.loops d).currIter ∧ (s'.loops d).done = (s.loops d).done ∧
    (s'.loops d).finishSignal = (s.loops d).finishSignal

/-- What a completion does to the loops within one pass. -/
inductive Turned (g : CompiledGraph) (s s' : RequestState) : Prop
  /-- Every loop waits for more. -/
  | same (h : ∀ d, SameIter s s' d)
  /-- A loop is over, and with it every run nested in it. -/
  | ended (m : LoopId) (hdone : (s'.loops m).done = true)
    (hbelow : ∀ d, g.Below d m → (s'.loops d).finishSignal = false)
    (hsame : ∀ d, d ≠ m → ¬ g.Below d m → SameIter s s' d)
  /-- A loop goes on to another iteration, and every run nested in it is over. -/
  | advanced (m : LoopId) (hiter : (s.loops m).currIter < (s'.loops m).currIter)
    (hdone : (s'.loops m).done = (s.loops m).done)
    (hfinish : (s'.loops m).finishSignal = (s.loops m).finishSignal)
    (hbelow : ∀ d, g.Below d m → (s'.loops d).finishSignal = false)
    (hsame : ∀ d, d ≠ m → ¬ g.Below d m → SameIter s s' d)

/-- What an event leaves of a loop's run: the clock does not go back unless the
passes wrap around, a stop of the run stays in force, and a new run has no
finish signal. -/
structure Ticks (g : CompiledGraph) (s s' : RequestState) (l : LoopId) : Prop where
  le : s.numTimesRun + 1 < 2 ^ 32 → s.clock g l ≤ s'.clock g l
  ending : s'.clock g l = s.clock g l → ⊤ ∉ (ofLex (s.clock g l)).2 → s.Ending l → s'.Ending l
  renewed : s'.runOf g l ≠ s.runOf g l → (s'.loops l).finishSignal = false

variable {g : CompiledGraph} {s s' : RequestState} {l m : LoopId}

/-- Nothing done stays in its iteration. -/
theorem SameIter.refl (s : RequestState) (d : LoopId) : SameIter s s d := ⟨rfl, rfl, rfl⟩

/-- So do two steps that each do. -/
theorem SameIter.trans {s'' : RequestState} {d : LoopId} (h : SameIter s s' d)
    (h' : SameIter s' s'' d) : SameIter s s'' d :=
  ⟨h'.1.trans h.1, h'.2.1.trans h.2.1, h'.2.2.trans h.2.2⟩

/-- Loops in the same iteration have the same clock. -/
theorem clockAlong_eq {ms : List LoopId} (h : ∀ d ∈ ms,
    (s'.loops d).currIter = (s.loops d).currIter ∧ (s'.loops d).done = (s.loops d).done) :
    clockAlong s' ms = clockAlong s ms := by
  induction ms with
  | nil => rfl
  | cons d ms ih =>
    obtain ⟨hiter, hdone⟩ := h d List.mem_cons_self
    unfold clockAlong
    rw [hiter, hdone, ih fun e he => h e (List.mem_cons_of_mem _ he)]

/-- The outer loops in the same iteration, the inner ones decide. -/
theorem clockAlong_le {pre ms : List LoopId} (h : ∀ d ∈ pre, SameIter s s' d)
    (hms : clockAlong s ms ≤ clockAlong s' ms) :
    clockAlong s (pre ++ ms) ≤ clockAlong s' (pre ++ ms) := by
  induction pre with
  | nil => exact hms
  | cons d pre ih =>
    obtain ⟨hiter, hdone, _⟩ := h d List.mem_cons_self
    rw [List.cons_append]
    unfold clockAlong
    rw [hiter, hdone]
    split
    · exact le_rfl
    · exact List.cons_le_cons _ (ih fun e he => h e (List.mem_cons_of_mem _ he))

/-- Where no loop is over, the same clock is the same further in. -/
theorem clockAlong_inner {pre ms : List LoopId} (h : ∀ d ∈ pre, SameIter s s' d)
    (heq : clockAlong s' (pre ++ ms) = clockAlong s (pre ++ ms))
    (htop : ⊤ ∉ clockAlong s (pre ++ ms)) :
    clockAlong s' ms = clockAlong s ms ∧ ⊤ ∉ clockAlong s ms := by
  induction pre with
  | nil => exact ⟨heq, htop⟩
  | cons d pre ih =>
    obtain ⟨hiter, hdone, _⟩ := h d List.mem_cons_self
    rw [List.cons_append] at heq htop
    unfold clockAlong at heq htop
    rw [hiter, hdone] at heq
    by_cases hd : (s.loops d).done = true
    · rw [if_pos hd] at htop
      exact absurd (List.mem_singleton.2 rfl) htop
    · rw [if_neg hd, if_neg hd] at heq
      rw [if_neg hd] at htop
      exact ih (fun e he => h e (List.mem_cons_of_mem _ he)) (List.cons.inj heq).2
        fun hmem => htop (List.mem_cons_of_mem _ hmem)

/-- A loop that is over comes after all of its iterations. -/
theorem clockAlong_le_done {post : List LoopId} (hdone : (s'.loops m).done = true) :
    clockAlong s (m :: post) ≤ clockAlong s' (m :: post) ∧
      (clockAlong s' (m :: post) = clockAlong s (m :: post) → ⊤ ∈ clockAlong s (m :: post)) := by
  have hs' : clockAlong s' (m :: post) = [⊤] := by
    unfold clockAlong
    rw [if_pos hdone]
  rw [hs']
  refine ⟨?_, fun heq => heq ▸ List.mem_singleton.2 rfl⟩
  unfold clockAlong
  split
  · exact le_rfl
  · exact le_of_lt (List.cons_lt_cons_iff.2 (.inl (WithTop.coe_lt_top _)))

/-- A loop that advances moves the clock of what is nested in it on. -/
theorem clockAlong_le_advanced {post : List LoopId}
    (hiter : (s.loops m).currIter < (s'.loops m).currIter)
    (hdone : (s'.loops m).done = (s.loops m).done) :
    clockAlong s (m :: post) ≤ clockAlong s' (m :: post) ∧
      (clockAlong s' (m :: post) = clockAlong s (m :: post) → ⊤ ∈ clockAlong s (m :: post)) := by
  unfold clockAlong
  rw [hdone]
  split
  · exact ⟨le_rfl, fun _ => List.mem_singleton.2 rfl⟩
  · refine ⟨le_of_lt (List.cons_lt_cons_iff.2 (.inl (WithTop.coe_lt_coe.2 hiter))), fun heq => ?_⟩
    exact absurd (WithTop.coe_inj.1 (List.cons.inj heq).1) (Nat.ne_of_gt hiter)

/-- What is not nested in a loop that turns is not around one that is not. -/
theorem sameIter_around {P : LoopId → Prop} (hl : l < g.loops.length) (hne : ¬ g.Below l m)
    (hsame : ∀ d, d ≠ m → ¬ g.Below d m → P d) : ∀ d ∈ g.around l, P d := by
  intro d hd
  have hbelow := below_of_mem_around hl hd
  refine hsame d ?_ fun hdm => hne (hbelow.trans hdm)
  rintro rfl
  exact hne hbelow

/-- Loops around it in the same iteration leave a loop's run what it is. -/
theorem ticks_of_around (htimes : s'.numTimesRun = s.numTimesRun)
    (hsame : ∀ d ∈ g.around l, SameIter s s' d) (hending : s.Ending l → s'.Ending l) :
    Ticks g s s' l := by
  have hclock : s'.clock g l = s.clock g l := by
    unfold clock
    rw [htimes, clockAlong_eq fun d hd => ⟨(hsame d hd).1, (hsame d hd).2.1⟩]
  refine ⟨fun _ => le_of_eq hclock.symm, fun _ _ => hending, fun hrun => absurd ?_ hrun⟩
  unfold runOf
  rw [htimes, List.map_congr_left fun d hd => (hsame d hd).1]

/-- A loop nested in one that turns has a new run. -/
theorem ticks_of_below (htimes : s'.numTimesRun = s.numTimesRun) (hb : g.Below l m)
    (hsame : ∀ d, d ≠ m → ¬ g.Below d m → SameIter s s' d)
    (hfinish : (s'.loops l).finishSignal = false)
    (hm : ∀ post, clockAlong s (m :: post) ≤ clockAlong s' (m :: post) ∧
      (clockAlong s' (m :: post) = clockAlong s (m :: post) → ⊤ ∈ clockAlong s (m :: post))) :
    Ticks g s s' l := by
  obtain ⟨pre, post, hsplit, hpre⟩ := around_split hb
  have hout : ∀ d ∈ pre, SameIter s s' d := fun d hd => hsame d (hpre d hd).1 (hpre d hd).2
  refine ⟨fun _ => ?_, fun heq htop => ?_, fun _ => hfinish⟩
  · unfold clock
    rw [hsplit, htimes, Prod.Lex.toLex_le_toLex]
    exact .inr ⟨rfl, clockAlong_le hout (hm post).1⟩
  · unfold clock at heq htop
    rw [hsplit] at heq htop
    have hinner := clockAlong_inner hout (Prod.mk.inj (toLex.injective heq)).2 htop
    exact absurd ((hm post).2 hinner.1) hinner.2

/-- A completion within a pass moves every loop's clock on or leaves it. -/
theorem Turned.ticks (h : Turned g s s') (htimes : s'.numTimesRun = s.numTimesRun)
    (hl : l < g.loops.length) : Ticks g s s' l := by
  have hkeep {d : LoopId} (hd : SameIter s s' d) (he : s.Ending d) : s'.Ending d := by
    unfold Ending
    rw [hd.2.1, hd.2.2]
    exact he
  cases h with
  | same hsame => exact ticks_of_around htimes (fun d _ => hsame d) (hkeep (hsame l))
  | ended m hdone hbelow hsame =>
    by_cases hb : g.Below l m
    · exact ticks_of_below htimes hb hsame (hbelow l hb) fun _ => clockAlong_le_done hdone
    · refine ticks_of_around htimes (sameIter_around hl hb hsame) fun he => ?_
      by_cases hlm : l = m
      · subst hlm
        exact .inl hdone
      · exact hkeep (hsame l hlm hb) he
  | advanced m hiter hdone hfinish hbelow hsame =>
    by_cases hb : g.Below l m
    · exact ticks_of_below htimes hb hsame (hbelow l hb)
        fun _ => clockAlong_le_advanced hiter hdone
    · refine ticks_of_around htimes (sameIter_around hl hb hsame) fun he => ?_
      by_cases hlm : l = m
      · subst hlm
        unfold Ending
        rw [hdone, hfinish]
        exact he
      · exact hkeep (hsame l hlm hb) he

end RequestState

end Mstar.Walk
