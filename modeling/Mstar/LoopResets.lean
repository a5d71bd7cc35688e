import Mstar.LoopNest

/-!
# What a loop that turns leaves behind

The counters and caches of every loop after a loop cached its member's
outputs, went on to its next iteration, or ended. What is nested in a loop
that turns starts over, and every loop outside of it is left alone.
-/

namespace Mstar.Walk

open Shard (Sym TensorRef)
open CompiledGraph (mem_childLoops parent_lt_length lt_length_of_parent not_below_self)

namespace CompiledGraph

variable {g : CompiledGraph}

/-- A loop is around what is nested in it. -/
theorem mem_around_iff {l d : LoopId} : l ∈ g.around d ↔ g.Below d l := by
  constructor
  · intro h
    have hd : d < g.loops.length := by
      by_contra hd
      unfold around loopOrder at h
      cases hk : g.loops.length with
      | zero =>
        rw [hk] at h
        exact absurd h (by simp [outward])
      | succ k =>
        have hp : (g.lp d).parent = none := by
          cases hp : (g.lp d).parent with
          | none => rfl
          | some p => exact absurd (lt_length_of_parent hp) hd
        rw [hk] at h
        unfold outward at h
        rw [hp] at h
        exact absurd h (by simp)
    exact below_of_mem_around hd h
  · intro h
    obtain ⟨pre, post, hsplit, _⟩ := around_split h
    rw [hsplit]
    exact List.mem_append_right _ List.mem_cons_self

/-- The loops around a node are its innermost one and those around it. -/
theorem mem_enclosing_iff {n : NodeId} {l : LoopId} :
    l ∈ g.enclosing n ↔ ∃ m, g.loopId n = some m ∧ (m = l ∨ g.Below m l) := by
  unfold enclosing
  cases hn : g.loopId n with
  | none => simp
  | some m =>
    have horder : l ∈ g.outward g.loops.length m ↔ l ∈ g.loopOrder m := List.mem_reverse.symm
    dsimp only
    rw [horder, loopOrder_eq (loopId_lt_length hn), List.mem_append, List.mem_singleton,
      mem_around_iff, or_comm]
    constructor
    · exact fun h => ⟨m, rfl, h.imp_left Eq.symm⟩
    · rintro ⟨m', hm, h⟩
      obtain rfl := Option.some.inj hm
      exact h.imp_left Eq.symm

end CompiledGraph

namespace RequestState

variable {g : CompiledGraph} {s : RequestState} {l d : LoopId}

/-- A nested loop when the loop around it goes on. -/
def restarted (st : LoopState) : LoopState := { st.resetMetadata with completedEntities := 0 }

/-- A nested loop when the loop around it ends. -/
def dropped (st : LoopState) : LoopState :=
  { st.resetMetadata with completedEntities := 0, accum := [], cached := [] }

section Folds

variable {σ α β : Type} {p : σ → β} {R : β → β} {f : σ → α → σ} {xs : List α}

/-- A fold whose steps apply an idempotent change or none applies it or not. -/
theorem foldl_keeps_or_applies (hidem : ∀ b, R (R b) = R b)
    (hf : ∀ s, ∀ y ∈ xs, p (f s y) = p s ∨ p (f s y) = R (p s)) (s : σ) :
    p (xs.foldl f s) = p s ∨ p (xs.foldl f s) = R (p s) := by
  induction xs generalizing s with
  | nil => exact .inl rfl
  | cons y ys ih =>
    rw [List.foldl_cons]
    have htail := ih (fun s z hz => hf s z (List.mem_cons_of_mem _ hz)) (f s y)
    rcases hf s y List.mem_cons_self with hy | hy
    · rwa [hy] at htail
    · rw [hy, hidem] at htail
      exact .inr (htail.elim id id)

/-- One step that applies it is enough. -/
theorem foldl_applies (hidem : ∀ b, R (R b) = R b)
    (hf : ∀ s, ∀ y ∈ xs, p (f s y) = p s ∨ p (f s y) = R (p s)) {x : α} (hx : x ∈ xs)
    (hfx : ∀ s, p (f s x) = R (p s)) (s : σ) : p (xs.foldl f s) = R (p s) := by
  induction xs generalizing s with
  | nil => exact absurd hx List.not_mem_nil
  | cons y ys ih =>
    rw [List.foldl_cons]
    have hys (s : σ) (z : α) (hz : z ∈ ys) := hf s z (List.mem_cons_of_mem _ hz)
    rcases List.mem_cons.1 hx with rfl | hx
    · have htail := foldl_keeps_or_applies hidem hys (f s x)
      rw [hfx, hidem] at htail
      exact htail.elim id id
    · rw [ih hys hx]
      rcases hf s y List.mem_cons_self with hy | hy
      · rw [hy]
      · rw [hy, hidem]

end Folds

/-- One child loop's restart, after that of what is nested in it. -/
theorem restartChild_keeps_or_restarts {s' : RequestState} {st : LoopState} (c : LoopId)
    (h : s'.loops d = st ∨ s'.loops d = restarted st) :
    (s'.setLoop c (restarted (s'.loops c))).loops d = st ∨
      (s'.setLoop c (restarted (s'.loops c))).loops d = restarted st := by
  by_cases hd : d = c
  · subst hd
    rw [setLoop_loops_self]
    rcases h with h | h <;> rw [h] <;> exact .inr rfl
  · rw [setLoop_loops_of_ne _ hd]
    exact h

/-- A reset of a loop's body restarts a loop or leaves it alone. -/
theorem resetSubtreeForIter_keeps_or_restarts (k : ℕ) (l d : LoopId) (s : RequestState) :
    (resetSubtreeForIter g k l s).loops d = s.loops d ∨
      (resetSubtreeForIter g k l s).loops d = restarted (s.loops d) := by
  induction k generalizing l s with
  | zero => exact .inl rfl
  | succ k ih =>
    have hmembers : ((g.lp l).memberNodes.foldl (resetMember g) s).loops d = s.loops d :=
      foldl_same (f := resetMember g) (fun s => s.loops d) (fun _ _ _ => rfl) s
    unfold resetSubtreeForIter
    rw [← hmembers]
    exact foldl_keeps_or_applies (p := fun s : RequestState => s.loops d) (R := restarted)
      (fun _ => rfl) (fun s c _ => restartChild_keeps_or_restarts c (ih c s)) _

/-- What is nested in a loop that goes on is restarted. -/
theorem restarted_of_below (hb : g.Below d l) (s : RequestState) :
    (resetSubtreeForIter g g.loops.length l s).loops d = restarted (s.loops d) := by
  have hsteps (s : RequestState) (c : LoopId) := restartChild_keeps_or_restarts c
    (resetSubtreeForIter_keeps_or_restarts (g := g) g.loops.length c d s)
  have hmembers (l : LoopId) (s : RequestState) :
      ((g.lp l).memberNodes.foldl (resetMember g) s).loops d = s.loops d :=
    foldl_same (f := resetMember g) (fun s => s.loops d) (fun _ _ _ => rfl) s
  induction hb generalizing s with
  | single hp =>
    rw [resetSubtreeForIter_eq (parent_lt_length hp), ← hmembers _ s]
    refine foldl_applies (p := fun s : RequestState => s.loops d) (R := restarted) (fun _ => rfl)
      (fun s c _ => hsteps s c) (mem_childLoops.2 ⟨lt_length_of_parent hp, hp⟩) (fun s => ?_) _
    rw [setLoop_loops_self, resetSubtreeForIter_loops _ _ _ (not_below_self d)]
  | @tail c p hb hp ih =>
    rw [resetSubtreeForIter_eq (parent_lt_length hp), ← hmembers _ s]
    refine foldl_applies (p := fun s : RequestState => s.loops d) (R := restarted) (fun _ => rfl)
      (fun s c _ => hsteps s c) (mem_childLoops.2 ⟨lt_length_of_parent hp, hp⟩) (fun s => ?_) _
    have hne : d ≠ c := by
      rintro rfl
      exact not_below_self d hb
    rw [setLoop_loops_of_ne _ hne]
    exact ih s

/-- One child loop's clearing, after that of what is nested in it. -/
theorem clearChild_keeps_or_drops {s' : RequestState} {st : LoopState} (c : LoopId)
    (h : s'.loops d = st ∨ s'.loops d = dropped st) :
    (s'.clearChild c).loops d = st ∨ (s'.clearChild c).loops d = dropped st := by
  unfold clearChild
  by_cases hd : d = c
  · subst hd
    dsimp only
    rw [setLoop_loops_self]
    rcases h with h | h <;> rw [h] <;> exact .inr rfl
  · dsimp only
    rw [setLoop_loops_of_ne _ hd]
    exact h

/-- Clearing a loop's body drops a loop or leaves it alone. -/
theorem clearSubtree_keeps_or_drops (k : ℕ) (l d : LoopId) (s : RequestState) :
    (clearSubtree g k l s).loops d = s.loops d ∨
      (clearSubtree g k l s).loops d = dropped (s.loops d) := by
  induction k generalizing l s with
  | zero => exact .inl rfl
  | succ k ih =>
    have hmembers : ((g.lp l).memberNodes.foldl (clearMember g) s).loops d = s.loops d :=
      foldl_same (f := clearMember g) (fun s => s.loops d) (fun _ _ _ => rfl) s
    unfold clearSubtree
    rw [← hmembers]
    exact foldl_keeps_or_applies (p := fun s : RequestState => s.loops d) (R := dropped)
      (fun _ => rfl) (fun s c _ => clearChild_keeps_or_drops c (ih c s)) _

/-- What is nested in a loop that ends is dropped. -/
theorem dropped_of_below (hb : g.Below d l) (s : RequestState) :
    (clearSubtree g g.loops.length l s).loops d = dropped (s.loops d) := by
  have hsteps (s : RequestState) (c : LoopId) :=
    clearChild_keeps_or_drops c (clearSubtree_keeps_or_drops (g := g) g.loops.length c d s)
  have hmembers (l : LoopId) (s : RequestState) :
      ((g.lp l).memberNodes.foldl (clearMember g) s).loops d = s.loops d :=
    foldl_same (f := clearMember g) (fun s => s.loops d) (fun _ _ _ => rfl) s
  induction hb generalizing s with
  | single hp =>
    rw [clearSubtree_eq (parent_lt_length hp), ← hmembers _ s]
    refine foldl_applies (p := fun s : RequestState => s.loops d) (R := dropped) (fun _ => rfl)
      (fun s c _ => hsteps s c) (mem_childLoops.2 ⟨lt_length_of_parent hp, hp⟩) (fun s => ?_) _
    unfold clearChild
    dsimp only
    rw [setLoop_loops_self, clearSubtree_loops _ _ _ (not_below_self d)]
    rfl
  | @tail c p hb hp ih =>
    rw [clearSubtree_eq (parent_lt_length hp), ← hmembers _ s]
    refine foldl_applies (p := fun s : RequestState => s.loops d) (R := dropped) (fun _ => rfl)
      (fun s c _ => hsteps s c) (mem_childLoops.2 ⟨lt_length_of_parent hp, hp⟩) (fun s => ?_) _
    have hne : d ≠ c := by
      rintro rfl
      exact not_below_self d hb
    unfold clearChild
    dsimp only
    rw [setLoop_loops_of_ne _ hne]
    exact ih s

/-- Every loop after one of them ended. -/
theorem finishLoop_loops (s : RequestState) (l d : LoopId) :
    (s.finishLoop g l).1.loops d =
      if d = l then { s.loops l with done := true, cached := [], accum := [] }
      else if l ∈ g.around d then dropped (s.loops d) else s.loops d := by
  set s₁ := s.setLoop l { s.loops l with done := true } with hs₁
  have hself : (clearSubtree g g.loops.length l s₁).loops l = { s.loops l with done := true } := by
    rw [clearSubtree_loops _ _ _ (not_below_self l), hs₁, setLoop_loops_self]
  split
  · next hd =>
    subst hd
    unfold finishLoop handOn transfer
    dsimp only
    rw [setLoop_loops_self, ← hs₁, hself]
  · next hd =>
    split
    · next hb =>
      unfold finishLoop handOn transfer
      dsimp only
      rw [setLoop_loops_of_ne _ hd, ← hs₁, dropped_of_below (CompiledGraph.mem_around_iff.1 hb), hs₁,
        setLoop_loops_of_ne _ hd]
    · next hb =>
      exact Lossless.loops_finishLoop (fun h => hb (CompiledGraph.mem_around_iff.2 h)) hd

/-- What a loop that ends puts out. -/
theorem finishLoop_edges (s : RequestState) (l : LoopId) :
    (s.finishLoop g l).2 = loopOutputs g l (s.loops l) := by
  unfold finishLoop
  dsimp only
  rw [clearSubtree_loops _ _ _ (not_below_self l), setLoop_loops_self]
  rfl

/-- Every loop after one of them went on. -/
theorem advanceLoop_loops (s : RequestState) (l d : LoopId) (stride : ℕ) :
    (s.advanceLoop g l stride).1.loops d =
      if d = l then { s.loops l with
        currIter := saturatingAdd (s.loops l).currIter stride
        cached := [] }
      else if l ∈ g.around d then restarted (s.loops d) else s.loops d := by
  set s₁ := s.setLoop l { s.loops l with
    currIter := saturatingAdd (s.loops l).currIter stride } with hs₁
  have hself : (resetSubtreeForIter g g.loops.length l s₁).loops l =
      { s.loops l with currIter := saturatingAdd (s.loops l).currIter stride } := by
    rw [resetSubtreeForIter_loops _ _ _ (not_below_self l), hs₁, setLoop_loops_self]
  unfold advanceLoop uncache release
  dsimp only
  rw [← hs₁]
  split
  · next hd =>
    subst hd
    rw [setLoop_loops_self, hself]
  · next hd =>
    rw [setLoop_loops_of_ne _ hd]
    split
    · next hb =>
      rw [restarted_of_below (CompiledGraph.mem_around_iff.1 hb), hs₁, setLoop_loops_of_ne _ hd]
    · next hb =>
      rw [resetSubtreeForIter_loops _ _ _ fun h => hb (CompiledGraph.mem_around_iff.2 h), hs₁,
        setLoop_loops_of_ne _ hd]

/-- What a loop that goes on puts out: its saved inputs again. -/
theorem advanceLoop_edges (s : RequestState) (l : LoopId) (stride : ℕ) :
    (s.advanceLoop g l stride).2 = (s.loops l).extInputs.map (reinject g) := by
  unfold advanceLoop
  dsimp only
  rw [resetSubtreeForIter_loops _ _ _ (not_below_self l), setLoop_loops_self]

/-- The root count and the end of the pass. -/
def progress (s : RequestState) : ℕ × Bool := (s.rootCompleted, s.isDone)

/-- Another iteration counts no entity outside the loops. -/
theorem progress_resetSubtreeForIter (k : ℕ) (l : LoopId) (s : RequestState) :
    (resetSubtreeForIter g k l s).progress = s.progress := by
  induction k generalizing l s with
  | zero => rfl
  | succ k ih =>
    have hmembers : ((g.lp l).memberNodes.foldl (resetMember g) s).progress = s.progress :=
      foldl_same (f := resetMember g) progress (fun _ _ _ => rfl) s
    refine (foldl_same progress (fun s c _ => ?_) _).trans hmembers
    exact ih c s

/-- Nor does clearing a loop. -/
theorem progress_clearSubtree (k : ℕ) (l : LoopId) (s : RequestState) :
    (clearSubtree g k l s).progress = s.progress := by
  induction k generalizing l s with
  | zero => rfl
  | succ k ih =>
    have hmembers : ((g.lp l).memberNodes.foldl (clearMember g) s).progress = s.progress :=
      foldl_same (f := clearMember g) progress (fun _ _ _ => rfl) s
    refine (foldl_same progress (fun s c _ => ?_) _).trans hmembers
    exact ih c s

/-- Nor does ending one. -/
theorem progress_finishLoop (s : RequestState) (l : LoopId) :
    (s.finishLoop g l).1.progress = s.progress := progress_clearSubtree _ l _

/-- Nor does going on. -/
theorem progress_advanceLoop (s : RequestState) (l : LoopId) (stride : ℕ) :
    (s.advanceLoop g l stride).1.progress = s.progress := progress_resetSubtreeForIter _ l _

end RequestState

end Mstar.Walk
