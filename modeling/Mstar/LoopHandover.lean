import Mstar.LoopAgreement

/-!
# An entity's completion, handed to the loop around it

What it is for the counters and caches of a walk to agree with the loops asked
for, and how an entity's completion keeps it: a root entity is counted for the
worker graph, a member of a loop for the loop, which turns once its round is
over.
-/

namespace Mstar.Walk

open Shard (Sym TensorRef)
open CompiledGraph (Has lt_length_of_scope mem_entities mem_rootEntities child_of_below mem_around_iff
  lt_length_of_parent parent_lt_length loopId_lt_length below_of_mem_around around_eq outward_eq)
open LoopNest (Completion pendingOf pendingOf_eq_some completedIn_mark over_mark over_turn
  roundOver_iff passOver_iff)

namespace RequestState

variable {g : CompiledGraph} {s s' : RequestState} {a a' : LoopNest} {l : LoopId}
  {pending : Option LoopId}

/-- A walk's loops agree with the loops asked for, one of them perhaps over
and not yet marked complete in the loop around it. -/
structure Agrees (g : CompiledGraph) (pending : Option LoopId) (s : RequestState) (a : LoopNest) :
    Prop where
  /-- The counters and caches are those of the runs. -/
  run : ∀ l, Matches g l (s.loops l) (a.run l)
  cap : ∀ l, (s.loops l).maxIters = a.cap l
  capped : ∀ l, a.cap l ≤ 4294967295
  /-- A loop is done when it completed in the loop around it. -/
  isOver : ∀ l, (s.loops l).done = true ↔ a.Over g pending l
  roots : s.rootCompleted = a.roots.length
  /-- An entity completes once an iteration, in the loop it is a member of. -/
  nodup : ∀ k, (a.completedIn k).Nodup
  members : ∀ k, ∀ x ∈ a.completedIn k, g.Has x ∧ g.scope x = k
  /-- A loop that is over keeps nothing, nor does what is nested in it. -/
  quiet : ∀ l, a.Over g pending l → ∀ d, d = l ∨ g.Below d l →
    (a.run d).round = [] ∧ (a.run d).earlier = []

/-- An entity is marked complete. -/
theorem Agrees.mark {p : Production} (h : Agrees g (pendingOf p.1) s a) (hhas : g.Has p.1)
    (hnew : p.1 ∉ a.completedIn (g.scope p.1))
    (hopen : ∀ l, g.scope p.1 = some l → a.Open g (pendingOf p.1) l)
    (hrun : ∀ d, Matches g d (s'.loops d) ((a.mark g p).run d))
    (hcap : ∀ d, (s'.loops d).maxIters = (s.loops d).maxIters)
    (hdone : ∀ d, (s'.loops d).done = (s.loops d).done)
    (hroots : s'.rootCompleted = (a.mark g p).roots.length) : Agrees g none s' (a.mark g p) := by
  have hcaps : (a.mark g p).cap = a.cap := by
    unfold LoopNest.mark
    cases g.scope p.1 <;> rfl
  constructor
  · exact hrun
  · intro d
    rw [hcaps, hcap, h.cap]
  · intro d
    rw [hcaps]
    exact h.capped d
  · intro d
    rw [over_mark, hdone, h.isOver]
  · exact hroots
  · intro k
    rw [completedIn_mark]
    split
    · next hk =>
      rw [hk]
      exact (h.nodup _).append (List.nodup_singleton _) (by simpa using hnew)
    · rw [List.append_nil]
      exact h.nodup k
  · intro k x hx
    rw [completedIn_mark, List.mem_append] at hx
    rcases hx with hx | hx
    · exact h.members k x hx
    · split at hx
      · next hk =>
        obtain rfl := List.mem_singleton.1 hx
        exact ⟨hhas, hk.symm⟩
      · exact absurd hx List.not_mem_nil
  · intro m hm d hd
    rw [over_mark] at hm
    have hkeep : (a.mark g p).run d = a.run d := by
      unfold LoopNest.mark
      cases hs : g.scope p.1 with
      | none => rfl
      | some l =>
        have hne : d ≠ l := by
          rintro rfl
          exact hopen d hs m (hd.imp Eq.symm id) hm
        exact Function.update_of_ne hne _ _
    rw [hkeep]
    exact h.quiet m hm d hd

/-- What is nested in a loop whose round is over keeps nothing. -/
theorem Agrees.quiet_of_below (h : Agrees g none s a) (hround : a.RoundOver g l) {d : LoopId}
    (hb : g.Below d l) : (a.run d).round = [] ∧ (a.run d).earlier = [] := by
  obtain ⟨c, hc, hin⟩ := child_of_below hb
  refine h.quiet c (.inl ?_) d hin
  change Entity.loop c ∈ a.completedIn (g.lp c).parent
  rw [hc]
  exact hround (.loop c) (mem_entities.2 hc)

/-- What is nested in a loop that goes on starts over as new. -/
theorem Agrees.restarted_eq (h : Agrees g none s a) (hround : a.RoundOver g l) {d : LoopId}
    (hb : g.Below d l) : restarted (s.loops d) = .new (s.loops d).maxIters := by
  have hquiet := h.quiet_of_below hround hb
  exact (h.run d).restarted_eq hquiet.1 hquiet.2

/-- A loop whose round is over turns. -/
theorem Agrees.turn (h : Agrees g none s a) (hopen : a.Open g none l) (hround : a.RoundOver g l)
    {r : LoopRun} (hr : r.round = []) (hpending : ∀ m, pending = some m → m = l)
    (hearlier : pending = some l → r.earlier = [])
    (hself : Matches g l (s'.loops l) r) (hcap : (s'.loops l).maxIters = (s.loops l).maxIters)
    (hdone : (s'.loops l).done = true ↔ pending = some l)
    (hnested : ∀ d, g.Below d l → s'.loops d = .new (s.loops d).maxIters)
    (hout : ∀ d, d ≠ l → ¬ g.Below d l → s'.loops d = s.loops d)
    (hroots : s'.rootCompleted = s.rootCompleted) : Agrees g pending s' (a.turn g l r) := by
  have hrun (d : LoopId) : (a.turn g l r).run d =
      if d = l then r else if l ∈ g.around d then .fresh else a.run d := rfl
  constructor
  · intro d
    rw [hrun]
    split
    · next hd =>
      rw [hd]
      exact hself
    · next hd =>
      split
      · next hb =>
        rw [hnested d (mem_around_iff.1 hb)]
        exact Matches.fresh d _
      · next hb =>
        rw [hout d hd fun hb' => hb (mem_around_iff.2 hb')]
        exact h.run d
  · intro d
    change _ = a.cap d
    rw [← h.cap]
    by_cases hd : d = l
    · rw [hd, hcap]
    · by_cases hb : g.Below d l
      · rw [hnested d hb]
        rfl
      · rw [hout d hd hb]
  · exact h.capped
  · intro d
    rw [over_turn hr hpending]
    by_cases hd : d = l
    · subst hd
      rw [hdone]
      have hnot := hopen d (.inl rfl)
      simp [hnot]
    · have hne : pending ≠ some d := fun hp => hd (hpending d hp)
      by_cases hb : g.Below d l
      · rw [hnested d hb]
        simp [LoopState.new, hb, hne]
      · rw [hout d hd hb, h.isOver]
        simp [hb, hne]
  · rw [hroots]
    exact h.roots
  · intro k
    rcases LoopNest.completedIn_turn (g := g) (a := a) (l := l) hr k with ⟨he, _⟩ | ⟨hs, _⟩
    · rw [he]
      exact List.nodup_nil
    · rw [hs]
      exact h.nodup k
  · intro k x hx
    rcases LoopNest.completedIn_turn (g := g) (a := a) (l := l) hr k with ⟨he, _⟩ | ⟨hs, _⟩
    · rw [he] at hx
      exact absurd hx List.not_mem_nil
    · rw [hs] at hx
      exact h.members k x hx
  · intro m hm d hd
    rw [hrun]
    rw [over_turn hr hpending] at hm
    split
    · next hdl =>
      subst hdl
      rcases hm with ⟨_, hm⟩ | hm
      · exact absurd hm (hopen m (hd.imp Eq.symm id))
      · obtain rfl := hpending m hm
        exact ⟨hr, hearlier hm⟩
    · next hdl =>
      split
      · exact ⟨rfl, rfl⟩
      · next hb =>
        rcases hm with ⟨_, hm⟩ | hm
        · exact h.quiet m hm d hd
        · obtain rfl := hpending m hm
          rcases hd with hd | hd
          · exact absurd hd hdl
          · exact absurd (mem_around_iff.2 hd) hb

/-- An entity completed in its loop, and counted. -/
def counted (g : CompiledGraph) (s : RequestState) (l : LoopId) (own : List RoutedEdge) :
    RequestState :=
  let s := s.cacheOutputs g l own
  s.setLoop l { s.loops l with completedEntities := (s.loops l).completedEntities + 1 }

/-- The loops once a completion is counted. -/
theorem counted_loops (s : RequestState) (l : LoopId) (own : List RoutedEdge) (d : LoopId) :
    (s.counted g l own).loops d = if d = l then { cachedBy g l own (s.loops l) with
      completedEntities := (s.loops l).completedEntities + 1 } else s.loops d := by
  have hrest := (cached_cachedBy (g := g) (l := l) own (s.loops l)).rest
  unfold counted
  dsimp only
  by_cases hd : d = l
  · subst hd
    rw [setLoop_loops_self, if_pos rfl, cacheOutputs_loops, if_pos rfl, hrest]
  · rw [setLoop_loops_of_ne _ hd, if_neg hd, cacheOutputs_loops, if_neg hd]

/-- A counted entity is marked complete. -/
theorem Agrees.counted {p : Production} (h : Agrees g (pendingOf p.1) s a) (hhas : g.Has p.1)
    (hnew : p.1 ∉ a.completedIn (g.scope p.1)) (hscope : g.scope p.1 = some l)
    (hopen : a.Open g (pendingOf p.1) l) : Agrees g none (s.counted g l p.2) (a.mark g p) := by
  have hrest := (cached_cachedBy (g := g) (l := l) p.2 (s.loops l)).rest
  have hmark : a.mark g p = { a with
      run := Function.update a.run l { a.run l with round := (a.run l).round ++ [p] } } := by
    unfold LoopNest.mark
    rw [hscope]
  refine h.mark hhas hnew ?_ ?_ ?_ ?_ ?_
  · intro m hm
    obtain rfl := Option.some.inj (hscope.symm.trans hm)
    exact hopen
  · intro d
    rw [counted_loops, hmark]
    dsimp only
    by_cases hd : d = l
    · subst hd
      rw [if_pos rfl, Function.update_self]
      exact (h.run d).mark p
    · rw [if_neg hd, Function.update_of_ne hd]
      exact h.run d
  · intro d
    rw [counted_loops]
    split
    · next hd => rw [hd, hrest]
    · rfl
  · intro d
    rw [counted_loops]
    split
    · next hd => rw [hd, hrest]
    · rfl
  · rw [hmark]
    exact (congrArg Prod.fst (progress_cacheOutputs (g := g) s l p.2)).trans h.roots

/-- An entity that completed, handed to the loop around it. -/
def handOver (g : CompiledGraph) (s : RequestState) (p : Production) (out : List RoutedEdge)
    (stride : ℕ) : RequestState × List RoutedEdge :=
  match g.scope p.1 with
  | none => (s.rootEntityDone g, out ++ p.2)
  | some l => entityCompleted g g.loops.length l out p.2 stride s

/-- What an entity's completion leaves, as it is asked to. -/
structure Handed (g : CompiledGraph) (s : RequestState) (p : Production) (a' : LoopNest)
    (edges : List RoutedEdge) (turned : List LoopId) (r : RequestState × List RoutedEdge) : Prop where
  agrees : Agrees g none r.1 a'
  edges : r.2 = edges
  done : r.1.isDone = true ↔ a'.PassOver g
  /-- What is nested in a loop that turned starts over as new. -/
  fresh : ∀ l ∈ turned, ∀ d, g.Below d l → r.1.loops d = .new (s.loops d).maxIters
  /-- What was new in the loop around stays new. -/
  keeps : ∀ d, (∀ l, g.scope p.1 = some l → g.Below d l) →
    s.loops d = .new (s.loops d).maxIters → r.1.loops d = .new (s.loops d).maxIters

/-- A root entity completes. -/
theorem handed_root {p : Production} (h : Agrees g (pendingOf p.1) s a) (hgoing : s.isDone = false)
    (hhas : g.Has p.1) (hnew : p.1 ∉ a.completedIn (g.scope p.1)) (hscope : g.scope p.1 = none)
    (out : List RoutedEdge) :
    Handed g s p (a.mark g p) (out ++ p.2) [] (s.rootEntityDone g, out ++ p.2) := by
  have hmark : a.mark g p = { a with roots := a.roots ++ [p.1] } := by
    unfold LoopNest.mark
    rw [hscope]
  have hstate : s.rootEntityDone g = { s with
      rootCompleted := s.rootCompleted + 1
      isDone := s.rootCompleted + 1 == g.nRootEntities } := by
    unfold rootEntityDone
    rw [hgoing]
    rfl
  have hroots : (s.rootEntityDone g).rootCompleted = (a.mark g p).roots.length := by
    rw [hstate, hmark]
    simp [h.roots]
  have hagrees : Agrees g none (s.rootEntityDone g) (a.mark g p) := by
    refine h.mark hhas hnew (fun l hl => ?_) (fun d => ?_) (fun d => ?_) (fun d => ?_) hroots
    · rw [hscope] at hl
      exact absurd hl (by simp)
    · rw [hstate, hmark]
      exact h.run d
    · rw [hstate]
    · rw [hstate]
  have hmembers : ∀ x ∈ (a.mark g p).roots, g.Has x ∧ g.scope x = none := hagrees.members none
  refine ⟨hagrees, rfl, ?_, fun l hl => absurd hl List.not_mem_nil, fun d _ hd => ?_⟩
  · have hle : (a.mark g p).roots.length ≤ g.nRootEntities := by
      rw [← CompiledGraph.length_rootEntities]
      exact ((hagrees.nodup none).subperm
        fun x hx => mem_rootEntities.2 (hmembers x hx)).length_le
    rw [passOver_iff (hagrees.nodup none) hmembers, ← hroots]
    rw [← hroots] at hle
    rw [hstate] at hle ⊢
    dsimp only at hle ⊢
    rw [beq_iff_eq]
    omega
  · rw [hstate]
    exact hd

/-- An iteration that is complete, its last entity's outputs cached. -/
def closing (g : CompiledGraph) (s : RequestState) (l : LoopId) (own : List RoutedEdge) :
    RequestState :=
  let s := s.cacheOutputs g l own
  s.setLoop l { s.loops l with completedEntities := 0 }

/-- And once its loop closes the iteration. -/
theorem closing_loops (s : RequestState) (l : LoopId) (own : List RoutedEdge) (d : LoopId) :
    (s.closing g l own).loops d =
      if d = l then { (s.counted g l own).loops l with completedEntities := 0 }
      else s.loops d := by
  unfold closing
  dsimp only
  by_cases hd : d = l
  · subst hd
    rw [setLoop_loops_self, if_pos rfl, counted_loops, if_pos rfl, cacheOutputs_loops, if_pos rfl]
  · rw [setLoop_loops_of_ne _ hd, if_neg hd, cacheOutputs_loops, if_neg hd]

/-- Closing counts no entity outside the loops. -/
theorem progress_closing (s : RequestState) (l : LoopId) (own : List RoutedEdge) :
    (s.closing g l own).progress = s.progress := progress_cacheOutputs s l own

/-- Nor does counting in a loop. -/
theorem progress_counted (s : RequestState) (l : LoopId) (own : List RoutedEdge) :
    (s.counted g l own).progress = s.progress := progress_cacheOutputs s l own

/-- What caching leaves of the loop it touches. -/
theorem counted_rest (s : RequestState) (l : LoopId) (own : List RoutedEdge) :
    (s.counted g l own).loops l = { s.loops l with
      completedEntities := (s.loops l).completedEntities + 1
      cached := ((s.counted g l own).loops l).cached
      accum := ((s.counted g l own).loops l).accum } := by
  rw [counted_loops, if_pos rfl]
  conv_lhs => rw [(cached_cachedBy (g := g) (l := l) own (s.loops l)).rest]

/-- An entity that completed in a loop: the loop waits, or ends and completes
in the loop around it, or goes on. -/
theorem handOver_eq {p : Production} (hscope : g.scope p.1 = some l) (out : List RoutedEdge)
    (stride : ℕ) : handOver g s p out stride =
      if (s.loops l).completedEntities + 1 < g.nEntities l then (s.counted g l p.2, out ++ p.2)
      else if finishing (s.loops l) stride then
        handOver g ((s.closing g l p.2).finishLoop g l).1
          (.loop l, loopOutputs g l ((s.counted g l p.2).loops l))
          (dropLoopBack g l (out ++ p.2)) 1
      else (((s.closing g l p.2).advanceLoop g l stride).1,
        out ++ p.2 ++ (s.loops l).extInputs.map (reinject g)) := by
  have hl := lt_length_of_scope hscope
  have hrest := counted_rest (g := g) s l p.2
  have hcached : (s.cacheOutputs g l p.2).loops l =
      { (s.counted g l p.2).loops l with completedEntities := (s.loops l).completedEntities } := by
    rw [counted_loops, if_pos rfl, cacheOutputs_loops, if_pos rfl]
    conv_lhs => rw [(cached_cachedBy (g := g) (l := l) p.2 (s.loops l)).rest]
    conv_rhs => rw [(cached_cachedBy (g := g) (l := l) p.2 (s.loops l)).rest]
  have hcount : ((s.cacheOutputs g l p.2).loops l).completedEntities =
      (s.loops l).completedEntities := by rw [hcached]
  have hfin : finishing ((s.cacheOutputs g l p.2).loops l) stride =
      finishing (s.loops l) stride := by
    unfold finishing
    rw [hcached, hrest]
  have hself : (s.closing g l p.2).loops l =
      { (s.counted g l p.2).loops l with completedEntities := 0 } := by
    rw [closing_loops, if_pos rfl]
  have hends : ((s.closing g l p.2).finishLoop g l).2 =
      loopOutputs g l ((s.counted g l p.2).loops l) := by
    rw [finishLoop_edges, hself]
    rfl
  have hgoes : ((s.closing g l p.2).advanceLoop g l stride).2 =
      (s.loops l).extInputs.map (reinject g) := by
    rw [advanceLoop_edges, hself, hrest]
  unfold handOver
  rw [hscope]
  dsimp only
  rw [entityCompleted_eq hl]
  dsimp only
  rw [hcount, hfin]
  split
  · unfold counted
    dsimp only
    rw [hcount]
  · split
    · change (match (g.lp l).parent with
        | none => (((s.closing g l p.2).finishLoop g l).1.rootEntityDone g,
          dropLoopBack g l (out ++ p.2) ++ ((s.closing g l p.2).finishLoop g l).2)
        | some q => entityCompleted g g.loops.length q (dropLoopBack g l (out ++ p.2))
          ((s.closing g l p.2).finishLoop g l).2 1 ((s.closing g l p.2).finishLoop g l).1) = _
      rw [hends]
      rfl
    · change (((s.closing g l p.2).advanceLoop g l stride).1,
        out ++ p.2 ++ ((s.closing g l p.2).advanceLoop g l stride).2) = _
      rw [hgoes]

end RequestState

end Mstar.Walk
