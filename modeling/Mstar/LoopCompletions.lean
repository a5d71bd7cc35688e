import Mstar.LoopHandover

/-!
# A completion does what it is asked to

One entity's completion, in each of its outcomes: the loop around it waits, or
goes on, or ends and completes in its turn.
-/

namespace Mstar.Walk

open Shard (Sym TensorRef)
open CompiledGraph (lt_length_of_scope mem_around_iff not_below_self)
open LoopNest (Completion pendingOf pendingOf_eq_some over_mark over_turn)

namespace RequestState

variable {g : CompiledGraph} {s s' : RequestState} {a a' : LoopNest} {l : LoopId}
  {p : Production} {saved : LoopId → List (Sym × NodeId × List TensorRef)}

/-- An entity that may complete now: it has not yet, and no loop around it is
over. -/
structure Due (g : CompiledGraph) (s : RequestState) (a : LoopNest) (p : Production)
    (saved : LoopId → List (Sym × NodeId × List TensorRef)) : Prop where
  agrees : Agrees g (pendingOf p.1) s a
  going : s.isDone = false
  has : g.Has p.1
  incomplete : p.1 ∉ a.completedIn (g.scope p.1)
  around : ∀ l, g.scope p.1 = some l → a.Open g (pendingOf p.1) l
  saved : ∀ l, g.scope p.1 = some l → ∀ m, m = l ∨ g.Below l m → (s.loops m).extInputs = saved m

namespace Due

/-- Counted in its loop, it is marked complete. -/
theorem counted (h : Due g s a p saved) (hscope : g.scope p.1 = some l) :
    Agrees g none (s.counted g l p.2) (a.mark g p) :=
  h.agrees.counted h.has h.incomplete hscope (h.around l hscope)

/-- Its loop is not over once it is marked, nor is one around it. -/
theorem opened (h : Due g s a p saved) (hscope : g.scope p.1 = some l) :
    (a.mark g p).Open g none l := by
  intro m hm
  rw [over_mark]
  exact h.around l hscope m hm

/-- The round is over when the count says so. -/
theorem roundOver_iff (hg : g.Checked) (h : Due g s a p saved) (hscope : g.scope p.1 = some l) :
    (a.mark g p).RoundOver g l ↔ ¬ (s.loops l).completedEntities + 1 < g.nEntities l := by
  have hc := h.counted hscope
  rw [LoopNest.roundOver_iff hg (hc.nodup _) fun x hx => (hc.members _ x hx).2,
    ← (hc.run l).count, counted_rest]
  exact Nat.not_lt.symm

/-- The iteration is the last when the code finds it so. -/
theorem finishing_iff (h : Due g s a p saved) (stride : ℕ) :
    finishing (s.loops l) stride = true ↔
      (a.run l).signal = true ∨ a.cap l ≤ (a.run l).iter + stride := by
  rw [← h.agrees.cap]
  refine (h.agrees.run l).finishing_iff ?_
  rw [h.agrees.cap]
  exact h.agrees.capped l

/-- What marking changes of the loop's run. -/
theorem mark_run (a : LoopNest) (hscope : g.scope p.1 = some l) :
    (a.mark g p).run l = { a.run l with round := (a.run l).round ++ [p] } ∧
      (a.mark g p).cap = a.cap := by
  unfold LoopNest.mark
  rw [hscope]
  dsimp only
  rw [Function.update_self]
  exact ⟨rfl, rfl⟩

/-- What is nested in a loop is as it was before the loop's member completed. -/
theorem counted_below (s : RequestState) (own : List RoutedEdge) {d : LoopId} (hb : g.Below d l) :
    (s.counted g l own).loops d = s.loops d ∧ (s.closing g l own).loops d = s.loops d := by
  have hne : d ≠ l := by
    rintro rfl
    exact not_below_self d hb
  rw [counted_loops, closing_loops, if_neg hne, if_neg hne]
  exact ⟨rfl, rfl⟩

/-- The loop waits for more. -/
theorem waits (hg : g.Checked) (h : Due g s a p saved) (hscope : g.scope p.1 = some l)
    (hround : ¬ (a.mark g p).RoundOver g l) (out : List RoutedEdge) (stride : ℕ) :
    Handed g s p (a.mark g p) (out ++ p.2) [] (handOver g s p out stride) := by
  have hmore : (s.loops l).completedEntities + 1 < g.nEntities l := by
    by_contra hmore
    exact hround ((h.roundOver_iff hg hscope).2 hmore)
  rw [handOver_eq hscope, if_pos hmore]
  refine ⟨h.counted hscope, rfl, ?_, fun m hm => absurd hm List.not_mem_nil, fun d hd hnew => ?_⟩
  · have hgoing : (s.counted g l p.2).isDone = s.isDone :=
      congrArg Prod.snd (progress_counted s l p.2)
    have hopen := (h.opened hscope).not_passOver (lt_length_of_scope hscope)
    change (s.counted g l p.2).isDone = true ↔ _
    rw [hgoing, h.going]
    simp [hopen]
  · exact (counted_below s p.2 (hd l hscope)).1.trans hnew

/-- The loop goes on to its next iteration. -/
theorem advances (hg : g.Checked) (h : Due g s a p saved) (hscope : g.scope p.1 = some l)
    (hround : (a.mark g p).RoundOver g l) {stride : ℕ} (hsignal : (a.run l).signal = false)
    (hcap : (a.run l).iter + stride < a.cap l) (out : List RoutedEdge) :
    Handed g s p ((a.mark g p).advance g l stride)
      (out ++ p.2 ++ (saved l).map (reinject g)) [l] (handOver g s p out stride) := by
  have hc := h.counted hscope
  have hopen := h.opened hscope
  obtain ⟨hrun, _⟩ := mark_run a hscope
  have hnot : ¬ finishing (s.loops l) stride = true := by
    rw [h.finishing_iff, hsignal]
    simp
    omega
  have hadd : saturatingAdd ((a.mark g p).run l).iter stride =
      ((a.mark g p).run l).iter + stride := by
    have := h.agrees.capped l
    rw [hrun]
    unfold saturatingAdd
    dsimp only
    omega
  have hnested (d : LoopId) (hb : g.Below d l) :
      ((s.closing g l p.2).advanceLoop g l stride).1.loops d = .new (s.loops d).maxIters := by
    obtain ⟨hcounted, hclosing⟩ := counted_below s p.2 hb
    have hne : d ≠ l := by
      rintro rfl
      exact not_below_self d hb
    have hnew := hc.restarted_eq hround hb
    rw [advanceLoop_loops, if_neg hne, if_pos (mem_around_iff.2 hb), hclosing]
    rwa [hcounted] at hnew
  have hself : ((s.closing g l p.2).advanceLoop g l stride).1.loops l =
      { (s.counted g l p.2).loops l with
        currIter := saturatingAdd ((s.counted g l p.2).loops l).currIter stride
        cached := []
        completedEntities := 0 } := by
    rw [advanceLoop_loops, if_pos rfl, closing_loops, if_pos rfl]
  have hagrees : Agrees g none ((s.closing g l p.2).advanceLoop g l stride).1
      ((a.mark g p).advance g l stride) := by
    refine hc.turn hopen hround rfl (fun m hm => absurd hm (by simp)) (fun hm => absurd hm (by simp))
      ?_ ?_ ?_ (fun d hb => ?_) (fun d hd hb => ?_) ?_
    · rw [hself]
      exact (hc.run l).advance hadd
    · rw [hself]
    · rw [hself]
      change ((s.counted g l p.2).loops l).done = true ↔ _
      rw [hc.isOver]
      have := hopen l (.inl rfl)
      simp [this]
    · rw [hnested d hb, (counted_below s p.2 hb).1]
    · rw [advanceLoop_loops, if_neg hd, if_neg fun hm => hb (mem_around_iff.1 hm), closing_loops,
        if_neg hd, counted_loops, if_neg hd]
    · exact congrArg Prod.fst (((progress_advanceLoop (g := g) _ l stride).trans
        (progress_closing (g := g) s l p.2)).trans (progress_counted s l p.2).symm)
  rw [handOver_eq hscope, if_neg ((h.roundOver_iff hg hscope).1 hround), if_neg hnot,
    h.saved l hscope l (.inl rfl)]
  refine ⟨hagrees, rfl, ?_, fun m hm d hb => ?_, fun d hd _ => hnested d (hd l hscope)⟩
  · have hgoing : ((s.closing g l p.2).advanceLoop g l stride).1.isDone = s.isDone :=
      congrArg Prod.snd ((progress_advanceLoop (g := g) _ l stride).trans
        (progress_closing (g := g) s l p.2))
    have hstill : ((a.mark g p).advance g l stride).Open g none l := by
      intro m hm hover
      rcases (over_turn rfl (fun m hm => absurd hm (by simp)) m).1 hover with ⟨_, hover⟩ | hover
      · exact hopen m hm hover
      · exact absurd hover (by simp)
    have hpass := hstill.not_passOver (lt_length_of_scope hscope)
    change ((s.closing g l p.2).advanceLoop g l stride).1.isDone = true ↔ _
    rw [hgoing, h.going]
    simp [hpass]
  · obtain rfl := List.mem_singleton.1 hm
    exact hnested d hb

/-- The loop ends, and may complete in the loop around it. -/
theorem ends (h : Due g s a p saved) (hscope : g.scope p.1 = some l)
    (hround : (a.mark g p).RoundOver g l) :
    Due g ((s.closing g l p.2).finishLoop g l).1 ((a.mark g p).finish g l)
      (.loop l, (a.mark g p).results g l) saved := by
  have hc := h.counted hscope
  have hopen := h.opened hscope
  have hself : ((s.closing g l p.2).finishLoop g l).1.loops l =
      { (s.counted g l p.2).loops l with
        done := true
        cached := []
        accum := []
        completedEntities := 0 } := by
    rw [finishLoop_loops, if_pos rfl, closing_loops, if_pos rfl]
  have hprogress : ((s.closing g l p.2).finishLoop g l).1.progress = s.progress :=
    (progress_finishLoop (g := g) _ l).trans (progress_closing (g := g) s l p.2)
  have hout (d : LoopId) (hd : d ≠ l) (hb : ¬ g.Below d l) :
      ((s.closing g l p.2).finishLoop g l).1.loops d = s.loops d := by
    rw [finishLoop_loops, if_neg hd, if_neg fun hm => hb (mem_around_iff.1 hm), closing_loops,
      if_neg hd]
  have hpending (m : LoopId) (hm : pendingOf (.loop l) = some m) : m = l :=
    (Entity.loop.inj (pendingOf_eq_some.1 hm)).symm
  constructor
  · refine hc.turn hopen hround rfl hpending (fun _ => rfl) ?_ ?_ ?_ (fun d hb => ?_)
      (fun d hd hb => ?_) ?_
    · rw [hself]
      exact (hc.run l).finish
    · rw [hself]
    · rw [hself]
      simp [pendingOf]
    · have hne : d ≠ l := by
        rintro rfl
        exact not_below_self d hb
      rw [finishLoop_loops, if_neg hne, if_pos (mem_around_iff.2 hb), (counted_below s p.2 hb).2,
        (counted_below s p.2 hb).1]
      rfl
    · rw [hout d hd hb, counted_loops, if_neg hd]
    · exact congrArg Prod.fst (hprogress.trans (progress_counted s l p.2).symm)
  · exact (congrArg Prod.snd hprogress).trans h.going
  · exact lt_length_of_scope hscope
  · intro hmem
    have hover : ((a.mark g p).finish g l).Over g none l := .inl hmem
    rcases (over_turn rfl (fun m hm => absurd hm (by simp)) l).1 hover with ⟨_, hover⟩ | hover
    · exact hopen l (.inl rfl) hover
    · exact absurd hover (by simp)
  · intro q hq m hm hover
    have hup : g.Below l m := by
      rcases hm with rfl | hm
      · exact .single hq
      · exact hm.head hq
    rcases (over_turn rfl hpending m).1 hover with ⟨_, hover⟩ | hover
    · exact hopen m (.inr hup) hover
    · obtain rfl := hpending m hover
      exact not_below_self m hup
  · intro q hq m hm
    have hup : g.Below l m := by
      rcases hm with rfl | hm
      · exact .single hq
      · exact hm.head hq
    have hne : m ≠ l := by
      rintro rfl
      exact not_below_self m hup
    rw [hout m hne fun hb => not_below_self m (hb.trans hup)]
    exact h.saved l hscope m (.inr hup)

end Due

/-- A completion does what it is asked to. -/
theorem handed (hg : g.Checked) {stride : ℕ} {out edges : List RoutedEdge} {turned : List LoopId}
    (hc : Completion g saved a p stride out a' edges turned) (h : Due g s a p saved) :
    Handed g s p a' edges turned (handOver g s p out stride) := by
  induction hc generalizing s with
  | @root a e own out stride hscope =>
    have hroot := handed_root h.agrees h.going h.has h.incomplete hscope out
    have hstep : handOver g s (e, own) out stride = (s.rootEntityDone g, out ++ own) := by
      unfold handOver
      rw [hscope]
    rw [hstep]
    exact hroot
  | waits hscope hround => exact h.waits hg hscope hround _ _
  | advances hscope hround hsignal hcap => exact h.advances hg hscope hround hsignal hcap _
  | @ends a a' e own out edges stride l turned hscope hround hlast _ ih =>
    have hc := h.counted hscope
    have hin := ih (h.ends hscope hround)
    have hresults : loopOutputs g l ((s.counted g l own).loops l) =
        (a.mark g (e, own)).results g l :=
      (hc.run l).loopOutputs_eq (hg.outputs_disjoint l)
    have hbelow (d : LoopId) (hb : g.Below d l) :
        ((s.closing g l own).finishLoop g l).1.loops d = .new (s.loops d).maxIters := by
      have hne : d ≠ l := by
        rintro rfl
        exact not_below_self d hb
      rw [finishLoop_loops, if_neg hne, if_pos (mem_around_iff.2 hb),
        (Due.counted_below s own hb).2]
      rfl
    have hcaps (d : LoopId) : (((s.closing g l own).finishLoop g l).1.loops d).maxIters =
        (s.loops d).maxIters := by
      rw [← (h.agrees.cap d).symm, (h.ends hscope hround).agrees.cap]
      exact congrFun (Due.mark_run a hscope).2 d
    rw [handOver_eq hscope, if_neg ((h.roundOver_iff hg hscope).1 hround),
      if_pos ((h.finishing_iff stride).2 hlast), hresults]
    have hnew (d : LoopId) (hb : g.Below d l) : (handOver g ((s.closing g l own).finishLoop g l).1
        (.loop l, (a.mark g (e, own)).results g l) (dropLoopBack g l (out ++ own)) 1).1.loops d =
          .new (s.loops d).maxIters := by
      rw [hin.keeps d (fun q hq => hb.tail hq) (by rw [hbelow d hb]; rfl), hcaps]
    refine ⟨hin.agrees, hin.edges, hin.done, fun m hm d hb => ?_, fun d hd _ => hnew d (hd l hscope)⟩
    rcases List.mem_cons.1 hm with rfl | hm
    · exact hnew d hb
    · rw [hin.fresh m hm d hb, hcaps]

end RequestState

end Mstar.Walk
