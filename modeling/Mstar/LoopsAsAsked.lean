import Mstar.LoopCompletions

/-!
# Loops run as they are asked to

In every walk in which each entity completes once an iteration, the counters
and caches of the code agree with the loops asked for, and every completion
routes the edges and turns the loops it is asked to.
-/

namespace Mstar.Walk

open Shard (Sym TensorRef)
open CompiledGraph (lt_length_of_scope mem_enclosing_iff)
open LoopNest (Completion InStep pendingOf)

namespace RequestState

variable {g : CompiledGraph} {s s' : RequestState} {a a' : LoopNest} {l : LoopId}

/-- Every entity's completion is asked for some outcome. -/
theorem exists_completion (g : CompiledGraph)
    (saved : LoopId → List (Sym × NodeId × List TensorRef)) (a : LoopNest) (p : Production)
    (stride : ℕ) (out : List RoutedEdge) :
    ∃ a' edges turned, Completion g saved a p stride out a' edges turned := by
  obtain ⟨height, hlt, hup⟩ := g.nested
  have hdeep : ∀ k a p stride out, (∀ l, g.scope p.1 = some l → g.loops.length ≤ height l + k) →
      ∃ a' edges turned, Completion g saved a p stride out a' edges turned := by
    intro k
    induction k with
    | zero =>
      intro a p stride out hk
      cases hscope : g.scope p.1 with
      | none => exact ⟨_, _, _, .root hscope⟩
      | some l =>
        have hl := (hlt l).resolve_right (Nat.not_le.2 (lt_length_of_scope hscope))
        have := hk l hscope
        omega
    | succ k ih =>
      intro a p stride out hk
      cases hscope : g.scope p.1 with
      | none => exact ⟨_, _, _, .root hscope⟩
      | some l =>
        by_cases hround : (a.mark g p).RoundOver g l
        · by_cases hlast : (a.run l).signal = true ∨ a.cap l ≤ (a.run l).iter + stride
          · obtain ⟨a', edges, turned, hparent⟩ := ih ((a.mark g p).finish g l)
              (.loop l, (a.mark g p).results g l) 1 (dropLoopBack g l (out ++ p.2)) (by
                intro q hq
                have := hk l hscope
                have := hup l q hq
                omega)
            exact ⟨a', edges, _, .ends hscope hround hlast hparent⟩
          · obtain ⟨hsignal, hcap⟩ := not_or.1 hlast
            exact ⟨_, _, _, .advances hscope hround (Bool.eq_false_iff.2 hsignal)
              (Nat.not_le.1 hcap)⟩
        · exact ⟨_, _, _, .waits hscope hround⟩
  exact hdeep g.loops.length a p stride out fun l _ => by omega

/-- A walk with the same loops agrees as well. -/
theorem Agrees.of_loops {pending : Option LoopId} (h : Agrees g pending s a)
    (hloops : s'.loops = s.loops) (hroots : s'.rootCompleted = s.rootCompleted) :
    Agrees g pending s' a where
  run := by rw [hloops]; exact h.run
  cap := by rw [hloops]; exact h.cap
  capped := h.capped
  isOver := by rw [hloops]; exact h.isOver
  roots := hroots.trans h.roots
  nodup := h.nodup
  members := h.members
  quiet := h.quiet

/-- A node that may complete is due, once it is marked completed. -/
theorem due_node {n : NodeId} (h : Agrees g none s a) (hgoing : s.isDone = false)
    (hn : a.MayComplete g n) (own : List RoutedEdge) :
    Due g (s.markCompleted g n).2 a (.node n, own) fun l => (s.loops l).extInputs := by
  have hprogress : (s.markCompleted g n).2.progress = s.progress := by
    unfold markCompleted
    cases g.loopId n <;> rfl
  have hloops := (markCompleted_loops (g := g) s n).1
  constructor
  · exact h.of_loops hloops (congrArg Prod.fst hprogress)
  · exact (congrArg Prod.snd hprogress).trans hgoing
  · exact hn.1
  · exact hn.2 (.node n) List.mem_cons_self
  · intro l hl m hm hover
    have hmem : Entity.loop m ∈ g.entitiesAround n :=
      List.mem_cons_of_mem _ (List.mem_map_of_mem (mem_enclosing_iff.2 ⟨_, hl, hm.imp_left Eq.symm⟩))
    exact hn.2 (.loop m) hmem (hover.resolve_right (by simp [pendingOf]))
  · intro l _ m _
    rw [hloops]

/-- A completed node is handed to the loop around it. -/
theorem cascade_eq (s : RequestState) (n : NodeId) (own : List RoutedEdge) (stride : ℕ) :
    s.cascade g n own stride = handOver g s (.node n, own) [] stride := by
  have hscope : g.scope (.node n) = g.loopId n := rfl
  unfold cascade handOver
  rw [hscope]
  cases g.loopId n with
  | none => rfl
  | some l => rfl

/-- What a completion returns is its cascade's. -/
theorem completeStrided_cascade (s : RequestState) (n : NodeId) (outTensors : List (List TensorRef))
    (stride : ℕ) :
    let c := s.completeStrided g n outTensors stride
    let r := (s.markCompleted g n).2.cascade g n (nodeOutputs g n outTensors) stride
    c.1.edges = r.2 ∧ c.2.loops = r.1.loops ∧ c.2.progress = r.1.progress := by
  unfold completeStrided
  dsimp only
  split <;> exact ⟨rfl, rfl, rfl⟩

/-- The pass after a completion agrees, too: a worker graph that is done is reset. -/
theorem Agrees.settled (h : Agrees g none s a) (hdone : s.isDone = true ↔ a.PassOver g) :
    Agrees g none (if s.isDone then s.reset g else s) (a.settled g) ∧
      (if s.isDone then s.reset g else s).isDone = false := by
  by_cases hd : s.isDone = true
  · have hover {k : Option LoopId} :
        ({ a with run := fun _ => .fresh, roots := [] } : LoopNest).completedIn k = [] := by
      cases k <;> rfl
    unfold LoopNest.settled
    rw [if_pos hd, if_pos (hdone.1 hd)]
    refine ⟨⟨fun l => Matches.fresh l _, h.cap, h.capped, fun l => ?_, rfl, fun k => ?_, ?_, ?_⟩, rfl⟩
    · unfold LoopNest.Over
      rw [hover]
      simp [RequestState.reset, LoopState.new]
    · rw [hover]
      exact List.nodup_nil
    · intro k x hx
      rw [hover] at hx
      exact absurd hx List.not_mem_nil
    · exact fun _ _ _ _ => ⟨rfl, rfl⟩
  · unfold LoopNest.settled
    rw [if_neg hd, if_neg fun hp => hd (hdone.2 hp)]
    exact ⟨h, Bool.eq_false_iff.2 hd⟩

/-- An event that moves no loop's run: caps and saved inputs at most. -/
structure Steady (s s' : RequestState) : Prop where
  loops : ∀ d, s'.loops d = { s.loops d with
    maxIters := (s'.loops d).maxIters
    extInputs := (s'.loops d).extInputs
    extNames := (s'.loops d).extNames }
  progress : s'.progress = s.progress

/-- Nothing done is steady. -/
theorem Steady.refl (s : RequestState) : Steady s s := ⟨fun _ => rfl, rfl⟩

/-- So are two steady steps. -/
theorem Steady.trans {s'' : RequestState} (h : Steady s s') (h' : Steady s' s'') : Steady s s'' :=
  ⟨fun d => by rw [h'.loops, h.loops], h'.progress.trans h.progress⟩

/-- And one that leaves the loops and the count. -/
theorem Steady.of_loops (hloops : s'.loops = s.loops) (hprogress : s'.progress = s.progress) :
    Steady s s' := ⟨fun d => by rw [hloops], hprogress⟩

/-- And one that changes a loop's caps alone. -/
theorem steady_setLoop (s : RequestState) (l : LoopId) {st : LoopState}
    (h : st = { s.loops l with
      maxIters := st.maxIters
      extInputs := st.extInputs
      extNames := st.extNames }) : Steady s (s.setLoop l st) := by
  refine ⟨fun d => ?_, rfl⟩
  by_cases hd : d = l
  · subst hd
    rw [setLoop_loops_self]
    exact h
  · rw [setLoop_loops_of_ne _ hd]

/-- Where a walk holds steady its loops agree, with its caps. -/
theorem Agrees.steady (h : Agrees g none s a) (hs : Steady s s')
    (hcapped : ∀ d, (s'.loops d).maxIters ≤ 4294967295) :
    Agrees g none s' { a with cap := fun d => (s'.loops d).maxIters } := by
  refine ⟨fun d => ?_, fun _ => rfl, hcapped, fun d => ?_, ?_, h.nodup, h.members, h.quiet⟩
  · have hr := h.run d
    rw [hs.loops]
    exact ⟨hr.iter, hr.signal, hr.count, hr.cached, hr.accum, hr.uncached, hr.unaccumulated⟩
  · rw [hs.loops]
    exact h.isOver d
  · exact (congrArg Prod.fst hs.progress).trans h.roots

/-- An ingested input is saved at most. -/
theorem steady_ingest {node : NodeId} {slot : ℕ} {t : List TensorRef} {canBuffer fin : Bool}
    (h : s.ingest g node slot t canBuffer fin = some s') :
    Steady s s' ∧ s'.passAndCaps = s.passAndCaps := by
  unfold ingest at h
  cases hland : land (s.nodes node) slot t canBuffer fin with
  | none =>
    rw [hland] at h
    exact absurd h (by simp)
  | some st =>
    rw [hland] at h
    obtain rfl := Option.some.inj h
    have hrecord (s : RequestState) (name : Sym) :
        Steady s ((g.enclosing node).foldl (recordAt g node name t) s) ∧
          ((g.enclosing node).foldl (recordAt g node name t) s).passAndCaps = s.passAndCaps := by
      constructor
      · refine foldl_related Steady.refl Steady.trans (fun s l _ => ?_) s
        unfold recordAt
        dsimp only
        split
        · exact steady_setLoop s l (by rfl)
        · exact .refl s
      · refine foldl_same passAndCaps (fun s l _ => ?_) s
        unfold recordAt
        dsimp only
        split
        · exact passAndCaps_setLoop s l (by rfl)
        · rfl
    have hexternal (s : RequestState) (name : Sym) : Steady s (s.recordExternal g node name t) ∧
        (s.recordExternal g node name t).passAndCaps = s.passAndCaps := by
      unfold recordExternal
      split
      · split
        · exact ⟨.refl s, rfl⟩
        · exact hrecord s name
      · exact hrecord s name
    have hset : Steady s (s.setNode node st) := .of_loops rfl rfl
    have hin := hexternal (s.setNode node st) ((g.node node).inputs.getD slot 0)
    exact ⟨(hset.trans hin.1).trans (.of_loops rfl rfl), hin.2⟩

/-- Speculation touches no loop. -/
theorem speculation_loops (s : RequestState) (source : NodeId) (edges : List RoutedEdge) :
    (s.ingestForSpeculation g source edges).2.loops = s.loops ∧
      (s.ingestForSpeculation g source edges).2.progress = s.progress := by
  have hone (s : RequestState) (e : RoutedEdge) :
      (speculate g s e).loops = s.loops ∧ (speculate g s e).progress = s.progress := by
    unfold speculate
    split
    · split
      · exact ⟨rfl, rfl⟩
      · exact ⟨rfl, rfl⟩
    · exact ⟨rfl, rfl⟩
  constructor
  · exact foldl_same (fun s : RequestState => s.loops) (fun s e _ => (hone s e).1) s
  · exact foldl_same progress (fun s e _ => (hone s e).2) s

/-- An event that completes nothing keeps the agreement. -/
theorem Agrees.follow (h : Agrees g none s a) {op : GraphOp} (he : op.Enabled)
    (hop : ∀ n outTensors stride, op ≠ .complete n outTensors stride) :
    Agrees g none (op.apply g s) (a.follow op) ∧ (op.apply g s).isDone = s.isDone := by
  have hsame {s' : RequestState} (hs : Steady s s') (hcaps : ∀ d, (s'.loops d).maxIters =
      (s.loops d).maxIters) : Agrees g none s' a ∧ s'.isDone = s.isDone := by
    have hcap : (fun d => (s'.loops d).maxIters) = a.cap :=
      funext fun d => (hcaps d).trans (h.cap d)
    have hagrees := h.steady hs fun d => by
      rw [hcaps, h.cap]
      exact h.capped d
    rw [hcap] at hagrees
    exact ⟨hagrees, congrArg Prod.snd hs.progress⟩
  have hnodes {s' : RequestState} (hloops : s'.loops = s.loops) (hprogress : s'.progress = s.progress) :
      Agrees g none s' a ∧ s'.isDone = s.isDone :=
    hsame (.of_loops hloops hprogress) fun d => by rw [hloops]
  have hmoved (l : LoopId) (cap : ℕ) (hle : cap ≤ 4294967295) :
      Agrees g none (s.setLoop l { s.loops l with maxIters := cap })
        { a with cap := Function.update a.cap l cap } := by
    have hcap (d : LoopId) : ((s.setLoop l { s.loops l with maxIters := cap }).loops d).maxIters =
        Function.update a.cap l cap d := by
      by_cases hd : d = l
      · subst hd
        rw [setLoop_loops_self, Function.update_self]
      · rw [setLoop_loops_of_ne _ hd, Function.update_of_ne hd]
        exact h.cap d
    have hsteady : Steady s (s.setLoop l { s.loops l with maxIters := cap }) :=
      steady_setLoop s l (by rfl)
    have hagrees := h.steady hsteady fun d => by
      rw [hcap]
      by_cases hd : d = l
      · subst hd
        rw [Function.update_self]
        exact hle
      · rw [Function.update_of_ne hd]
        exact h.capped d
    rwa [funext hcap] at hagrees
  cases op with
  | complete n outTensors stride => exact absurd rfl (hop n outTensors stride)
  | ingest node slot t canBuffer fin =>
    unfold GraphOp.apply
    dsimp only
    cases hin : s.ingest g node slot t canBuffer fin with
    | none => exact ⟨h, rfl⟩
    | some s' =>
      have hsteady := steady_ingest hin
      exact hsame hsteady.1 fun d => congrFun (congrArg Prod.snd hsteady.2) d
  | capLoop l cap =>
    have hmin : min (s.loops l).maxIters cap ≤ 4294967295 := by
      have := h.capped l
      rw [h.cap]
      omega
    have hfollow : a.follow (.capLoop l cap) =
        { a with cap := Function.update a.cap l (min (s.loops l).maxIters cap) } := by
      unfold LoopNest.follow
      rw [h.cap]
    rw [hfollow]
    exact ⟨hmoved l _ hmin, rfl⟩
  | setLoopCap l cap => exact ⟨hmoved l cap he, rfl⟩
  | speculate source edges =>
    exact hnodes (speculation_loops s source edges).1 (speculation_loops s source edges).2
  | clearSpeculative =>
    refine hnodes ?_ ?_
    · exact foldl_same (f := fun s n => s.setNode n { s.nodes n with spec := .new })
        (fun s : RequestState => s.loops) (fun _ _ _ => rfl) s
    · exact foldl_same (f := fun s n => s.setNode n { s.nodes n with spec := .new }) progress
        (fun _ _ _ => rfl) s
  | clearConsumed node => exact hnodes rfl rfl
  | takeForSchedule node => exact hnodes rfl rfl
  | pushBack node => exact hnodes rfl rfl
  | setInFlight node on => exact hnodes rfl rfl

/-- A finish signal keeps the agreement. -/
theorem Agrees.ask (h : Agrees g none s a) (l : LoopId) :
    Agrees g none (s.registerLoopFinish l) (a.ask l) := by
  have hin (k : Option LoopId) : (a.ask l).completedIn k = a.completedIn k := by
    unfold LoopNest.ask LoopNest.completedIn
    cases k with
    | none => rfl
    | some m =>
      by_cases hm : m = l
      · subst hm
        simp
      · simp [hm]
  have hover (m : LoopId) : (a.ask l).Over g none m ↔ a.Over g none m := by
    unfold LoopNest.Over
    rw [hin]
  have hloops (d : LoopId) : (s.registerLoopFinish l).loops d =
      if d = l then { s.loops l with finishSignal := true } else s.loops d := by
    unfold registerLoopFinish
    by_cases hd : d = l
    · subst hd
      rw [setLoop_loops_self, if_pos rfl]
    · rw [setLoop_loops_of_ne _ hd, if_neg hd]
  have hrun (d : LoopId) : (a.ask l).run d =
      if d = l then { a.run l with signal := true } else a.run d := by
    unfold LoopNest.ask
    by_cases hd : d = l
    · subst hd
      simp
    · simp [hd]
  constructor
  · intro d
    rw [hloops, hrun]
    split
    · next hd =>
      subst hd
      have hr := h.run d
      exact ⟨hr.iter, rfl, hr.count, hr.cached, hr.accum, hr.uncached, hr.unaccumulated⟩
    · exact h.run d
  · intro d
    rw [hloops]
    split
    · next hd => subst hd; exact h.cap d
    · exact h.cap d
  · exact h.capped
  · intro d
    rw [hover, hloops]
    split
    · next hd => subst hd; exact h.isOver d
    · exact h.isOver d
  · exact h.roots
  · intro k
    rw [hin]
    exact h.nodup k
  · intro k x hx
    rw [hin] at hx
    exact h.members k x hx
  · intro m hm d hd
    rw [hover] at hm
    have hq := h.quiet m hm d hd
    rw [hrun]
    split
    · next hd => subst hd; exact hq
    · exact hq

/-- A new walk agrees. -/
theorem Agrees.new (hg : g.Checked) : Agrees g none (.new g) (.new g) := by
  have hin (k : Option LoopId) : (LoopNest.new g).completedIn k = [] := by
    cases k <;> rfl
  refine ⟨fun l => Matches.fresh l _, fun _ => rfl, hg.max_iters, fun l => ?_, rfl, fun k => ?_, ?_, ?_⟩
  · unfold LoopNest.Over
    rw [hin]
    simp [RequestState.new, LoopState.new]
  · rw [hin]
    exact List.nodup_nil
  · intro k x hx
    rw [hin] at hx
    exact absurd hx List.not_mem_nil
  · exact fun _ _ _ _ => ⟨rfl, rfl⟩

/-- A node completes: the walk does what it is asked to. -/
theorem completes_as_asked (hg : g.Checked) (h : Agrees g none s a) (hgoing : s.isDone = false)
    {n : NodeId} (hn : a.MayComplete g n) (outTensors : List (List TensorRef)) {stride : ℕ}
    {edges : List RoutedEdge} {turned : List LoopId}
    (hc : Completion g (fun l => (s.loops l).extInputs) a
      (.node n, nodeOutputs g n outTensors) stride [] a' edges turned) :
    (s.completeStrided g n outTensors stride).1.edges = edges ∧
      Agrees g none (s.completeStrided g n outTensors stride).2 a' ∧
      ((s.completeStrided g n outTensors stride).2.isDone = true ↔ a'.PassOver g) ∧
      ∀ l ∈ turned, ∀ d, g.Below d l →
        (s.completeStrided g n outTensors stride).2.loops d = .new (s.loops d).maxIters := by
  have hhanded := handed hg hc (due_node h hgoing hn _)
  rw [← cascade_eq] at hhanded
  obtain ⟨hedges, hloops, hprogress⟩ := completeStrided_cascade (g := g) s n outTensors stride
  refine ⟨hedges.trans hhanded.edges, hhanded.agrees.of_loops hloops (congrArg Prod.fst hprogress),
    ?_, fun l hl d hd => ?_⟩
  · rw [← hhanded.done]
    exact Bool.eq_iff_iff.1 (congrArg Prod.snd hprogress)
  · rw [hloops, hhanded.fresh l hl d hd, (markCompleted_loops (g := g) s n).1]

/-- Walks in step agree, and are not done between events. -/
theorem agrees_of_inStep (hg : g.Checked) (h : InStep g s a) :
    Agrees g none s a ∧ s.isDone = false := by
  induction h with
  | new => exact ⟨.new hg, rfl⟩
  | other _ he hop ih =>
    have hf := ih.1.follow he hop
    exact ⟨hf.1, hf.2.trans ih.2⟩
  | signal _ l ih => exact ⟨ih.1.ask l, ih.2⟩
  | complete _ hn hc ih =>
    have hdid := completes_as_asked hg ih.1 ih.2 hn _ hc
    exact hdid.2.1.settled hdid.2.2.1

/-- Loops run exactly as many iterations as asked. In every walk in which each
entity completes once an iteration, the loops agree with those asked for, and
the next completion routes the edges they ask for and turns the loops they
ask for: whatever is nested in one of these starts over as new, and the worker
graph is done when each root entity has completed. -/
theorem loops_run_as_asked (hg : g.Checked) (h : InStep g s a) {n : NodeId}
    (hn : a.MayComplete g n) (outTensors : List (List TensorRef)) (stride : ℕ) :
    Agrees g none s a ∧ ∃ a' turned,
      Completion g (fun l => (s.loops l).extInputs) a (.node n, nodeOutputs g n outTensors) stride []
        a' (s.completeStrided g n outTensors stride).1.edges turned ∧
      Agrees g none (s.completeStrided g n outTensors stride).2 a' ∧
      ((s.completeStrided g n outTensors stride).2.isDone = true ↔ a'.PassOver g) ∧
      ∀ l ∈ turned, ∀ d, g.Below d l →
        (s.completeStrided g n outTensors stride).2.loops d = .new (s.loops d).maxIters := by
  obtain ⟨hagrees, hgoing⟩ := agrees_of_inStep hg h
  obtain ⟨a', edges, turned, hc⟩ := exists_completion g (fun l => (s.loops l).extInputs) a
    (.node n, nodeOutputs g n outTensors) stride []
  obtain ⟨hedges, hdid⟩ := completes_as_asked hg hagrees hgoing hn outTensors hc
  exact ⟨hagrees, a', turned, hedges ▸ hc, hdid⟩

end RequestState

/-- A loop of three iterations around one of two, around one node. -/
def nestedLoops : CompiledGraph where
  nodes := [⟨0, [2], ∅, [⟨2, .localNode 0, 0, false, false, false, 0⟩]⟩]
  loops := [⟨4, 3, none, [], [⟨2, .emitToClient, 7, false, false, false, 0⟩], [], [(2, 0)], []⟩,
    ⟨5, 2, some 0, [0], [⟨2, .localNode 0, 0, false, false, false, 0⟩], [], [(2, 0)], []⟩]
  inputs_nodup := by decide
  parent_lt := by decide
  nested := by
    refine ⟨fun l => if l = 1 then 0 else 1, fun l => .inl ?_, fun l p => ?_⟩
    · dsimp only
      split <;> decide
    · rcases l with _ | _ | l <;> simp [default]
      rintro rfl
      decide
  claimed_once := by
    intro l m n hl hm
    rcases l with _ | _ | l <;> rcases m with _ | _ | m <;> simp [default] at hl hm
    rfl

namespace RequestState

/-- The nested loops are checked. -/
theorem nestedLoops_checked : nestedLoops.Checked := by
  constructor
  · intro l
    rcases l with _ | _ | l
    · decide
    · decide
    · exact List.nodup_nil
  · intro l
    rcases l with _ | _ | l
    · decide
    · decide
    · exact fun name hname => absurd hname List.not_mem_nil
  · intro l
    rcases l with _ | _ | l
    · decide
    · decide
    · exact Nat.zero_le _

/-- A node of the nested loops completes. -/
theorem loops_run_as_asked_nested : ∃ a' turned,
    Completion nestedLoops (fun _ => []) (.new nestedLoops)
      (.node 0, nodeOutputs nestedLoops 0 [[]]) 1 [] a'
      ((new nestedLoops).completeStrided nestedLoops 0 [[]] 1).1.edges turned ∧
    Agrees nestedLoops none ((new nestedLoops).completeStrided nestedLoops 0 [[]] 1).2 a' := by
  have hn : (LoopNest.new nestedLoops).MayComplete nestedLoops 0 := by decide
  have hrun := loops_run_as_asked nestedLoops_checked .new hn [[]] 1
  obtain ⟨_, a', turned, hc, hagrees, _⟩ := hrun
  exact ⟨a', turned, hc, hagrees⟩

end RequestState

end Mstar.Walk
