import Mstar.StopRecords

/-!
# A stop ends the run it was observed in

A worker compares a peer's stop with the last stop it recorded, and not with
where its own loop is. As long as news of a loop come in the run they are of,
the recorded stop stands for the worker's place: what is later is of the run
under way, and what is not has ended it.
-/

namespace Mstar.Walk

open Shard (Sym TensorRef)
open CompiledGraph (loopByName_spec)
open RequestState LoopStopTime LoopStopTimes

namespace StopWorld

variable {D : Deployment} {w w' : StopWorld} {b : ℕ} {wg : WgIndex} {l : LoopId}

/-- What holds of the workers and messages in every state. -/
structure Inv (D : Deployment) (w : StopWorld) : Prop where
  sound : ∀ b wg, ((w.workers b).states wg).Sound
  /-- A stop that is sent was observed by a worker. -/
  sent : ∀ e ∈ w.sent, ∀ x ∈ e.2.loopStopTimes, ∃ b, (b, x) ∈ w.observed
  arrived : ∀ e ∈ w.arrived, e ∈ w.sent
  tracks : ∀ b, Tracks D (w.Known b) (w.workers b).loopStopTimes
  caughtUp : ∀ b wg, (w.workers b).Live wg → w.CaughtUp D b wg

/-- A message's stops are stops of their loops. -/
theorem Inv.wellFormed (h : w.Inv D) {m : StopLoops} (hm : (b, m) ∈ w.sent) :
    m.loopStopTimes.WellFormed D := by
  intro x hx
  obtain ⟨b', hb'⟩ := h.sent _ hm x hx
  exact (h.tracks b').stops x (.inl hb')

/-- What a worker accepts is news to it. -/
theorem Inv.news_iff (h : w.Inv D) {m : StopLoops} (hm : (b, m) ∈ w.sent)
    {x : Sym × LoopStopTime} (hx : x ∈ m.loopStopTimes) :
    x.2.laterThan ((w.workers b).loopStopTimes.lookup x.1) x.1 = true ↔ w.News b x :=
  (h.tracks b).later_iff (h.wellFormed hm x hx)

/-- What a worker records was observed by one of them. -/
theorem Inv.observed (h : w.Inv D) {x : Sym × LoopStopTime} (hx : w.Known b x) :
    ∃ b, (b, x) ∈ w.observed := by
  rcases hx with hx | ⟨m, hm, hx⟩
  · exact ⟨b, hx⟩
  · exact h.sent _ (h.arrived _ hm) x hx

/-- The request before anything arrives. -/
theorem inv_start (D : Deployment) : (start D).Inv D := by
  have hnone (b : ℕ) (x : Sym × LoopStopTime) : ¬ (start D).Known b x := by
    rintro (hx | ⟨m, hm, _⟩)
    · exact absurd hx List.not_mem_nil
    · exact absurd hm List.not_mem_nil
  exact {
    sound := fun _ _ => ⟨rfl, fun _ => D.capped _ _ _⟩
    sent := fun _ he => absurd he List.not_mem_nil
    arrived := fun _ he => absurd he List.not_mem_nil
    tracks := fun b => ⟨fun x hx => absurd hx (hnone b x), fun x hx => absurd hx (hnone b x),
      fun _ hx => absurd hx List.not_mem_nil⟩
    caughtUp := fun b _ _ _ _ t ht => absurd ht (hnone b _) }

/-- A worker that stays as it is and learns nothing stays caught up. -/
theorem CaughtUp.of_same (h : w.CaughtUp D b wg) (hworker : w'.workers b = w.workers b)
    (hknown : ∀ x, w'.Known b x ↔ w.Known b x) : w'.CaughtUp D b wg := by
  intro l hl t ht
  rw [hworker]
  exact h l hl t ((hknown _).1 ht)

/-- One worker replaced by one whose states are sound, whose record tracks what
it knows and whose loops are caught up. -/
theorem Inv.of_worker (h : w.Inv D) (wk : StopWorker)
    (hworkers : w'.workers = Function.update w.workers b wk)
    (hothers : ∀ b', b' ≠ b → ∀ x, w'.Known b' x ↔ w.Known b' x)
    (hsent : ∀ e ∈ w'.sent, ∀ x ∈ e.2.loopStopTimes, ∃ b, (b, x) ∈ w'.observed)
    (harrived : ∀ e ∈ w'.arrived, e ∈ w'.sent) (hsound : ∀ wg, (wk.states wg).Sound)
    (htracks : Tracks D (w'.Known b) wk.loopStopTimes)
    (hcaught : ∀ wg, wk.Live wg → w'.CaughtUp D b wg) : w'.Inv D := by
  have hself : w'.workers b = wk := by rw [hworkers, Function.update_self]
  have hother {b' : ℕ} (hb : b' ≠ b) : w'.workers b' = w.workers b' := by
    rw [hworkers, Function.update_of_ne hb]
  refine ⟨fun b' => ?_, hsent, harrived, fun b' => ?_, fun b' => ?_⟩
  · by_cases hb : b' = b
    · rw [hb, hself]
      exact hsound
    · rw [hother hb]
      exact h.sound b'
  · by_cases hb : b' = b
    · rw [hb, hself]
      exact htracks
    · rw [hother hb]
      exact (h.tracks b').congr (hothers b' hb)
  · by_cases hb : b' = b
    · rw [hb, hself]
      exact hcaught
    · rw [hother hb]
      exact fun wg hlive => (h.caughtUp b' wg hlive).of_same (hother hb) (hothers b' hb)

/-- An event on a worker graph. -/
theorem Inv.graph (h : w.Inv D) {op : GraphOp} (he : op.Enabled)
    (hpasses : ((w.workers b).states wg).numTimesRun + 1 < 2 ^ 32) :
    (w.step D (.graph b wg op)).Inv D := by
  obtain ⟨hticks, hsound⟩ := ticks_apply (g := D.graph b wg) (h.sound b wg) he
  refine h.of_worker _ rfl (fun _ _ _ => .rfl) h.sent h.arrived (fun wg' => ?_) (h.tracks b)
    fun wg' hlive l hl t ht => ?_
  · dsimp only
    by_cases heq : wg' = wg
    · subst heq
      rw [Function.update_self]
      exact hsound
    · rw [Function.update_of_ne heq]
      exact h.sound b wg'
  · obtain ⟨hle, hending⟩ := h.caughtUp b wg' hlive l hl t ht
    have hworker : (w.step D (.graph b wg op)).workers b = { w.workers b with
        states := Function.update (w.workers b).states wg (op.apply (D.graph b wg)
          ((w.workers b).states wg)) } := Function.update_self _ _ _
    rw [hworker]
    dsimp only
    by_cases heq : wg' = wg
    · subst heq
      rw [Function.update_self]
      have htick := hticks l hl
      have hmono := htick.le hpasses
      refine ⟨hle.trans hmono, fun hkey => ?_⟩
      have hsame : t.key (D.enclosing ((D.graph b wg').lp l).name) =
          ((w.workers b).states wg').clock (D.graph b wg') l := le_antisymm hle (hkey ▸ hmono)
      exact htick.ending (hkey.symm.trans hsame) (hsame ▸ top_notMem_key _ _) (hending hsame)
    · rw [Function.update_of_ne heq]
      exact ⟨hle, hending⟩

/-- A worker that gets finish signals is caught up with what it knew before,
and with the stops of its runs whose loops it ends. -/
theorem CaughtUp.of_registers (hcaught : w.CaughtUp D b wg) {names : List Sym} {s' : RequestState}
    (hstate : (w'.workers b).states wg = s')
    (hr : Registers (D.graph b wg) names ((w.workers b).states wg) s')
    (hlearned : ∀ l < (D.graph b wg).loops.length, ∀ t,
      w'.Known b (((D.graph b wg).lp l).name, t) → w.Known b (((D.graph b wg).lp l).name, t) ∨
        t.key (D.enclosing ((D.graph b wg).lp l).name) ≤
            ((w.workers b).states wg).clock (D.graph b wg) l ∧
          (t.key (D.enclosing ((D.graph b wg).lp l).name) =
            ((w.workers b).states wg).clock (D.graph b wg) l →
              ((w.workers b).states wg).Ending l ∨ ((D.graph b wg).lp l).name ∈ names)) :
    w'.CaughtUp D b wg := by
  intro l hl t ht
  rw [hstate, hr.clock_eq]
  rcases hlearned l hl t ht with hknown | ⟨hle, hends⟩
  · obtain ⟨hle, hending⟩ := hcaught l hl t hknown
    exact ⟨hle, fun hkey => hr.ending hl (hending hkey)⟩
  · refine ⟨hle, fun hkey => (hends hkey).elim (hr.ending hl) fun hmem => ?_⟩
    exact .inr ((hr.finish l hl).2 (.inr hmem))

/-- What a worker knows of when a message arrived. -/
theorem known_deliver {m : StopLoops} {part : PartitionInfo}
    (hpart : (w.workers b).partitions.lookup m.partition = some part) (b' : ℕ)
    (x : Sym × LoopStopTime) : (w.step D (.deliver b m)).Known b' x ↔
      w.Known b' x ∨ b' = b ∧ x ∈ m.loopStopTimes := by
  have harrived : (w.step D (.deliver b m)).arrived = (b, m) :: w.arrived := by
    unfold step
    dsimp only
    rw [hpart]
    rfl
  unfold Known
  rw [harrived, or_assoc]
  refine or_congr .rfl ⟨?_, ?_⟩
  · rintro ⟨m', hm', hx⟩
    rcases List.mem_cons.1 hm' with heq | hm'
    · obtain ⟨rfl, rfl⟩ := Prod.mk.inj heq
      exact .inr ⟨rfl, hx⟩
    · exact .inl ⟨m', hm', hx⟩
  · rintro (⟨m', hm', hx⟩ | ⟨rfl, hx⟩)
    · exact ⟨m', List.mem_cons_of_mem _ hm', hx⟩
    · exact ⟨m, List.mem_cons_self, hx⟩

/-- A message of a partition that the worker does not have. -/
theorem step_deliver_none {m : StopLoops}
    (hpart : (w.workers b).partitions.lookup m.partition = none) :
    w.step D (.deliver b m) = w := by
  unfold step setWorker StopWorker.applyPeerLoopStops
  dsimp only
  rw [hpart]
  simp

/-- The worker that a message arrives at. -/
theorem workers_deliver (m : StopLoops) :
    (w.step D (.deliver b m)).workers b = (w.workers b).applyPeerLoopStops D b m :=
  Function.update_self _ _ _

/-- A live worker graph. -/
theorem live_of_lookup {wk : StopWorker} {partition : Sym} {part : PartitionInfo}
    (hpart : wk.partitions.lookup partition = some part) (hwg : wg ∈ part.walkWorkerGraphs) :
    wk.Live wg := by
  obtain ⟨before, after, hsplit, _⟩ := List.lookup_eq_some_iff.1 hpart
  exact ⟨(partition, part), hsplit ▸ List.mem_append_right _ List.mem_cons_self, hwg⟩

/-- A message arrives. -/
theorem Inv.deliver (h : w.Inv D) {m : StopLoops} (hm : (b, m) ∈ w.sent)
    (htime : w.ComesInTime D b m) : (w.step D (.deliver b m)).Inv D := by
  cases hpart : (w.workers b).partitions.lookup m.partition with
  | none =>
    rw [step_deliver_none hpart]
    exact h
  | some part =>
    have hwf := h.wellFormed hm
    have hknown := known_deliver (D := D) hpart
    have hreg (wg : WgIndex) := registers_live (D := D) (b := b) (w.workers b) part
      (StopWorker.recordNewer m.loopStopTimes (w.workers b).loopStopTimes).1 wg
    have happly := applyPeerLoopStops_eq D b (w.workers b) m hpart
    refine h.of_worker ((w.workers b).applyPeerLoopStops D b m) rfl (fun b' hb x => ?_) h.sent ?_ ?_
      ?_ ?_
    · rw [hknown, or_iff_left fun hx => hb hx.1]
    · unfold step
      dsimp only
      rw [hpart]
      exact fun e he => (List.mem_cons.1 he).elim (fun heq => heq ▸ hm) (h.arrived e)
    · rw [happly]
      exact fun wg => (hreg wg).sound (h.sound b wg)
    · rw [happly]
      exact ((h.tracks b).recordNewer hwf).congr fun x => by rw [hknown, and_iff_right rfl]
    · rw [happly]
      intro wg hlive
      refine (h.caughtUp b wg hlive).of_registers ?_ (hreg wg) fun l hl t ht => ?_
      · rw [workers_deliver, happly]
      · refine ((hknown _ _).1 ht).imp_right fun hx => ?_
        by_cases hnews : w.News b (((D.graph b wg).lp l).name, t)
        · obtain ⟨⟨part', hpart', hwg⟩, hkey⟩ := htime _ hx.2 hnews wg hlive l hl rfl
          obtain rfl : part = part' := Option.some.inj (hpart.symm.trans hpart')
          refine ⟨le_of_eq hkey, fun _ => .inr ?_⟩
          rw [if_pos hwg]
          exact ((h.tracks b).mem_newer_iff hwf).2 ⟨t, hx.2, (h.news_iff hm hx.2).2 hnews⟩
        · -- a stop as late is known already
          obtain ⟨r, hr, hnot⟩ : ∃ r, w.Known b (((D.graph b wg).lp l).name, r) ∧
              ¬ t.laterThan (some r) ((D.graph b wg).lp l).name = true := by
            by_contra hnone
            exact hnews fun r hr => by_contra fun hnot => hnone ⟨r, hr, hnot⟩
          have hle := (hwf _ hx.2).not_later_iff.1 (Bool.eq_false_iff.2 hnot)
          obtain ⟨hclock, hending⟩ := h.caughtUp b wg hlive l hl r hr
          refine ⟨hle.trans hclock, fun hkey => .inl (hending (le_antisymm hclock ?_))⟩
          exact hkey ▸ hle

/-- What stopping loops after a node ran does on a worker. -/
theorem stopLoopsForRid_eq (D : Deployment) (b : ℕ) (wk : StopWorker) (names : List Sym)
    {partition : Sym} (node : Sym) {part : PartitionInfo}
    (hpart : wk.partitions.lookup partition = some part) :
    wk.stopLoopsForRid D b partition names (some node) =
      { wk with
        states := fun wg => if wg ∈ part.walkWorkerGraphs then
          StopWorker.registerAll (D.graph b wg) names (wk.states wg) else wk.states wg
        loopStopTimes := StopWorker.recordAll (wk.observedStops D b partition names node)
          wk.loopStopTimes } := by
  unfold StopWorker.stopLoopsForRid StopWorker.observedStops
  rw [hpart]
  dsimp only [Option.bind_some]
  cases D.ownerOf b node part.graphWalk with
  | none => rfl
  | some owner =>
    dsimp only
    rw [(registers_live (D := D) (b := b) wk part names owner).stopTimesOf_eq]

/-- A worker stops loops. -/
theorem Inv.stop (h : w.Inv D) {partition node : Sym} {names : List Sym}
    (hone : w.StopsOneRun D b partition node ((w.workers b).wanted D partition names)) :
    (w.step D (.stop b partition node names)).Inv D := by
  change (w.stopLoops D b partition node names).Inv D
  set wanted := (w.workers b).wanted D partition names with hwanted
  unfold stopLoops
  rw [← hwanted]
  dsimp only
  by_cases hnone : wanted = []
  · rw [if_pos hnone]
    exact h
  rw [if_neg hnone]
  obtain ⟨name, hname⟩ := List.exists_mem_of_ne_nil _ hnone
  obtain ⟨part, hpart⟩ : ∃ part, (w.workers b).partitions.lookup partition = some part := by
    have hsome := (List.mem_filter.1 hname).2
    unfold StopWorker.dynLoopWorkers at hsome
    cases hlook : (w.workers b).partitions.lookup partition with
    | none => simp [hlook] at hsome
    | some part => exact ⟨part, rfl⟩
  have hreg (wg : WgIndex) := registers_live (D := D) (b := b) (w.workers b) part wanted wg
  have heq := stopLoopsForRid_eq D b (w.workers b) wanted node hpart
  obtain ⟨hstops, hsingle, hof⟩ := observedStops_spec (D := D) (b := b) (w.workers b) partition node
    wanted
  set observed := (w.workers b).observedStops D b partition wanted node
  set wk := (w.workers b).stopLoopsForRid D b partition wanted (some node)
  set frames := (((wanted.flatMap fun name => (wk.dynLoopWorkers D partition name).getD
    []).dedup.filter (· ≠ b)).map fun peer => (peer, StopLoops.mk partition wk.loopStopTimes))
  set w' : StopWorld := { w.setWorker b wk with
    sent := w.sent ++ frames
    observed := observed.map (b, ·) ++ w.observed }
  have hknown (b' : ℕ) (x : Sym × LoopStopTime) :
      w'.Known b' x ↔ w.Known b' x ∨ b' = b ∧ x ∈ observed := by
    have hmem : (b', x) ∈ observed.map (b, ·) ↔ b' = b ∧ x ∈ observed := by
      rw [List.mem_map]
      constructor
      · rintro ⟨y, hy, hpair⟩
        obtain ⟨rfl, rfl⟩ := Prod.mk.inj hpair
        exact ⟨rfl, hy⟩
      · rintro ⟨rfl, hx⟩
        exact ⟨x, hx, rfl⟩
    change ((b', x) ∈ observed.map (b, ·) ++ w.observed ∨ _) ↔ (_ ∨ _) ∨ _
    rw [List.mem_append, hmem]
    exact ⟨fun hx => hx.elim (fun hx => hx.elim .inr fun hx => .inl (.inl hx))
      fun hx => .inl (.inr hx), fun hx => hx.elim (fun hx => hx.imp_left .inr) fun hx =>
        .inl (.inl hx)⟩
  have htracks : Tracks D (w'.Known b) wk.loopStopTimes := by
    rw [heq]
    refine ((h.tracks b).recordAll hstops (fun x hx => (hone x hx).1) hsingle).congr fun x => ?_
    rw [hknown, and_iff_right rfl]
  have harrived : ∀ e ∈ w'.arrived, e ∈ w'.sent := fun e he =>
    List.mem_append_left _ (h.arrived e he)
  refine h.of_worker wk rfl (fun b' hb x => ?_) (fun e he x hx => ?_) harrived ?_ htracks ?_
  · rw [hknown, or_iff_left fun hx => hb hx.1]
  · have hkeep {x : Sym × LoopStopTime} : (∃ b, (b, x) ∈ w.observed) → ∃ b, (b, x) ∈ w'.observed :=
      fun ⟨b', hb'⟩ => ⟨b', List.mem_append_right _ hb'⟩
    rcases List.mem_append.1 he with he | he
    · exact hkeep (h.sent e he x hx)
    · obtain ⟨peer, _, rfl⟩ := List.mem_map.1 he
      rcases (hknown b x).1 (htracks.mem x hx) with hx | hx
      · exact hkeep (h.observed hx)
      · exact ⟨b, List.mem_append_left _ (List.mem_map.2 ⟨x, hx.2, rfl⟩)⟩
  · rw [heq]
    exact fun wg => (hreg wg).sound (h.sound b wg)
  · intro wg hlive
    rw [heq] at hlive
    have hwk : (w'.workers b).states wg = if wg ∈ part.walkWorkerGraphs then
        StopWorker.registerAll (D.graph b wg) wanted ((w.workers b).states wg)
        else (w.workers b).states wg := by
      change (Function.update w.workers b wk b).states wg = _
      rw [Function.update_self, heq]
    refine (h.caughtUp b wg hlive).of_registers hwk (hreg wg) fun l hl t ht => ?_
    refine ((hknown _ _).1 ht).imp_right fun hx => ?_
    obtain ⟨⟨part', hpart', hwg⟩, hrun⟩ := (hone _ hx.2).2 wg hlive l hl rfl
    obtain rfl : part = part' := Option.some.inj (hpart.symm.trans hpart')
    have hle := hrun.key_le_clock
    rw [D.nested_alike b wg l hl] at hle
    rw [if_pos hwg]
    exact ⟨hle, fun _ => .inr (hof _ hx.2)⟩

/-- A partition goes on to another walk. -/
theorem Inv.setWalk (h : w.Inv D) {partition walk : Sym}
    (hcaught : ∀ wg, ((w.workers b).setWalk D b partition walk).Live wg → w.CaughtUp D b wg) :
    (w.step D (.setWalk b partition walk)).Inv D := by
  refine h.of_worker ((w.workers b).setWalk D b partition walk) rfl (fun _ _ _ => .rfl) h.sent
    h.arrived (h.sound b) (h.tracks b) fun wg hlive l hl t ht => ?_
  have hworker : (w.step D (.setWalk b partition walk)).workers b =
      (w.workers b).setWalk D b partition walk := Function.update_self _ _ _
  rw [hworker]
  exact hcaught wg hlive l hl t ht

/-- A timely step keeps what holds of every state. -/
theorem Inv.step (h : w.Inv D) {op : StopOp} (he : w.Enabled op) (ht : w.Timely D op) :
    (w.step D op).Inv D := by
  cases op with
  | graph b wg op => exact h.graph he ht
  | stop b partition node names => exact h.stop ht
  | deliver b m => exact h.deliver he ht
  | setWalk b partition walk => exact h.setWalk ht

/-- Every reachable world keeps the invariant. -/
theorem Reachable.inv (h : Reachable D (fun w op => w.Timely D op) w) : w.Inv D := by
  induction h with
  | start => exact inv_start D
  | step _ he ht ih => exact ih.step he ht

/-- A delivery changes only finish signals, of loops its message has news of. -/
theorem finish_of_deliver (h : w.Inv D) {m : StopLoops} (hm : (b, m) ∈ w.sent)
    (hl : l < (D.graph b wg).loops.length)
    (hold : (((w.workers b).states wg).loops l).finishSignal = false)
    (hnew : ((((w.step D (.deliver b m)).workers b).states wg).loops l).finishSignal = true) :
    (w.workers b).Live wg ∧ ∃ t, (((D.graph b wg).lp l).name, t) ∈ m.loopStopTimes ∧
      w.News b (((D.graph b wg).lp l).name, t) := by
  rw [workers_deliver] at hnew
  cases hpart : (w.workers b).partitions.lookup m.partition with
  | none =>
    unfold StopWorker.applyPeerLoopStops at hnew
    rw [hpart] at hnew
    exact absurd (hold.symm.trans hnew) (by simp)
  | some part =>
    have hreg := registers_live (D := D) (b := b) (w.workers b) part
      (StopWorker.recordNewer m.loopStopTimes (w.workers b).loopStopTimes).1 wg
    rw [applyPeerLoopStops_eq D b _ m hpart] at hnew
    have hmem := ((hreg.finish l hl).1 hnew).resolve_left (by rw [hold]; simp)
    by_cases hwg : wg ∈ part.walkWorkerGraphs
    · rw [if_pos hwg] at hmem
      obtain ⟨t, ht, hlater⟩ := ((h.tracks b).mem_newer_iff (h.wellFormed hm)).1 hmem
      exact ⟨live_of_lookup hpart hwg, t, ht, (h.news_iff hm ht).1 hlater⟩
    · rw [if_neg hwg] at hmem
      exact absurd hmem List.not_mem_nil

/-- A stop of the run a worker graph is executing ends it. -/
theorem finish_of_current (h : w.Inv D) {m : StopLoops} (hm : (b, m) ∈ w.sent)
    {part : PartitionInfo} (hpart : (w.workers b).partitions.lookup m.partition = some part)
    (hwg : wg ∈ part.walkWorkerGraphs) (hl : l < (D.graph b wg).loops.length) {t : LoopStopTime}
    (ht : (((D.graph b wg).lp l).name, t) ∈ m.loopStopTimes)
    (hrun : SameRun (D.graph b wg) ((w.workers b).states wg) l t)
    (he : Executing (D.graph b wg) ((w.workers b).states wg) l) :
    ((((w.step D (.deliver b m)).workers b).states wg).loops l).finishSignal = true := by
  rw [workers_deliver, applyPeerLoopStops_eq D b _ m hpart]
  have hreg := registers_live (D := D) (b := b) (w.workers b) part
    (StopWorker.recordNewer m.loopStopTimes (w.workers b).loopStopTimes).1 wg
  refine (hreg.finish l hl).2 ?_
  rw [if_pos hwg]
  have hkey := hrun.key_eq_clock hl he
  rw [D.nested_alike b wg l hl] at hkey
  have hwf := h.wellFormed hm
  by_cases hlater : t.laterThan ((w.workers b).loopStopTimes.lookup ((D.graph b wg).lp l).name)
      ((D.graph b wg).lp l).name = true
  · exact .inr (((h.tracks b).mem_newer_iff hwf).2 ⟨t, ht, hlater⟩)
  · -- the record is of this run, which it has ended already
    left
    cases hr : (w.workers b).loopStopTimes.lookup ((D.graph b wg).lp l).name with
    | none =>
      rw [hr] at hlater
      exact absurd rfl hlater
    | some r =>
      rw [hr, Bool.not_eq_true, (hwf _ ht).not_later_iff, hkey] at hlater
      obtain ⟨hle, hending⟩ := h.caughtUp b wg (live_of_lookup hpart hwg) l hl r
        ((h.tracks b).mem _ (mem_of_lookup hr))
      refine (hending (le_antisymm hle hlater)).resolve_left fun hdone => ?_
      have hgoing := he l (by
        rw [CompiledGraph.loopOrder_eq hl]
        exact List.mem_append_right _ (List.mem_singleton.2 rfl))
      rw [hgoing] at hdone
      exact absurd hdone (by simp)

/-- A message that arrived before changes nothing. -/
theorem deliver_again (h : w.Inv D) {m : StopLoops} (hm : (b, m) ∈ w.arrived) :
    (w.step D (.deliver b m)).workers = w.workers := by
  have hnone : StopWorker.recordNewer m.loopStopTimes (w.workers b).loopStopTimes =
      ([], (w.workers b).loopStopTimes) :=
    (h.tracks b).known_again fun x hx => .inr ⟨m, hm, hx⟩
  have hsame : (w.workers b).applyPeerLoopStops D b m = w.workers b := by
    unfold StopWorker.applyPeerLoopStops
    rw [hnone]
    cases (w.workers b).partitions.lookup m.partition <;> rfl
  change Function.update w.workers b ((w.workers b).applyPeerLoopStops D b m) = w.workers
  rw [hsame, Function.update_eq_self]

end StopWorld

/-- One node in a loop of two iterations, fed by what it loops back. -/
def oneLoop : CompiledGraph where
  nodes := [⟨1, [2], ∅, [⟨2, .localNode 0, 1, false, false, false, 0⟩]⟩]
  loops := [⟨6, 2, none, [0], [], [], [(2, 1)], []⟩]
  inputs_nodup := by decide
  parent_lt := by decide
  nested := by
    refine ⟨fun _ => 0, fun l => by simp, fun l p => ?_⟩
    rcases l with _ | l <;> simp [default]
  claimed_once := by
    intro l m n hl hm
    rcases l with _ | l <;> rcases m with _ | m <;> simp [default] at hl hm
    rfl

/-- Two workers that both carry the loop, in each of two walks a worker graph
of its own. -/
def twoWorkers : Deployment where
  graph _ _ := oneLoop
  walkGraphs _ walk := [walk]
  ownerOf _ _ walk := some walk
  dynLoopToWorkers _ _ := some [0, 1]
  partitions _ := [(0, 0)]
  enclosing _ := []
  names_nodup _ _ := by decide
  nested_alike _ _ := by decide
  capped _ _ l := by
    rcases l with _ | l
    · decide
    · exact Nat.zero_le _

/-- The node is fed and runs. -/
def iteration (b : ℕ) (wg : WgIndex) : List StopOp :=
  [.graph b wg (.ingest 0 0 [] true false), .graph b wg (.complete 0 [[]] 1)]

/-- A stop of the first pass, of a loop with nothing around it. -/
def firstPassStop (iter : ℕ) : StopLoops := ⟨0, [(6, ⟨[6], [(6, iter)], 0⟩)]⟩

/-- Worker 0 stops the loop in its last iteration. Worker 1 is through with the
pass before the stop arrives. -/
def delayedStop : List StopOp :=
  iteration 0 0 ++ iteration 1 0 ++ [.stop 0 0 1 [6]] ++ iteration 0 0 ++ iteration 1 0

/-- The loop is stopped in one walk and, at once in the next, again. -/
def twiceStopped : List StopOp :=
  [.stop 0 0 1 [6], .deliver 1 (firstPassStop 0)] ++ iteration 0 0 ++ iteration 1 0 ++
    [.setWalk 0 0 1, .setWalk 1 0 1] ++ iteration 0 1 ++ iteration 1 1 ++ [.stop 0 0 1 [6]]

namespace StopWorld

instance (w : StopWorld) : DecidablePred w.Enabled
  | .graph _ _ op => inferInstanceAs (Decidable op.Enabled)
  | .deliver b m => inferInstanceAs (Decidable ((b, m) ∈ w.sent))
  | .stop .. | .setWalk .. => inferInstanceAs (Decidable True)

/-- A run, as long as each step can happen. -/
def run (D : Deployment) (w : StopWorld) : List StopOp → Option StopWorld
  | [] => some w
  | op :: ops => if w.Enabled op then run D (w.step D op) ops else none

/-- A run leads to reachable worlds. -/
theorem Reachable.run {D : Deployment} {w w' : StopWorld} (h : Reachable D (fun _ _ => True) w)
    {ops : List StopOp} (hrun : w.run D ops = some w') : Reachable D (fun _ _ => True) w' := by
  induction ops generalizing w with
  | nil =>
    obtain rfl := Option.some.inj hrun
    exact h
  | cons op ops ih =>
    unfold StopWorld.run at hrun
    split at hrun
    · next he => exact ih (h.step he trivial) hrun
    · exact absurd hrun (by simp)

/-- In every run in which news of a loop reach a worker in the run they are of,
no pass number wraps around, and no walk starts behind a stop that its worker
knows: a delivery sets a finish signal only for a stop that a worker observed
in the run the worker graph is in; a stop of the run it is executing is never
discarded; an accepted stop is recorded, and a message that comes again changes
nothing; and a run that starts has no finish signal. -/
theorem stop_ends_its_own_run (D : Deployment) (w : StopWorld)
    (h : Reachable D (fun w op => w.Timely D op) w) :
    (∀ b m, w.Enabled (.deliver b m) → w.Timely D (.deliver b m) →
      (∀ wg, ∀ l < (D.graph b wg).loops.length,
        ((((w.workers b).states wg).loops l).finishSignal = false →
          ((((w.step D (.deliver b m)).workers b).states wg).loops l).finishSignal = true →
          ∃ t, (((D.graph b wg).lp l).name, t) ∈ m.loopStopTimes ∧
            (∃ b', (b', ((D.graph b wg).lp l).name, t) ∈ w.observed) ∧
            SameRun (D.graph b wg) ((w.workers b).states wg) l t) ∧
        ∀ part, (w.workers b).partitions.lookup m.partition = some part →
          wg ∈ part.walkWorkerGraphs →
          ∀ t, (((D.graph b wg).lp l).name, t) ∈ m.loopStopTimes →
            SameRun (D.graph b wg) ((w.workers b).states wg) l t →
            Executing (D.graph b wg) ((w.workers b).states wg) l →
            ((((w.step D (.deliver b m)).workers b).states wg).loops l).finishSignal = true) ∧
      ∀ part, (w.workers b).partitions.lookup m.partition = some part →
        ∀ name t, (name, t) ∈ m.loopStopTimes →
          t.laterThan ((w.workers b).loopStopTimes.lookup name) name = true →
          ∃ r, (name, r) ∈ m.loopStopTimes ∧
            ((w.step D (.deliver b m)).workers b).loopStopTimes.lookup name = some r ∧
            t.laterThan (some r) name = false) ∧
    (∀ b m, (b, m) ∈ w.arrived → (w.step D (.deliver b m)).workers = w.workers) ∧
    ∀ b wg op, w.Enabled (.graph b wg op) → ∀ l < (D.graph b wg).loops.length,
      (((w.step D (.graph b wg op)).workers b).states wg).runOf (D.graph b wg) l ≠
          ((w.workers b).states wg).runOf (D.graph b wg) l →
        ((((w.step D (.graph b wg op)).workers b).states wg).loops l).finishSignal = false := by
  have hinv := h.inv
  refine ⟨fun b m hm htime => ⟨fun wg l hl => ⟨fun hold hnew => ?_,
      fun part hpart hwg t ht hrun he => finish_of_current hinv hm hpart hwg hl ht hrun he⟩,
      fun part hpart name t ht hlater => ?_⟩,
    fun b m hm => deliver_again hinv hm, fun b wg op he l hl hrun => ?_⟩
  · obtain ⟨hlive, t, ht, hnews⟩ := finish_of_deliver hinv hm hl hold hnew
    have hkey := (htime _ ht hnews wg hlive l hl rfl).2
    rw [← D.nested_alike b wg l hl] at hkey
    exact ⟨t, ht, hinv.sent _ hm _ ht, sameRun_of_key_eq hkey⟩
  · rw [workers_deliver, applyPeerLoopStops_eq D b _ m hpart]
    exact (hinv.tracks b).accepted (hinv.wellFormed hm) ht hlater
  · have hstate : ((w.step D (.graph b wg op)).workers b).states wg =
        op.apply (D.graph b wg) ((w.workers b).states wg) := by
      change (Function.update w.workers b _ b).states wg = _
      rw [Function.update_self]
      exact Function.update_self _ _ _
    rw [hstate] at hrun ⊢
    exact ((ticks_apply (hinv.sound b wg) he).1 l hl).renewed hrun

/-- A worker runs only the worker graph of the walk. -/
theorem eq_of_live {wk : StopWorker} (hpart : wk.partitions = [(0, ⟨0, [0]⟩)])
    {wg : WgIndex} (h : wk.Live wg) : wg = 0 := by
  obtain ⟨e, he, hwg⟩ := h
  rw [hpart, List.mem_singleton] at he
  subst he
  exact List.mem_singleton.1 hwg

/-- The one loop of the graph. -/
theorem eq_zero_of_lt {l : LoopId} (h : l < oneLoop.loops.length) : l = 0 :=
  Nat.lt_one_iff.1 h

/-- A stop that arrives in its run ends it, and is recorded. When it comes again
in the next pass, it changes nothing. -/
theorem stop_ends_its_own_run_delivered : ∃ w m w', Reachable twoWorkers (fun w op =>
      w.Timely twoWorkers op) w ∧ w.Enabled (.deliver 1 m) ∧
    ((((w.step twoWorkers (.deliver 1 m)).workers 1).states 0).loops 0).finishSignal = true ∧
    Reachable twoWorkers (fun w op => w.Timely twoWorkers op) w' ∧
    ((w'.workers 1).states 0).numTimesRun = 1 ∧ w'.Enabled (.deliver 1 m) ∧
    (w'.step twoWorkers (.deliver 1 m)).workers = w'.workers := by
  set w := (start twoWorkers).step twoWorkers (.stop 0 0 1 [6]) with hw
  set sent := w.step twoWorkers (.deliver 1 (firstPassStop 0)) with hsent
  set fed := sent.step twoWorkers (.graph 1 0 (.ingest 0 0 [] true false)) with hfed
  set later := fed.step twoWorkers (.graph 1 0 (.complete 0 [[]] 1)) with hlater
  have hplace {wk : StopWorker} {wg : WgIndex} {l : LoopId}
      (hpart : wk.partitions = [(0, ⟨0, [0]⟩)]) (hlive : wk.Live wg)
      (hl : l < (twoWorkers.graph 1 wg).loops.length) : wg = 0 ∧ l = 0 :=
    ⟨eq_of_live hpart hlive, eq_zero_of_lt hl⟩
  have hone : (start twoWorkers).StopsOneRun twoWorkers 0 0 1
      (((start twoWorkers).workers 0).wanted twoWorkers 0 [6]) := by
    intro x hx
    obtain rfl := List.mem_singleton.1 hx
    refine ⟨fun t ht => ?_, fun wg hlive l hl _ => ?_⟩
    · rcases ht with ht | ⟨m, hm, _⟩
      · exact absurd ht List.not_mem_nil
      · exact absurd hm List.not_mem_nil
    · obtain ⟨rfl, rfl⟩ := hplace rfl hlive hl
      exact ⟨⟨⟨0, [0]⟩, rfl, List.mem_singleton.2 rfl⟩, rfl, fun m hm => absurd hm List.not_mem_nil⟩
  have hreach : Reachable twoWorkers (fun w op => w.Timely twoWorkers op) w :=
    Reachable.start.step trivial hone
  have htime : w.Timely twoWorkers (.deliver 1 (firstPassStop 0)) := by
    intro x hx _ wg hlive l hl _
    obtain rfl := List.mem_singleton.1 hx
    obtain ⟨rfl, rfl⟩ := hplace rfl hlive hl
    exact ⟨⟨⟨0, [0]⟩, rfl, List.mem_singleton.2 rfl⟩, rfl⟩
  have henabled : w.Enabled (.deliver 1 (firstPassStop 0)) := by decide
  have hpasses : 0 + 1 < 2 ^ 32 := by decide
  have hfirst : Reachable twoWorkers (fun w op => w.Timely twoWorkers op) fed :=
    (hreach.step henabled htime).step trivial hpasses
  have hreach' : Reachable twoWorkers (fun w op => w.Timely twoWorkers op) later :=
    hfirst.step Nat.one_pos hpasses
  refine ⟨w, firstPassStop 0, later, hreach, henabled, ?_, hreach', by decide, by decide, ?_⟩
  · obtain ⟨hdelivered, _⟩ := stop_ends_its_own_run twoWorkers w hreach
    refine ((hdelivered 1 _ henabled htime).1 0 0 (by decide)).2 ⟨0, [0]⟩ rfl
      (List.mem_singleton.2 rfl) ⟨[6], [(6, 0)], 0⟩ (List.mem_singleton.2 rfl)
      ⟨rfl, fun m hm => absurd hm List.not_mem_nil⟩ fun m hm => ?_
    obtain rfl : m = 0 := List.mem_singleton.1 hm
    rfl
  · obtain ⟨_, hagain, _⟩ := stop_ends_its_own_run twoWorkers later hreach'
    exact hagain 1 _ (List.mem_singleton.2 rfl)

/-- A worker takes over a stop of the first pass in the second one, and drops
a stop of the run it is executing for one of another walk. -/
theorem delayed_stop_ends_later_run :
    (∃ w, Reachable twoWorkers (fun _ _ => True) w ∧ w.Enabled (.deliver 1 (firstPassStop 1)) ∧
      (∀ x ∈ (firstPassStop 1).loopStopTimes, ¬ SameRun oneLoop ((w.workers 1).states 0) 0 x.2) ∧
      (((w.workers 1).states 0).loops 0).finishSignal = false ∧
      ((((w.step twoWorkers (.deliver 1 (firstPassStop 1))).workers 1).states 0).loops
        0).finishSignal = true) ∧
    ∃ w, Reachable twoWorkers (fun _ _ => True) w ∧ w.Enabled (.deliver 1 (firstPassStop 1)) ∧
      (w.workers 1).Live 1 ∧ Executing oneLoop ((w.workers 1).states 1) 0 ∧
      (∀ x ∈ (firstPassStop 1).loopStopTimes, SameRun oneLoop ((w.workers 1).states 1) 0 x.2) ∧
      ((((w.step twoWorkers (.deliver 1 (firstPassStop 1))).workers 1).states 1).loops
        0).finishSignal = false := by
  constructor
  · have hrun : ((start twoWorkers).run twoWorkers delayedStop).map (fun w =>
        (decide (w.Enabled (.deliver 1 (firstPassStop 1))), ((w.workers 1).states 0).numTimesRun,
          (((w.workers 1).states 0).loops 0).finishSignal,
          ((((w.step twoWorkers (.deliver 1 (firstPassStop 1))).workers 1).states 0).loops
            0).finishSignal)) = some (true, 1, false, true) := by decide
    obtain ⟨w, hw, hvalues⟩ := Option.map_eq_some_iff.1 hrun
    obtain ⟨hsent, hpass, hold, hnew⟩ : _ ∧ _ ∧ _ ∧ _ := by
      simpa only [Prod.mk.injEq] using hvalues
    refine ⟨w, Reachable.start.run hw, of_decide_eq_true hsent, fun x hx h => ?_, hold, hnew⟩
    obtain rfl := List.mem_singleton.1 hx
    exact absurd (h.1.trans hpass) (by decide)
  · have hrun : ((start twoWorkers).run twoWorkers twiceStopped).map (fun w =>
        (decide (w.Enabled (.deliver 1 (firstPassStop 1))), ((w.workers 1).states 1).numTimesRun,
          (((w.workers 1).states 1).loops 0).done,
          (w.workers 1).partitions.map fun e => e.2.walkWorkerGraphs,
          ((((w.step twoWorkers (.deliver 1 (firstPassStop 1))).workers 1).states 1).loops
            0).finishSignal)) = some (true, 0, false, [[1]], false) := rfl
    obtain ⟨w, hw, hvalues⟩ := Option.map_eq_some_iff.1 hrun
    obtain ⟨hsent, hpass, hdone, hlive, hnew⟩ : _ ∧ _ ∧ _ ∧ _ ∧ _ := by
      simpa only [Prod.mk.injEq] using hvalues
    refine ⟨w, Reachable.start.run hw, of_decide_eq_true hsent, ?_, fun m hm => ?_, fun x hx => ?_,
      hnew⟩
    · obtain ⟨e, he, heq⟩ := List.mem_map.1 (hlive ▸ List.mem_singleton.2 rfl :
        [1] ∈ (w.workers 1).partitions.map fun e => e.2.walkWorkerGraphs)
      exact ⟨e, he, heq ▸ List.mem_singleton.2 rfl⟩
    · obtain rfl : m = 0 := List.mem_singleton.1 hm
      exact hdone
    · obtain rfl := List.mem_singleton.1 hx
      exact ⟨hpass.symm, fun m hm => absurd hm List.not_mem_nil⟩

end StopWorld

end Mstar.Walk
