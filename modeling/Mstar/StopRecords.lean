import Mstar.StopWorld

/-!
# What a worker records of stops

A worker's record of a loop's stops only moves on. A message's stops that are
later than the record are taken over and stop their loops; every other stop
is dropped.
-/

namespace Mstar.Walk

open Shard (Sym TensorRef)
open CompiledGraph (loopByName_spec)
open RequestState LoopStopTime

/-- A name finds its loop. -/
theorem loopByName_name {g : CompiledGraph} (hnames : (g.loops.map LoopSpec.name).Nodup)
    {l : LoopId} (hl : l < g.loops.length) : g.loopByName (g.lp l).name = some l := by
  cases h : g.loopByName (g.lp l).name with
  | none =>
    unfold CompiledGraph.loopByName at h
    have hne := List.find?_eq_none.1 h l (List.mem_reverse.2 (List.mem_range.2 hl))
    exact absurd (decide_eq_true rfl) hne
  | some m =>
    obtain ⟨hm, hname⟩ := loopByName_spec h
    rw [eq_of_name_eq hnames hm hl hname]

namespace LoopStopTimes

variable {times : LoopStopTimes} {name other : Sym} {t : LoopStopTime}

/-- The time recorded for a loop. -/
theorem lookup_insert_self (times : LoopStopTimes) (name : Sym) (t : LoopStopTime) :
    (times.insert name t).lookup name = some t := by
  unfold insert
  rw [List.lookup_cons, beq_self_eq_true]

/-- And those of others. -/
theorem lookup_insert_of_ne (h : other ≠ name) :
    (times.insert name t).lookup other = times.lookup other := by
  unfold insert
  rw [List.lookup_cons, beq_false_of_ne h]
  dsimp only
  induction times with
  | nil => rfl
  | cons e times ih =>
    rw [List.lookup_cons, List.filter_cons]
    by_cases he : e.1 = name
    · have hne : (other == e.1) = false := beq_false_of_ne (he ▸ h)
      rw [if_neg (by simpa using he), hne]
      exact ih
    · rw [if_pos (by simpa using he), List.lookup_cons, ih]

/-- A time looked up is recorded. -/
theorem mem_of_lookup (h : times.lookup name = some t) : (name, t) ∈ times := by
  obtain ⟨before, after, hsplit, _⟩ := List.lookup_eq_some_iff.1 h
  rw [hsplit]
  exact List.mem_append_right _ List.mem_cons_self

/-- A stop time is one of the loop it is named for. -/
def StopOf (D : Deployment) (x : Sym × LoopStopTime) : Prop :=
  x.2.loopNameOrder = D.enclosing x.1 ++ [x.1] ∧ x.1 ∉ D.enclosing x.1

/-- Every entry is a stop of its loop. -/
def WellFormed (D : Deployment) (times : LoopStopTimes) : Prop := ∀ x ∈ times, StopOf D x

variable {D : Deployment} {t' : LoopStopTime}

/-- Being later is the order of the runs. -/
theorem StopOf.laterThan_iff (h : StopOf D (name, t)) : t.laterThan (some t') name = true ↔
    t'.key (D.enclosing name) < t.key (D.enclosing name) :=
  LoopStopTime.laterThan_iff h.1 h.2

/-- So is not being later. -/
theorem StopOf.not_later_iff (h : StopOf D (name, t)) : t.laterThan (some t') name = false ↔
    t.key (D.enclosing name) ≤ t'.key (D.enclosing name) := by
  rw [Bool.eq_false_iff, Ne, h.laterThan_iff, not_lt]

/-- A record has, of each loop, one of the stops that are known of it, and no
other is later. -/
structure Tracks (D : Deployment) (known : Sym × LoopStopTime → Prop) (times : LoopStopTimes) :
    Prop where
  stops : ∀ x, known x → StopOf D x
  upTo : ∀ x, known x → x.2.laterThan (times.lookup x.1) x.1 = false
  mem : ∀ x ∈ times, known x

namespace Tracks

variable {known : Sym × LoopStopTime → Prop}

/-- A stop that a record is compared with is known, and as late as all. -/
theorem recorded (h : Tracks D known times) (hx : known (name, t)) : ∃ r, known (name, r) ∧
    times.lookup name = some r ∧ t.key (D.enclosing name) ≤ r.key (D.enclosing name) := by
  have hupTo := h.upTo _ hx
  cases hr : times.lookup name with
  | none =>
    rw [hr] at hupTo
    exact absurd hupTo (by simp [laterThan])
  | some r =>
    rw [hr] at hupTo
    exact ⟨r, h.mem _ (mem_of_lookup hr), rfl, (h.stops _ hx).not_later_iff.1 hupTo⟩

/-- What is later than the record is later than all that is known. -/
theorem later_iff (h : Tracks D known times) (ht : StopOf D (name, t)) :
    t.laterThan (times.lookup name) name = true ↔
      ∀ t', known (name, t') → t.laterThan (some t') name = true := by
  constructor
  · intro hlater t' ht'
    obtain ⟨r, _, hr, hle⟩ := h.recorded ht'
    rw [hr, ht.laterThan_iff] at hlater
    exact ht.laterThan_iff.2 (hle.trans_lt hlater)
  · intro hall
    cases hr : times.lookup name with
    | none => rfl
    | some r => exact hall r (h.mem _ (mem_of_lookup hr))

/-- Other words for what is known. -/
theorem congr (h : Tracks D known times) {known' : Sym × LoopStopTime → Prop}
    (hiff : ∀ x, known' x ↔ known x) : Tracks D known' times := by
  obtain rfl : known' = known := funext fun x => propext (hiff x)
  exact h

/-- A stop recorded that none is later than. -/
theorem insert (h : Tracks D known times) (ht : StopOf D (name, t))
    (hle : ∀ t', known (name, t') → t'.laterThan (some t) name = false) :
    Tracks D (fun x => known x ∨ x = (name, t)) (times.insert name t) where
  stops x hx := hx.elim (h.stops x) fun heq => heq ▸ ht
  upTo x hx := by
    rcases hx with hx | rfl
    · by_cases hne : x.1 = name
      · obtain ⟨n, t'⟩ := x
        obtain rfl : n = name := hne
        rw [lookup_insert_self]
        exact hle t' hx
      · rw [lookup_insert_of_ne hne]
        exact h.upTo x hx
    · rw [lookup_insert_self]
      exact ht.not_later_iff.2 le_rfl
  mem x hx := by
    rcases List.mem_cons.1 hx with rfl | hx
    · exact .inr rfl
    · exact .inl (h.mem x (List.mem_filter.1 hx).1)

/-- A stop passed over that is not later than the record. -/
theorem skip (h : Tracks D known times) (ht : StopOf D (name, t))
    (hle : t.laterThan (times.lookup name) name = false) :
    Tracks D (fun x => known x ∨ x = (name, t)) times where
  stops x hx := hx.elim (h.stops x) fun heq => heq ▸ ht
  upTo x hx := hx.elim (h.upTo x) fun heq => heq ▸ hle
  mem x hx := .inl (h.mem x hx)

/-- A message's stops, those taken over that are later than the record. -/
theorem recordNewer (h : Tracks D known times) {seen : LoopStopTimes} (hseen : seen.WellFormed D) :
    Tracks D (fun x => known x ∨ x ∈ seen) (StopWorker.recordNewer seen times).2 := by
  induction seen generalizing times known with
  | nil => exact h.congr fun x => by simp
  | cons e rest ih =>
    obtain ⟨name, t⟩ := e
    have ht : StopOf D (name, t) := hseen (name, t) List.mem_cons_self
    have hrest : LoopStopTimes.WellFormed D rest := fun x hx => hseen x (List.mem_cons_of_mem _ hx)
    have hiff (x : Sym × LoopStopTime) :
        known x ∨ x ∈ (name, t) :: rest ↔ (known x ∨ x = (name, t)) ∨ x ∈ rest := by
      rw [List.mem_cons, or_assoc]
    unfold StopWorker.recordNewer
    by_cases hlater : t.laterThan (times.lookup name) name = true
    · rw [if_pos hlater]
      have hle (t' : LoopStopTime) (ht' : known (name, t')) :
          t'.laterThan (some t) name = false :=
        (h.stops _ ht').not_later_iff.2
          (ht.laterThan_iff.1 ((h.later_iff ht).1 hlater t' ht')).le
      exact (ih (h.insert ht hle) hrest).congr hiff
    · rw [if_neg hlater]
      exact (ih (h.skip ht (Bool.eq_false_iff.2 hlater)) hrest).congr hiff

/-- A worker's own stops recorded, one a loop. -/
theorem recordAll (h : Tracks D known times) {stops : LoopStopTimes} (hstops : stops.WellFormed D)
    (hle : ∀ x ∈ stops, ∀ t, known (x.1, t) → t.laterThan (some x.2) x.1 = false)
    (hone : ∀ x ∈ stops, ∀ y ∈ stops, x.1 = y.1 → x.2 = y.2) :
    Tracks D (fun x => known x ∨ x ∈ stops) (StopWorker.recordAll stops times) := by
  induction stops generalizing times known with
  | nil => exact h.congr fun x => by simp
  | cons e rest ih =>
    obtain ⟨name, t⟩ := e
    have ht : StopOf D (name, t) := hstops (name, t) List.mem_cons_self
    have hinsert := h.insert ht (hle (name, t) List.mem_cons_self)
    refine (ih hinsert (fun x hx => hstops x (List.mem_cons_of_mem _ hx)) (fun x hx t' ht' => ?_)
      fun x hx y hy => hone x (List.mem_cons_of_mem _ hx) y (List.mem_cons_of_mem _ hy)).congr
      fun x => ?_
    · rcases ht' with ht' | heq
      · exact hle x (List.mem_cons_of_mem _ hx) t' ht'
      · -- the loop was just recorded, with the same stop
        obtain ⟨hname, rfl⟩ := Prod.mk.inj heq
        rw [hone x (List.mem_cons_of_mem _ hx) (name, t') List.mem_cons_self hname, hname]
        exact ht.not_later_iff.2 le_rfl
    · rw [List.mem_cons, or_assoc]

/-- A stop that was later than the record is recorded, or one of the message
that is as late. -/
theorem accepted (h : Tracks D known times) {seen : LoopStopTimes} (hseen : seen.WellFormed D)
    (ht : (name, t) ∈ seen) (hlater : t.laterThan (times.lookup name) name = true) :
    ∃ r, (name, r) ∈ seen ∧ (StopWorker.recordNewer seen times).2.lookup name = some r ∧
      t.laterThan (some r) name = false := by
  obtain ⟨r, hr, hlook, hle⟩ := (h.recordNewer hseen).recorded (.inr ht)
  have hnot := (hseen _ ht).not_later_iff.2 hle
  refine ⟨r, hr.resolve_left fun hknown => ?_, hlook, hnot⟩
  rw [(h.later_iff (hseen _ ht)).1 hlater r hknown] at hnot
  exact absurd hnot (by simp)

/-- Of stops that are known none is taken over. -/
theorem known_again (h : Tracks D known times) {seen : LoopStopTimes} (hseen : ∀ x ∈ seen, known x) :
    StopWorker.recordNewer seen times = ([], times) := by
  induction seen with
  | nil => rfl
  | cons e rest ih =>
    obtain ⟨name, t⟩ := e
    have hnot := h.upTo _ (hseen (name, t) List.mem_cons_self)
    unfold StopWorker.recordNewer
    rw [if_neg (Bool.eq_false_iff.1 hnot)]
    exact ih fun x hx => hseen x (List.mem_cons_of_mem _ hx)

/-- The loops that a message stops are those it has later stops of. -/
theorem mem_newer_iff (h : Tracks D known times) {seen : LoopStopTimes} (hseen : seen.WellFormed D) :
    name ∈ (StopWorker.recordNewer seen times).1 ↔
      ∃ t, (name, t) ∈ seen ∧ t.laterThan (times.lookup name) name = true := by
  induction seen generalizing times known with
  | nil => simp [StopWorker.recordNewer]
  | cons e rest ih =>
    obtain ⟨n, u⟩ := e
    have hu : StopOf D (n, u) := hseen (n, u) List.mem_cons_self
    have hrest : LoopStopTimes.WellFormed D rest := fun x hx => hseen x (List.mem_cons_of_mem _ hx)
    unfold StopWorker.recordNewer
    by_cases hlater : u.laterThan (times.lookup n) n = true
    · rw [if_pos hlater]
      dsimp only
      have hle (t' : LoopStopTime) (ht' : known (n, t')) : t'.laterThan (some u) n = false :=
        (h.stops _ ht').not_later_iff.2 (hu.laterThan_iff.1 ((h.later_iff hu).1 hlater t' ht')).le
      have hinsert := h.insert hu hle
      rw [List.mem_cons, ih hinsert hrest]
      constructor
      · rintro (rfl | ⟨t, ht, hl⟩)
        · exact ⟨u, List.mem_cons_self, hlater⟩
        · -- later than the stop just recorded is later than what it replaced
          refine ⟨t, List.mem_cons_of_mem _ ht, (h.later_iff (hrest _ ht)).2 fun t' ht' => ?_⟩
          exact (hinsert.later_iff (hrest _ ht)).1 hl t' (.inl ht')
      · rintro ⟨t, ht, hl⟩
        by_cases hne : name = n
        · exact .inl hne
        · refine .inr ⟨t, (List.mem_cons.1 ht).resolve_left fun heq => hne (Prod.mk.inj heq).1, ?_⟩
          rwa [lookup_insert_of_ne hne]
    · rw [if_neg hlater, ih h hrest]
      refine exists_congr fun t => and_congr_left fun hl => ?_
      rw [List.mem_cons, or_iff_right]
      rintro heq
      obtain ⟨rfl, rfl⟩ := Prod.mk.inj heq
      exact hlater hl

end Tracks

end LoopStopTimes

open LoopStopTimes

/-- Finish signals change nothing else, and reach the loops they name. -/
structure Registers (g : CompiledGraph) (names : List Sym) (s s' : RequestState) : Prop where
  iters : ∀ d, (s'.loops d).currIter = (s.loops d).currIter ∧ (s'.loops d).done = (s.loops d).done
  times : s'.numTimesRun = s.numTimesRun
  sound : s.Sound → s'.Sound
  finish : ∀ l < g.loops.length,
    (s'.loops l).finishSignal = true ↔ (s.loops l).finishSignal = true ∨ (g.lp l).name ∈ names

/-- All the loops named are registered. -/
theorem registers_registerAll {g : CompiledGraph} (hnames : (g.loops.map LoopSpec.name).Nodup)
    (names : List Sym) (s : RequestState) :
    Registers g names s (StopWorker.registerAll g names s) := by
  induction names generalizing s with
  | nil => exact ⟨fun _ => ⟨rfl, rfl⟩, rfl, id, fun _ _ => by simp [StopWorker.registerAll]⟩
  | cons name names ih =>
    cases hfind : g.loopByName name with
    | none =>
      have hcons : StopWorker.registerAll g (name :: names) s = StopWorker.registerAll g names s := by
        rw [StopWorker.registerAll, List.foldl_cons, hfind]
        rfl
      rw [hcons]
      have h := ih s
      refine ⟨h.iters, h.times, h.sound, fun l hl => (h.finish l hl).trans ?_⟩
      have hne : (g.lp l).name ≠ name := by
        rintro rfl
        rw [loopByName_name hnames hl] at hfind
        exact absurd hfind (by simp)
      rw [List.mem_cons, or_iff_right hne]
    | some m =>
      have hcons : StopWorker.registerAll g (name :: names) s =
          StopWorker.registerAll g names (s.registerLoopFinish m) := by
        rw [StopWorker.registerAll, List.foldl_cons, hfind]
        rfl
      rw [hcons]
      obtain ⟨hm, hname⟩ := loopByName_spec hfind
      have h := ih (s.registerLoopFinish m)
      have hloops (d : LoopId) : (s.registerLoopFinish m).loops d =
          if d = m then { s.loops m with finishSignal := true } else s.loops d := by
        unfold registerLoopFinish
        by_cases hd : d = m
        · subst hd
          rw [setLoop_loops_self, if_pos rfl]
        · rw [setLoop_loops_of_ne _ hd, if_neg hd]
      refine ⟨fun d => ?_, h.times, fun hs => h.sound ⟨hs.going, fun d => ?_⟩, fun l hl => ?_⟩
      · rw [(h.iters d).1, (h.iters d).2, hloops]
        split
        · next hd => exact hd ▸ ⟨rfl, rfl⟩
        · exact ⟨rfl, rfl⟩
      · rw [hloops]
        split
        · exact hs.capped m
        · exact hs.capped d
      · refine (h.finish l hl).trans ?_
        rw [hloops, List.mem_cons, ← hname]
        by_cases hlm : l = m
        · subst hlm
          simp
        · have hne : (g.lp l).name ≠ (g.lp m).name := fun heq => hlm (eq_of_name_eq hnames hl hm heq)
          rw [if_neg hlm, or_iff_right hne]

namespace Registers

variable {g : CompiledGraph} {names : List Sym} {s s' : RequestState} {l : LoopId}

/-- Nothing registered. -/
theorem refl (s : RequestState) : Registers g [] s s :=
  ⟨fun _ => ⟨rfl, rfl⟩, rfl, id, fun _ _ => by simp⟩

/-- Registering turns no loop. -/
theorem clock_eq (h : Registers g names s s') : s'.clock g l = s.clock g l := by
  unfold clock
  rw [h.times, clockAlong_eq fun d _ => h.iters d]

/-- A loop that is to end still is. -/
theorem ending (h : Registers g names s s') (hl : l < g.loops.length) (he : s.Ending l) :
    s'.Ending l := by
  rcases he with he | he
  · exact .inl ((h.iters l).2.trans he)
  · exact .inr ((h.finish l hl).2 (.inl he))

end Registers

namespace Deployment

variable (D : Deployment) {b : ℕ} {wg : WgIndex} {l : LoopId}

/-- A loop is not among the loops around it. -/
theorem name_notMem_enclosing (hl : l < (D.graph b wg).loops.length) :
    ((D.graph b wg).lp l).name ∉ D.enclosing ((D.graph b wg).lp l).name := by
  rw [← D.nested_alike b wg l hl]
  intro h
  obtain ⟨m, hm, hname⟩ := List.mem_map.1 h
  have heq := eq_of_name_eq (D.names_nodup b wg) (lt_length_of_mem_around hl hm) hl hname
  exact CompiledGraph.not_below_self l (CompiledGraph.below_of_mem_around hl (heq ▸ hm))

/-- A loop's own stop time is well formed. -/
theorem loopStopTime_wellFormed (hl : l < (D.graph b wg).loops.length) (s : RequestState) :
    (s.loopStopTime (D.graph b wg) l).loopNameOrder =
        D.enclosing ((D.graph b wg).lp l).name ++ [((D.graph b wg).lp l).name] ∧
      ((D.graph b wg).lp l).name ∉ D.enclosing ((D.graph b wg).lp l).name := by
  refine ⟨?_, D.name_notMem_enclosing hl⟩
  rw [loopStopTime_order hl, D.nested_alike b wg l hl]

end Deployment

/-- A stop time does not depend on finish signals. -/
theorem Registers.loopStopTime_eq {g : CompiledGraph} {names : List Sym} {s s' : RequestState}
    (h : Registers g names s s') (l : LoopId) : s'.loopStopTime g l = s.loopStopTime g l := by
  have hiters : (fun m => ((g.lp m).name, (s'.loops m).currIter)) =
      fun m => ((g.lp m).name, (s.loops m).currIter) := funext fun m => by rw [(h.iters m).1]
  unfold loopStopTime
  rw [h.times, hiters]

/-- A stop time taken is a loop's own. -/
theorem mem_stopTimesOf {g : CompiledGraph} {s : RequestState} {names : List Sym}
    {x : Sym × LoopStopTime} (hx : x ∈ StopWorker.stopTimesOf g s names) :
    x.1 ∈ names ∧ ∃ l, g.loopByName x.1 = some l ∧ x.2 = s.loopStopTime g l := by
  obtain ⟨name, hname, hmap⟩ := List.mem_filterMap.1 hx
  obtain ⟨l, hl, rfl⟩ := Option.map_eq_some_iff.1 hmap
  exact ⟨hname, l, hl, rfl⟩

/-- Stop times do not depend on finish signals. -/
theorem Registers.stopTimesOf_eq {g : CompiledGraph} {names : List Sym} {s s' : RequestState}
    (h : Registers g names s s') (of : List Sym) :
    StopWorker.stopTimesOf g s' of = StopWorker.stopTimesOf g s of := by
  unfold StopWorker.stopTimesOf
  simp only [h.loopStopTime_eq]

/-- What a worker observes are stops of their loops, one a loop. -/
theorem observedStops_spec {D : Deployment} {b : ℕ} (w : StopWorker) (partition node : Sym)
    (names : List Sym) : (w.observedStops D b partition names node).WellFormed D ∧
      (∀ x ∈ w.observedStops D b partition names node,
        ∀ y ∈ w.observedStops D b partition names node, x.1 = y.1 → x.2 = y.2) ∧
      ∀ x ∈ w.observedStops D b partition names node, x.1 ∈ names := by
  unfold StopWorker.observedStops
  cases (w.partitions.lookup partition).bind fun part => D.ownerOf b node part.graphWalk with
  | none =>
    exact ⟨fun x hx => absurd hx List.not_mem_nil, fun x hx => absurd hx List.not_mem_nil,
      fun x hx => absurd hx List.not_mem_nil⟩
  | some owner =>
    refine ⟨fun x hx => ?_, fun x hx y hy hname => ?_, fun x hx => (mem_stopTimesOf hx).1⟩
    · obtain ⟨_, l, hl, htime⟩ := mem_stopTimesOf hx
      obtain ⟨hlen, hname⟩ := loopByName_spec hl
      have hown := D.loopStopTime_wellFormed hlen (w.states owner)
      rw [hname, ← htime] at hown
      exact hown
    · obtain ⟨_, l, hl, htime⟩ := mem_stopTimesOf hx
      obtain ⟨_, l', hl', htime'⟩ := mem_stopTimesOf hy
      rw [hname, hl'] at hl
      rw [htime, htime', Option.some.inj hl]

/-- Stopping loops on a worker's live worker graphs changes only their finish
signals. -/
theorem registers_live {D : Deployment} {b : ℕ} (w : StopWorker) (part : PartitionInfo)
    (names : List Sym) (wg : WgIndex) :
    Registers (D.graph b wg) (if wg ∈ part.walkWorkerGraphs then names else []) (w.states wg)
      (if wg ∈ part.walkWorkerGraphs then StopWorker.registerAll (D.graph b wg) names (w.states wg)
        else w.states wg) := by
  split
  · exact registers_registerAll (D.names_nodup b wg) names _
  · exact .refl _

/-- A message that arrives: its later stops recorded, and finish signals for
their loops. -/
theorem applyPeerLoopStops_eq (D : Deployment) (b : ℕ) (w : StopWorker) (m : StopLoops)
    {part : PartitionInfo} (hpart : w.partitions.lookup m.partition = some part) :
    w.applyPeerLoopStops D b m = { w with
      states := fun wg => if wg ∈ part.walkWorkerGraphs then
        StopWorker.registerAll (D.graph b wg)
          (StopWorker.recordNewer m.loopStopTimes w.loopStopTimes).1 (w.states wg) else w.states wg
      loopStopTimes := (StopWorker.recordNewer m.loopStopTimes w.loopStopTimes).2 } := by
  unfold StopWorker.applyPeerLoopStops
  rw [hpart]
  dsimp only
  by_cases hnone : (StopWorker.recordNewer m.loopStopTimes w.loopStopTimes).1 = []
  · rw [if_pos hnone, hnone]
    refine congrArg (fun st => StopWorker.mk st _ _) (funext fun wg => ?_)
    split <;> rfl
  · rw [if_neg hnone]
    unfold StopWorker.stopLoopsForRid
    dsimp only
    rw [hpart]
    rfl

end Mstar.Walk
