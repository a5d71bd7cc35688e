import Mstar.LoopTurns

/-!
# When a loop was stopped

A stop carries where the stopped loop was: the pass and the iterations of the
loops around it. For loops nested alike, being later is the order of these.
-/

namespace Mstar.Walk

open Shard (Sym TensorRef)
open CompiledGraph (loopOrder_eq below_of_mem_around)
open RequestState

/-- Where a loop was when it was stopped. -/
structure LoopStopTime where
  /-- The stopped loop after the loops around it, outer to inner. -/
  loopNameOrder : List Sym
  loopIndices : List (Sym × ℕ)
  /-- The pass, as the walk's `u32` counts it. -/
  wgFwdPassIdx : ℕ
  deriving DecidableEq

namespace LoopStopTime

/-- The iteration of a loop. -/
def index (t : LoopStopTime) (name : Sym) : ℕ := (t.loopIndices.lookup name).getD 0

/-- Loops compared one by one, up to the target. -/
def laterIn (t other : LoopStopTime) (target : Sym) : List Sym → Bool
  | [] => false
  | name :: names =>
    if name = target then false
    else if t.index name ≠ other.index name then other.index name < t.index name
    else laterIn t other target names

/-- `later_than`: strictly later in the loops around the target. -/
def laterThan (t : LoopStopTime) (other : Option LoopStopTime) (target : Sym) : Bool :=
  match other with
  | none => true
  | some other =>
    if t.wgFwdPassIdx ≠ other.wgFwdPassIdx then other.wgFwdPassIdx < t.wgFwdPassIdx
    else laterIn t other target t.loopNameOrder

/-- The run a stop is of, among loops of some names around the stopped one. -/
def key (names : List Sym) (t : LoopStopTime) : ℕ ×ₗ List (WithTop ℕ) :=
  toLex (t.wgFwdPassIdx, names.map fun name => WithTop.some (t.index name))

variable {t other : LoopStopTime} {names : List Sym} {target : Sym}

/-- Loop by loop comparison is the lexicographic order. -/
theorem laterIn_iff (hnot : target ∉ names) : t.laterIn other target (names ++ [target]) = true ↔
    names.map (fun name => WithTop.some (other.index name)) <
      names.map fun name => WithTop.some (t.index name) := by
  induction names with
  | nil => simp [laterIn]
  | cons name names ih =>
    have hne : name ≠ target := fun h => hnot (h ▸ List.mem_cons_self)
    rw [List.cons_append, List.map_cons, List.map_cons, List.cons_lt_cons_iff]
    unfold laterIn
    rw [if_neg hne]
    by_cases heq : t.index name = other.index name
    · rw [if_neg (not_not.2 heq), ih fun h => hnot (List.mem_cons_of_mem _ h), heq]
      simp
    · rw [if_pos heq, decide_eq_true_iff, WithTop.coe_lt_coe, WithTop.coe_inj]
      exact ⟨.inl, fun h => h.resolve_right fun h' => heq h'.1.symm⟩

/-- A stop of a loop is later than another one if its run is. -/
theorem laterThan_iff (horder : t.loopNameOrder = names ++ [target]) (hnot : target ∉ names) :
    t.laterThan (some other) target = true ↔ other.key names < t.key names := by
  unfold laterThan key
  dsimp only
  rw [Prod.Lex.toLex_lt_toLex, horder]
  by_cases hpass : t.wgFwdPassIdx = other.wgFwdPassIdx
  · rw [if_neg (not_not.2 hpass), laterIn_iff hnot, hpass]
    simp
  · rw [if_pos hpass, decide_eq_true_iff]
    exact ⟨.inl, fun h => h.resolve_right fun h' => hpass h'.1.symm⟩

/-- No loop of a stop's run is over. -/
theorem top_notMem_key (names : List Sym) (t : LoopStopTime) : ⊤ ∉ (ofLex (t.key names)).2 := by
  intro h
  obtain ⟨name, _, heq⟩ := List.mem_map.1 h
  exact WithTop.coe_ne_top heq

end LoopStopTime

open LoopStopTime

namespace RequestState

variable {g : CompiledGraph} {s : RequestState} {l : LoopId} {t : LoopStopTime}

/-- The stop time of a loop: where the walk is. -/
def loopStopTime (g : CompiledGraph) (s : RequestState) (l : LoopId) : LoopStopTime where
  loopNameOrder := (g.loopOrder l).map fun m => (g.lp m).name
  loopIndices := (g.loopOrder l).map fun m => ((g.lp m).name, (s.loops m).currIter)
  wgFwdPassIdx := s.numTimesRun

/-- A stop is of the run a walk's counters name: the same pass and the same
iterations of the loops around the stopped one. -/
def SameRun (g : CompiledGraph) (s : RequestState) (l : LoopId) (t : LoopStopTime) : Prop :=
  t.wgFwdPassIdx = s.numTimesRun ∧ ∀ m ∈ g.around l, t.index (g.lp m).name = (s.loops m).currIter

/-- A loop is being run: neither it nor a loop around it is over. -/
def Executing (g : CompiledGraph) (s : RequestState) (l : LoopId) : Prop :=
  ∀ m ∈ g.loopOrder l, (s.loops m).done = false

/-- The names of the loops around a loop. -/
def aroundNames (g : CompiledGraph) (l : LoopId) : List Sym :=
  (g.around l).map fun m => (g.lp m).name

/-- Loops of one graph have different names. -/
theorem eq_of_name_eq (hnames : (g.loops.map LoopSpec.name).Nodup) {a b : LoopId}
    (ha : a < g.loops.length) (hb : b < g.loops.length) (heq : (g.lp a).name = (g.lp b).name) :
    a = b := by
  unfold CompiledGraph.lp at heq
  rw [List.getD_eq_getElem?_getD, List.getD_eq_getElem?_getD, List.getElem?_eq_getElem ha,
    List.getElem?_eq_getElem hb] at heq
  have ha' : a < (g.loops.map LoopSpec.name).length := by simpa using ha
  have hb' : b < (g.loops.map LoopSpec.name).length := by simpa using hb
  have hmap : (g.loops.map LoopSpec.name)[a] = (g.loops.map LoopSpec.name)[b] := by
    rw [List.getElem_map, List.getElem_map]
    exact heq
  exact (List.Nodup.getElem_inj_iff hnames).1 hmap

/-- The loops around a loop are loops of the graph. -/
theorem lt_length_of_mem_around (hl : l < g.loops.length) {m : LoopId} (hm : m ∈ g.around l) :
    m < g.loops.length := by
  obtain ⟨c, _, hp⟩ := Relation.TransGen.tail'_iff.1 (below_of_mem_around hl hm)
  exact CompiledGraph.parent_lt_length hp

/-- The target of a stop time comes after the loops around it. -/
theorem loopStopTime_order (hl : l < g.loops.length) :
    (loopStopTime g s l).loopNameOrder = aroundNames g l ++ [(g.lp l).name] := by
  unfold loopStopTime aroundNames
  dsimp only
  rw [loopOrder_eq hl, List.map_append]
  rfl

/-- The iterations are not past where the walk is. -/
theorem map_currIter_le_clockAlong (s : RequestState) (ms : List LoopId) :
    (ms.map fun m => WithTop.some (s.loops m).currIter) ≤ clockAlong s ms := by
  induction ms with
  | nil => exact le_rfl
  | cons m ms ih =>
    rw [List.map_cons]
    unfold clockAlong
    split
    · exact le_of_lt (List.cons_lt_cons_iff.2 (.inl (WithTop.coe_lt_top _)))
    · exact List.cons_le_cons _ ih

/-- A clock on which no loop is over is the iterations. -/
theorem map_currIter_eq {s : RequestState} {ms : List LoopId} (h : ⊤ ∉ clockAlong s ms) :
    clockAlong s ms = ms.map fun m => WithTop.some (s.loops m).currIter := by
  induction ms with
  | nil => rfl
  | cons m ms ih =>
    unfold clockAlong at h ⊢
    by_cases hd : (s.loops m).done = true
    · rw [if_pos hd] at h
      exact absurd (List.mem_singleton.2 rfl) h
    · rw [if_neg hd] at h ⊢
      rw [List.map_cons, ih fun hmem => h (List.mem_cons_of_mem _ hmem)]

/-- A stop of the run a walk is in has the run's key. -/
theorem SameRun.key_eq (h : SameRun g s l t) : t.key (aroundNames g l) =
    toLex (s.numTimesRun, (g.around l).map fun m => WithTop.some (s.loops m).currIter) := by
  unfold key aroundNames
  rw [h.1, List.map_map]
  exact congrArg (fun xs => toLex (s.numTimesRun, xs))
    (List.map_congr_left fun m hm => congrArg _ (h.2 m hm))

/-- The clock is at the run of a stop, or the run is over. -/
theorem SameRun.key_le_clock (h : SameRun g s l t) : t.key (aroundNames g l) ≤ s.clock g l := by
  rw [h.key_eq]
  unfold clock
  rw [Prod.Lex.toLex_le_toLex]
  exact .inr ⟨rfl, map_currIter_le_clockAlong s _⟩

/-- The clock of a loop that is being run is at its run. -/
theorem SameRun.key_eq_clock (h : SameRun g s l t) (hl : l < g.loops.length)
    (he : Executing g s l) : t.key (aroundNames g l) = s.clock g l := by
  rw [h.key_eq]
  unfold clock
  rw [map_currIter_eq]
  have hgoing : ∀ m ∈ g.around l, (s.loops m).done = false := by
    intro m hm
    refine he m ?_
    rw [loopOrder_eq hl]
    exact List.mem_append_left _ hm
  generalize g.around l = ms at hgoing
  induction ms with
  | nil => exact List.not_mem_nil
  | cons m ms ih =>
    unfold clockAlong
    rw [hgoing m List.mem_cons_self]
    intro hmem
    rcases List.mem_cons.1 hmem with htop | hmem
    · exact WithTop.top_ne_coe htop
    · exact ih (fun n hn => hgoing n (List.mem_cons_of_mem _ hn)) hmem

/-- A stop whose run the clock is at is of the run the walk is in. -/
theorem sameRun_of_key_eq (h : t.key (aroundNames g l) = s.clock g l) : SameRun g s l t := by
  have htop : ⊤ ∉ clockAlong s (g.around l) := by
    have := top_notMem_key (aroundNames g l) t
    rw [h] at this
    exact this
  unfold clock key aroundNames at h
  rw [map_currIter_eq htop, List.map_map] at h
  obtain ⟨hpass, hiters⟩ := Prod.mk.inj (toLex.injective h)
  exact ⟨hpass, fun m hm => WithTop.coe_inj.1 (List.map_inj_left.1 hiters m hm)⟩

end RequestState

end Mstar.Walk
