import Mstar.Delimited
import Mathlib.Algebra.Order.BigOperators.GroupWithZero.List
import Mstar.ShardOverflow
import Mstar.PythonSetup
import Mstar.ShardPython

/-!
# The two fan-outs side by side

The conductor routes an edge with the Python fan-out and a worker with its
own. On one map they refuse an edge together, or send it to the same workers
with the same descriptors and the same fan-in, but for the tensor lists of a
sharded signal whose leading dims Python indexes and finds missing.
-/

namespace Mstar.Shard

open ShardingConfig

/-- The workers of a source group; a special source has none. -/
def workersOf : Option Group → List Sym
  | some g => g.workers
  | none => []

namespace ShardMap

variable (m : ShardMap) (e : Route)

/-- The same tables as Python holds them. -/
def toConfig : ShardingConfig := ⟨m.groupOf, m.shardDim⟩

/-- The map of the source rank asked for, or of the rank that holds it. -/
def asRequested : Option ℕ → ShardMap
  | none => m
  | some s => m.asSource e.src e.srcWalk s

/-- The conductor never ranked the source's group. -/
def Unranked : Prop := ∃ g, m.groupOf e.src (some e.srcWalk) = some g ∧ g.tpRank = none

/-- The stored descriptors of some refs, each cut down to its ref. -/
def slicedInfos (store : ℕ → Option TensorPointerInfo) (refs : List TensorRef) :
    List TensorPointerInfo :=
  refs.filterMap fun r => (store r.uuid).map (·.slicedTo r)

/-- What a worker sends: to each destination its copy of the edge. -/
def sent (store : ℕ → Option TensorPointerInfo) (infos : List TensorPointerInfo) :
    Except ShardError (List (Sym × SentEdge)) := do
  let dests ← m.fanout e.signal e.src e.srcWalk e.dst e.dstWalk
    (infos.map TensorPointerInfo.tensorRef)
  pure (dests.map fun d => (d.worker, ⟨slicedInfos store d.tensors, m.shardDim e.signal,
    m.fanin e.signal e.src e.srcWalk e.dst e.dstWalk d.worker⟩))

end ShardMap

/-- Two fan-outs of one edge are alike: both refuse it, or each destination
has one copy, the same in both. -/
def Alike (rust : Except ShardError (List (Sym × SentEdge)))
    (python : Except PyError (Sym → Option SentEdge)) : Prop :=
  match rust, python with
  | .ok sent, .ok result => (sent.map Prod.fst).Nodup ∧
      ∀ worker copy, result worker = some copy ↔ (worker, copy) ∈ sent
  | .error _, .error _ => True
  | _, _ => False

/-- The tensor lists both fan-outs take alike: any for a replicated signal or
a fan-out that is refused; for a sharded signal those with a first tensor and,
if it has rows, with a leading dim in each tensor. -/
def Cuttable (m : ShardMap) (e : Route) (infos : List TensorPointerInfo) : Prop :=
  m.shardDim e.signal = none ∨ m.Unranked e ∨
    (∃ info ∈ infos, ¬ (m.destTp e : ℤ) ∣ info.rows * m.srcTp e) ∨
    ∃ first rest, infos = first :: rest ∧ (first.rows = 0 ∨ ∀ info ∈ infos, info.dims ≠ [])

/-- A dict reads back what was put in it under distinct keys. -/
theorem dictOf_eq_some_iff {entries : List (Sym × SentEdge)} (h : (entries.map Prod.fst).Nodup)
    (worker : Sym) (copy : SentEdge) :
    dictOf entries worker = some copy ↔ (worker, copy) ∈ entries := by
  have hfold : ∀ (d : Sym → Option SentEdge), (∀ entry ∈ entries, d entry.1 = none) →
      (entries.foldl (fun (d : Sym → Option SentEdge) entry =>
          Function.update d entry.1 (some entry.2)) d worker = some copy ↔
        d worker = some copy ∨ (worker, copy) ∈ entries) := by
    induction entries with
    | nil => simp
    | cons entry rest ih =>
      intro d hd
      rw [List.map_cons, List.nodup_cons] at h
      have hfresh : ∀ x ∈ rest, x.1 ≠ entry.1 := fun x hx heq =>
        h.1 (heq ▸ List.mem_map_of_mem hx)
      have hentry : d entry.1 = none := hd entry List.mem_cons_self
      rw [List.foldl_cons, ih h.2]
      · by_cases hw : worker = entry.1
        · subst hw
          have hnot : (entry.1, copy) ∉ rest := fun hmem => hfresh _ hmem rfl
          rw [Function.update_self, hentry, List.mem_cons]
          constructor
          · rintro (hsome | hmem)
            · exact .inr (.inl (Prod.ext rfl (Option.some.inj hsome).symm))
            · exact absurd hmem hnot
          · rintro (hnone | heq | hmem)
            · exact absurd hnone (by simp)
            · exact .inl (congrArg some (congrArg Prod.snd heq).symm)
            · exact absurd hmem hnot
        · have hne : (worker, copy) ≠ entry := fun heq => hw (congrArg Prod.fst heq)
          rw [Function.update_of_ne hw, List.mem_cons]
          simp [hne]
      · intro x hx
        rw [Function.update_of_ne (hfresh x hx)]
        exact hd x (List.mem_cons_of_mem _ hx)
  rw [dictOf, hfold _ fun _ _ => rfl]
  simp

/-- Distinct workers have one rank each, the one found first and last. -/
theorem workerToTpRank_eq {workers : List Sym} (h : workers.Nodup) (worker : Sym) :
    workerToTpRank workers worker = (workers.findIdx? (· == worker)).getD 0 := by
  unfold workerToTpRank
  congr 1
  by_cases hmem : worker ∈ workers
  · obtain ⟨i, hi, rfl⟩ := List.mem_iff_getElem.1 hmem
    have hfind : workers.findIdx? (· == workers[i]) = some i := by
      rw [List.findIdx?_eq_some_iff_getElem]
      refine ⟨hi, by simp, fun j hj => ?_⟩
      simp only [beq_iff_eq]
      exact fun heq => absurd (h.getElem_inj_iff.1 heq) (by omega)
    rw [hfind, List.find?_eq_some_iff_append]
    refine ⟨by simp [hi], ?_⟩
    obtain ⟨as, bs, hsplit⟩ := List.append_of_mem (List.mem_reverse.2 (List.mem_range.2 hi))
    refine ⟨as, bs, hsplit, fun j hj => ?_⟩
    have hnodup : ((List.range workers.length).reverse).Nodup :=
      List.nodup_reverse.2 List.nodup_range
    have hjne : j ≠ i := by
      rw [hsplit] at hnodup
      exact fun heq => (List.nodup_append.1 hnodup).2.2 j hj i List.mem_cons_self heq
    have hjlt : j < workers.length := by
      have : j ∈ (List.range workers.length).reverse := by
        rw [hsplit]
        exact List.mem_append_left _ hj
      simpa using this
    simp only [List.getElem?_eq_getElem hjlt, Bool.not_eq_true', beq_eq_false_iff_ne]
    exact fun heq => hjne (h.getElem_inj_iff.1 (Option.some.inj heq))
  · have hfind : workers.findIdx? (· == worker) = none := by
      rw [List.findIdx?_eq_none_iff]
      intro x hx
      simp only [beq_eq_false_iff_ne]
      exact fun heq => hmem (heq ▸ hx)
    rw [hfind, List.find?_eq_none]
    intro j hj
    simp only [beq_iff_eq]
    exact fun heq => hmem (List.mem_of_getElem? heq)

/-- The two fan-ins count alike in range. -/
theorem computeFanin_eq {m : ShardMap} {e : Route} (hdest : (m.destWorkers e).Nodup)
    (hranks : m.srcTp e * m.destTp e < 2 ^ 32) (worker : Sym) :
    m.toConfig.computeFanin e (m.srcTp e) (workerToTpRank (m.destWorkers e) worker) =
      m.fanin e.signal e.src e.srcWalk e.dst e.dstWalk worker := by
  have hrank : workerToTpRank (m.destWorkers e) worker =
      ((m.groupOf e.dst e.dstWalk).bind fun g => g.workers.findIdx? (· == worker)).getD 0 := by
    rw [workerToTpRank_eq hdest]
    unfold ShardMap.destWorkers
    cases m.groupOf e.dst e.dstWalk with
    | some g => rfl
    | none =>
      by_cases hw : symMax = worker <;> simp [destWorkersOf, List.findIdx?_cons, hw]
  have hlt : workerToTpRank (m.destWorkers e) worker < m.destTp e := by
    rw [workerToTpRank_eq hdest]
    have hlen : (m.destWorkers e).length = m.destTp e := destWorkersOf_length _
    have hpos : 0 < m.destTp e := tpSizeOf_pos _
    cases hfind : (m.destWorkers e).findIdx? (· == worker) with
    | none => exact hpos
    | some i =>
      rw [← hlen]
      exact (List.findIdx?_eq_some_iff_getElem.1 hfind).1
  unfold computeFanin ShardMap.fanin
  dsimp only
  rw [← hrank]
  cases hdim : m.shardDim e.signal with
  | none =>
    have hdim' : m.toConfig.shardDim e.signal = none := hdim
    rw [hdim']
  | some d =>
    have hdim' : m.toConfig.shardDim e.signal = some d := hdim
    rw [hdim']
    refine congrArg List.length (List.filter_congr fun s hs => ?_)
    exact (overlaps_eq hranks (List.mem_range.1 hs) hlt).symm

/-- Rows are counted from zero. -/
theorem rows_nonneg {info : TensorPointerInfo} (h : ∀ d ∈ info.dims, 0 ≤ d) : 0 ≤ info.rows := by
  unfold TensorPointerInfo.rows
  cases hd : info.dims with
  | nil => exact le_rfl
  | cons d rest => exact h d (by rw [hd]; exact List.mem_cons_self)

/-- A cut of a stored descriptor is the descriptor of the cut ref. -/
theorem cutInfo_eq {srcTp destTp srcRank r : ℕ} {info : TensorPointerInfo} (hc : info.Contiguous)
    (hdims : info.dims ≠ []) (hdiv : (destTp : ℤ) ∣ info.rows * srcTp) :
    cutInfo srcRank info (startIdx srcTp destTp srcRank r info.rows)
        (endIdx srcTp destTp srcRank r info.rows) =
      .ok (info.slicedTo (exactCut srcTp destTp srcRank r info.tensorRef)) := by
  obtain ⟨uuid, dims, itemsize, nbytes, offset⟩ := info
  cases dims with
  | nil => exact absurd rfl hdims
  | cons d rest =>
    have hbytes : nbytes = itemsize * (d * rest.prod) := by
      rw [← List.prod_cons]
      exact hc
    have htdiv : (d * srcTp).tdiv destTp = d * srcTp / destTp := Int.tdiv_eq_ediv_of_dvd hdiv
    have hend : ((srcRank : ℤ) + 1) * d = srcRank * d + d := by ring
    have hdest : ((r : ℤ) + 1) * (d * srcTp / destTp) =
        r * (d * srcTp / destTp) + d * srcTp / destTp := by ring
    unfold cutInfo TensorPointerInfo.slicedTo exactCut exactSlice TensorPointerInfo.tensorRef startIdx endIdx
    simp only [TensorPointerInfo.rows, List.headD_cons, htdiv, hend, hdest]
    by_cases hd : d = 0
    · subst hd
      simp
    · have hrow : nbytes.tdiv d = itemsize * rest.prod := by
        rw [hbytes, show (itemsize : ℤ) * (d * rest.prod) = itemsize * rest.prod * d by ring,
          Int.mul_tdiv_cancel _ hd]
      simp only [if_neg hd, hrow]
      congr 3
      all_goals ring

/-- Every descriptor of an edge is cut as its ref is, if each has a leading
dim; otherwise Python raises. -/
theorem cutInfos_eq {srcTp destTp srcRank r : ℕ} {infos : List TensorPointerInfo}
    (hc : ∀ info ∈ infos, info.Contiguous)
    (hdiv : ∀ info ∈ infos, (destTp : ℤ) ∣ info.rows * srcTp) :
    cutInfos srcRank infos ((infos.map TensorPointerInfo.rows).map (startIdx srcTp destTp srcRank r))
        ((infos.map TensorPointerInfo.rows).map (endIdx srcTp destTp srcRank r)) =
      if ∀ info ∈ infos, info.dims ≠ [] then
        .ok (infos.map fun info => info.slicedTo (exactCut srcTp destTp srcRank r info.tensorRef))
      else .error .indexError := by
  induction infos with
  | nil => simp [cutInfos]
  | cons info rest ih =>
    have hrest := ih (fun x hx => hc x (List.mem_cons_of_mem _ hx)) fun x hx =>
      hdiv x (List.mem_cons_of_mem _ hx)
    simp only [List.map_cons, cutInfos]
    by_cases hdims : info.dims = []
    · have hone : cutInfo srcRank info (startIdx srcTp destTp srcRank r info.rows)
          (endIdx srcTp destTp srcRank r info.rows) = .error .indexError := by
        unfold cutInfo
        rw [hdims]
      have hnot : ¬ ∀ x ∈ info :: rest, x.dims ≠ [] := fun h => h info List.mem_cons_self hdims
      rw [hone, if_neg hnot]
      rfl
    · rw [cutInfo_eq (hc info List.mem_cons_self) hdims (hdiv info List.mem_cons_self), hrest]
      by_cases hall : ∀ x ∈ rest, x.dims ≠ []
      · have hboth : ∀ x ∈ info :: rest, x.dims ≠ [] := List.forall_mem_cons.2 ⟨hdims, hall⟩
        rw [if_pos hall, if_pos hboth]
        rfl
      · have hnot : ¬ ∀ x ∈ info :: rest, x.dims ≠ [] := fun h => hall (List.forall_mem_cons.1 h).2
        rw [if_neg hall, if_neg hnot]
        rfl

/-- What the store gives back for the cut refs of descriptors it holds. -/
theorem slicedInfos_cut {store : ℕ → Option TensorPointerInfo} {infos : List TensorPointerInfo}
    (hheld : ∀ info ∈ infos, store info.uuid = some info) (srcTp destTp srcRank r : ℕ) :
    ShardMap.slicedInfos store ((infos.map TensorPointerInfo.tensorRef).map
        (exactCut srcTp destTp srcRank r)) =
      infos.map fun info => info.slicedTo (exactCut srcTp destTp srcRank r info.tensorRef) := by
  induction infos with
  | nil => rfl
  | cons info rest ih =>
    have hrest := ih fun x hx => hheld x (List.mem_cons_of_mem _ hx)
    have huuid : (exactCut srcTp destTp srcRank r info.tensorRef).uuid = info.uuid := rfl
    unfold ShardMap.slicedInfos at hrest ⊢
    rw [List.map_cons, List.map_cons, List.filterMap_cons, huuid, hheld info List.mem_cons_self]
    exact congrArg _ hrest

/-- And for whole refs. -/
theorem slicedInfos_whole {store : ℕ → Option TensorPointerInfo} {infos : List TensorPointerInfo}
    (hheld : ∀ info ∈ infos, store info.uuid = some info) :
    ShardMap.slicedInfos store (infos.map TensorPointerInfo.tensorRef) = infos := by
  induction infos with
  | nil => rfl
  | cons info rest ih =>
    have hrest := ih fun x hx => hheld x (List.mem_cons_of_mem _ hx)
    have hsame : info.slicedTo info.tensorRef = info := by
      obtain ⟨uuid, dims, itemsize, nbytes, offset⟩ := info
      cases dims <;> rfl
    have hfirst : (store info.tensorRef.uuid).map (·.slicedTo info.tensorRef) = some info := by
      rw [show info.tensorRef.uuid = info.uuid from rfl, hheld info List.mem_cons_self]
      exact congrArg some hsame
    unfold ShardMap.slicedInfos at hrest ⊢
    rw [List.map_cons, List.filterMap_cons, hfirst, hrest]

/-- A replicated signal leaves for the same workers. -/
theorem replicatedDests_eq {sg : Option Group} {srcWorker : Option Sym} {srcRank : ℕ}
    {destWorkers : List Sym} (hdest : destWorkers.Nodup)
    (hsrc : ∀ w, srcWorker = some w → w ∈ workersOf sg) (t : List TensorRef) :
    replicatedDests sg srcWorker srcRank destWorkers t =
      (replicated srcRank srcWorker (workersOf sg) destWorkers).map fun d => ⟨d.worker, t⟩ := by
  have hothers : (destWorkers.filter fun w =>
      some w != srcWorker && !sg.any fun g => g.workersSetContains w) =
        destWorkers.dedup.filter (· ∉ workersOf sg) := by
    rw [List.dedup_eq_self.2 hdest]
    refine List.filter_congr fun w _ => ?_
    have hin : sg.any (fun g => g.workersSetContains w) = decide (w ∈ workersOf sg) := by
      rw [Bool.eq_iff_iff, decide_eq_true_iff]
      cases sg <;> simp [workersOf, Group.workersSetContains]
    rw [hin]
    by_cases hw : w ∈ workersOf sg
    · simp [hw]
    · have hne : srcWorker ≠ some w := fun heq => hw (hsrc w heq)
      simp [hw, Ne.symm hne]
  unfold replicatedDests replicated
  rw [hothers]
  cases srcWorker with
  | none =>
    dsimp only
    by_cases hrank : srcRank = 0 <;> simp [hrank]
  | some sw =>
    by_cases hin : sw ∈ destWorkers <;> by_cases hrank : srcRank = 0 <;> simp [hin, hrank]

/-- Its destinations are distinct. -/
theorem replicated_nodup {sg : Option Group} {srcWorker : Option Sym} {srcRank : ℕ}
    {destWorkers : List Sym} (hsrc : ∀ w, srcWorker = some w → w ∈ workersOf sg) :
    ((replicated srcRank srcWorker (workersOf sg) destWorkers).map ShardDestination.worker).Nodup := by
  have hneeding : (if srcRank = 0 then destWorkers.dedup.filter (· ∉ workersOf sg) else []).Nodup := by
    split
    · exact (List.nodup_dedup _).filter _
    · exact List.nodup_nil
  have houtside : ∀ w ∈ (if srcRank = 0 then destWorkers.dedup.filter (· ∉ workersOf sg) else []),
      w ∉ workersOf sg := by
    intro w hw
    split at hw
    · simpa using (List.mem_filter.1 hw).2
    · exact absurd hw List.not_mem_nil
  unfold replicated
  rw [List.map_map]
  change List.Nodup (List.map (fun w => w) _)
  rw [List.map_id']
  cases srcWorker with
  | none => simpa using hneeding
  | some sw =>
    dsimp only
    split
    · refine List.nodup_cons.2 ⟨fun hmem => houtside sw hmem (hsrc sw rfl), hneeding⟩
    · simpa using hneeding

/-- The two loops over destination ranks pick the same ranks. -/
theorem shards_eq {srcTp destTp : ℕ} (srcRank : ℕ) (workers : List Sym) {sizes : List ℤ}
    (t : List TensorRef) {first : ℤ} {rest : List ℤ} (hsizes : sizes = first :: rest)
    (hdiv : (destTp : ℤ) ∣ first * srcTp) (ranks : List ℕ) :
    ∃ hits : List ℕ, hits.Sublist ranks ∧
      shards srcTp destTp srcRank workers sizes ranks =
        .ok (hits.map (shardFor srcTp destTp srcRank workers sizes)) ∧
      exactDests srcTp destTp srcRank workers t first ranks =
        hits.map (destFor srcTp destTp srcRank workers t) := by
  have htdiv : (first * srcTp).tdiv destTp = first * srcTp / destTp := Int.tdiv_eq_ediv_of_dvd hdiv
  induction ranks with
  | nil => exact ⟨[], .refl _, rfl, rfl⟩
  | cons r ranks ih =>
    obtain ⟨hits, hsub, hshards, hdests⟩ := ih
    have hend : ((srcRank : ℤ) + 1) * first = srcRank * first + first := by ring
    have hdest : ((r : ℤ) + 1) * (first * srcTp / destTp) =
        r * (first * srcTp / destTp) + first * srcTp / destTp := by ring
    subst hsizes
    unfold shards exactDests
    simp only [hend, hdest, htdiv]
    by_cases hbreak : srcRank * first + first ≤ r * (first * srcTp / destTp)
    · exact ⟨[], List.nil_sublist _, by rw [if_pos hbreak]; rfl, by rw [if_pos hbreak]; rfl⟩
    · by_cases hskip : srcRank * first ≥ r * (first * srcTp / destTp) + first * srcTp / destTp
      · refine ⟨hits, hsub.cons r, ?_, ?_⟩
        · rw [if_neg hbreak, if_pos hskip, hshards]
        · rw [if_neg hbreak, if_pos hskip, hdests]
      · refine ⟨r :: hits, hsub.cons_cons r, ?_, ?_⟩
        · rw [if_neg hbreak, if_neg hskip, hshards]
          rfl
        · rw [if_neg hbreak, if_neg hskip, hdests]
          rfl

/-- The source rank a fan-out routes for, as both implementations resolve it. -/
structure Resolved (m : ShardMap) (e : Route) (srcWorker : Option Sym) (srcRank : ℕ) : Prop where
  rank_lt : srcRank < m.srcTp e
  mem : ∀ w, srcWorker = some w → w ∈ workersOf (m.groupOf e.src (some e.srcWalk))
  source : m.toConfig.sourceOf e none =
    .ok (srcRank, srcWorker, workersOf (m.groupOf e.src (some e.srcWalk)), m.srcTp e)
  fanout : ∀ t, m.fanout e.signal e.src e.srcWalk e.dst e.dstWalk t =
    match m.shardDim e.signal with
    | none => .ok (replicatedDests (m.groupOf e.src (some e.srcWalk)) srcWorker srcRank
        (m.destWorkers e) t)
    | some _ =>
      match indivisible (m.srcTp e) (m.destTp e) t with
      | some error => .error error
      | none => .ok (shardedDests (m.srcTp e) (m.destTp e) srcRank (m.destWorkers e) t
          ((t.head?.map TensorRef.dim0).getD 0) (List.range (m.destTp e)))

/-- A source that is not unranked is resolved. -/
theorem exists_resolved {m : ShardMap} {e : Route} (h : ¬ m.Unranked e) :
    ∃ srcWorker srcRank, Resolved m e srcWorker srcRank := by
  cases hg : m.groupOf e.src (some e.srcWalk) with
  | none =>
    have htp : m.srcTp e = 1 := by
      unfold ShardMap.srcTp
      rw [hg]
      rfl
    refine ⟨none, 0, by omega, fun w hw => absurd hw (by simp), ?_, fun t => ?_⟩
    · unfold sourceOf ShardMap.toConfig
      simp only [hg, htp]
      rfl
    · unfold ShardMap.fanout
      simp only [hg, htp, pure_bind, ← ShardMap.destTp.eq_1, ← ShardMap.destWorkers.eq_1]
      rfl
  | some g =>
    have htp : m.srcTp e = g.tpSize := by
      unfold ShardMap.srcTp
      rw [hg]
      rfl
    cases hrank : g.tpRank with
    | none => exact absurd ⟨g, hg, hrank⟩ h
    | some rank =>
      have hlt : rank.val < g.workers.length := by
        rw [g.bound]
        exact rank.isLt
      have hworker : g.workers[rank.val]? = some (g.workerAt rank) := List.getElem?_eq_getElem hlt
      refine ⟨some (g.workerAt rank), rank.val, by rw [htp]; exact rank.isLt, ?_, ?_, fun t => ?_⟩
      · intro w hw
        rw [hg]
        exact List.mem_of_getElem? (hw ▸ hworker)
      · unfold sourceOf ShardMap.toConfig
        simp only [hg, hrank, htp, Option.map_some]
        have hsource : (none <|> some rank.val : Option ℕ) = some rank.val := rfl
        simp only [hsource, hworker]
        rfl
      · unfold ShardMap.fanout
        simp only [hg, hrank, htp, pure_bind, ← ShardMap.destTp.eq_1, ← ShardMap.destWorkers.eq_1]
        rfl

/-- Neither fan-out takes an edge of an unranked source. -/
theorem unranked_refused {m : ShardMap} {e : Route} (h : m.Unranked e)
    (store : ℕ → Option TensorPointerInfo) (infos : List TensorPointerInfo) :
    Alike (m.sent e store infos) (m.toConfig.fanoutGraphEdges e infos none) := by
  obtain ⟨g, hg, hrank⟩ := h
  have hsent : m.sent e store infos = .error (.missingTpRank e.src e.srcWalk) := by
    unfold ShardMap.sent ShardMap.fanout
    simp only [hg, hrank]
    rfl
  have hsource : m.toConfig.sourceOf e none = .error .unranked := by
    unfold sourceOf ShardMap.toConfig
    simp only [hg, hrank]
    rfl
  have hpython : m.toConfig.fanoutGraphEdges e infos none = .error .unranked := by
    unfold fanoutGraphEdges computeFanout
    rw [hsource]
    rfl
  rw [hsent, hpython]
  trivial

/-- A dict filled from the entries sent is alike. -/
theorem alike_of_entries {entries : List (Sym × SentEdge)} (h : (entries.map Prod.fst).Nodup) :
    Alike (.ok entries) (.ok (dictOf entries)) :=
  ⟨h, dictOf_eq_some_iff h⟩

/-- A list whose elements all raise raises. -/
theorem mapM_error {α β : Type} {f : α → Except PyError β} {xs : List α} {error : PyError}
    (hne : xs ≠ []) (h : ∀ x ∈ xs, f x = .error error) : xs.mapM f = .error error := by
  cases xs with
  | nil => exact absurd rfl hne
  | cons x rest =>
    rw [List.mapM_cons, h x List.mem_cons_self]
    rfl

section

variable {m : ShardMap} {e : Route} {srcWorker : Option Sym} {srcRank : ℕ}
  {store : ℕ → Option TensorPointerInfo} {infos : List TensorPointerInfo}

/-- A replicated signal is routed alike. -/
theorem alike_replicated (h : Resolved m e srcWorker srcRank) (hdim : m.shardDim e.signal = none)
    (hdest : (m.destWorkers e).Nodup) (hheld : ∀ info ∈ infos, store info.uuid = some info) :
    Alike (m.sent e store infos) (m.toConfig.fanoutGraphEdges e infos none) := by
  have hdim' : m.toConfig.shardDim e.signal = none := hdim
  set srcWorkers := workersOf (m.groupOf e.src (some e.srcWalk))
  set items := replicated srcRank srcWorker srcWorkers (m.destWorkers e) with hitems
  have hsent : m.sent e store infos = .ok (items.map fun item =>
      (item.worker, ⟨infos, none, 1⟩)) := by
    have hfanin (w : Sym) : m.fanin e.signal e.src e.srcWalk e.dst e.dstWalk w = 1 := by
      unfold ShardMap.fanin
      rw [hdim]
    unfold ShardMap.sent
    rw [h.fanout, hdim]
    dsimp only
    rw [replicatedDests_eq hdest h.mem]
    change Except.ok (List.map _ (List.map _ items)) = _
    rw [List.map_map]
    refine congrArg Except.ok (List.map_congr_left fun item _ => ?_)
    simp only [Function.comp_apply, slicedInfos_whole hheld, hfanin]
  have hpython : m.toConfig.fanoutGraphEdges e infos none =
      .ok (dictOf (items.map fun item => (item.worker, ⟨infos, none, 1⟩))) := by
    have hedge : ∀ item ∈ items, m.toConfig.edgeFor e infos (m.srcTp e) srcRank item =
        .ok (item.worker, ⟨infos, none, 1⟩) := by
      intro item hitem
      obtain ⟨w, _, rfl⟩ := List.mem_map.1 hitem
      unfold edgeFor computeFanin
      rw [hdim']
      rfl
    unfold fanoutGraphEdges computeFanout
    rw [h.source, hdim']
    change (do
      let entries ← items.mapM (m.toConfig.edgeFor e infos (m.srcTp e) srcRank)
      pure (dictOf entries)) = _
    rw [mapM_ok hedge]
    rfl
  rw [hsent, hpython]
  refine alike_of_entries ?_
  rw [List.map_map]
  exact replicated_nodup h.mem

/-- A tensor whose rows the destination ranks do not divide stops both. -/
theorem alike_indivisible (h : Resolved m e srcWorker srcRank)
    (hdim : (m.shardDim e.signal).isSome) (hrows : ∀ info ∈ infos, 0 ≤ info.rows)
    (hrange : InRange (m.srcTp e) (m.destTp e) (infos.map TensorPointerInfo.tensorRef))
    (hdiv : ∃ info ∈ infos, ¬ (m.destTp e : ℤ) ∣ info.rows * m.srcTp e) :
    Alike (m.sent e store infos) (m.toConfig.fanoutGraphEdges e infos none) := by
  obtain ⟨d, hd⟩ := Option.isSome_iff_exists.1 hdim
  have hd' : m.toConfig.shardDim e.signal = some d := hd
  obtain ⟨info, hinfo, hnot⟩ := hdiv
  have hsent : ∃ error, m.sent e store infos = .error error := by
    have hfind : (indivisible (m.srcTp e) (m.destTp e) (infos.map TensorPointerInfo.tensorRef)).isSome := by
      unfold indivisible
      rw [Option.isSome_map, List.find?_isSome]
      refine ⟨info.tensorRef, List.mem_map_of_mem hinfo, ?_⟩
      have htotal : toI64 (info.tensorRef.dim0 * m.srcTp e) = info.rows * m.srcTp e :=
        toI64_of_nonneg (Int.mul_nonneg (hrows info hinfo) (Int.natCast_nonneg _))
          (hrange.rows _ (List.mem_map_of_mem hinfo))
      simp only [bne_iff_ne, ne_eq, htotal]
      exact fun hzero => hnot (Int.dvd_of_tmod_eq_zero hzero)
    obtain ⟨error, herror⟩ := Option.isSome_iff_exists.1 hfind
    refine ⟨error, ?_⟩
    unfold ShardMap.sent
    rw [h.fanout, hd]
    dsimp only
    rw [herror]
    rfl
  have hpython : m.toConfig.fanoutGraphEdges e infos none = .error .indivisible := by
    have hall : ¬ (infos.map TensorPointerInfo.rows).all
        (fun s => s * m.srcTp e % tpSizeOf (m.toConfig.groupMapping e.dst e.dstWalk) == 0) = true := by
      rw [List.all_eq_true]
      intro hall
      have hzero := beq_iff_eq.1 (hall info.rows (List.mem_map_of_mem hinfo))
      exact hnot (Int.dvd_of_emod_eq_zero hzero)
    unfold fanoutGraphEdges computeFanout
    rw [h.source, hd']
    dsimp only [bind, Except.bind]
    rw [if_neg hall]
    rfl
  obtain ⟨error, herror⟩ := hsent
  rw [herror, hpython]
  trivial

/-- Source ranks each overlap some destination rank. -/
theorem exists_overlapped {srcTp destTp s : ℕ} (hdest : 0 < destTp) (hs : s < srcTp) :
    ∃ r < destTp, overlapsScaled srcTp destTp s r = true := by
  obtain ⟨r, hr, hover⟩ : ∃ r < destTp, overlapsScaled destTp srcTp r s = true :=
    exists_overlapsScaled hdest hs
  refine ⟨r, hr, ?_⟩
  unfold overlapsScaled at hover ⊢
  simp only [Bool.and_eq_true, decide_eq_true_eq] at hover ⊢
  have hnext : (s + 1) * destTp = s * destTp + destTp := by ring
  have hlast : (r + 1) * srcTp = r * srcTp + srcTp := by ring
  omega

/-- The destination ranks a source rank with rows in the first tensor picks. -/
theorem hits_ne_nil {first : ℤ} {hits : List ℕ} {t : List TensorRef}
    (hrank : srcRank < m.srcTp e) (hfirst : 0 < first)
    (hdiv : (m.destTp e : ℤ) ∣ first * m.srcTp e)
    (hdests : exactDests (m.srcTp e) (m.destTp e) srcRank (m.destWorkers e) t first
      (List.range (m.destTp e)) =
        hits.map (destFor (m.srcTp e) (m.destTp e) srcRank (m.destWorkers e) t)) : hits ≠ [] := by
  rintro rfl
  have hpos : 0 < m.destTp e := tpSizeOf_pos _
  obtain ⟨r, hr, hover⟩ := exists_overlapped hpos hrank
  rw [List.range_eq_range', exactDests_range' _ _ _ _ _ hfirst.le, List.map_nil,
    List.map_eq_nil_iff, List.filter_eq_nil_iff] at hdests
  have hnot := hdests r (by simpa using hr)
  rw [overlapsFirst_eq_overlapsScaled hfirst hpos hdiv] at hnot
  exact hnot hover

/-- A source rank without rows in the first tensor picks none. -/
theorem hits_eq_nil {hits : List ℕ} {t : List TensorRef} {first : ℤ} (hfirst : first = 0)
    (hdests : exactDests (m.srcTp e) (m.destTp e) srcRank (m.destWorkers e) t first
      (List.range (m.destTp e)) =
        hits.map (destFor (m.srcTp e) (m.destTp e) srcRank (m.destWorkers e) t)) : hits = [] := by
  subst hfirst
  have hnone : exactDests (m.srcTp e) (m.destTp e) srcRank (m.destWorkers e) t 0
      (List.range (m.destTp e)) = [] := by
    rw [List.range_eq_range', exactDests_range' _ _ _ _ _ le_rfl, List.map_eq_nil_iff,
      List.filter_eq_nil_iff]
    intro r _
    simp [overlapsFirst]
  rw [hnone] at hdests
  exact List.map_eq_nil_iff.1 hdests.symm

/-- What a source rank sends of a sharded signal, by the ranks it picks. -/
def shardEntry (m : ShardMap) (e : Route) (srcRank : ℕ) (infos : List TensorPointerInfo) (r : ℕ) :
    Sym × SentEdge :=
  (m.destWorker e r,
    ⟨infos.map fun info => info.slicedTo (exactCut (m.srcTp e) (m.destTp e) srcRank r info.tensorRef),
      m.shardDim e.signal,
      m.fanin e.signal e.src e.srcWalk e.dst e.dstWalk (m.destWorker e r)⟩)

/-- Contiguous tensors in range are cut evenly by the ranks that divide them. -/
theorem evenlyCut {srcTp destTp : ℕ} (hsrc : 0 < srcTp) (hc : ∀ info ∈ infos, info.Contiguous)
    (hdims : ∀ info ∈ infos, ∀ d ∈ info.dims, 0 ≤ d) (hbytes : ∀ info ∈ infos, info.nbytes < 2 ^ 63)
    (hrange : InRange srcTp destTp (infos.map TensorPointerInfo.tensorRef))
    (hdiv : ∀ info ∈ infos, (destTp : ℤ) ∣ info.rows * srcTp) :
    EvenlyCut srcTp destTp (infos.map TensorPointerInfo.tensorRef) := by
  intro x hx
  obtain ⟨info, hinfo, rfl⟩ := List.mem_map.1 hx
  have hlt : info.rows * srcTp < 2 ^ 63 := hrange.rows _ hx
  have hnonneg : 0 ≤ info.rows := rows_nonneg (hdims info hinfo)
  have hle : info.rows * 1 ≤ info.rows * srcTp :=
    mul_le_mul_of_nonneg_left (by exact_mod_cast hsrc) hnonneg
  have hprod : 0 ≤ info.nbytes := by
    rw [show info.nbytes = info.itemsize * info.dims.prod from hc info hinfo]
    exact Int.mul_nonneg (Int.natCast_nonneg _) (List.prod_nonneg (hdims info hinfo))
  refine ⟨⟨hnonneg, by change info.rows < 2 ^ 63; omega, ⟨by change -2 ^ 63 ≤ info.nbytes; omega,
    hbytes info hinfo⟩, fun hne => ?_⟩, hlt, hdiv info hinfo⟩
  change info.rows ≠ 0 at hne
  change info.rows ∣ info.nbytes
  rw [show info.nbytes = info.itemsize * info.dims.prod from hc info hinfo]
  unfold TensorPointerInfo.rows at hne ⊢
  cases hd : info.dims with
  | nil => simp [hd] at hne
  | cons d rest =>
    rw [List.prod_cons, List.headD_cons]
    exact Dvd.dvd.mul_left (Dvd.intro _ rfl) _

/-- Once the destination ranks divide every tensor, both fan-outs go through
the same destination ranks; what Python makes of one depends on its dims. -/
theorem sharded_cases (h : Resolved m e srcWorker srcRank) (hdim : (m.shardDim e.signal).isSome)
    (hdest : (m.destWorkers e).Nodup) (hheld : ∀ info ∈ infos, store info.uuid = some info)
    (hc : ∀ info ∈ infos, info.Contiguous) {first : TensorPointerInfo}
    {rest : List TensorPointerInfo} (hinfos : infos = first :: rest) (hrows : 0 ≤ first.rows)
    (hcut : EvenlyCut (m.srcTp e) (m.destTp e) (infos.map TensorPointerInfo.tensorRef))
    (hranks : m.srcTp e * m.destTp e < 2 ^ 32) :
    ∃ hits : List ℕ, hits.Sublist (List.range (m.destTp e)) ∧ (hits = [] ↔ first.rows = 0) ∧
      m.sent e store infos = .ok (hits.map (shardEntry m e srcRank infos)) ∧
      m.toConfig.fanoutGraphEdges e infos none =
        if hits = [] ∨ ∀ info ∈ infos, info.dims ≠ [] then
          .ok (dictOf (hits.map (shardEntry m e srcRank infos)))
        else .error .indexError := by
  obtain ⟨d, hd⟩ := Option.isSome_iff_exists.1 hdim
  have hd' : m.toConfig.shardDim e.signal = some d := hd
  have hdiv : ∀ info ∈ infos, (m.destTp e : ℤ) ∣ info.rows * m.srcTp e := fun info hinfo =>
    (hcut _ (List.mem_map_of_mem hinfo)).2.2
  have hfirst : (m.destTp e : ℤ) ∣ first.rows * m.srcTp e := hdiv first (by simp [hinfos])
  have hsizes : infos.map TensorPointerInfo.rows = first.rows :: rest.map TensorPointerInfo.rows := by
    rw [hinfos]
    rfl
  obtain ⟨hits, hsub, hshards, hdests⟩ := shards_eq srcRank (m.destWorkers e)
    (infos.map TensorPointerInfo.tensorRef) hsizes hfirst (List.range (m.destTp e))
  refine ⟨hits, hsub, ⟨fun hnil => ?_, fun hzero => hits_eq_nil hzero hdests⟩, ?_, ?_⟩
  · by_contra hne
    exact hits_ne_nil h.rank_lt (lt_of_le_of_ne hrows (Ne.symm hne)) hfirst hdests hnil
  · have hnone := hcut.indivisible
    have hhead : (((infos.map TensorPointerInfo.tensorRef).head?.map TensorRef.dim0).getD 0) =
        first.rows := by
      rw [hinfos]
      rfl
    have hlt : first.rows * m.srcTp e < 2 ^ 63 :=
      (hcut first.tensorRef (List.mem_map_of_mem (by simp [hinfos]))).2.1
    unfold ShardMap.sent
    rw [h.fanout, hd]
    dsimp only
    rw [hnone]
    dsimp only
    rw [hhead, shardedDests_eq hcut hrows hlt hfirst h.rank_lt fun r hr => List.mem_range.1 hr, hdests]
    change Except.ok (List.map _ (List.map _ hits)) = _
    rw [List.map_map]
    refine congrArg Except.ok (List.map_congr_left fun r _ => ?_)
    unfold shardEntry destFor
    simp only [Function.comp_apply, slicedInfos_cut hheld, hd]
    rfl
  · have hall : ((infos.map TensorPointerInfo.rows).all
        fun s => s * m.srcTp e % tpSizeOf (m.toConfig.groupMapping e.dst e.dstWalk) == 0) = true := by
      rw [List.all_eq_true]
      intro s hs
      obtain ⟨info, hinfo, rfl⟩ := List.mem_map.1 hs
      exact beq_iff_eq.2 (Int.emod_eq_zero_of_dvd (hdiv info hinfo))
    have hedge (r : ℕ) : m.toConfig.edgeFor e infos (m.srcTp e) srcRank
        (shardFor (m.srcTp e) (m.destTp e) srcRank (m.destWorkers e)
          (infos.map TensorPointerInfo.rows) r) =
        if ∀ info ∈ infos, info.dims ≠ [] then .ok (shardEntry m e srcRank infos r)
        else .error .indexError := by
      have hfanin : m.toConfig.computeFanin e (m.srcTp e)
          (workerToTpRank (m.destWorkers e) ((m.destWorkers e).getD r symMax)) = _ :=
        computeFanin_eq hdest hranks _
      unfold edgeFor shardFor
      dsimp only
      rw [cutInfos_eq hc hdiv, hfanin]
      by_cases hdims : ∀ info ∈ infos, info.dims ≠ []
      · rw [if_pos hdims, if_pos hdims]
        rfl
      · rw [if_neg hdims, if_neg hdims]
        rfl
    have hpython : m.toConfig.fanoutGraphEdges e infos none = (do
        let entries ← (hits.map (shardFor (m.srcTp e) (m.destTp e) srcRank (m.destWorkers e)
          (infos.map TensorPointerInfo.rows))).mapM (m.toConfig.edgeFor e infos (m.srcTp e) srcRank)
        pure (dictOf entries)) := by
      unfold fanoutGraphEdges computeFanout
      rw [h.source, hd']
      have hranks : shards (m.srcTp e) (tpSizeOf (m.toConfig.groupMapping e.dst e.dstWalk)) srcRank
          (destWorkersOf (m.toConfig.groupMapping e.dst e.dstWalk)) (infos.map TensorPointerInfo.rows)
          (List.range (tpSizeOf (m.toConfig.groupMapping e.dst e.dstWalk))) = _ := hshards
      dsimp only [bind, Except.bind]
      rw [if_pos hall, hranks]
    rw [hpython, List.mapM_map]
    by_cases hok : hits = [] ∨ ∀ info ∈ infos, info.dims ≠ []
    · rw [if_pos hok, mapM_ok (g := shardEntry m e srcRank infos)]
      · rfl
      · intro r hr
        rcases hok with hnil | hdims
        · rw [hnil] at hr
          exact absurd hr List.not_mem_nil
        · exact (hedge r).trans (if_pos hdims)
    · obtain ⟨hne, hdims⟩ := not_or.1 hok
      have hraised : hits.mapM (m.toConfig.edgeFor e infos (m.srcTp e) srcRank ∘
          shardFor (m.srcTp e) (m.destTp e) srcRank (m.destWorkers e)
            (infos.map TensorPointerInfo.rows)) = .error .indexError :=
        mapM_error hne fun r _ => (hedge r).trans (if_neg hdims)
      rw [if_neg hok, hraised]
      rfl

/-- The entries of distinct ranks go to distinct workers. -/
theorem shardEntry_nodup (hdest : (m.destWorkers e).Nodup) {hits : List ℕ}
    (hsub : hits.Sublist (List.range (m.destTp e))) :
    ((hits.map (shardEntry m e srcRank infos)).map Prod.fst).Nodup := by
  rw [List.map_map]
  refine (List.nodup_map_iff_inj_on (List.nodup_range.sublist hsub)).2 fun q hq r hr hsame => ?_
  exact destWorker_inj hdest (List.mem_range.1 (hsub.subset hr)) (List.mem_range.1 (hsub.subset hq))
    hsame

end

/-- On one map the two fan-outs are alike on exactly the tensor lists that
are cuttable. -/
theorem alike_iff {m : ShardMap} {e : Route} {store : ℕ → Option TensorPointerInfo}
    {infos : List TensorPointerInfo} (hdest : (m.destWorkers e).Nodup)
    (hheld : ∀ info ∈ infos, store info.uuid = some info)
    (hc : ∀ info ∈ infos, info.Contiguous) (hdims : ∀ info ∈ infos, ∀ d ∈ info.dims, 0 ≤ d)
    (hbytes : ∀ info ∈ infos, info.nbytes < 2 ^ 63)
    (hrange : (m.shardDim e.signal).isSome →
      InRange (m.srcTp e) (m.destTp e) (infos.map TensorPointerInfo.tensorRef)) :
    Alike (m.sent e store infos) (m.toConfig.fanoutGraphEdges e infos none) ↔
      Cuttable m e infos := by
  have hrows : ∀ info ∈ infos, 0 ≤ info.rows := fun info hinfo => rows_nonneg (hdims info hinfo)
  by_cases hunranked : m.Unranked e
  · exact iff_of_true (unranked_refused hunranked store infos) (.inr (.inl hunranked))
  obtain ⟨srcWorker, srcRank, h⟩ := exists_resolved hunranked
  cases hd : m.shardDim e.signal with
  | none => exact iff_of_true (alike_replicated h hd hdest hheld) (.inl hd)
  | some d =>
    have hdim : (m.shardDim e.signal).isSome := by rw [hd]; rfl
    have hin := hrange hdim
    by_cases hdiv : ∃ info ∈ infos, ¬ (m.destTp e : ℤ) ∣ info.rows * m.srcTp e
    · exact iff_of_true (alike_indivisible h hdim hrows hin hdiv) (.inr (.inr (.inl hdiv)))
    · have hall : ∀ info ∈ infos, (m.destTp e : ℤ) ∣ info.rows * m.srcTp e := by
        simpa using hdiv
      have hcut : Cuttable m e infos ↔ ∃ first rest, infos = first :: rest ∧
          (first.rows = 0 ∨ ∀ info ∈ infos, info.dims ≠ []) := by
        unfold Cuttable
        simp only [hd, hunranked, hdiv, reduceCtorEq, false_or]
      rw [hcut]
      cases hinfos : infos with
      | nil =>
        subst hinfos
        have hdim' : m.toConfig.shardDim e.signal = some d := hd
        have hsent : ∃ sent, m.sent e store [] = .ok sent := by
          unfold ShardMap.sent
          rw [h.fanout, hd]
          exact ⟨_, rfl⟩
        have hpython : m.toConfig.fanoutGraphEdges e [] none = .error .indexError := by
          have hraised : shards (m.srcTp e) (tpSizeOf (m.toConfig.groupMapping e.dst e.dstWalk)) srcRank
              (destWorkersOf (m.toConfig.groupMapping e.dst e.dstWalk)) []
              (List.range (tpSizeOf (m.toConfig.groupMapping e.dst e.dstWalk))) = .error .indexError := by
            obtain ⟨k, hk⟩ := Nat.exists_eq_succ_of_ne_zero
              (tpSizeOf_pos (m.toConfig.groupMapping e.dst e.dstWalk)).ne'
            rw [hk, List.range_succ_eq_map]
            rfl
          unfold fanoutGraphEdges computeFanout
          rw [h.source, hdim']
          dsimp only [bind, Except.bind]
          simp only [List.map_nil, List.all_nil, if_true, hraised]
        obtain ⟨sent, hsent⟩ := hsent
        rw [hsent, hpython]
        exact iff_of_false id (by simp)
      | cons first rest =>
        rw [← hinfos]
        have hmem : first ∈ infos := by simp [hinfos]
        obtain ⟨hits, hsub, hnil, hsent, hpython⟩ := sharded_cases h hdim hdest hheld hc hinfos
          (hrows first hmem) (evenlyCut (tpSizeOf_pos _) hc hdims hbytes hin hall) hin.ranks
        have hiff : (∃ f r, infos = f :: r ∧ (f.rows = 0 ∨ ∀ info ∈ infos, info.dims ≠ [])) ↔
            hits = [] ∨ ∀ info ∈ infos, info.dims ≠ [] := by
          rw [hnil]
          constructor
          · rintro ⟨f, r, heq, hor⟩
            rw [hinfos] at heq
            rwa [(List.cons.inj heq).1]
          · exact fun hor => ⟨first, rest, hinfos, hor⟩
        rw [hiff, hsent, hpython]
        by_cases hok : hits = [] ∨ ∀ info ∈ infos, info.dims ≠ []
        · rw [if_pos hok]
          exact iff_of_true (alike_of_entries (shardEntry_nodup hdest hsub)) hok
        · rw [if_neg hok]
          exact iff_of_false id hok

section

variable {m : ShardMap} {e : Route}

/-- A source resolves, for the rank asked for, as for the rank that holds the
map. -/
theorem sourceOf_asRequested {rank : Option ℕ} (hrank : ∀ s, rank = some s → s < m.srcTp e) :
    m.toConfig.sourceOf e rank = (m.asRequested e rank).toConfig.sourceOf e none := by
  cases rank with
  | none => rfl
  | some s =>
    have hs := hrank s rfl
    unfold sourceOf ShardMap.toConfig ShardMap.asRequested
    dsimp only
    cases hg : m.groupOf e.src (some e.srcWalk) with
    | none =>
      rw [groupOf_asSource, hg]
      rfl
    | some g =>
      have hlt : s < g.tpSize := by
        unfold ShardMap.srcTp at hs
        rw [hg] at hs
        exact hs
      rw [groupOf_asSource_self m e.src e.srcWalk hg hlt]
      rfl

/-- The rank asked for changes nothing else about the map. -/
theorem fanoutGraphEdges_asRequested {rank : Option ℕ}
    (hrank : ∀ s, rank = some s → s < m.srcTp e) (infos : List TensorPointerInfo) :
    m.toConfig.fanoutGraphEdges e infos rank =
      (m.asRequested e rank).toConfig.fanoutGraphEdges e infos none := by
  have hsource := sourceOf_asRequested hrank
  have hdim : (m.asRequested e rank).toConfig.shardDim e.signal = m.toConfig.shardDim e.signal := by
    cases rank <;> rfl
  have htp : tpSizeOf ((m.asRequested e rank).toConfig.groupMapping e.dst e.dstWalk) =
      tpSizeOf (m.toConfig.groupMapping e.dst e.dstWalk) := by
    cases rank with
    | none => rfl
    | some s => exact tpSizeOf_asSource m e.src e.srcWalk s e.dst e.dstWalk
  have hworkers : destWorkersOf ((m.asRequested e rank).toConfig.groupMapping e.dst e.dstWalk) =
      destWorkersOf (m.toConfig.groupMapping e.dst e.dstWalk) := by
    cases rank with
    | none => rfl
    | some s => exact destWorkersOf_asSource m e.src e.srcWalk s e.dst e.dstWalk
  have hedge : (m.asRequested e rank).toConfig.edgeFor e = m.toConfig.edgeFor e := by
    funext infos srcTp srcRank item
    unfold edgeFor computeFanin
    rw [hdim, htp]
  unfold fanoutGraphEdges computeFanout
  rw [hsource, hdim, hedge]
  simp only [htp, hworkers]

/-- The rank asked for does not change how many ranks or which workers the
destination has. -/
theorem destWorkers_asRequested (rank : Option ℕ) :
    (m.asRequested e rank).destWorkers e = m.destWorkers e := by
  cases rank with
  | none => rfl
  | some s => exact destWorkersOf_asSource m e.src e.srcWalk s e.dst e.dstWalk

/-- Of entries for distinct workers, those of one worker. -/
theorem filter_worker {L : List Sym} (hL : L.Nodup) (t : List TensorRef) (w : Sym) :
    (((L.map fun x => (⟨x, t⟩ : FanoutDest)).filter (·.worker == w)).map FanoutDest.tensors) =
      if w ∈ L then [t] else [] := by
  have hcount : (L.filter (· == w)) = List.replicate (if w ∈ L then 1 else 0) w := by
    rw [List.filter_beq]
    congr 1
    by_cases hw : w ∈ L
    · rw [if_pos hw, List.count_eq_one_of_mem hL hw]
    · rw [if_neg hw, List.count_eq_zero_of_not_mem hw]
  rw [List.filter_map, List.map_map]
  change List.map _ (L.filter (· == w)) = _
  rw [hcount]
  split <;> rfl

/-- The source rank asked for, its worker and the source's workers. -/
theorem sourceOf_some {s : ℕ} (hs : s < m.srcTp e) :
    m.toConfig.sourceOf e (some s) = .ok (s, (workersOf (m.groupOf e.src (some e.srcWalk)))[s]?,
      workersOf (m.groupOf e.src (some e.srcWalk)), m.srcTp e) := by
  unfold sourceOf ShardMap.toConfig ShardMap.srcTp
  unfold ShardMap.srcTp at hs
  dsimp only
  cases hg : m.groupOf e.src (some e.srcWalk) with
  | none =>
    rw [hg] at hs
    obtain rfl : s = 0 := Nat.lt_one_iff.1 hs
    rfl
  | some g =>
    rw [hg] at hs
    have hget : g.workers[s]? = some _ := List.getElem?_eq_getElem (lt_of_lt_of_eq hs g.bound.symm)
    have hsource : (some s <|> g.tpRank.map Fin.val) = some s := rfl
    have hof : workersOf (some g) = g.workers := rfl
    simp only [hsource, hof, hget]
    rfl

/-- What source rank `s` makes of a replicated signal. -/
theorem fanoutFrom_replicated (hdim : m.shardDim e.signal = none) (hdest : (m.destWorkers e).Nodup)
    (t : List TensorRef) {s : ℕ} (hs : s < m.srcTp e) :
    m.fanoutFrom e t s =
      .ok ((replicated s (workersOf (m.groupOf e.src (some e.srcWalk)))[s]?
        (workersOf (m.groupOf e.src (some e.srcWalk))) (m.destWorkers e)).map
          fun d => ⟨d.worker, t⟩) := by
  have hrank : ∀ k, some s = some k → k < m.srcTp e := fun k hk => Option.some.inj hk ▸ hs
  have hasked : (m.asSource e.src e.srcWalk s).toConfig.sourceOf e none = _ :=
    (sourceOf_asRequested hrank).symm.trans (sourceOf_some hs)
  have hranked : ¬ (m.asSource e.src e.srcWalk s).Unranked e := by
    rintro ⟨g, hg, hnone⟩
    unfold sourceOf ShardMap.toConfig at hasked
    simp only [hg, hnone] at hasked
    exact absurd hasked (by simp)
  obtain ⟨srcWorker, srcRank, h⟩ := exists_resolved hranked
  have hsame := Except.ok.inj (h.source.symm.trans hasked)
  simp only [Prod.mk.injEq] at hsame
  obtain ⟨hsrcRank, hworker, hworkers, -⟩ := hsame
  have hnone : (m.asSource e.src e.srcWalk s).shardDim e.signal = none := hdim
  have hdw : (m.asSource e.src e.srcWalk s).destWorkers e = m.destWorkers e :=
    destWorkersOf_asSource m e.src e.srcWalk s e.dst e.dstWalk
  unfold ShardMap.fanoutFrom
  rw [h.fanout, hnone]
  dsimp only
  rw [hdw, replicatedDests_eq hdest h.mem, hsrcRank, hworker, hworkers]

/-- A destination worker in the source group is served by itself, any other
by rank 0. -/
theorem mem_replicated {ws dw : List Sym} {s : ℕ} {w : Sym} (hin : w ∈ dw) :
    w ∈ (replicated s ws[s]? ws dw).map ShardDestination.worker ↔
      if w ∈ ws then ws[s]? = some w else s = 0 := by
  have hworkers : (replicated s ws[s]? ws dw).map ShardDestination.worker =
      ((ws[s]?).elim [] fun sw => if sw ∈ dw then [sw] else []) ++ if s = 0 then dw.dedup.filter (· ∉ ws) else [] := by
    unfold replicated
    rw [List.map_map]
    refine (List.map_id' _).trans ?_
    cases ws[s]? <;> rfl
  rw [hworkers, List.mem_append]
  by_cases hw : w ∈ ws
  · rw [if_pos hw]
    have hneeding : w ∉ (if s = 0 then dw.dedup.filter (· ∉ ws) else []) := by
      split <;> simp [hw]
    rw [or_iff_left hneeding]
    cases hx : ws[s]? with
    | none => simp
    | some sw =>
      have hswap : w = sw ↔ sw = w := eq_comm
      by_cases hsw : sw ∈ dw
      · simp [hsw, hswap]
      · have hne : sw ≠ w := fun heq => hsw (heq ▸ hin)
        simp [hsw, hne]
  · rw [if_neg hw]
    have hown : w ∉ ((ws[s]?).elim [] fun sw => if sw ∈ dw then [sw] else []) := by
      cases hx : ws[s]? with
      | none => simp
      | some sw =>
        have hne : w ≠ sw := fun heq => hw (heq ▸ List.mem_of_getElem? hx)
        rw [Option.elim_some]
        split <;> simp [hne]
    rw [or_iff_right hown]
    by_cases hs0 : s = 0 <;> simp [hs0, hw, hin]

/-- What source rank `s` sends a worker of a replicated signal: its own copy
to itself, and rank 0 the copy of a worker outside the source group. -/
theorem sentBy_replicated (hdim : m.shardDim e.signal = none) (hdest : (m.destWorkers e).Nodup)
    (t : List TensorRef) {s r : ℕ} (hs : s < m.srcTp e) (hr : r < m.destTp e) :
    m.sentBy e t s (m.destWorker e r) =
      if (if m.destWorker e r ∈ workersOf (m.groupOf e.src (some e.srcWalk)) then
          (workersOf (m.groupOf e.src (some e.srcWalk)))[s]? = some (m.destWorker e r)
        else s = 0) then [t] else [] := by
  set ws := workersOf (m.groupOf e.src (some e.srcWalk)) with hws
  have hin : m.destWorker e r ∈ m.destWorkers e := by
    have hlt : r < (m.destWorkers e).length := (destWorkersOf_length _).symm ▸ hr
    unfold ShardMap.destWorker
    rw [List.getD_eq_getElem _ _ hlt]
    exact List.getElem_mem hlt
  have hnodup : ((replicated s ws[s]? ws (m.destWorkers e)).map ShardDestination.worker).Nodup := by
    rw [hws]
    exact replicated_nodup fun w hw => List.mem_of_getElem? hw
  have hmap : ((replicated s ws[s]? ws (m.destWorkers e)).map fun d => (⟨d.worker, t⟩ : FanoutDest)) =
      ((replicated s ws[s]? ws (m.destWorkers e)).map ShardDestination.worker).map fun x => ⟨x, t⟩ := by
    rw [List.map_map]
    rfl
  unfold ShardMap.sentBy
  rw [fanoutFrom_replicated hdim hdest t hs, ← hws]
  dsimp only
  rw [hmap, filter_worker hnodup]
  simp only [mem_replicated hin]

/-- A list over the ranks that is empty but at one of them. -/
theorem flatMap_ite {α : Type} {n k : ℕ} (hk : k < n) (f : ℕ → α) {p : ℕ → Prop} [DecidablePred p]
    (hp : ∀ s < n, p s ↔ s = k) :
    ((List.range n).flatMap fun s => if p s then [f s] else []) = [f k] := by
  have hfilter : ((List.range n).flatMap fun s => if p s then [f s] else []) =
      ((List.range n).filter p).map f := by
    induction List.range n with
    | nil => rfl
    | cons x xs ih =>
      rw [List.flatMap_cons, ih]
      by_cases hx : p x <;> simp [hx]
  have hone : (List.range n).filter p = [k] := by
    have hcongr : (List.range n).filter p = (List.range n).filter (· == k) :=
      List.filter_congr fun s hs => by
        rw [Bool.eq_iff_iff, decide_eq_true_iff, beq_iff_eq]
        exact hp s (List.mem_range.1 hs)
    rw [hcongr, List.filter_beq, List.count_eq_one_of_mem List.nodup_range (List.mem_range.2 hk)]
    rfl
  rw [hfilter, hone]
  rfl

/-- Over all source ranks each destination worker gets one full copy of a
replicated signal. -/
theorem one_copy_each (hdim : m.shardDim e.signal = none) (hdest : (m.destWorkers e).Nodup)
    (hsrc : (workersOf (m.groupOf e.src (some e.srcWalk))).Nodup) (t : List TensorRef) {r : ℕ}
    (hr : r < m.destTp e) : ∃ s < m.srcTp e, m.sentTo e t r = [(s, t)] := by
  set ws := workersOf (m.groupOf e.src (some e.srcWalk)) with hws
  have hsent : m.sentTo e t r = (List.range (m.srcTp e)).flatMap fun s =>
      if (if m.destWorker e r ∈ ws then ws[s]? = some (m.destWorker e r) else s = 0) then [(s, t)]
      else [] := by
    unfold ShardMap.sentTo
    refine List.flatMap_congr fun s hs => ?_
    rw [sentBy_replicated hdim hdest t (List.mem_range.1 hs) hr, ← hws,
      apply_ite (List.map fun ts => (s, ts))]
    rfl
  by_cases hw : m.destWorker e r ∈ ws
  · obtain ⟨k, hk, hget⟩ := List.mem_iff_getElem.1 hw
    have hlen : ws.length = m.srcTp e := by
      unfold ShardMap.srcTp
      rw [hws]
      cases hg : m.groupOf e.src (some e.srcWalk) with
      | none =>
        rw [hws, hg] at hw
        exact absurd hw List.not_mem_nil
      | some g => exact g.bound
    have hlt : k < m.srcTp e := hlen ▸ hk
    refine ⟨k, hlt, ?_⟩
    rw [hsent]
    refine flatMap_ite hlt (fun s => (s, t)) fun s hs => ?_
    have hslt : s < ws.length := hlen.symm ▸ hs
    rw [if_pos hw, List.getElem?_eq_getElem hslt, ← hget, Option.some.injEq, hsrc.getElem_inj_iff]
  · have hpos : 0 < m.srcTp e := tpSizeOf_pos _
    refine ⟨0, hpos, ?_⟩
    rw [hsent]
    exact flatMap_ite hpos (fun s => (s, t)) fun s _ => by rw [if_neg hw]

end

/-- The group without what is known of it. -/
def Group.raw (g : Group) : ShardSetup.Group Sym := ⟨g.workers, g.tpSize, g.tpRank.map Fin.val⟩

/-- Nothing is lost with that. -/
theorem Group.raw_inj {g g' : Group} (h : g.raw = g'.raw) : g = g' := by
  obtain ⟨workers, tpSize, tpRank, bound, tpSize_pos, tpSize_lt⟩ := g
  obtain ⟨workers', tpSize', tpRank', bound', tpSize_pos', tpSize_lt'⟩ := g'
  simp only [Group.raw, ShardSetup.Group.mk.injEq] at h
  obtain ⟨rfl, rfl, hrank⟩ := h
  obtain rfl : tpRank = tpRank' := Option.map_injective (fun _ _ hval => Fin.ext hval) hrank
  rfl

/-- The groups of an edge's two lookups are those that a request resolved. -/
structure LooksUp (groupOf : Sym → Option Sym → Option Group)
    (resolved : Sym → Option Sym → Option (ShardSetup.Group Sym)) (e : Route) : Prop where
  src : (groupOf e.src (some e.srcWalk)).map Group.raw = resolved e.src (some e.srcWalk)
  dst : (groupOf e.dst e.dstWalk).map Group.raw = resolved e.dst e.dstWalk

/-- What `instantiate` and `setup` made of one config and one assignment, each
in orders of its own, for the lookups of an edge. -/
structure BothResolved (config : ShardSetup.ShardingTemplate Sym) (w : ShardSetup.NodeWorkers Sym)
    (m : ShardMap) (c : ShardingConfig) (e : Route) : Prop where
  rust : ∃ (o : ShardSetup.HashOrder w) (r : ShardSetup.ShardMap Sym),
    config.instantiate w o = .ok r ∧ LooksUp m.groupOf r.groupOf e ∧ m.shardDim = r.shardDim
  python : ∃ (o : ShardSetup.HashOrder w) (groups : List (ShardSetup.GroupTemplate Sym))
    (p : ShardSetup.Setup Sym), List.Forall₂ ShardSetup.GroupTemplate.Same config.groups groups ∧
      ShardSetup.setup groups w o.walks = .ok p ∧ LooksUp c.groupMapping p.groupOf e ∧
        c.shardDim = config.shardDim

/-- Both lookups of an edge are plain. -/
structure PlainEdge (config : ShardSetup.ShardingTemplate Sym) (w : ShardSetup.NodeWorkers Sym)
    (e : Route) : Prop where
  src : ShardSetup.Plain config.groups w e.src (some e.srcWalk)
  dst : ShardSetup.Plain config.groups w e.dst e.dstWalk

section

variable {config : ShardSetup.ShardingTemplate Sym} {w : ShardSetup.NodeWorkers Sym}
  {m : ShardMap} {c : ShardingConfig} {e : Route}

/-- Then the two resolved the same groups. -/
theorem BothResolved.same_groups (h : BothResolved config w m c e) (hplain : PlainEdge config w e) :
    c.groupMapping e.src (some e.srcWalk) = m.groupOf e.src (some e.srcWalk) ∧
      c.groupMapping e.dst e.dstWalk = m.groupOf e.dst e.dstWalk ∧ c.shardDim = m.shardDim := by
  obtain ⟨o, r, hrust, hm, hmdim⟩ := h.rust
  obtain ⟨o', groups, p, hgroups, hpython, hc, hcdim⟩ := h.python
  have hinj : Function.Injective (Option.map Group.raw) :=
    Option.map_injective fun _ _ hraw => Group.raw_inj hraw
  refine ⟨hinj ?_, hinj ?_, ?_⟩
  · rw [hc.src, hm.src, ShardSetup.lookup_alike o' hrust hgroups hpython hplain.src]
  · rw [hc.dst, hm.dst, ShardSetup.lookup_alike o' hrust hgroups hpython hplain.dst]
  · rw [hcdim, hmdim]
    exact (ShardSetup.ShardingTemplate.shardDim_of_ok hrust).symm

/-- A Python fan-out reads no more of its config than the two groups and the
shard dims. -/
theorem fanoutGraphEdges_congr {c c' : ShardingConfig}
    (hsrc : c.groupMapping e.src (some e.srcWalk) = c'.groupMapping e.src (some e.srcWalk))
    (hdst : c.groupMapping e.dst e.dstWalk = c'.groupMapping e.dst e.dstWalk)
    (hdim : c.shardDim = c'.shardDim) (infos : List TensorPointerInfo) (rank : Option ℕ) :
    c.fanoutGraphEdges e infos rank = c'.fanoutGraphEdges e infos rank := by
  have hsource : c.sourceOf e rank = c'.sourceOf e rank := by
    unfold sourceOf
    rw [hsrc]
  have hedge : c.edgeFor e = c'.edgeFor e := by
    funext infos srcTp srcRank item
    unfold edgeFor computeFanin
    rw [hdim, hdst]
  unfold fanoutGraphEdges computeFanout
  rw [hsource, hdim, hedge, hdst]

end

/-- The stored descriptors of a list. -/
def storeOf (infos : List TensorPointerInfo) (uuid : ℕ) : Option TensorPointerInfo :=
  infos.find? (·.uuid == uuid)

/-- A config that resolves to `twoByTwo`. -/
def twoByTwoConfig : ShardSetup.ShardingTemplate Sym where
  groups := [⟨[0], 2, none, none⟩, ⟨[1], 2, none, none⟩]
  shardDim signal := if signal = 50 then some 0 else none
  me := 100

/-- Its assignment. -/
def twoByTwoWorkers : ShardSetup.NodeWorkers Sym where
  entries := [((0, 10), [100, 101]), ((1, 10), [200, 201])]
  nodup := by decide

/-- A config goes through its own lists in order. -/
theorem sameGroups (groups : List (ShardSetup.GroupTemplate Sym)) :
    List.Forall₂ ShardSetup.GroupTemplate.Same groups groups :=
  List.forall₂_same.2 fun _ _ => ⟨fun _ => Iff.rfl, rfl, ⟨rfl, fun _ => rfl⟩, rfl⟩

/-- Both resolve it to the groups of `twoByTwo`. -/
theorem twoByTwo_resolved :
    BothResolved twoByTwoConfig twoByTwoWorkers twoByTwo twoByTwo.toConfig shardedEdge where
  rust := ⟨twoByTwoWorkers.order, _, rfl, ⟨by decide, by decide⟩, rfl⟩
  python := ⟨twoByTwoWorkers.order, twoByTwoConfig.groups, _, sameGroups _, rfl,
    ⟨by decide, by decide⟩, rfl⟩

/-- Each of its groups has one key. -/
theorem twoByTwo_plain : PlainEdge twoByTwoConfig twoByTwoWorkers shardedEdge := by
  have hone : ∀ t ∈ twoByTwoConfig.groups, t.OneAssignment twoByTwoWorkers := by
    intro t ht k k' hk hk'
    have hkey : ∀ q : ShardSetup.Key Sym, t.claims twoByTwoWorkers q →
        q.1 ∈ t.nodes ∧ q.2 = 10 := by
      intro q hq
      unfold ShardSetup.GroupTemplate.claims at hq
      simp only [Bool.and_eq_true, decide_eq_true_eq] at hq
      obtain ⟨ws, hws⟩ := ShardSetup.NodeWorkers.has_iff.1 hq.2
      have hentry := ShardSetup.NodeWorkers.get_eq_some.1 hws
      simp only [twoByTwoWorkers, List.mem_cons, Prod.mk.injEq, List.not_mem_nil, or_false] at hentry
      rcases hentry with ⟨rfl, -⟩ | ⟨rfl, -⟩ <;> exact ⟨hq.1.1, rfl⟩
    have hnodes : k.1 = k'.1 := by
      have hkn := (hkey k hk).1
      have hkn' := (hkey k' hk').1
      rcases List.mem_pair.1 ht with rfl | rfl <;>
        exact (List.mem_singleton.1 hkn).trans (List.mem_singleton.1 hkn').symm
    rw [Prod.ext hnodes ((hkey k hk).2.trans (hkey k' hk').2.symm)]
  have hplain : ∀ n, ShardSetup.Plain twoByTwoConfig.groups twoByTwoWorkers n (some 10) := by
    intro n
    refine ⟨fun _ _ before t after hcut _ _ => hone t (by rw [hcut]; simp), fun hnone => ?_⟩
    cases hnone
  exact ⟨hplain 0, hplain 1⟩

/-- The group of a node that the other node of the pair is assigned elsewhere,
as `instantiate` binds it. -/
def pairMap : ShardMap where
  groups := [⟨[100], 1, some 0, rfl, Nat.one_pos, Group.one_lt⟩]
  groupMapping node walk := if walk = some 10 ∧ (node = 0 ∨ node = 1) then some 0 else none
  shardDim _ := none

/-- And as `setup` leaves it. -/
def pairConfig : ShardingConfig where
  groupMapping node walk := if walk = some 10 ∧ (node = 0 ∨ node = 1) then
    some ⟨[101], 1, some 0, rfl, Nat.one_pos, Group.one_lt⟩ else none
  shardDim _ := none

/-- An edge of the client to the second node of the pair. -/
def pairEdge : Route := ⟨50, 7, 10, 1, some 10⟩

/-- Both resolve the pair. -/
theorem pair_resolved :
    BothResolved ShardSetup.pairGroup ShardSetup.twoWorkers pairMap pairConfig pairEdge where
  rust := ⟨ShardSetup.twoWorkers.order, _, rfl, ⟨by decide, by decide⟩, rfl⟩
  python := ⟨ShardSetup.twoWorkers.order, ShardSetup.pairGroup.groups, _, sameGroups _, rfl,
    ⟨by decide, by decide⟩, rfl⟩

end Mstar.Shard
