import Mathlib.Data.List.Nodup
import Mathlib.Data.List.GetD
import Mstar.ShardRanges

/-!
# Fan-out and fan-in of a sharded signal

A receiver buffers the slices of a sharded tensor until as many source ranks
have sent one as `fanin` says. The slices `fanout` sends, over all source
ranks, tile each destination rank's rows of every tensor and come from
exactly that many source ranks when the first tensor has rows. Without a
first tensor, or with an empty one, nothing is sent at all.
-/

namespace Mstar.Shard

open SpanTiling

/-- One edge of a request: what `fanout` and `fanin` are asked about. -/
structure Route where
  /-- The signal's name. -/
  signal : Sym
  /-- Producing node. -/
  src : Sym
  /-- The walk the producer runs in. -/
  srcWalk : Sym
  /-- Consuming node, or the client or conductor. -/
  dst : Sym
  /-- The consumer's walk, `none` for a streamed edge. -/
  dstWalk : Option Sym

namespace ShardMap

variable (m : ShardMap) (e : Route) (t : List TensorRef)

/-- Ranks the producer is sharded over. -/
def srcTp : ℕ := tpSizeOf (m.groupOf e.src (some e.srcWalk))

/-- Ranks the consumer is sharded over. -/
def destTp : ℕ := tpSizeOf (m.groupOf e.dst e.dstWalk)

/-- The consumer's workers, in rank order. -/
def destWorkers : List Sym := destWorkersOf (m.groupOf e.dst e.dstWalk)

/-- The consumer's worker at rank `r`. -/
def destWorker (r : ℕ) : Sym := (m.destWorkers e).getD r symMax

/-- What source rank `s` makes of the edge. -/
def fanoutFrom (s : ℕ) : Except ShardError (List FanoutDest) :=
  (m.asSource e.src e.srcWalk s).fanout e.signal e.src e.srcWalk e.dst e.dstWalk t

/-- The tensor lists source rank `s` sends to a worker. -/
def sentBy (s : ℕ) (worker : Sym) : List (List TensorRef) :=
  match m.fanoutFrom e t s with
  | .ok out => (out.filter (·.worker == worker)).map FanoutDest.tensors
  | .error _ => []

/-- Everything destination rank `r`'s worker is sent, with the rank that sent
it, in source-rank order. -/
def sentTo (r : ℕ) : List (ℕ × List TensorRef) :=
  (List.range (m.srcTp e)).flatMap fun s =>
    (m.sentBy e t s (m.destWorker e r)).map fun ts => (s, ts)

/-- The source ranks that send anything to destination rank `r`'s worker. -/
def sendersTo (r : ℕ) : List ℕ :=
  (List.range (m.srcTp e)).filter fun s => !(m.sentBy e t s (m.destWorker e r)).isEmpty

end ShardMap

/-- Fan-out and fan-in agree on an edge. -/
structure Agrees (m : ShardMap) (e : Route) (t : List TensorRef) : Prop where
  /-- No source rank refuses the edge. -/
  routed : ∀ s < m.srcTp e, ∃ out, m.fanoutFrom e t s = .ok out
  /-- The slices of each tensor sent to a destination rank, in source-rank
  order and each out of its source's own slab, tile that rank's rows. -/
  tiled : ∀ r < m.destTp e, ∀ (i : ℕ) (x : TensorRef) (row : ℤ), t[i]? = some x → x.nbytes = x.dim0 * row →
    ∃ spans : List (ℕ × ℤ × ℤ),
      (m.sentTo e t r).map (fun sent => (sent.1, sent.2[i]?)) =
        spans.map (fun cut => (cut.1, some (slabSlice x row cut.1 cut.2))) ∧
      (spans.map Prod.fst).Pairwise (· < ·) ∧
      (∀ cut ∈ spans, cut.1 * x.dim0 ≤ cut.2.1 ∧ cut.2.2 ≤ (cut.1 + 1) * x.dim0) ∧
      Tiles (r * (x.dim0 * m.srcTp e) / m.destTp e) ((r + 1) * (x.dim0 * m.srcTp e) / m.destTp e)
        (spans.map Prod.snd)
  /-- A receiver waits for exactly the source ranks that send to it. -/
  counted : ∀ r < m.destTp e, (m.sendersTo e t r).length =
    m.fanin e.signal e.src e.srcWalk e.dst e.dstWalk (m.destWorker e r)

/-- Rank 0 or more of a group exists. -/
theorem tpSizeOf_pos (g : Option Group) : 0 < tpSizeOf g := by
  cases g with
  | none => exact Nat.one_pos
  | some g => exact g.tpSize_pos

/-- Ranks are `u32`s. -/
theorem tpSizeOf_lt (g : Option Group) : tpSizeOf g < 2 ^ 32 := by
  cases g with
  | none => exact Nat.one_lt_two_pow (by decide)
  | some g => exact g.tpSize_lt

/-- A destination has one worker for each of its ranks. -/
theorem destWorkersOf_length (g : Option Group) : (destWorkersOf g).length = tpSizeOf g := by
  cases g with
  | none => rfl
  | some g => exact g.bound

/-- Another rank's copy of the map differs in the producer's own rank only. -/
theorem groupOf_asSource (m : ShardMap) (src srcWalk : Sym) (s : ℕ) (node : Sym)
    (walk : Option Sym) : (m.asSource src srcWalk s).groupOf node walk =
      (m.groupOf node walk).map fun g =>
        if m.groupMapping node walk |>.any fun i =>
            (m.groupMapping src (some srcWalk)).any (·.val == i.val) then
          if h : s < g.tpSize then g.atRank ⟨s, h⟩ else g
        else g := by
  simp only [ShardMap.groupOf, ShardMap.asSource, Option.map_map]
  cases hm : m.groupMapping node walk with
  | none => rfl
  | some i => simp [Function.comp]

/-- The rank of a copy does not change how many ranks a group has. -/
theorem tpSizeOf_asSource (m : ShardMap) (src srcWalk : Sym) (s : ℕ) (node : Sym)
    (walk : Option Sym) :
    tpSizeOf ((m.asSource src srcWalk s).groupOf node walk) = tpSizeOf (m.groupOf node walk) := by
  rw [groupOf_asSource]
  cases m.groupOf node walk with
  | none => rfl
  | some g =>
    simp only [Option.map_some, tpSizeOf]
    split
    · split <;> rfl
    · rfl

/-- Nor which workers it has. -/
theorem destWorkersOf_asSource (m : ShardMap) (src srcWalk : Sym) (s : ℕ) (node : Sym)
    (walk : Option Sym) : destWorkersOf ((m.asSource src srcWalk s).groupOf node walk) =
      destWorkersOf (m.groupOf node walk) := by
  rw [groupOf_asSource]
  cases m.groupOf node walk with
  | none => rfl
  | some g =>
    simp only [Option.map_some, destWorkersOf]
    split
    · split <;> rfl
    · rfl

/-- The producer's group, as rank `s` holds it, is ranked `s`. -/
theorem groupOf_asSource_self (m : ShardMap) (src srcWalk : Sym) {s : ℕ} {g : Group}
    (hg : m.groupOf src (some srcWalk) = some g) (hs : s < g.tpSize) :
    (m.asSource src srcWalk s).groupOf src (some srcWalk) = some (g.atRank ⟨s, hs⟩) := by
  rw [groupOf_asSource, hg]
  cases hi : m.groupMapping src (some srcWalk) with
  | none => simp [ShardMap.groupOf, hi] at hg
  | some i => simp [hs]

/-- The tensors go through the check exactly if the destination ranks divide
each total that the field holds. -/
theorem indivisible_eq_none {srcTp destTp : ℕ} {t : List TensorRef} :
    indivisible srcTp destTp t = none ↔ ∀ x ∈ t, (destTp : ℤ) ∣ toI64 (x.dim0 * srcTp) := by
  simp only [indivisible, Option.map_eq_none_iff, List.find?_eq_none, bne_iff_ne, ne_eq,
    Decidable.not_not]
  exact forall₂_congr fun x _ => ⟨Int.dvd_of_tmod_eq_zero, Int.tmod_eq_zero_of_dvd⟩

/-- In range these are the totals. -/
theorem EvenlyCut.indivisible {srcTp destTp : ℕ} {t : List TensorRef}
    (h : EvenlyCut srcTp destTp t) : Shard.indivisible srcTp destTp t = none := by
  rw [indivisible_eq_none]
  intro x hx
  obtain ⟨hsized, hrows, hdiv⟩ := h x hx
  rw [toI64_of_nonneg (Int.mul_nonneg hsized.rows_nonneg (Int.natCast_nonneg _)) hrows]
  exact hdiv

/-- On a sharded signal whose tensors the destination ranks divide, source
rank `s` runs the loop over all destination ranks. -/
theorem fanoutFrom_eq (m : ShardMap) (e : Route) (t : List TensorRef) {s : ℕ}
    (hs : s < m.srcTp e) (hdim : (m.shardDim e.signal).isSome) :
    m.fanoutFrom e t s = match indivisible (m.srcTp e) (m.destTp e) t with
      | some error => .error error
      | none => .ok (shardedDests (m.srcTp e) (m.destTp e) s (m.destWorkers e) t
          ((t.head?.map TensorRef.dim0).getD 0) (List.range (m.destTp e))) := by
  obtain ⟨d, hd⟩ := Option.isSome_iff_exists.mp hdim
  have hshard : (m.asSource e.src e.srcWalk s).shardDim e.signal = some d := hd
  unfold ShardMap.fanoutFrom ShardMap.fanout
  simp only [destWorkersOf_asSource, tpSizeOf_asSource, hshard]
  cases hg : m.groupOf e.src (some e.srcWalk) with
  | none =>
    have hself : (m.asSource e.src e.srcWalk s).groupOf e.src (some e.srcWalk) = none := by
      rw [groupOf_asSource, hg]; rfl
    have htp : m.srcTp e = 1 := by rw [ShardMap.srcTp, hg]; rfl
    obtain rfl : s = 0 := by omega
    simp only [hself, pure_bind, ← ShardMap.destTp.eq_1, ← ShardMap.destWorkers.eq_1, htp]
    rfl
  | some g =>
    have htp : m.srcTp e = g.tpSize := by rw [ShardMap.srcTp, hg]; rfl
    have hself := groupOf_asSource_self m e.src e.srcWalk hg (s := s) (by omega)
    simp only [hself, Group.atRank, pure_bind, ← ShardMap.destTp.eq_1, ← ShardMap.destWorkers.eq_1,
      htp]
    rfl

/-- The first tensor's rows, or none. -/
theorem EvenlyCut.first {srcTp destTp : ℕ} {t : List TensorRef} (h : EvenlyCut srcTp destTp t) :
    0 ≤ (t.head?.map TensorRef.dim0).getD 0 ∧
      (t.head?.map TensorRef.dim0).getD 0 * srcTp < 2 ^ 63 ∧
      (destTp : ℤ) ∣ (t.head?.map TensorRef.dim0).getD 0 * srcTp := by
  cases t with
  | nil => simp
  | cons x rest =>
    obtain ⟨hsized, hrows, hdiv⟩ := h x List.mem_cons_self
    exact ⟨hsized.rows_nonneg, hrows, hdiv⟩

/-- What a source rank sends, as a list over the ranks it overlaps. -/
theorem fanoutFrom_eq_map (m : ShardMap) (e : Route) (t : List TensorRef) {s : ℕ}
    (hs : s < m.srcTp e) (hdim : (m.shardDim e.signal).isSome)
    (hcut : EvenlyCut (m.srcTp e) (m.destTp e) t) :
    m.fanoutFrom e t s = .ok (((List.range (m.destTp e)).filter
      (overlapsFirst (m.srcTp e) (m.destTp e) s ((t.head?.map TensorRef.dim0).getD 0))).map
        (destFor (m.srcTp e) (m.destTp e) s (m.destWorkers e) t)) := by
  obtain ⟨hfirst, hrows, hdiv⟩ := hcut.first
  rw [fanoutFrom_eq m e t hs hdim, hcut.indivisible]
  dsimp only
  rw [shardedDests_eq hcut hfirst hrows hdiv hs fun r hr => List.mem_range.1 hr,
    List.range_eq_range', exactDests_range' _ _ _ _ _ hfirst]

/-- Distinct workers tell the ranks apart. -/
theorem destWorker_inj {m : ShardMap} {e : Route} (hworkers : (m.destWorkers e).Nodup) {r q : ℕ}
    (hr : r < m.destTp e) (hq : q < m.destTp e) (h : m.destWorker e q = m.destWorker e r) :
    q = r := by
  have hlen : (m.destWorkers e).length = m.destTp e := destWorkersOf_length _
  rw [← hlen] at hr hq
  unfold ShardMap.destWorker at h
  rw [List.getD_eq_getElem _ _ hr, List.getD_eq_getElem _ _ hq] at h
  exact (hworkers.getElem_inj_iff).mp h

/-- A source rank sends destination rank `r`'s worker one list when it
overlaps the rank, and nothing otherwise. -/
theorem sentBy_eq_ite (m : ShardMap) (e : Route) (t : List TensorRef) {s r : ℕ}
    (hs : s < m.srcTp e) (hr : r < m.destTp e) (hdim : (m.shardDim e.signal).isSome)
    (hcut : EvenlyCut (m.srcTp e) (m.destTp e) t)
    (hworkers : (m.destWorkers e).Nodup) :
    m.sentBy e t s (m.destWorker e r) =
      if overlapsFirst (m.srcTp e) (m.destTp e) s ((t.head?.map TensorRef.dim0).getD 0) r then
        [t.map (exactCut (m.srcTp e) (m.destTp e) s r)] else [] := by
  have honly : ∀ q ∈ List.range (m.destTp e),
      ((destFor (m.srcTp e) (m.destTp e) s (m.destWorkers e) t q).worker == m.destWorker e r) =
        decide (q = r) := by
    intro q hq
    rw [Bool.eq_iff_iff, beq_iff_eq, decide_eq_true_iff]
    exact ⟨destWorker_inj hworkers hr (List.mem_range.mp hq), fun h => h ▸ rfl⟩
  unfold ShardMap.sentBy
  rw [fanoutFrom_eq_map m e t hs hdim hcut]
  dsimp only
  rw [List.filter_map, List.map_map, List.filter_filter]
  have hsplit : (List.range (m.destTp e)).filter (fun q =>
      ((fun d : FanoutDest => d.worker == m.destWorker e r) ∘
        destFor (m.srcTp e) (m.destTp e) s (m.destWorkers e) t) q &&
      overlapsFirst (m.srcTp e) (m.destTp e) s ((t.head?.map TensorRef.dim0).getD 0) q) =
      ((List.range (m.destTp e)).filter (· = r)).filter
        (overlapsFirst (m.srcTp e) (m.destTp e) s ((t.head?.map TensorRef.dim0).getD 0)) := by
    rw [List.filter_filter]
    refine List.filter_congr fun q hq => ?_
    rw [Function.comp, honly q hq, Bool.and_comm]
  rw [hsplit, List.filter_eq, List.count_eq_one_of_mem List.nodup_range (List.mem_range.mpr hr)]
  split
  · rename_i h
    simp [h, destFor]
  · rename_i h
    simp [h]

/-- The ranks `fanin` counts for destination rank `r`'s worker. -/
theorem fanin_destWorker (m : ShardMap) (e : Route) {r : ℕ} (hr : r < m.destTp e)
    (hdim : (m.shardDim e.signal).isSome) (hworkers : (m.destWorkers e).Nodup) :
    m.fanin e.signal e.src e.srcWalk e.dst e.dstWalk (m.destWorker e r) =
      ((List.range (m.srcTp e)).filter fun s =>
        overlaps (m.srcTp e) (m.destTp e) s r).length := by
  obtain ⟨d, hd⟩ := Option.isSome_iff_exists.mp hdim
  have hrank : ((m.groupOf e.dst e.dstWalk).bind fun g =>
      g.workers.findIdx? (· == m.destWorker e r)).getD 0 = r := by
    cases hg : m.groupOf e.dst e.dstWalk with
    | none =>
      have htp : m.destTp e = 1 := by rw [ShardMap.destTp, hg]; rfl
      simp only [Option.bind_none, Option.getD_none]
      omega
    | some g =>
      have hw : m.destWorkers e = g.workers := by rw [ShardMap.destWorkers, hg]; rfl
      have hlen : r < g.workers.length := by
        rw [g.bound]
        simpa [ShardMap.destTp, hg, tpSizeOf] using hr
      have hat : m.destWorker e r = g.workers[r] := by
        rw [ShardMap.destWorker, hw, List.getD_eq_getElem _ _ hlen]
      rw [hw] at hworkers
      rw [Option.bind_some, hat]
      have hfind : g.workers.findIdx? (· == g.workers[r]) = some r := by
        rw [List.findIdx?_eq_some_iff_getElem]
        refine ⟨hlen, beq_self_eq_true _, fun j hj => ?_⟩
        rw [beq_iff_eq, hworkers.getElem_inj_iff]
        omega
      rw [hfind, Option.getD_some]
  unfold ShardMap.fanin
  rw [hd]
  dsimp only
  rw [hrank]
  rfl

section Edge

variable {m : ShardMap} {e : Route} {t : List TensorRef}

/-- Rank 0 overlaps rank 0, also in 32 bits. -/
theorem overlaps_zero {srcTp destTp : ℕ} (hsrc : 0 < srcTp) (hsrc' : srcTp < 2 ^ 32)
    (hdest : 0 < destTp) (hdest' : destTp < 2 ^ 32) : overlaps srcTp destTp 0 0 = true := by
  simp only [overlaps, Nat.zero_mul, Nat.zero_add, Nat.one_mul, toU32_eq hsrc', toU32_eq hdest',
    toU32_eq (Nat.two_pow_pos 32), Bool.and_eq_true, decide_eq_true_eq]
  exact ⟨hsrc, hdest⟩

/-- Without rows in a first tensor the loop breaks at its first round. -/
theorem shardedDests_no_rows (srcTp destTp s : ℕ) (workers : List Sym) (t : List TensorRef)
    (ranks : List ℕ) : shardedDests srcTp destTp s workers t 0 ranks = [] := by
  cases ranks with
  | nil => rfl
  | cons r ranks => simp [shardedDests, toI64]

/-- Then no source rank sends anything to anyone. -/
theorem sentBy_eq_nil (hdim : (m.shardDim e.signal).isSome)
    (hfirst : (t.head?.map TensorRef.dim0).getD 0 = 0) {s : ℕ} (hs : s < m.srcTp e)
    (worker : Sym) : m.sentBy e t s worker = [] := by
  unfold ShardMap.sentBy
  rw [fanoutFrom_eq m e t hs hdim, hfirst, shardedDests_no_rows]
  cases indivisible (m.srcTp e) (m.destTp e) t <;> rfl

/-- So fan-out and fan-in agree only on an edge whose first tensor has rows. -/
theorem Agrees.first_has_rows (h : Agrees m e t) (hdim : (m.shardDim e.signal).isSome)
    (hworkers : (m.destWorkers e).Nodup) : (t.head?.map TensorRef.dim0).getD 0 ≠ 0 := by
  intro hfirst
  have hzero : 0 < m.destTp e := tpSizeOf_pos _
  have hcount := h.counted 0 hzero
  have hnobody : m.sendersTo e t 0 = [] := by
    refine List.filter_eq_nil_iff.mpr fun s hs => ?_
    rw [sentBy_eq_nil hdim hfirst (List.mem_range.mp hs)]
    simp
  rw [hnobody, fanin_destWorker m e hzero hdim hworkers] at hcount
  have hmem : 0 ∈ (List.range (m.srcTp e)).filter fun s =>
      overlaps (m.srcTp e) (m.destTp e) s 0 :=
    List.mem_filter.mpr ⟨List.mem_range.mpr (tpSizeOf_pos _),
      overlaps_zero (tpSizeOf_pos _) (tpSizeOf_lt _) hzero (tpSizeOf_lt _)⟩
  rw [List.eq_nil_of_length_eq_zero hcount.symm] at hmem
  exact absurd hmem List.not_mem_nil

/-- With rows in the first tensor a source rank sends to the destination
ranks it overlaps on the scaled coordinates. -/
theorem sentBy_eq_of_rows (hdim : (m.shardDim e.signal).isSome)
    (hcut : EvenlyCut (m.srcTp e) (m.destTp e) t) (hworkers : (m.destWorkers e).Nodup)
    {x₀ : TensorRef} (hhead : t.head? = some x₀) (hrows : 0 < x₀.dim0) {s r : ℕ}
    (hs : s < m.srcTp e) (hr : r < m.destTp e) : m.sentBy e t s (m.destWorker e r) =
      if overlapsScaled (m.srcTp e) (m.destTp e) s r then
        [t.map (exactCut (m.srcTp e) (m.destTp e) s r)] else [] := by
  have hdest : 0 < m.destTp e := tpSizeOf_pos _
  obtain ⟨-, -, hdiv⟩ := hcut x₀ (List.mem_of_mem_head? (by rw [hhead]; rfl))
  rw [sentBy_eq_ite m e t hs hr hdim hcut hworkers, hhead, Option.map_some, Option.getD_some,
    overlapsFirst_eq_overlapsScaled hrows hdest hdiv]

/-- Then everything a destination rank is sent comes from those ranks. -/
theorem sentTo_eq_of_rows (hdim : (m.shardDim e.signal).isSome)
    (hcut : EvenlyCut (m.srcTp e) (m.destTp e) t) (hworkers : (m.destWorkers e).Nodup)
    {x₀ : TensorRef} (hhead : t.head? = some x₀) (hrows : 0 < x₀.dim0) {r : ℕ}
    (hr : r < m.destTp e) : m.sentTo e t r =
      ((List.range (m.srcTp e)).filter (overlapsScaled (m.srcTp e) (m.destTp e) · r)).map
        fun s => (s, t.map (exactCut (m.srcTp e) (m.destTp e) s r)) := by
  have hstep : ∀ ranks : List ℕ, (∀ s ∈ ranks, s < m.srcTp e) →
      (ranks.flatMap fun s => (m.sentBy e t s (m.destWorker e r)).map fun ts => (s, ts)) =
        (ranks.filter (overlapsScaled (m.srcTp e) (m.destTp e) · r)).map
          fun s => (s, t.map (exactCut (m.srcTp e) (m.destTp e) s r)) := by
    intro ranks hranks
    induction ranks with
    | nil => rfl
    | cons s ranks ih =>
      rw [List.flatMap_cons, ih fun q hq => hranks q (List.mem_cons_of_mem _ hq),
        sentBy_eq_of_rows hdim hcut hworkers hhead hrows (hranks s List.mem_cons_self) hr]
      cases h : overlapsScaled (m.srcTp e) (m.destTp e) s r <;> simp [h]
  exact hstep _ fun s hs => List.mem_range.mp hs

/-- And so do as many sends as the ranks that overlap it. -/
theorem sendersTo_length (hdim : (m.shardDim e.signal).isSome)
    (hcut : EvenlyCut (m.srcTp e) (m.destTp e) t) (hworkers : (m.destWorkers e).Nodup)
    {x₀ : TensorRef} (hhead : t.head? = some x₀) (hrows : 0 < x₀.dim0) {r : ℕ}
    (hr : r < m.destTp e) : (m.sendersTo e t r).length =
      ((List.range (m.srcTp e)).filter (overlapsScaled (m.srcTp e) (m.destTp e) · r)).length := by
  refine congrArg List.length (List.filter_congr fun s hs => ?_)
  rw [sentBy_eq_of_rows hdim hcut hworkers hhead hrows (List.mem_range.mp hs) hr]
  cases overlapsScaled (m.srcTp e) (m.destTp e) s r <;> rfl

/-- In range, fan-out and fan-in of a sharded edge agree if the first tensor
has rows. -/
theorem agrees_of_inRange (hdim : (m.shardDim e.signal).isSome)
    (hcut : EvenlyCut (m.srcTp e) (m.destTp e) t) (hranks : m.srcTp e * m.destTp e < 2 ^ 32)
    (hworkers : (m.destWorkers e).Nodup) {x₀ : TensorRef} (hhead : t.head? = some x₀)
    (hrows : 0 < x₀.dim0) : Agrees m e t where
  routed := fun s hs => ⟨_, fanoutFrom_eq_map m e t hs hdim hcut⟩
  tiled := by
    intro r hr i x row hx hbytes
    obtain ⟨hsized, -, hdiv⟩ := hcut x (List.mem_of_getElem? hx)
    refine ⟨((List.range (m.srcTp e)).filter (overlapsScaled (m.srcTp e) (m.destTp e) · r)).map
      fun s => (s, clip (fun k => (k : ℤ) * x.dim0) (r * (x.dim0 * m.srcTp e).tdiv (m.destTp e))
        ((r + 1) * (x.dim0 * m.srcTp e).tdiv (m.destTp e)) s), ?_, ?_, ?_, ?_⟩
    · rw [sentTo_eq_of_rows hdim hcut hworkers hhead hrows hr]
      simp only [List.map_map]
      refine List.map_congr_left fun s _ => ?_
      simp only [Function.comp, List.getElem?_map, hx, Option.map_some, exactCut_eq_slabSlice hbytes]
    · rw [List.map_map]
      refine List.Pairwise.map _ (fun a b h => h) (List.Pairwise.filter _ ?_)
      exact List.pairwise_lt_range
    · intro cut hcut
      obtain ⟨s, -, rfl⟩ := List.mem_map.mp hcut
      exact ⟨le_max_left _ _, by simp [clip]⟩
    · have htile := tiles_destination hsized.rows_nonneg (tpSizeOf_pos _) hdiv hr
      have hper : ∀ k : ℤ, k * (x.dim0 * m.srcTp e) / m.destTp e =
          k * (x.dim0 * m.srcTp e).tdiv (m.destTp e) := by
        intro k
        rw [Int.mul_ediv_assoc _ hdiv, Int.tdiv_eq_ediv_of_dvd hdiv]
      rw [hper, hper, List.map_map]
      exact htile
  counted := by
    intro r hr
    rw [fanin_destWorker m e hr hdim hworkers, sendersTo_length hdim hcut hworkers hhead hrows hr]
    exact congrArg List.length (List.filter_congr fun s hs =>
      (overlaps_eq hranks (List.mem_range.1 hs) hr).symm)

end Edge

end Mstar.Shard
