import Mathlib.Tactic.Linarith
import Mathlib.Tactic.Ring
import Mathlib.Algebra.Order.Ring.Int
import Mstar.SpanTiling
import Mstar.Shard

/-!
# Fan-out in range

The cuts and the overlap test of a sharded signal on integers that do not
wrap. They are those of the fields as long as each tensor's rows over all
source ranks are an `i64` and the scaled rank coordinates a `u32`; then the
pieces of the source slabs tile each destination rank's rows.
-/

namespace Mstar.Shard

open SpanTiling

/-- A ref as the store hands it out: `i64` fields, and whole rows. -/
structure TensorRef.Sized (x : TensorRef) : Prop where
  /-- Rows are counted from zero. -/
  rows_nonneg : 0 ≤ x.dim0
  /-- They are an `i64`. -/
  rows_lt : x.dim0 < 2 ^ 63
  /-- So are the bytes. -/
  bytes : -2 ^ 63 ≤ x.nbytes ∧ x.nbytes < 2 ^ 63
  /-- Each row has as many bytes as every other; a scalar counts no row. -/
  whole : x.dim0 ≠ 0 → x.dim0 ∣ x.nbytes

instance (x : TensorRef) : Decidable x.Sized :=
  decidable_of_iff (0 ≤ x.dim0 ∧ x.dim0 < 2 ^ 63 ∧
    (-2 ^ 63 ≤ x.nbytes ∧ x.nbytes < 2 ^ 63) ∧ (x.dim0 ≠ 0 → x.dim0 ∣ x.nbytes))
    ⟨fun h => ⟨h.1, h.2.1, h.2.2.1, h.2.2.2⟩,
      fun h => ⟨h.rows_nonneg, h.rows_lt, h.bytes, h.whole⟩⟩

/-- The products of an edge's routing stay in the fields they are made in. -/
structure InRange (srcTp destTp : ℕ) (t : List TensorRef) : Prop where
  /-- Each tensor's rows over all source ranks, in an `i64`. -/
  rows : ∀ x ∈ t, x.dim0 * srcTp < 2 ^ 63
  /-- The scale of the rank coordinates, in a `u32`. -/
  ranks : srcTp * destTp < 2 ^ 32

/-- Tensors whose rows over all source ranks are an `i64` that the destination
ranks divide. -/
def EvenlyCut (srcTp destTp : ℕ) (t : List TensorRef) : Prop :=
  ∀ x ∈ t, x.Sized ∧ x.dim0 * srcTp < 2 ^ 63 ∧ (destTp : ℤ) ∣ x.dim0 * srcTp

/-- `sliceRows` on integers that do not wrap. -/
def exactSlice (t : TensorRef) (start stop : ℤ) : TensorRef :=
  let row := if t.dim0 = 0 then 0 else t.nbytes.tdiv t.dim0
  ⟨t.uuid, stop - start, (stop - start) * row, start * row⟩

/-- `cutFor` on integers that do not wrap. -/
def exactCut (srcTp destTp srcRank r : ℕ) (x : TensorRef) : TensorRef :=
  let perDest := (x.dim0 * srcTp).tdiv destTp
  let sStart := srcRank * x.dim0
  let sEnd := sStart + x.dim0
  let dStart := r * perDest
  let dEnd := dStart + perDest
  let lo := max sStart dStart
  let hi := min sEnd dEnd
  exactSlice x (lo - sStart) (hi - sStart)

/-- `shardedDests` on integers that do not wrap. -/
def exactDests (srcTp destTp srcRank : ℕ) (destWorkers : List Sym) (t : List TensorRef)
    (first : ℤ) : List ℕ → List FanoutDest
  | [] => []
  | r :: ranks =>
    let perDest0 := (first * srcTp).tdiv destTp
    let s0Start := srcRank * first
    let s0End := s0Start + first
    let d0Start := r * perDest0
    let d0End := d0Start + perDest0
    if s0End ≤ d0Start then []
    else if s0Start ≥ d0End then exactDests srcTp destTp srcRank destWorkers t first ranks
    else ⟨destWorkers.getD r symMax, t.map (exactCut srcTp destTp srcRank r)⟩ ::
      exactDests srcTp destTp srcRank destWorkers t first ranks

/-- `overlaps` on numbers that do not wrap. -/
def overlapsScaled (srcTp destTp s r : ℕ) : Bool :=
  s * destTp < r * srcTp + srcTp && (s + 1) * destTp > r * srcTp

/-- The ref a receiver needs for rows `span` of the logical tensor, of which
source rank `s` holds the slab of `x.dim0` rows starting at `s * x.dim0` at
`row` bytes each. -/
def slabSlice (x : TensorRef) (row : ℤ) (s : ℕ) (span : ℤ × ℤ) : TensorRef :=
  ⟨x.uuid, span.2 - span.1, (span.2 - span.1) * row, (span.1 - s * x.dim0) * row⟩

/-- The destination the loop pushes for rank `r`. -/
def destFor (srcTp destTp s : ℕ) (workers : List Sym) (t : List TensorRef) (r : ℕ) : FanoutDest :=
  ⟨workers.getD r symMax, t.map (exactCut srcTp destTp s r)⟩

/-- The loop's own test that source rank `s` overlaps destination rank `r`,
on the rows of the first tensor. -/
def overlapsFirst (srcTp destTp s : ℕ) (first : ℤ) (r : ℕ) : Bool :=
  r * (first * srcTp).tdiv destTp < s * first + first &&
    s * first < r * (first * srcTp).tdiv destTp + (first * srcTp).tdiv destTp

/-- Destination ranks start later and later, so breaking at the first one
past the source's slab leaves out only ranks that do not overlap it. -/
theorem exactDests_range' (srcTp destTp s : ℕ) (workers : List Sym) (t : List TensorRef)
    {first : ℤ} (hfirst : 0 ≤ first) (k a : ℕ) :
    exactDests srcTp destTp s workers t first (List.range' a k) =
      ((List.range' a k).filter (overlapsFirst srcTp destTp s first)).map
        (destFor srcTp destTp s workers t) := by
  have hper : 0 ≤ (first * srcTp).tdiv destTp :=
    Int.tdiv_nonneg (Int.mul_nonneg hfirst (Int.natCast_nonneg _)) (Int.natCast_nonneg _)
  induction k generalizing a with
  | zero => rfl
  | succ k ih =>
    rw [List.range'_succ, exactDests]
    split
    · rename_i hbreak
      have hnone : ∀ r ∈ a :: List.range' (a + 1) k, ¬overlapsFirst srcTp destTp s first r = true := by
        intro r hr
        have har : (a : ℤ) ≤ r := by
          rcases List.mem_cons.mp hr with rfl | hr
          · exact le_refl _
          · have := (List.mem_range'_1.mp hr).1
            omega
        have hle := Int.mul_le_mul_of_nonneg_right har hper
        simp only [overlapsFirst, Bool.and_eq_true, decide_eq_true_eq, not_and_or, not_lt]
        exact Or.inl (hbreak.trans hle)
      rw [List.filter_eq_nil_iff.mpr hnone, List.map_nil]
    · rename_i hlive
      split
      · rename_i hskip
        rw [List.filter_cons_of_neg (by simp [overlapsFirst]; omega), ih]
      · rename_i hhit
        rw [List.filter_cons_of_pos (by simp [overlapsFirst]; omega), List.map_cons, ih]
        rfl

/-- With rows in the first tensor the loop's test is the one `fanin` makes,
whatever the number of rows. -/
theorem overlapsFirst_eq_overlapsScaled {srcTp destTp s r : ℕ} {first : ℤ} (hfirst : 0 < first)
    (hdest : 0 < destTp) (hdiv : (destTp : ℤ) ∣ first * srcTp) :
    overlapsFirst srcTp destTp s first r = overlapsScaled srcTp destTp s r := by
  have hper : (first * srcTp).tdiv destTp * destTp = first * srcTp := Int.tdiv_mul_cancel hdiv
  have hd : (0 : ℤ) < destTp := by exact_mod_cast hdest
  have hstart : r * (first * srcTp).tdiv destTp < s * first + first ↔ r * srcTp < (s + 1) * destTp := by
    rw [← Int.mul_lt_mul_right hd, show r * (first * srcTp).tdiv destTp * destTp =
      first * (r * srcTp : ℕ) by rw [mul_assoc, hper]; push_cast; ring,
      show ((s : ℤ) * first + first) * destTp = first * ((s + 1) * destTp : ℕ) by push_cast; ring,
      Int.mul_lt_mul_left hfirst]
    exact Int.ofNat_lt
  have hstop : s * first < r * (first * srcTp).tdiv destTp + (first * srcTp).tdiv destTp ↔
      s * destTp < r * srcTp + srcTp := by
    rw [← Int.mul_lt_mul_right hd, show (r * (first * srcTp).tdiv destTp +
      (first * srcTp).tdiv destTp) * destTp = first * (r * srcTp + srcTp : ℕ) by
        rw [add_mul, mul_assoc, hper]; push_cast; ring,
      show (s : ℤ) * first * destTp = first * (s * destTp : ℕ) by push_cast; ring,
      Int.mul_lt_mul_left hfirst]
    exact Int.ofNat_lt
  rw [Bool.eq_iff_iff]
  simp only [overlapsFirst, overlapsScaled, Bool.and_eq_true, decide_eq_true_eq, hstart, hstop]
  exact and_comm

/-- An integer of the field is left as it is. -/
theorem toI64_eq {x : ℤ} (hlo : -2 ^ 63 ≤ x) (hhi : x < 2 ^ 63) : toI64 x = x := by
  unfold toI64
  exact Int.bmod_eq_of_le (by norm_num; omega) (by norm_num; omega)

/-- A count from zero that the field holds. -/
theorem toI64_of_nonneg {x : ℤ} (hlo : 0 ≤ x) (hhi : x < 2 ^ 63) : toI64 x = x :=
  toI64_eq (by omega) hhi

/-- A number of the field is left as it is. -/
theorem toU32_eq {n : ℕ} (h : n < 2 ^ 32) : toU32 n = n := Nat.mod_eq_of_lt h

/-- A source rank's slab lies within the rows of all ranks. -/
theorem slab_le {srcTp s : ℕ} {d : ℤ} (hd : 0 ≤ d) (hs : s < srcTp) :
    0 ≤ s * d ∧ s * d + d ≤ d * srcTp := by
  have hs' : (s : ℤ) + 1 ≤ srcTp := by exact_mod_cast hs
  refine ⟨Int.mul_nonneg (Int.natCast_nonneg _) hd, ?_⟩
  calc (s : ℤ) * d + d = d * (s + 1) := by ring
    _ ≤ d * srcTp := mul_le_mul_of_nonneg_left hs' hd

/-- So do a destination rank's rows. -/
theorem share_le {destTp r : ℕ} {n : ℤ} (hn : 0 ≤ n) (hr : r < destTp) :
    0 ≤ n.tdiv destTp ∧ 0 ≤ r * n.tdiv destTp ∧ r * n.tdiv destTp + n.tdiv destTp ≤ n := by
  have hper : 0 ≤ n.tdiv destTp := Int.tdiv_nonneg hn (Int.natCast_nonneg _)
  have hr' : (r : ℤ) + 1 ≤ destTp := by exact_mod_cast hr
  refine ⟨hper, Int.mul_nonneg (Int.natCast_nonneg _) hper, ?_⟩
  calc (r : ℤ) * n.tdiv destTp + n.tdiv destTp = (r + 1) * n.tdiv destTp := by ring
    _ ≤ destTp * n.tdiv destTp := mul_le_mul_of_nonneg_right hr' hper
    _ ≤ n := by
      rw [Int.tdiv_eq_ediv_of_nonneg hn]
      exact Int.mul_ediv_self_le (by omega)

/-- Some of a tensor's rows have no more bytes than all of them. -/
theorem rows_bytes {n d k : ℤ} (hn : -2 ^ 63 ≤ n ∧ n < 2 ^ 63) (hd : 0 < d) (hk : 0 ≤ k)
    (hkd : k ≤ d) : toI64 (k * n.tdiv d) = k * n.tdiv d := by
  have hpos : ∀ b : ℤ, 0 ≤ b → 0 ≤ k * b.tdiv d ∧ k * b.tdiv d ≤ b := by
    intro b hb
    have hrow : 0 ≤ b.tdiv d := Int.tdiv_nonneg hb hd.le
    refine ⟨Int.mul_nonneg hk hrow, ?_⟩
    calc k * b.tdiv d ≤ d * b.tdiv d := mul_le_mul_of_nonneg_right hkd hrow
      _ ≤ b := by
        rw [Int.tdiv_eq_ediv_of_nonneg hb]
        exact Int.mul_ediv_self_le hd.ne'
  rcases le_total 0 n with hle | hle
  · have h := hpos n hle
    exact toI64_eq (by omega) (by omega)
  · have h := hpos (-n) (by omega)
    rw [Int.neg_tdiv, Int.mul_neg] at h
    exact toI64_eq (by omega) (by omega)

/-- The rows taken of a tensor that has them are those asked for. -/
theorem sliceRows_eq {x : TensorRef} (hx : x.Sized) {start stop : ℤ} (hstart : 0 ≤ start)
    (hle : start ≤ stop) (hstop : stop ≤ x.dim0) : sliceRows x start stop = exactSlice x start stop := by
  have hlt := hx.rows_lt
  have hlen : toI64 (stop - start) = stop - start := toI64_of_nonneg (by omega) (by omega)
  unfold sliceRows exactSlice
  dsimp only
  rw [hlen]
  by_cases hzero : x.dim0 = 0
  · simp [hzero, toI64_eq]
  · have hpos : 0 < x.dim0 := lt_of_le_of_ne hx.rows_nonneg (Ne.symm hzero)
    rw [if_neg hzero, rows_bytes hx.bytes hpos (by omega) (by omega),
      rows_bytes hx.bytes hpos hstart (by omega)]

section InRange

variable {srcTp destTp s r : ℕ} {x : TensorRef}

/-- A cut that does not wrap, for a destination rank that the source rank
overlaps. -/
theorem cutFor_eq (hx : x.Sized) (hrows : x.dim0 * srcTp < 2 ^ 63)
    (hdiv : (destTp : ℤ) ∣ x.dim0 * srcTp) (hs : s < srcTp) (hr : r < destTp)
    (hover : overlapsScaled srcTp destTp s r = true) :
    cutFor srcTp destTp s r x = exactCut srcTp destTp s r x := by
  have hd := hx.rows_nonneg
  have hlt := hx.rows_lt
  have hslab := slab_le hd hs
  have hshare := share_le (Int.mul_nonneg hd (Int.natCast_nonneg srcTp)) hr
  have hper : (x.dim0 * srcTp).tdiv destTp * destTp = x.dim0 * srcTp := Int.tdiv_mul_cancel hdiv
  have hpos : (0 : ℤ) < destTp := by exact_mod_cast (Nat.zero_le r).trans_lt hr
  simp only [overlapsScaled, Bool.and_eq_true, decide_eq_true_eq] at hover
  have hbefore : s * x.dim0 ≤ r * (x.dim0 * srcTp).tdiv destTp + (x.dim0 * srcTp).tdiv destTp := by
    refine le_of_mul_le_mul_right ?_ hpos
    calc s * x.dim0 * destTp = x.dim0 * (s * destTp : ℕ) := by push_cast; ring
      _ ≤ x.dim0 * (r * srcTp + srcTp : ℕ) :=
        mul_le_mul_of_nonneg_left (by exact_mod_cast hover.1.le) hd
      _ = (r * (x.dim0 * srcTp).tdiv destTp + (x.dim0 * srcTp).tdiv destTp) * destTp := by
        rw [add_mul, mul_assoc, hper]; push_cast; ring
  have hafter : r * (x.dim0 * srcTp).tdiv destTp ≤ s * x.dim0 + x.dim0 := by
    refine le_of_mul_le_mul_right ?_ hpos
    calc r * (x.dim0 * srcTp).tdiv destTp * destTp = x.dim0 * (r * srcTp : ℕ) := by
          rw [mul_assoc, hper]; push_cast; ring
      _ ≤ x.dim0 * ((s + 1) * destTp : ℕ) :=
        mul_le_mul_of_nonneg_left (by exact_mod_cast hover.2.le) hd
      _ = (s * x.dim0 + x.dim0) * destTp := by push_cast; ring
  unfold cutFor exactCut
  dsimp only
  rw [toI64_of_nonneg (by omega : 0 ≤ x.dim0 * srcTp) hrows]
  generalize (x.dim0 * srcTp).tdiv destTp = per at *
  generalize (s : ℤ) * x.dim0 = slab at *
  generalize (r : ℤ) * per = share at *
  have hstart : toI64 slab = slab := toI64_of_nonneg hslab.1 (by omega)
  have hstop : toI64 (slab + x.dim0) = slab + x.dim0 := toI64_of_nonneg (by omega) (by omega)
  have hshare' : toI64 share = share := toI64_of_nonneg hshare.2.1 (by omega)
  have hend : toI64 (share + per) = share + per := toI64_of_nonneg (by omega) (by omega)
  rw [hstart, hstop, hshare', hend,
    toI64_of_nonneg (by omega : 0 ≤ max slab share - slab) (by omega),
    toI64_of_nonneg (by omega : 0 ≤ min (slab + x.dim0) (share + per) - slab) (by omega)]
  exact sliceRows_eq hx (by omega) (by omega) (by omega)

/-- The loop over destination ranks does not wrap either. -/
theorem shardedDests_eq {workers : List Sym} {t : List TensorRef} {first : ℤ}
    (ht : EvenlyCut srcTp destTp t)
    (hfirst : 0 ≤ first) (hrows : first * srcTp < 2 ^ 63) (hdiv : (destTp : ℤ) ∣ first * srcTp)
    (hs : s < srcTp) {ranks : List ℕ} (hranks : ∀ r ∈ ranks, r < destTp) :
    shardedDests srcTp destTp s workers t first ranks =
      exactDests srcTp destTp s workers t first ranks := by
  have hslab := slab_le hfirst hs
  induction ranks with
  | nil => rfl
  | cons r ranks ih =>
    have hr : r < destTp := hranks r List.mem_cons_self
    have hshare := share_le (Int.mul_nonneg hfirst (Int.natCast_nonneg srcTp)) hr
    have htotal : toI64 (first * srcTp) = first * srcTp := toI64_of_nonneg (by omega) hrows
    have hstart : toI64 (s * first) = s * first := toI64_of_nonneg hslab.1 (by omega)
    have hstop : toI64 (s * first + first) = s * first + first :=
      toI64_of_nonneg (by omega) (by omega)
    have hshare' : toI64 (r * (first * srcTp).tdiv destTp) = r * (first * srcTp).tdiv destTp :=
      toI64_of_nonneg hshare.2.1 (by omega)
    have hend : toI64 (r * (first * srcTp).tdiv destTp + (first * srcTp).tdiv destTp) =
        r * (first * srcTp).tdiv destTp + (first * srcTp).tdiv destTp :=
      toI64_of_nonneg (by omega) (by omega)
    unfold shardedDests exactDests
    dsimp only
    rw [htotal, hstart, hstop, hshare', hend, ih fun q hq => hranks q (List.mem_cons_of_mem _ hq)]
    split
    · rfl
    · rename_i hlive
      split
      · rfl
      · rename_i hhit
        -- the ranks overlap on the first tensor's rows, so they do on every tensor's
        have hpos : 0 < first := by
          by_contra hzero
          obtain rfl : first = 0 := by omega
          simp at hlive
        have hover : overlapsScaled srcTp destTp s r = true := by
          rw [← overlapsFirst_eq_overlapsScaled hpos (by omega) hdiv]
          simp only [overlapsFirst, Bool.and_eq_true, decide_eq_true_eq]
          omega
        refine congrArg (· :: _) (congrArg (FanoutDest.mk _) (List.map_congr_left fun x hx => ?_))
        obtain ⟨hsized, hxrows, hxdiv⟩ := ht x hx
        exact cutFor_eq hsized hxrows hxdiv hs hr hover

/-- In range the ranks are compared as they are. -/
theorem overlaps_eq (hranks : srcTp * destTp < 2 ^ 32) (hs : s < srcTp) (hr : r < destTp) :
    overlaps srcTp destTp s r = overlapsScaled srcTp destTp s r := by
  have hsrc : (s + 1) * destTp ≤ srcTp * destTp := Nat.mul_le_mul_right _ hs
  have hdest : (r + 1) * srcTp ≤ srcTp * destTp := by
    rw [Nat.mul_comm srcTp]
    exact Nat.mul_le_mul_right _ hr
  rw [Nat.add_mul, Nat.one_mul] at hsrc hdest
  unfold overlaps overlapsScaled
  dsimp only
  rw [toU32_eq (by omega : r * srcTp < 2 ^ 32), toU32_eq (by omega : r * srcTp + srcTp < 2 ^ 32),
    toU32_eq (by omega : s * destTp < 2 ^ 32), toU32_eq (by rw [Nat.add_mul]; omega)]

end InRange

/-- Each tensor is cut on its own rows: to the piece of the source's slab
inside the destination's rows, in bytes of that tensor. -/
theorem exactCut_eq_slabSlice {srcTp destTp s r : ℕ} {x : TensorRef} {row : ℤ}
    (hrow : x.nbytes = x.dim0 * row) :
    exactCut srcTp destTp s r x = slabSlice x row s (clip (fun k => (k : ℤ) * x.dim0)
      (r * (x.dim0 * srcTp).tdiv destTp) ((r + 1) * (x.dim0 * srcTp).tdiv destTp) s) := by
  have hend : (s : ℤ) * x.dim0 + x.dim0 = (s + 1 : ℕ) * x.dim0 := by push_cast; ring
  have hstop : (r : ℤ) * (x.dim0 * srcTp).tdiv destTp + (x.dim0 * srcTp).tdiv destTp =
      (r + 1) * (x.dim0 * srcTp).tdiv destTp := by ring
  simp only [exactCut, exactSlice, slabSlice, clip, hend, hstop]
  by_cases hz : x.dim0 = 0
  · simp [hz]
  · rw [if_neg hz, hrow, Int.mul_tdiv_cancel_left _ hz]
    simp only [TensorRef.mk.injEq, true_and, and_true]
    exact ⟨by ring, by ring⟩

/-- A destination rank's rows of a tensor are tiled by the pieces of the
source slabs whose ranks overlap it on the scaled coordinates: a slab left
out there has no row of the destination's. -/
theorem tiles_destination {srcTp destTp r : ℕ} {d : ℤ} (hd : 0 ≤ d) (hdest : 0 < destTp)
    (hdiv : (destTp : ℤ) ∣ d * srcTp) (hr : r < destTp) :
    Tiles (r * (d * srcTp).tdiv destTp) ((r + 1) * (d * srcTp).tdiv destTp)
      (((List.range srcTp).filter (overlapsScaled srcTp destTp · r)).map
        (clip (fun k => (k : ℤ) * d) (r * (d * srcTp).tdiv destTp)
          ((r + 1) * (d * srcTp).tdiv destTp))) := by
  have hper : (d * srcTp).tdiv destTp * destTp = d * srcTp := Int.tdiv_mul_cancel hdiv
  have hpos : (0 : ℤ) < destTp := by exact_mod_cast hdest
  have hnonneg : 0 ≤ (d * srcTp).tdiv destTp :=
    Int.tdiv_nonneg (Int.mul_nonneg hd (Int.natCast_nonneg _)) (Int.natCast_nonneg _)
  have hmono : Monotone fun k : ℕ => (k : ℤ) * d :=
    fun a b hab => Int.mul_le_mul_of_nonneg_right (by exact_mod_cast hab) hd
  -- both scales meet where the counts are multiplied out by `destTp`
  have hbefore : ∀ {a b : ℕ}, a * destTp ≤ b * srcTp → (a : ℤ) * d ≤ b * (d * srcTp).tdiv destTp := by
    intro a b hab
    have hab' : (a : ℤ) * destTp ≤ b * srcTp := by exact_mod_cast hab
    refine le_of_mul_le_mul_right ?_ hpos
    calc (a : ℤ) * d * destTp = d * (a * destTp) := by ring
      _ ≤ d * (b * srcTp) := mul_le_mul_of_nonneg_left hab' hd
      _ = b * (d * srcTp).tdiv destTp * destTp := by rw [mul_assoc, hper]; ring
  have hafter : ∀ {a b : ℕ}, b * srcTp ≤ a * destTp → b * (d * srcTp).tdiv destTp ≤ (a : ℤ) * d := by
    intro a b hab
    have hab' : (b : ℤ) * srcTp ≤ a * destTp := by exact_mod_cast hab
    refine le_of_mul_le_mul_right ?_ hpos
    calc b * (d * srcTp).tdiv destTp * destTp = d * (b * srcTp) := by rw [mul_assoc, hper]; ring
      _ ≤ d * (a * destTp) := mul_le_mul_of_nonneg_left hab' hd
      _ = (a : ℤ) * d * destTp := by ring
  have hsucc : ((r : ℤ) + 1) * (d * srcTp).tdiv destTp = (r + 1 : ℕ) * (d * srcTp).tdiv destTp := by
    push_cast; ring
  refine tiles_clip hmono (by nlinarith) ?_ ?_ ?_ ?_
  · simpa using Int.mul_nonneg (Int.natCast_nonneg r) hnonneg
  · rw [hsucc]
    refine hafter ?_
    rw [Nat.mul_comm srcTp]
    exact Nat.mul_le_mul_right _ hr
  · intro s hs
    simp only [overlapsScaled, Bool.and_eq_true, decide_eq_true_eq] at hs
    rw [hsucc]
    exact ⟨hbefore (by rw [Nat.add_mul, Nat.one_mul]; exact hs.1.le), hafter hs.2.le⟩
  · intro s hs
    simp only [overlapsScaled, Bool.and_eq_false_iff, decide_eq_false_iff_not, not_lt] at hs
    rw [hsucc]
    exact hs.imp (fun h => hafter (by rw [Nat.add_mul, Nat.one_mul]; exact h)) hbefore

/-- Some source rank overlaps every destination rank, so a receiver of a
sharded signal always waits for at least one arrival. -/
theorem exists_overlapsScaled {srcTp destTp r : ℕ} (hsrc : 0 < srcTp) (hr : r < destTp) :
    ∃ s < srcTp, overlapsScaled srcTp destTp s r = true := by
  have hdest : 0 < destTp := by omega
  refine ⟨r * srcTp / destTp, ?_, ?_⟩
  · exact Nat.div_lt_of_lt_mul (Nat.mul_lt_mul_of_pos_right hr hsrc)
  · have hlow := Nat.div_mul_le_self (r * srcTp) destTp
    have hhigh := Nat.lt_div_mul_add (a := r * srcTp) hdest
    simp only [overlapsScaled, Bool.and_eq_true, decide_eq_true_eq, Nat.add_mul, Nat.one_mul]
    omega

end Mstar.Shard
