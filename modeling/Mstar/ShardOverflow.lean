import Mathlib.Data.List.Perm.Subperm
import Mstar.ShardAgreement

/-!
# Fan-out out of range

Where a tensor's rows over all source ranks are no `i64`, the slab that holds
the last row before the wrap is not sent whole; where the scaled coordinates
are no `u32`, some receiver counts other ranks than those that send to it. So
fan-out and fan-in agree on exactly the edges that stay in range and whose
first tensor has rows.
-/

namespace Mstar.Shard

open SpanTiling

section Wrapped

variable {srcTp destTp s r : ℕ} {x : TensorRef}

/-- The field holds one of the values that the integer wraps to. -/
theorem toI64_wraps (x : ℤ) :
    -2 ^ 63 ≤ toI64 x ∧ toI64 x < 2 ^ 63 ∧ ∃ k : ℤ, x = toI64 x + 2 ^ 64 * k := by
  have hlow := Int.le_bmod (x := x) (m := 2 ^ 64) (by norm_num)
  have hhigh := Int.bmod_lt (x := x) (m := 2 ^ 64) (by norm_num)
  have hdiv := Int.bdiv_add_bmod x (2 ^ 64)
  unfold toI64
  norm_num at hlow hhigh hdiv ⊢
  exact ⟨by omega, by omega, Int.bdiv x 18446744073709551616, by omega⟩

/-- An integer past the field comes out one turn lower. -/
theorem toI64_of_past {x : ℤ} (hlo : 2 ^ 63 ≤ x) (hhi : x < 2 ^ 64 + 2 ^ 63) :
    toI64 x = x - 2 ^ 64 := by
  have h := toI64_wraps x
  omega

/-- The rows of a cut, whatever wraps on the way. -/
theorem cutFor_dim0 (srcTp destTp s r : ℕ) (x : TensorRef) :
    (cutFor srcTp destTp s r x).dim0 =
      toI64 (min (toI64 (toI64 (s * x.dim0) + x.dim0))
          (toI64 (toI64 (r * (toI64 (x.dim0 * srcTp)).tdiv destTp) +
            (toI64 (x.dim0 * srcTp)).tdiv destTp)) -
        max (toI64 (s * x.dim0)) (toI64 (r * (toI64 (x.dim0 * srcTp)).tdiv destTp))) := by
  unfold cutFor sliceRows
  dsimp only
  generalize toI64 (s * x.dim0) = slab
  unfold toI64
  rw [Int.sub_bmod_bmod, Int.bmod_sub_bmod]
  congr 1
  ring

/-- Each source rank sends each destination rank at least the rows they
share. -/
def Covers (srcTp destTp : ℕ) (x : TensorRef) : Prop :=
  ∀ s < srcTp, ∀ r < destTp, ∀ j k : ℤ, s * x.dim0 ≤ j → j ≤ k → k < s * x.dim0 + x.dim0 →
    r * (x.dim0 * srcTp / destTp) ≤ j →
      k < r * (x.dim0 * srcTp / destTp) + x.dim0 * srcTp / destTp →
        k - j < (cutFor srcTp destTp s r x).dim0

/-- A destination rank's share is no smaller than the source's slab, as the
fields have it, if the first rows are sent. -/
theorem Covers.slab_le_share (h : Covers srcTp destTp x) (hpos : 0 < x.dim0)
    (hlt : x.dim0 < 2 ^ 63) (hsrc : 0 < srcTp) (hdest : 0 < destTp)
    (hdiv : (destTp : ℤ) ∣ x.dim0 * srcTp) (hcheck : (destTp : ℤ) ∣ toI64 (x.dim0 * srcTp))
    (hover : 2 ^ 63 ≤ x.dim0 * srcTp) :
    x.dim0 ≤ (toI64 (x.dim0 * srcTp)).tdiv destTp := by
  obtain ⟨hlow, hhigh, -⟩ := toI64_wraps (x.dim0 * srcTp)
  have hD : (0 : ℤ) < destTp := by exact_mod_cast hdest
  have hper := Int.tdiv_mul_cancel hcheck
  have hshare := Int.ediv_mul_cancel hdiv
  have hcover := h 0 hsrc 0 hdest 0
  have hcut := cutFor_dim0 srcTp destTp 0 0 x
  generalize (toI64 (x.dim0 * srcTp)).tdiv destTp = per at *
  generalize x.dim0 * srcTp / destTp = share at *
  have hshare_pos : 0 < share := by
    by_contra hle
    have := Int.mul_nonpos_of_nonpos_of_nonneg (not_lt.1 hle) hD.le
    omega
  have hper_lt : per < share := by
    refine lt_of_mul_lt_mul_right ?_ hD.le
    omega
  have hper_low : -2 ^ 63 ≤ per := by
    by_contra hle
    have : per * destTp ≤ per * 1 := Int.mul_le_mul_of_nonpos_left (by omega) (by omega)
    omega
  have hper_high : per < 2 ^ 63 := by
    by_contra hle
    have : per * 1 ≤ per * destTp := Int.mul_le_mul_of_nonneg_left (by omega) (by omega)
    omega
  have hzero : toI64 0 = 0 := rfl
  simp only [Nat.cast_zero, Int.zero_mul, hzero, Int.zero_add, max_self, Int.sub_zero,
    toI64_of_nonneg hpos.le hlt, toI64_eq hper_low hper_high] at hcut hcover
  have hrows := hcover (min x.dim0 share - 1) le_rfl (by omega) (by omega) le_rfl (by omega)
  rw [hcut, toI64_eq (by omega) (by omega)] at hrows
  omega

/-- Each row belongs to some rank. -/
theorem exists_share {n : ℕ} {share j : ℤ} (hshare : 0 < share) (hj : 0 ≤ j)
    (hlt : j < share * n) : ∃ r < n, r * share ≤ j ∧ j < r * share + share := by
  obtain ⟨r, hr⟩ : ∃ r : ℕ, j / share = (r : ℤ) :=
    Int.eq_ofNat_of_zero_le (Int.ediv_nonneg hj hshare.le)
  have hrank : j / share < n := Int.ediv_lt_of_lt_mul hshare (by rw [Int.mul_comm]; exact hlt)
  have hnext := Int.lt_ediv_add_one_mul_self j hshare
  rw [hr] at hrank
  rw [hr, Int.add_mul, Int.one_mul] at hnext
  exact ⟨r, by exact_mod_cast hrank, hr ▸ Int.ediv_mul_le _ hshare.ne', hnext⟩

/-- The rows cut of a slab that ends one turn of the field or less after it. -/
theorem cutFor_turned {per : ℤ} (hper : (toI64 (x.dim0 * srcTp)).tdiv destTp = per)
    (hlt : x.dim0 < 2 ^ 63) (hslab : x.dim0 ≤ per) (htotal : per * destTp < 2 ^ 63)
    (hbefore : s * x.dim0 < 2 ^ 64) (hafter : 2 ^ 64 ≤ s * x.dim0 + x.dim0) (hr : r < destTp) :
    (cutFor srcTp destTp s r x).dim0 = s * x.dim0 + x.dim0 - 2 ^ 64 - r * per := by
  have hr' : (r : ℤ) + 1 ≤ destTp := by exact_mod_cast hr
  have hnext : (r : ℤ) * per + per ≤ per * destTp := by
    calc (r : ℤ) * per + per = per * (r + 1) := by ring
      _ ≤ per * destTp := mul_le_mul_of_nonneg_left hr' (by omega)
  have hrank : 0 ≤ (r : ℤ) * per := Int.mul_nonneg (Int.natCast_nonneg _) (by omega)
  have hstart : toI64 (s * x.dim0) = s * x.dim0 - 2 ^ 64 := toI64_of_past (by omega) (by omega)
  have hstop : toI64 (s * x.dim0 - 2 ^ 64 + x.dim0) = s * x.dim0 - 2 ^ 64 + x.dim0 :=
    toI64_eq (by omega) (by omega)
  have hend : toI64 (r * per + per) = r * per + per := toI64_of_nonneg (by omega) (by omega)
  have hmin : min (s * x.dim0 - 2 ^ 64 + x.dim0) (r * per + per) = s * x.dim0 - 2 ^ 64 + x.dim0 :=
    min_eq_left (by omega)
  have hmax : max (s * x.dim0 - 2 ^ 64) (r * per) = r * per := max_eq_right (by omega)
  rw [cutFor_dim0, hper, hstart, hstop, toI64_of_nonneg hrank (by omega), hend, hmin, hmax,
    toI64_eq (by omega) (by omega)]
  ring

/-- A tensor of which each source rank sends what it shares with each
destination rank has no more rows than an `i64` counts. -/
theorem Covers.rows_lt (h : Covers srcTp destTp x) (hx : x.Sized) (hsrc : 0 < srcTp)
    (hdest : 0 < destTp) (hdiv : (destTp : ℤ) ∣ x.dim0 * srcTp)
    (hcheck : (destTp : ℤ) ∣ toI64 (x.dim0 * srcTp)) : x.dim0 * srcTp < 2 ^ 63 := by
  by_contra hover
  rw [not_lt] at hover
  have hD : (0 : ℤ) < destTp := by exact_mod_cast hdest
  have hd := hx.rows_nonneg
  have hlt := hx.rows_lt
  have hpos : 0 < x.dim0 := by
    by_contra hzero
    have := Int.mul_nonpos_of_nonpos_of_nonneg (not_lt.1 hzero) (Int.natCast_nonneg srcTp)
    omega
  obtain ⟨-, hhigh, turns, hturns⟩ := toI64_wraps (x.dim0 * srcTp)
  have hslab := h.slab_le_share hpos hlt hsrc hdest hdiv hcheck hover
  have hper := Int.tdiv_mul_cancel hcheck
  have hshare := Int.ediv_mul_cancel hdiv
  generalize hP : (toI64 (x.dim0 * srcTp)).tdiv destTp = per at *
  have hper_pos : 0 < per * destTp := Int.mul_pos (by omega) hD
  -- the slab that holds the last row before a full turn
  obtain ⟨s, hslt, hbefore, hafter⟩ : ∃ s < srcTp, s * x.dim0 ≤ 2 ^ 64 - 1 ∧
      (2 ^ 64 - 1 : ℤ) < s * x.dim0 + x.dim0 :=
    exists_share hpos (by norm_num) (by omega)
  -- of which only destination rank 0 gets any row
  have hrows : ∀ r < destTp, (cutFor srcTp destTp s r x).dim0 =
      s * x.dim0 + x.dim0 - 2 ^ 64 - r * per := fun r hr =>
    cutFor_turned hP hlt hslab (by omega) (by omega) (by omega) hr
  have hslab_nonneg : 0 ≤ s * x.dim0 := Int.mul_nonneg (Int.natCast_nonneg s) hd
  have hfirst : ∀ j : ℤ, s * x.dim0 ≤ j → j < s * x.dim0 + x.dim0 →
      j < x.dim0 * srcTp / destTp := by
    intro j hj hj'
    have htotal := (slab_le hd hslt).2
    have hshare_pos : 0 < x.dim0 * srcTp / destTp := by
      by_contra hle
      have := Int.mul_nonpos_of_nonpos_of_nonneg (not_lt.1 hle) hD.le
      omega
    obtain ⟨r, hrlt, hlo, hhi⟩ := exists_share hshare_pos (n := destTp) (hslab_nonneg.trans hj)
      (by omega)
    have hcover := h s hslt r hrlt j j hj le_rfl hj' hlo hhi
    rw [hrows r hrlt] at hcover
    cases r with
    | zero => simpa using hhi
    | succ r =>
      have : per ≤ ((r + 1 : ℕ) : ℤ) * per :=
        le_mul_of_one_le_left (by omega) (by push_cast; omega)
      omega
  -- and rank 0 does not get all of them
  have hlast : s * x.dim0 + x.dim0 - 1 < x.dim0 * srcTp / destTp := by
    refine hfirst (s * x.dim0 + x.dim0 - 1) ?_ ?_
    all_goals omega
  have hall := h s hslt 0 hdest (s * x.dim0) (s * x.dim0 + x.dim0 - 1) le_rfl (by omega) (by omega)
    (by simpa using hslab_nonneg) (by simpa using hlast)
  rw [hrows 0 hdest] at hall
  simp only [Nat.cast_zero, Int.zero_mul] at hall
  omega

end Wrapped

section Ranks

variable {srcTp destTp : ℕ}

/-- How many source ranks a receiver waits for, as `fanin` counts them. -/
def waited (srcTp destTp r : ℕ) : ℕ :=
  ((List.range srcTp).filter (overlaps srcTp destTp · r)).length

/-- How many source ranks it shares rows with. -/
def sharing (srcTp destTp r : ℕ) : ℕ :=
  ((List.range srcTp).filter (overlapsScaled srcTp destTp · r)).length

/-- Distinct ranks that pass a test are no more than those counted. -/
theorem length_le_count {n : ℕ} {p : ℕ → Bool} {l : List ℕ} (hl : l.Nodup)
    (h : ∀ s ∈ l, s < n ∧ p s = true) : l.length ≤ ((List.range n).filter p).length := by
  refine (List.subperm_of_subset hl fun s hs => ?_).length_le
  exact List.mem_filter.2 ⟨List.mem_range.2 (h s hs).1, (h s hs).2⟩

/-- Ranks that pass a test only below a bound are no more than the bound. -/
theorem count_le {n k : ℕ} {p : ℕ → Bool} (h : ∀ s < n, p s = true → s < k) :
    ((List.range n).filter p).length ≤ k := by
  have hsub : (List.range n).filter p ⊆ List.range k := by
    intro s hs
    obtain ⟨hmem, hp⟩ := List.mem_filter.1 hs
    exact List.mem_range.2 (h s (List.mem_range.1 hmem) hp)
  have hle := (List.subperm_of_subset (List.nodup_range.filter p) hsub).length_le
  rwa [List.length_range] at hle

/-- Some source rank shares rows with each destination rank. -/
theorem sharing_pos {r : ℕ} (hsrc : 0 < srcTp) (hr : r < destTp) : 0 < sharing srcTp destTp r := by
  obtain ⟨s, hs, hover⟩ := exists_overlapsScaled hsrc hr
  exact List.length_pos_of_mem (List.mem_filter.2 ⟨List.mem_range.2 hs, hover⟩)

/-- The test of destination rank 0. -/
theorem overlaps_first {s : ℕ} (hsrc : srcTp < 2 ^ 32) : overlaps srcTp destTp s 0 = true ↔
    s * destTp % 2 ^ 32 < srcTp ∧ 0 < (s * destTp + destTp) % 2 ^ 32 := by
  simp only [overlaps, toU32, Nat.zero_mul, Nat.zero_mod, Nat.zero_add, Nat.mod_eq_of_lt hsrc,
    Bool.and_eq_true, decide_eq_true_eq, Nat.add_mul, Nat.one_mul]

/-- The test of the destination rank whose coordinates the field cuts off. -/
theorem overlaps_cut {r s : ℕ} (hsrc : srcTp < 2 ^ 32) (hlo : r * srcTp < 2 ^ 32)
    (hhi : 2 ^ 32 ≤ r * srcTp + srcTp) : overlaps srcTp destTp s r = true ↔
      s * destTp % 2 ^ 32 < r * srcTp + srcTp - 2 ^ 32 ∧
        r * srcTp < (s * destTp + destTp) % 2 ^ 32 := by
  have hwrap : (r * srcTp + srcTp) % 2 ^ 32 = r * srcTp + srcTp - 2 ^ 32 := by omega
  simp only [overlaps, toU32, Nat.mod_eq_of_lt hlo, hwrap, Bool.and_eq_true, decide_eq_true_eq,
    Nat.add_mul, Nat.one_mul]

/-- A destination rank whose coordinates the field cuts off. -/
theorem exists_cut (hsrc : 0 < srcTp) (hover : 2 ^ 32 ≤ srcTp * destTp) :
    ∃ r < destTp, r * srcTp < 2 ^ 32 ∧ 2 ^ 32 ≤ r * srcTp + srcTp := by
  refine ⟨(2 ^ 32 - 1) / srcTp, ?_, ?_, ?_⟩
  · refine Nat.div_lt_of_lt_mul ?_
    omega
  · have := Nat.div_mul_le_self (2 ^ 32 - 1) srcTp
    omega
  · have := Nat.lt_div_mul_add (a := 2 ^ 32 - 1) hsrc
    omega

/-- A rank for which nobody is counted waits for fewer than share rows with it. -/
theorem waited_of_nobody {r : ℕ} (hsrc : 0 < srcTp) (hr : r < destTp)
    (hnobody : ∀ s < srcTp, overlaps srcTp destTp s r ≠ true) :
    waited srcTp destTp r ≠ sharing srcTp destTp r := by
  have hnone : waited srcTp destTp r ≤ 0 := count_le fun s hs hover =>
    absurd hover (hnobody s hs)
  have hsome := sharing_pos hsrc hr
  omega

/-- Groups that together have no more ranks than the field has values: nobody
is counted for the rank that is cut off. -/
theorem waited_of_few (hsrc : 0 < srcTp) (hsrc' : srcTp < 2 ^ 32)
    (hover : 2 ^ 32 ≤ srcTp * destTp) (hfew : srcTp + destTp < 2 ^ 32 + 2) :
    ∃ r < destTp, waited srcTp destTp r ≠ sharing srcTp destTp r := by
  obtain ⟨r, hr, hlo, hhi⟩ := exists_cut hsrc hover
  refine ⟨r, hr, waited_of_nobody hsrc hr fun s _ => ?_⟩
  rw [Ne, overlaps_cut hsrc' hlo hhi]
  omega

/-- A source group with more ranks than the destination's: rank 0 counts, past
the ranks it shares rows with, one that comes round to it. -/
theorem waited_of_more (hsrc' : srcTp < 2 ^ 32) (hdest : 0 < destTp) (hmore : destTp < srcTp)
    (hmany : 2 ^ 32 + 2 ≤ srcTp + destTp) : waited srcTp destTp 0 ≠ sharing srcTp destTp 0 := by
  -- the ranks that share rows with rank 0 are those below `k`
  obtain ⟨k, hk⟩ : ∃ k, (srcTp - 1) / destTp = k := ⟨_, rfl⟩
  have hbelow : k * destTp ≤ srcTp - 1 := hk ▸ Nat.div_mul_le_self _ _
  have habove : srcTp - 1 < k * destTp + destTp := hk ▸ Nat.lt_div_mul_add hdest
  have hthree : k * 3 ≤ k * destTp := Nat.mul_le_mul_left k (by omega)
  have hshared : sharing srcTp destTp 0 ≤ k + 1 := count_le fun s _ hs => by
    simp only [overlapsScaled, Nat.zero_mul, Nat.zero_add, Bool.and_eq_true,
      decide_eq_true_eq] at hs
    by_contra hle
    have : (k + 1) * destTp ≤ s * destTp := Nat.mul_le_mul_right _ (by omega)
    rw [Nat.add_mul, Nat.one_mul] at this
    omega
  have hlow : ∀ s < k, s * destTp + destTp ≤ k * destTp := by
    intro s hs
    have := Nat.mul_le_mul_right destTp hs
    rwa [Nat.succ_mul] at this
  have hcounted : ∀ l : List ℕ, l.Nodup → (∀ s ∈ l, k ≤ s ∧ s < srcTp ∧
      s * destTp % 2 ^ 32 < srcTp ∧ 0 < (s * destTp + destTp) % 2 ^ 32) →
        k + l.length ≤ waited srcTp destTp 0 := by
    intro l hl hall
    have hle := length_le_count (n := srcTp) (p := (overlaps srcTp destTp · 0))
      (l := List.range k ++ l) ?_ ?_
    · rwa [List.length_append, List.length_range] at hle
    · refine List.nodup_append.2 ⟨List.nodup_range, hl, fun s hs q hq heq => ?_⟩
      have := (hall q hq).1
      have := List.mem_range.1 hs
      omega
    · intro s hs
      rw [overlaps_first hsrc']
      rcases List.mem_append.1 hs with hs | hs
      · have := hlow s (List.mem_range.1 hs)
        have := List.mem_range.1 hs
        omega
      · exact (hall s hs).2
  have htwo : ∀ s q, k ≤ s → s < q → q ≤ k + 3 →
      (s * destTp % 2 ^ 32 < srcTp ∧ 0 < (s * destTp + destTp) % 2 ^ 32) →
        (q * destTp % 2 ^ 32 < srcTp ∧ 0 < (q * destTp + destTp) % 2 ^ 32) →
          waited srcTp destTp 0 ≠ sharing srcTp destTp 0 := by
    intro s q hks hsq hqk hs hq
    have hle := hcounted [s, q] (by simp; omega) (by
      intro x hx
      rcases List.mem_pair.1 hx with rfl | rfl
      · exact ⟨hks, by omega, hs⟩
      · exact ⟨by omega, by omega, hq⟩)
    simp only [List.length_cons, List.length_nil] at hle
    omega
  have hnext : (k + 1) * destTp = k * destTp + destTp ∧
      (k + 2) * destTp = k * destTp + 2 * destTp ∧ (k + 3) * destTp = k * destTp + 3 * destTp := by
    refine ⟨?_, ?_, ?_⟩ <;> ring
  obtain ⟨h1, h2, h3⟩ := hnext
  -- two ranks from `k` on are counted besides, depending on where a turn of the field ends
  rcases lt_trichotomy (k * destTp + destTp) (2 ^ 32) with hlt | heq | hgt
  · by_cases hturn : k * destTp + 3 * destTp = 2 ^ 33
    · exact htwo k (k + 3) le_rfl (by omega) (by omega) (by omega) (by omega)
    · have hres : (k + 2) * destTp % 2 ^ 32 = k * destTp + 2 * destTp - 2 ^ 32 := by
        rw [h2]
        omega
      exact htwo k (k + 2) le_rfl (by omega) (by omega) (by omega) (by rw [hres]; omega)
  · by_cases hturn : 2 * destTp = 2 ^ 32
    · exact htwo (k + 1) (k + 3) (by omega) (by omega) (by omega) (by omega) (by omega)
    · exact htwo (k + 1) (k + 2) (by omega) (by omega) (by omega) (by omega) (by omega)
  · by_cases hturn : k * destTp + 2 * destTp = 2 ^ 33
    · exact htwo k (k + 2) le_rfl (by omega) (by omega) (by omega) (by omega)
    · have hres : (k + 1) * destTp % 2 ^ 32 = k * destTp + destTp - 2 ^ 32 := by
        rw [h1]
        omega
      exact htwo k (k + 1) le_rfl (by omega) (by omega) (by omega) (by rw [hres]; omega)

/-- A source rank lies its own multiple of what a destination rank lacks before
the end of a turn. -/
theorem mul_add_lack {c : ℕ} (hc : destTp + c = 2 ^ 32) (s : ℕ) :
    s * destTp + s * c = 2 ^ 32 * s := by
  rw [← Nat.mul_add, hc, Nat.mul_comm]

/-- If no source rank comes round to rank 0, the rank that the field cuts off
counts one too few: source rank 0 at most. -/
theorem waited_of_cut {c : ℕ} (hsrc : 0 < srcTp) (hc : destTp + c = 2 ^ 32) (hcpos : 0 < c)
    (hless : srcTp ≤ destTp) (hover : 2 ^ 32 ≤ srcTp * destTp)
    (hmany : 2 ^ 32 + 2 ≤ srcTp + destTp) (hsmall : (srcTp - 1) * c ≤ 2 ^ 32 - srcTp) :
    ∃ r < destTp, waited srcTp destTp r ≠ sharing srcTp destTp r := by
  have hsrc' : srcTp < 2 ^ 32 := by omega
  obtain ⟨r, hr, hlo, hhi⟩ := exists_cut hsrc hover
  refine ⟨r, hr, ?_⟩
  have honly : ∀ s < srcTp, overlaps srcTp destTp s r = true → s = 0 ∧ r * srcTp < destTp := by
    intro s hs hover
    rw [overlaps_cut hsrc' hlo hhi] at hover
    by_cases hzero : s = 0
    · subst hzero
      omega
    · have hle : s * c ≤ (srcTp - 1) * c := Nat.mul_le_mul_right _ (by omega)
      have hpos : 0 < s * c := Nat.mul_pos (by omega) hcpos
      have hturn := mul_add_lack hc s
      omega
  by_cases hfirst : r * srcTp < destTp
  · have hle : waited srcTp destTp r ≤ 1 := count_le fun s hs hover => by
      have := (honly s hs hover).1
      omega
    have htwo : 2 ≤ sharing srcTp destTp r := by
      refine length_le_count (l := [0, 1]) (by simp) fun s hs => ?_
      simp only [overlapsScaled, Bool.and_eq_true, decide_eq_true_eq]
      rcases List.mem_pair.1 hs with rfl | rfl
      · exact ⟨hsrc, by omega, by omega⟩
      · exact ⟨by omega, by omega, by omega⟩
    omega
  · have hle : waited srcTp destTp r ≤ 0 := count_le fun s hs hover => by
      have := (honly s hs hover).2
      omega
    have hsome := sharing_pos hsrc hr
    omega

/-- Ranks whose coordinates end where the field does: nobody is counted for
the last one. -/
theorem waited_of_end {c : ℕ} (hsrc : 0 < srcTp) (hsrc' : srcTp < 2 ^ 32)
    (hover : 2 ^ 32 ≤ srcTp * destTp) (hend : 2 ^ 32 = srcTp * c) :
    ∃ r < destTp, waited srcTp destTp r ≠ sharing srcTp destTp r := by
  obtain ⟨r, hr, hlo, hhi⟩ := exists_cut hsrc hover
  have hlt : r < c := lt_of_mul_lt_mul_right (a := srcTp) (by rw [Nat.mul_comm c]; omega) (by omega)
  have hle : (r + 1) * srcTp ≤ c * srcTp := Nat.mul_le_mul_right _ hlt
  rw [Nat.add_mul, Nat.one_mul, Nat.mul_comm c] at hle
  refine ⟨r, hr, waited_of_nobody hsrc hr fun s _ => ?_⟩
  rw [Ne, overlaps_cut hsrc' hlo hhi]
  omega

/-- If some source rank comes round to rank 0, that counts one too many. -/
theorem waited_of_round {s : ℕ} (hdest' : destTp < 2 ^ 32) (hless : srcTp ≤ destTp)
    (hs : 0 < s) (hlt : s < srcTp) (hin : s * destTp % 2 ^ 32 < srcTp)
    (hnext : 0 < (s * destTp + destTp) % 2 ^ 32) :
    waited srcTp destTp 0 ≠ sharing srcTp destTp 0 := by
  have hsrc' : srcTp < 2 ^ 32 := by omega
  have hshared : sharing srcTp destTp 0 ≤ 1 := count_le fun q _ hq => by
    simp only [overlapsScaled, Nat.zero_mul, Nat.zero_add, Bool.and_eq_true,
      decide_eq_true_eq] at hq
    by_contra hle
    have : 1 * destTp ≤ q * destTp := Nat.mul_le_mul_right _ (by omega)
    omega
  have htwo : 2 ≤ waited srcTp destTp 0 := by
    refine length_le_count (l := [0, s]) (by simp; omega) fun q hq => ?_
    rw [overlaps_first hsrc']
    rcases List.mem_pair.1 hq with rfl | rfl
    · exact ⟨by omega, by omega, by omega⟩
    · exact ⟨hlt, hin, hnext⟩
  omega

/-- A source group with no more ranks than the destination's: one of the
three. -/
theorem waited_of_fewer (hsrc : 0 < srcTp) (hdest' : destTp < 2 ^ 32) (hless : srcTp ≤ destTp)
    (hover : 2 ^ 32 ≤ srcTp * destTp) (hmany : 2 ^ 32 + 2 ≤ srcTp + destTp) :
    ∃ r < destTp, waited srcTp destTp r ≠ sharing srcTp destTp r := by
  have hsrc' : srcTp < 2 ^ 32 := by omega
  obtain ⟨c, hc⟩ : ∃ c, destTp + c = 2 ^ 32 := ⟨2 ^ 32 - destTp, by omega⟩
  have hcpos : 0 < c := by omega
  by_cases hsmall : (srcTp - 1) * c ≤ 2 ^ 32 - srcTp
  · exact waited_of_cut hsrc hc hcpos hless hover hmany hsmall
  · -- source rank `k + 1` is the first to come round to rank 0
    obtain ⟨k, hk⟩ : ∃ k, (2 ^ 32 - srcTp) / c = k := ⟨_, rfl⟩
    have hbelow : k * c ≤ 2 ^ 32 - srcTp := hk ▸ Nat.div_mul_le_self _ _
    have habove : 2 ^ 32 - srcTp < k * c + c := hk ▸ Nat.lt_div_mul_add hcpos
    have hklt : k + 1 < srcTp := by
      by_contra hle
      have : (srcTp - 1) * c ≤ k * c := Nat.mul_le_mul_right _ (by omega)
      omega
    have hturn := mul_add_lack hc (k + 1)
    have hturn' := mul_add_lack hc (k + 2)
    have hnext : (k + 1) * c = k * c + c ∧ (k + 2) * c = k * c + 2 * c := by
      constructor <;> ring
    obtain ⟨hnext, hnext'⟩ := hnext
    by_cases hend : 2 ^ 32 = (k + 2) * c
    · by_cases hlast : k + 2 < srcTp
      · exact ⟨0, by omega, waited_of_round hdest' hless (by omega) hlast (by omega) (by omega)⟩
      · obtain rfl : srcTp = k + 2 := by omega
        exact waited_of_end hsrc hsrc' hover hend
    · exact ⟨0, by omega, waited_of_round hdest' hless (by omega) hklt (by omega) (by omega)⟩

/-- Every receiver waits for as many source ranks as it shares rows with only
where the scaled coordinates are a `u32`. -/
theorem ranks_lt (hsrc : 0 < srcTp) (hsrc' : srcTp < 2 ^ 32) (hdest : 0 < destTp)
    (hdest' : destTp < 2 ^ 32)
    (h : ∀ r < destTp, sharing srcTp destTp r = waited srcTp destTp r) :
    srcTp * destTp < 2 ^ 32 := by
  by_contra hover
  rw [not_lt] at hover
  obtain ⟨r, hr, hne⟩ : ∃ r < destTp, waited srcTp destTp r ≠ sharing srcTp destTp r := by
    rcases lt_or_ge (srcTp + destTp) (2 ^ 32 + 2) with hfew | hmany
    · exact waited_of_few hsrc hsrc' hover hfew
    · rcases lt_or_ge destTp srcTp with hmore | hless
      · exact ⟨0, hdest, waited_of_more hsrc' hdest hmore hmany⟩
      · exact waited_of_fewer hsrc hdest' hless hover hmany
  exact hne (h r hr).symm

end Ranks

section Edge

variable {m : ShardMap} {e : Route} {t : List TensorRef}

/-- A source rank that is not refused sends a destination rank's worker the
cuts for that rank and nothing else. -/
theorem sentBy_cut (hdim : (m.shardDim e.signal).isSome) (hworkers : (m.destWorkers e).Nodup)
    {s r : ℕ} (hs : s < m.srcTp e) (hr : r < m.destTp e) {ts : List TensorRef}
    (hts : ts ∈ m.sentBy e t s (m.destWorker e r)) :
    ts = t.map (cutFor (m.srcTp e) (m.destTp e) s r) := by
  have hdests : ∀ ranks : List ℕ, ∀ first d, (∀ q ∈ ranks, q < m.destTp e) →
      d ∈ shardedDests (m.srcTp e) (m.destTp e) s (m.destWorkers e) t first ranks →
        d.worker = m.destWorker e r →
          d.tensors = t.map (cutFor (m.srcTp e) (m.destTp e) s r) := by
    intro ranks first d hranks hd hworker
    induction ranks with
    | nil => exact absurd hd List.not_mem_nil
    | cons q ranks ih =>
      have hrest := fun hd => ih (fun p hp => hranks p (List.mem_cons_of_mem _ hp)) hd
      unfold shardedDests at hd
      dsimp only at hd
      split at hd
      · exact absurd hd List.not_mem_nil
      · split at hd
        · exact hrest hd
        · rcases List.mem_cons.1 hd with rfl | hd
          · obtain rfl : q = r := destWorker_inj hworkers hr (hranks q List.mem_cons_self) hworker
            rfl
          · exact hrest hd
  unfold ShardMap.sentBy at hts
  rw [fanoutFrom_eq m e t hs hdim] at hts
  cases hcheck : indivisible (m.srcTp e) (m.destTp e) t with
  | some error => simp [hcheck] at hts
  | none =>
    rw [hcheck] at hts
    dsimp only at hts
    obtain ⟨d, hd, rfl⟩ := List.mem_map.1 hts
    obtain ⟨hd, hworker⟩ := List.mem_filter.1 hd
    exact hdests _ _ d (fun q hq => List.mem_range.1 hq) hd (beq_iff_eq.1 hworker)

/-- Slabs do not meet: a row is in one of them. -/
theorem slab_unique {d j : ℤ} {s q : ℕ} (hs : s * d ≤ j ∧ j < s * d + d)
    (hq : q * d ≤ j ∧ j < q * d + d) : q = s := by
  have hd : 0 < d := by omega
  have h1 : (q : ℤ) < s + 1 := by
    refine lt_of_mul_lt_mul_right (a := d) ?_ hd.le
    rw [Int.add_mul, Int.one_mul]
    omega
  have h2 : (s : ℤ) < q + 1 := by
    refine lt_of_mul_lt_mul_right (a := d) ?_ hd.le
    rw [Int.add_mul, Int.one_mul]
    omega
  omega

/-- Where fan-out and fan-in agree, each source rank sends each destination
rank the rows they share. -/
theorem Agrees.covers (h : Agrees m e t) (hdim : (m.shardDim e.signal).isSome)
    (hworkers : (m.destWorkers e).Nodup) {x : TensorRef} (hx : x ∈ t) (hsized : x.Sized)
    (hdiv : (m.destTp e : ℤ) ∣ x.dim0 * m.srcTp e) : Covers (m.srcTp e) (m.destTp e) x := by
  intro s hs r hr j k hj hjk hk hjr hkr
  obtain ⟨i, hi⟩ := List.mem_iff_getElem?.1 hx
  obtain ⟨row, hrow⟩ := hsized.whole (by omega)
  obtain ⟨spans, hsent, hsorted, hown, htiles⟩ := h.tiled r hr i x row hi hrow
  rw [Int.mul_ediv_assoc _ hdiv, Int.mul_ediv_assoc _ hdiv, Int.add_mul, Int.one_mul] at htiles
  -- the span of `s` that covers a row of both
  have hspan : ∀ row : ℤ, s * x.dim0 ≤ row → row < s * x.dim0 + x.dim0 →
      r * (x.dim0 * m.srcTp e / m.destTp e) ≤ row →
        row < r * (x.dim0 * m.srcTp e / m.destTp e) + x.dim0 * m.srcTp e / m.destTp e →
          ∃ cut ∈ spans, cut.1 = s ∧ cut.2.1 ≤ row ∧ row < cut.2.2 := by
    intro row hlo hhi hrlo hrhi
    obtain ⟨span, hmem, hcover⟩ := htiles.exists_mem hrlo hrhi
    obtain ⟨cut, hcut, rfl⟩ := List.mem_map.1 hmem
    obtain ⟨hstart, hstop⟩ := hown cut hcut
    rw [Int.add_mul, Int.one_mul] at hstop
    exact ⟨cut, hcut, slab_unique ⟨hlo, hhi⟩ ⟨by omega, by omega⟩, hcover⟩
  obtain ⟨cut, hcut, hcuts, hlo, -⟩ := hspan j hj (by omega) hjr (by omega)
  obtain ⟨cut', hcut', hcuts', -, hhi⟩ := hspan k (by omega) hk (by omega) hkr
  have hsame : cut = cut' := by
    have hnodup : (spans.map Prod.fst).Nodup := hsorted.imp fun hlt => hlt.ne
    exact List.inj_on_of_nodup_map hnodup hcut hcut' (hcuts.trans hcuts'.symm)
  subst hsame
  have hmem : (cut.1, some (slabSlice x row cut.1 cut.2)) ∈
      (m.sentTo e t r).map fun sent => (sent.1, sent.2[i]?) := by
    rw [hsent]
    exact List.mem_map.2 ⟨cut, hcut, rfl⟩
  obtain ⟨⟨q, ts⟩, hts, heq⟩ := List.mem_map.1 hmem
  simp only [Prod.mk.injEq] at heq
  obtain ⟨hq, hget⟩ := heq
  obtain ⟨q', hq', hmem'⟩ := List.mem_flatMap.1 hts
  obtain ⟨ts', hts', heq'⟩ := List.mem_map.1 hmem'
  simp only [Prod.mk.injEq] at heq'
  obtain ⟨rfl, rfl⟩ := heq'
  obtain rfl : q' = s := hq.trans hcuts
  rw [sentBy_cut hdim hworkers hs hr hts', List.getElem?_map, hi, Option.map_some,
    Option.some.injEq] at hget
  rw [hget]
  simp only [slabSlice]
  omega

/-- Fan-out and fan-in of a sharded edge agree exactly when the edge stays in
range, carries a first tensor, and that tensor has rows. -/
theorem agrees_iff_first_has_rows (hdim : (m.shardDim e.signal).isSome)
    (hsized : ∀ x ∈ t, x.Sized) (hdiv : ∀ x ∈ t, (m.destTp e : ℤ) ∣ x.dim0 * m.srcTp e)
    (hworkers : (m.destWorkers e).Nodup) :
    Agrees m e t ↔ InRange (m.srcTp e) (m.destTp e) t ∧ ∃ x₀, t.head? = some x₀ ∧ 0 < x₀.dim0 := by
  have hsrc : 0 < m.srcTp e := tpSizeOf_pos _
  have hdest : 0 < m.destTp e := tpSizeOf_pos _
  constructor
  · intro h
    have hrows : ∃ x₀, t.head? = some x₀ ∧ 0 < x₀.dim0 := by
      have hne := h.first_has_rows hdim hworkers
      cases t with
      | nil => exact absurd rfl hne
      | cons x rest =>
        have hnonneg := (hsized x List.mem_cons_self).rows_nonneg
        exact ⟨x, rfl, lt_of_le_of_ne hnonneg (Ne.symm hne)⟩
    have hcheck : indivisible (m.srcTp e) (m.destTp e) t = none := by
      obtain ⟨out, hout⟩ := h.routed 0 hsrc
      rw [fanoutFrom_eq m e t hsrc hdim] at hout
      cases hcheck : indivisible (m.srcTp e) (m.destTp e) t with
      | none => rfl
      | some error => simp [hcheck] at hout
    rw [indivisible_eq_none] at hcheck
    have hlt : ∀ x ∈ t, x.dim0 * m.srcTp e < 2 ^ 63 := fun x hx =>
      (h.covers hdim hworkers hx (hsized x hx) (hdiv x hx)).rows_lt (hsized x hx) hsrc hdest
        (hdiv x hx) (hcheck x hx)
    obtain ⟨x₀, hhead, hpos⟩ := hrows
    refine ⟨⟨hlt, ranks_lt hsrc (tpSizeOf_lt _) hdest (tpSizeOf_lt _) fun r hr => ?_⟩,
      x₀, hhead, hpos⟩
    have hcount := h.counted r hr
    rw [fanin_destWorker m e hr hdim hworkers, sendersTo_length hdim
      (fun x hx => ⟨hsized x hx, hlt x hx, hdiv x hx⟩) hworkers hhead hpos hr] at hcount
    exact hcount
  · rintro ⟨hrange, x₀, hhead, hpos⟩
    exact agrees_of_inRange hdim (fun x hx => ⟨hsized x hx, hrange.rows x hx, hdiv x hx⟩)
      hrange.ranks hworkers hhead hpos

end Edge

/-- Node 0 on workers 100 and 101, node 1 on workers 200 and 201, both in
walk 10, and signal 50 sharded on its leading dim. -/
def twoByTwo : ShardMap where
  groups := [⟨[100, 101], 2, none, rfl, Nat.two_pos, Group.two_lt⟩,
    ⟨[200, 201], 2, none, rfl, Nat.two_pos, Group.two_lt⟩]
  groupMapping node walk :=
    if walk = some 10 then if node = 0 then some 0 else if node = 1 then some 1 else none else none
  shardDim signal := if signal = 50 then some 0 else none

/-- The sharded edge of `twoByTwo`. -/
def shardedEdge : Route := ⟨50, 0, 10, 1, some 10⟩

/-- The agreement at two ranks a side, of a list whose second tensor has
another leading dim. -/
theorem agrees_twoByTwo : Agrees twoByTwo shardedEdge [⟨1, 4, 32, 0⟩, ⟨2, 6, 12, 0⟩] :=
  (agrees_iff_first_has_rows (by decide) (by decide) (by decide) (by decide)).mpr
    ⟨⟨by decide, by decide⟩, _, rfl, by decide⟩

/-- An empty first tensor takes the other tensors' rows with it: neither
source rank sends anything, while each receiver waits for one arrival. So does
a first tensor whose rows over both ranks are one more than an `i64` holds. -/
theorem empty_first_tensor_not_agrees :
    (twoByTwo.shardDim shardedEdge.signal).isSome ∧ (twoByTwo.destWorkers shardedEdge).Nodup ∧
    ∀ t ∈ [[(⟨1, 0, 0, 0⟩ : TensorRef), ⟨2, 4, 16, 0⟩], [⟨1, 2 ^ 62, 0, 0⟩]],
      (∀ x ∈ t, x.Sized ∧
        (twoByTwo.destTp shardedEdge : ℤ) ∣ x.dim0 * twoByTwo.srcTp shardedEdge) ∧
      ¬Agrees twoByTwo shardedEdge t := by
  refine ⟨by decide, by decide, fun t ht => ?_⟩
  rcases List.mem_pair.1 ht with rfl | rfl
  · exact ⟨by decide, fun h => absurd (h.counted 0 (by decide)) (by decide)⟩
  · exact ⟨by decide, fun h => absurd (h.counted 0 (by decide)) (by decide)⟩

end Mstar.Shard
