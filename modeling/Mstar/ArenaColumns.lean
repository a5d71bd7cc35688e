import Mstar.RustArena
import Mstar.PythonArena
import Mathlib.Data.List.Forall2
import Mathlib.Tactic.Ring

/-!
# The plan columns of both arenas

The Rust arena fills a plan label's columns row by row, the Python one computes
each column over all rows in int32 arrays. Over the same page lists they are the
same columns, where these arrays can hold them.
-/

namespace Mstar.PageArena

/-- The pages a row reads of those it holds. -/
def readOf (pageSize : ℕ) (held : List ℤ) (len : ℕ) : List ℤ :=
  held.take (min ((len + pageSize - 1) / pageSize) held.length)

/-- The offset of a row's last token in its page, counted from one. -/
def lastLen (pageSize len : ℕ) : ℤ := ((len : ℤ) - 1) % pageSize + 1

/-- Where every row has its pages, the rows are read off them. -/
theorem gatherRows_eq {pages : ℕ → Except Raised (List ℤ)} {pageSize i : ℕ} {lens : List ℕ}
    {held : List (List ℤ)} (hlength : held.length = lens.length)
    (hpages : ∀ j (h : j < held.length), pages (i + j) = .ok held[j]) :
    gatherRows pages pageSize i lens = .ok (List.zipWith (readOf pageSize) held lens) := by
  induction lens generalizing i held with
  | nil =>
    rw [List.length_nil, List.length_eq_zero_iff] at hlength
    rw [hlength]
    rfl
  | cons len lens ih =>
    obtain ⟨first, rest, rfl⟩ := List.exists_cons_of_length_eq_add_one hlength
    have hfirst : pages i = .ok first := hpages 0 (by simp)
    have hrest : ∀ j (h : j < rest.length), pages (i + 1 + j) = .ok rest[j] := by
      intro j h
      have := hpages (j + 1) (by simpa using h)
      rw [Nat.add_assoc, Nat.add_comm 1 j]
      exact this
    unfold gatherRows
    rw [hfirst]
    dsimp only
    rw [ih (by simpa using hlength) hrest]
    rfl

/-- A running sum for each element. -/
theorem cumsum_length (sum : ℕ) (xs : List ℕ) : (cumsum sum xs).length = xs.length := by
  induction xs generalizing sum with
  | nil => rfl
  | cons x xs ih =>
    unfold cumsum
    rw [List.length_cons, List.length_cons, ih]

/-- The last running sum is the sum. -/
theorem getLastD_cumsum (sum : ℕ) (xs : List ℕ) :
    (sum :: cumsum sum xs).getLastD 0 = sum + xs.sum := by
  induction xs generalizing sum with
  | nil => simp [cumsum]
  | cons x xs ih =>
    have hlast := ih (sum + x)
    unfold cumsum
    rw [List.getLastD_cons] at hlast
    rw [List.getLastD_cons, List.getLastD_cons, List.sum_cons, ← Nat.add_assoc, hlast]

/-- None is more than the whole sum. -/
theorem le_of_mem_cumsum {sum x : ℕ} {xs : List ℕ} (h : x ∈ sum :: cumsum sum xs) :
    x ≤ sum + xs.sum := by
  induction xs generalizing sum with
  | nil =>
    have heq : x = sum := by simpa [cumsum] using h
    omega
  | cons y xs ih =>
    rw [List.mem_cons] at h
    rw [List.sum_cons]
    cases h with
    | inl heq => omega
    | inr hrest =>
      have := ih hrest
      omega

/-- A row's last page holds between one token and a page of them. -/
theorem lastLen_bounds {pageSize : ℕ} (hpos : 0 < pageSize) (len : ℕ) :
    1 ≤ lastLen pageSize len ∧ lastLen pageSize len ≤ pageSize := by
  have hlow := Int.emod_nonneg ((len : ℤ) - 1) (b := pageSize) (by omega)
  have hhigh := Int.emod_lt_of_pos ((len : ℤ) - 1) (b := pageSize) (by omega)
  unfold lastLen
  omega

/-- A length's pages, all full but the last. -/
theorem pages_mul {pageSize : ℕ} (hpos : 0 < pageSize) (len : ℕ) :
    (((len + pageSize - 1) / pageSize : ℕ) : ℤ) * pageSize + lastLen pageSize len =
      len + pageSize := by
  have hsplit := Int.emod_add_mul_ediv ((len : ℤ) - 1) pageSize
  have hquotient : (((len + pageSize - 1) / pageSize : ℕ) : ℤ) = ((len : ℤ) - 1) / pageSize + 1 := by
    have hcast : ((len + pageSize - 1 : ℕ) : ℤ) = (len : ℤ) - 1 + pageSize * 1 := by omega
    rw [Int.natCast_ediv, hcast, Int.add_mul_ediv_left _ _ (by omega)]
  have hmul : (((len : ℤ) - 1) / pageSize + 1) * pageSize =
      pageSize * (((len : ℤ) - 1) / pageSize) + pageSize := by ring
  unfold lastLen
  rw [hquotient, hmul]
  omega

/-- A row's last page, found in all rows' pages by its running count. -/
theorem getD_last (before : List ℤ) {row : List ℤ} (after : List ℤ) (hrow : 0 < row.length) :
    (before ++ row ++ after).getD (before.length + row.length - 1) 0 = row.getLastD 0 := by
  have hne : row ≠ [] := List.length_pos_iff.1 hrow
  rw [List.getD_eq_getElem?_getD, List.append_assoc,
    List.getElem?_append_right (by omega), List.getElem?_append_left (by omega)]
  have hindex : before.length + row.length - 1 - before.length = row.length - 1 := by omega
  rw [hindex, ← List.getLast?_eq_getElem?, List.getLastD_eq_getLast?]

/-- A row's length as the kernel counts it, from the pages it reads. -/
def kvLen (pageSize : ℕ) (row : List ℤ) (len : ℕ) : ℤ :=
  ((max row.length 1 - 1 : ℕ) : ℤ) * pageSize + lastLen pageSize len

/-- The columns of rows filled after others. -/
theorem fillRows_eq {pageSize : ℕ} {rows : List (List ℤ)} {lens spans : List ℕ} {c : Filled}
    (hlens : lens.length = rows.length) (hspans : spans.length = rows.length)
    (hk : c.indices.length = c.k) :
    Filled.fillRows pageSize rows lens spans c =
      { qo := c.qo ++ (cumsum c.q spans).map Int.ofNat
        kvIndptr := c.kvIndptr ++ (cumsum c.k (rows.map List.length)).map Int.ofNat
        last := c.last ++ lens.map (lastLen pageSize)
        kvLens := c.kvLens ++ List.zipWith (kvLen pageSize) rows lens
        decodePages := c.decodePages ++ rows.map (List.getLastD · 0)
        decodeOffsets := c.decodeOffsets ++ lens.map fun len => lastLen pageSize len - 1
        indices := c.indices ++ rows.flatten
        q := c.q + spans.sum
        k := c.k + (rows.map List.length).sum
        allHavePages := c.allHavePages && rows.all fun row => decide (0 < row.length) } := by
  induction rows generalizing lens spans c with
  | nil =>
    rw [List.length_nil, List.length_eq_zero_iff] at hlens hspans
    rw [hlens, hspans]
    simp [Filled.fillRows, cumsum]
  | cons row rows ih =>
    obtain ⟨len, lens, rfl⟩ := List.exists_cons_of_length_eq_add_one hlens
    obtain ⟨span, spans, rfl⟩ := List.exists_cons_of_length_eq_add_one hspans
    have hdecode : (if 0 < row.length then
        (c.indices ++ row).getD (c.k + row.length - 1) 0 else 0) = row.getLastD 0 := by
      split
      next hpos =>
        rw [← hk]
        have := getD_last c.indices [] hpos
        rwa [List.append_nil] at this
      next hpos =>
        have hnil : row = [] := List.length_eq_zero_iff.1 (by omega)
        rw [hnil]
        rfl
    unfold Filled.fillRows
    rw [ih (by simpa using hlens) (by simpa using hspans)
      (by simp [Filled.fillRow, hk])]
    unfold Filled.fillRow
    dsimp only
    rw [hdecode]
    simp only [List.append_assoc, List.cons_append, List.nil_append, List.map_cons,
      List.zipWith_cons_cons, List.flatten_cons, List.sum_cons, List.all_cons, cumsum,
      Nat.add_assoc, Bool.and_assoc]
    rfl

/-- The rows of streams that are all there. -/
theorem rowsOf_eq {Index Writes : Type} {a : PythonArena Index Writes} {sids : List ℕ}
    {held : List (List ℤ)} (h : List.Forall₂ (fun sid pages => a.streams sid = some pages) sids held) :
    a.rowsOf sids = .ok held := by
  induction h with
  | nil => rfl
  | cons hone _ ih =>
    unfold PythonArena.rowsOf
    rw [hone, ih]
    rfl

/-- What a row reads, of some row and its length. -/
theorem of_mem_read {pageSize : ℕ} {held : List (List ℤ)} {lens : List ℕ} {read : List ℤ}
    (h : read ∈ List.zipWith (readOf pageSize) held lens) :
    ∃ pages ∈ held, ∃ len ∈ lens, read = readOf pageSize pages len := by
  obtain ⟨i, hi⟩ := List.mem_iff_getElem?.1 h
  obtain ⟨pages, len, hpages, hlen, hread⟩ := List.getElem?_zipWith_eq_some.1 hi
  exact ⟨pages, List.mem_of_getElem? hpages, len, List.mem_of_getElem? hlen, hread.symm⟩

/-- Every such length is of some row read. -/
theorem of_mem_kvLens {pageSize : ℕ} {held : List (List ℤ)} {lens : List ℕ} {x : ℤ}
    (h : x ∈ List.zipWith (kvLen pageSize) (List.zipWith (readOf pageSize) held lens) lens) :
    ∃ pages ∈ held, ∃ len ∈ lens, x = kvLen pageSize (readOf pageSize pages len) len := by
  obtain ⟨i, hi⟩ := List.mem_iff_getElem?.1 h
  obtain ⟨read, len, hread, hlen, hx⟩ := List.getElem?_zipWith_eq_some.1 hi
  obtain ⟨pages, len', hpages, hlen', rfl⟩ := List.getElem?_zipWith_eq_some.1 hread
  obtain rfl : len = len' := Option.some.inj (hlen.symm.trans hlen')
  exact ⟨pages, List.mem_of_getElem? hpages, len, List.mem_of_getElem? hlen, hx.symm⟩

/-- It is no longer than the row, or a page where the row is empty. -/
theorem kvLen_bounds {pageSize : ℕ} (hpos : 0 < pageSize) (pages : List ℤ) (len : ℕ) :
    1 ≤ kvLen pageSize (readOf pageSize pages len) len ∧
      kvLen pageSize (readOf pageSize pages len) len ≤ max len pageSize := by
  have hlast := lastLen_bounds hpos len
  have hpages := pages_mul hpos len
  have hread : ((readOf pageSize pages len).length : ℤ) ≤
      (((len + pageSize - 1) / pageSize : ℕ) : ℤ) := by
    unfold readOf
    rw [List.length_take]
    omega
  have hmul := Int.mul_le_mul_of_nonneg_right hread (by omega : (0 : ℤ) ≤ pageSize)
  unfold kvLen
  generalize (readOf pageSize pages len).length = read at *
  by_cases hnone : read = 0
  · rw [hnone]
    simp only [Nat.zero_max, Nat.sub_self, Nat.cast_zero, zero_mul, zero_add]
    omega
  · have hmax : ((max read 1 - 1 : ℕ) : ℤ) = (read : ℤ) - 1 := by omega
    have hfull := Int.mul_nonneg (by omega : (0 : ℤ) ≤ (read : ℤ) - 1)
      (by omega : (0 : ℤ) ≤ pageSize)
    have hsub : ((read : ℤ) - 1) * pageSize = read * pageSize - pageSize := by ring
    rw [hmax]
    omega

/-- The lengths of the rows read, in int32. -/
theorem npages_eq {pageSize : ℕ} (hsize : 0 < pageSize) {held : List (List ℤ)} {lens : List ℕ}
    (hround : ∀ len ∈ lens, len + pageSize ≤ 2147483648) :
    List.zipWith (fun (len : ℕ) (pages : List ℤ) =>
        min (asI32 ((len : ℤ) + ((pageSize : ℤ) - 1)) / pageSize) pages.length) lens held =
      ((List.zipWith (readOf pageSize) held lens).map List.length).map Int.ofNat := by
  induction held generalizing lens with
  | nil => simp
  | cons pages held ih =>
    cases lens with
    | nil => simp
    | cons len lens =>
      have hrest := ih fun len' hlen => hround len' (List.mem_cons_of_mem _ hlen)
      simp only [List.map_cons, List.zipWith_cons_cons]
      rw [hrest]
      congr 1
      have hlen := hround len List.mem_cons_self
      rw [asI32_of_isI32 (by unfold IsI32; omega)]
      have hcast : (len : ℤ) + ((pageSize : ℤ) - 1) = ((len + pageSize - 1 : ℕ) : ℤ) := by omega
      rw [hcast, ← Int.natCast_ediv]
      unfold readOf
      rw [List.length_take, Nat.min_assoc, Nat.min_self]
      generalize (len + pageSize - 1) / pageSize = want
      simp only [Int.ofNat_eq_natCast]
      omega

/-- Running sums that int32 holds do not wrap. -/
theorem cumsum32_eq {sum : ℕ} {xs : List ℕ} (hsum : sum + xs.sum < 2147483648) :
    cumsum32 sum (xs.map Int.ofNat) = (cumsum sum xs).map Int.ofNat := by
  induction xs generalizing sum with
  | nil => rfl
  | cons x xs ih =>
    rw [List.sum_cons] at hsum
    have hone : asI32 ((sum : ℤ) + Int.ofNat x) = ((sum + x : ℕ) : ℤ) := by
      rw [asI32_of_isI32]
      · push_cast
        rfl
      · unfold IsI32
        simp only [Int.ofNat_eq_natCast]
        omega
    rw [List.map_cons]
    unfold cumsum32 cumsum
    rw [hone, ih (by omega)]
    rfl

/-- The pages of the rows read, one after the other. -/
theorem indices_eq {pageSize : ℕ} {held : List (List ℤ)} {lens : List ℕ} :
    ((held.zip (((List.zipWith (readOf pageSize) held lens).map List.length).map Int.ofNat)).flatMap
        fun (pages, k) => upTo pages k) =
      (List.zipWith (readOf pageSize) held lens).flatten := by
  induction held generalizing lens with
  | nil => simp
  | cons pages held ih =>
    cases lens with
    | nil => simp
    | cons len lens =>
      simp only [List.zipWith_cons_cons, List.map_cons, List.zip_cons_cons, List.flatMap_cons,
        List.flatten_cons]
      rw [ih]
      congr 1
      unfold upTo readOf
      rw [Int.ofNat_eq_natCast, if_pos (Int.natCast_nonneg _), Int.toNat_natCast, List.length_take,
        Nat.min_assoc, Nat.min_self]

/-- As many numbers as are counted, each an int32. -/
theorem fromIter_eq {xs : List ℤ} (hfit : ∀ x ∈ xs, IsI32 x) : fromIter xs xs.length = .ok xs := by
  have hnone : (xs.any fun x => !decide (IsI32 x)) = false := by
    rw [List.any_eq_false]
    intro x hx
    simp [hfit x hx]
  unfold fromIter
  rw [if_pos (Int.natCast_nonneg _), Int.toNat_natCast, List.take_length]
  dsimp only
  rw [hnone, if_neg Bool.false_ne_true, if_neg (by omega)]

/-- The same columns, or exceptions that are alike. -/
def ColumnsAlike : Except Raised PlanColumns → Except Raised (List ℤ × ℤ × Bool) → Prop
  | .ok cols, .ok (out, total, allHavePages) =>
    out = cols.out ∧ total = cols.total ∧ allHavePages = cols.allHavePages
  | .error e, .error e' => e.Alike e'
  | _, _ => False

/-- A text on one side only makes no difference. -/
theorem alike_of_no_text {kind : ErrorKind} {text : Option String} :
    Raised.Alike ⟨kind, text⟩ ⟨kind, none⟩ := by
  constructor
  · rfl
  · intro _ _ _ hnone
    cases hnone

/-- The numbers in the columns of rows that read some pages. -/
def rawColumns (pageSize : ℕ) (rows : List (List ℤ)) (lens spans : List ℕ) : List ℤ :=
  (0 :: cumsum 0 spans).map Int.ofNat ++
    (0 :: cumsum 0 (rows.map List.length)).map Int.ofNat ++ lens.map (lastLen pageSize) ++
    List.zipWith (kvLen pageSize) rows lens ++
    rows.map (List.getLastD · 0) ++ (lens.map fun len => lastLen pageSize len - 1) ++ rows.flatten

/-- The columns of rows that read some pages. -/
def planned (pageSize : ℕ) (rows : List (List ℤ)) (lens spans : List ℕ) : PlanColumns where
  out := (rawColumns pageSize rows lens spans).map asI32
  total := (rows.map List.length).sum
  allHavePages := rows.all fun row => decide (0 < row.length)

/-- Columns that int32 arrays hold. -/
structure ColumnsFit (pageSize : ℕ) (held : List (List ℤ)) (lens spans : List ℕ) : Prop where
  size : pageSize < 2147483648
  pages : ∀ pages ∈ held, ∀ page ∈ pages, IsI32 page
  lengths : ∀ len ∈ lens, len < 2147483648
  tokens : spans.sum < 2147483648
  reads : ((List.zipWith (readOf pageSize) held lens).map List.length).sum < 2147483648

section Planned

variable {sids lens spans : List ℕ} {held : List (List ℤ)} {pageSize : ℕ}

/-- Filling row by row makes the columns of the pages each row holds. -/
theorem kvPlanColumns_eq {pages : ℕ → Except Raised (List ℤ)} (hsize : 0 < pageSize)
    (hpages : ∀ j (h : j < held.length), pages (0 + j) = .ok held[j])
    (hlens : lens.length = held.length) (hspans : spans.length = held.length) :
    kvPlanColumns pages lens spans pageSize =
      .ok (planned pageSize (List.zipWith (readOf pageSize) held lens) lens spans) := by
  have hlength : (List.zipWith (readOf pageSize) held lens).length = held.length := by
    rw [List.length_zipWith]
    omega
  unfold kvPlanColumns
  rw [if_neg (by omega), if_neg (by omega), gatherRows_eq hlens.symm hpages]
  simp only [Except.map]
  rw [fillRows_eq (by omega) (by omega) rfl]
  unfold planned rawColumns
  simp only [Filled.start, List.nil_append, List.map_cons, List.cons_append, Bool.true_and]
  rfl

/-- The Rust arena's columns are those of the page lists of its streams. -/
theorem core_planColumns {a : ArenaCore} (hsize : 0 < pageSize)
    (ha : List.Forall₂ (fun sid pages => a.streams[sid]? = some pages) sids held)
    (hlens : lens.length = held.length) (hspans : spans.length = held.length) :
    a.planColumns sids lens spans pageSize =
      .ok (planned pageSize (List.zipWith (readOf pageSize) held lens) lens spans) := by
  have hsids := ha.length_eq
  unfold ArenaCore.planColumns
  rw [if_neg (by omega)]
  refine kvPlanColumns_eq hsize (fun j h => ?_) hlens hspans
  have hj : j < sids.length := by omega
  have hheld := List.Forall₂.get ha hj h
  simp only [List.get_eq_getElem] at hheld
  unfold ArenaCore.pages
  rw [Nat.zero_add, List.getD_eq_getElem?_getD, List.getElem?_eq_getElem hj, Option.getD_some,
    hheld]

/-- No row is past the columns. -/
theorem ColumnsFit.none_long (h : ColumnsFit pageSize held lens spans) :
    ¬ (lens.any (2147483648 ≤ ·)) = true := by
  rw [Bool.not_eq_true, List.any_eq_false]
  intro len hlen
  have := h.lengths len hlen
  simpa using this

/-- Each number in columns that fit is an int32. -/
theorem isI32_of_mem_raw (hpos : 0 < pageSize) (hfits : ColumnsFit pageSize held lens spans) {x : ℤ}
    (hx : x ∈ rawColumns pageSize (List.zipWith (readOf pageSize) held lens) lens spans) :
    IsI32 x := by
  have hsize := hfits.size
  have hpage : ∀ read ∈ List.zipWith (readOf pageSize) held lens, ∀ page ∈ read, IsI32 page := by
    intro read hread page hpage
    obtain ⟨pages, hpages, len, -, rfl⟩ := of_mem_read hread
    exact hfits.pages pages hpages page (List.mem_of_mem_take hpage)
  unfold rawColumns at hx
  simp only [List.mem_append] at hx
  rcases hx with (((((hqo | hkv) | hlast) | hlens) | hpages) | hoffsets) | hindices
  · obtain ⟨k, hk, rfl⟩ := List.mem_map.1 hqo
    have hle := le_of_mem_cumsum hk
    have htokens := hfits.tokens
    constructor
    · change _ ≤ (k : ℤ)
      omega
    · change (k : ℤ) < _
      omega
  · obtain ⟨k, hk, rfl⟩ := List.mem_map.1 hkv
    have hle := le_of_mem_cumsum hk
    have hreads := hfits.reads
    constructor
    · change _ ≤ (k : ℤ)
      omega
    · change (k : ℤ) < _
      omega
  · obtain ⟨len, _, rfl⟩ := List.mem_map.1 hlast
    have := lastLen_bounds hpos len
    constructor
    · omega
    · omega
  · obtain ⟨pages, _, len, hlen, rfl⟩ := of_mem_kvLens hlens
    have hbounds := kvLen_bounds hpos pages len
    have hlength := hfits.lengths len hlen
    constructor
    · omega
    · omega
  · obtain ⟨read, hread, rfl⟩ := List.mem_map.1 hpages
    rw [List.getLastD_eq_getLast?]
    cases hgot : read.getLast? with
    | none =>
      constructor
      · decide
      · decide
    | some page => exact hpage read hread page (List.mem_of_getLast? hgot)
  · obtain ⟨len, _, rfl⟩ := List.mem_map.1 hoffsets
    have := lastLen_bounds hpos len
    constructor
    · omega
    · omega
  · obtain ⟨read, hread, hmem⟩ := List.mem_flatten.1 hindices
    exact hpage read hread x hmem

/-- The lengths computed from the last places, in int32. -/
theorem kvLens32_eq (hpos : 0 < pageSize) (hfits : ColumnsFit pageSize held lens spans) :
    List.zipWith (fun k l => asI32 (asI32 ((max k 1 - 1) * pageSize) + l))
        (((List.zipWith (readOf pageSize) held lens).map List.length).map Int.ofNat)
        (lens.map (lastLen pageSize)) =
      List.zipWith (kvLen pageSize) (List.zipWith (readOf pageSize) held lens) lens := by
  have hwhole : List.zipWith (fun k l => asI32 (asI32 ((max k 1 - 1) * pageSize) + l))
        (((List.zipWith (readOf pageSize) held lens).map List.length).map Int.ofNat)
        (lens.map (lastLen pageSize)) =
      (List.zipWith (kvLen pageSize) (List.zipWith (readOf pageSize) held lens) lens).map asI32 := by
    rw [List.zipWith_map_right, List.map_map, List.zipWith_map_left, List.map_zipWith]
    congr 1
    funext row len
    have hmax : max (Int.ofNat row.length) 1 - 1 = ((max row.length 1 - 1 : ℕ) : ℤ) := by
      simp only [Int.ofNat_eq_natCast]
      omega
    simp only [Function.comp_apply]
    rw [hmax]
    unfold kvLen asI32
    rw [Int.bmod_add_bmod]
  rw [hwhole]
  refine map_asI32 fun x hx => isI32_of_mem_raw hpos hfits ?_
  unfold rawColumns
  simp only [List.mem_append]
  exact .inl (.inl (.inl (.inr hx)))

/-- The last pages of all rows, found by the running counts. -/
theorem decodePages_eq (before : List ℤ) (rows : List (List ℤ)) :
    (((rows.map List.length).map Int.ofNat).zip
        ((cumsum before.length (rows.map List.length)).map Int.ofNat)).mapM
      (fun p => decodePage (before ++ rows.flatten) p.1 p.2) =
        some (rows.map (List.getLastD · 0)) := by
  induction rows generalizing before with
  | nil => rfl
  | cons row rows ih =>
    have hrest := ih (before ++ row)
    rw [List.length_append, List.append_assoc] at hrest
    have hone : decodePage (before ++ (row ++ rows.flatten)) (Int.ofNat row.length)
        (Int.ofNat (before.length + row.length)) = some (row.getLastD 0) := by
      unfold decodePage
      simp only [Int.ofNat_eq_natCast]
      split
      next hpos =>
        have hrow : 0 < row.length := by omega
        have hplace : place (before ++ (row ++ rows.flatten)).length
            (((before.length + row.length : ℕ) : ℤ) - 1) =
              some (before.length + row.length - 1) := by
          unfold place
          simp only [List.length_append]
          rw [if_pos (by omega), if_pos (by omega)]
          congr 1
          omega
        rw [hplace, Option.map_some, ← List.append_assoc, getD_last before rows.flatten hrow]
      next hpos =>
        have hnil : row = [] := List.length_eq_zero_iff.1 (by omega)
        rw [hnil]
        rfl
    simp only [List.map_cons, cumsum, List.zip_cons_cons, List.flatten_cons, List.mapM_cons]
    rw [hone, hrest]
    rfl

/-- Computing column by column makes the columns, of a span for each row. -/
theorem python_planColumns {Index Writes : Type} {b : PythonArena Index Writes}
    (hsize : 0 < pageSize) (hone : held ≠ [])
    (hb : List.Forall₂ (fun sid pages => b.streams sid = some pages) sids held)
    (hlens : lens.length = held.length) (hfits : ColumnsFit pageSize held lens spans)
    (hround : ∀ len ∈ lens, len + pageSize ≤ 2147483648) :
    b.planColumns sids lens spans pageSize =
      let cols := planned pageSize (List.zipWith (readOf pageSize) held lens) lens spans
      if spans.length ≠ held.length then .error ⟨.valueError, none⟩
      else .ok (cols.out, (cols.total : ℤ), cols.allHavePages) := by
  have hlength : held.length ≠ 0 := by
    rwa [ne_eq, List.length_eq_zero_iff]
  have hlow := hfits.none_long
  have hmod : (fun len : ℕ => floorMod ((len : ℤ) - 1) pageSize + 1) = lastLen pageSize := by
    funext len
    unfold floorMod lastLen
    rw [if_neg (by omega)]
  have hpage : ∀ x ∈ (List.zipWith (readOf pageSize) held lens).flatten, IsI32 x := by
    intro x hx
    refine isI32_of_mem_raw hsize hfits ?_
    unfold rawColumns
    exact List.mem_append_right _ hx
  have hraw : (planned pageSize (List.zipWith (readOf pageSize) held lens) lens spans).out =
      rawColumns pageSize (List.zipWith (readOf pageSize) held lens) lens spans :=
    map_asI32 fun x hx => isI32_of_mem_raw hsize hfits hx
  have hkv := @cumsum32_eq 0 _ ((Nat.zero_add _).trans_lt hfits.reads)
  have hqo := @cumsum32_eq 0 _ ((Nat.zero_add _).trans_lt hfits.tokens)
  have hkvLens := kvLens32_eq hsize hfits
  have hsize32 := hfits.size
  unfold PythonArena.planColumns
  rw [rowsOf_eq hb]
  dsimp only
  rw [if_neg hlow, if_neg (by omega), if_neg (by omega), if_neg hlength, npages_eq hsize hround,
    indices_eq, hraw, hmod, hkvLens]
  rw [Nat.cast_zero] at hkv hqo
  rw [hkv, hqo]
  unfold planned rawColumns
  generalize List.zipWith (readOf pageSize) held lens = rows at *
  have htotal : ((0 :: (cumsum 0 (rows.map List.length)).map Int.ofNat).getLastD 0) =
      (rows.flatten.length : ℤ) := by
    have hnat := getLastD_cumsum 0 (rows.map List.length)
    rw [Nat.zero_add, ← List.length_flatten] at hnat
    rw [← hnat]
    exact List.getLastD_map (f := Int.ofNat) (l := 0 :: cumsum 0 (rows.map List.length)) (a := 0)
  rw [htotal, fromIter_eq hpage]
  dsimp only
  have hdecode := decodePages_eq [] rows
  rw [List.nil_append, List.length_nil] at hdecode
  rw [List.drop_succ_cons, List.drop_zero, hdecode]
  dsimp only
  have hall : (((rows.map List.length).map Int.ofNat).all fun k => decide (k ≠ 0)) =
      rows.all fun row => decide (0 < row.length) := by
    rw [List.all_map, List.all_map]
    congr 1
    funext row
    simp [Nat.pos_iff_ne_zero]
  rw [hall, List.length_flatten, List.map_map]
  rfl

/-- Over the same page lists of at least one stream, both arenas make the same
columns, or refuse columns of different lengths. -/
theorem planColumns_alike {Index Writes : Type} {a : ArenaCore} {b : PythonArena Index Writes}
    {sids' : List ℕ} (hsize : 0 < pageSize) (hone : held ≠ [])
    (ha : List.Forall₂ (fun sid pages => a.streams[sid]? = some pages) sids held)
    (hb : List.Forall₂ (fun sid pages => b.streams sid = some pages) sids' held)
    (hfits : ColumnsFit pageSize held lens spans)
    (hround : ∀ len ∈ lens, len + pageSize ≤ 2147483648) :
    ColumnsAlike (a.planColumns sids lens spans pageSize)
      (b.planColumns sids' lens spans pageSize) := by
  have hsids := ha.length_eq
  have hlength : held.length ≠ 0 := by
    rwa [ne_eq, List.length_eq_zero_iff]
  have hlow := hfits.none_long
  have hsize32 := hfits.size
  by_cases hlens : lens.length = held.length
  · rw [python_planColumns hsize hone hb hlens hfits hround]
    by_cases hspans : spans.length = held.length
    · rw [core_planColumns hsize ha hlens hspans, if_neg (by omega)]
      exact ⟨rfl, rfl, rfl⟩
    · unfold ArenaCore.planColumns kvPlanColumns
      rw [if_neg (by omega), if_pos (by omega), if_pos hspans]
      exact alike_of_no_text
  · unfold ArenaCore.planColumns PythonArena.planColumns
    rw [rowsOf_eq hb]
    dsimp only
    rw [if_pos (by omega), if_neg hlow, if_pos (by omega)]
    exact alike_of_no_text

end Planned

end Mstar.PageArena
