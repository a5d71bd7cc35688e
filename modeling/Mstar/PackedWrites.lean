import Mstar.PlanReadBack
import Mathlib.Data.List.GetD

/-!
# The packed addressing of a label

Over the columns of a label, the row-by-row loop writes each row's addresses after those
of the rows before it, or refuses the first row that its columns leave too short.
-/

namespace Mstar.PageArena

namespace PlanRow

variable (pageSize : ℕ) (row : PlanRow)

/-- The row appends nothing, or no more than the length its columns say it has. -/
def Fit : Prop := row.span = 0 ∨ (row.span : ℤ) ≤ row.reach pageSize

/-- The address of the row's token at a place among the new ones. -/
def write (j : ℕ) : ℤ × ℤ :=
  let pos := row.reach pageSize - row.span + j
  ((row.read pageSize).getD (pos / pageSize).toNat 0, pos % pageSize)

/-- The addresses of the row's new tokens. -/
def writes : List (ℤ × ℤ) := (List.range row.span).map (row.write pageSize)

end PlanRow

variable {pageSize : ℕ}

/-- The loop over a row's tokens writes them one after the other. -/
theorem packTokens_eq {indices : List ℤ} {ps k0 start : ℤ} {row q0 : ℕ} (page : ℕ → ℤ)
    {count j : ℕ} {donePages doneOffsets pages offsets : List ℤ}
    (hpage : ∀ i, j ≤ i → i < j + count → asUsize (k0 + (start + i) / ps) < indices.length ∧
      indices.getD (asUsize (k0 + (start + i) / ps)) 0 = page i)
    (hdonePages : donePages.length = q0 + j) (hdoneOffsets : doneOffsets.length = q0 + j)
    (hpages : count ≤ pages.length) (hoffsets : count ≤ offsets.length) :
    packTokens indices ps k0 start row q0 count j (donePages ++ pages, doneOffsets ++ offsets) =
      .ok (donePages ++ (List.range' j count).map page ++ pages.drop count,
        doneOffsets ++ (List.range' j count).map (fun (i : ℕ) => (start + i) % ps) ++
          offsets.drop count) := by
  induction count generalizing j donePages doneOffsets pages offsets with
  | zero => simp [packTokens]
  | succ count ih =>
    obtain ⟨x, pages, rfl⟩ := List.exists_cons_of_ne_nil
      (List.ne_nil_of_length_pos (by omega : 0 < pages.length))
    obtain ⟨y, offsets, rfl⟩ := List.exists_cons_of_ne_nil
      (List.ne_nil_of_length_pos (by omega : 0 < offsets.length))
    obtain ⟨hin, hat⟩ := hpage j (by omega) (by omega)
    have hset : ∀ (done : List ℤ) (z : ℤ) (left : List ℤ) (v : ℤ), done.length = q0 + j →
        (done ++ z :: left).set (q0 + j) v = done ++ [v] ++ left := by
      intro done z left v hdone
      rw [← hdone]
      simp
    have hlater : ∀ i, j + 1 ≤ i → i < j + 1 + count →
        asUsize (k0 + (start + i) / ps) < indices.length ∧
          indices.getD (asUsize (k0 + (start + i) / ps)) 0 = page i := by
      intro i hlow hhigh
      exact hpage i (by omega) (by omega)
    unfold packTokens
    dsimp only
    rw [if_neg (by omega), hat, hset _ _ _ _ hdonePages, hset _ _ _ _ hdoneOffsets,
      ih hlater (by simp; omega) (by simp; omega) (by simpa using hpages)
        (by simpa using hoffsets)]
    simp [List.range'_succ]

section Rows

variable {rows before after : List PlanRow} {row : PlanRow}

/-- Tokens add up. -/
theorem tokens_append (before after : List PlanRow) :
    tokens (before ++ after) = tokens before + tokens after := by
  unfold tokens
  rw [List.map_append, List.sum_append]

/-- One more row's tokens. -/
theorem tokens_cons (row : PlanRow) (after : List PlanRow) :
    tokens (row :: after) = row.span + tokens after := by
  unfold tokens
  rw [List.map_cons, List.sum_cons]

/-- Pages read add up. -/
theorem reads_append (pageSize : ℕ) (before after : List PlanRow) :
    reads pageSize (before ++ after) = reads pageSize before + reads pageSize after := by
  unfold reads
  rw [List.map_append, List.sum_append]

/-- One more row's pages. -/
theorem reads_cons (row : PlanRow) (after : List PlanRow) :
    reads pageSize (row :: after) = (row.read pageSize).length + reads pageSize after := by
  unfold reads
  rw [List.map_cons, List.sum_cons]

/-- Where a row's tokens begin among all rows'. -/
theorem qoIndptr_getD (pageSize : ℕ) (hrows : rows = before ++ after) :
    (laid pageSize rows).qoIndptr.getD before.length 0 = tokens before := by
  change ((0 :: cumsum 0 (rows.map PlanRow.span)).map Int.ofNat).getD before.length
    (Int.ofNat 0) = _
  rw [List.getD_map, getD_cumsum _ _ (by simp [hrows]), hrows, List.map_append,
    List.take_left' (by simp), Nat.zero_add]
  rfl

/-- Where a row's pages begin among all rows'. -/
theorem pagedKvIndptr_getD (pageSize : ℕ) (hrows : rows = before ++ after) :
    (laid pageSize rows).pagedKvIndptr.getD before.length 0 = reads pageSize before := by
  change ((0 :: cumsum 0 (rows.map fun row => (row.read pageSize).length)).map Int.ofNat).getD
    before.length (Int.ofNat 0) = _
  rw [List.getD_map, getD_cumsum _ _ (by simp [hrows]), hrows, List.map_append,
    List.take_left' (by simp), Nat.zero_add]
  rfl

/-- The length of a row's last page. -/
theorem lastPageLen_getD (pageSize : ℕ) (hrows : rows = before ++ row :: after) :
    (laid pageSize rows).pagedKvLastPageLen.getD before.length 0 =
      lastLen pageSize row.length := by
  unfold laid
  dsimp only
  rw [hrows]
  simp [List.getD_eq_getElem?_getD]

/-- As many pages are read as are counted. -/
theorem length_flatten_reads (pageSize : ℕ) (rows : List PlanRow) :
    (rows.map (PlanRow.read pageSize)).flatten.length = reads pageSize rows := by
  rw [List.length_flatten, List.map_map]
  rfl

/-- All rows' pages, around one row's. -/
theorem pagedKvIndices_eq (hrows : rows = before ++ row :: after) :
    (laid pageSize rows).pagedKvIndices =
      (before.map (PlanRow.read pageSize)).flatten ++
        (row.read pageSize ++ (after.map (PlanRow.read pageSize)).flatten) := by
  unfold laid
  dsimp only
  rw [hrows]
  simp

/-- A row's pages among all rows'. -/
theorem pagedKvIndices_getD (hrows : rows = before ++ row :: after) {i : ℕ}
    (hi : i < (row.read pageSize).length) :
    reads pageSize before + i < (laid pageSize rows).pagedKvIndices.length ∧
      (laid pageSize rows).pagedKvIndices.getD (reads pageSize before + i) 0 =
        (row.read pageSize).getD i 0 := by
  have hbefore := length_flatten_reads pageSize before
  constructor
  · rw [pagedKvIndices_eq hrows, List.length_append, List.length_append, hbefore]
    omega
  · rw [pagedKvIndices_eq hrows, List.getD_append_right _ _ _ _ (by omega), hbefore,
      Nat.add_sub_cancel_left, List.getD_append _ _ _ _ hi]

/-- A count within `i32` is itself. -/
theorem asUsize_natCast {n : ℕ} (h : n < 2147483648) : asUsize n = n := by
  unfold asUsize
  omega

/-- A new token's place in a row that fits is one of the row's pages. -/
theorem write_bounds (hpos : 0 < pageSize) (hfit : row.Fit pageSize) {j : ℕ} (hj : j < row.span) :
    0 ≤ (row.reach pageSize - row.span + j) / pageSize ∧
      ((row.reach pageSize - row.span + j) / pageSize).toNat < (row.read pageSize).length := by
  have hspan : (row.span : ℤ) ≤ row.reach pageSize := by
    cases hfit with
    | inl hnone => omega
    | inr hle => exact hle
  have hlast := (lastLen_bounds hpos row.length).2
  have hlow : 0 ≤ (row.reach pageSize - row.span + j) / (pageSize : ℤ) :=
    Int.ediv_nonneg (by omega) (by omega)
  have hhigh : (row.reach pageSize - row.span + j) / (pageSize : ℤ) <
      (row.read pageSize).length := by
    apply Int.ediv_lt_of_lt_mul (by omega)
    have hreach : row.reach pageSize =
        ((row.read pageSize).length : ℤ) * pageSize - pageSize + lastLen pageSize row.length := by
      unfold PlanRow.reach
      ring
    omega
  constructor
  · exact hlow
  · omega

/-- The loop's step over a row of a label, with the label's own numbers. -/
theorem packRow_eq (hfits : Fits pageSize rows) (hrows : rows = before ++ row :: after)
    (out : List ℤ × List ℤ) :
    packRow (laid pageSize rows).toPagedIndptrs pageSize (tokens rows) before.length out =
      if row.span = 0 then .ok out
      else if row.reach pageSize - row.span < 0 ∨ (pageSize : ℤ) < lastLen pageSize row.length then
        .error (.pastItsPages before.length row.span (row.read pageSize).length
          (lastLen pageSize row.length))
      else
        packTokens (laid pageSize rows).pagedKvIndices pageSize (reads pageSize before)
          (row.reach pageSize - row.span) before.length (tokens before) row.span 0 out := by
  have htokens := hfits.tokens
  have hcut : rows = (before ++ [row]) ++ after := by rw [hrows, List.append_assoc]; rfl
  have hsplit := tokens_append before (row :: after)
  rw [tokens_cons, ← hrows] at hsplit
  have hnext : before.length + 1 = (before ++ [row]).length := by simp
  have hafter : tokens (before ++ [row]) = tokens before + row.span := by
    rw [tokens_append, tokens_cons]
    rfl
  have hread : reads pageSize (before ++ [row]) =
      reads pageSize before + (row.read pageSize).length := by
    rw [reads_append, reads_cons]
    rfl
  have hheld : ((reads pageSize before + (row.read pageSize).length : ℕ) : ℤ) -
      (reads pageSize before : ℤ) = (row.read pageSize).length := by omega
  have hstart : ((row.read pageSize).length - 1 : ℤ) * pageSize + lastLen pageSize row.length -
      row.span = row.reach pageSize - row.span := rfl
  unfold packRow
  dsimp only
  rw [hnext, qoIndptr_getD pageSize hrows, qoIndptr_getD pageSize hcut, pagedKvIndptr_getD pageSize hrows,
    pagedKvIndptr_getD pageSize hcut, lastPageLen_getD pageSize hrows, asUsize_natCast (by omega),
    asUsize_natCast (by omega), hafter, hread, Nat.add_sub_cancel_left, if_neg (by omega), hheld,
    hstart]

/-- A row's tokens are written after those of the rows before it. -/
theorem packRow_of_fit (hpos : 0 < pageSize) (hfits : Fits pageSize rows)
    (hrows : rows = before ++ row :: after) (hfit : row.Fit pageSize)
    {donePages doneOffsets pages offsets : List ℤ}
    (hdonePages : donePages.length = tokens before)
    (hdoneOffsets : doneOffsets.length = tokens before)
    (hpages : pages.length = tokens (row :: after))
    (hoffsets : offsets.length = tokens (row :: after)) :
    packRow (laid pageSize rows).toPagedIndptrs pageSize (tokens rows) before.length
        (donePages ++ pages, doneOffsets ++ offsets) =
      .ok (donePages ++ (row.writes pageSize).map Prod.fst ++ pages.drop row.span,
        doneOffsets ++ (row.writes pageSize).map Prod.snd ++ offsets.drop row.span) := by
  rw [packRow_eq hfits hrows]
  by_cases hnone : row.span = 0
  · rw [if_pos hnone]
    unfold PlanRow.writes
    rw [hnone]
    simp
  · have hspan : (row.span : ℤ) ≤ row.reach pageSize := hfit.resolve_left hnone
    have hwhole := (lastLen_bounds hpos row.length).2
    rw [tokens_cons] at hpages hoffsets
    rw [if_neg hnone, if_neg (by omega), packTokens_eq (fun j => (row.write pageSize j).1) _
      (by omega) (by omega) (by omega) (by omega)]
    · unfold PlanRow.writes
      rw [List.range_eq_range', List.map_map, List.map_map]
      rfl
    · intro i _ hi
      have hbounds := write_bounds hpos hfit (by omega : i < row.span)
      have hin := pagedKvIndices_getD hrows hbounds.2
      have hreads := hfits.reads
      have hsplit := reads_append pageSize before (row :: after)
      rw [reads_cons, ← hrows] at hsplit
      have hplace : (reads pageSize before : ℤ) + (row.reach pageSize - row.span + i) / pageSize =
          ((reads pageSize before +
            ((row.reach pageSize - row.span + i) / (pageSize : ℤ)).toNat : ℕ) : ℤ) := by omega
      rw [hplace, asUsize_natCast (by omega)]
      exact hin

/-- A row that its columns leave too short is refused. -/
theorem packRow_of_not_fit (hfits : Fits pageSize rows)
    (hrows : rows = before ++ row :: after) (hfit : ¬ row.Fit pageSize) (out : List ℤ × List ℤ) :
    packRow (laid pageSize rows).toPagedIndptrs pageSize (tokens rows) before.length out =
      .error (.pastItsPages before.length row.span (row.read pageSize).length
        (lastLen pageSize row.length)) := by
  unfold PlanRow.Fit at hfit
  rw [packRow_eq hfits hrows, if_neg (by omega), if_pos (by omega)]

/-- A row writes as many slots as it has tokens. -/
theorem length_writes (pageSize : ℕ) (row : PlanRow) : (row.writes pageSize).length = row.span := by
  unfold PlanRow.writes
  rw [List.length_map, List.length_range]

/-- The rows are those before a row, it and those after it. -/
theorem rows_around {r : ℕ} (hr : r < rows.length) :
    rows = rows.take r ++ rows[r] :: rows.drop (r + 1) ∧
      rows = rows.take r ++ [rows[r]] ++ rows.drop (r + 1) ∧ (rows.take r).length = r := by
  have hcut : rows = rows.take r ++ rows[r] :: rows.drop (r + 1) := by
    rw [List.getElem_cons_drop, List.take_append_drop]
  refine ⟨hcut, ?_, ?_⟩
  · rw [List.append_assoc]
    exact hcut
  · rw [List.length_take]
    omega

/-- The tokens with a last row. -/
theorem tokens_concat (before : List PlanRow) (row : PlanRow) :
    tokens (before ++ [row]) = tokens before + row.span := by
  rw [tokens_append, tokens_cons]
  rfl

/-- After a row that fits, the loop goes on with its tokens written. -/
theorem packRows_cons (hpos : 0 < pageSize) (hfits : Fits pageSize rows)
    (hrows : rows = before ++ row :: after) (hfit : row.Fit pageSize)
    {donePages doneOffsets pages offsets : List ℤ}
    (hdonePages : donePages.length = tokens before)
    (hdoneOffsets : doneOffsets.length = tokens before)
    (hpages : pages.length = tokens (row :: after))
    (hoffsets : offsets.length = tokens (row :: after)) :
    packRows (laid pageSize rows).toPagedIndptrs pageSize (tokens rows) (row :: after).length
        before.length (donePages ++ pages, doneOffsets ++ offsets) =
      packRows (laid pageSize rows).toPagedIndptrs pageSize (tokens rows) after.length
        (before ++ [row]).length
        (donePages ++ (row.writes pageSize).map Prod.fst ++ pages.drop row.span,
          doneOffsets ++ (row.writes pageSize).map Prod.snd ++ offsets.drop row.span) := by
  have hrow := packRow_of_fit hpos hfits hrows hfit hdonePages hdoneOffsets hpages hoffsets
  rw [List.length_cons, List.length_append, List.length_singleton, packRows, hrow]

/-- The rows left write their tokens after those of the rows done. -/
theorem packRows_of_fit (hpos : 0 < pageSize) (hfits : Fits pageSize rows)
    (hrows : rows = before ++ after) (hfit : ∀ row ∈ after, row.Fit pageSize)
    {donePages doneOffsets pages offsets : List ℤ}
    (hdonePages : donePages.length = tokens before)
    (hdoneOffsets : doneOffsets.length = tokens before)
    (hpages : pages.length = tokens after) (hoffsets : offsets.length = tokens after) :
    packRows (laid pageSize rows).toPagedIndptrs pageSize (tokens rows) after.length before.length
        (donePages ++ pages, doneOffsets ++ offsets) =
      .ok (donePages ++ (after.flatMap (PlanRow.writes pageSize)).map Prod.fst,
        doneOffsets ++ (after.flatMap (PlanRow.writes pageSize)).map Prod.snd) := by
  induction after generalizing before donePages doneOffsets pages offsets with
  | nil =>
    have hnoPages : pages = [] := List.length_eq_zero_iff.1 hpages
    have hnoOffsets : offsets = [] := List.length_eq_zero_iff.1 hoffsets
    rw [hnoPages, hnoOffsets]
    simp [packRows]
  | cons row after ih =>
    have hcut : rows = (before ++ [row]) ++ after := by rw [hrows, List.append_assoc]; rfl
    have hdone := tokens_concat before row
    have hwrites := length_writes pageSize row
    have hleft := tokens_cons row after
    rw [packRows_cons hpos hfits hrows (hfit row List.mem_cons_self) hdonePages hdoneOffsets
      hpages hoffsets, ih hcut (fun row hrow => hfit row (List.mem_cons_of_mem _ hrow))
      (by simp only [List.length_append, List.length_map]; omega)
      (by simp only [List.length_append, List.length_map]; omega)
      (by rw [List.length_drop]; omega) (by rw [List.length_drop]; omega)]
    simp only [List.flatMap_cons, List.map_append, List.append_assoc]

/-- The first of the rows left that is too short is refused. -/
theorem packRows_of_not_fit (hpos : 0 < pageSize) (hfits : Fits pageSize rows)
    (hrows : rows = before ++ after) (hfit : ¬ ∀ row ∈ after, row.Fit pageSize)
    {donePages doneOffsets pages offsets : List ℤ}
    (hdonePages : donePages.length = tokens before)
    (hdoneOffsets : doneOffsets.length = tokens before)
    (hpages : pages.length = tokens after) (hoffsets : offsets.length = tokens after) :
    ∃ (i : ℕ) (row : PlanRow), rows[i]? = some row ∧ ¬ row.Fit pageSize ∧
      packRows (laid pageSize rows).toPagedIndptrs pageSize (tokens rows) after.length
          before.length (donePages ++ pages, doneOffsets ++ offsets) =
        .error (.pastItsPages i row.span (row.read pageSize).length
          (lastLen pageSize row.length)) := by
  induction after generalizing before donePages doneOffsets pages offsets with
  | nil => exact absurd (fun row hrow => absurd hrow List.not_mem_nil) hfit
  | cons row after ih =>
    by_cases hrow : row.Fit pageSize
    · have hcut : rows = (before ++ [row]) ++ after := by rw [hrows, List.append_assoc]; rfl
      have hdone := tokens_concat before row
      have hwrites := length_writes pageSize row
      have hleft := tokens_cons row after
      have hshort : ¬ ∀ row ∈ after, row.Fit pageSize := by
        intro hall
        apply hfit
        intro other hother
        rw [List.mem_cons] at hother
        cases hother with
        | inl heq => rwa [heq]
        | inr hin => exact hall other hin
      rw [packRows_cons hpos hfits hrows hrow hdonePages hdoneOffsets hpages hoffsets]
      exact ih hcut hshort (by simp only [List.length_append, List.length_map]; omega)
        (by simp only [List.length_append, List.length_map]; omega)
        (by rw [List.length_drop]; omega) (by rw [List.length_drop]; omega)
    · refine ⟨before.length, row, ?_, hrow, ?_⟩
      · rw [hrows]
        simp
      · rw [List.length_cons, packRows, packRow_of_not_fit hfits hrows hrow]

/-- The addresses of all rows' new tokens, the pages and then the offsets. -/
def written (pageSize : ℕ) (rows : List PlanRow) : List ℤ :=
  (rows.flatMap (PlanRow.writes pageSize)).map Prod.fst ++
    (rows.flatMap (PlanRow.writes pageSize)).map Prod.snd

/-- The addressing starts its loop over a label's columns. -/
theorem packedAddressing_eq (hpos : 0 < pageSize) (hfits : Fits pageSize rows) {out : List ℤ}
    (hout : out.length = 2 * tokens rows) :
    packedAddressing (laid pageSize rows).toPagedIndptrs pageSize out =
      (packRows (laid pageSize rows).toPagedIndptrs pageSize (tokens rows) rows.length 0
        ([] ++ out.take (tokens rows), [] ++ out.drop (tokens rows))).map
          fun (pages, offsets) => pages ++ offsets := by
  have htokens := hfits.tokens
  have hn : (laid pageSize rows).pagedKvLastPageLen.length = rows.length := by
    simp [laid]
  have hqo : (laid pageSize rows).qoIndptr.length = rows.length + 1 := by
    simp [laid, cumsum_length]
  have hkv : (laid pageSize rows).pagedKvIndptr.length = rows.length + 1 := by
    simp [laid, cumsum_length]
  have htotal : (laid pageSize rows).qoIndptr.getD rows.length 0 = tokens rows :=
    qoIndptr_getD pageSize (List.append_nil rows).symm
  unfold packedAddressing
  dsimp only
  rw [hn, htotal, asUsize_natCast (by omega), if_neg (by omega), if_neg (by omega),
    if_neg (by omega)]
  rfl

/-- Both halves of the buffer are as long as the tokens. -/
theorem halves_length {out : List ℤ} (hout : out.length = 2 * tokens rows) :
    (out.take (tokens rows)).length = tokens rows ∧
      (out.drop (tokens rows)).length = tokens rows := by
  rw [List.length_take, List.length_drop]
  omega

/-- A label whose rows all fit has its tokens written row after row. -/
theorem packedAddressing_of_fit (hpos : 0 < pageSize) (hfits : Fits pageSize rows) {out : List ℤ}
    (hout : out.length = 2 * tokens rows) (hfit : ∀ row ∈ rows, row.Fit pageSize) :
    packedAddressing (laid pageSize rows).toPagedIndptrs pageSize out =
      .ok (written pageSize rows) := by
  rw [packedAddressing_eq hpos hfits hout]
  obtain ⟨hpages, hoffsets⟩ := halves_length hout
  have hloop := packRows_of_fit hpos hfits (List.nil_append rows).symm hfit List.length_nil
    List.length_nil hpages hoffsets
  rw [List.length_nil] at hloop
  rw [hloop]
  rfl

/-- A label with a row that does not fit is refused, for such a row. -/
theorem packedAddressing_of_not_fit (hpos : 0 < pageSize) (hfits : Fits pageSize rows)
    {out : List ℤ} (hout : out.length = 2 * tokens rows)
    (hfit : ¬ ∀ row ∈ rows, row.Fit pageSize) :
    ∃ (i : ℕ) (row : PlanRow), rows[i]? = some row ∧ ¬ row.Fit pageSize ∧
      packedAddressing (laid pageSize rows).toPagedIndptrs pageSize out =
        .error (.pastItsPages i row.span (row.read pageSize).length
          (lastLen pageSize row.length)) := by
  rw [packedAddressing_eq hpos hfits hout]
  obtain ⟨hpages, hoffsets⟩ := halves_length hout
  obtain ⟨i, row, hrow, hshort, hloop⟩ := packRows_of_not_fit hpos hfits
    (List.nil_append rows).symm hfit List.length_nil List.length_nil hpages hoffsets
  rw [List.length_nil] at hloop
  refine ⟨i, row, hrow, hshort, ?_⟩
  rw [hloop]
  rfl

end Rows

end Mstar.PageArena
