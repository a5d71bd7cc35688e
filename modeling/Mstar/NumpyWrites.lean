import Mstar.PackedWrites

/-!
# The numpy addressing of a label

Numpy repeats each row's number once per new token, and counts all tokens in one
range. Over a label's columns this makes the addresses of the row-by-row loop, or refuses
the label that the loop refuses.
-/

namespace Mstar.PageArena

/-- The tokens of some rows, one after the other, numbered in their row. -/
theorem map_zipIdx_repeat {β : Type} (xs : List ℕ) (f : ℕ → ℕ → β) {n : ℕ} (hn : n ≤ xs.length) :
    (((List.range n).flatMap fun r => List.replicate (xs.getD r 0) r).zipIdx.map
        fun (r, i) => f r i) =
      (List.range n).flatMap fun r =>
        (List.range (xs.getD r 0)).map fun j => f r ((xs.take r).sum + j) := by
  have hlength : ∀ n ≤ xs.length,
      ((List.range n).flatMap fun r => List.replicate (xs.getD r 0) r).length =
        (xs.take n).sum := by
    intro n hn
    induction n with
    | zero => rfl
    | succ n ih =>
      have htake : (xs.take (n + 1)).sum = (xs.take n).sum + xs[n] := by
        rw [List.take_succ_eq_append_getElem (by omega), List.sum_append, List.sum_singleton]
      have hat : xs.getD n 0 = xs[n] := List.getD_eq_getElem xs 0 (by omega)
      rw [List.range_succ, List.flatMap_append, List.length_append, ih (by omega), htake,
        List.flatMap_cons, List.flatMap_nil, List.append_nil, List.length_replicate, hat]
  induction n with
  | zero => rfl
  | succ n ih =>
    have hcount := hlength n (by omega)
    rw [List.range_succ, List.flatMap_append, List.flatMap_append, List.zipIdx_append,
      List.map_append, ih (by omega), hcount, Nat.zero_add]
    congr 1
    simp only [List.flatMap_cons, List.flatMap_nil, List.append_nil]
    apply List.ext_getElem
    · simp
    · intro j _ _
      simp

/-- The differences of running sums that fit. -/
theorem diff_cumsum (sum : ℕ) (xs : List ℕ) (hfits : sum + xs.sum < 2147483648) :
    diff ((sum :: cumsum sum xs).map Int.ofNat) = xs.map Int.ofNat := by
  induction xs generalizing sum with
  | nil => rfl
  | cons x xs ih =>
    rw [List.sum_cons] at hfits
    have hrest := ih (sum + x) (by omega)
    have hfirst : asI32 (Int.ofNat (sum + x) - Int.ofNat sum) = Int.ofNat x := by
      have hdiff : Int.ofNat (sum + x) - Int.ofNat sum = Int.ofNat x := by
        change ((sum + x : ℕ) : ℤ) - (sum : ℤ) = (x : ℤ)
        omega
      rw [hdiff]
      apply asI32_of_isI32
      unfold IsI32
      change _ ≤ (x : ℤ) ∧ (x : ℤ) < _
      omega
    unfold cumsum
    rw [List.map_cons, List.map_cons, List.map_cons, diff, hfirst, ← List.map_cons, hrest]

/-- Entries at places that are all in an array. -/
theorem takeAll_ok {indices places : List ℤ}
    (hin : ∀ i ∈ places, 0 ≤ i ∧ i.toNat < indices.length) :
    takeAll indices places = .ok (places.map fun i => indices.getD i.toNat 0) := by
  induction places with
  | nil => rfl
  | cons i places ih =>
    obtain ⟨hlow, hhigh⟩ := hin i List.mem_cons_self
    have hrest := ih fun i hi => hin i (List.mem_cons_of_mem _ hi)
    unfold takeAll place
    rw [if_pos hlow, if_pos hhigh, hrest]
    rfl

/-- What is done with each row's number is done with the row. -/
theorem flatMap_range {α β : Type} (rows : List α) {f : α → List β} {g : ℕ → List β}
    (hg : ∀ r (h : r < rows.length), g r = f rows[r]) :
    (List.range rows.length).flatMap g = rows.flatMap f := by
  have hmap : (List.range rows.length).map g = rows.map f := by
    apply List.ext_getElem
    · simp
    · intro r hr _
      rw [List.length_map, List.length_range] at hr
      simp [hg r hr]
  rw [List.flatMap_def, List.flatMap_def, hmap]

section Rows

variable {pageSize : ℕ} {rows : List PlanRow}

/-- A column's entry is of its row. -/
theorem getD_map_row (f : PlanRow → ℤ) {r : ℕ} (hr : r < rows.length) :
    (rows.map f).getD r 0 = f rows[r] := by
  rw [List.getD_eq_getElem _ _ (by simpa using hr), List.getElem_map]

/-- What numpy computes for each row of a label. -/
structure Columned (pageSize : ℕ) (rows : List PlanRow) : Prop where
  spans : diff (laid pageSize rows).qoIndptr = rows.map fun row => (row.span : ℤ)
  held : diff (laid pageSize rows).pagedKvIndptr =
    rows.map fun row => ((row.read pageSize).length : ℤ)
  kvAfter : List.zipWith (fun held last => asI32 ((held - 1) * pageSize + last))
      (rows.map fun row => ((row.read pageSize).length : ℤ))
      (laid pageSize rows).pagedKvLastPageLen =
    rows.map (PlanRow.reach pageSize)

/-- Rows that fit are columned. -/
theorem columned (hpos : 0 < pageSize) (hfits : Fits pageSize rows) : Columned pageSize rows where
  spans := by
    have htokens := hfits.tokens
    unfold tokens at htokens
    unfold laid
    dsimp only
    rw [diff_cumsum _ _ (by omega), List.map_map]
    rfl
  held := by
    have hreads := hfits.reads
    unfold reads at hreads
    unfold laid
    dsimp only
    rw [diff_cumsum _ _ (by omega), List.map_map]
    rfl
  kvAfter := by
    unfold laid
    dsimp only
    rw [List.zipWith_map, List.zipWith_self]
    apply List.map_congr_left
    intro row hrow
    apply asI32_of_isI32
    have hlow := row.le_reach hpos
    have hhigh := row.reach_le hpos
    have hsize := hfits.size
    have hlength := hfits.lengths row hrow
    unfold PlanRow.reach at hlow hhigh
    constructor
    · omega
    · omega

/-- Numpy's check of the rows that write. -/
theorem checked_iff (hpos : 0 < pageSize) :
    ((List.range rows.length).all fun r => decide (
        0 < (rows.map fun row => (row.span : ℤ)).getD r 0 →
          (rows.map fun row => (row.span : ℤ)).getD r 0 ≤
            (rows.map (PlanRow.reach pageSize)).getD r 0 ∧
          (laid pageSize rows).pagedKvLastPageLen.getD r 0 ≤ pageSize)) = true ↔
      ∀ row ∈ rows, row.Fit pageSize := by
  rw [List.all_eq_true]
  constructor
  · intro hall row hmem
    obtain ⟨r, hr, rfl⟩ := List.mem_iff_getElem.1 hmem
    have hrow := hall r (List.mem_range.2 hr)
    rw [decide_eq_true_eq, getD_map_row _ hr, getD_map_row _ hr] at hrow
    unfold PlanRow.Fit
    by_cases hnone : rows[r].span = 0
    · exact Or.inl hnone
    · exact Or.inr (hrow (by omega)).1
  · intro hall r hr
    rw [List.mem_range] at hr
    have hfit := hall rows[r] (List.getElem_mem hr)
    rw [decide_eq_true_eq, getD_map_row _ hr, getD_map_row _ hr]
    intro hsome
    constructor
    · exact hfit.resolve_left (by omega)
    · have hlast : (laid pageSize rows).pagedKvLastPageLen.getD r 0 =
          lastLen pageSize rows[r].length := getD_map_row _ hr
      rw [hlast]
      exact (lastLen_bounds hpos _).2

/-- A token's position in its stream, as numpy has it. -/
def numpyPos (pageSize : ℕ) (rows : List PlanRow) (r i : ℕ) : ℤ :=
  asI32 ((rows.map (PlanRow.reach pageSize)).getD r 0 -
    (rows.map fun row => (row.span : ℤ)).getD r 0 - (laid pageSize rows).qoIndptr.getD r 0) + i

/-- It is the position that the loop has. -/
theorem numpyPos_eq (hpos : 0 < pageSize) (hfits : Fits pageSize rows) {r j : ℕ}
    (hr : r < rows.length) (hfit : rows[r].Fit pageSize) (hj : j < rows[r].span) :
    numpyPos pageSize rows r (((rows.map PlanRow.span).take r).sum + j) =
      rows[r].reach pageSize - rows[r].span + j := by
  have hcut : rows = rows.take r ++ rows.drop r := (List.take_append_drop r rows).symm
  have hbegin := qoIndptr_getD pageSize hcut
  have hlength : (rows.take r).length = r := by
    rw [List.length_take]
    omega
  have htake : ((rows.map PlanRow.span).take r).sum = tokens (rows.take r) := by
    unfold tokens
    rw [List.map_take]
  have hsplit := tokens_append (rows.take r) (rows.drop r)
  rw [← hcut] at hsplit
  have hspan : (rows[r].span : ℤ) ≤ rows[r].reach pageSize := hfit.resolve_left (by omega)
  have hreach := rows[r].reach_le hpos
  have hrow := hfits.lengths rows[r] (List.getElem_mem hr)
  have htokens := hfits.tokens
  rw [hlength] at hbegin
  unfold numpyPos
  rw [getD_map_row _ hr, getD_map_row _ hr, hbegin, htake, asI32_of_isI32]
  · push_cast
    omega
  · constructor
    · omega
    · omega

/-- Each token's row, all rows' tokens one after the other. -/
def segOf (rows : List PlanRow) : List ℕ :=
  (List.range rows.length).flatMap fun r =>
    List.replicate ((rows.map fun row => (row.span : ℤ)).getD r 0).toNat r

/-- What numpy does for each token is done for each row's tokens in turn. -/
theorem map_segOf (f : ℕ → ℕ → ℤ) :
    ((segOf rows).zipIdx.map fun (r, i) => f r i) =
      (List.range rows.length).flatMap fun r =>
        (List.range ((rows.map PlanRow.span).getD r 0)).map fun j =>
          f r (((rows.map PlanRow.span).take r).sum + j) := by
  have hspan : ∀ r, ((rows.map fun row => (row.span : ℤ)).getD r 0).toNat =
      (rows.map PlanRow.span).getD r 0 := by
    intro r
    have hmap : (rows.map fun row => (row.span : ℤ)) =
        (rows.map PlanRow.span).map Int.ofNat := by
      rw [List.map_map]
      rfl
    rw [hmap]
    change (((rows.map PlanRow.span).map Int.ofNat).getD r (Int.ofNat 0)).toNat = _
    rw [List.getD_map]
    rfl
  unfold segOf
  simp only [hspan]
  exact map_zipIdx_repeat _ _ (by simp)

/-- What depends on the row alone is done row after row. -/
theorem map_segOf_row {f : ℕ → ℕ → ℤ} {g : PlanRow → ℕ → ℤ}
    (hf : ∀ r (h : r < rows.length), ∀ j < rows[r].span,
      f r (((rows.map PlanRow.span).take r).sum + j) = g rows[r] j) :
    ((segOf rows).zipIdx.map fun (r, i) => f r i) =
      rows.flatMap fun row => (List.range row.span).map (g row) := by
  rw [map_segOf]
  apply flatMap_range
  intro r hr
  have hat : (rows.map PlanRow.span).getD r 0 = rows[r].span := by
    rw [List.getD_eq_getElem _ _ (by simpa using hr), List.getElem_map]
  rw [hat]
  apply List.map_congr_left
  intro j hj
  exact hf r hr j (List.mem_range.1 hj)

/-- A segment number for each token. -/
theorem length_segOf : (segOf rows).length = tokens rows := by
  have hmap : ((segOf rows).zipIdx.map fun _ => (0 : ℤ)) =
      rows.flatMap fun row => (List.range row.span).map fun _ => (0 : ℤ) :=
    map_segOf_row (f := fun _ _ => 0) fun _ _ _ _ => rfl
  have hlength := congrArg List.length hmap
  rw [List.length_map, List.length_zipIdx, List.length_flatMap] at hlength
  rw [hlength]
  simp only [List.length_map, List.length_range]
  rfl

/-- The place of a token's page among all pages. -/
def numpyPlace (pageSize : ℕ) (rows : List PlanRow) (r i : ℕ) : ℤ :=
  (laid pageSize rows).pagedKvIndptr.getD r 0 + floorDiv (numpyPos pageSize rows r i) pageSize

/-- There is the page that the loop finds. -/
theorem numpyPlace_eq (hpos : 0 < pageSize) (hfits : Fits pageSize rows) {r j : ℕ}
    (hr : r < rows.length) (hfit : rows[r].Fit pageSize) (hj : j < rows[r].span) :
    let at_ := numpyPlace pageSize rows r (((rows.map PlanRow.span).take r).sum + j)
    0 ≤ at_ ∧ at_.toNat < (laid pageSize rows).pagedKvIndices.length ∧
      (laid pageSize rows).pagedKvIndices.getD at_.toNat 0 = (rows[r].write pageSize j).1 := by
  intro at_
  obtain ⟨hcut, -, hlength⟩ := rows_around hr
  have hbegin := pagedKvIndptr_getD pageSize hcut
  have hbounds := write_bounds hpos hfit hj
  have hin := pagedKvIndices_getD hcut hbounds.2
  have hdiv : at_ = reads pageSize (rows.take r) +
      (rows[r].reach pageSize - rows[r].span + j) / pageSize := by
    rw [hlength] at hbegin
    change numpyPlace _ _ _ _ = _
    unfold numpyPlace floorDiv
    rw [numpyPos_eq hpos hfits hr hfit hj, hbegin, if_neg (by omega)]
  have hat : at_.toNat = reads pageSize (rows.take r) +
      ((rows[r].reach pageSize - rows[r].span + j) / (pageSize : ℤ)).toNat := by omega
  refine ⟨by omega, ?_, ?_⟩
  · rw [hat]
    exact hin.1
  · rw [hat]
    exact hin.2

/-- No span is negative. -/
theorem spans_nonneg (rows : List PlanRow) :
    ((rows.map fun row => (row.span : ℤ)).any (· < 0)) = false := by
  rw [List.any_eq_false]
  intro span hspan
  obtain ⟨row, _, rfl⟩ := List.mem_map.1 hspan
  simp

/-- A label whose rows all fit gets the addresses that the loop writes. -/
theorem numpyAddressing_of_fit (hpos : 0 < pageSize) (hfits : Fits pageSize rows)
    (hfit : ∀ row ∈ rows, row.Fit pageSize) :
    numpyAddressing (laid pageSize rows).toPagedIndptrs (tokens rows) pageSize =
      .ok (written pageSize rows) := by
  obtain ⟨hspans, hheld, hkvAfter⟩ := columned hpos hfits
  have hn : (laid pageSize rows).pagedKvLastPageLen.length = rows.length := by
    simp [laid]
  have hnegative := spans_nonneg rows
  have hcheck := (checked_iff hpos).2 hfit
  have hpairs : ∀ part : ℤ × ℤ → ℤ, (rows.flatMap (PlanRow.writes pageSize)).map part =
      rows.flatMap fun row => (List.range row.span).map fun j => part (row.write pageSize j) := by
    intro part
    rw [List.map_flatMap]
    unfold PlanRow.writes
    simp only [List.map_map]
    rfl
  have hoffsets : (((segOf rows).zipIdx.map fun (r, i) => numpyPos pageSize rows r i).map
      (floorMod · pageSize)) = (rows.flatMap (PlanRow.writes pageSize)).map Prod.snd := by
    rw [List.map_map, hpairs]
    apply map_segOf_row (f := fun r i => floorMod (numpyPos pageSize rows r i) pageSize)
    intro r hr j hj
    unfold floorMod
    rw [numpyPos_eq hpos hfits hr (hfit _ (List.getElem_mem hr)) hj, if_neg (by omega)]
    rfl
  have hplaces : List.zipWith (fun r page => (laid pageSize rows).pagedKvIndptr.getD r 0 + page)
      (segOf rows) (((segOf rows).zipIdx.map fun (r, i) => numpyPos pageSize rows r i).map
        (floorDiv · pageSize)) =
      (segOf rows).zipIdx.map fun (r, i) => numpyPlace pageSize rows r i := by
    rw [List.map_map]
    nth_rewrite 1 [← List.zipIdx_map_fst 0 (segOf rows)]
    rw [List.zipWith_map, List.zipWith_self]
    rfl
  have hin : ∀ i ∈ (segOf rows).zipIdx.map (fun (r, i) => numpyPlace pageSize rows r i),
      0 ≤ i ∧ i.toNat < (laid pageSize rows).pagedKvIndices.length := by
    intro i hi
    rw [map_segOf, List.mem_flatMap] at hi
    obtain ⟨r, hr, hi⟩ := hi
    obtain ⟨j, hj, rfl⟩ := List.mem_map.1 hi
    rw [List.mem_range] at hr hj
    rw [List.getD_eq_getElem _ _ (by simpa using hr), List.getElem_map] at hj
    have hplace := numpyPlace_eq hpos hfits hr (hfit _ (List.getElem_mem hr)) hj
    exact ⟨hplace.1, hplace.2.1⟩
  have hpages : (((segOf rows).zipIdx.map fun (r, i) => numpyPlace pageSize rows r i).map
      fun i => (laid pageSize rows).pagedKvIndices.getD i.toNat 0) =
      (rows.flatMap (PlanRow.writes pageSize)).map Prod.fst := by
    rw [List.map_map, hpairs]
    apply map_segOf_row (f := fun r i => (laid pageSize rows).pagedKvIndices.getD
      (numpyPlace pageSize rows r i).toNat 0)
    intro r hr j hj
    exact (numpyPlace_eq hpos hfits hr (hfit _ (List.getElem_mem hr)) hj).2.2
  unfold numpyAddressing
  dsimp only
  rw [hspans, hheld, hkvAfter, hnegative, hn, List.length_map, List.length_map, hcheck,
    if_neg (by decide), if_neg (by omega), if_neg (by decide)]
  change (if (segOf rows).length ≠ tokens rows then _ else
    (takeAll (laid pageSize rows).pagedKvIndices
      (List.zipWith (fun r page => (laid pageSize rows).pagedKvIndptr.getD r 0 + page)
        (segOf rows) (((segOf rows).zipIdx.map fun (r, i) => numpyPos pageSize rows r i).map
          (floorDiv · pageSize)))).map fun pages => pages ++
      (((segOf rows).zipIdx.map fun (r, i) => numpyPos pageSize rows r i).map
        (floorMod · pageSize))) = _
  rw [if_neg (by rw [length_segOf]; omega), hplaces, takeAll_ok hin, hpages, hoffsets]
  rfl

/-- A label with a row that does not fit is refused. -/
theorem numpyAddressing_of_not_fit (hpos : 0 < pageSize) (hfits : Fits pageSize rows)
    (hfit : ¬ ∀ row ∈ rows, row.Fit pageSize) :
    numpyAddressing (laid pageSize rows).toPagedIndptrs (tokens rows) pageSize =
      .error (.pastItsPages (rows.map fun row => (row.span : ℤ))
        (laid pageSize rows).pagedKvIndptr (laid pageSize rows).pagedKvLastPageLen) := by
  obtain ⟨hspans, hheld, hkvAfter⟩ := columned hpos hfits
  have hn : (laid pageSize rows).pagedKvLastPageLen.length = rows.length := by
    simp [laid]
  have hnegative := spans_nonneg rows
  have hcheck := (checked_iff hpos).not.2 hfit
  rw [Bool.not_eq_true] at hcheck
  unfold numpyAddressing
  dsimp only
  rw [hspans, hheld, hkvAfter, hnegative, hn, List.length_map, List.length_map, hcheck,
    if_neg (by decide), if_neg (by omega), if_pos (by decide)]

end Rows

end Mstar.PageArena
