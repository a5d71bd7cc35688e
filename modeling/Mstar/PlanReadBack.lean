import Mstar.WriteAddresses
import Mathlib.Tactic.Ring

/-!
# A label's columns read back

Where a label's lengths and page counts stay within int32, its buffer holds the columns
of its rows: the running counts of tokens and pages, the pages read one row after the
other, and each row's last page and what is in it.
-/

namespace Mstar.PageArena

/-- The running sums by place. -/
theorem getD_cumsum (sum : ℕ) (xs : List ℕ) {r : ℕ} (hr : r ≤ xs.length) :
    (sum :: cumsum sum xs).getD r 0 = sum + (xs.take r).sum := by
  induction xs generalizing sum r with
  | nil =>
    have hzero : r = 0 := by simpa using hr
    rw [hzero]
    rfl
  | cons x xs ih =>
    cases r with
    | zero => rfl
    | succ r =>
      have hrest := ih (sum + x) (by simpa using hr)
      rw [List.getD_cons_succ, List.take_succ_cons, List.sum_cons, ← Nat.add_assoc, ← hrest]
      rfl

/-- The buffer's parts, where each is as long as its place in it. -/
theorem columnsFromRaw_append {n : ℕ} {a b c d e f : List ℤ} (g : List ℤ) (allHavePages : Bool)
    (ha : a.length = n + 1) (hb : b.length = n + 1) (hc : c.length = n) (hd : d.length = n)
    (he : e.length = n) (hf : f.length = n) :
    columnsFromRaw (a ++ b ++ c ++ d ++ e ++ f ++ g) allHavePages n =
      ⟨⟨a, b, g, c⟩, d, e, f, allHavePages⟩ := by
  have htake : ∀ xs ys : List ℤ, (xs ++ ys).take xs.length = xs := fun _ _ => List.take_left
  have hdrop : ∀ xs ys : List ℤ, (xs ++ ys).drop xs.length = ys := fun _ _ => List.drop_left
  have hqo := htake a (b ++ c ++ d ++ e ++ f ++ g)
  have hkv := hdrop a (b ++ c ++ d ++ e ++ f ++ g)
  have hkv' := htake b (c ++ d ++ e ++ f ++ g)
  have hlast := hdrop (a ++ b) (c ++ d ++ e ++ f ++ g)
  have hlast' := htake c (d ++ e ++ f ++ g)
  have hlens := hdrop (a ++ b ++ c) (d ++ e ++ f ++ g)
  have hlens' := htake d (e ++ f ++ g)
  have hpages := hdrop (a ++ b ++ c ++ d) (e ++ f ++ g)
  have hpages' := htake e (f ++ g)
  have hoffsets := hdrop (a ++ b ++ c ++ d ++ e) (f ++ g)
  have hoffsets' := htake f g
  have hindices := hdrop (a ++ b ++ c ++ d ++ e ++ f) g
  simp only [List.length_append, ha, hb, hc, hd, he, hf, List.append_assoc] at *
  have h2 : n + 1 + (n + 1) = 2 * (n + 1) := by omega
  have h3 : n + 1 + (n + 1 + n) = 2 * (n + 1) + n := by omega
  have h4 : n + 1 + (n + 1 + (n + n)) = 2 * (n + 1) + 2 * n := by omega
  have h5 : n + 1 + (n + 1 + (n + (n + n))) = 2 * (n + 1) + 3 * n := by omega
  have h6 : n + 1 + (n + 1 + (n + (n + (n + n)))) = 2 * (n + 1) + 4 * n := by omega
  simp only [h2, h3, h4, h5, h6] at *
  unfold columnsFromRaw
  simp only [hqo, hkv, hkv', hlast, hlast', hlens, hlens', hpages, hpages',
    hoffsets, hoffsets', hindices]

/-- The tokens a step appends. -/
def tokens (rows : List PlanRow) : ℕ := (rows.map PlanRow.span).sum

/-- The pages a step reads. -/
def reads (pageSize : ℕ) (rows : List PlanRow) : ℕ :=
  (rows.map fun row => (row.read pageSize).length).sum

/-- A label's columns, each computed over its rows. -/
def laid (pageSize : ℕ) (rows : List PlanRow) : LabelColumns where
  qoIndptr := (0 :: cumsum 0 (rows.map PlanRow.span)).map Int.ofNat
  pagedKvIndptr := (0 :: cumsum 0 (rows.map fun row => (row.read pageSize).length)).map Int.ofNat
  pagedKvIndices := (rows.map (PlanRow.read pageSize)).flatten
  pagedKvLastPageLen := rows.map fun row => lastLen pageSize row.length
  kvLens := rows.map fun row =>
    ((max (row.read pageSize).length 1 - 1 : ℕ) : ℤ) * pageSize + lastLen pageSize row.length
  decodePages := rows.map fun row => (row.read pageSize).getLastD 0
  decodeOffsets := rows.map fun row => lastLen pageSize row.length - 1
  allHavePages := rows.all fun row => decide (0 < (row.read pageSize).length)

/-- A label that the plan's int32 arrays can hold. -/
structure Fits (pageSize : ℕ) (rows : List PlanRow) : Prop where
  size : pageSize < 2147483648
  pages : ∀ row ∈ rows, ∀ page ∈ row.pageIndices, IsI32 page
  lengths : ∀ row ∈ rows, row.length < 2147483648
  tokens : tokens rows < 2147483648
  reads : reads pageSize rows < 2147483648

section

variable {pageSize : ℕ}

namespace PlanRow

/-- No more pages are read than the row's length takes. -/
theorem length_read_le (row : PlanRow) :
    (row.read pageSize).length ≤ (row.length + pageSize - 1) / pageSize := by
  unfold read readOf
  rw [List.length_take]
  omega

/-- The length that a row's columns say it has. -/
def reach (pageSize : ℕ) (row : PlanRow) : ℤ :=
  ((row.read pageSize).length - 1 : ℤ) * pageSize + lastLen pageSize row.length

/-- It is all pages but one and what the last of them holds. -/
theorem reach_eq (row : PlanRow) : row.reach pageSize =
    ((row.read pageSize).length : ℤ) * pageSize - pageSize + lastLen pageSize row.length := by
  unfold reach
  ring

/-- It is not longer than the row. -/
theorem reach_le (hpos : 0 < pageSize) (row : PlanRow) : row.reach pageSize ≤ row.length := by
  have hread : ((row.read pageSize).length : ℤ) ≤
      (((row.length + pageSize - 1) / pageSize : ℕ) : ℤ) := by
    exact_mod_cast row.length_read_le
  have hmul := Int.mul_le_mul_of_nonneg_right hread (by omega : (0 : ℤ) ≤ pageSize)
  have hpages := pages_mul hpos row.length
  rw [reach_eq]
  omega

/-- It is at most a page less than nothing. -/
theorem le_reach (hpos : 0 < pageSize) (row : PlanRow) : -(pageSize : ℤ) < row.reach pageSize := by
  have hlast := lastLen_bounds hpos row.length
  have hmul := Int.mul_nonneg (by omega : (0 : ℤ) ≤ (row.read pageSize).length)
    (by omega : (0 : ℤ) ≤ pageSize)
  rw [reach_eq]
  omega

end PlanRow

variable {rows : List PlanRow}

/-- What the rows of a label read. -/
theorem reads_rows : List.zipWith (readOf pageSize) (rows.map PlanRow.pageIndices)
    (rows.map PlanRow.length) = rows.map (PlanRow.read pageSize) := by
  rw [List.zipWith_map, List.zipWith_self]
  rfl

/-- A label that fits has columns that do. -/
theorem Fits.columnsFit (hfits : Fits pageSize rows) :
    ColumnsFit pageSize (rows.map PlanRow.pageIndices) (rows.map PlanRow.length)
      (rows.map PlanRow.span) where
  size := hfits.size
  pages := by
    intro pages hpages page hpage
    obtain ⟨row, hrow, rfl⟩ := List.mem_map.1 hpages
    exact hfits.pages row hrow page hpage
  lengths := by
    intro len hlen
    obtain ⟨row, hrow, rfl⟩ := List.mem_map.1 hlen
    exact hfits.lengths row hrow
  tokens := hfits.tokens
  reads := by
    rw [reads_rows, List.map_map]
    exact hfits.reads

/-- A label that fits has its columns made. -/
theorem planLabel_eq (hpos : 0 < pageSize) (hfits : Fits pageSize rows) :
    planLabel pageSize rows = .ok (laid pageSize rows) := by
  have hlens : (rows.map PlanRow.length).length = (rows.map PlanRow.pageIndices).length := by simp
  have hspans : (rows.map PlanRow.span).length = (rows.map PlanRow.pageIndices).length := by simp
  unfold planLabel
  rw [kvPlanColumns_eq hpos ?held hlens hspans]
  case held =>
    intro j h
    rw [List.length_map] at h
    rw [Nat.zero_add, List.getElem?_eq_getElem h, List.getElem_map]
  simp only [Except.map]
  unfold planned
  dsimp only
  rw [map_asI32 fun x hx => isI32_of_mem_raw hpos hfits.columnsFit hx, reads_rows]
  unfold rawColumns
  rw [columnsFromRaw_append]
  · unfold laid
    simp only [List.map_map, List.zipWith_map, List.zipWith_self, List.all_map]
    rfl
  · simp [cumsum_length]
  · simp [cumsum_length]
  · simp
  · simp
  · simp
  · simp

end

end Mstar.PageArena
