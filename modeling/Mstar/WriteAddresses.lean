import Mstar.ArenaColumns

/-!
# Where a step's new tokens are written

A plan label's index arrays as int32, the packed addressing computed from them
row by row and in numpy, and the locations a decode step reads off its views.
-/

namespace Mstar.PageArena

/-- A number cast to a machine size. -/
def asUsize (x : ℤ) : ℕ := (x % 18446744073709551616).toNat

/-- The four index arrays of a paged-attention wrapper's plan. -/
structure PagedIndptrs where
  /-- Where each row's new tokens begin, and their number at the end. -/
  qoIndptr : List ℤ
  /-- Where each row's pages begin, and their number at the end. -/
  pagedKvIndptr : List ℤ
  /-- The pages of all rows. -/
  pagedKvIndices : List ℤ
  /-- The tokens in each row's last page. -/
  pagedKvLastPageLen : List ℤ

/-- A label's columns: its index arrays and what goes with them. -/
structure LabelColumns extends PagedIndptrs where
  /-- Each row's length as the wrapper counts it. -/
  kvLens : List ℤ
  /-- Each row's last page. -/
  decodePages : List ℤ
  /-- The place of each row's last token in it. -/
  decodeOffsets : List ℤ
  /-- Whether every row has a page to write into. -/
  allHavePages : Bool

/-- The columns of some rows, as they lie in one buffer. -/
def columnsFromRaw (buf : List ℤ) (allHavePages : Bool) (n : ℕ) : LabelColumns where
  qoIndptr := buf.take (n + 1)
  pagedKvIndptr := (buf.drop (n + 1)).take (n + 1)
  pagedKvIndices := buf.drop (2 * (n + 1) + 4 * n)
  pagedKvLastPageLen := (buf.drop (2 * (n + 1))).take n
  kvLens := (buf.drop (2 * (n + 1) + n)).take n
  decodePages := (buf.drop (2 * (n + 1) + 2 * n)).take n
  decodeOffsets := (buf.drop (2 * (n + 1) + 3 * n)).take n
  allHavePages := allHavePages

/-- A row of a label: a stream and the tokens the step appends to it. -/
structure PlanRow where
  /-- The stream's pages. -/
  pageIndices : List ℤ
  /-- The tokens it stores. -/
  storedLen : ℕ
  /-- The tokens the step appends. -/
  span : ℕ

namespace PlanRow

/-- The row's length after the step. -/
def length (row : PlanRow) : ℕ := row.span + row.storedLen

/-- The pages the row reads. -/
def read (pageSize : ℕ) (row : PlanRow) : List ℤ := readOf pageSize row.pageIndices row.length

end PlanRow

/-- A label's columns from one call over its rows. -/
def planLabel (pageSize : ℕ) (rows : List PlanRow) : Except Raised LabelColumns :=
  (kvPlanColumns
      (fun i => match rows[i]? with
        | some row => .ok row.pageIndices
        | none => .error ⟨.keyError, none⟩)
      (rows.map PlanRow.length) (rows.map PlanRow.span) pageSize).map fun cols =>
    columnsFromRaw cols.out cols.allHavePages rows.length

/-- Why no addresses are made of a label's arrays, row by row. -/
inductive PackError where
  | lengths
  | pageSize
  | slots (slots tokens : ℕ)
  | descending (row : ℕ)
  | pastItsPages (row span : ℕ) (pages last : ℤ)
  | pastIndices (row page : ℕ)
  deriving DecidableEq

/-- The text of the exception. -/
def PackError.text : PackError → String
  | .lengths => "indptrs and rows of different lengths"
  | .pageSize => "page_size must be positive"
  | .slots found tokens => s!"{found} output slots for {tokens} tokens"
  | .descending row => s!"row {row}: qo_indptr is not ascending"
  | .pastItsPages row span pages last =>
    s!"KV packed plan: row {row} writes past its own pages " ++
      s!"({span} new tokens, {pages} pages, last page length {last})"
  | .pastIndices row page => s!"row {row}: page {page} is past the plan's indices"

/-- The addresses of some tokens of one row, the first at a place of the output. -/
def packTokens (indices : List ℤ) (pageSize k0 start : ℤ) (row q0 : ℕ) :
    ℕ → ℕ → List ℤ × List ℤ → Except PackError (List ℤ × List ℤ)
  | 0, _, out => .ok out
  | count + 1, j, (pages, offsets) =>
    let pos := start + j
    -- neither is negative here, so the quotient and the rest are the truncated ones
    let page := asUsize (k0 + pos / pageSize)
    if indices.length ≤ page then .error (.pastIndices row page)
    else
      packTokens indices pageSize k0 start row q0 count (j + 1)
        (pages.set (q0 + j) (indices.getD page 0), offsets.set (q0 + j) (pos % pageSize))

/-- The addresses of one row's tokens. -/
def packRow (arrays : PagedIndptrs) (pageSize : ℤ) (total row : ℕ) (out : List ℤ × List ℤ) :
    Except PackError (List ℤ × List ℤ) :=
  let q0 := asUsize (arrays.qoIndptr.getD row 0)
  let q1 := asUsize (arrays.qoIndptr.getD (row + 1) 0)
  if q1 < q0 ∨ total < q1 then .error (.descending row)
  else
    let span := q1 - q0
    if span = 0 then .ok out
    else
      let k0 := arrays.pagedKvIndptr.getD row 0
      let held := arrays.pagedKvIndptr.getD (row + 1) 0 - k0
      let last := arrays.pagedKvLastPageLen.getD row 0
      let start := (held - 1) * pageSize + last - span
      if start < 0 ∨ pageSize < last then .error (.pastItsPages row span held last)
      else packTokens arrays.pagedKvIndices pageSize k0 start row q0 span 0 out

/-- The addresses of the tokens of some rows, the first by its number. -/
def packRows (arrays : PagedIndptrs) (pageSize : ℤ) (total : ℕ) :
    ℕ → ℕ → List ℤ × List ℤ → Except PackError (List ℤ × List ℤ)
  | 0, _, out => .ok out
  | count + 1, row, out =>
    match packRow arrays pageSize total row out with
    | .ok out => packRows arrays pageSize total count (row + 1) out
    | .error e => .error e

/-- Each new token's page, then each one's offset in it, written over the output. -/
def packedAddressing (arrays : PagedIndptrs) (pageSize : ℤ) (out : List ℤ) :
    Except PackError (List ℤ) :=
  let n := arrays.pagedKvLastPageLen.length
  if arrays.qoIndptr.length ≠ n + 1 ∨ arrays.pagedKvIndptr.length ≠ n + 1 then .error .lengths
  else if pageSize ≤ 0 then .error .pageSize
  else
    let total := asUsize (arrays.qoIndptr.getD n 0)
    if out.length ≠ 2 * total then .error (.slots out.length total)
    else
      (packRows arrays pageSize total n 0 (out.take total, out.drop total)).map
        fun (pages, offsets) => pages ++ offsets

/-- Why numpy makes no addresses of a label's arrays. -/
inductive NumpyError where
  | negativeRepeats
  | shapes
  | pastItsPages (spans kvIndptr lastPageLens : List ℤ)
  | outOfBounds
  deriving DecidableEq

/-- The differences of an array's neighbours. -/
def diff : List ℤ → List ℤ
  | x :: y :: xs => asI32 (y - x) :: diff (y :: xs)
  | _ => []

/-- An integer division, as numpy has it for a divisor of zero too. -/
def floorDiv (x : ℤ) (n : ℕ) : ℤ := if n = 0 then 0 else x / n

/-- The entries at some places, negative ones from the end. -/
def takeAll (indices : List ℤ) : List ℤ → Except NumpyError (List ℤ)
  | [] => .ok []
  | i :: is =>
    match place indices.length i with
    | none => .error .outOfBounds
    | some at_ => (takeAll indices is).map (indices.getD at_ 0 :: ·)

/-- The addresses in numpy: each token's row, its position in the stream, and from that
its page and offset. -/
def numpyAddressing (arrays : PagedIndptrs) (total pageSize : ℕ) :
    Except NumpyError (List ℤ) :=
  let kvp := arrays.pagedKvIndptr
  let spans := diff arrays.qoIndptr
  if spans.any (· < 0) then .error .negativeRepeats
  else
    let rows := List.range spans.length
    let seg := rows.flatMap fun r => List.replicate (spans.getD r 0).toNat r
    let last := arrays.pagedKvLastPageLen
    if last.length ≠ spans.length ∨ (diff kvp).length ≠ spans.length then .error .shapes
    else
      let kvAfter := List.zipWith (fun held last => asI32 ((held - 1) * pageSize + last))
        (diff kvp) last
      let fits := rows.all fun r => decide (0 < spans.getD r 0 →
        spans.getD r 0 ≤ kvAfter.getD r 0 ∧ last.getD r 0 ≤ pageSize)
      if !fits then .error (.pastItsPages spans kvp last)
      else if seg.length ≠ total then .error .shapes
      else
        let pos := seg.zipIdx.map fun (r, i) =>
          asI32 (kvAfter.getD r 0 - spans.getD r 0 - arrays.qoIndptr.getD r 0) + i
        let page := pos.map (floorDiv · pageSize)
        (takeAll arrays.pagedKvIndices
            (List.zipWith (fun r page => kvp.getD r 0 + page) seg page)).map fun pages =>
          pages ++ pos.map (floorMod · pageSize)

/-- One stream as a step sees it. -/
structure SequenceView where
  /-- The pages its tokens take. -/
  pageIdxs : List ℤ
  /-- Its tokens, those of the step included. -/
  length : ℕ
  /-- The tokens of the step. -/
  toCompute : ℕ
  /-- Its first token's position. -/
  start : ℕ := 0

namespace SequenceView

/-- The tokens in its last page, none where that page is full. -/
def lastPageLen (view : SequenceView) (pageSize : ℕ) : ℕ := (view.start + view.length) % pageSize

end SequenceView

/-- One view per row, of the pages its length needs. -/
def sequenceViews (pageSize : ℕ) (rows : List PlanRow) : List SequenceView :=
  rows.map fun row =>
    { pageIdxs := row.pageIndices.take ((row.length + pageSize - 1) / pageSize)
      length := row.length
      toCompute := row.span }

/-- The page and the offset in it of each decode row's token. -/
def decodeLocations (views : List SequenceView) (pageSize : ℕ) :
    Except Raised (List ℤ × List ℤ) :=
  if views.any fun view => view.pageIdxs.isEmpty then .error ⟨.indexError, none⟩
  else
    .ok (views.map fun view => view.pageIdxs.getLastD 0,
      views.map fun view =>
        let last := view.lastPageLen pageSize
        ((if last = 0 then pageSize else last : ℕ) : ℤ) - 1)

end Mstar.PageArena
