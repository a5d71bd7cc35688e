import Mstar.ArenaCalls

/-!
# The arena in Python

The same bookkeeping as `PythonPageArena` keeps it: lists indexed as Python
indexes them, streams by an id that is never used again, and the plan columns
computed a column at a time.
-/

namespace Mstar.PageArena

/-- A Python list's place for an index: from the end where it is negative. -/
def place (length : ℕ) (i : ℤ) : Option ℕ :=
  if 0 ≤ i then if i.toNat < length then some i.toNat else none
  else if 0 ≤ length + i then some (length + i).toNat else none

/-- The arena, its allocator's free pages included. -/
structure PythonArena (Index Writes : Type) where
  /-- The free pages, in the order they are handed out. -/
  free : List ℤ
  /-- Each page's owners. -/
  numOwners : List ℕ
  /-- Each page's seal. -/
  sealed : List Bool
  /-- The prefix index to tell when a page gains or loses its second owner. -/
  index : Option Index
  /-- Queues each page a release leaves to the index alone. -/
  writes : Option Writes
  /-- The streams that something holds. -/
  streams : ℕ → Option (List ℤ)
  /-- The next stream's id. -/
  nextSid : ℕ

/-- Running sums. -/
def cumsum : ℕ → List ℕ → List ℕ
  | _, [] => []
  | sum, x :: xs => (sum + x) :: cumsum (sum + x) xs

/-- Running sums in an int32 array. -/
def cumsum32 : ℤ → List ℤ → List ℤ
  | _, [] => []
  | sum, x :: xs => asI32 (sum + x) :: cumsum32 (asI32 (sum + x)) xs

/-- What is left of an integer division, as numpy has it for a divisor of zero too. -/
def floorMod (x : ℤ) (n : ℕ) : ℤ := if n = 0 then 0 else x % n

/-- A list up to an index, which counts from the end where it is negative. -/
def upTo (pages : List ℤ) (k : ℤ) : List ℤ :=
  pages.take (if 0 ≤ k then k.toNat else (pages.length + k).toNat)

/-- `np.fromiter` of int32: the first `count` numbers, or all for a negative count. -/
def fromIter (xs : List ℤ) (count : ℤ) : Except Raised (List ℤ) :=
  let xs := if 0 ≤ count then xs.take count.toNat else xs
  if xs.any fun x => !decide (IsI32 x) then .error ⟨.overflowError, none⟩
  else if 0 ≤ count ∧ xs.length < count.toNat then .error ⟨.valueError, none⟩
  else .ok xs

/-- A row's last page, by its pages and their running count. A row without pages
has none. -/
def decodePage (indices : List ℤ) (k indptr : ℤ) : Option ℤ :=
  if 0 < k then (place indices.length (indptr - 1)).map fun i => indices.getD i 0 else some 0

namespace PythonArena

variable {Index Writes Rid Label Ref Handle : Type} (cb : Callbacks Index Writes)

def new (maxNumPages : ℕ) (index : Option Index) (writes : Option Writes) :
    PythonArena Index Writes where
  free := (List.range maxNumPages).map Int.ofNat
  numOwners := List.replicate maxNumPages 0
  sealed := List.replicate maxNumPages false
  index := index
  writes := writes
  streams _ := none
  nextSid := 0

/-- A page's owners set. -/
def setOwners (a : PythonArena Index Writes) (page : ℤ) (owners : ℕ) : PythonArena Index Writes :=
  match place a.numOwners.length page with
  | none => a
  | some i => { a with numOwners := a.numOwners.set i owners }

def acquire (a : PythonArena Index Writes) (n : ℕ) : Option (List ℤ) × PythonArena Index Writes :=
  if a.free.length < n then (none, a)
  else
    let pages := a.free.take n
    (some pages, pages.foldl (fun a page => a.setOwners page 1) { a with free := a.free.drop n })

def retain : List ℤ → PythonArena Index Writes → Option Raised × PythonArena Index Writes
  | [], a => (none, a)
  | page :: pages, a =>
    match place a.numOwners.length page with
    | none => (some ⟨.indexError, none⟩, a)
    | some i =>
      let owners := a.numOwners.getD i 0 + 1
      let a := { a with numOwners := a.numOwners.set i owners }
      match owners == 2, a.index with
      | true, some index =>
        match cb.setShared index a.numOwners page true with
        | (some e, index) => (some e, { a with index := some index })
        | (none, index) => retain pages { a with index := some index }
      | _, _ => retain pages a

/-- What the index, if there is one, and the host's queue hear of a page left to
one owner. -/
def unshared (a : PythonArena Index Writes) (page : ℤ) :
    Option Raised × PythonArena Index Writes :=
  match a.index with
  | none => (none, a)
  | some index =>
    match cb.setShared index a.numOwners page false with
    | (some e, index) => (some e, { a with index := some index })
    | (none, index) =>
      match a.writes with
      | none => (none, { a with index := some index })
      | some writes =>
        ((cb.queueKey index writes page).1,
          { a with index := some index, writes := some (cb.queueKey index writes page).2 })

def release : List ℤ → List ℤ → PythonArena Index Writes →
    Option Raised × PythonArena Index Writes
  | [], freed, a => (none, { a with free := a.free ++ freed })
  | page :: pages, freed, a =>
    match place a.numOwners.length page with
    | none => (some ⟨.indexError, none⟩, a)
    | some i =>
      if a.numOwners.getD i 0 = 0 then
        (some ⟨.assertionError, some s!"page {page} released with no owner"⟩, a)
      else
        let owners := a.numOwners.getD i 0 - 1
        let a := { a with numOwners := a.numOwners.set i owners }
        if owners = 0 then
          release pages (freed ++ [page])
            (match place a.sealed.length page with
              | none => a
              | some i => { a with sealed := a.sealed.set i false })
        else if owners = 1 then
          match unshared cb a page with
          | (some e, a) => (some e, a)
          | (none, a) => release pages freed a
        else release pages freed a

def sealPages : List ℤ → PythonArena Index Writes → Option Raised × PythonArena Index Writes
  | [], a => (none, a)
  | page :: pages, a =>
    match place a.sealed.length page with
    | none => (some ⟨.indexError, none⟩, a)
    | some i => sealPages pages { a with sealed := a.sealed.set i true }

/-- A new, empty stream. -/
def newStream (a : PythonArena Index Writes) : ℕ × PythonArena Index Writes :=
  (a.nextSid,
    { a with streams := Function.update a.streams a.nextSid (some []), nextSid := a.nextSid + 1 })

/-- A stream that nothing holds is gone. -/
def dropStream (a : PythonArena Index Writes) (sid : ℕ) : PythonArena Index Writes :=
  { a with streams := Function.update a.streams sid none }

/-- Make some pages a stream's whole list. -/
def assign (a : PythonArena Index Writes) (sid : ℕ) (pages : List ℤ) :
    PythonArena Index Writes :=
  { a with streams := Function.update a.streams sid ((a.streams sid).map fun _ => pages) }

/-- The streams of some ids. -/
def rowsOf (a : PythonArena Index Writes) : List ℕ → Except Raised (List (List ℤ))
  | [] => .ok []
  | sid :: sids =>
    match a.streams sid with
    | none => .error ⟨.keyError, none⟩
    | some pages => (rowsOf a sids).map (pages :: ·)

/-- The columns over the page lists of some streams, a column at a time in int32
arrays: the columns, the pages read, and whether every row has a page. -/
def planColumns (a : PythonArena Index Writes) (sids lens spans : List ℕ) (pageSize : ℕ) :
    Except Raised (List ℤ × ℤ × Bool) :=
  match rowsOf a sids with
  | .error e => .error e
  | .ok rows =>
    -- a Python int that an int32 array can't hold is refused; what the array computes wraps
    if lens.any (2147483648 ≤ ·) then .error ⟨.overflowError, none⟩
    else if lens.length ≠ rows.length then .error ⟨.valueError, none⟩
    else if 2147483648 ≤ pageSize then .error ⟨.overflowError, none⟩
    -- the empty list of held pages makes an array that `np.minimum` can't write as int32
    else if rows.length = 0 then .error ⟨.typeError, none⟩
    else
      let npages := List.zipWith (fun (len : ℕ) (pages : List ℤ) =>
        min (asI32 ((len : ℤ) + ((pageSize : ℤ) - 1)) / pageSize) pages.length) lens rows
      let kvIndptr := 0 :: cumsum32 0 npages
      let total := kvIndptr.getLastD 0
      match fromIter ((rows.zip npages).flatMap fun (pages, k) => upTo pages k) total with
      | .error e => .error e
      | .ok indices =>
        let last := lens.map fun (len : ℕ) => floorMod ((len : ℤ) - 1) pageSize + 1
        let kvLens := List.zipWith (fun k l => asI32 (asI32 ((max k 1 - 1) * pageSize) + l))
          npages last
        if spans.length ≠ rows.length then .error ⟨.valueError, none⟩
        else
          let qo := 0 :: cumsum32 0 (spans.map Int.ofNat)
          match (npages.zip (kvIndptr.drop 1)).mapM fun p => decodePage indices p.1 p.2 with
          | none => .error ⟨.indexError, none⟩
          | some decodePages =>
            .ok (qo ++ kvIndptr ++ last ++ kvLens ++ decodePages ++ last.map (· - 1) ++ indices,
              total, npages.all fun k => decide (k ≠ 0))

variable [DecidableEq Rid] [DecidableEq Label] [DecidableEq Ref]

/-- Per segment: nothing for a padding or sink row, else its cache, if it has one. -/
def rows (caches : Caches Rid Label Ref Handle) (real : Option (List Rid))
    (sink : List (Rid × Label)) (segments : List (Segment Rid Label)) :
    List (Option (Option Ref)) :=
  segments.map fun seg =>
    if isPad real sink seg then none else some (caches.streams seg.requestId seg.label)

def admitRows (a : PythonArena Index Writes) (sid : Handle → ℕ)
    (caches : Caches Rid Label Ref Handle) (pageSize : ℕ) :
    ℕ → List (Segment Rid Label × Option (Option Ref)) → List Ref → List ℕ → List Ref × List ℕ
  | _, [], marked, slow => (marked, slow)
  | i, (seg, cs) :: rows, marked, slow =>
    match cs with
    | none => admitRows a sid caches pageSize (i + 1) rows marked slow
    | some none =>
      if seg.span = 0 then admitRows a sid caches pageSize (i + 1) rows marked slow
      else admitRows a sid caches pageSize (i + 1) rows marked (slow ++ [i])
    | some (some cs) =>
      if seg.span = 0 ∨ (¬ (caches.objects cs).offloaded ∧
          (caches.objects cs).storedLen + seg.span ≤
            ((a.streams (sid (caches.objects cs).pageIndices)).getD []).length * pageSize) then
        admitRows a sid caches pageSize (i + 1) rows (marked ++ [cs]) slow
      else admitRows a sid caches pageSize (i + 1) rows marked (slow ++ [i])

def setRowsInFlight (inFlight : Bool) (rows : List (Option (Option Ref)))
    (caches : Caches Rid Label Ref Handle) : Caches Rid Label Ref Handle :=
  rows.foldl (fun caches cs => match cs with
    | some (some cs) => caches.setInFlight inFlight cs
    | _ => caches) caches

def commitRows (keep : Bool) :
    ℕ → List (Segment Rid Label × Option (Option Ref)) → List ℕ → Caches Rid Label Ref Handle →
      List ℕ × Caches Rid Label Ref Handle
  | _, [], slow, caches => (slow, caches)
  | i, (_, none) :: rows, slow, caches => commitRows keep (i + 1) rows slow caches
  | i, (_, some none) :: rows, slow, caches => commitRows keep (i + 1) rows (slow ++ [i]) caches
  | i, (seg, some (some cs)) :: rows, slow, caches =>
    if keep ∧ 0 < seg.span ∧ (caches.objects cs).offloaded then
      commitRows keep (i + 1) rows (slow ++ [i]) caches
    else
      let caches := caches.setInFlight false cs
      commitRows keep (i + 1) rows slow
        (if keep ∧ 0 < seg.span then caches.store seg.span cs else caches)

/-- What a plan reads of each row: its stream, length and generation. -/
def planReads (sid : Handle → ℕ) (caches : Caches Rid Label Ref Handle) (sinkSid : ℕ) :
    ℕ → List (Segment Rid Label × Option (Option Ref)) →
      Except Raised (List ℕ × List ℕ × List ℕ)
  | _, [] => .ok ([], [], [])
  | i, (seg, cs) :: rows =>
    match cs with
    | none => (planReads sid caches sinkSid (i + 1) rows).map fun (sids, lens, gens) =>
      (sinkSid :: sids, seg.span :: lens, 0 :: gens)
    | some none => .error ⟨.valueError, some s!"row {i} has no stream to plan"⟩
    | some (some cs) => (planReads sid caches sinkSid (i + 1) rows).map fun (sids, lens, gens) =>
      (sid (caches.objects cs).pageIndices :: sids,
        ((caches.objects cs).storedLen + seg.span) :: lens, (caches.objects cs).generation :: gens)

def planRows (a : PythonArena Index Writes) (sid : Handle → ℕ)
    (caches : Caches Rid Label Ref Handle) (segments : List (Segment Rid Label))
    (real : Option (List Rid)) (sink : List (Rid × Label)) (sinkSid pageSize : ℕ) : Answer Ref :=
  match planReads sid caches sinkSid 0 (segments.zip (rows caches real sink segments)) with
  | .error e => .raised e
  | .ok (sids, lens, gens) =>
    let spans := segments.map Segment.span
    match a.planColumns sids lens spans pageSize with
    | .error e => .raised e
    | .ok (out, total, allHavePages) =>
      .plan out total allHavePages (lens ++ gens)
        (((spans.zip sids).filter (·.2 = sinkSid)).map Prod.fst |>.foldl max 0)
        (!spans.isEmpty && spans.all (· == 1))

end PythonArena

end Mstar.PageArena
