import Mathlib.Algebra.Order.Ring.Int
import Mstar.ArenaCalls

/-!
# The arena in Rust

The free list, each page's owner count and seal, and every stream's pages, as
`page_arena.rs` keeps them, with the passes over a step's rows and the plan
columns of `kv_plan.rs`.
-/

namespace Mstar.PageArena

/-- The bookkeeping itself. -/
structure ArenaCore where
  /-- The free pages, in the order they are handed out. -/
  free : List ℤ
  /-- Each page's owners. -/
  owners : List ℕ
  /-- Each page's seal. -/
  sealed : List Bool
  /-- The streams' pages, by stream id. -/
  streams : List (List ℤ)
  /-- The ids of streams that are gone. -/
  freeSids : List ℕ

/-- The bookkeeping's own errors. -/
inductive ArenaError where
  | outOfRange (page : ℤ)
  | noOwner (page : ℤ)
  | noStream (sid : ℕ)

/-- An error's text. -/
def ArenaError.text : ArenaError → String
  | .outOfRange page => s!"page {page} is outside the pool"
  | .noOwner page => s!"page {page} released with no owner"
  | .noStream sid => s!"stream {sid} is not in the arena"

/-- An error as an exception. -/
def ArenaError.raised (e : ArenaError) : Raised where
  kind := match e with
    | .noOwner _ => .assertionError
    | _ => .indexError
  text := some e.text

/-- What a release did to a page. -/
inductive Released where
  /-- Its last owner let go. -/
  | freed
  /-- One owner is left. -/
  | unshared
  | held

/-- The columns of a plan label. -/
structure PlanColumns where
  /-- The columns, one after the other. -/
  out : List ℤ
  /-- The pages read. -/
  total : ℕ
  /-- Whether every row has a page to write into. -/
  allHavePages : Bool

namespace ArenaCore

/-- An arena with all pages free, counted in an i32. -/
def new (maxNumPages : ℕ) : ArenaCore where
  free := (List.range (asI32 maxNumPages).toNat).map Int.ofNat
  owners := List.replicate maxNumPages 0
  sealed := List.replicate maxNumPages false
  streams := []
  freeSids := []

/-- A page's place in the tables. -/
def slot (a : ArenaCore) (page : ℤ) : Except ArenaError ℕ :=
  if page < 0 ∨ a.owners.length ≤ page.toNat then .error (.outOfRange page) else .ok page.toNat

/-- Some pages, each with one owner, or none when fewer are free. -/
def acquire (a : ArenaCore) (n : ℕ) : Option (List ℤ) × ArenaCore :=
  if a.free.length < n then (none, a)
  else
    let pages := a.free.take n
    (some pages,
      { a with
        free := a.free.drop n
        owners := pages.foldl (fun owners page => owners.set page.toNat 1) a.owners })

/-- One more owner for a page, and whether it is shared now. The count is a u32. -/
def retain (a : ArenaCore) (page : ℤ) : Except ArenaError (Bool × ArenaCore) :=
  (a.slot page).map fun i =>
    let owners := a.owners.set i ((a.owners.getD i 0 + 1) % 4294967296)
    (owners.getD i 0 == 2, { a with owners := owners })

/-- One owner fewer for a page. A freed page is unsealed here but reaches the free
list only after the whole release. -/
def release (a : ArenaCore) (page : ℤ) : Except ArenaError (Released × ArenaCore) :=
  match a.slot page with
  | .error e => .error e
  | .ok i =>
    if a.owners.getD i 0 = 0 then .error (.noOwner page)
    else
      let a := { a with owners := a.owners.set i (a.owners.getD i 0 - 1) }
      match a.owners.getD i 0 with
      | 0 => .ok (.freed, { a with sealed := a.sealed.set i false })
      | 1 => .ok (.unshared, a)
      | _ => .ok (.held, a)

/-- A page is never written again. -/
def sealPage (a : ArenaCore) (page : ℤ) : Except ArenaError ArenaCore :=
  (a.slot page).map fun i => { a with sealed := a.sealed.set i true }

/-- A new, empty stream. -/
def newStream (a : ArenaCore) : ℕ × ArenaCore :=
  match a.freeSids.getLast? with
  | some sid => (sid, { a with freeSids := a.freeSids.dropLast })
  | none => (a.streams.length, { a with streams := a.streams ++ [[]] })

/-- A stream that is gone. -/
def dropStream (a : ArenaCore) (sid : ℕ) : ArenaCore :=
  if sid < a.streams.length then
    { a with streams := a.streams.set sid [], freeSids := a.freeSids ++ [sid] }
  else a

/-- A stream's pages. -/
def pages (a : ArenaCore) (sid : ℕ) : Except ArenaError (List ℤ) :=
  match a.streams[sid]? with
  | some pages => .ok pages
  | none => .error (.noStream sid)

end ArenaCore

/-- The pages each row reads: a stream can hold more than its length needs, and
never more is read than it holds. -/
def gatherRows (pages : ℕ → Except Raised (List ℤ)) (pageSize : ℕ) :
    ℕ → List ℕ → Except Raised (List (List ℤ))
  | _, [] => .ok []
  | i, len :: lens =>
    match pages i with
    | .error e => .error e
    | .ok held =>
      -- lengths are counts, so the page count is never negative
      let want := (len + pageSize - 1) / pageSize
      (gatherRows pages pageSize (i + 1) lens).map (held.take (min want held.length) :: ·)

/-- The columns filled so far. -/
structure Filled where
  qo : List ℤ
  kvIndptr : List ℤ
  last : List ℤ
  kvLens : List ℤ
  decodePages : List ℤ
  decodeOffsets : List ℤ
  indices : List ℤ
  /-- The tokens so far. -/
  q : ℕ
  /-- The pages so far. -/
  k : ℕ
  allHavePages : Bool

/-- Before the first row. -/
def Filled.start : Filled where
  qo := [0]
  kvIndptr := [0]
  last := []
  kvLens := []
  decodePages := []
  decodeOffsets := []
  indices := []
  q := 0
  k := 0
  allHavePages := true

/-- A row's columns filled in. -/
def Filled.fillRow (pageSize : ℕ) (c : Filled) (row : List ℤ) (len span : ℕ) : Filled :=
  let p := row.length
  let indices := c.indices ++ row
  let l := ((len : ℤ) - 1) % pageSize + 1
  { qo := c.qo ++ [((c.q + span : ℕ) : ℤ)]
    kvIndptr := c.kvIndptr ++ [((c.k + p : ℕ) : ℤ)]
    last := c.last ++ [l]
    kvLens := c.kvLens ++ [(((max p 1 - 1 : ℕ) : ℤ) * pageSize + l)]
    decodePages := c.decodePages ++ [if 0 < p then indices.getD (c.k + p - 1) 0 else 0]
    decodeOffsets := c.decodeOffsets ++ [l - 1]
    indices := indices
    q := c.q + span
    k := c.k + p
    allHavePages := c.allHavePages && decide (0 < p) }

/-- Row by row. -/
def Filled.fillRows (pageSize : ℕ) : List (List ℤ) → List ℕ → List ℕ → Filled → Filled
  | row :: rows, len :: lens, span :: spans, c =>
    fillRows pageSize rows lens spans (c.fillRow pageSize row len span)
  | _, _, _, c => c

/-- A plan label's columns, from each row's pages, length and span, cast into one
buffer of int32. -/
def kvPlanColumns (pages : ℕ → Except Raised (List ℤ)) (lens spans : List ℕ) (pageSize : ℕ) :
    Except Raised PlanColumns :=
  if spans.length ≠ lens.length then
    .error ⟨.valueError, some "plan columns of different lengths"⟩
  else if pageSize = 0 then .error ⟨.valueError, some "page_size must be positive"⟩
  else
    (gatherRows pages pageSize 0 lens).map fun rows =>
      let c := Filled.start.fillRows pageSize rows lens spans
      { out := (c.qo ++ c.kvIndptr ++ c.last ++ c.kvLens ++ c.decodePages ++ c.decodeOffsets ++
          c.indices).map asI32
        total := (rows.map List.length).sum
        allHavePages := c.allHavePages }

/-- The columns over the page lists of some streams, one per row. -/
def ArenaCore.planColumns (a : ArenaCore) (sids lens spans : List ℕ) (pageSize : ℕ) :
    Except Raised PlanColumns :=
  if sids.length ≠ lens.length then
    .error ⟨.valueError, some "plan columns of different lengths"⟩
  else
    kvPlanColumns (fun i => match a.pages (sids.getD i 0) with
      | .ok pages => .ok pages
      | .error e => .error ⟨.valueError, some s!"row {i}: {e.text}"⟩) lens spans pageSize

/-- The arena: the bookkeeping, the index and the host's queue it tells, and the
streams dropped while it was locked. -/
structure RustArena (Index Writes : Type) where
  core : ArenaCore
  index : Option Index
  writes : Option Writes
  dropped : List ℕ

namespace RustArena

variable {Index Writes Rid Label Ref Handle : Type} (cb : Callbacks Index Writes)

def new (maxNumPages : ℕ) (index : Option Index) (writes : Option Writes) :
    RustArena Index Writes where
  core := ArenaCore.new maxNumPages
  index := index
  writes := writes
  dropped := []

def acquire (a : RustArena Index Writes) (n : ℕ) : Option (List ℤ) × RustArena Index Writes :=
  ((a.core.acquire n).1, { a with core := (a.core.acquire n).2 })

/-- One more owner for each page. The index hears of each page that becomes shared
as it happens. -/
def retain : List ℤ → RustArena Index Writes → Option Raised × RustArena Index Writes
  | [], a => (none, a)
  | page :: pages, a =>
    match a.core.retain page with
    | .error e => (some e.raised, a)
    | .ok (shared, core) =>
      let a := { a with core := core }
      match a.index with
      | none => retain pages a
      | some index =>
        if shared then
          match cb.setShared index a.core.owners page true with
          | (some e, index) => (some e, { a with index := some index })
          | (none, index) => retain pages { a with index := some index }
        else retain pages a

/-- What the index and the host's queue hear of a page left to one owner. -/
def unshared (a : RustArena Index Writes) (page : ℤ) : Option Raised × RustArena Index Writes :=
  match a.index with
  | none => (none, a)
  | some index =>
    match cb.setShared index a.core.owners page false with
    | (some e, index) => (some e, { a with index := some index })
    | (none, index) =>
      match a.writes with
      | none => (none, { a with index := some index })
      | some writes =>
        ((cb.queueKey index writes page).1,
          { a with index := some index, writes := some (cb.queueKey index writes page).2 })

/-- One owner fewer for each page; those left with none return to the free list
together, after the index has heard of the rest. -/
def release : List ℤ → List ℤ → RustArena Index Writes → Option Raised × RustArena Index Writes
  | [], freed, a => (none, { a with core := { a.core with free := a.core.free ++ freed } })
  | page :: pages, freed, a =>
    match a.core.release page with
    | .error e => (some e.raised, a)
    | .ok (.freed, core) => release pages (freed ++ [page]) { a with core := core }
    | .ok (.unshared, core) =>
      match unshared cb { a with core := core } page with
      | (some e, a) => (some e, a)
      | (none, a) => release pages freed a
    | .ok (.held, core) => release pages freed { a with core := core }

def sealPages : List ℤ → RustArena Index Writes → Option Raised × RustArena Index Writes
  | [], a => (none, a)
  | page :: pages, a =>
    match a.core.sealPage page with
    | .error e => (some e.raised, a)
    | .ok core => sealPages pages { a with core := core }

/-- A new stream, once those dropped while the arena was locked are gone. -/
def newStream (a : RustArena Index Writes) : ℕ × RustArena Index Writes :=
  let core := a.dropped.foldl ArenaCore.dropStream a.core
  (core.newStream.1, { a with core := core.newStream.2, dropped := [] })

/-- A stream object that goes away, maybe while the arena is locked. -/
def dropStream (a : RustArena Index Writes) (sid : ℕ) (locked : Bool) : RustArena Index Writes :=
  if locked then { a with dropped := a.dropped ++ [sid] }
  else { a with core := a.core.dropStream sid }

/-- Make some pages a stream's whole list. -/
def assign (a : RustArena Index Writes) (sid : ℕ) (pages : List ℤ) : RustArena Index Writes :=
  { a with core := { a.core with streams := a.core.streams.set sid pages } }

/-- A step row as the row passes see it: a padding or sink row, a row with no
stream yet, or its stream's id and cache. -/
inductive Row (Ref : Type) where
  | pad
  | missing
  | stream (sid : ℕ) (cs : Ref)

variable [DecidableEq Rid] [DecidableEq Label] [DecidableEq Ref]

/-- Each segment's row, through the caller's caches and stream ids. -/
def resolveRows (sid : Handle → ℕ) (caches : Caches Rid Label Ref Handle)
    (real : Option (List Rid)) (sink : List (Rid × Label)) (segments : List (Segment Rid Label)) :
    List (Row Ref) :=
  segments.map fun seg =>
    if isPad real sink seg then .pad
    else
      match caches.streams seg.requestId seg.label with
      | none => .missing
      | some cs => .stream (sid (caches.objects cs).pageIndices) cs

/-- Whether a row's pages already cover its span. -/
def fits (a : RustArena Index Writes) (caches : Caches Rid Label Ref Handle) (pageSize sid : ℕ)
    (cs : Ref) (span : ℕ) : Except Raised Bool :=
  if span = 0 then .ok true
  else
    match a.core.pages sid with
    | .error e => .error e.raised
    | .ok pages =>
      .ok (!(caches.objects cs).offloaded &&
        decide ((caches.objects cs).storedLen + span ≤ pages.length * pageSize))

/-- The rows to mark in flight and those the manager reserves for, from a row's
index on. -/
def admitRows (a : RustArena Index Writes) (caches : Caches Rid Label Ref Handle)
    (pageSize : ℕ) : ℕ → List (Row Ref × ℕ) → List Ref → List ℕ →
      Except Raised (List Ref × List ℕ)
  | _, [], marked, slow => .ok (marked, slow)
  | i, (.pad, _) :: rows, marked, slow => admitRows a caches pageSize (i + 1) rows marked slow
  | i, (.missing, span) :: rows, marked, slow =>
    if span = 0 then admitRows a caches pageSize (i + 1) rows marked slow
    else admitRows a caches pageSize (i + 1) rows marked (slow ++ [i])
  | i, (.stream sid cs, span) :: rows, marked, slow =>
    match fits a caches pageSize sid cs span with
    | .error e => .error e
    | .ok true => admitRows a caches pageSize (i + 1) rows (marked ++ [cs]) slow
    | .ok false => admitRows a caches pageSize (i + 1) rows marked (slow ++ [i])

/-- Every row that has a stream marked, or not. -/
def setRowsInFlight (inFlight : Bool) :
    List (Row Ref) → Caches Rid Label Ref Handle → Caches Rid Label Ref Handle
  | [], caches => caches
  | .stream _ cs :: rows, caches => setRowsInFlight inFlight rows (caches.setInFlight inFlight cs)
  | _ :: rows, caches => setRowsInFlight inFlight rows caches

/-- Each row with a stream leaves flight and, when the step keeps what it wrote,
counts its span. The rows the manager commits itself are returned. -/
def commitRows (keep : Bool) :
    ℕ → List (Row Ref × ℕ) → List ℕ → Caches Rid Label Ref Handle →
      List ℕ × Caches Rid Label Ref Handle
  | _, [], slow, caches => (slow, caches)
  | i, (.pad, _) :: rows, slow, caches => commitRows keep (i + 1) rows slow caches
  | i, (.missing, _) :: rows, slow, caches => commitRows keep (i + 1) rows (slow ++ [i]) caches
  | i, (.stream _ cs, span) :: rows, slow, caches =>
    let writes := keep && decide (0 < span)
    if writes && (caches.objects cs).offloaded then
      commitRows keep (i + 1) rows (slow ++ [i]) caches
    else
      let caches := caches.setInFlight false cs
      commitRows keep (i + 1) rows slow (if writes then caches.store span cs else caches)

/-- What a plan reads of each row: its stream, length and generation, and the
longest row on the sink. -/
def planReads (caches : Caches Rid Label Ref Handle) (sinkSid : ℕ) :
    ℕ → List (Row Ref × ℕ) → List ℕ → List ℕ → List ℕ → ℕ →
      Except Raised (List ℕ × List ℕ × List ℕ × ℕ)
  | _, [], sids, lens, gens, maxSink => .ok (sids, lens, gens, maxSink)
  | i, (.pad, span) :: rows, sids, lens, gens, maxSink =>
    planReads caches sinkSid (i + 1) rows (sids ++ [sinkSid]) (lens ++ [span]) (gens ++ [0])
      (max maxSink span)
  | i, (.missing, _) :: _, _, _, _, _ =>
    .error ⟨.valueError, some s!"row {i} has no stream to plan"⟩
  | i, (.stream sid cs, span) :: rows, sids, lens, gens, maxSink =>
    planReads caches sinkSid (i + 1) rows (sids ++ [sid])
      (lens ++ [(caches.objects cs).storedLen + span]) (gens ++ [(caches.objects cs).generation])
      maxSink

/-- A plan label's columns over a step's rows, each read off its stream. -/
def planRows (a : RustArena Index Writes) (sid : Handle → ℕ) (caches : Caches Rid Label Ref Handle)
    (segments : List (Segment Rid Label)) (real : Option (List Rid)) (sink : List (Rid × Label))
    (sinkSid pageSize : ℕ) : Answer Ref :=
  let spans := segments.map Segment.span
  match planReads caches sinkSid 0 ((resolveRows sid caches real sink segments).zip spans)
      [] [] [] 0 with
  | .error e => .raised e
  | .ok (sids, lens, gens, maxSink) =>
    match a.core.planColumns sids lens spans pageSize with
    | .error e => .raised e
    | .ok cols =>
      .plan cols.out cols.total cols.allHavePages (lens ++ gens) maxSink
        (decide (0 < segments.length) && spans.all (· == 1))

end RustArena

end Mstar.PageArena
