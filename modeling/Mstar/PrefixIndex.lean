import Mathlib.Data.List.AList
import Mathlib.Data.List.Sort
import Mathlib.Data.Finset.Insert
import Mathlib.Data.Finset.Erase
import Mathlib.Data.Int.Basic

/-!
# The page arena and the prefix index over it

The arena counts the owners of every page and keeps the free list. The prefix
index names cached pages by their keys, owns one reference of each page it
names, and drops the least recently used leaves first. The two call each
other: the arena tells the index when a page gains or loses its one owner
besides the index, and the index retains and releases in the arena. Pages are
numbers and tables indexed by them are total functions; every loop that is
not over a list counts its rounds and says so when they do not suffice.
-/

namespace Mstar

/-- A page of the pool. -/
abbrev Page := ℕ

/-- Why a call does not return. -/
inductive Raised
  /-- A failed `assert`. -/
  | assertion
  /-- A dict has no such key. -/
  | keyError
  /-- The two sequences of a strict `zip` differ in length. -/
  | valueError
  /-- A loop is still running after the rounds it was given. -/
  | endless
  deriving DecidableEq, Repr

/-- An entry of the leaf heap: the stamp it was pushed under, and its page. -/
abbrev Entry := ℕ × ℕ

/-- The order of the heap: by stamp, then by page. -/
def Entry.le (a b : Entry) : Prop := a.1 < b.1 ∨ a.1 = b.1 ∧ a.2 ≤ b.2

instance : DecidableRel Entry.le := fun a b =>
  inferInstanceAs (Decidable (a.1 < b.1 ∨ a.1 = b.1 ∧ a.2 ≤ b.2))

/-- `heapq.heappush` on a heap kept as its entries in the order they pop. -/
def heappush (entry : Entry) (heap : List Entry) : List Entry :=
  heap.orderedInsert Entry.le entry

/-- The page pool's bookkeeping. -/
structure Arena where
  /-- The free pages, in the order they will be handed out. -/
  free : List Page
  /-- How many owners each page has. -/
  numOwners : Page → ℕ
  /-- Pages that are never written again. -/
  «sealed» : Page → Bool
  /-- Whether the prefix index is told when a page gains or loses its second
  owner (`index is not None`). -/
  reports : Bool

/-- The first pages of the free list, each with one owner, or `none` when
there are fewer. -/
def Arena.acquire (a : Arena) (n : ℕ) : Option (List Page × Arena) :=
  if n ≤ a.free.length then
    let pages := a.free.take n
    some (pages, { a with
      free := a.free.drop n
      numOwners := fun p => if p ∈ pages then 1 else a.numOwners p })
  else none

/-- The prefix index's own tables. -/
structure PrefixIndex (Key : Type) [DecidableEq Key] where
  /-- The page each key names. -/
  byKey : AList (fun _ : Key => Page)
  /-- The key that names each page. -/
  key : Page → Option Key
  /-- The page each page is filed under. -/
  parent : Page → Option Page
  /-- How many pages are filed under each page. -/
  children : Page → ℤ
  /-- How many of a page's children are held, or have a held page below. -/
  heldBelow : Page → ℤ
  /-- The clock at each page's last hit. -/
  stamp : Page → ℕ
  /-- The heap of leaves. -/
  leaves : List Entry
  /-- Ticks on every insert and every matching lookup. -/
  clock : ℕ
  /-- The pages `evict` could free. -/
  evictable : Finset Page
  /-- Pages ever inserted. -/
  filed : ℕ
  /-- Pages ever taken out of the evictable set by a request. -/
  taken : ℕ

variable {Key : Type} [DecidableEq Key]

namespace PrefixIndex

/-- An index that names nothing. -/
def empty : PrefixIndex Key where
  byKey := ∅
  key := fun _ => none
  parent := fun _ => none
  children := fun _ => 0
  heldBelow := fun _ => 0
  stamp := fun _ => 0
  leaves := []
  clock := 0
  evictable := ∅
  filed := 0
  taken := 0

/-- `num_pages`: how many pages the index holds a reference to. -/
def numPages (ix : PrefixIndex Key) : ℕ := ix.byKey.keys.length

/-- `pages_for`: walk the keys and stop at the first one not indexed. -/
def pagesFor (ix : PrefixIndex Key) : List Key → List Page
  | [] => []
  | k :: keys => match ix.byKey.lookup k with
    | none => []
    | some page => page :: ix.pagesFor keys

/-- One stamp for the whole run of pages still indexed, and no tick when none
is. -/
def touch (ix : PrefixIndex Key) (pages : List Page) : PrefixIndex Key :=
  let pages := pages.filter fun page => (ix.key page).isSome
  if pages = [] then ix
  else { ix with
    clock := ix.clock + 1
    stamp := fun p => if p ∈ pages then ix.clock + 1 else ix.stamp p }

/-- `pages_for` as a hit. -/
def lookup (ix : PrefixIndex Key) (keys : List Key) : List Page × PrefixIndex Key :=
  (ix.pagesFor keys, ix.touch (ix.pagesFor keys))

/-- Add to one page's count of held children. -/
def addHeldBelow (ix : PrefixIndex Key) (page : Page) (d : ℤ) : PrefixIndex Key :=
  { ix with heldBelow := fun p => if p = page then ix.heldBelow p + d else ix.heldBelow p }

/-- Add to one page's count of children. -/
def addChildren (ix : PrefixIndex Key) (page : Page) (d : ℤ) : PrefixIndex Key :=
  { ix with children := fun p => if p = page then ix.children p + d else ix.children p }

/-- Mark the pages above a newly held page as not evictable, up to the first
one that was out of reach already. -/
def pinAbove (owners : Page → ℕ) :
    ℕ → PrefixIndex Key → Option Page → Except Raised (PrefixIndex Key)
  | _, ix, none => .ok ix
  | 0, _, some _ => .error .endless
  | fuel + 1, ix, some parent =>
    let ix := ix.addHeldBelow parent 1
    if ix.heldBelow parent > 1 ∨ owners parent > 1 then .ok ix
    else
      let ix := { ix with evictable := ix.evictable.erase parent }
      pinAbove owners fuel ix (ix.parent parent)

/-- Mark the pages above evictable again once nothing below them is held. -/
def unpinAbove (owners : Page → ℕ) :
    ℕ → PrefixIndex Key → Option Page → Except Raised (PrefixIndex Key)
  | _, ix, none => .ok ix
  | 0, _, some _ => .error .endless
  | fuel + 1, ix, some parent =>
    let ix := ix.addHeldBelow parent (-1)
    if ix.heldBelow parent ≠ 0 ∨ owners parent > 1 then .ok ix
    else
      let ix := { ix with evictable := insert parent ix.evictable }
      unpinAbove owners fuel ix (ix.parent parent)

/-- A page gains or loses its one owner besides the index. A parent was filed
at an earlier tick than its child, so the clock bounds the rounds upwards. -/
def setShared (owners : Page → ℕ) (ix : PrefixIndex Key) (page : Page) (shared : Bool) :
    Except Raised (PrefixIndex Key) :=
  if (ix.key page).isNone ∨ ix.heldBelow page ≠ 0 then .ok ix
  else if shared then
    let ix := { ix with taken := ix.taken + 1, evictable := ix.evictable.erase page }
    pinAbove owners ix.clock ix (ix.parent page)
  else
    let ix := { ix with evictable := insert page ix.evictable }
    unpinAbove owners ix.clock ix (ix.parent page)

/-- Pop entries until one names a leaf under its current stamp. A leaf that
surfaces under an older stamp is pushed back under its own. -/
def popLeafFrom (ix : PrefixIndex Key) :
    ℕ → List Entry → Except Raised (Option Entry × List Entry)
  | 0, _ => .error .endless
  | _ + 1, [] => .ok (none, [])
  | fuel + 1, (stamp, page) :: leaves =>
    if (ix.key page).isNone ∨ ix.children page ≠ 0 then ix.popLeafFrom fuel leaves
    else if ix.stamp page ≠ stamp then
      ix.popLeafFrom fuel (heappush (ix.stamp page, page) leaves)
    else .ok (some (stamp, page), leaves)

/-- `_pop_leaf`. An entry is pushed back at most once, so each is met at most
twice. -/
def popLeaf (ix : PrefixIndex Key) : Except Raised (Option Entry × PrefixIndex Key) := do
  let (entry, leaves) ← ix.popLeafFrom (2 * ix.leaves.length + 1) ix.leaves
  return (entry, { ix with leaves := leaves })

/-- Push entries back on the leaf heap, one after the other. -/
def putBack (ix : PrefixIndex Key) (entries : List Entry) : PrefixIndex Key :=
  { ix with leaves := entries.foldl (fun heap entry => heappush entry heap) ix.leaves }

/-- Name a page in the index's own tables, as a leaf under a parent. -/
def file (ix : PrefixIndex Key) (key : Key) (page : Page) (parent : Option Page) :
    PrefixIndex Key :=
  { ix with
    clock := ix.clock + 1
    filed := ix.filed + 1
    byKey := ix.byKey.insert key page
    key := fun p => if p = page then some key else ix.key p
    parent := fun p => if p = page then parent else ix.parent p
    children := fun p => if p = page then 0 else ix.children p
    heldBelow := fun p => if p = page then 0 else ix.heldBelow p
    stamp := fun p => if p = page then ix.clock + 1 else ix.stamp p }

/-- Count a new child of the parent and push its heap entry. -/
def adopt (ix : PrefixIndex Key) (page : Page) (parent : Option Page) : PrefixIndex Key :=
  let ix := match parent with
    | none => ix
    | some q => ix.addChildren q 1
  { ix with leaves := heappush (ix.clock, page) ix.leaves }

/-- Forget a page's entry in the index's own tables. -/
def forget (ix : PrefixIndex Key) (key : Key) (page : Page) : PrefixIndex Key :=
  { ix with
    evictable := ix.evictable.erase page
    byKey := ix.byKey.erase key
    key := fun p => if p = page then none else ix.key p
    parent := fun p => if p = page then none else ix.parent p }

/-- Uncount a dropped child; a parent left without children is a leaf again. -/
def disown (ix : PrefixIndex Key) : Option Page → PrefixIndex Key
  | none => ix
  | some q =>
    let ix := ix.addChildren q (-1)
    if ix.children q = 0 ∧ (ix.key q).isSome then
      { ix with leaves := heappush (ix.stamp q, q) ix.leaves }
    else ix

end PrefixIndex

/-- The arena and the index that reports to each other. -/
structure Pool (Key : Type) [DecidableEq Key] where
  /-- Free list, owner counts and seals. -/
  arena : Arena
  /-- The prefix index over the arena. -/
  index : PrefixIndex Key

namespace Pool

/-- A new pool of `n` pages, all free, whose arena reports to its index. -/
def fresh (n : ℕ) : Pool Key where
  arena := ⟨List.range n, fun _ => 0, fun _ => false, true⟩
  index := .empty

/-- How many owners a page has. -/
def owners (s : Pool Key) : Page → ℕ := s.arena.numOwners

/-- Set one page's owner count. -/
def setOwners (s : Pool Key) (page : Page) (n : ℕ) : Pool Key :=
  { s with arena := { s.arena with
    numOwners := fun p => if p = page then n else s.arena.numOwners p } }

/-- Run `set_shared` on the pool's index. -/
def setShared (s : Pool Key) (page : Page) (shared : Bool) : Except Raised (Pool Key) := do
  let index ← s.index.setShared s.owners page shared
  return { s with index := index }

/-- One more owner for one page. -/
def retainOne (s : Pool Key) (page : Page) : Except Raised (Pool Key) :=
  let s := s.setOwners page (s.owners page + 1)
  if s.owners page = 2 ∧ s.arena.reports then s.setShared page true else .ok s

/-- One more owner for each page. -/
def retain (s : Pool Key) : List Page → Except Raised (Pool Key)
  | [] => .ok s
  | page :: pages => do
    let s ← s.retainOne page
    s.retain pages

/-- One owner fewer for one page, and whether it was the last. -/
def releaseOne (s : Pool Key) (page : Page) : Except Raised (Bool × Pool Key) :=
  if s.owners page = 0 then .error .assertion
  else
    let s := s.setOwners page (s.owners page - 1)
    if s.owners page = 0 then
      .ok (true, { s with arena := { s.arena with
        «sealed» := fun p => if p = page then false else s.arena.sealed p } })
    else if s.owners page = 1 ∧ s.arena.reports then do
      let s ← s.setShared page false
      return (false, s)
    else .ok (false, s)

/-- The loop of `release`, with the pages freed so far. -/
def releaseEach (s : Pool Key) : List Page → List Page → Except Raised (List Page × Pool Key)
  | freed, [] => .ok (freed, s)
  | freed, page :: pages => do
    let (last, s) ← s.releaseOne page
    s.releaseEach (if last then freed ++ [page] else freed) pages

/-- One owner fewer for each page; those left with none return to the free
list together. -/
def release (s : Pool Key) (pages : List Page) : Except Raised (Pool Key) := do
  let (freed, s) ← s.releaseEach [] pages
  return { s with arena := { s.arena with free := s.arena.free ++ freed } }

/-- `seal` of one page. -/
def sealPage (s : Pool Key) (page : Page) : Pool Key :=
  { s with arena := { s.arena with
    «sealed» := fun p => if p = page then true else s.arena.sealed p } }

/-- The parent a page is filed under: none when the arena reports to the index
and the index alone holds the one asked for. -/
def filingParent (s : Pool Key) (parent : Option Page) : Option Page :=
  parent.filter fun q => !(s.arena.reports && s.owners q == 1)

/-- Name a page by a key under a parent; the first writer wins. A page that
was shared before it is named is marked held here, `retain` only marks the
second owner. -/
def insert (s : Pool Key) (key : Key) (page : Page) (parent : Option Page) :
    Except Raised (Bool × Pool Key) :=
  if parent.any fun q => (s.index.key q).isNone then .error .assertion
  else if (s.index.byKey.lookup key).isSome then .ok (false, s)
  else if (s.index.key page).isSome then .error .assertion
  else do
    let parent := s.filingParent parent
    let s := { s with index := s.index.file key page parent }
    let s := s.sealPage page
    let s ← s.retain [page]
    let s ← if s.arena.reports ∧ s.owners page > 2 then s.setShared page true else pure s
    return (true, { s with index := s.index.adopt page parent })

/-- Name pages by keys, each under the one before and the first under
`parent`. A key already indexed keeps its page, and the next key goes under
that page. -/
def insertRun (s : Pool Key) : List Key → List Page → Option Page → Except Raised (ℕ × Pool Key)
  | [], [], _ => .ok (0, s)
  | key :: keys, page :: pages, parent => do
    let (filed, s) ← s.insert key page parent
    let parent := if filed then some page else s.index.byKey.lookup key
    let (inserted, s) ← s.insertRun keys pages parent
    return (inserted + filed.toNat, s)
  | _, _, _ => .error .valueError

/-- `_remove`: drop a page's entry and the reference it held. -/
def remove (s : Pool Key) (page : Page) : Except Raised (Pool Key) :=
  match s.index.key page with
  | none => .error .keyError
  | some key =>
    if (s.index.byKey.lookup key).isNone then .error .keyError
    else do
      let parent := s.index.parent page
      let s := { s with index := s.index.forget key page }
      let s ← s.release [page]
      return { s with index := s.index.disown parent }

end Pool

/-- A running `evict`. -/
structure Eviction (Key : Type) [DecidableEq Key] where
  /-- The pool, less the entries popped so far. -/
  pool : Pool Key
  /-- The keys of the pages freed so far. -/
  dropped : List Key
  /-- The popped leaves that somebody else holds too. -/
  passedOver : List Entry
  /-- The heap of the popped leaves whose keys `spare` accepts. -/
  spared : List Entry

namespace Eviction

/-- One popped leaf: passed over, spared, or dropped. The `last` ones are
dropped though `spare` accepts them. -/
def takeLeaf (e : Eviction Key) (spare : Option (Key → Bool)) (last : Bool) (entry : Entry) :
    Except Raised (Eviction Key) :=
  if e.pool.owners entry.2 > 1 then .ok { e with passedOver := e.passedOver ++ [entry] }
  else match e.pool.index.key entry.2 with
    | none => .error .keyError
    | some key =>
      if !last && spare.any fun accepts => accepts key then
        .ok { e with spared := heappush entry e.spared }
      else do
        let pool ← e.pool.remove entry.2
        return { e with pool := pool, dropped := e.dropped ++ [key] }

/-- One round of the loop, and whether it goes on. -/
def round (e : Eviction Key) (spare : Option (Key → Bool)) :
    Except Raised (Bool × Eviction Key) := do
  let (entry, index) ← e.pool.index.popLeaf
  let e := { e with pool := { e.pool with index := index } }
  match entry, e.spared with
  | some entry, _ => return (true, ← e.takeLeaf spare false entry)
  | none, entry :: spared => return (true, ← { e with spared := spared }.takeLeaf spare true entry)
  | none, [] => return (false, e)

/-- The loop of `evict`: until `n` pages are freed or no leaf is left. -/
def loop (n : ℕ) (spare : Option (Key → Bool)) :
    ℕ → Eviction Key → Except Raised (Eviction Key)
  | 0, _ => .error .endless
  | fuel + 1, e =>
    if n ≤ e.dropped.length then .ok e
    else do
      let (goesOn, e) ← e.round spare
      if goesOn then loop n spare fuel e else return e

end Eviction

namespace Pool

/-- Drop the oldest leaves the index alone holds, until `n` are free. A leaf
whose key `spare` accepts is dropped only once no other leaf is left. Every
round takes one entry off the two heaps, and only dropping a page adds one. -/
def evict (s : Pool Key) (n : ℕ) (spare : Option (Key → Bool)) :
    Except Raised (List Key × Pool Key) := do
  let e ← Eviction.loop n spare (2 * s.index.leaves.length + 3 * s.index.numPages + 1)
    ⟨s, [], [], []⟩
  return (e.dropped, { e.pool with index := e.pool.index.putBack (e.passedOver ++ e.spared) })

/-- The loop of `drop`, over the entries last first. -/
def dropEach (s : Pool Key) : List (Key × Page) → Except Raised (Pool Key)
  | [] => .ok s
  | (key, page) :: entries => do
    let s ← if s.index.byKey.lookup key = some page ∧ s.index.children page = 0 ∧
        s.owners page = 1 then s.remove page else pure s
    s.dropEach entries

/-- Remove these entries, last first, each only while the key still names the
page and it is a leaf the index alone holds. -/
def drop (s : Pool Key) (entries : List (Key × Page)) : Except Raised (Pool Key) :=
  s.dropEach entries.reverse

end Pool

end Mstar
