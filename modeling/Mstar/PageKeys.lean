import Mstar.Delimited
import Mathlib.Data.Nat.Init
import Mathlib.Data.Int.Basic

/-!
# Page keys

A page's key hashes its parent's key, its token ids and the items on it, so a
key commits to the whole prefix below it. Every variable-length part carries a
length prefix and every integer a fixed width. The hash is a parameter. A
sequence is laid out on pages span by span: ids fill the slots, and a media
item takes slots that hold no id.
-/

namespace Mstar.Keys

/-- Bytes, as they are hashed. -/
abbrev Bytes := List UInt8

/-- Why a computation gives no value. -/
inductive Halt where
  /-- An integer does not fit its width (`to_bytes` raises). -/
  | overflow
  /-- A list is read past its end (`IndexError`). -/
  | index
  /-- The steps granted to a loop ran out. -/
  | unfinished
deriving DecidableEq, Repr

/-- A token id's width. -/
def tokenBytes : ℕ := 4

/-- A length prefix's width. -/
def lenBytes : ℕ := 4

/-- An item's integers' width. -/
def slotBytes : ℕ := 4

/-- An integer in a fixed width, little end first. -/
def toBytes (width n : ℕ) : Except Halt Bytes :=
  if n < 256 ^ width then .ok (leBytes width n) else .error .overflow

/-- A payload behind its length. -/
def field (payload : Bytes) : Except Halt Bytes := do
  let size ← toBytes lenBytes payload.length
  return size ++ payload

/-- An input that is not a token, as it sits on one page. -/
structure PageItem where
  /-- Its first slot on this page. -/
  start : ℕ
  /-- Its slots on earlier pages. -/
  offset : ℕ
  /-- All of its slots. -/
  length : ℕ
  /-- What names its content. -/
  digest : Bytes
deriving DecidableEq, Repr

/-- An item's placement and digest. -/
def item (i : PageItem) : Except Halt Bytes := do
  let slots ← [i.start, i.offset, i.length].mapM (toBytes slotBytes)
  let digest ← field i.digest
  return slots.flatten ++ digest

section Hashed

variable (sha : Bytes → Bytes)

/-- The hash of some fields, in the encoding page keys use. -/
def fingerprint (fields : List Bytes) : Except Halt Bytes := do
  let encoded ← fields.mapM field
  return sha encoded.flatten

/-- A page's key, of its parent's key, its token ids and its items. -/
def pageKey (prev : Bytes) (tokens : List ℕ) (items : List PageItem) : Except Halt Bytes := do
  let parent ← field prev
  let ids ← tokens.mapM (toBytes tokenBytes)
  let ids ← field ids.flatten
  let placed ← items.mapM item
  let placed ← field placed.flatten
  return sha (parent ++ (ids ++ placed))

/-- Where `xs[:stop]` ends: a negative `stop` counts from the end. -/
def cutAt {α : Type} (xs : List α) (stop : ℤ) : ℕ :=
  if stop < 0 then (xs.length + stop).toNat else stop.toNat

/-- `xs[:stop]`. -/
def upTo {α : Type} (xs : List α) (stop : ℤ) : List α := xs.take (cutAt xs stop)

/-- The key of a page's first `stop` slots, where an item on it ends. -/
def endKey (prev : Bytes) (tokens : List ℕ) (items : List PageItem) (stop : ℕ) :
    Except Halt Bytes :=
  let before := items.filter fun i => i.start < stop
  pageKey sha prev (upTo tokens (stop - (before.map fun i => (i.length : ℤ) - i.offset).sum)) before

/-- The keys of some pages on top of a key, the first of them page `index`. -/
def chainFrom (items : ℕ → List PageItem) (prev : Bytes) (index : ℕ) :
    List (List ℕ) → Except Halt (List Bytes)
  | [] => .ok []
  | tokens :: pages => do
    let key ← pageKey sha prev tokens (items index)
    let keys ← chainFrom items key (index + 1) pages
    return key :: keys

/-- Every page of one stream keyed, each key folded into the next. -/
def chain (pagesOfTokens : List (List ℕ)) (itemsByPage : ℕ → List PageItem) (root : Bytes) :
    Except Halt (List Bytes) :=
  chainFrom sha itemsByPage root 0 pagesOfTokens

end Hashed

/-- One keyed span of a label's layout. -/
structure PrefixSpan where
  /-- Its slots. -/
  length : ℕ
  /-- What names its content, for a span that is not ids. -/
  digest : Option Bytes
deriving DecidableEq, Repr

/-- `-(-a // b)`. -/
def ceilDiv (a b : ℕ) : ℕ := (a + b - 1) / b

/-- One span's items added to every page it touches, and where it ends. -/
def addItems (pageSize : ℕ) (laid : (ℕ → List PageItem) × ℕ) (span : PrefixSpan) :
    (ℕ → List PageItem) × ℕ :=
  let atSlot := laid.2
  match span.digest with
  | none => (laid.1, atSlot + span.length)
  | some digest =>
    (fun page =>
      if atSlot / pageSize ≤ page ∧ page < ceilDiv (atSlot + span.length) pageSize then
        let first := max atSlot (page * pageSize)
        laid.1 page ++ [⟨first - page * pageSize, first - atSlot, span.length, digest⟩]
      else laid.1 page, atSlot + span.length)

/-- Each page's items, given every span's length and digest. -/
def pageItems (spans : List PrefixSpan) (pageSize : ℕ) : ℕ → List PageItem :=
  (spans.foldl (addItems pageSize) (fun _ => [], 0)).1

/-- One span of a sequence with what it holds: token ids, or a media item, which
takes some slots and is named by its digest. -/
inductive Content where
  | ids (tokens : List ℕ)
  | media (length : ℕ) (digest : Bytes) (hlength : 0 < length)
deriving DecidableEq, Repr

/-- A span's slots. -/
def Content.length : Content → ℕ
  | .ids tokens => tokens.length
  | .media length _ _ => length

/-- What a layout says of a span. -/
def Content.span : Content → PrefixSpan
  | .ids tokens => ⟨tokens.length, none⟩
  | .media length digest _ => ⟨length, some digest⟩

/-- The slots of a sequence. -/
def total (layout : List Content) : ℕ := (layout.map Content.length).sum

/-- One span's ids added to every page it touches, and where it ends. -/
def addIds (pageSize : ℕ) (laid : (ℕ → List ℕ) × ℕ) (content : Content) : (ℕ → List ℕ) × ℕ :=
  let atSlot := laid.2
  match content with
  | .media length _ _ => (laid.1, atSlot + length)
  | .ids tokens =>
    (fun page =>
      if atSlot / pageSize ≤ page ∧ page < ceilDiv (atSlot + tokens.length) pageSize then
        let first := max atSlot (page * pageSize)
        let last := min (atSlot + tokens.length) ((page + 1) * pageSize)
        laid.1 page ++ (tokens.take (last - atSlot)).drop (first - atSlot)
      else laid.1 page, atSlot + tokens.length)

/-- The ids on each page of a sequence. -/
def pageIds (layout : List Content) (pageSize : ℕ) : ℕ → List ℕ :=
  (layout.foldl (addIds pageSize) (fun _ => [], 0)).1

/-- A sequence's pages of ids and each page's items. -/
def pageLayout (layout : List Content) (pageSize : ℕ) : List (List ℕ) × (ℕ → List PageItem) :=
  ((List.range (ceilDiv (total layout) pageSize)).map (pageIds layout pageSize),
    pageItems (layout.map Content.span) pageSize)

/-- The end key of a span that ends before slot `stop`: where a media item ends
inside a page, that of the page up to there. -/
def spanEndKey (sha : Bytes → Bytes) (pageSize : ℕ) (root : Bytes) (keys : List Bytes)
    (pages : List (List ℕ)) (items : ℕ → List PageItem) (stop : ℕ) (content : Content) :
    Except Halt (Option Bytes) :=
  let page := stop / pageSize
  if content.span.digest ≠ none ∧ stop % pageSize ≠ 0 then
    (endKey sha (if page = 0 then root else keys.getD (page - 1) []) (pages.getD page []) (items page)
      (stop % pageSize)).map some
  else .ok none

/-- Each span's end key, the first span from slot `before` on. -/
def endKeys (sha : Bytes → Bytes) (pageSize : ℕ) (root : Bytes) (keys : List Bytes)
    (pages : List (List ℕ)) (items : ℕ → List PageItem) :
    ℕ → List Content → Except Halt (List (Option Bytes))
  | _, [] => .ok []
  | before, content :: layout => do
    let stop := before + content.length
    let key ← spanEndKey sha pageSize root keys pages items stop content
    let more ← endKeys sha pageSize root keys pages items stop layout
    return key :: more

/-- The keys of a label's keyed spans: each page's, and each span's end key. -/
def prefixKeys (sha : Bytes → Bytes) (pageSize : ℕ) (root : Bytes) (layout : List Content) :
    Except Halt (List Bytes × List (Option Bytes)) := do
  let (pages, items) := pageLayout layout pageSize
  let pageKeys ← chain sha pages items root
  let ends ← endKeys sha pageSize root pageKeys pages items 0 layout
  return (pageKeys, ends)

end Mstar.Keys
