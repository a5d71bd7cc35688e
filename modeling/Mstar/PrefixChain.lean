import Mstar.PageSlots

/-!
# Prefix chains

A stream's chain holds the keys of its pages. It is seeded from a prompt's keys
and the prompt's last ids, and extended by the ids sampled since; a page is
keyed once it is full. A stream that starts over after a reset is seeded from
all its ids but the last and extended by that one. However a sequence is cut
into extends, the keys of its whole pages are those of one chain over it.
-/

namespace Mstar.Keys

/-- The keys that name a stream's pages. -/
structure PrefixChain where
  /-- One key per page of the prompt, then per page filled since. -/
  keys : List Bytes
  /-- The ids not yet keyed. -/
  unkeyed : List ℕ
  /-- The keys that name a whole page. -/
  keyedPages : ℕ
  /-- The slots the chain accounts for. -/
  coveredLen : ℕ
  /-- The layout's keyed spans. -/
  spans : List PrefixSpan
  /-- The items on the page `unkeyed` fills. -/
  unkeyedItems : List PageItem
  /-- The parent of the first page's key. -/
  root : Bytes
deriving DecidableEq, Repr

/-- A chain over a prompt, whose keys and last ids are given. -/
def PrefixChain.seed (keys : List Bytes) (tail : List ℕ) (spans : List PrefixSpan)
    (pageSize : ℕ) (root : Bytes) : PrefixChain :=
  let total := (spans.map PrefixSpan.length).sum
  let whole := total / pageSize
  { keys := keys
    unkeyed := tail
    keyedPages := whole
    coveredLen := total
    spans := spans
    unkeyedItems := pageItems spans pageSize whole
    root := root }

/-- The slots some items take from their first slot on this page on. -/
def slotsLeft (items : List PageItem) : ℤ := (items.map fun i => (i.length : ℤ) - i.offset).sum

/-- The key above page `whole`: the last one before it, or the root. -/
def PrefixChain.above (c : PrefixChain) (whole : ℕ) : Except Halt Bytes :=
  if whole = 0 then .ok c.root
  else
    match c.keys[whole - 1]? with
    | some key => .ok key
    | none => .error .index

/-- The page after the keyed ones named by `key`, over the partial key the prompt
left there, if any; the ids it takes are keyed with it. -/
def PrefixChain.fill (c : PrefixChain) (room : ℤ) (key : Bytes) : PrefixChain :=
  { c with
    keys := if c.keyedPages < c.keys.length then c.keys.set c.keyedPages key else c.keys ++ [key]
    keyedPages := c.keyedPages + 1
    unkeyed := c.unkeyed.drop (cutAt c.unkeyed room)
    unkeyedItems := [] }

/-- Pages keyed while enough ids are there to fill one, `room` the ids the
current one takes. -/
def PrefixChain.keyPages (sha : Bytes → Bytes) (pageSize : ℕ) :
    ℕ → ℤ → PrefixChain → Except Halt PrefixChain
  | 0, _, _ => .error .unfinished
  | steps + 1, room, c =>
    if room ≤ c.unkeyed.length then do
      let prev ← c.above c.keyedPages
      let key ← pageKey sha prev (upTo c.unkeyed room) c.unkeyedItems
      keyPages sha pageSize steps pageSize (c.fill room key)
    else .ok c

/-- Sampled ids taken on. -/
def PrefixChain.extend (sha : Bytes → Bytes) (pageSize steps : ℕ) (c : PrefixChain)
    (tokens : List ℕ) : Except Halt PrefixChain :=
  let c := { c with unkeyed := c.unkeyed ++ tokens, coveredLen := c.coveredLen + tokens.length }
  keyPages sha pageSize steps (pageSize - slotsLeft c.unkeyedItems) c

/-- A prompt's ids past its last whole page. -/
def promptTail (pages : List (List ℕ)) (length pageSize : ℕ) : List ℕ :=
  if length % pageSize ≠ 0 then pages.getLastD [] else []

/-- The chain a request's stream starts with: keyed as its prompt was laid out. -/
def seedKeys (sha : Bytes → Bytes) (pageSize : ℕ) (root : Bytes) (prompt : List Content) :
    Except Halt PrefixChain := do
  let (pages, items) := pageLayout prompt pageSize
  let keys ← chain sha pages items root
  return .seed keys (promptTail pages (total prompt) pageSize) (prompt.map Content.span) pageSize root

/-- A stream laid out again as one span of its ids without the last one, and
extended by that one. With no ids before the last there is no chain. -/
def prepareRebuild (sha : Bytes → Bytes) (pageSize steps : ℕ) (root : Bytes) (ids : List ℕ)
    (last : ℕ) : Except Halt (Option PrefixChain) := do
  let pages := (List.range (ceilDiv ids.length pageSize)).map fun k =>
    (ids.drop (k * pageSize)).take pageSize
  let keys ← chain sha pages (fun _ => []) root
  if keys = [] then return none
  let c := PrefixChain.seed keys (promptTail pages ids.length pageSize) [⟨ids.length, none⟩] pageSize root
  let c ← c.extend sha pageSize steps [last]
  return some c

section Chained

variable {sha : Bytes → Bytes} {pageSize : ℕ} {root : Bytes}

/-- The key of a page of some slots on top of a key. -/
def slotKey (sha : Bytes → Bytes) (pageSize : ℕ) (s : List Slot) (page : ℕ) (prev : Bytes) :
    Except Halt Bytes :=
  pageKey sha prev (tokensOf (slice pageSize page s)) (itemsFrom 0 (slice pageSize page s))

/-- The keys of the first `count` pages of some slots. -/
def keysTo (sha : Bytes → Bytes) (pageSize : ℕ) (root : Bytes) (s : List Slot) (count : ℕ) :
    Except Halt (List Bytes) :=
  chain sha ((List.range count).map fun page => tokensOf (slice pageSize page s))
    (fun page => itemsFrom 0 (slice pageSize page s)) root

/-- Keying one more page adds its key, if its parents' could be made. -/
theorem chainFrom_concat (items : ℕ → List PageItem) (prev : Bytes) (index : ℕ)
    (pages : List (List ℕ)) (tokens : List ℕ) :
    chainFrom sha items prev index (pages ++ [tokens]) =
      (chainFrom sha items prev index pages).bind fun keys =>
        (pageKey sha (keys.getLastD prev) tokens (items (index + pages.length))).map (keys ++ [·]) := by
  induction pages generalizing prev index with
  | nil =>
    simp only [List.nil_append, chainFrom, bind, Except.bind, List.length_nil, Nat.add_zero,
      List.getLastD_nil, pure, Except.pure]
    cases pageKey sha prev tokens (items index) <;> simp [Except.map]
  | cons page pages ih =>
    have hindex : index + 1 + pages.length = index + (page :: pages).length := by
      rw [List.length_cons]
      omega
    simp only [List.cons_append, chainFrom, bind, Except.bind, pure, Except.pure]
    cases pageKey sha prev page (items index) with
    | error e => simp
    | ok key =>
      simp only [ih, hindex, Except.bind]
      cases chainFrom sha items key (index + 1) pages with
      | error e => simp
      | ok keys =>
        simp only [List.getLastD_cons]
        cases pageKey sha (keys.getLastD key) tokens (items (index + (page :: pages).length)) <;>
          simp [Except.map]

/-- The keys up to one more page. -/
theorem keysTo_succ (s : List Slot) (count : ℕ) :
    keysTo sha pageSize root s (count + 1) =
      (keysTo sha pageSize root s count).bind fun keys =>
        (slotKey sha pageSize s count (keys.getLastD root)).map (keys ++ [·]) := by
  unfold keysTo chain slotKey
  rw [List.range_succ, List.map_append, List.map_singleton, chainFrom_concat]
  simp

/-- A key for each page. -/
theorem keysTo_length {s : List Slot} {count : ℕ} {keys : List Bytes}
    (h : keysTo sha pageSize root s count = .ok keys) : keys.length = count := by
  induction count generalizing keys with
  | zero =>
    have hkeys : keys = [] := by simpa [keysTo, chain, chainFrom] using h.symm
    rw [hkeys, List.length_nil]
  | succ count ih =>
    rw [keysTo_succ] at h
    cases hprev : keysTo sha pageSize root s count with
    | error e => simp [hprev, Except.bind] at h
    | ok prev =>
      simp only [hprev, Except.bind] at h
      cases hkey : slotKey sha pageSize s count (prev.getLastD root) with
      | error e => simp only [hkey, Except.map, reduceCtorEq] at h
      | ok key =>
        simp only [hkey, Except.map, Except.ok.injEq] at h
        rw [← h, List.length_append, ih hprev, List.length_singleton]

/-- A page that can't be keyed leaves those after it without keys. -/
theorem keysTo_error {s : List Slot} {count more : ℕ} {e : Halt} (hmore : count ≤ more)
    (h : keysTo sha pageSize root s count = .error e) :
    keysTo sha pageSize root s more = .error e := by
  induction more, hmore using Nat.le_induction with
  | base => exact h
  | succ more _ ih =>
    rw [keysTo_succ, ih]
    simp [Except.bind]

/-- The keys of pages that were full don't change with what comes after. -/
theorem keysTo_append {s t : List Slot} {count : ℕ} (hcount : count * pageSize ≤ s.length) :
    keysTo sha pageSize root (s ++ t) count = keysTo sha pageSize root s count := by
  induction count with
  | zero => simp [keysTo, chain, chainFrom]
  | succ count ih =>
    rw [Nat.succ_mul] at hcount
    have hslice : slice pageSize count (s ++ t) = slice pageSize count s := by
      have hnone : (count + 1) * pageSize - s.length = 0 := by
        rw [Nat.succ_mul]
        omega
      rw [slice_append, hnone, List.take_zero, List.drop_nil, List.append_nil]
    rw [keysTo_succ, keysTo_succ, ih (by omega)]
    unfold slotKey
    rw [hslice]

end Chained

end Mstar.Keys
