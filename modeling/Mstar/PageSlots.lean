import Mstar.PageKeys
import Mathlib.Data.List.Chain
import Mathlib.Data.List.Range

/-!
# What a page holds

A sequence is a list of slots, each a token or a slot of a media item. A page is
a slice of it: its ids are the slice's tokens, and its items start where an item
starts or the page does. In a sequence an item's slots follow one another, so a
whole page is known from its ids and items.
-/

namespace Mstar.Keys

/-- One slot of a sequence. -/
inductive Slot where
  | token (id : ℕ)
  /-- A slot of a media item, with the item's slots before it. -/
  | media (digest : Bytes) (length offset : ℕ)
deriving DecidableEq, Repr

/-- A slot's token. -/
def Slot.token? : Slot → Option ℕ
  | .token id => some id
  | .media _ _ _ => none

/-- A span's slots. -/
def Content.slots : Content → List Slot
  | .ids tokens => tokens.map .token
  | .media length digest _ => (List.range length).map (.media digest length)

/-- A sequence's slots. -/
def slots (layout : List Content) : List Slot := layout.flatMap Content.slots

/-- The tokens of some slots. -/
def tokensOf (s : List Slot) : List ℕ := s.filterMap Slot.token?

/-- The items of some slots, the first of them at `start` on its page. -/
def itemsFrom : ℕ → List Slot → List PageItem
  | _, [] => []
  | start, .token _ :: s => itemsFrom (start + 1) s
  | start, .media digest length offset :: s =>
    if start = 0 ∨ offset = 0 then ⟨start, offset, length, digest⟩ :: itemsFrom (start + 1) s
    else itemsFrom (start + 1) s

/-- A page's slots. -/
def slice (pageSize page : ℕ) (s : List Slot) : List Slot :=
  (s.drop (page * pageSize)).take pageSize

/-- The tokens of slots one after another. -/
@[simp] theorem tokensOf_append (s t : List Slot) : tokensOf (s ++ t) = tokensOf s ++ tokensOf t :=
  List.filterMap_append

/-- And their items. -/
theorem itemsFrom_append (start : ℕ) (s t : List Slot) :
    itemsFrom start (s ++ t) = itemsFrom start s ++ itemsFrom (start + s.length) t := by
  induction s generalizing start with
  | nil => simp [itemsFrom]
  | cons x s ih =>
    have hstart : start + 1 + s.length = start + (x :: s).length := by
      rw [List.length_cons]
      omega
    cases x with
    | token id => simp only [List.cons_append, itemsFrom, ih, hstart]
    | media digest length offset =>
      simp only [List.cons_append, itemsFrom, ih, hstart]
      split <;> simp

/-- A content has as many slots as it is long. -/
@[simp] theorem Content.slots_length (c : Content) : c.slots.length = c.length := by
  cases c <;> simp [Content.slots, Content.length]

/-- So has a layout. -/
@[simp] theorem slots_length (layout : List Content) : (slots layout).length = total layout := by
  unfold slots total
  rw [List.length_flatMap]
  simp

/-- The slots of layouts one after another. -/
theorem slots_append (layout more : List Content) :
    slots (layout ++ more) = slots layout ++ slots more :=
  List.flatMap_append

/-- A page has its size in slots, the last what is left. -/
theorem slice_length (pageSize page : ℕ) (s : List Slot) :
    (slice pageSize page s).length = min pageSize (s.length - page * pageSize) := by
  unfold slice
  rw [List.length_take, List.length_drop]

/-- What comes after a sequence fills its page up. -/
theorem slice_append (pageSize page : ℕ) (s t : List Slot) :
    slice pageSize page (s ++ t) = slice pageSize page s ++
      (t.take ((page + 1) * pageSize - s.length)).drop (page * pageSize - s.length) := by
  have hpage : (page + 1) * pageSize = page * pageSize + pageSize := Nat.succ_mul page pageSize
  unfold slice
  rw [List.drop_append, List.take_append, List.length_drop, hpage]
  congr 1
  rw [List.take_drop]
  by_cases hs : s.length ≤ page * pageSize
  · congr 2
    omega
  · have hdrop : page * pageSize - s.length = 0 := by omega
    rw [hdrop, List.drop_zero, List.drop_zero]
    congr 1
    omega

/-- Tokens make no item. -/
@[simp] theorem itemsFrom_tokens (start : ℕ) (ids : List ℕ) :
    itemsFrom start (ids.map .token) = [] := by
  induction ids generalizing start with
  | nil => simp [itemsFrom]
  | cons id ids ih => simp [itemsFrom, ih]

/-- They are themselves. -/
@[simp] theorem tokensOf_tokens (ids : List ℕ) : tokensOf (ids.map .token) = ids := by
  simp [tokensOf, List.filterMap_map, Function.comp_def, Slot.token?]

/-- Media has no tokens. -/
@[simp] theorem tokensOf_media (digest : Bytes) (length : ℕ) (offsets : List ℕ) :
    tokensOf (offsets.map (.media digest length)) = [] := by
  simp [tokensOf, List.filterMap_map, Function.comp_def, Slot.token?]

/-- Slots inside an item start nothing. -/
theorem itemsFrom_inner (digest : Bytes) (length : ℕ) {start offset n : ℕ} (hstart : 0 < start)
    (hoffset : 0 < offset) :
    itemsFrom start ((List.range' offset n).map (.media digest length)) = [] := by
  induction n generalizing start offset with
  | zero => simp [itemsFrom]
  | succ n ih =>
    rw [List.range'_succ, List.map_cons]
    unfold itemsFrom
    rw [if_neg (by omega)]
    exact ih (by omega) (by omega)

/-- A run of an item's slots at its start, or at the page's, is one item. -/
theorem itemsFrom_run (digest : Bytes) (length : ℕ) {start offset n : ℕ} (hn : 0 < n)
    (hrun : start = 0 ∨ offset = 0) :
    itemsFrom start ((List.range' offset n).map (.media digest length)) =
      [⟨start, offset, length, digest⟩] := by
  obtain ⟨n, rfl⟩ : ∃ m, n = m + 1 := ⟨n - 1, by omega⟩
  rw [List.range'_succ, List.map_cons]
  unfold itemsFrom
  rw [if_pos hrun]
  by_cases hn : n = 0
  · subst hn
    simp [itemsFrom]
  · rw [itemsFrom_inner digest length (by omega) (by omega)]

/-- The pages of `a` slots are those that start before they end. -/
theorem lt_ceilDiv {pageSize a page : ℕ} (hsize : 0 < pageSize) :
    page < ceilDiv a pageSize ↔ page * pageSize < a := by
  unfold ceilDiv
  rw [← Nat.succ_le_iff, Nat.le_div_iff_mul_le hsize, Nat.succ_mul]
  omega

/-- A span touches the pages its slots are on. -/
theorem touches_iff {pageSize atSlot length page : ℕ} (hsize : 0 < pageSize) :
    (atSlot / pageSize ≤ page ∧ page < ceilDiv (atSlot + length) pageSize) ↔
      atSlot < (page + 1) * pageSize ∧ page * pageSize < atSlot + length := by
  have hleft : atSlot / pageSize ≤ page ↔ atSlot < (page + 1) * pageSize := by
    rw [← Nat.lt_succ_iff, Nat.div_lt_iff_lt_mul hsize]
  rw [hleft, lt_ceilDiv hsize]

/-- A content's tokens move the end by its length. -/
theorem addIds_snd (pageSize : ℕ) (laid : (ℕ → List ℕ) × ℕ) (c : Content) :
    (addIds pageSize laid c).2 = laid.2 + c.length := by
  cases c <;> simp [addIds, Content.length]

/-- So do its items. -/
theorem addItems_snd (pageSize : ℕ) (laid : (ℕ → List PageItem) × ℕ) (c : Content) :
    (addItems pageSize laid c.span).2 = laid.2 + c.length := by
  cases c <;> simp [addItems, Content.span, Content.length]

/-- A span puts the tokens of its slots on each page it touches. -/
theorem addIds_fst {pageSize : ℕ} (hsize : 0 < pageSize) (laid : (ℕ → List ℕ) × ℕ) (c : Content)
    (page : ℕ) : (addIds pageSize laid c).1 page = laid.1 page ++
      tokensOf ((c.slots.take ((page + 1) * pageSize - laid.2)).drop (page * pageSize - laid.2)) := by
  cases c with
  | media length digest hlength => simp [addIds, Content.slots, ← List.map_take, ← List.map_drop]
  | ids tokens =>
    have hsome (a b : ℕ) : tokensOf (((Content.ids tokens).slots.take a).drop b) =
        (tokens.take a).drop b := by
      simp [Content.slots, ← List.map_take, ← List.map_drop]
    rw [hsome]
    simp only [addIds, touches_iff hsize]
    split
    next htouch =>
      have hfirst : max laid.2 (page * pageSize) - laid.2 = page * pageSize - laid.2 := by omega
      have htake : tokens.take (min (laid.2 + tokens.length) ((page + 1) * pageSize) - laid.2) =
          tokens.take ((page + 1) * pageSize - laid.2) := by
        by_cases hlong : (page + 1) * pageSize ≤ laid.2 + tokens.length
        · rw [min_eq_right hlong]
        · rw [min_eq_left (by omega), List.take_of_length_le (by omega),
            List.take_of_length_le (by omega)]
      rw [hfirst, htake]
    next htouch =>
      have hnone : (tokens.take ((page + 1) * pageSize - laid.2)).drop
          (page * pageSize - laid.2) = [] := by
        rw [List.drop_eq_nil_iff, List.length_take]
        omega
      rw [hnone, List.append_nil]

/-- A span puts the items of its slots on each page it touches. -/
theorem addItems_fst {pageSize : ℕ} (hsize : 0 < pageSize) (laid : (ℕ → List PageItem) × ℕ)
    (c : Content) (page : ℕ) : (addItems pageSize laid c.span).1 page = laid.1 page ++
      itemsFrom (min pageSize (laid.2 - page * pageSize))
        ((c.slots.take ((page + 1) * pageSize - laid.2)).drop (page * pageSize - laid.2)) := by
  cases c with
  | ids tokens => simp [addItems, Content.span, Content.slots, ← List.map_take, ← List.map_drop]
  | media length digest hlength =>
    have hpage : (page + 1) * pageSize = page * pageSize + pageSize := Nat.succ_mul page pageSize
    have hrun (a b : ℕ) : ((List.range length).take a).drop b = List.range' b (min a length - b) := by
      rw [List.take_range, List.range_eq_range', List.drop_range', Nat.zero_add, Nat.mul_one]
    simp only [addItems, Content.span, Content.slots, ← List.map_take, ← List.map_drop, hrun,
      touches_iff hsize]
    split
    next htouch =>
      rw [itemsFrom_run digest length (by omega) (by omega)]
      congr 3 <;> omega
    next htouch =>
      have hnone : min ((page + 1) * pageSize - laid.2) length - (page * pageSize - laid.2) = 0 := by
        omega
      rw [hnone]
      simp [itemsFrom]

/-- The slots with a last content. -/
theorem slots_concat (layout : List Content) (c : Content) :
    slots (layout ++ [c]) = slots layout ++ c.slots := by
  rw [slots_append]
  simp [slots]

/-- Lengths add up. -/
theorem total_append (layout more : List Content) :
    total (layout ++ more) = total layout + total more := by
  simp [total]

/-- The length with a last content. -/
theorem total_concat (layout : List Content) (c : Content) :
    total (layout ++ [c]) = total layout + c.length := by
  simp [total]

/-- A page's ids are its slots' tokens. -/
theorem pageIds_eq {pageSize : ℕ} (hsize : 0 < pageSize) (layout : List Content) (page : ℕ) :
    pageIds layout pageSize page = tokensOf (slice pageSize page (slots layout)) := by
  unfold pageIds
  suffices h : (layout.foldl (addIds pageSize) (fun _ => [], 0)).2 = total layout ∧
      (layout.foldl (addIds pageSize) (fun _ => [], 0)).1 page =
        tokensOf (slice pageSize page (slots layout)) from h.2
  induction layout using List.reverseRecOn with
  | nil => simp [total, slots, slice, tokensOf]
  | append_singleton layout c ih =>
    obtain ⟨hend, hids⟩ := ih
    rw [List.foldl_append, List.foldl_cons, List.foldl_nil, addIds_snd, addIds_fst hsize, hend, hids,
      total_concat, slots_concat, slice_append, slots_length, tokensOf_append]
    exact ⟨rfl, rfl⟩

/-- A page's items are those of its slots. -/
theorem pageItems_eq {pageSize : ℕ} (hsize : 0 < pageSize) (layout : List Content) (page : ℕ) :
    pageItems (layout.map Content.span) pageSize page =
      itemsFrom 0 (slice pageSize page (slots layout)) := by
  unfold pageItems
  suffices h : ((layout.map Content.span).foldl (addItems pageSize) (fun _ => [], 0)).2 =
      total layout ∧ ((layout.map Content.span).foldl (addItems pageSize) (fun _ => [], 0)).1 page =
        itemsFrom 0 (slice pageSize page (slots layout)) from h.2
  induction layout using List.reverseRecOn with
  | nil => simp [total, slots, slice, itemsFrom]
  | append_singleton layout c ih =>
    obtain ⟨hend, hitems⟩ := ih
    rw [List.map_append, List.map_singleton, List.foldl_append, List.foldl_cons, List.foldl_nil,
      addItems_snd, addItems_fst hsize, hend, hitems, total_concat, slots_concat, slice_append,
      itemsFrom_append, slice_length, slots_length, Nat.zero_add]
    exact ⟨rfl, rfl⟩

end Mstar.Keys
