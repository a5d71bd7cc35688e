import Mstar.PrefixChain

/-!
# Extending a chain, however the ids are cut

While pages fill up, a chain's keys are those of one chain over all its slots,
and what is left is the last page's ids and items. The induction is on the
steps of the loop: each keys one more page, and from the prompt's last page on
every slot is a token.
-/

namespace Mstar.Keys

variable {sha : Bytes → Bytes} {pageSize : ℕ} {root : Bytes}

/-- The items on what is left of a sequence take all of it but its tokens. -/
theorem slotsLeft_drop (layout : List Content) (m : ℕ) :
    slotsLeft (itemsFrom 0 ((slots layout).drop m)) =
      ((slots layout).drop m).length - (tokensOf ((slots layout).drop m)).length := by
  induction layout using List.reverseRecOn with
  | nil => simp [slots, slotsLeft, itemsFrom, tokensOf]
  | append_singleton layout c ih =>
    have hsum (xs ys : List PageItem) : slotsLeft (xs ++ ys) = slotsLeft xs + slotsLeft ys := by
      simp [slotsLeft]
    rw [slots_concat, List.drop_append, itemsFrom_append, hsum, ih, tokensOf_append,
      List.length_append, List.length_append]
    suffices h : slotsLeft (itemsFrom (0 + ((slots layout).drop m).length)
        (c.slots.drop (m - (slots layout).length))) =
        (c.slots.drop (m - (slots layout).length)).length -
          (tokensOf (c.slots.drop (m - (slots layout).length))).length by
      rw [h]
      omega
    cases c with
    | ids tokens =>
      simp [Content.slots, slotsLeft, ← List.map_drop]
    | media length digest hlength =>
      have hdrop (k : ℕ) : (Content.media length digest hlength).slots.drop k =
          (List.range' k (length - k)).map (.media digest length) := by
        rw [Content.slots, ← List.map_drop, List.range_eq_range', List.drop_range', Nat.zero_add,
          Nat.mul_one]
      rw [hdrop, tokensOf_media, slots_length, List.length_drop, slots_length]
      by_cases hpast : length ≤ m - total layout
      · rw [Nat.sub_eq_zero_of_le hpast]
        simp [itemsFrom, slotsLeft]
      · rw [itemsFrom_run digest length (by omega) (by omega)]
        simp only [slotsLeft, List.map_cons, List.map_nil, List.sum_cons, List.sum_nil,
          List.length_map, List.length_range', List.length_nil]
        omega

/-- Some slots, a page of them and the rest. -/
theorem drop_eq_slice (pageSize : ℕ) (s : List Slot) (page : ℕ) :
    s.drop (page * pageSize) = slice pageSize page s ++ s.drop ((page + 1) * pageSize) := by
  unfold slice
  rw [Nat.succ_mul, ← List.drop_drop, List.take_append_drop]

/-- The keys of fewer pages are the first of those of more. -/
theorem keysTo_take {s : List Slot} {count more : ℕ} {keys : List Bytes} (hmore : count ≤ more)
    (h : keysTo sha pageSize root s more = .ok keys) :
    keysTo sha pageSize root s count = .ok (keys.take count) := by
  induction more, hmore using Nat.le_induction generalizing keys with
  | base => rw [h, List.take_of_length_le (keysTo_length h).le]
  | succ more hmore ih =>
    rw [keysTo_succ] at h
    cases hprev : keysTo sha pageSize root s more with
    | error e => simp [hprev, Except.bind] at h
    | ok prev =>
      simp only [hprev, Except.bind] at h
      cases hkey : slotKey sha pageSize s more (prev.getLastD root) with
      | error e => simp only [hkey, Except.map, reduceCtorEq] at h
      | ok key =>
        simp only [hkey, Except.map, Except.ok.injEq] at h
        rw [← h, List.take_append_of_le_length ((keysTo_length hprev).symm ▸ hmore), ih hprev]

/-- The key above the first page to be keyed is the last of the keys so far. -/
theorem above_eq {c : PrefixChain} {keys rest : List Bytes} (hroot : c.root = root)
    (hlen : keys.length = c.keyedPages) (hc : c.keys = keys ++ rest) :
    c.above c.keyedPages = .ok (keys.getLastD root) := by
  unfold PrefixChain.above
  rw [← hlen]
  cases keys using List.reverseRecOn with
  | nil => simp [hroot]
  | append_singleton keys key => simp [hc]

/-- A filled page's key follows those before it, and takes the place of one key
of the rest. -/
theorem fill_keys {c : PrefixChain} {keys rest : List Bytes} (hlen : keys.length = c.keyedPages)
    (hc : c.keys = keys ++ rest) (room : ℤ) (key : Bytes) :
    (c.fill room key).keys = (keys ++ [key]) ++ rest.drop 1 := by
  unfold PrefixChain.fill
  rw [hc, ← hlen]
  cases rest with
  | nil => simp
  | cons other rest => simp

/-- The loop keys every whole page and leaves the rest. -/
theorem keyPages_eq (hsize : 0 < pageSize) (steps : ℕ) {s : List Slot} {c : PrefixChain}
    {keys rest : List Bytes} {room : ℤ} {ids : List ℕ} (hroot : c.root = root)
    (hkeys : keysTo sha pageSize root s c.keyedPages = .ok keys) (hc : c.keys = keys ++ rest)
    (hunkeyed : c.unkeyed = tokensOf (s.drop (c.keyedPages * pageSize)))
    (hitems : c.unkeyedItems = itemsFrom 0 (slice pageSize c.keyedPages s))
    (hids : s.drop ((c.keyedPages + 1) * pageSize) = ids.map .token)
    (hroom : room = pageSize - ((slice pageSize c.keyedPages s).length -
      (tokensOf (slice pageSize c.keyedPages s)).length : ℤ))
    (hle : c.keyedPages * pageSize ≤ s.length)
    (hsteps : s.length / pageSize < steps + c.keyedPages) :
    c.keyPages sha pageSize steps room =
      (keysTo sha pageSize root s (s.length / pageSize)).map fun keys' =>
        { c with
          keys := keys' ++ rest.drop (keys'.length - keys.length)
          keyedPages := s.length / pageSize
          unkeyed := tokensOf (s.drop (s.length / pageSize * pageSize))
          unkeyedItems := itemsFrom 0 (slice pageSize (s.length / pageSize) s) } := by
  induction steps generalizing c keys rest room ids with
  | zero =>
    have := (Nat.le_div_iff_mul_le hsize).2 hle
    omega
  | succ steps ih =>
    have hlen : keys.length = c.keyedPages := keysTo_length hkeys
    have hslice := slice_length pageSize c.keyedPages s
    have hsplit := drop_eq_slice pageSize s c.keyedPages
    have hmany : c.unkeyed.length = (tokensOf (slice pageSize c.keyedPages s)).length + ids.length := by
      rw [hunkeyed, hsplit, hids, tokensOf_append, tokensOf_tokens, List.length_append]
    have hids_length : ids.length = s.length - (c.keyedPages + 1) * pageSize := by
      have := congrArg List.length hids
      rw [List.length_drop, List.length_map] at this
      omega
    have hnext : (c.keyedPages + 1) * pageSize = c.keyedPages * pageSize + pageSize :=
      Nat.succ_mul c.keyedPages pageSize
    unfold PrefixChain.keyPages
    by_cases hfull : room ≤ c.unkeyed.length
    · have hpage : (slice pageSize c.keyedPages s).length = pageSize := by omega
      have hcut : cutAt c.unkeyed room = (tokensOf (slice pageSize c.keyedPages s)).length := by
        have hroom' : room = (tokensOf (slice pageSize c.keyedPages s)).length := by omega
        unfold cutAt
        rw [if_neg (by omega), hroom', Int.toNat_natCast]
      have htake : upTo c.unkeyed room = tokensOf (slice pageSize c.keyedPages s) := by
        unfold upTo
        rw [hcut, hunkeyed, hsplit, tokensOf_append, List.take_left]
      have hdrop : c.unkeyed.drop (cutAt c.unkeyed room) = ids := by
        rw [hcut, hunkeyed, hsplit, tokensOf_append, List.drop_left, hids, tokensOf_tokens]
      have hsucc : keysTo sha pageSize root s (c.keyedPages + 1) = _ := keysTo_succ s c.keyedPages
      simp only [hkeys, Except.bind] at hsucc
      have hmore : c.keyedPages + 1 ≤ s.length / pageSize := by
        rw [Nat.le_div_iff_mul_le hsize]
        omega
      rw [if_pos hfull, above_eq hroot hlen hc, htake, hitems]
      change (slotKey sha pageSize s c.keyedPages (keys.getLastD root)).bind _ = _
      cases hkey : slotKey sha pageSize s c.keyedPages (keys.getLastD root) with
      | error e =>
        simp only [hkey, Except.map] at hsucc
        rw [keysTo_error hmore hsucc]
        simp [Except.map, Except.bind]
      | ok key =>
        simp only [hkey, Except.map] at hsucc
        have hrest : s.drop ((c.keyedPages + 1 + 1) * pageSize) = (ids.drop pageSize).map .token := by
          rw [Nat.succ_mul, ← List.drop_drop, hids, List.map_drop]
        have hpage' : slice pageSize (c.keyedPages + 1) s = (ids.take pageSize).map .token := by
          unfold slice
          rw [hids, List.map_take]
        have hpages : (c.fill room key).keyedPages = c.keyedPages + 1 := rfl
        have hunkeyed' : (c.fill room key).unkeyed =
            tokensOf (s.drop ((c.fill room key).keyedPages * pageSize)) := by
          rw [hpages, hids, tokensOf_tokens]
          exact hdrop
        have hitems' : (c.fill room key).unkeyedItems =
            itemsFrom 0 (slice pageSize (c.fill room key).keyedPages s) := by
          rw [hpages, hpage', itemsFrom_tokens]
          rfl
        have hroom' : (pageSize : ℤ) =
            pageSize - ((slice pageSize (c.fill room key).keyedPages s).length -
              (tokensOf (slice pageSize (c.fill room key).keyedPages s)).length : ℤ) := by
          rw [hpages, hpage', tokensOf_tokens, List.length_map]
          omega
        have hloop := ih (c := c.fill room key) hroot hsucc (fill_keys hlen hc room key) hunkeyed' hitems' hrest hroom'
          (by rw [hpages]; omega) (by rw [hpages]; omega)
        rw [Except.bind, hloop]
        cases hall : keysTo sha pageSize root s (s.length / pageSize) with
        | error e => simp [Except.map]
        | ok keys' =>
          have hlen' := keysTo_length hall
          have hdrops : (rest.drop 1).drop (keys'.length - (keys ++ [key]).length) =
              rest.drop (keys'.length - keys.length) := by
            rw [List.drop_drop, List.length_append, List.length_singleton]
            congr 1
            omega
          simp only [Except.map, hdrops]
          rfl
    · have hlast : s.length / pageSize = c.keyedPages :=
        Nat.div_eq_of_lt_le hle (by omega)
      rw [if_neg hfull, hlast, hkeys]
      simp only [Except.map, Nat.sub_self, List.drop_zero, ← hc, ← hunkeyed, ← hitems]

/-- The chain of a sequence whose whole pages have `keys`: where the sequence
ends before a page does, that page's ids and items wait, and past the keys
stands what the prompt's chain had there. -/
def chained (pageSize : ℕ) (root : Bytes) (spans : List PrefixSpan) (promptKeys : List Bytes)
    (layout : List Content) (keys : List Bytes) : PrefixChain :=
  { keys := keys ++ promptKeys.drop keys.length
    unkeyed := pageIds layout pageSize (total layout / pageSize)
    keyedPages := total layout / pageSize
    coveredLen := total layout
    spans := spans
    unkeyedItems := pageItems (layout.map Content.span) pageSize (total layout / pageSize)
    root := root }

/-- The keys of a sequence's whole pages, of one chain over it. -/
def wholeKeys (sha : Bytes → Bytes) (pageSize : ℕ) (root : Bytes) (layout : List Content) :
    Except Halt (List Bytes) :=
  chain sha ((pageLayout layout pageSize).1.take (total layout / pageSize))
    (pageLayout layout pageSize).2 root

/-- Rounding up gives no less than rounding down. -/
theorem le_ceilDiv {a b : ℕ} (hb : 0 < b) : a / b ≤ ceilDiv a b := by
  unfold ceilDiv
  exact Nat.div_le_div_right (by omega)

/-- The whole prompt's keys are those of its slots. -/
theorem wholeKeys_eq (hsize : 0 < pageSize) (layout : List Content) :
    wholeKeys sha pageSize root layout =
      keysTo sha pageSize root (slots layout) (total layout / pageSize) := by
  unfold wholeKeys keysTo pageLayout
  have hpages : ((List.range (ceilDiv (total layout) pageSize)).map (pageIds layout pageSize)).take
      (total layout / pageSize) = (List.range (total layout / pageSize)).map
        fun page => tokensOf (slice pageSize page (slots layout)) := by
    rw [← List.map_take, List.take_range, min_eq_left (le_ceilDiv hsize)]
    exact List.map_congr_left fun page _ => pageIds_eq hsize layout page
  dsimp only
  rw [hpages]
  congr 1
  funext page
  exact pageItems_eq hsize layout page

/-- Past the last whole page a slice is all that is left. -/
theorem slice_last (hsize : 0 < pageSize) (s : List Slot) :
    slice pageSize (s.length / pageSize) s = s.drop (s.length / pageSize * pageSize) := by
  have hrest := Nat.mod_lt s.length hsize
  have hdiv := Nat.div_add_mod' s.length pageSize
  unfold slice
  rw [List.take_of_length_le]
  rw [List.length_drop]
  omega

/-- Ids taken on leave the chain of the longer sequence. -/
theorem extend_chained (hsize : 0 < pageSize) {steps : ℕ} {tokens : List ℕ}
    (hsteps : pageSize + tokens.length ≤ steps) {spans : List PrefixSpan}
    {promptKeys keys : List Bytes} {layout : List Content}
    (hkeys : wholeKeys sha pageSize root layout = .ok keys) :
    (chained pageSize root spans promptKeys layout keys).extend sha pageSize steps tokens =
      (wholeKeys sha pageSize root (layout ++ [.ids tokens])).map
        (chained pageSize root spans promptKeys (layout ++ [.ids tokens])) := by
  set n := total layout / pageSize
  set t := (slots layout).drop (n * pageSize) with ht
  have hdiv : n * pageSize + total layout % pageSize = total layout := Nat.div_add_mod' _ _
  have hmod := Nat.mod_lt (total layout) hsize
  have hlen : (slots layout).length = total layout := slots_length layout
  have hle : n * pageSize ≤ total layout := Nat.div_mul_le_self _ _
  have htlen : t.length = total layout - n * pageSize := by rw [ht, List.length_drop, hlen]
  have hs : slots (layout ++ [.ids tokens]) = slots layout ++ tokens.map .token := slots_concat _ _
  have htotal : total (layout ++ [.ids tokens]) = total layout + tokens.length := total_concat _ _
  have hlast : slice pageSize n (slots layout) = t := by
    have := slice_last hsize (slots layout)
    rwa [hlen] at this
  have hslice : slice pageSize n (slots layout ++ tokens.map .token) =
      t ++ (tokens.take (pageSize - t.length)).map .token := by
    rw [slice_append, hlast, hlen, List.map_take, Nat.succ_mul]
    have hdrop : n * pageSize - total layout = 0 := by omega
    rw [hdrop, List.drop_zero]
    congr 2
    omega
  have hids : pageIds layout pageSize n = tokensOf t := by rw [pageIds_eq hsize, hlast]
  have hitems : pageItems (layout.map Content.span) pageSize n = itemsFrom 0 t := by
    rw [pageItems_eq hsize, hlast]
  have hnext : (n + 1) * pageSize = n * pageSize + pageSize := Nat.succ_mul n pageSize
  have hdropn : (slots layout ++ tokens.map Slot.token).drop (n * pageSize) =
      t ++ tokens.map Slot.token := by
    rw [List.drop_append, hlen, ← ht, Nat.sub_eq_zero_of_le hle, List.drop_zero]
  have hafter : (slots layout ++ tokens.map Slot.token).drop ((n + 1) * pageSize) =
      (tokens.drop ((n + 1) * pageSize - total layout)).map .token := by
    have hnone : (slots layout).drop ((n + 1) * pageSize) = [] :=
      List.drop_eq_nil_of_le (by omega)
    rw [List.drop_append, hnone, hlen, List.nil_append, List.map_drop]
  rw [wholeKeys_eq hsize] at hkeys
  have hkeys' : keysTo sha pageSize root (slots layout ++ tokens.map Slot.token) n = .ok keys := by
    rw [keysTo_append (by omega), hkeys]
  have hunkeyed : pageIds layout pageSize n ++ tokens =
      tokensOf ((slots layout ++ tokens.map Slot.token).drop (n * pageSize)) := by
    rw [hdropn, tokensOf_append, tokensOf_tokens, hids]
  have hitems' : pageItems (layout.map Content.span) pageSize n =
      itemsFrom 0 (slice pageSize n (slots layout ++ tokens.map Slot.token)) := by
    rw [hslice, itemsFrom_append, itemsFrom_tokens, List.append_nil, hitems]
  have hroom : (pageSize : ℤ) - slotsLeft (pageItems (layout.map Content.span) pageSize n) =
      pageSize - ((slice pageSize n (slots layout ++ tokens.map Slot.token)).length -
        (tokensOf (slice pageSize n (slots layout ++ tokens.map Slot.token))).length : ℤ) := by
    have hleft : slotsLeft (itemsFrom 0 t) = t.length - (tokensOf t).length :=
      slotsLeft_drop layout (n * pageSize)
    rw [hitems, hleft, hslice, tokensOf_append, tokensOf_tokens, List.length_append,
      List.length_append, List.length_map]
    omega
  have hrounds : (slots layout ++ tokens.map Slot.token).length / pageSize < steps + n := by
    have hmul : steps ≤ steps * pageSize := Nat.le_mul_of_pos_right steps hsize
    rw [Nat.div_lt_iff_lt_mul hsize, Nat.add_mul, List.length_append, hlen, List.length_map]
    omega
  let c := { chained pageSize root spans promptKeys layout keys with
    unkeyed := pageIds layout pageSize n ++ tokens, coveredLen := total layout + tokens.length }
  have hroot : c.root = root := rfl
  have hloop := keyPages_eq (c := c) hsize steps hroot hkeys' rfl hunkeyed hitems' hafter hroom
    (by rw [List.length_append, hlen]; exact hle.trans (Nat.le_add_right _ _)) hrounds
  have hlen' : (slots layout ++ tokens.map Slot.token).length = total layout + tokens.length := by
    rw [List.length_append, hlen, List.length_map]
  refine hloop.trans ?_
  rw [wholeKeys_eq hsize, hs, htotal, hlen']
  cases hall : keysTo sha pageSize root (slots layout ++ tokens.map Slot.token)
      ((total layout + tokens.length) / pageSize) with
  | error e => rfl
  | ok keys' =>
    have hmore : keys.length ≤ keys'.length := by
      rw [keysTo_length hkeys, keysTo_length hall]
      exact Nat.div_le_div_right (by omega)
    have hlast' := slice_last hsize (slots layout ++ tokens.map Slot.token)
    rw [hlen'] at hlast'
    simp only [Except.map, chained, c, pageIds_eq hsize, pageItems_eq hsize, hs, hlast',
      List.drop_drop, Nat.add_sub_cancel' hmore, htotal]

/-- A chain over a whole sequence keys its pages by what their slots hold. -/
theorem chain_pageLayout (hsize : 0 < pageSize) (layout : List Content) :
    chain sha (pageLayout layout pageSize).1 (pageLayout layout pageSize).2 root =
      keysTo sha pageSize root (slots layout) (ceilDiv (total layout) pageSize) := by
  unfold keysTo pageLayout
  have hids : pageIds layout pageSize = fun page => tokensOf (slice pageSize page (slots layout)) :=
    funext fun page => pageIds_eq hsize layout page
  have hitems : pageItems (layout.map Content.span) pageSize =
      fun page => itemsFrom 0 (slice pageSize page (slots layout)) :=
    funext fun page => pageItems_eq hsize layout page
  rw [hids, hitems]

/-- The keys of the whole pages are the first of those of one chain. -/
theorem wholeKeys_of_chain (hsize : 0 < pageSize) {layout : List Content} {keys : List Bytes}
    (h : chain sha (pageLayout layout pageSize).1 (pageLayout layout pageSize).2 root = .ok keys) :
    wholeKeys sha pageSize root layout = .ok (keys.take (total layout / pageSize)) := by
  rw [chain_pageLayout hsize] at h
  rw [wholeKeys_eq hsize]
  exact keysTo_take (le_ceilDiv hsize) h

/-- A prompt's tail is what its last page waits with. -/
theorem promptTail_eq (hsize : 0 < pageSize) (layout : List Content) :
    promptTail (pageLayout layout pageSize).1 (total layout) pageSize =
      pageIds layout pageSize (total layout / pageSize) := by
  have hmod := Nat.mod_lt (total layout) hsize
  have hdiv := Nat.div_add_mod' (total layout) pageSize
  unfold promptTail pageLayout
  by_cases hpart : total layout % pageSize = 0
  · rw [if_neg (by simpa using hpart), pageIds_eq hsize]
    have hlast := slice_last hsize (slots layout)
    rw [slots_length] at hlast
    rw [hlast, List.drop_eq_nil_of_le (by rw [slots_length]; omega)]
    rfl
  · have hceil : ceilDiv (total layout) pageSize = total layout / pageSize + 1 := by
      have hlow : (total layout / pageSize + 1) * pageSize ≤ total layout + pageSize - 1 := by
        rw [Nat.succ_mul]
        omega
      have hhigh : total layout + pageSize - 1 < (total layout / pageSize + 1 + 1) * pageSize := by
        rw [Nat.succ_mul, Nat.succ_mul]
        omega
      exact Nat.div_eq_of_lt_le hlow hhigh
    rw [if_pos hpart, hceil]
    simp [List.range_succ]

/-- What is left of a sequence is a matter of its slots. -/
theorem chained_congr (hsize : 0 < pageSize) {layout layout' : List Content}
    (h : slots layout = slots layout') (spans : List PrefixSpan) (promptKeys : List Bytes) :
    chained pageSize root spans promptKeys layout = chained pageSize root spans promptKeys layout' := by
  have htotal : total layout = total layout' := by rw [← slots_length, h, slots_length]
  funext keys
  unfold chained
  rw [pageIds_eq hsize, pageIds_eq hsize, pageItems_eq hsize, pageItems_eq hsize, h, htotal]

/-- Layouts of the same slots have the same keys. -/
theorem wholeKeys_congr (hsize : 0 < pageSize) {layout layout' : List Content}
    (h : slots layout = slots layout') :
    wholeKeys sha pageSize root layout = wholeKeys sha pageSize root layout' := by
  have htotal : total layout = total layout' := by rw [← slots_length, h, slots_length]
  rw [wholeKeys_eq hsize, wholeKeys_eq hsize, h, htotal]

/-- Whole pages that can't be keyed can't be with more after them. -/
theorem wholeKeys_error (hsize : 0 < pageSize) {layout : List Content} {e : Halt}
    (h : wholeKeys sha pageSize root layout = .error e) (more : List Content) :
    wholeKeys sha pageSize root (layout ++ more) = .error e := by
  have hle : total layout / pageSize * pageSize ≤ (slots layout).length := by
    rw [slots_length]
    exact Nat.div_mul_le_self _ _
  have htotal : total layout ≤ total (layout ++ more) := by simp [total]
  rw [wholeKeys_eq hsize] at h ⊢
  rw [← keysTo_append (t := slots more) hle, ← slots_append] at h
  exact keysTo_error (Nat.div_le_div_right htotal) h

/-- Extends one after the other leave the chain of the whole sequence. -/
theorem extends_chained (hsize : 0 < pageSize) {steps : ℕ} {parts : List (List ℕ)}
    (hsteps : ∀ part ∈ parts, pageSize + part.length ≤ steps) {spans : List PrefixSpan}
    {promptKeys keys : List Bytes} {layout : List Content}
    (hkeys : wholeKeys sha pageSize root layout = .ok keys) :
    parts.foldlM (PrefixChain.extend sha pageSize steps)
        (chained pageSize root spans promptKeys layout keys) =
      (wholeKeys sha pageSize root (layout ++ [.ids parts.flatten])).map
        (chained pageSize root spans promptKeys (layout ++ [.ids parts.flatten])) := by
  induction parts generalizing layout keys with
  | nil =>
    have hslots : slots (layout ++ [.ids ([] : List (List ℕ)).flatten]) = slots layout := by
      rw [slots_concat]
      simp [Content.slots]
    rw [wholeKeys_congr hsize hslots, chained_congr hsize hslots, hkeys]
    rfl
  | cons part parts ih =>
    have hslots : slots (layout ++ [.ids part] ++ [.ids parts.flatten]) =
        slots (layout ++ [.ids (part :: parts).flatten]) := by
      rw [slots_concat, slots_concat, slots_concat]
      simp [Content.slots]
    rw [List.foldlM_cons, extend_chained hsize (hsteps part List.mem_cons_self) hkeys]
    cases hnext : wholeKeys sha pageSize root (layout ++ [.ids part]) with
    | error e =>
      have hall := wholeKeys_error hsize hnext [.ids parts.flatten]
      rw [wholeKeys_congr hsize hslots] at hall
      rw [hall]
      rfl
    | ok keys' =>
      change parts.foldlM _ (chained pageSize root spans promptKeys (layout ++ [.ids part]) keys') = _
      rw [ih (fun p hp => hsteps p (List.mem_cons_of_mem _ hp)) hnext, wholeKeys_congr hsize hslots,
        chained_congr hsize hslots]

/-- A prompt's chain is the one of its keys. -/
theorem seedKeys_eq (hsize : 0 < pageSize) (prompt : List Content) :
    seedKeys sha pageSize root prompt =
      (chain sha (pageLayout prompt pageSize).1 (pageLayout prompt pageSize).2 root).map
        fun keys => chained pageSize root (prompt.map Content.span) keys prompt
          (keys.take (total prompt / pageSize)) := by
  have htotal : ((prompt.map Content.span).map PrefixSpan.length).sum = total prompt := by
    unfold total
    rw [List.map_map]
    congr 2
    funext c
    cases c <;> rfl
  unfold seedKeys
  dsimp only
  cases hkeys : chain sha (pageLayout prompt pageSize).1 (pageLayout prompt pageSize).2 root with
  | error e => rfl
  | ok keys =>
    have hpages : total prompt / pageSize ≤ keys.length := by
      rw [chain_pageLayout hsize] at hkeys
      rw [keysTo_length hkeys]
      exact le_ceilDiv hsize
    have hsplit : keys.take (total prompt / pageSize) ++
        keys.drop (keys.take (total prompt / pageSize)).length = keys := by
      rw [List.length_take, min_eq_left hpages, List.take_append_drop]
    simp only [bind, Except.bind, pure, Except.pure, Except.map, PrefixChain.seed, htotal, chained,
      promptTail_eq hsize, hsplit]

/-- A stream laid out again has the pages of its ids as one span. -/
theorem rebuild_pages (hsize : 0 < pageSize) (ids : List ℕ) :
    ((List.range (ceilDiv ids.length pageSize)).map fun k => (ids.drop (k * pageSize)).take pageSize) =
      (pageLayout [.ids ids] pageSize).1 := by
  have htotal : total [.ids ids] = ids.length := by simp [total, Content.length]
  unfold pageLayout
  rw [htotal]
  refine List.map_congr_left fun page _ => ?_
  rw [pageIds_eq hsize]
  simp [slots, slice, Content.slots, ← List.map_drop, ← List.map_take]

/-- A rebuilt prompt has no items. -/
theorem rebuild_items (hsize : 0 < pageSize) (ids : List ℕ) :
    (fun _ => []) = (pageLayout [.ids ids] pageSize).2 := by
  funext page
  unfold pageLayout
  dsimp only
  rw [pageItems_eq hsize]
  simp [slots, slice, Content.slots, ← List.map_drop, ← List.map_take]

/-- A stream laid out again is seeded from its ids but the last, as a prompt of
them would be, and extended by that one. -/
theorem prepareRebuild_eq (hsize : 0 < pageSize) {steps : ℕ} {ids : List ℕ} (hids : ids ≠ [])
    (last : ℕ) :
    prepareRebuild sha pageSize steps root ids last =
      (seedKeys sha pageSize root [.ids ids]).bind fun c =>
        (c.extend sha pageSize steps [last]).map some := by
  have htotal : total [.ids ids] = ids.length := by simp [total, Content.length]
  have hpos : 0 < ids.length := List.length_pos_iff.2 hids
  unfold prepareRebuild seedKeys
  dsimp only
  rw [rebuild_pages hsize, rebuild_items hsize ids, htotal]
  cases hkeys : chain sha (pageLayout [.ids ids] pageSize).1 (pageLayout [.ids ids] pageSize).2 root with
  | error e => rfl
  | ok keys =>
    have hne : keys ≠ [] := by
      rw [chain_pageLayout hsize, htotal] at hkeys
      intro h
      have hlen := keysTo_length hkeys
      have hceil : 1 ≤ ceilDiv ids.length pageSize := by
        unfold ceilDiv
        rw [Nat.le_div_iff_mul_le hsize]
        omega
      rw [h, List.length_nil] at hlen
      omega
    simp only [bind, Except.bind, pure, Except.pure, if_neg hne, List.map_cons, List.map_nil, Content.span]
    cases PrefixChain.extend sha pageSize steps _ [last] <;> rfl

/-- Page keys don't depend on how a sequence was cut. A chain seeded from a
prompt, or from a stream's ids when the stream starts over, and then extended
in any parts ends with the keys of the whole pages of one chain over the whole
sequence, and with the ids and items of the page that is not full. It raises
only where that chain does, and every extend ends. -/
theorem extends_eq_chain (sha : Bytes → Bytes) (root : Bytes) (hsize : 0 < pageSize) {steps : ℕ}
    {parts : List (List ℕ)} (hone : pageSize + 1 ≤ steps)
    (hsteps : ∀ part ∈ parts, pageSize + part.length ≤ steps) :
    (∀ prompt : List Content,
      ((seedKeys sha pageSize root prompt).bind fun c =>
          parts.foldlM (PrefixChain.extend sha pageSize steps) c) =
        (chain sha (pageLayout prompt pageSize).1 (pageLayout prompt pageSize).2 root).bind
          fun promptKeys => (wholeKeys sha pageSize root (prompt ++ [.ids parts.flatten])).map
            (chained pageSize root (prompt.map Content.span) promptKeys
              (prompt ++ [.ids parts.flatten]))) ∧
    (∀ (ids : List ℕ) (last : ℕ), ids ≠ [] →
      ((prepareRebuild sha pageSize steps root ids last).bind fun c =>
          c.mapM fun c => parts.foldlM (PrefixChain.extend sha pageSize steps) c) =
        (chain sha (pageLayout [.ids ids] pageSize).1 (pageLayout [.ids ids] pageSize).2 root).bind
          fun promptKeys => (wholeKeys sha pageSize root [.ids (ids ++ last :: parts.flatten)]).map
            (some ∘ chained pageSize root [⟨ids.length, none⟩] promptKeys
              [.ids (ids ++ last :: parts.flatten)])) ∧
    ∀ (layout : List Content) (keys : List Bytes),
      chain sha (pageLayout layout pageSize).1 (pageLayout layout pageSize).2 root = .ok keys →
        wholeKeys sha pageSize root layout = .ok (keys.take (total layout / pageSize)) := by
  have hprompt (parts : List (List ℕ)) (hsteps : ∀ part ∈ parts, pageSize + part.length ≤ steps)
      (prompt : List Content) :
      ((seedKeys sha pageSize root prompt).bind fun c =>
          parts.foldlM (PrefixChain.extend sha pageSize steps) c) =
        (chain sha (pageLayout prompt pageSize).1 (pageLayout prompt pageSize).2 root).bind
          fun promptKeys => (wholeKeys sha pageSize root (prompt ++ [.ids parts.flatten])).map
            (chained pageSize root (prompt.map Content.span) promptKeys
              (prompt ++ [.ids parts.flatten])) := by
    rw [seedKeys_eq hsize]
    cases hkeys : chain sha (pageLayout prompt pageSize).1 (pageLayout prompt pageSize).2 root with
    | error e => rfl
    | ok promptKeys => exact extends_chained hsize hsteps (wholeKeys_of_chain hsize hkeys)
  refine ⟨hprompt parts hsteps, fun ids last hids => ?_, fun layout keys h => wholeKeys_of_chain hsize h⟩
  have hslots : slots ([.ids ids] ++ [.ids ([last] :: parts).flatten]) =
      slots [.ids (ids ++ last :: parts.flatten)] := by
    simp [slots, Content.slots]
  have hall := hprompt ([last] :: parts) (by
    intro part hpart
    rcases List.mem_cons.1 hpart with rfl | hpart
    · exact hone
    · exact hsteps part hpart) [.ids ids]
  have hmap (e : Except Halt PrefixChain) :
      (e.bind fun c => (parts.foldlM (PrefixChain.extend sha pageSize steps) c).map some) =
        (e.bind fun c => parts.foldlM (PrefixChain.extend sha pageSize steps) c).map some := by
    cases e <;> rfl
  have hleft : ((prepareRebuild sha pageSize steps root ids last).bind fun c =>
      c.mapM fun c => parts.foldlM (PrefixChain.extend sha pageSize steps) c) =
        ((seedKeys sha pageSize root [.ids ids]).bind fun c =>
          ([last] :: parts).foldlM (PrefixChain.extend sha pageSize steps) c).map some := by
    rw [prepareRebuild_eq hsize hids]
    cases seedKeys sha pageSize root [.ids ids] with
    | error e => rfl
    | ok c =>
      refine Eq.trans ?_ (hmap (c.extend sha pageSize steps [last]))
      change ((c.extend sha pageSize steps [last]).map some).bind _ = _
      cases c.extend sha pageSize steps [last] with
      | error e => rfl
      | ok c => rfl
  rw [wholeKeys_congr hsize hslots] at hall
  simp only [chained_congr hsize hslots] at hall
  rw [hleft, hall]
  cases chain sha (pageLayout [.ids ids] pageSize).1 (pageLayout [.ids ids] pageSize).2 root with
  | error e => rfl
  | ok promptKeys =>
    simp only [Except.bind]
    cases wholeKeys sha pageSize root [.ids (ids ++ last :: parts.flatten)] <;> rfl

/-- A prompt with an image across two pages, extended in two parts. -/
theorem extends_eq_chain_image :
    ((seedKeys (·.reverse) 2 [] [.ids [1], .media 2 [7] (by decide), .ids [4]]).bind fun c =>
        [[5], [6, 8]].foldlM (PrefixChain.extend (·.reverse) 2 4) c) =
      (chain (·.reverse) (pageLayout [.ids [1], .media 2 [7] (by decide), .ids [4]] 2).1
          (pageLayout [.ids [1], .media 2 [7] (by decide), .ids [4]] 2).2 []).bind
        fun promptKeys => (wholeKeys (·.reverse) 2 []
          [.ids [1], .media 2 [7] (by decide), .ids [4], .ids [5, 6, 8]]).map
            (chained 2 [] [⟨1, none⟩, ⟨2, some [7]⟩, ⟨1, none⟩] promptKeys
              [.ids [1], .media 2 [7] (by decide), .ids [4], .ids [5, 6, 8]]) :=
  (extends_eq_chain (·.reverse) [] (by decide) (by decide) (by decide)).1 _

end Mstar.Keys
