import Mstar.PrefixCuts
import Mstar.SlotChains

/-!
# No two prefixes share a key

With a hash that tells its inputs apart, a page key tells apart its parent's
key, its ids and its items, since every part of what it hashes says where it
ends. Ids and items tell apart the slots of a whole page, and by induction down
the chain the whole prefix. A root that is itself a page's key would continue
another sequence; the empty root and an adapter's are none.
-/

namespace Mstar.Keys

section Encodings

/-- A number that is written fits its width. -/
theorem toBytes_ok {width n : ℕ} {x : Bytes} (h : toBytes width n = .ok x) :
    n < 256 ^ width ∧ x = leBytes width n := by
  unfold toBytes at h
  split at h
  next hfits => exact ⟨hfits, (Except.ok.inj h).symm⟩
  next => cases h

/-- Numbers of a width are delimited. -/
theorem delimited_toBytes (width : ℕ) : Delimited (toBytes width) := by
  apply Delimited.of_length (w := width)
  · intro n x hx
    rw [(toBytes_ok hx).2, leBytes_length]
  · intro n m x hn hm
    exact leBytes_inj (toBytes_ok hn).1 (toBytes_ok hm).1 ((toBytes_ok hn).2.symm.trans (toBytes_ok hm).2)

/-- They are not empty. -/
theorem toBytes_ne_nil {width : ℕ} (hwidth : 0 < width) (n : ℕ) : toBytes width n ≠ .ok [] := by
  intro h
  have hlen := congrArg List.length (toBytes_ok h).2
  rw [leBytes_length, List.length_nil] at hlen
  omega

/-- A field is its length and its payload. -/
theorem field_ok {payload x : Bytes} (h : field payload = .ok x) :
    ∃ size, toBytes lenBytes payload.length = .ok size ∧ x = size ++ payload := by
  unfold field at h
  cases hsize : toBytes lenBytes payload.length with
  | error e => simp [hsize, bind, Except.bind] at h
  | ok size =>
    refine ⟨size, rfl, ?_⟩
    simpa [hsize, bind, Except.bind, pure, Except.pure] using h.symm

/-- A field ends where its length says. -/
theorem delimited_field : Delimited field := by
  intro a b x y xs ys hx hy happ
  obtain ⟨asize, ha, rfl⟩ := field_ok hx
  obtain ⟨bsize, hb, rfl⟩ := field_ok hy
  rw [List.append_assoc, List.append_assoc] at happ
  obtain ⟨hlen, hrest⟩ := delimited_toBytes lenBytes _ _ _ _ _ _ ha hb happ
  exact List.append_inj hrest hlen

/-- It is not empty. -/
theorem field_ne_nil (payload : Bytes) : field payload ≠ .ok [] := by
  intro h
  obtain ⟨size, hsize, happ⟩ := field_ok h
  have hnil : size = [] := (List.append_eq_nil_iff.1 happ.symm).1
  exact toBytes_ne_nil (by decide) _ (hnil ▸ hsize)

/-- An item is its place and its digest. -/
theorem item_ok {i : PageItem} {x : Bytes} (h : item i = .ok x) :
    ∃ placed digest, [i.start, i.offset, i.length].mapM (toBytes slotBytes) = .ok placed ∧
      field i.digest = .ok digest ∧ x = placed.flatten ++ digest := by
  unfold item at h
  cases hplaced : [i.start, i.offset, i.length].mapM (toBytes slotBytes) with
  | error e => simp [hplaced, bind, Except.bind] at h
  | ok placed =>
    cases hdigest : field i.digest with
    | error e => simp [hplaced, hdigest, bind, Except.bind] at h
    | ok digest =>
      refine ⟨placed, digest, rfl, rfl, ?_⟩
      simpa [hplaced, hdigest, bind, Except.bind, pure, Except.pure] using h.symm

/-- Encodings of one width take as many bytes as there are of them. -/
theorem flatten_length {width : ℕ} {ns : List ℕ} {xs : List Bytes}
    (h : ns.mapM (toBytes width) = .ok xs) : xs.flatten.length = ns.length * width := by
  induction ns generalizing xs with
  | nil =>
    rw [mapM_nil_ok h]
    simp
  | cons n ns ih =>
    obtain ⟨x, rest, hx, hrest, rfl⟩ := mapM_cons_ok h
    rw [List.flatten_cons, List.length_append, ih hrest, (toBytes_ok hx).2, leBytes_length,
      List.length_cons, Nat.succ_mul, Nat.add_comm]

/-- An item ends where its digest does. -/
theorem delimited_item : Delimited item := by
  intro a b x y xs ys hx hy happ
  obtain ⟨aplaced, adigest, haplaced, hadigest, rfl⟩ := item_ok hx
  obtain ⟨bplaced, bdigest, hbplaced, hbdigest, rfl⟩ := item_ok hy
  rw [List.append_assoc, List.append_assoc] at happ
  have hlen : aplaced.flatten.length = bplaced.flatten.length := by
    rw [flatten_length haplaced, flatten_length hbplaced]
    rfl
  obtain ⟨hplaced, hrest⟩ := List.append_inj happ hlen
  have hslots := (delimited_toBytes slotBytes).mapM (toBytes_ne_nil (by decide)) haplaced hbplaced hplaced
  obtain ⟨hdigest, hend⟩ := delimited_field _ _ _ _ _ _ hadigest hbdigest hrest
  constructor
  · cases a
    cases b
    simp_all
  · exact hend

/-- It is not empty. -/
theorem item_ne_nil (i : PageItem) : item i ≠ .ok [] := by
  intro h
  obtain ⟨placed, digest, hplaced, hdigest, happ⟩ := item_ok h
  have hnil : digest = [] := (List.append_eq_nil_iff.1 happ.symm).2
  exact field_ne_nil _ (hnil ▸ hdigest)

/-- A page key hashes its parent, its tokens and its items. -/
theorem pageKey_ok {sha : Bytes → Bytes} {prev key : Bytes} {tokens : List ℕ} {items : List PageItem}
    (h : pageKey sha prev tokens items = .ok key) :
    ∃ parent ids ids' placed placed', field prev = .ok parent ∧
      tokens.mapM (toBytes tokenBytes) = .ok ids ∧ field ids.flatten = .ok ids' ∧
      items.mapM item = .ok placed ∧ field placed.flatten = .ok placed' ∧
      key = sha (parent ++ (ids' ++ placed')) := by
  unfold pageKey at h
  cases hparent : field prev with
  | error e => simp [hparent, bind, Except.bind] at h
  | ok parent =>
    cases hids : tokens.mapM (toBytes tokenBytes) with
    | error e => simp [hparent, hids, bind, Except.bind] at h
    | ok ids =>
      cases hids' : field ids.flatten with
      | error e => simp [hparent, hids, hids', bind, Except.bind] at h
      | ok ids' =>
        cases hplaced : items.mapM item with
        | error e => simp [hparent, hids, hids', hplaced, bind, Except.bind] at h
        | ok placed =>
          cases hplaced' : field placed.flatten with
          | error e => simp [hparent, hids, hids', hplaced, hplaced', bind, Except.bind] at h
          | ok placed' =>
            refine ⟨parent, ids, ids', placed, placed', rfl, rfl, hids', rfl, hplaced', ?_⟩
            simpa [hparent, hids, hids', hplaced, hplaced', bind, Except.bind, pure, Except.pure]
              using h.symm

/-- A page's key tells its parent's key, its ids and its items apart. -/
theorem pageKey_inj {sha : Bytes → Bytes} (hsha : sha.Injective) {prev prev' key : Bytes}
    {tokens tokens' : List ℕ} {items items' : List PageItem}
    (h : pageKey sha prev tokens items = .ok key) (h' : pageKey sha prev' tokens' items' = .ok key) :
    prev = prev' ∧ tokens = tokens' ∧ items = items' := by
  obtain ⟨parent, ids, idField, placed, placedField, hparent, hids, hidField, hplaced, hplacedField,
    hkey⟩ := pageKey_ok h
  obtain ⟨parent', ids', idField', placed', placedField', hparent', hids', hidField', hplaced',
    hplacedField', hkey'⟩ := pageKey_ok h'
  have hhashed := hsha (hkey.symm.trans hkey')
  obtain ⟨hprev, hrest⟩ := delimited_field _ _ _ _ _ _ hparent hparent' hhashed
  obtain ⟨htokens, hrest⟩ := delimited_field _ _ _ _ _ _ hidField hidField' hrest
  have hitems := delimited_field _ _ _ _ [] [] hplacedField hplacedField' (by rw [hrest])
  exact ⟨hprev, (delimited_toBytes tokenBytes).mapM (toBytes_ne_nil (by decide)) hids hids' htokens,
    delimited_item.mapM item_ne_nil hplaced hplaced' hitems.1⟩

end Encodings

section Chains

variable {sha : Bytes → Bytes} {pageSize : ℕ} {root root' : Bytes}

/-- A root that is no page's key. -/
def NotKey (sha : Bytes → Bytes) (root : Bytes) : Prop :=
  ∀ prev tokens items, pageKey sha prev tokens items ≠ .ok root

/-- The empty root is no page's key, since a digest is never empty. -/
theorem notKey_nil (hsha : ∀ x, sha x ≠ []) : NotKey sha [] := by
  intro prev tokens items h
  obtain ⟨parent, _, ids, _, placed, _, _, _, _, _, hkey⟩ := pageKey_ok h
  exact hsha _ hkey.symm

/-- The key above a page: the one before it, or the root. -/
def parentOf (root : Bytes) (keys : List Bytes) (page : ℕ) : Bytes :=
  if page = 0 then root else keys.getD (page - 1) []

/-- Every key is its page's on top of the one above it. -/
theorem keysTo_get {s : List Slot} {count page : ℕ} {keys : List Bytes}
    (h : keysTo sha pageSize root s count = .ok keys) (hpage : page < count) :
    slotKey sha pageSize s page (parentOf root keys page) = .ok (parentOf root keys (page + 1)) := by
  have hlen := keysTo_length h
  have hprev := keysTo_take hpage.le h
  have hnext := keysTo_take hpage h
  rw [keysTo_succ, hprev] at hnext
  simp only [Except.bind] at hnext
  have habove : (keys.take page).getLastD root = parentOf root keys page := by
    unfold parentOf
    cases page with
    | zero => simp
    | succ page =>
      have hget : page < keys.length := by omega
      rw [if_neg (by omega), List.take_succ_eq_append_getElem hget, List.getLastD_concat,
        Nat.add_sub_cancel, List.getD_eq_getElem?_getD, List.getElem?_eq_getElem hget,
        Option.getD_some]
  rw [habove] at hnext
  cases hkey : slotKey sha pageSize s page (parentOf root keys page) with
  | error e => simp only [hkey, Except.map, reduceCtorEq] at hnext
  | ok key =>
    have hget : page < keys.length := by omega
    simp only [hkey, Except.map, Except.ok.injEq] at hnext
    rw [List.take_succ_eq_append_getElem hget, List.append_cancel_left_eq, List.cons.injEq] at hnext
    unfold parentOf
    rw [if_neg (by omega), Nat.add_sub_cancel, List.getD_eq_getElem?_getD,
      List.getElem?_eq_getElem hget, Option.getD_some, hnext.1]

/-- Up to a page a sequence is what it is up to the page before, and that page. -/
theorem take_succ_page (s : List Slot) (page : ℕ) :
    s.take ((page + 1) * pageSize) = s.take (page * pageSize) ++ slice pageSize page s := by
  unfold slice
  rw [Nat.succ_mul, List.take_add]

/-- A key is the key of one prefix. Going down both chains at once, either both
end, or one root would be a page's key. -/
theorem prefix_of_parent (hsha : sha.Injective) (hroot : NotKey sha root) (hroot' : NotKey sha root')
    {s s' : List Slot} (hs : s.IsChain Slot.Follows) (hs' : s'.IsChain Slot.Follows)
    {count count' page page' : ℕ} {keys keys' : List Bytes}
    (hkeys : keysTo sha pageSize root s count = .ok keys)
    (hkeys' : keysTo sha pageSize root' s' count' = .ok keys')
    (hcount : page ≤ count) (hcount' : page' ≤ count') (hfull : page * pageSize ≤ s.length)
    (hfull' : page' * pageSize ≤ s'.length)
    (h : parentOf root keys page = parentOf root' keys' page') :
    page = page' ∧ root = root' ∧ s.take (page * pageSize) = s'.take (page * pageSize) := by
  induction page generalizing page' with
  | zero =>
    cases page' with
    | zero =>
      refine ⟨rfl, ?_, by simp⟩
      simpa [parentOf] using h
    | succ page' =>
      have hkey := keysTo_get hkeys' (Nat.lt_of_succ_le hcount')
      rw [← h] at hkey
      exact absurd hkey (hroot _ _ _)
  | succ page ih =>
    have hkey := keysTo_get hkeys (Nat.lt_of_succ_le hcount)
    cases page' with
    | zero =>
      rw [h] at hkey
      exact absurd hkey (hroot' _ _ _)
    | succ page' =>
      have hkey' := keysTo_get hkeys' (Nat.lt_of_succ_le hcount')
      rw [h] at hkey
      obtain ⟨hparent, htokens, hitems⟩ := pageKey_inj hsha hkey hkey'
      rw [Nat.succ_mul] at hfull hfull'
      obtain ⟨rfl, hroots, hbelow⟩ := ih (by omega) (by omega) (by omega) (by omega) hparent
      have hview : SameView 0 (slice pageSize page s) (slice pageSize page s') := ⟨htokens, hitems⟩
      have hlen : (slice pageSize page s).length = (slice pageSize page s').length := by
        rw [slice_length, slice_length]
        omega
      have hpage : slice pageSize page s = slice pageSize page s' :=
        (hview.isPrefix ((hs.drop _).take _) ((hs'.drop _).take _) hlen.le).eq_of_length hlen
      refine ⟨rfl, hroots, ?_⟩
      rw [take_succ_page, take_succ_page, hbelow, hpage]

/-- The slots of a sequence's page that its first `count` spans fill, when they
end inside it. -/
def endSlots (pageSize : ℕ) (layout : List Content) (count : ℕ) : List Slot :=
  (slots (layout.take count)).drop (total (layout.take count) / pageSize * pageSize)

/-- The first contents are no more than all. -/
theorem total_take_le (layout : List Content) (count : ℕ) :
    total (layout.take count) ≤ total layout := by
  have hsplit : total layout = total (layout.take count) + total (layout.drop count) := by
    rw [← total_append, List.take_append_drop]
  omega

/-- The slots after the last whole page. -/
theorem endSlots_length (pageSize : ℕ) (layout : List Content) (count : ℕ) :
    (endSlots pageSize layout count).length = total (layout.take count) % pageSize := by
  have hdiv := Nat.div_add_mod' (total (layout.take count)) pageSize
  unfold endSlots
  rw [List.length_drop, slots_length]
  omega

/-- They are the first ones of that page. -/
theorem take_slice_eq_endSlots (hsize : 0 < pageSize) (layout : List Content) (count : ℕ) :
    (slice pageSize (total (layout.take count) / pageSize) (slots layout)).take
        (total (layout.take count) % pageSize) = endSlots pageSize layout count := by
  have hmod := Nat.mod_lt (total (layout.take count)) hsize
  have hsplit : slots layout = slots (layout.take count) ++ slots (layout.drop count) := by
    rw [← slots_append, List.take_append_drop]
  have hle : total (layout.take count) / pageSize * pageSize - (slots (layout.take count)).length = 0 := by
    have := Nat.div_mul_le_self (total (layout.take count)) pageSize
    rw [slots_length]
    omega
  unfold slice
  rw [List.take_take, min_eq_left hmod.le, hsplit, List.drop_append, hle, List.drop_zero,
    ← endSlots_length pageSize layout count]
  exact List.take_left

/-- A page keyed up to where an item ends is keyed by its slots up to there. -/
theorem endKey_eq (hsize : 0 < pageSize) (prev : Bytes) (layout : List Content) (count : ℕ) :
    endKey sha prev (tokensOf (slice pageSize (total (layout.take count) / pageSize) (slots layout)))
        (itemsFrom 0 (slice pageSize (total (layout.take count) / pageSize) (slots layout)))
        (total (layout.take count) % pageSize) =
      pageKey sha prev (tokensOf (endSlots pageSize layout count))
        (itemsFrom 0 (endSlots pageSize layout count)) := by
  set stop := total (layout.take count) % pageSize
  set page := slice pageSize (total (layout.take count) / pageSize) (slots layout)
  set t := endSlots pageSize layout count with ht
  have hlen : t.length = stop := endSlots_length pageSize layout count
  have hsplit : page = t ++ page.drop stop := by
    rw [ht, ← take_slice_eq_endSlots hsize, List.take_append_drop]
  have hbefore : (itemsFrom 0 page).filter (fun i => i.start < stop) = itemsFrom 0 t := by
    rw [hsplit, itemsFrom_append, List.filter_append, List.filter_eq_self.2, List.filter_eq_nil_iff.2,
      List.append_nil]
    · intro i hi
      have := le_start hi
      simp
      omega
    · intro i hi
      have := start_lt hi
      simp
      omega
  have hleft : slotsLeft (itemsFrom 0 t) = t.length - (tokensOf t).length := slotsLeft_drop _ _
  have htokens : upTo (tokensOf page) (stop - slotsLeft (itemsFrom 0 t)) = tokensOf t := by
    have hcut : (stop : ℤ) - slotsLeft (itemsFrom 0 t) = (tokensOf t).length := by omega
    unfold upTo cutAt
    rw [hcut, if_neg (by omega), Int.toNat_natCast, hsplit, tokensOf_append, List.take_left]
  unfold endKey
  dsimp only
  rw [hbefore]
  change pageKey sha prev (upTo (tokensOf page) (stop - slotsLeft (itemsFrom 0 t))) _ = _
  rw [htokens]

/-- A span that has an end key ends inside a page. -/
theorem spanEndKey_ok {keys : List Bytes} {pages : List (List ℕ)} {items : ℕ → List PageItem}
    {stop : ℕ} {content : Content} {key : Bytes}
    (h : spanEndKey sha pageSize root keys pages items stop content = .ok (some key)) :
    stop % pageSize ≠ 0 ∧ endKey sha (parentOf root keys (stop / pageSize))
      (pages.getD (stop / pageSize) []) (items (stop / pageSize)) (stop % pageSize) = .ok key := by
  unfold spanEndKey at h
  dsimp only at h
  split at h
  next hpart =>
    refine ⟨hpart.2, ?_⟩
    unfold parentOf
    generalize endKey sha _ _ _ _ = e at h ⊢
    cases e with
    | error e => simp only [Except.map, reduceCtorEq] at h
    | ok key' =>
      simp only [Except.map, Except.ok.injEq, Option.some.injEq] at h
      rw [h]
  next => simp at h

/-- Every end key is its page's, up to where its span ends. -/
theorem endKeys_get {keys : List Bytes} {pages : List (List ℕ)} {items : ℕ → List PageItem}
    {before a : ℕ} {layout : List Content} {ends : List (Option Bytes)} {key : Bytes}
    (h : endKeys sha pageSize root keys pages items before layout = .ok ends)
    (ha : ends[a]? = some (some key)) :
    ∃ stop, stop = before + total (layout.take (a + 1)) ∧ stop % pageSize ≠ 0 ∧
      endKey sha (parentOf root keys (stop / pageSize)) (pages.getD (stop / pageSize) [])
        (items (stop / pageSize)) (stop % pageSize) = .ok key := by
  induction layout generalizing before a ends with
  | nil =>
    have hends : ends = [] := by simpa [endKeys] using h.symm
    simp [hends] at ha
  | cons content layout ih =>
    unfold endKeys at h
    cases hkey : spanEndKey sha pageSize root keys pages items (before + content.length) content with
    | error e => simp [hkey, bind, Except.bind] at h
    | ok first =>
      cases hrest : endKeys sha pageSize root keys pages items (before + content.length) layout with
      | error e => simp [hkey, hrest, bind, Except.bind] at h
      | ok rest =>
        have hends : ends = first :: rest := by
          simpa [hkey, hrest, bind, Except.bind, pure, Except.pure] using h.symm
        subst hends
        cases a with
        | zero =>
          have hfirst : first = some key := by simpa using ha
          rw [hfirst] at hkey
          refine ⟨before + content.length, ?_, spanEndKey_ok hkey⟩
          simp [total]
        | succ a =>
          obtain ⟨stop, hstop, hend⟩ := ih hrest (by simpa using ha)
          refine ⟨stop, ?_, hend⟩
          rw [hstop, List.take_succ_cons]
          simp [total]
          omega

/-- What the keys of a layout are made of: a chain of page keys, and end keys of
the slots up to where a span ends. -/
structure Keyed (sha : Bytes → Bytes) (pageSize : ℕ) (root : Bytes) (layout : List Content)
    (keys : List Bytes) (ends : List (Option Bytes)) : Prop where
  /-- Each page's key follows the one before it. -/
  pages : keysTo sha pageSize root (slots layout) (ceilDiv (total layout) pageSize) = .ok keys
  /-- An end key follows the key of the page before it. -/
  ends : ∀ a key, ends[a]? = some (some key) → total (layout.take (a + 1)) % pageSize ≠ 0 ∧
    pageKey sha (parentOf root keys (total (layout.take (a + 1)) / pageSize))
      (tokensOf (endSlots pageSize layout (a + 1)))
      (itemsFrom 0 (endSlots pageSize layout (a + 1))) = .ok key

/-- What is computed is keyed. -/
theorem keyed_of_prefixKeys (hsize : 0 < pageSize) {layout : List Content} {keys : List Bytes}
    {ends : List (Option Bytes)} (h : prefixKeys sha pageSize root layout = .ok (keys, ends)) :
    Keyed sha pageSize root layout keys ends := by
  unfold prefixKeys at h
  dsimp only at h
  cases hchain : chain sha (pageLayout layout pageSize).1 (pageLayout layout pageSize).2 root with
  | error e => simp [hchain, bind, Except.bind] at h
  | ok pageKeys =>
    cases hends : endKeys sha pageSize root pageKeys (pageLayout layout pageSize).1
        (pageLayout layout pageSize).2 0 layout with
    | error e => simp [hchain, hends, bind, Except.bind] at h
    | ok more =>
      simp only [hchain, hends, bind, Except.bind, pure, Except.pure, Except.ok.injEq,
        Prod.mk.injEq] at h
      obtain ⟨rfl, rfl⟩ := h
      constructor
      · rw [← chain_pageLayout hsize]
        exact hchain
      · intro a key ha
        obtain ⟨stop, hstop, hpart, hkey⟩ := endKeys_get hends ha
        rw [Nat.zero_add] at hstop
        rw [hstop] at hpart hkey
        have hdiv := Nat.div_add_mod' (total (layout.take (a + 1))) pageSize
        have hle := total_take_le layout (a + 1)
        have hpage : total (layout.take (a + 1)) / pageSize < ceilDiv (total layout) pageSize :=
          (lt_ceilDiv hsize).2 (by omega)
        refine ⟨hpart, ?_⟩
        rw [← endKey_eq hsize, ← pageIds_eq hsize, ← pageItems_eq hsize, ← hkey]
        unfold pageLayout
        simp [List.getD_eq_getElem?_getD, hpage]

/-- A sequence up to where its first `count` spans end. -/
theorem take_total_eq (pageSize : ℕ) (layout : List Content) (count : ℕ) :
    (slots layout).take (total (layout.take count)) =
      (slots layout).take (total (layout.take count) / pageSize * pageSize) ++
        endSlots pageSize layout count := by
  have hsplit : slots layout = slots (layout.take count) ++ slots (layout.drop count) := by
    rw [← slots_append, List.take_append_drop]
  have hall : (slots layout).take (total (layout.take count)) = slots (layout.take count) := by
    rw [hsplit, ← slots_length, List.take_left]
  have hle := Nat.div_mul_le_self (total (layout.take count)) pageSize
  rw [hall]
  unfold endSlots
  rw [hsplit, List.take_append_of_le_length (by rw [slots_length]; exact hle), List.take_append_drop]

/-- The slots up to where a span ends follow one another, and the last calls for
no other. -/
theorem isChain_endSlots (pageSize : ℕ) (layout : List Content) (count : ℕ) :
    (endSlots pageSize layout count).IsChain Slot.Follows ∧
      ∀ y ∈ (endSlots pageSize layout count).getLast?, y.next = none := by
  obtain ⟨hchain, hlast⟩ := isChain_slots (layout.take count)
  constructor
  · exact hchain.drop _
  · intro y hy
    unfold endSlots at hy
    rw [List.getLast?_drop] at hy
    split at hy
    next => simp at hy
    next => exact hlast y hy

/-- Where two sequences' spans end inside a page with the same key, they are the
same up to there. -/
theorem endSlots_inj {layout layout' : List Content} {a b : ℕ}
    (ha : endSlots pageSize layout a ≠ []) (hb : endSlots pageSize layout' b ≠ [])
    (h : SameView 0 (endSlots pageSize layout a) (endSlots pageSize layout' b)) :
    endSlots pageSize layout a = endSlots pageSize layout' b := by
  obtain ⟨hchain, hend⟩ := isChain_endSlots pageSize layout a
  obtain ⟨hchain', hend'⟩ := isChain_endSlots pageSize layout' b
  rcases Nat.le_total (endSlots pageSize layout a).length (endSlots pageSize layout' b).length with
    hlen | hlen
  · exact h.eq_of_ends hchain hchain' hlen ha hend
  · have hsymm : SameView 0 (endSlots pageSize layout' b) (endSlots pageSize layout a) :=
      ⟨h.1.symm, h.2.symm⟩
    exact (hsymm.eq_of_ends hchain' hchain hlen hb hend').symm

/-- Equal keys name equal prefixes. With a hash that tells its inputs apart and
roots that are no page's keys, two whole pages have one key only if their roots,
and all slots up to their ends, are the same: every token, and every item's
place and digest. A key of a page up to where an item ends is no whole page's
key, and is shared only by the same slots up to there. -/
theorem equal_keys_equal_prefixes (hsha : sha.Injective) (hsize : 0 < pageSize)
    (hroot : NotKey sha root) (hroot' : NotKey sha root') {layout layout' : List Content}
    {keys keys' : List Bytes} {ends ends' : List (Option Bytes)}
    (hkeys : prefixKeys sha pageSize root layout = .ok (keys, ends))
    (hkeys' : prefixKeys sha pageSize root' layout' = .ok (keys', ends')) :
    (∀ (i j : ℕ) (key : Bytes), i < total layout / pageSize → j < total layout' / pageSize →
      keys[i]? = some key → keys'[j]? = some key →
        i = j ∧ root = root' ∧
          (slots layout).take ((i + 1) * pageSize) = (slots layout').take ((j + 1) * pageSize)) ∧
    (∀ (a j : ℕ) (key : Bytes), ends[a]? = some (some key) → j < total layout' / pageSize →
      keys'[j]? ≠ some key) ∧
    ∀ (a b : ℕ) (key : Bytes), ends[a]? = some (some key) → ends'[b]? = some (some key) →
      root = root' ∧ (slots layout).take (total (layout.take (a + 1))) =
        (slots layout').take (total (layout'.take (b + 1))) := by
  obtain ⟨hpages, hends⟩ := keyed_of_prefixKeys hsize hkeys
  obtain ⟨hpages', hends'⟩ := keyed_of_prefixKeys hsize hkeys'
  have hchain := (isChain_slots layout).1
  have hchain' := (isChain_slots layout').1
  have hparent {keys : List Bytes} {root key : Bytes} {i : ℕ} (h : keys[i]? = some key) :
      parentOf root keys (i + 1) = key := by
    simp [parentOf, List.getD_eq_getElem?_getD, h]
  have hwhole {i n : ℕ} (h : i < n / pageSize) : (i + 1) * pageSize ≤ n ∧ i + 1 ≤ ceilDiv n pageSize :=
    ⟨(Nat.le_div_iff_mul_le hsize).1 h, h.trans_le (le_ceilDiv hsize)⟩
  refine ⟨?_, ?_, ?_⟩
  · intro i j key hi hj hget hget'
    obtain ⟨hpage, hroots, htake⟩ := prefix_of_parent hsha hroot hroot' hchain hchain' hpages hpages'
      (hwhole hi).2 (hwhole hj).2 (by rw [slots_length]; exact (hwhole hi).1)
      (by rw [slots_length]; exact (hwhole hj).1) ((hparent hget).trans (hparent hget').symm)
    have hij : i = j := by omega
    subst hij
    exact ⟨rfl, hroots, htake⟩
  · intro a j key ha hj hget'
    obtain ⟨hpart, hkey⟩ := hends a key ha
    have hkey' := keysTo_get hpages' (Nat.lt_of_succ_le (hwhole hj).2)
    rw [hparent hget'] at hkey'
    obtain ⟨_, htokens, hitems⟩ := pageKey_inj hsha hkey hkey'
    obtain ⟨hendChain, hend⟩ := isChain_endSlots pageSize layout (a + 1)
    have hlen := endSlots_length pageSize layout (a + 1)
    have hmod := Nat.mod_lt (total (layout.take (a + 1))) hsize
    have hfull : (slice pageSize j (slots layout')).length = pageSize := by
      have hstop := (hwhole hj).1
      rw [Nat.succ_mul] at hstop
      rw [slice_length, slots_length]
      omega
    have heq : endSlots pageSize layout (a + 1) = slice pageSize j (slots layout') :=
      SameView.eq_of_ends ⟨htokens, hitems⟩ hendChain ((hchain'.drop _).take _) (by omega)
        (List.ne_nil_of_length_pos (by omega)) hend
    rw [heq] at hlen
    omega
  · intro a b key ha hb
    obtain ⟨hpart, hkey⟩ := hends a key ha
    obtain ⟨hpart', hkey'⟩ := hends' b key hb
    obtain ⟨habove, htokens, hitems⟩ := pageKey_inj hsha hkey hkey'
    have hbelow {layout : List Content} {count : ℕ} :
        total (layout.take count) / pageSize * pageSize ≤ (slots layout).length ∧
          total (layout.take count) / pageSize ≤ ceilDiv (total layout) pageSize := by
      have hle := total_take_le layout count
      rw [slots_length]
      exact ⟨(Nat.div_mul_le_self _ _).trans hle, (Nat.div_le_div_right hle).trans (le_ceilDiv hsize)⟩
    obtain ⟨hpage, hroots, htake⟩ := prefix_of_parent hsha hroot hroot' hchain hchain' hpages hpages'
      hbelow.2 hbelow.2 hbelow.1 hbelow.1 habove
    have hends : endSlots pageSize layout (a + 1) = endSlots pageSize layout' (b + 1) :=
      endSlots_inj
        (List.ne_nil_of_length_pos (by rw [endSlots_length]; omega))
        (List.ne_nil_of_length_pos (by rw [endSlots_length]; omega)) ⟨htokens, hitems⟩
    refine ⟨hroots, ?_⟩
    rw [take_total_eq pageSize, take_total_eq pageSize, ← hpage, htake, hends]

end Chains

/-- An image on two pages, with and without an id after it: the end keys agree,
and so do the three slots up to there. -/
theorem equal_keys_equal_prefixes_image :
    ∃ keys ends keys' ends' key,
      prefixKeys (0 :: ·) 2 [] [.ids [1], .media 2 [7] (by decide)] = .ok (keys, ends) ∧
      prefixKeys (0 :: ·) 2 [] [.ids [1], .media 2 [7] (by decide), .ids [4]] = .ok (keys', ends') ∧
      ends[1]? = some (some key) ∧ ends'[1]? = some (some key) ∧
      ([] : Bytes) = [] ∧
        (slots [.ids [1], .media 2 [7] (by decide)]).take 3 =
          (slots [.ids [1], .media 2 [7] (by decide), .ids [4]]).take 3 := by
  obtain ⟨keys, ends, keys', ends', key, hkeys, hkeys', hend, hend'⟩ :
      ∃ keys ends keys' ends' key,
        prefixKeys (0 :: ·) 2 [] [.ids [1], .media 2 [7] (by decide)] = .ok (keys, ends) ∧
        prefixKeys (0 :: ·) 2 [] [.ids [1], .media 2 [7] (by decide), .ids [4]] = .ok (keys', ends') ∧
        ends[1]? = some (some key) ∧ ends'[1]? = some (some key) :=
    ⟨_, _, _, _, _, rfl, rfl, rfl, rfl⟩
  exact ⟨keys, ends, keys', ends', key, hkeys, hkeys', hend, hend',
    (equal_keys_equal_prefixes List.cons_injective (by decide) (notKey_nil (by simp))
      (notKey_nil (by simp)) hkeys hkeys').2.2 1 1 key hend hend'⟩

/-- Some root is a page's key: then one key names two sequences. -/
theorem root_key_names_two_prefixes :
    ¬ ∀ (sha : Bytes → Bytes) (pageSize : ℕ) (root root' : Bytes) (layout layout' : List Content)
        (keys keys' : List Bytes) (ends ends' : List (Option Bytes)),
      sha.Injective → 0 < pageSize →
      prefixKeys sha pageSize root layout = .ok (keys, ends) →
      prefixKeys sha pageSize root' layout' = .ok (keys', ends') →
      ∀ (i j : ℕ) (key : Bytes), i < total layout / pageSize → j < total layout' / pageSize →
        keys[i]? = some key → keys'[j]? = some key →
          i = j ∧ root = root' ∧
            (slots layout).take ((i + 1) * pageSize) = (slots layout').take ((j + 1) * pageSize) := by
  intro h
  have hij := h (0 :: ·) 1 [0, 0, 0, 0, 0, 4, 0, 0, 0, 1, 0, 0, 0, 0, 0, 0, 0] [] [.ids [2]]
    [.ids [1], .ids [2]] _ _ _ _ List.cons_injective (by decide) rfl rfl 0 1 _ (by decide) (by decide)
    rfl rfl
  exact absurd hij.1 (by decide)

end Mstar.Keys
