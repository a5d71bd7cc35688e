import Mstar.EvictableSet

/-!
# Which leaf an eviction drops next

The order evictions promise, stated on the pool alone: the leaf dropped next is
the one hit the longest ago among those nobody else holds and `spare` does not
accept, and an accepted one only when no other is left. What the heap of leaves
keeps so that it finds that leaf, whatever was dropped behind its back: an
entry is never later than its page's stamp nor than the filing of its page's
children.
-/

namespace Mstar

variable {Key : Type} [DecidableEq Key]

namespace Pool

/-- A new pool of `n` pages whose arena reports to its index, or to none. -/
def freshWith (n : ℕ) (reports : Bool) : Pool Key :=
  { (fresh n : Pool Key) with arena := { (fresh n : Pool Key).arena with reports := reports } }

/-- A leaf that nobody but the index holds. -/
def FreeLeaf (s : Pool Key) (p : Page) : Prop := s.index.Leaf p ∧ s.owners p ≤ 1

/-- The page's key is one that `spare` accepts. -/
def Spares (s : Pool Key) (spare : Option (Key → Bool)) (p : Page) : Prop :=
  ∃ key, s.index.key p = some key ∧ spare.any (fun accepts => accepts key) = true

/-- The leaf an eviction has to drop next. -/
structure DropsNext (s : Pool Key) (spare : Option (Key → Bool)) (p : Page) : Prop where
  /-- It is a leaf nobody else holds. -/
  free : s.FreeLeaf p
  /-- No such leaf was hit before it, of those `spare` treats like it. -/
  oldest : ∀ q, s.FreeLeaf q → (s.Spares spare q ↔ s.Spares spare p) →
    s.index.stamp p ≤ s.index.stamp q
  /-- It is spared unless no leaf is left that is not. -/
  last : s.Spares spare p → ∀ q, s.FreeLeaf q → s.Spares spare q

/-- Dropping these entries one after the other, each the next in its turn. -/
inductive DropsInOrder (spare : Option (Key → Bool)) :
    Pool Key → List (Key × Page) → Pool Key → Prop
  | nil (s : Pool Key) : DropsInOrder spare s [] s
  | cons {s s₁ s₂ : Pool Key} {key : Key} {page : Page} {drops : List (Key × Page)} :
    s.index.key page = some key → s.DropsNext spare page → s.remove page = .ok s₁ →
    DropsInOrder spare s₁ drops s₂ → DropsInOrder spare s ((key, page) :: drops) s₂

/-- No leaf that an eviction would spare has two entries in the heap. -/
def MetOnce (s : Pool Key) (spare : Option (Key → Bool)) : Prop :=
  ∀ p, s.FreeLeaf p → s.Spares spare p → (s.index.leaves.map (·.2)).count p ≤ 1

/-- The pool with another heap. -/
def withLeaves (s : Pool Key) (leaves : List Entry) : Pool Key :=
  { s with index := { s.index with leaves := leaves } }

variable {s t : Pool Key} {spare : Option (Key → Bool)}

/-- One more entry dropped at the end. -/
theorem DropsInOrder.concat {drops : List (Key × Page)} (h : s.DropsInOrder spare drops t)
    {t' : Pool Key} {key : Key} {page : Page} (hkey : t.index.key page = some key)
    (hnext : t.DropsNext spare page) (heq : t.remove page = .ok t') :
    s.DropsInOrder spare (drops ++ [(key, page)]) t' := by
  induction h with
  | nil s => exact .cons hkey hnext heq (.nil t')
  | cons hk hn hr _ ih => exact .cons hk hn hr (ih hkey hnext heq)

/-- Whether a page is spared is whether `spare` accepts its key. -/
theorem spares_iff {p : Page} {key : Key} (hkey : s.index.key p = some key)
    (spare : Option (Key → Bool)) : s.Spares spare p ↔ spare.any (fun accepts => accepts key) = true := by
  constructor
  · intro h
    obtain ⟨k, hk, ha⟩ := h
    rw [hkey] at hk
    cases hk
    exact ha
  · exact fun ha => ⟨key, hkey, ha⟩

/-- The keys once a page is dropped. -/
theorem key_without (s : Pool Key) (key : Key) (page p : Page) :
    (s.without key page).index.key p = if p = page then none else s.index.key p := by
  obtain ⟨_, _, heq⟩ := (s.index.forget key page).disown_eq (s.index.parent page)
  have hkey := congrFun (congrArg PrefixIndex.key heq) p
  exact hkey

/-- The parents once a page is dropped. -/
theorem parent_without (s : Pool Key) (key : Key) (page p : Page) :
    (s.without key page).index.parent p = if p = page then none else s.index.parent p := by
  obtain ⟨_, _, heq⟩ := (s.index.forget key page).disown_eq (s.index.parent page)
  have hparent := congrFun (congrArg PrefixIndex.parent heq) p
  exact hparent

/-- No stamp changes when a page is dropped. -/
theorem stamp_without (s : Pool Key) (key : Key) (page : Page) :
    (s.without key page).index.stamp = s.index.stamp := by
  obtain ⟨_, _, heq⟩ := (s.index.forget key page).disown_eq (s.index.parent page)
  have hstamp := congrArg PrefixIndex.stamp heq
  exact hstamp

/-- The children counts once a page is dropped. -/
theorem children_without (s : Pool Key) (key : Key) (page p : Page) :
    (s.without key page).index.children p =
      s.index.children p - if s.index.parent page = some p then 1 else 0 :=
  PrefixIndex.children_disown (s.index.forget key page) (s.index.parent page) p

/-- The owners once a page is dropped. -/
theorem owners_without (s : Pool Key) (key : Key) (page p : Page) :
    (s.without key page).owners p = if p = page then 0 else s.owners p := rfl

/-- Dropping a page does the same whatever the heap. -/
theorem without_withLeaves (s : Pool Key) (leaves : List Entry) (key : Key) (page : Page) :
    (s.withLeaves leaves).without key page = (s.without key page).withLeaves
      ((s.withLeaves leaves).without key page).index.leaves := by
  obtain ⟨ch, lv, heq⟩ := (s.index.forget key page).disown_eq (s.index.parent page)
  obtain ⟨ch', lv', heq'⟩ :=
    ((s.withLeaves leaves).index.forget key page).disown_eq (s.index.parent page)
  have hch : ch' = ch := by
    funext p
    have hval := PrefixIndex.children_disown (s.index.forget key page) (s.index.parent page) p
    have hval' := PrefixIndex.children_disown ((s.withLeaves leaves).index.forget key page)
      (s.index.parent page) p
    rw [heq] at hval
    rw [heq'] at hval'
    exact hval'.trans hval.symm
  unfold without
  change Pool.mk _ (((s.withLeaves leaves).index.forget key page).disown (s.index.parent page)) =
    withLeaves _ (((s.withLeaves leaves).index.forget key page).disown (s.index.parent page)).leaves
  rw [heq', heq, hch]
  rfl

end Pool

namespace PrefixIndex

variable {born : Page → ℕ} {ix : PrefixIndex Key}

/-- What the heap keeps whatever is dropped: old entries of a page only ever
come before its own. -/
structure Heaped (born : Page → ℕ) (ix : PrefixIndex Key) : Prop where
  /-- The heap is in order. -/
  sorted : ix.leaves.Pairwise Entry.le
  /-- No entry is pushed under a later stamp than the clock. -/
  entry_le : ∀ x ∈ ix.leaves, x.1 ≤ ix.clock
  /-- No entry of an indexed page is later than the page's stamp. -/
  entry_le_stamp : ∀ x ∈ ix.leaves, (ix.key x.2).isSome → x.1 ≤ ix.stamp x.2
  /-- No page is stamped before its filing. -/
  born_le_stamp : ∀ {p}, (ix.key p).isSome → born p ≤ ix.stamp p
  /-- No page is stamped after the clock. -/
  stamp_le : ∀ {p}, (ix.key p).isSome → ix.stamp p ≤ ix.clock
  /-- An entry is older than each of its page's children. -/
  entry_lt : ∀ x ∈ ix.leaves, ∀ c, ix.parent c = some x.2 → x.1 < born c

/-- Remarking keeps what the heap keeps. -/
theorem Remarked.heaped {ix' : PrefixIndex Key} (hr : ix.Remarked ix') (h : ix.Heaped born) :
    ix'.Heaped born := by
  obtain ⟨_, _, _, rfl⟩ := hr
  exact ⟨h.1, h.2, h.3, h.4, h.5, h.6⟩

/-- A heap of old entries, and of leaves under their own stamps. -/
theorem Heaped.reheap (h : ix.Heaped born) (ht : ix.Tree born) (hc : ix.ChildrenCounted)
    {leaves : List Entry} (hs : leaves.Pairwise Entry.le)
    (hmem : ∀ x ∈ leaves, x ∈ ix.leaves ∨ ix.Leaf x.2 ∧ x.1 = ix.stamp x.2) :
    { ix with leaves := leaves }.Heaped born := by
  constructor
  · exact hs
  · intro x hx
    rcases hmem x hx with hold | ⟨hleaf, hstamp⟩
    · exact h.entry_le x hold
    · exact hstamp ▸ h.stamp_le hleaf.1
  · intro x hx hkey
    rcases hmem x hx with hold | ⟨_, hstamp⟩
    · exact h.entry_le_stamp x hold hkey
    · exact hstamp.le
  · exact h.born_le_stamp
  · exact h.stamp_le
  · intro x hx c hpar
    rcases hmem x hx with hold | ⟨hleaf, _⟩
    · exact h.entry_lt x hold c hpar
    · exact absurd hpar (ht.parent_ne_of_leaf hc hleaf c)

/-- A hit keeps what the heap keeps. -/
theorem Heaped.touch (h : ix.Heaped born) (pages : List Page) : (ix.touch pages).Heaped born := by
  unfold PrefixIndex.touch
  dsimp only
  split
  · exact h
  · constructor
    · exact h.sorted
    · exact fun x hx => (h.entry_le x hx).trans (Nat.le_succ _)
    · intro x hx hkey
      have hstamp := h.entry_le_stamp x hx hkey
      have hclock := h.entry_le x hx
      dsimp only
      split <;> omega
    · intro p hp
      have hborn := h.born_le_stamp hp
      have hstamp := h.stamp_le hp
      dsimp only
      split <;> omega
    · intro p hp
      have hstamp := h.stamp_le hp
      dsimp only
      split <;> omega
    · exact h.entry_lt

end PrefixIndex

namespace Pool

variable {born : Page → ℕ} {s : Pool Key}

/-- Filing a page pushes its entry, the latest of all. -/
theorem Whole.heaped_filed (h : s.Whole born) {key : Key} {page : Page} {parent : Option Page}
    (hpar : ∀ q, parent = some q → (s.index.key q).isSome) (hpage : s.index.key page = none)
    {ix : PrefixIndex Key} (hr : (s.index.file key page parent).Remarked ix)
    (hh : s.index.Heaped born) :
    (s.filed page ix parent).index.Heaped (s.index.bornAfter born page) := by
  obtain ⟨_, heq⟩ := ix.adopt_eq page parent
  change (s.filed page ix parent).index = _ at heq
  rw [heq]
  obtain ⟨_, _, _, rfl⟩ := hr
  have hne : ∀ {p}, (s.index.key p).isSome → p ≠ page := by
    rintro p hp rfl
    simp [hpage] at hp
  constructor
  · exact heappush_sorted hh.sorted
  · intro x hx
    rcases mem_heappush.1 hx with rfl | hx
    · exact le_refl _
    · exact (hh.entry_le x hx).trans (Nat.le_succ _)
  · intro x hx hkey
    rcases mem_heappush.1 hx with rfl | hx
    · simp [PrefixIndex.file]
    · by_cases hpp : x.2 = page
      · have := hh.entry_le x hx
        simp [PrefixIndex.file, hpp]
        omega
      · have := hh.entry_le_stamp x hx (by simpa [PrefixIndex.file, hpp] using hkey)
        simpa [PrefixIndex.file, hpp] using this
  · intro p hp
    by_cases hpp : p = page
    · simp [PrefixIndex.bornAfter, PrefixIndex.file, hpp]
    · have := hh.born_le_stamp (p := p) (by simpa [PrefixIndex.file, hpp] using hp)
      simpa [PrefixIndex.bornAfter, PrefixIndex.file, hpp] using this
  · intro p hp
    by_cases hpp : p = page
    · simp [PrefixIndex.file, hpp]
    · have := hh.stamp_le (p := p) (by simpa [PrefixIndex.file, hpp] using hp)
      simp [PrefixIndex.file, hpp]
      omega
  · intro x hx c hc
    have hc' : (if c = page then parent else s.index.parent c) = some x.2 := hc
    rcases mem_heappush.1 hx with rfl | hx
    · split at hc'
      · exact absurd rfl (hne (hpar _ hc'))
      · exact absurd hc' (h.tree.parent_ne_of_unindexed hpage c)
    · have hle := hh.entry_le x hx
      split at hc'
      · simp only [PrefixIndex.bornAfter, *, if_true]
        omega
      · simp only [PrefixIndex.bornAfter, *, if_false]
        exact hh.entry_lt x hx c hc'

/-- Dropping a leaf pushes at most its parent, then a leaf, under its stamp. -/
theorem Whole.heaped_without (h : s.Whole born) {key : Key} {page : Page}
    (hkey : s.index.key page = some key) (hleaf : s.index.Leaf page) (howner : s.owners page ≤ 1)
    (hh : s.index.Heaped born) : (s.without key page).index.Heaped born := by
  have hw := h.without hkey hleaf howner
  obtain ⟨ch, lv, heq⟩ := (s.index.forget key page).disown_eq (s.index.parent page)
  change (s.without key page).index = _ at heq
  have hback : ∀ {p}, ((s.index.forget key page).key p).isSome → (s.index.key p).isSome := by
    intro p hp
    simp only [PrefixIndex.forget] at hp
    split at hp
    · simp at hp
    · exact hp
  have hforget : { (s.without key page).index with leaves := s.index.leaves }.Heaped born := by
    rw [heq]
    constructor
    · exact hh.sorted
    · exact hh.entry_le
    · exact fun x hx hk => hh.entry_le_stamp x hx (hback hk)
    · exact fun hp => hh.born_le_stamp (hback hp)
    · exact fun hp => hh.stamp_le (hback hp)
    · intro x hx c hc
      refine hh.entry_lt x hx c ?_
      simp only [PrefixIndex.forget] at hc
      split at hc
      · simp at hc
      · exact hc
  have ht : { (s.without key page).index with leaves := s.index.leaves }.Tree born :=
    ⟨hw.tree.1, hw.tree.2, hw.tree.3, hw.tree.4, hw.tree.5⟩
  rcases leaves_without s key page with hl | ⟨q, hq, hzero, hl⟩
  · rw [← hl] at hforget
    exact hforget
  · have hqp : q ≠ page := by
      rintro rfl
      exact absurd (h.tree.born_lt hq) (lt_irrefl _)
    have hqleaf : (s.without key page).index.Leaf q := by
      refine ⟨?_, hzero⟩
      rw [key_without, if_neg hqp]
      exact (h.tree.parent_held hq).2
    have hmem : ∀ x ∈ heappush (s.index.stamp q, q) s.index.leaves, x ∈ s.index.leaves ∨
        (s.without key page).index.Leaf x.2 ∧ x.1 = (s.without key page).index.stamp x.2 := by
      intro x hx
      rcases mem_heappush.1 hx with rfl | hx
      · exact Or.inr ⟨hqleaf, by rw [stamp_without]⟩
      · exact Or.inl hx
    have hpushed := hforget.reheap ht hw.children (heappush_sorted hh.sorted) hmem
    rw [← hl] at hpushed
    exact hpushed

end Pool

end Mstar
