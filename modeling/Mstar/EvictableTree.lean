import Mstar.PinnedForest
import Mstar.PrefixIndex

/-!
# The tree of cached pages and its held-below counts

What the prefix index's tables say when they are consistent: the two maps
between keys and pages agree, parents were filed before their children, each
page's held-below count is the number of its children out of eviction's
reach, and the evictable set is the set of indexed pages within it. The
counts are pushed up a chain of parents that stops early; while it runs, one
page's count is still off by one.
-/

namespace Mstar

variable {Key : Type} [DecidableEq Key]

namespace PrefixIndex

/-- The pages the index names. -/
def pageSet (ix : PrefixIndex Key) : Finset Page := (ix.byKey.entries.map (·.2)).toFinset

/-- The indexed pages filed under a page. -/
def kids (ix : PrefixIndex Key) (p : Page) : Finset Page :=
  ix.pageSet.filter fun c => ix.parent c = some p

/-- A page eviction cannot free now: somebody else holds it, or a page below
it by the index's own count. -/
def OutOfReach (owners : Page → ℕ) (ix : PrefixIndex Key) (p : Page) : Prop :=
  owners p > 1 ∨ ix.heldBelow p ≠ 0

instance (owners : Page → ℕ) (ix : PrefixIndex Key) : DecidablePred (ix.OutOfReach owners) :=
  fun p => inferInstanceAs (Decidable (owners p > 1 ∨ ix.heldBelow p ≠ 0))

/-- How many children of a page are out of reach. -/
def outBelow (owners : Page → ℕ) (ix : PrefixIndex Key) (p : Page) : ℕ :=
  ((ix.kids p).filter (ix.OutOfReach owners)).card

/-- The names and the parents are those of a forest. `born` is the clock at
which each page was filed. -/
structure Tree (born : Page → ℕ) (ix : PrefixIndex Key) : Prop where
  /-- A key names a page exactly when the page is named by the key. -/
  names : ∀ k p, ix.byKey.lookup k = some p ↔ ix.key p = some k
  /-- Only indexed pages are filed under a page, and it is indexed too. -/
  parent_held : ∀ {c p}, ix.parent c = some p → (ix.key c).isSome ∧ (ix.key p).isSome
  /-- A page is filed after its parent. -/
  born_lt : ∀ {c p}, ix.parent c = some p → born p < born c
  /-- Every indexed page was filed at some tick. -/
  born_pos : ∀ {p}, (ix.key p).isSome → 0 < born p
  /-- No page was filed at a later tick than the clock's. -/
  born_le : ∀ {p}, (ix.key p).isSome → born p ≤ ix.clock

/-- The held-below counts, all but that of `at_`, which is `d` short, and the
evictable set, which they decide. -/
structure CountedBut (owners : Page → ℕ) (ix : PrefixIndex Key) (at_ : Option Page) (d : ℤ) :
    Prop where
  /-- Each count is the number of children out of reach. -/
  heldBelow_eq : ∀ {p}, (ix.key p).isSome →
    ix.heldBelow p + (if at_ = some p then d else 0) = ix.outBelow owners p
  /-- No count is negative. -/
  nonneg : ∀ {p}, (ix.key p).isSome → 0 ≤ ix.heldBelow p
  /-- The evictable pages are the indexed ones within reach. -/
  mem_evictable : ∀ p, p ∈ ix.evictable ↔ (ix.key p).isSome ∧ ¬ix.OutOfReach owners p

/-- Every held-below count is right, and so is the evictable set. -/
abbrev Counted (owners : Page → ℕ) (ix : PrefixIndex Key) : Prop := ix.CountedBut owners none 0

/-- The children counts are right. -/
def ChildrenCounted (ix : PrefixIndex Key) : Prop :=
  ∀ ⦃p⦄, (ix.key p).isSome → ix.children p = (ix.kids p).card

/-- A page the index names that has no children. -/
def Leaf (ix : PrefixIndex Key) (p : Page) : Prop := (ix.key p).isSome ∧ ix.children p = 0

/-- Every leaf has an entry in the heap, or among those taken off it. -/
def Queued (ix : PrefixIndex Key) (taken : List Entry) : Prop :=
  ∀ p, ix.Leaf p → p ∈ (ix.leaves ++ taken).map (·.2)

variable {born : Page → ℕ} {owners : Page → ℕ} {ix : PrefixIndex Key}

/-- The named pages are the ones with a key. -/
theorem Tree.mem_pageSet (ht : ix.Tree born) {p : Page} : p ∈ ix.pageSet ↔ (ix.key p).isSome := by
  unfold pageSet
  rw [List.mem_toFinset, List.mem_map]
  constructor
  · rintro ⟨⟨k, q⟩, hmem, rfl⟩
    have hk := (ht.names k q).1 (AList.mem_lookup_iff.2 hmem)
    simp [hk]
  · intro hp
    obtain ⟨k, hk⟩ := Option.isSome_iff_exists.1 hp
    exact ⟨⟨k, p⟩, AList.mem_lookup_iff.1 ((ht.names k p).2 hk), rfl⟩

/-- The children of a page are the pages filed under it. -/
theorem Tree.mem_kids (ht : ix.Tree born) {p c : Page} : c ∈ ix.kids p ↔ ix.parent c = some p := by
  unfold kids
  rw [Finset.mem_filter, ht.mem_pageSet]
  exact ⟨fun h => h.2, fun h => ⟨(ht.parent_held h).1, h⟩⟩

/-- The index names at least as many keys as there are evictable pages. -/
theorem card_pageSet_le (ix : PrefixIndex Key) : ix.pageSet.card ≤ ix.numPages := by
  unfold pageSet numPages AList.keys List.keys
  refine (List.toFinset_card_le _).trans ?_
  simp

/-- The parents of a tree are ranked by the tick of their filing. -/
theorem Tree.ranked (ht : ix.Tree born) : PinnedForest.Ranked ix.parent born ix.clock where
  lt := ht.born_lt
  le := fun hc => ht.born_le (ht.parent_held hc).1

/-- A leaf has nothing filed under it. -/
theorem Tree.parent_ne_of_leaf (ht : ix.Tree born) (hc : ix.ChildrenCounted) {p : Page}
    (hp : ix.Leaf p) (c : Page) : ix.parent c ≠ some p := by
  intro hpar
  have hcard := hc hp.1
  rw [hp.2] at hcard
  have hempty : ix.kids p = ∅ := Finset.card_eq_zero.1 (by exact_mod_cast hcard.symm)
  have hmem := ht.mem_kids.2 hpar
  rw [hempty] at hmem
  simp at hmem

/-- An indexed page with nothing filed under it is a leaf. -/
theorem Tree.leaf_of_parent_ne (ht : ix.Tree born) (hc : ix.ChildrenCounted) {p : Page}
    (hp : (ix.key p).isSome) (hnone : ∀ c, ix.parent c ≠ some p) : ix.Leaf p := by
  refine ⟨hp, ?_⟩
  have hempty : ix.kids p = ∅ :=
    Finset.eq_empty_of_forall_notMem fun c hcmem => hnone c (ht.mem_kids.1 hcmem)
  rw [hc hp, hempty]
  rfl

/-- A count that is not short is the number of children out of reach. -/
theorem Counted.heldBelow_eq_outBelow (hcount : ix.Counted owners) {p : Page}
    (hp : (ix.key p).isSome) : ix.heldBelow p = ix.outBelow owners p := by
  simpa using hcount.heldBelow_eq hp

/-- A leaf's held-below count is zero. -/
theorem Counted.heldBelow_leaf (ht : ix.Tree born) (hc : ix.ChildrenCounted)
    (hcount : ix.Counted owners) {p : Page} (hp : ix.Leaf p) : ix.heldBelow p = 0 := by
  have hempty : ix.kids p = ∅ := Finset.eq_empty_of_forall_notMem fun c hcmem =>
    ht.parent_ne_of_leaf hc hp c (ht.mem_kids.1 hcmem)
  rw [hcount.heldBelow_eq_outBelow hp.1]
  simp [outBelow, hempty]

/-- The pages out of reach are exactly those held, or over one held by
somebody besides the index. -/
theorem Counted.outOfReach_iff_pinned (ht : ix.Tree born) (hcount : ix.Counted owners) {p : Page}
    (hp : (ix.key p).isSome) :
    ix.OutOfReach owners p ↔
      PinnedForest.Pinned ix.parent (fun q => (ix.key q).isSome ∧ owners q > 1) p := by
  rw [← PinnedForest.held_or_mark_iff_pinned ht.ranked
    (m := fun q => (ix.key q).isSome ∧ ix.heldBelow q ≠ 0)]
  · simp [OutOfReach, hp]
  · intro q
    constructor
    · rintro ⟨hq, hne⟩
      rw [hcount.heldBelow_eq_outBelow hq] at hne
      obtain ⟨c, hc⟩ := Finset.card_pos.1 (Nat.pos_of_ne_zero (by exact_mod_cast hne))
      rw [Finset.mem_filter, ht.mem_kids] at hc
      have hck := (ht.parent_held hc.1).1
      exact ⟨c, hc.1, hc.2.imp (fun h => ⟨hck, h⟩) (fun h => ⟨hck, h⟩)⟩
    · rintro ⟨c, hc, hout⟩
      have hq := (ht.parent_held hc).2
      have hmem : c ∈ (ix.kids q).filter (ix.OutOfReach owners) := by
        rw [Finset.mem_filter, ht.mem_kids]
        exact ⟨hc, hout.imp (fun h => h.2) (fun h => h.2)⟩
      have hpos := Finset.card_pos.2 ⟨c, hmem⟩
      refine ⟨hq, ?_⟩
      rw [hcount.heldBelow_eq_outBelow hq]
      exact_mod_cast hpos.ne'

/-- Once every leaf is held by somebody besides the index, no page is
evictable. -/
theorem Counted.evictable_eq_empty (ht : ix.Tree born) (hc : ix.ChildrenCounted)
    (hcount : ix.Counted owners) (hleaf : ∀ p, ix.Leaf p → owners p > 1) : ix.evictable = ∅ := by
  refine Finset.eq_empty_of_forall_notMem fun p hp => ?_
  obtain ⟨hkey, hin⟩ := (hcount.mem_evictable p).1 hp
  refine hin ((hcount.outOfReach_iff_pinned ht hkey).2 ?_)
  refine PinnedForest.pinned_of_leaves_held ht.ranked (n := fun q => (ix.key q).isSome = true)
    (fun hcq => (ht.parent_held hcq).1) (fun q hq hnone => ⟨hq, ?_⟩) p hkey
  exact hleaf q (ht.leaf_of_parent_ne hc hq hnone)

/-- A change of one page's standing changes its parent's number of children
out of reach by one, and no other. -/
theorem Tree.outBelow_gain (ht : ix.Tree born) {owners' : Page → ℕ} {hb : Page → ℤ} {x : Page}
    (hold : ¬ix.OutOfReach owners x)
    (hnew : { ix with heldBelow := hb }.OutOfReach owners' x)
    (hsame : ∀ y, y ≠ x →
      (ix.OutOfReach owners y ↔ { ix with heldBelow := hb }.OutOfReach owners' y)) (p : Page) :
    ({ ix with heldBelow := hb }.outBelow owners' p : ℤ) =
      ix.outBelow owners p + if ix.parent x = some p then 1 else 0 := by
  have h : { ix with heldBelow := hb }.outBelow owners' p = ix.outBelow owners p + _ :=
    PinnedForest.card_filter_of_gain (ix.kids p) hold hnew hsame
  simp only [ht.mem_kids] at h
  rw [h]
  split <;> simp

/-- While no indexed page's standing changes, no number of children out of
reach does. -/
theorem Tree.outBelow_congr (ht : ix.Tree born) {owners' : Page → ℕ} {hb : Page → ℤ}
    (hsame : ∀ y, (ix.key y).isSome →
      (ix.OutOfReach owners y ↔ { ix with heldBelow := hb }.OutOfReach owners' y)) (p : Page) :
    { ix with heldBelow := hb }.outBelow owners' p = ix.outBelow owners p := by
  unfold outBelow
  refine congrArg Finset.card (Finset.filter_congr fun y hy => ?_)
  exact (hsame y (ht.mem_pageSet.1 (Finset.mem_filter.1 hy).1)).symm

/-- Counts short of nothing are right, whatever the shortfall is called. -/
theorem CountedBut.settled {d : ℤ} (h : ix.CountedBut owners none d) : ix.Counted owners where
  heldBelow_eq := fun hp => by simpa using h.heldBelow_eq hp
  nonneg := h.nonneg
  mem_evictable := h.mem_evictable

/-- Where the walk up stops, the page's standing is what it was, and the count
just moved settles the tree. -/
theorem CountedBut.stop (ht : ix.Tree born) {q : Page} {d : ℤ}
    (hcount : ix.CountedBut owners (some q) d) (hnonneg : 0 ≤ ix.heldBelow q + d)
    (hbefore : ix.OutOfReach owners q) (hafter : (ix.addHeldBelow q d).OutOfReach owners q) :
    (ix.addHeldBelow q d).Counted owners := by
  have hsame : ∀ y, ix.OutOfReach owners y ↔ (ix.addHeldBelow q d).OutOfReach owners y := by
    intro y
    by_cases hy : y = q
    · subst hy
      exact iff_of_true hbefore hafter
    · simp [OutOfReach, addHeldBelow, hy]
  refine ⟨fun {p} hp => ?_, fun {p} hp => ?_, fun p => ?_⟩
  · have h := hcount.heldBelow_eq hp
    have hout : (ix.addHeldBelow q d).outBelow owners p = ix.outBelow owners p :=
      ht.outBelow_congr (fun y _ => hsame y) p
    rw [hout, ← h]
    by_cases hpq : p = q
    · subst hpq
      simp [addHeldBelow]
    · simp [addHeldBelow, hpq, Ne.symm hpq]
  · by_cases hpq : p = q
    · subst hpq
      simpa [addHeldBelow] using hnonneg
    · simpa [addHeldBelow, hpq] using hcount.nonneg hp
  · exact (hcount.mem_evictable p).trans (and_congr Iff.rfl (not_congr (hsame p)))

/-- Where the walk up goes on pinning, the page goes out of reach and its own
parent's count is one short. -/
theorem CountedBut.pinned (ht : ix.Tree born) {q : Page} (hq : (ix.key q).isSome)
    (hcount : ix.CountedBut owners (some q) 1) (hbefore : ¬ix.OutOfReach owners q) :
    { ix.addHeldBelow q 1 with evictable := ix.evictable.erase q }.CountedBut owners
      (ix.parent q) 1 := by
  have hzero : ix.heldBelow q = 0 := by
    by_contra h
    exact hbefore (Or.inr h)
  have hafter : (ix.addHeldBelow q 1).OutOfReach owners q := by
    right
    simp [addHeldBelow, hzero]
  have hsame : ∀ y, y ≠ q →
      (ix.OutOfReach owners y ↔ (ix.addHeldBelow q 1).OutOfReach owners y) := by
    intro y hy
    simp [OutOfReach, addHeldBelow, hy]
  refine ⟨fun {p} hp => ?_, fun {p} hp => ?_, fun p => ?_⟩
  · have h := hcount.heldBelow_eq hp
    have hout : ((ix.addHeldBelow q 1).outBelow owners p : ℤ) =
        ix.outBelow owners p + if ix.parent q = some p then 1 else 0 :=
      ht.outBelow_gain hbefore hafter hsame p
    change (ix.addHeldBelow q 1).heldBelow p + _ = ((ix.addHeldBelow q 1).outBelow owners p : ℤ)
    rw [hout, ← h]
    by_cases hpq : p = q
    · subst hpq
      simp [addHeldBelow]
    · simp [addHeldBelow, hpq, Ne.symm hpq]
  · change 0 ≤ (ix.addHeldBelow q 1).heldBelow p
    have hnn := hcount.nonneg hp
    simp only [addHeldBelow]
    split <;> omega
  · change p ∈ ix.evictable.erase q ↔
      (ix.key p).isSome ∧ ¬(ix.addHeldBelow q 1).OutOfReach owners p
    rw [Finset.mem_erase, hcount.mem_evictable]
    by_cases hpq : p = q
    · subst hpq
      simp [hafter]
    · simp [hpq, hsame p hpq]

/-- Where the walk up goes on unpinning, the page comes within reach and its
own parent's count is one over. -/
theorem CountedBut.unpinned (ht : ix.Tree born) {q : Page} (hq : (ix.key q).isSome)
    (hcount : ix.CountedBut owners (some q) (-1)) (hbefore : ix.OutOfReach owners q)
    (hafter : ¬(ix.addHeldBelow q (-1)).OutOfReach owners q) :
    { ix.addHeldBelow q (-1) with evictable := insert q ix.evictable }.CountedBut owners
      (ix.parent q) (-1) := by
  have hzero : (ix.addHeldBelow q (-1)).heldBelow q = 0 := by
    by_contra h
    exact hafter (Or.inr h)
  have hsame : ∀ y, y ≠ q →
      ((ix.addHeldBelow q (-1)).OutOfReach owners y ↔ ix.OutOfReach owners y) := by
    intro y hy
    simp [OutOfReach, addHeldBelow, hy]
  have ht' : (ix.addHeldBelow q (-1)).Tree born := ⟨ht.1, ht.2, ht.3, ht.4, ht.5⟩
  refine ⟨fun {p} hp => ?_, fun {p} hp => ?_, fun p => ?_⟩
  · have h := hcount.heldBelow_eq hp
    have hout : (ix.outBelow owners p : ℤ) = (ix.addHeldBelow q (-1)).outBelow owners p +
        if ix.parent q = some p then 1 else 0 :=
      ht'.outBelow_gain hafter hbefore hsame p
    change (ix.addHeldBelow q (-1)).heldBelow p + _ =
      ((ix.addHeldBelow q (-1)).outBelow owners p : ℤ)
    rw [hout] at h
    have hval : (ix.addHeldBelow q (-1)).heldBelow p =
        ix.heldBelow p + if some q = some p then -1 else 0 := by
      by_cases hpq : p = q
      · subst hpq
        simp [addHeldBelow]
      · simp [addHeldBelow, hpq, Ne.symm hpq]
    rw [hval, h]
    split <;> omega
  · change 0 ≤ (ix.addHeldBelow q (-1)).heldBelow p
    by_cases hpq : p = q
    · rw [hpq, hzero]
    · simpa [addHeldBelow, hpq] using hcount.nonneg hp
  · change p ∈ insert q ix.evictable ↔
      (ix.key p).isSome ∧ ¬(ix.addHeldBelow q (-1)).OutOfReach owners p
    rw [Finset.mem_insert, hcount.mem_evictable]
    by_cases hpq : p = q
    · subst hpq
      simp [hafter, hq]
    · simp [hpq, hsame p hpq]

/-- Nothing is above what was filed at the first tick. -/
theorem Tree.above_none (ht : ix.Tree born) {o : Option Page}
    (ho : ∀ p, o = some p → (ix.key p).isSome ∧ born p ≤ 0) : o = none := by
  cases o with
  | none => rfl
  | some p =>
    obtain ⟨hp, hle⟩ := ho p rfl
    have hpos := ht.born_pos hp
    omega

/-- Pushing a newly held page's pin up the chain settles every count. The
walk ends: each page above was filed at an earlier tick. -/
theorem pinAbove_counts (ht : ix.Tree born) (fuel : ℕ) (o : Option Page)
    (ho : ∀ p, o = some p → (ix.key p).isSome ∧ born p ≤ fuel)
    (hcount : ix.CountedBut owners o 1) :
    ∃ hb ev, pinAbove owners fuel ix o = .ok { ix with heldBelow := hb, evictable := ev } ∧
      { ix with heldBelow := hb, evictable := ev }.Counted owners := by
  induction fuel generalizing ix o with
  | zero =>
    obtain rfl := ht.above_none ho
    exact ⟨ix.heldBelow, ix.evictable, rfl, hcount.settled⟩
  | succ fuel ih =>
    cases o with
    | none => exact ⟨ix.heldBelow, ix.evictable, rfl, hcount.settled⟩
    | some p =>
      obtain ⟨hp, hle⟩ := ho p rfl
      have hnn := hcount.nonneg hp
      have hval : (ix.addHeldBelow p 1).heldBelow p = ix.heldBelow p + 1 := by simp [addHeldBelow]
      unfold pinAbove
      dsimp only
      by_cases hstop : (ix.addHeldBelow p 1).heldBelow p > 1 ∨ owners p > 1
      · rw [if_pos hstop]
        refine ⟨_, ix.evictable, rfl, hcount.stop ht (by omega) ?_ ?_⟩
        · exact hstop.elim (fun h => Or.inr (by omega)) Or.inl
        · exact Or.inr (by omega)
      · rw [if_neg hstop]
        have hbefore : ¬ix.OutOfReach owners p := by
          rintro (h | h)
          · exact hstop (Or.inr h)
          · exact hstop (Or.inl (by omega))
        have hnext := hcount.pinned ht hp hbefore
        have hout : { ix.addHeldBelow p 1 with evictable := ix.evictable.erase p }.Tree born :=
          ⟨ht.1, ht.2, ht.3, ht.4, ht.5⟩
        exact ih hout (ix.parent p)
          (fun r hr => ⟨(ht.parent_held hr).2, by have := ht.born_lt hr; omega⟩) hnext

/-- Lifting a released page's pin up the chain settles every count. -/
theorem unpinAbove_counts (ht : ix.Tree born) (fuel : ℕ) (o : Option Page)
    (ho : ∀ p, o = some p → (ix.key p).isSome ∧ born p ≤ fuel)
    (hcount : ix.CountedBut owners o (-1)) :
    ∃ hb ev, unpinAbove owners fuel ix o = .ok { ix with heldBelow := hb, evictable := ev } ∧
      { ix with heldBelow := hb, evictable := ev }.Counted owners := by
  induction fuel generalizing ix o with
  | zero =>
    obtain rfl := ht.above_none ho
    exact ⟨ix.heldBelow, ix.evictable, rfl, hcount.settled⟩
  | succ fuel ih =>
    cases o with
    | none => exact ⟨ix.heldBelow, ix.evictable, rfl, hcount.settled⟩
    | some p =>
      obtain ⟨hp, hle⟩ := ho p rfl
      have hnn := hcount.nonneg hp
      have hshort := hcount.heldBelow_eq hp
      simp only [if_true] at hshort
      have hval : (ix.addHeldBelow p (-1)).heldBelow p = ix.heldBelow p + -1 := by
        simp [addHeldBelow]
      have hbefore : ix.OutOfReach owners p := Or.inr (by omega)
      unfold unpinAbove
      dsimp only
      by_cases hstop : (ix.addHeldBelow p (-1)).heldBelow p ≠ 0 ∨ owners p > 1
      · rw [if_pos hstop]
        exact ⟨_, ix.evictable, rfl, hcount.stop ht (by omega) hbefore hstop.symm⟩
      · rw [if_neg hstop]
        have hnext := hcount.unpinned ht hp hbefore fun h => hstop h.symm
        have hin : { ix.addHeldBelow p (-1) with evictable := insert p ix.evictable }.Tree born :=
          ⟨ht.1, ht.2, ht.3, ht.4, ht.5⟩
        exact ih hin (ix.parent p)
          (fun r hr => ⟨(ht.parent_held hr).2, by have := ht.born_lt hr; omega⟩) hnext

/-- The chain of parents above a page is shorter than the clock. -/
theorem Tree.parent_bound (ht : ix.Tree born) {page p : Page} (hp : ix.parent page = some p) :
    (ix.key p).isSome ∧ born p ≤ ix.clock :=
  ⟨(ht.parent_held hp).2, ht.born_le (ht.parent_held hp).2⟩

end PrefixIndex

end Mstar
