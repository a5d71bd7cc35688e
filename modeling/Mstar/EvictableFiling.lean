import Mstar.EvictableHolds

/-!
# Filing a page and dropping a leaf keep the tree

The two calls that change which pages are indexed. Filing puts a page that
somebody holds under a parent, and counts it there as out of reach; dropping
takes away a leaf the index alone holds, which no held-below count counts.
-/

namespace Mstar

variable {Key : Type} [DecidableEq Key]

namespace PrefixIndex

variable {born : Page → ℕ} {owners owners' : Page → ℕ} {ix : PrefixIndex Key}

/-- The tick of each page's filing, once `page` is filed now. -/
def bornAfter (ix : PrefixIndex Key) (born : Page → ℕ) (page : Page) : Page → ℕ :=
  fun p => if p = page then ix.clock + 1 else born p

/-- A page that is not indexed has nothing filed under it. -/
theorem Tree.parent_ne_of_unindexed (ht : ix.Tree born) {page : Page} (hp : ix.key page = none)
    (c : Page) : ix.parent c ≠ some page := by
  intro h
  have hk := (ht.parent_held h).2
  simp [hp] at hk

/-- Filing a new page under an indexed parent, or none, keeps the tree. -/
theorem Tree.file (ht : ix.Tree born) {key : Key} {page : Page} {parent : Option Page}
    (hkey : ix.byKey.lookup key = none) (hpage : ix.key page = none)
    (hparent : ∀ q, parent = some q → (ix.key q).isSome) :
    (ix.file key page parent).Tree (ix.bornAfter born page) := by
  have hne : ∀ {p}, (ix.key p).isSome → p ≠ page := by
    rintro p hp rfl
    simp [hpage] at hp
  refine ⟨fun k p => ?_, fun {c p} hc => ?_, fun {c p} hc => ?_, fun {p} hp => ?_,
    fun {p} hp => ?_⟩
  · change (ix.byKey.insert key page).lookup k = some p ↔
      (if p = page then some key else ix.key p) = some k
    by_cases hk : k = key
    · subst hk
      rw [AList.lookup_insert]
      by_cases hp : p = page
      · simp [hp]
      · rw [if_neg hp, ← ht.names, hkey]
        simp [Ne.symm hp]
    · rw [AList.lookup_insert_ne hk, ht.names]
      by_cases hp : p = page
      · subst hp
        simp [hpage, Ne.symm hk]
      · rw [if_neg hp]
  · simp only [PrefixIndex.file] at hc ⊢
    split at hc
    · have hq := hparent p hc
      simp [*, hne hq]
    · have hheld := ht.parent_held hc
      simp [*, hne hheld.2]
  · simp only [PrefixIndex.file, bornAfter] at hc ⊢
    split at hc
    · have hq := hparent p hc
      have hle := ht.born_le hq
      simp only [*, hne hq, if_true, if_false]
      omega
    · have hheld := ht.parent_held hc
      simp only [*, hne hheld.2, if_false]
      exact ht.born_lt hc
  · simp only [PrefixIndex.file, bornAfter] at hp ⊢
    split
    · omega
    · rename_i hpp
      exact ht.born_pos (by simpa [hpp] using hp)
  · simp only [PrefixIndex.file, bornAfter] at hp ⊢
    split
    · omega
    · rename_i hpp
      have := ht.born_le (p := p) (by simpa [hpp] using hp)
      omega

/-- The children of each page once a new page is filed. -/
theorem Tree.kids_file (ht : ix.Tree born) {key : Key} {page : Page} {parent : Option Page}
    (hkey : ix.byKey.lookup key = none) (hpage : ix.key page = none)
    (hparent : ∀ q, parent = some q → (ix.key q).isSome) (p : Page) :
    (ix.file key page parent).kids p =
      if parent = some p then insert page (ix.kids p) else ix.kids p := by
  ext c
  rw [(ht.file hkey hpage hparent).mem_kids]
  have hold : page ∉ ix.kids p := by
    intro hc
    have := (ht.parent_held (ht.mem_kids.1 hc)).1
    simp [hpage] at this
  change (if c = page then parent else ix.parent c) = some p ↔ _
  by_cases hc : c = page
  · subst hc
    rw [if_pos rfl]
    split
    · rename_i h
      simp [h]
    · rename_i h
      exact iff_of_false h hold
  · rw [if_neg hc, ← ht.mem_kids]
    split <;> simp [hc]

/-- Once a page held by somebody is filed, its parent's count is one short. -/
theorem Counted.file (ht : ix.Tree born) (hcount : ix.Counted owners) {key : Key} {page : Page}
    {parent : Option Page} (hkey : ix.byKey.lookup key = none) (hpage : ix.key page = none)
    (hparent : ∀ q, parent = some q → (ix.key q).isSome) (hnew : owners' page > 1)
    (hsame : ∀ y, y ≠ page → owners' y = owners y) (tk : ℕ) :
    { ix.file key page parent with taken := tk, evictable := ix.evictable.erase page }.CountedBut
      owners' parent 1 := by
  have hstand : ∀ y, y ≠ page →
      ((ix.file key page parent).OutOfReach owners' y ↔ ix.OutOfReach owners y) := by
    intro y hy
    simp [OutOfReach, PrefixIndex.file, hsame y hy, hy]
  have hout : (ix.file key page parent).OutOfReach owners' page := Or.inl hnew
  have hkids : ∀ p c, c ∈ ix.kids p → c ≠ page := by
    rintro p c hc rfl
    have := (ht.parent_held (ht.mem_kids.1 hc)).1
    simp [hpage] at this
  have hbelow : ∀ p, ((ix.file key page parent).outBelow owners' p : ℤ) =
      ix.outBelow owners p + if parent = some p then 1 else 0 := by
    intro p
    unfold outBelow
    rw [ht.kids_file hkey hpage hparent]
    have hsub : (ix.kids p).filter ((ix.file key page parent).OutOfReach owners') =
        (ix.kids p).filter (ix.OutOfReach owners) :=
      Finset.filter_congr fun c hc => hstand c (hkids p c hc)
    split
    · rw [Finset.filter_insert, if_pos hout, hsub, Finset.card_insert_of_notMem]
      · simp
      · exact fun h => hkids p page (Finset.mem_filter.1 h).1 rfl
    · rw [hsub]
      simp
  refine ⟨fun {p} hp => ?_, fun {p} hp => ?_, fun p => ?_⟩
  · change (ix.file key page parent).heldBelow p + _ =
      ((ix.file key page parent).outBelow owners' p : ℤ)
    rw [hbelow]
    by_cases hpp : p = page
    · subst hpp
      have hnone : ix.kids p = ∅ := Finset.eq_empty_of_forall_notMem fun c hc =>
        ht.parent_ne_of_unindexed hpage c (ht.mem_kids.1 hc)
      simp [PrefixIndex.file, outBelow, hnone]
    · have hp' : (ix.key p).isSome := by simpa [PrefixIndex.file, hpp] using hp
      have hval : (ix.file key page parent).heldBelow p = ix.heldBelow p := by
        simp [PrefixIndex.file, hpp]
      rw [hval, hcount.heldBelow_eq_outBelow hp']
  · change 0 ≤ (ix.file key page parent).heldBelow p
    by_cases hpp : p = page
    · simp [PrefixIndex.file, hpp]
    · simpa [PrefixIndex.file, hpp] using
        hcount.nonneg (p := p) (by simpa [PrefixIndex.file, hpp] using hp)
  · change p ∈ ix.evictable.erase page ↔
      ((ix.file key page parent).key p).isSome ∧ ¬(ix.file key page parent).OutOfReach owners' p
    rw [Finset.mem_erase, hcount.mem_evictable]
    by_cases hpp : p = page
    · subst hpp
      simp [hout]
    · rw [hstand p hpp]
      simp [PrefixIndex.file, hpp]

/-- Reporting a newly filed page held settles the counts. -/
theorem Counted.setShared_file (ht : ix.Tree born) (hcount : ix.Counted owners) {key : Key}
    {page : Page} {parent : Option Page} (hkey : ix.byKey.lookup key = none)
    (hpage : ix.key page = none) (hparent : ∀ q, parent = some q → (ix.key q).isSome)
    (hnew : owners' page > 1) (hsame : ∀ y, y ≠ page → owners' y = owners y) :
    ∃ ix', (ix.file key page parent).setShared owners' page true = .ok ix' ∧
      (ix.file key page parent).Remarked ix' ∧ ix'.Counted owners' := by
  have ht' := ht.file hkey hpage hparent
  have hpar : (ix.file key page parent).parent page = parent := by simp [PrefixIndex.file]
  have hskip : ¬(((ix.file key page parent).key page).isNone ∨
      (ix.file key page parent).heldBelow page ≠ 0) := by
    simp [PrefixIndex.file]
  unfold setShared
  rw [if_neg hskip, if_pos rfl]
  dsimp only
  rw [hpar]
  have htaken : { ix.file key page parent with
      taken := ix.taken + 1, evictable := ix.evictable.erase page }.Tree _ :=
    ⟨ht'.1, ht'.2, ht'.3, ht'.4, ht'.5⟩
  obtain ⟨hb, ev, heq, hdone⟩ := pinAbove_counts htaken (ix.file key page parent).clock parent
    (fun q hq => ht'.parent_bound (hpar.trans hq))
    (hcount.file ht hkey hpage hparent hnew hsame (ix.taken + 1))
  exact ⟨_, heq, ⟨_, _, _, rfl⟩, hdone⟩

/-- Counting a new child leaves every table but the children counts and the
heap. -/
theorem adopt_eq (ix : PrefixIndex Key) (page : Page) (parent : Option Page) :
    ∃ ch, ix.adopt page parent =
      { ix with children := ch, leaves := heappush (ix.clock, page) ix.leaves } := by
  cases parent <;> exact ⟨_, rfl⟩

/-- The children counts once a new child is counted. -/
theorem children_adopt (ix : PrefixIndex Key) (page : Page) (parent : Option Page) (p : Page) :
    (ix.adopt page parent).children p = ix.children p + if parent = some p then 1 else 0 := by
  cases parent with
  | none => simp [adopt]
  | some q =>
    by_cases hq : p = q
    · subst hq
      simp [adopt, addChildren]
    · simp [adopt, addChildren, hq, Ne.symm hq]

/-- Filing a page under its parent counts it there. -/
theorem ChildrenCounted.adopt (ht : ix.Tree born) (hc : ix.ChildrenCounted) {key : Key}
    {page : Page} {parent : Option Page} (hkey : ix.byKey.lookup key = none)
    (hpage : ix.key page = none) (hparent : ∀ q, parent = some q → (ix.key q).isSome)
    {p : Page} (hp : ((ix.file key page parent).key p).isSome) :
    ((ix.file key page parent).adopt page parent).children p =
      ((ix.file key page parent).kids p).card := by
  rw [children_adopt, ht.kids_file hkey hpage hparent]
  have hnone : ∀ c, ix.parent c ≠ some page := ht.parent_ne_of_unindexed hpage
  by_cases hpp : p = page
  · subst hpp
    have hne : parent ≠ some p := by
      rintro rfl
      have := hparent p rfl
      simp [hpage] at this
    have hempty : ix.kids p = ∅ := Finset.eq_empty_of_forall_notMem fun c hcm =>
      hnone c (ht.mem_kids.1 hcm)
    simp [PrefixIndex.file, hne, hempty]
  · have hp' : (ix.key p).isSome := by simpa [PrefixIndex.file, hpp] using hp
    have hold : (ix.file key page parent).children p = ix.children p := by
      simp [PrefixIndex.file, hpp]
    rw [hold, hc hp']
    have hnot : page ∉ ix.kids p := by
      intro hmem
      have := (ht.parent_held (ht.mem_kids.1 hmem)).1
      simp [hpage] at this
    split <;> simp [hnot]

/-- Dropping an indexed page nothing is filed under keeps the tree. -/
theorem Tree.forget (ht : ix.Tree born) {key : Key} {page : Page} (hkey : ix.key page = some key)
    (hleaf : ∀ c, ix.parent c ≠ some page) : (ix.forget key page).Tree born := by
  refine ⟨fun k p => ?_, fun {c p} hc => ?_, fun {c p} hc => ?_, fun {p} hp => ?_,
    fun {p} hp => ?_⟩
  · change (ix.byKey.erase key).lookup k = some p ↔
      (if p = page then none else ix.key p) = some k
    by_cases hk : k = key
    · subst hk
      rw [AList.lookup_erase]
      by_cases hp : p = page
      · simp [hp]
      · rw [if_neg hp]
        refine iff_of_false (by simp) fun hpk => hp ?_
        have h₁ := (ht.names k p).2 hpk
        have h₂ := (ht.names k page).2 hkey
        exact Option.some.inj (h₁.symm.trans h₂)
    · rw [AList.lookup_erase_ne hk, ht.names]
      by_cases hp : p = page
      · subst hp
        rw [if_pos rfl, hkey]
        simp [Ne.symm hk]
      · rw [if_neg hp]
  all_goals simp only [PrefixIndex.forget] at *
  · split at hc
    · simp at hc
    · rename_i hcp
      have hpp : p ≠ page := by
        rintro rfl
        exact hleaf c hc
      simpa [hcp, hpp] using ht.parent_held hc
  · split at hc
    · simp at hc
    · exact ht.born_lt hc
  · split at hp
    · simp at hp
    · exact ht.born_pos hp
  · split at hp
    · simp at hp
    · exact ht.born_le hp

/-- The children of each page once one is dropped. -/
theorem Tree.kids_forget (ht : ix.Tree born) {key : Key} {page : Page}
    (hkey : ix.key page = some key) (hleaf : ∀ c, ix.parent c ≠ some page) (p : Page) :
    (ix.forget key page).kids p = (ix.kids p).erase page := by
  ext c
  rw [(ht.forget hkey hleaf).mem_kids, Finset.mem_erase, ht.mem_kids]
  change (if c = page then none else ix.parent c) = some p ↔ _
  by_cases hc : c = page
  · simp [hc]
  · simp [hc]

/-- Dropping a page within reach leaves every held-below count right: it was
counted in none. -/
theorem Counted.forget (ht : ix.Tree born) (hcount : ix.Counted owners) {key : Key} {page : Page}
    (hkey : ix.key page = some key) (hleaf : ∀ c, ix.parent c ≠ some page)
    (hin : ¬ix.OutOfReach owners page) (hsame : ∀ y, y ≠ page → owners' y = owners y) :
    (ix.forget key page).Counted owners' := by
  have hstand : ∀ y, y ≠ page →
      ((ix.forget key page).OutOfReach owners' y ↔ ix.OutOfReach owners y) := by
    intro y hy
    simp [OutOfReach, PrefixIndex.forget, hsame y hy]
  have hbelow : ∀ p, (ix.forget key page).outBelow owners' p = ix.outBelow owners p := by
    intro p
    unfold outBelow
    rw [ht.kids_forget hkey hleaf]
    refine congrArg Finset.card (Finset.ext fun c => ?_)
    rw [Finset.mem_filter, Finset.mem_filter, Finset.mem_erase]
    by_cases hc : c = page
    · subst hc
      simp [hin]
    · simp [hc, hstand c hc]
  have hheld : ∀ {p}, ((ix.forget key page).key p).isSome → p ≠ page ∧ (ix.key p).isSome := by
    intro p hp
    simp only [PrefixIndex.forget] at hp
    split at hp
    · simp at hp
    · exact ⟨‹_›, hp⟩
  refine ⟨fun {p} hp => ?_, fun {p} hp => hcount.nonneg (hheld hp).2, fun p => ?_⟩
  · rw [hbelow]
    exact hcount.heldBelow_eq (hheld hp).2
  · change p ∈ ix.evictable.erase page ↔ _
    rw [Finset.mem_erase, hcount.mem_evictable]
    by_cases hpp : p = page
    · simp [hpp, PrefixIndex.forget]
    · rw [hstand p hpp]
      simp [PrefixIndex.forget, hpp]

/-- Uncounting a dropped child leaves every table but the children counts and
the heap. -/
theorem disown_eq (ix : PrefixIndex Key) (o : Option Page) :
    ∃ ch lv, ix.disown o = { ix with children := ch, leaves := lv } := by
  cases o with
  | none => exact ⟨_, _, rfl⟩
  | some q =>
    unfold disown
    dsimp only
    split <;> exact ⟨_, _, rfl⟩

/-- The children counts once a dropped child is uncounted. -/
theorem children_disown (ix : PrefixIndex Key) (o : Option Page) (p : Page) :
    (ix.disown o).children p = ix.children p - if o = some p then 1 else 0 := by
  cases o with
  | none => simp [disown]
  | some q =>
    have hval : (ix.addChildren q (-1)).children p =
        ix.children p - if some q = some p then 1 else 0 := by
      by_cases hq : p = q
      · subst hq
        simp [addChildren]
        omega
      · simp [addChildren, hq, Ne.symm hq]
    unfold disown
    dsimp only
    split <;> exact hval

/-- The heap once a dropped child is uncounted: its parent is pushed when that
left it without children. -/
theorem leaves_disown (ix : PrefixIndex Key) (o : Option Page) :
    (ix.disown o).leaves = ix.leaves ∨ ∃ q, o = some q ∧ (ix.disown o).children q = 0 ∧
      (ix.key q).isSome ∧ (ix.disown o).leaves = heappush (ix.stamp q, q) ix.leaves := by
  cases o with
  | none => exact Or.inl rfl
  | some q =>
    unfold disown
    dsimp only
    split
    · rename_i h
      exact Or.inr ⟨q, rfl, h.1, h.2, rfl⟩
    · exact Or.inl rfl

/-- A parent that a dropped child leaves without children is in the heap. -/
theorem mem_leaves_disown (ix : PrefixIndex Key) {q : Page} (hq : (ix.key q).isSome)
    (hzero : (ix.disown (some q)).children q = 0) : q ∈ (ix.disown (some q)).leaves.map (·.2) := by
  have hval := children_disown ix (some q) q
  have h : (ix.addChildren q (-1)).children q = 0 := by
    simp only [addChildren, if_true]
    simp only [if_true] at hval
    omega
  unfold disown
  dsimp only
  rw [if_pos ⟨h, hq⟩]
  simp [heappush, List.mem_orderedInsert]

end PrefixIndex

namespace Pool

variable {born : Page → ℕ} {s : Pool Key}

/-- Retaining one page. -/
theorem retain_singleton (s : Pool Key) (page : Page) : s.retain [page] = s.retainOne page := by
  unfold retain retain
  cases s.retainOne page <;> rfl

/-- Running `set_shared` replaces the index. -/
theorem setShared_of_ok (s : Pool Key) {page : Page} {shared : Bool} {ix : PrefixIndex Key}
    (h : s.index.setShared s.owners page shared = .ok ix) :
    s.setShared page shared = .ok { s with index := ix } := by
  unfold Pool.setShared
  rw [h]
  rfl

/-- A parent on file passes the assertion. -/
theorem parent_filed (s : Pool Key) {parent : Option Page}
    (hparent : ∀ q, parent = some q → (s.index.key q).isSome) :
    ¬(parent.any fun q => (s.index.key q).isNone) = true := by
  cases parent with
  | none => simp
  | some q =>
    have := hparent q rfl
    simp [Option.isSome_iff_ne_none.1 this]

/-- Filing a page somebody holds reports it held exactly once, in `retain`
when that makes the second owner, and in `insert` when it was shared. -/
theorem insert_of_setShared (hrep : s.arena.reports = true) {key : Key} {page : Page}
    {parent : Option Page} (hparent : ∀ q, parent = some q → (s.index.key q).isSome)
    (hkey : s.index.byKey.lookup key = none) (hpage : s.index.key page = none)
    (hheld : 0 < s.owners page) {ix : PrefixIndex Key}
    (hset : (s.index.file key page (s.filingParent parent)).setShared
      (fun p => if p = page then s.owners page + 1 else s.owners p) page true = .ok ix) :
    s.insert key page parent = .ok (true,
      { arena := ((s.sealPage page).setOwners page (s.owners page + 1)).arena
        index := ix.adopt page (s.filingParent parent) }) := by
  have hasked := s.parent_filed hparent
  unfold Pool.insert
  rw [if_neg hasked, hkey, hpage]
  simp only [Option.isSome_none, Bool.false_eq_true, if_false, retain_singleton]
  generalize hs₁ : Pool.sealPage { s with index := s.index.file key page (s.filingParent parent) }
    page = s₁
  have hown : s₁.owners page = s.owners page := by rw [← hs₁]; rfl
  have hrep₁ : s₁.arena.reports = true := by rw [← hs₁]; exact hrep
  have hnew : (s₁.setOwners page (s₁.owners page + 1)).owners page = s.owners page + 1 := by
    simp [owners_setOwners, hown]
  have hcall : (s₁.setOwners page (s₁.owners page + 1)).setShared page true =
      .ok { s₁.setOwners page (s₁.owners page + 1) with index := ix } := by
    refine setShared_of_ok _ ?_
    rw [owners_setOwners, hown, ← hs₁]
    exact hset
  have hrep₂ : (s₁.setOwners page (s₁.owners page + 1)).arena.reports = true := hrep₁
  unfold Pool.retainOne
  dsimp only
  rw [hnew, hrep₂]
  by_cases hone : s.owners page = 1
  · rw [if_pos ⟨by omega, rfl⟩, hcall]
    have hnot : ¬({ s₁.setOwners page (s₁.owners page + 1) with index := ix } : Pool Key).owners
        page > 2 := by
      change ¬(s₁.setOwners page (s₁.owners page + 1)).owners page > 2
      omega
    simp only [bind, Except.bind, if_neg (fun h => hnot (And.right h))]
    rw [← hs₁]
    rfl
  · rw [if_neg (fun h => hone (by omega))]
    simp only [bind, Except.bind]
    rw [if_pos ⟨hrep₂, by omega⟩, hcall]
    simp only []
    rw [← hs₁]
    rfl

/-- The pool once a page that somebody holds is filed. -/
def filed (s : Pool Key) (page : Page) (ix : PrefixIndex Key) (parent : Option Page) : Pool Key where
  arena := ((s.sealPage page).setOwners page (s.owners page + 1)).arena
  index := ix.adopt page parent

/-- The pool once a leaf that the index alone held is dropped. -/
def without (s : Pool Key) (key : Key) (page : Page) : Pool Key where
  arena := { s.arena with
    free := s.arena.free ++ [page]
    numOwners := fun p => if p = page then 0 else s.arena.numOwners p
    «sealed» := fun p => if p = page then false else s.arena.sealed p }
  index := (s.index.forget key page).disown (s.index.parent page)

/-- The parent a page is filed under is one that was asked for. -/
theorem filingParent_eq {parent : Option Page} {q : Page} (hq : s.filingParent parent = some q) :
    parent = some q := by
  unfold filingParent at hq
  exact (Option.filter_eq_some_iff.1 hq).1

/-- Filing a page that somebody holds keeps the pool whole. -/
theorem Whole.filed (h : s.Whole born) {key : Key} {page : Page} {parent : Option Page}
    (hkey : s.index.byKey.lookup key = none) (hpage : s.index.key page = none)
    (hparent : ∀ q, parent = some q → (s.index.key q).isSome) {ix : PrefixIndex Key}
    (hr : (s.index.file key page parent).Remarked ix)
    (hcount : s.arena.reports = true →
      ix.Counted fun p => if p = page then s.owners page + 1 else s.owners p) :
    (s.filed page ix parent).Whole (s.index.bornAfter born page) := by
  have ht := hr.tree (h.tree.file hkey hpage hparent)
  have hch : ∀ p, ((s.index.file key page parent).key p).isSome →
      (ix.adopt page parent).children p = (ix.kids p).card := by
    obtain ⟨_, _, _, rfl⟩ := hr
    intro p hp
    have hone := h.children.adopt h.tree hkey hpage hparent hp
    cases parent <;> exact hone
  have hheld : ∀ p, (ix.key p).isSome → p = page ∨ (s.index.key p).isSome := by
    obtain ⟨_, _, _, rfl⟩ := hr
    intro p hp
    simp only [PrefixIndex.file] at hp
    split at hp
    · exact Or.inl ‹_›
    · exact Or.inr hp
  obtain ⟨ch, heq⟩ := ix.adopt_eq page parent
  have hindex : (s.filed page ix parent).index =
    { ix with children := ch, leaves := heappush (ix.clock, page) ix.leaves } := heq
  refine ⟨?_, ?_, ?_, fun hrep => ?_⟩
  · rw [hindex]
    exact ⟨ht.1, ht.2, ht.3, ht.4, ht.5⟩
  · intro p hp
    rw [hindex] at hp
    have hkids : (s.filed page ix parent).index.kids p = ix.kids p := by
      rw [hindex]
      rfl
    rw [hkids]
    refine hch p ?_
    obtain ⟨_, _, _, rfl⟩ := hr
    exact hp
  · intro p hp
    rw [hindex] at hp
    change 0 < if p = page then s.owners page + 1 else s.owners p
    by_cases hpp : p = page
    · rw [if_pos hpp]
      omega
    · rw [if_neg hpp]
      exact h.owned p ((hheld p hp).resolve_left hpp)
  · rw [hindex]
    exact ⟨(hcount hrep).1, (hcount hrep).2, (hcount hrep).3⟩

/-- Filing a page where the arena reports nothing. -/
theorem insert_unreported (hrep : ¬s.arena.reports = true) {key : Key} {page : Page}
    {parent : Option Page} (hparent : ∀ q, parent = some q → (s.index.key q).isSome)
    (hkey : s.index.byKey.lookup key = none) (hpage : s.index.key page = none) :
    s.insert key page parent = .ok (true, s.filed page
      (s.index.file key page (s.filingParent parent)) (s.filingParent parent)) := by
  have hasked := s.parent_filed hparent
  unfold Pool.insert
  rw [if_neg hasked, hkey, hpage]
  simp only [Option.isSome_none, Bool.false_eq_true, if_false, retain_singleton]
  generalize hs₁ : Pool.sealPage { s with index := s.index.file key page (s.filingParent parent) }
    page = s₁
  have hrep₁ : ¬(s₁.setOwners page (s₁.owners page + 1)).arena.reports = true := by
    rw [← hs₁]
    exact hrep
  unfold Pool.retainOne
  dsimp only
  rw [if_neg fun hboth => hrep₁ hboth.2]
  simp only [bind, Except.bind, if_neg (fun h => hrep₁ (And.left h))]
  rw [← hs₁]
  rfl

/-- Filing a page that somebody holds either fails an assertion, finds its key
taken, or files it and keeps the pool whole. -/
theorem Whole.insert_cases (h : s.Whole born) {page : Page} (hheld : 0 < s.owners page) (key : Key)
    (parent : Option Page) :
    s.insert key page parent = .error .assertion ∨ s.insert key page parent = .ok (false, s) ∨
      (s.index.key page = none ∧ s.index.byKey.lookup key = none ∧
        (∀ q, s.filingParent parent = some q → (s.index.key q).isSome) ∧
        ∃ ix, (s.index.file key page (s.filingParent parent)).Remarked ix ∧
          s.insert key page parent = .ok (true, s.filed page ix (s.filingParent parent)) ∧
          (s.filed page ix (s.filingParent parent)).Whole (s.index.bornAfter born page)) := by
  by_cases hasked : (parent.any fun q => (s.index.key q).isNone) = true
  · refine Or.inl ?_
    unfold Pool.insert
    rw [if_pos hasked]
  have hparent : ∀ q, parent = some q → (s.index.key q).isSome := by
    rintro q rfl
    simpa [Option.isSome_iff_ne_none] using hasked
  cases hkey : s.index.byKey.lookup key with
  | some other =>
    refine Or.inr (Or.inl ?_)
    unfold Pool.insert
    rw [if_neg hasked, hkey]
    rfl
  | none =>
    cases hpage : s.index.key page with
    | some other =>
      refine Or.inl ?_
      unfold Pool.insert
      rw [if_neg hasked, hkey, hpage]
      rfl
    | none =>
      have hpar : ∀ q, s.filingParent parent = some q → (s.index.key q).isSome :=
        fun q hq => hparent q (filingParent_eq hq)
      have hsame : ∀ y, y ≠ page →
          (if y = page then s.owners page + 1 else s.owners y) = s.owners y := fun y hy => if_neg hy
      refine Or.inr (Or.inr ⟨rfl, rfl, hpar, ?_⟩)
      by_cases hrep : s.arena.reports = true
      · obtain ⟨ix, hset, hr, hcount⟩ :=
          (h.counted hrep).setShared_file h.tree hkey hpage hpar (by simp; omega) hsame
        exact ⟨ix, hr, insert_of_setShared hrep hparent hkey hpage hheld hset,
          h.filed hkey hpage hpar hr fun _ => hcount⟩
      · exact ⟨_, .refl _, insert_unreported hrep hparent hkey hpage,
          h.filed hkey hpage hpar (.refl _) fun hon => absurd hon hrep⟩

/-- Filing a page that somebody holds, every hold reported. -/
theorem Sound.insert_cases (h : s.Sound born) {page : Page} (hheld : 0 < s.owners page) (key : Key)
    (parent : Option Page) :
    s.insert key page parent = .error .assertion ∨ s.insert key page parent = .ok (false, s) ∨
      (s.index.key page = none ∧ s.index.byKey.lookup key = none ∧
        (∀ q, s.filingParent parent = some q → (s.index.key q).isSome) ∧
        ∃ ix, (s.index.file key page (s.filingParent parent)).Remarked ix ∧
          s.insert key page parent = .ok (true, s.filed page ix (s.filingParent parent)) ∧
          (s.filed page ix (s.filingParent parent)).Sound (s.index.bornAfter born page)) := by
  rcases h.whole.insert_cases hheld key parent with herr | hsame |
    ⟨hpage, hkey, hpar, ix, hr, heq, hs⟩
  · exact Or.inl herr
  · exact Or.inr (Or.inl hsame)
  · exact Or.inr (Or.inr ⟨hpage, hkey, hpar, ix, hr, heq, hs.sound h.reports⟩)

/-- Dropping a leaf that the index alone holds returns, and frees its page. -/
theorem remove_eq {key : Key} {page : Page} (hkey : s.index.key page = some key)
    (hname : s.index.byKey.lookup key = some page) (howner : s.owners page = 1) :
    s.remove page = .ok (s.without key page) := by
  have howner' : s.arena.numOwners page = 1 := howner
  unfold Pool.remove
  simp only [hkey, hname, Option.isNone_some, Bool.false_eq_true, if_false]
  simp [Pool.release, Pool.releaseEach, Pool.releaseOne, Pool.owners, setOwners, howner', without,
    bind, Except.bind, pure, Except.pure]

/-- A leaf the index alone holds is within reach. -/
theorem Sound.leaf_in_reach (h : s.Sound born) {page : Page} (hleaf : s.index.Leaf page)
    (howner : s.owners page ≤ 1) : ¬s.index.OutOfReach s.owners page := by
  have hzero := h.counted.heldBelow_leaf h.tree h.children hleaf
  simp only [PrefixIndex.OutOfReach]
  omega

/-- Dropping a leaf that the index alone holds keeps the pool whole. -/
theorem Whole.without (h : s.Whole born) {key : Key} {page : Page}
    (hkey : s.index.key page = some key) (hleaf : s.index.Leaf page) (howner : s.owners page ≤ 1) :
    (s.without key page).Whole born := by
  have hnone := h.tree.parent_ne_of_leaf h.children hleaf
  have ht := h.tree.forget hkey hnone
  have hsame : ∀ y, y ≠ page → (s.without key page).owners y = s.owners y := fun y hy => if_neg hy
  obtain ⟨ch, lv, heq⟩ := (s.index.forget key page).disown_eq (s.index.parent page)
  have hindex : (s.without key page).index =
    { s.index.forget key page with children := ch, leaves := lv } := heq
  have hheld : ∀ {p}, ((s.index.forget key page).key p).isSome → p ≠ page ∧
      (s.index.key p).isSome := by
    intro p hp
    simp only [PrefixIndex.forget] at hp
    split at hp
    · simp at hp
    · exact ⟨‹_›, hp⟩
  refine ⟨?_, ?_, ?_, fun hrep => ?_⟩
  · rw [hindex]
    exact ⟨ht.1, ht.2, ht.3, ht.4, ht.5⟩
  · intro p hp
    have hp' : ((s.index.forget key page).key p).isSome := by
      rw [hindex] at hp
      exact hp
    have hkids : (s.without key page).index.kids p = (s.index.kids p).erase page := by
      rw [hindex]
      exact h.tree.kids_forget hkey hnone p
    have hval := PrefixIndex.children_disown (s.index.forget key page) (s.index.parent page) p
    have hold := h.children (hheld hp').2
    change ((s.index.forget key page).disown (s.index.parent page)).children p = _
    rw [hkids, hval]
    change s.index.children p - _ = _
    rw [hold]
    by_cases hpar : s.index.parent page = some p
    · have hmem := h.tree.mem_kids.2 hpar
      have hpos := Finset.card_pos.2 ⟨page, hmem⟩
      rw [if_pos hpar, Finset.card_erase_of_mem hmem]
      omega
    · have hnot : page ∉ s.index.kids p := fun hm => hpar (h.tree.mem_kids.1 hm)
      rw [if_neg hpar, Finset.erase_eq_of_notMem hnot]
      omega
  · intro p hp
    have hp' : ((s.index.forget key page).key p).isSome := by
      rw [hindex] at hp
      exact hp
    have hpp := hheld hp'
    change 0 < if p = page then 0 else s.owners p
    rw [if_neg hpp.1]
    exact h.owned p hpp.2
  · have hin := (h.sound hrep).leaf_in_reach hleaf howner
    have hcount := (h.counted hrep).forget h.tree hkey hnone hin hsame
    rw [hindex]
    exact ⟨hcount.1, hcount.2, hcount.3⟩

/-- Dropping a leaf that the index alone holds keeps the pool sound. -/
theorem Sound.without (h : s.Sound born) {key : Key} {page : Page}
    (hkey : s.index.key page = some key) (hleaf : s.index.Leaf page) (howner : s.owners page ≤ 1) :
    (s.without key page).Sound born := (h.whole.without hkey hleaf howner).sound h.reports

end Pool

end Mstar
