import Mstar.EvictableFiling

/-!
# The heap of leaves

Every leaf of the index has an entry in the heap. An entry whose page is no
leaf any more, or carries an older stamp than its page, is met and dropped or
renewed when it surfaces. As long as no page is dropped behind the heap's
back, each page has one entry only: a page's entry is older than each of its
children, so it has surfaced before the last of them is evicted and the page
is pushed anew.
-/

namespace Mstar

variable {Key : Type} [DecidableEq Key]

instance : IsTrans Entry Entry.le where
  trans a b c hab hbc := by
    unfold Entry.le at *
    omega

instance : Std.Total Entry.le where
  total a b := by
    unfold Entry.le
    omega

/-- Pushing adds the entry. -/
theorem heappush_perm (entry : Entry) (heap : List Entry) :
    (heappush entry heap).Perm (entry :: heap) := List.perm_orderedInsert Entry.le entry heap

/-- An entry taken off one heap and pushed on the last of two others. -/
theorem perm_spare (x : Entry) (passed spared : List Entry) :
    ([x] ++ (passed ++ spared)).Perm ([] ++ (passed ++ heappush x spared)) := by
  have hmiddle : (passed ++ x :: spared).Perm (x :: (passed ++ spared)) := List.perm_middle
  exact hmiddle.symm.trans ((heappush_perm x spared).symm.append_left passed)

/-- An entry is in the heap once pushed. -/
theorem mem_heappush {entry x : Entry} {heap : List Entry} :
    x ∈ heappush entry heap ↔ x = entry ∨ x ∈ heap := by
  rw [(heappush_perm entry heap).mem_iff, List.mem_cons]

/-- Pushing entries one after the other adds them all. -/
theorem putBack_perm (heap entries : List Entry) :
    (entries.foldl (fun heap entry => heappush entry heap) heap).Perm (heap ++ entries) := by
  induction entries generalizing heap with
  | nil => simp
  | cons entry entries ih =>
    rw [List.foldl_cons]
    refine (ih _).trans ?_
    refine ((heappush_perm entry heap).append_right entries).trans ?_
    have hmiddle : (heap ++ entry :: entries).Perm (entry :: (heap ++ entries)) := List.perm_middle
    exact hmiddle.symm

/-- Pushing keeps the heap in order. -/
theorem heappush_sorted {entry : Entry} {heap : List Entry} (h : heap.Pairwise Entry.le) :
    (heappush entry heap).Pairwise Entry.le := List.Pairwise.orderedInsert entry heap h

/-- Pushing entries one after the other keeps the heap in order. -/
theorem putBack_sorted {heap : List Entry} (entries : List Entry) (h : heap.Pairwise Entry.le) :
    (entries.foldl (fun heap entry => heappush entry heap) heap).Pairwise Entry.le := by
  induction entries generalizing heap with
  | nil => exact h
  | cons entry entries ih => exact ih (heappush_sorted h)

namespace PrefixIndex

variable {born : Page → ℕ} {ix : PrefixIndex Key}

/-- What popping makes of a heap: its dead entries met so far are gone, its
stale ones renewed, and its first entry names a leaf under its own stamp. -/
structure Cleaned (ix : PrefixIndex Key) (heap heap' : List Entry) : Prop where
  /-- The first entry names a leaf under its current stamp. -/
  head : ∀ x, heap'.head? = some x → ix.Leaf x.2 ∧ ix.stamp x.2 = x.1
  /-- Every leaf in the heap is still in it. -/
  keeps : ∀ q, ix.Leaf q → q ∈ heap.map (·.2) → q ∈ heap'.map (·.2)
  /-- No page has more entries than before. -/
  pages : (heap'.map (·.2)).Subperm (heap.map (·.2))
  /-- The order of the heap is kept. -/
  sorted : heap.Pairwise Entry.le → heap'.Pairwise Entry.le
  /-- The entries are the old ones and renewed ones. -/
  entries : ∀ x ∈ heap', x ∈ heap ∨ ix.Leaf x.2 ∧ x.1 = ix.stamp x.2

/-- Rounds that popping a heap may take: one for each entry, and one more for
each stale one. -/
def popRounds (ix : PrefixIndex Key) (heap : List Entry) : ℕ :=
  heap.length + heap.countP fun e => ix.stamp e.2 ≠ e.1

/-- Popping takes the first entry of the cleaned heap. -/
theorem popLeafFrom_spec (fuel : ℕ) (heap : List Entry) (hfuel : ix.popRounds heap < fuel) :
    ∃ heap', ix.popLeafFrom fuel heap = .ok (heap'.head?, heap'.tail) ∧ ix.Cleaned heap heap' := by
  induction fuel generalizing heap with
  | zero => omega
  | succ fuel ih =>
    cases heap with
    | nil => exact ⟨[], rfl, by simp, by simp, by simp, id, by simp⟩
    | cons x heap =>
      obtain ⟨stamp, page⟩ := x
      have hrounds : ix.popRounds heap < fuel := by
        simp only [popRounds, List.length_cons, List.countP_cons] at hfuel ⊢
        omega
      unfold popLeafFrom
      by_cases hdead : (ix.key page).isNone ∨ ix.children page ≠ 0
      · rw [if_pos hdead]
        obtain ⟨heap', heq, hclean⟩ := ih heap hrounds
        have hnot : ¬ix.Leaf page := by
          rintro ⟨hk, hz⟩
          rcases hdead with h | h
          · simp [Option.isNone_iff_eq_none.1 h] at hk
          · exact h hz
        refine ⟨heap', heq, hclean.head, fun q hq hmem => hclean.keeps q hq ?_,
          hclean.pages.trans (List.sublist_cons_self _ _).subperm,
          fun hs => hclean.sorted hs.of_cons, fun x hx => ?_⟩
        · rw [List.map_cons, List.mem_cons] at hmem
          refine hmem.resolve_left ?_
          rintro rfl
          exact hnot hq
        · exact (hclean.entries x hx).imp_left (List.mem_cons_of_mem _)
      · rw [if_neg hdead]
        push Not at hdead
        have hleaf : ix.Leaf page :=
          ⟨by simpa [Option.isSome_iff_ne_none] using hdead.1, hdead.2⟩
        by_cases hstale : ix.stamp page ≠ stamp
        · rw [if_pos hstale]
          have hperm := heappush_perm (ix.stamp page, page) heap
          have hrounds' : ix.popRounds (heappush (ix.stamp page, page) heap) < fuel := by
            simp only [popRounds, hperm.length_eq, hperm.countP_eq]
            simp [popRounds, hstale] at hfuel ⊢
            omega
          obtain ⟨heap', heq, hclean⟩ := ih _ hrounds'
          have hpages := hperm.map (·.2)
          refine ⟨heap', heq, hclean.head, fun q hq hmem => hclean.keeps q hq ?_,
            hclean.pages.trans hpages.subperm,
            fun hs => hclean.sorted (heappush_sorted hs.of_cons), fun x hx => ?_⟩
          · rw [hpages.mem_iff]
            exact hmem
          · rcases hclean.entries x hx with h | h
            · rcases mem_heappush.1 h with rfl | h
              · exact Or.inr ⟨hleaf, rfl⟩
              · exact Or.inl (List.mem_cons_of_mem _ h)
            · exact Or.inr h
        · rw [if_neg hstale]
          push Not at hstale
          refine ⟨(stamp, page) :: heap, rfl, ?_, fun _ _ h => h, List.Subperm.refl _, id,
            fun x hx => Or.inl hx⟩
          rintro x hx
          cases hx
          exact ⟨hleaf, hstale⟩

/-- `_pop_leaf` takes the first entry of the cleaned heap. -/
theorem popLeaf_spec (ix : PrefixIndex Key) :
    ∃ heap, ix.popLeaf = .ok (heap.head?, { ix with leaves := heap.tail }) ∧
      ix.Cleaned ix.leaves heap := by
  have hrounds : ix.popRounds ix.leaves < 2 * ix.leaves.length + 1 := by
    have := List.countP_le_length (p := fun e => decide (ix.stamp e.2 ≠ e.1)) (l := ix.leaves)
    unfold popRounds
    omega
  obtain ⟨heap, heq, hclean⟩ := popLeafFrom_spec _ _ hrounds
  refine ⟨heap, ?_, hclean⟩
  unfold popLeaf
  rw [heq]
  rfl

/-- Each page has one entry, no older than its filing and its parent's entry.
The entries just taken off the heap count as in it, and name leaves. -/
structure Tidy (born : Page → ℕ) (ix : PrefixIndex Key) (taken : List Entry) : Prop where
  /-- The heap is in order. -/
  sorted : ix.leaves.Pairwise Entry.le
  /-- No page has two entries. -/
  once : ((ix.leaves ++ taken).map (·.2)).Nodup
  /-- Every entry names an indexed page. -/
  live : ∀ x ∈ ix.leaves ++ taken, (ix.key x.2).isSome
  /-- No entry is pushed under a later stamp than the clock. -/
  entry_le : ∀ x ∈ ix.leaves ++ taken, x.1 ≤ ix.clock
  /-- No entry is older than its page's filing. -/
  born_le : ∀ x ∈ ix.leaves ++ taken, born x.2 ≤ x.1
  /-- No page is stamped before its filing. -/
  born_le_stamp : ∀ {p}, (ix.key p).isSome → born p ≤ ix.stamp p
  /-- No page is stamped after the clock. -/
  stamp_le : ∀ {p}, (ix.key p).isSome → ix.stamp p ≤ ix.clock
  /-- An entry in the heap is older than each of its page's children. -/
  entry_lt : ∀ x ∈ ix.leaves, ∀ c, ix.parent c = some x.2 → x.1 < born c
  /-- The entries taken off name leaves. -/
  taken_leaf : ∀ x ∈ taken, ix.Leaf x.2

/-- The order of the entries taken off does not matter. -/
theorem Tidy.perm {taken taken' : List Entry} (h : ix.Tidy born taken)
    (hp : taken.Perm taken') : ix.Tidy born taken' := by
  have hall := hp.append_left ix.leaves
  refine ⟨h.sorted, (hall.map (·.2)).nodup_iff.1 h.once, fun x hx => h.live x (hall.mem_iff.2 hx),
    fun x hx => h.entry_le x (hall.mem_iff.2 hx), fun x hx => h.born_le x (hall.mem_iff.2 hx),
    h.born_le_stamp, h.stamp_le, h.entry_lt, fun x hx => h.taken_leaf x (hp.mem_iff.2 hx)⟩

/-- Remarking keeps the heap tidy. -/
theorem Remarked.tidy {ix' : PrefixIndex Key} (hr : ix.Remarked ix') {taken : List Entry}
    (h : ix.Tidy born taken) : ix'.Tidy born taken := by
  obtain ⟨_, _, _, rfl⟩ := hr
  exact ⟨h.1, h.2, h.3, h.4, h.5, h.6, h.7, h.8, h.9⟩

/-- Remarking keeps every leaf queued. -/
theorem Remarked.queued {ix' : PrefixIndex Key} (hr : ix.Remarked ix') {taken : List Entry}
    (h : ix.Queued taken) : ix'.Queued taken := by
  obtain ⟨_, _, _, rfl⟩ := hr
  exact h

/-- A tidy heap is tidy once cleaned, also with its first entry taken off. -/
theorem Tidy.cleaned (ht : ix.Tree born) (hc : ix.ChildrenCounted) {taken heap : List Entry}
    (h : ix.Tidy born taken) (hclean : ix.Cleaned ix.leaves heap) :
    { ix with leaves := heap.tail }.Tidy born (heap.head?.toList ++ taken) := by
  have hperm : (heap.tail ++ (heap.head?.toList ++ taken)).Perm (heap ++ taken) := by
    cases heap with
    | nil => simp
    | cons x heap => exact List.perm_middle
  have hmem : ∀ x ∈ heap.tail ++ (heap.head?.toList ++ taken),
      x ∈ ix.leaves ++ taken ∨ ix.Leaf x.2 ∧ x.1 = ix.stamp x.2 := by
    intro x hx
    rw [hperm.mem_iff, List.mem_append] at hx
    rcases hx with hx | hx
    · exact (hclean.entries x hx).imp_left (List.mem_append_left _)
    · exact Or.inl (List.mem_append_right _ hx)
  have hnodup : ((heap ++ taken).map (·.2)).Nodup := by
    rw [List.map_append]
    obtain ⟨l, hl, hsl⟩ := (List.subperm_append_right (taken.map (·.2))).2 hclean.pages
    have hn := h.once
    rw [List.map_append] at hn
    exact hl.nodup_iff.1 (hsl.nodup hn)
  refine ⟨?_, ((hperm.map (·.2)).nodup_iff).2 hnodup, ?_, ?_, ?_, h.born_le_stamp, h.stamp_le,
    ?_, ?_⟩
  · exact (hclean.sorted h.sorted).tail
  · intro x hx
    exact (hmem x hx).elim (h.live x) fun hl => hl.1.1
  · intro x hx
    rcases hmem x hx with hl | hl
    · exact h.entry_le x hl
    · exact hl.2 ▸ h.stamp_le hl.1.1
  · intro x hx
    rcases hmem x hx with hl | hl
    · exact h.born_le x hl
    · exact hl.2 ▸ h.born_le_stamp hl.1.1
  · intro x hx c hpar
    rcases hclean.entries x (List.mem_of_mem_tail hx) with hl | hl
    · exact h.entry_lt x hl c hpar
    · exact absurd hpar (ht.parent_ne_of_leaf hc hl.1 c)
  · intro x hx
    rw [List.mem_append, Option.mem_toList] at hx
    exact hx.elim (fun hh => (hclean.head x hh).1) (h.taken_leaf x)

/-- Pushing an indexed page that has no entry, and nothing filed under it,
keeps the heap tidy. -/
theorem Tidy.push {taken : List Entry} (h : ix.Tidy born taken) {q : Page}
    (hq : (ix.key q).isSome) (hnew : q ∉ (ix.leaves ++ taken).map (·.2))
    (hnone : ∀ c, ix.parent c ≠ some q) :
    { ix with leaves := heappush (ix.stamp q, q) ix.leaves }.Tidy born taken := by
  have hperm : (heappush (ix.stamp q, q) ix.leaves ++ taken).Perm
      ((ix.stamp q, q) :: (ix.leaves ++ taken)) :=
    (heappush_perm (ix.stamp q, q) ix.leaves).append_right taken
  have hmem : ∀ y ∈ heappush (ix.stamp q, q) ix.leaves ++ taken,
      y = (ix.stamp q, q) ∨ y ∈ ix.leaves ++ taken := fun y hy =>
    List.mem_cons.1 (hperm.mem_iff.1 hy)
  refine ⟨heappush_sorted h.sorted, ?_, fun y hy => ?_, fun y hy => ?_, fun y hy => ?_,
    h.born_le_stamp, h.stamp_le, fun y hy c hc => ?_, h.taken_leaf⟩
  · exact ((hperm.map (·.2)).nodup_iff).2 (List.nodup_cons.2 ⟨hnew, h.once⟩)
  · rcases hmem y hy with rfl | hy
    · exact hq
    · exact h.live y hy
  · rcases hmem y hy with rfl | hy
    · exact h.stamp_le hq
    · exact h.entry_le y hy
  · rcases hmem y hy with rfl | hy
    · exact h.born_le_stamp hq
    · exact h.born_le y hy
  · rcases mem_heappush.1 hy with rfl | hy
    · exact absurd hc (hnone c)
    · exact h.entry_lt y hy c hc

/-- Forgetting the page of an entry just taken off keeps the heap tidy,
whatever the new children counts that leave the other taken pages leaves. -/
theorem Tidy.forget {key : Key} {x : Entry} {taken : List Entry}
    (h : ix.Tidy born (x :: taken)) {ch : Page → ℤ} (hch : ∀ y ∈ taken, ch y.2 = 0) :
    { ix.forget key x.2 with children := ch }.Tidy born taken := by
  have hperm : (ix.leaves ++ x :: taken).Perm (x :: (ix.leaves ++ taken)) := List.perm_middle
  obtain ⟨hnot, hnodup⟩ := List.nodup_cons.1 (((hperm.map (·.2)).nodup_iff).1 h.once)
  have hold : ∀ y ∈ ix.leaves ++ taken, y ∈ ix.leaves ++ x :: taken ∧ y.2 ≠ x.2 := fun y hy =>
    ⟨hperm.mem_iff.2 (List.mem_cons_of_mem x hy), fun he => hnot (List.mem_map.2 ⟨y, hy, he⟩)⟩
  have hlive : ∀ y ∈ ix.leaves ++ taken, ((ix.forget key x.2).key y.2).isSome := by
    intro y hy
    simpa [PrefixIndex.forget, (hold y hy).2] using h.live y (hold y hy).1
  have hback : ∀ {p}, ((ix.forget key x.2).key p).isSome → (ix.key p).isSome := by
    intro p hp
    simp only [PrefixIndex.forget] at hp
    split at hp
    · simp at hp
    · exact hp
  refine ⟨h.sorted, hnodup, hlive, fun y hy => h.entry_le y (hold y hy).1,
    fun y hy => h.born_le y (hold y hy).1, fun hp => h.born_le_stamp (hback hp),
    fun hp => h.stamp_le (hback hp), fun y hy c hc => ?_, fun y hy =>
    ⟨hlive y (List.mem_append_right _ hy), hch y hy⟩⟩
  refine h.entry_lt y hy c ?_
  simp only [PrefixIndex.forget] at hc
  split at hc
  · simp at hc
  · exact hc

/-- Entries put back are in the heap again. -/
theorem leaves_putBack_perm (ix : PrefixIndex Key) (taken : List Entry) :
    (ix.putBack taken).leaves.Perm (ix.leaves ++ taken) := putBack_perm ix.leaves taken

/-- Putting the entries taken off back keeps the heap tidy. -/
theorem Tidy.putBack (ht : ix.Tree born) (hc : ix.ChildrenCounted) {taken : List Entry}
    (h : ix.Tidy born taken) : (ix.putBack taken).Tidy born [] := by
  have hperm := ix.leaves_putBack_perm taken
  have hmem : ∀ x, x ∈ (ix.putBack taken).leaves ++ [] ↔ x ∈ ix.leaves ++ taken := by
    intro x
    rw [List.append_nil, hperm.mem_iff]
  refine ⟨putBack_sorted taken h.sorted, ?_, fun x hx => h.live x ((hmem x).1 hx),
    fun x hx => h.entry_le x ((hmem x).1 hx), fun x hx => h.born_le x ((hmem x).1 hx),
    h.born_le_stamp, h.stamp_le, fun x hx c hpar => ?_, by simp⟩
  · rw [List.append_nil]
    exact ((hperm.map (·.2)).nodup_iff).2 h.once
  · rcases List.mem_append.1 (hperm.mem_iff.1 hx) with hl | hl
    · exact h.entry_lt x hl c hpar
    · exact absurd hpar (ht.parent_ne_of_leaf hc (h.taken_leaf x hl) c)

/-- Putting the entries taken off back leaves every leaf in the heap. -/
theorem Queued.putBack {taken : List Entry} (h : ix.Queued taken) :
    (ix.putBack taken).Queued [] := by
  intro p hp
  rw [List.append_nil, ((ix.leaves_putBack_perm taken).map (·.2)).mem_iff]
  exact h p hp

/-- A hit keeps the tree. -/
theorem Tree.touch (ht : ix.Tree born) (pages : List Page) : (ix.touch pages).Tree born := by
  unfold PrefixIndex.touch
  dsimp only
  split
  · exact ht
  · exact ⟨ht.1, ht.2, ht.3, ht.4, fun hp => (ht.5 hp).trans (Nat.le_succ _)⟩

/-- A hit moves nothing but the clock and stamps. -/
theorem touch_eq (ix : PrefixIndex Key) (pages : List Page) :
    ∃ cl st, ix.touch pages = { ix with clock := cl, stamp := st } := by
  unfold PrefixIndex.touch
  dsimp only
  split <;> exact ⟨_, _, rfl⟩

/-- A hit keeps the heap tidy. -/
theorem Tidy.touch (ht : ix.Tree born) (h : ix.Tidy born []) (pages : List Page) :
    (ix.touch pages).Tidy born [] := by
  unfold PrefixIndex.touch
  dsimp only
  split
  · exact h
  · refine ⟨h.sorted, h.once, h.live, fun x hx => (h.entry_le x hx).trans (Nat.le_succ _),
      h.born_le, fun {p} hp => ?_, fun {p} hp => ?_, h.entry_lt, h.taken_leaf⟩
    · have hb := ht.born_le hp
      have hs := h.born_le_stamp hp
      dsimp only
      split <;> omega
    · have hs := h.stamp_le hp
      dsimp only
      split <;> omega

end PrefixIndex

namespace Pool

variable {born : Page → ℕ} {s : Pool Key}

/-- A filed page is in the heap, and so is every other leaf. -/
theorem Whole.queued_filed (h : s.Whole born) {key : Key} {page : Page} {parent : Option Page}
    {ix : PrefixIndex Key}
    (hr : (s.index.file key page parent).Remarked ix) (hq : s.index.Queued []) :
    (s.filed page ix parent).index.Queued [] := by
  rintro p ⟨hkey, hzero⟩
  have hch := ix.children_adopt page parent p
  change (s.filed page ix parent).index.children p = _ at hch
  rw [hzero] at hch
  obtain ⟨_, heq⟩ := ix.adopt_eq page parent
  change (s.filed page ix parent).index = _ at heq
  rw [heq] at hkey ⊢
  obtain ⟨_, _, _, rfl⟩ := hr
  rw [List.append_nil, List.mem_map]
  by_cases hpp : p = page
  · exact ⟨(s.index.clock + 1, page), mem_heappush.2 (Or.inl rfl), hpp.symm⟩
  · have hk : (s.index.key p).isSome := by simpa [PrefixIndex.file, hpp] using hkey
    have hcount := h.children hk
    simp only [PrefixIndex.file, hpp, if_false] at hch
    have hleaf : s.index.Leaf p := ⟨hk, by split at hch <;> omega⟩
    have hmem := hq p hleaf
    rw [List.append_nil, List.mem_map] at hmem
    obtain ⟨x, hx, hxp⟩ := hmem
    exact ⟨x, mem_heappush.2 (Or.inr hx), hxp⟩

/-- Filing a page keeps the heap tidy. -/
theorem Sound.tidy_filed (h : s.Sound born) {key : Key} {page : Page} {parent : Option Page}
    (hpar : ∀ q, parent = some q → (s.index.key q).isSome) (hpage : s.index.key page = none)
    {ix : PrefixIndex Key} (hr : (s.index.file key page parent).Remarked ix)
    (ht : s.index.Tidy born []) :
    (s.filed page ix parent).index.Tidy (s.index.bornAfter born page) [] := by
  obtain ⟨_, heq⟩ := ix.adopt_eq page parent
  change (s.filed page ix parent).index = _ at heq
  rw [heq]
  obtain ⟨_, _, _, rfl⟩ := hr
  have hne : ∀ {p}, (s.index.key p).isSome → p ≠ page := by
    rintro p hp rfl
    simp [hpage] at hp
  have hmem : ∀ x, x ∈ heappush (s.index.clock + 1, page) s.index.leaves ++ [] ↔
      x = (s.index.clock + 1, page) ∨ x ∈ s.index.leaves := by
    intro x
    rw [List.append_nil, mem_heappush]
  have hlive : ∀ x ∈ s.index.leaves, x.2 ≠ page ∧ x ∈ s.index.leaves ++ [] := fun x hx =>
    ⟨hne (ht.live x (List.mem_append_left _ hx)), List.mem_append_left _ hx⟩
  refine ⟨heappush_sorted ht.sorted, ?_, fun x hx => ?_, fun x hx => ?_, fun x hx => ?_,
    fun {p} hp => ?_, fun {p} hp => ?_, fun x hx c hc => ?_, by simp⟩
  · have hperm := (heappush_perm (s.index.clock + 1, page) s.index.leaves).map (·.2)
    have hold := ht.once
    rw [List.append_nil] at hold ⊢
    refine (hperm.nodup_iff).2 (List.nodup_cons.2 ⟨fun hm => ?_, hold⟩)
    obtain ⟨x, hx, hxp⟩ := List.mem_map.1 hm
    exact (hlive x hx).1 hxp
  · rcases (hmem x).1 hx with rfl | hx
    · simp [PrefixIndex.file]
    · have := ht.live x (hlive x hx).2
      simpa [PrefixIndex.file, (hlive x hx).1] using this
  · rcases (hmem x).1 hx with rfl | hx
    · exact le_refl _
    · exact (ht.entry_le x (hlive x hx).2).trans (Nat.le_succ _)
  · rcases (hmem x).1 hx with rfl | hx
    · simp [PrefixIndex.bornAfter]
    · have := ht.born_le x (hlive x hx).2
      simpa [PrefixIndex.bornAfter, (hlive x hx).1] using this
  · by_cases hpp : p = page
    · simp [PrefixIndex.bornAfter, PrefixIndex.file, hpp]
    · have := ht.born_le_stamp (p := p) (by simpa [PrefixIndex.file, hpp] using hp)
      simpa [PrefixIndex.bornAfter, PrefixIndex.file, hpp] using this
  · by_cases hpp : p = page
    · simp [PrefixIndex.file, hpp]
    · have := ht.stamp_le (p := p) (by simpa [PrefixIndex.file, hpp] using hp)
      simp [PrefixIndex.file, hpp]
      omega
  · have hc' : (if c = page then parent else s.index.parent c) = some x.2 := hc
    rcases mem_heappush.1 hx with rfl | hx
    · split at hc'
      · exact absurd rfl (hne (hpar _ hc'))
      · exact absurd hc' (h.tree.parent_ne_of_unindexed hpage c)
    · have hle := ht.entry_le x (hlive x hx).2
      split at hc'
      · simp only [PrefixIndex.bornAfter, *, if_true]
        omega
      · simp only [PrefixIndex.bornAfter, *, if_false]
        exact ht.entry_lt x hx c hc'

/-- Dropping a page pushes at most its parent, which that left a leaf. -/
theorem leaves_without (s : Pool Key) (key : Key) (page : Page) :
    (s.without key page).index.leaves = s.index.leaves ∨
      ∃ q, s.index.parent page = some q ∧ (s.without key page).index.children q = 0 ∧
        (s.without key page).index.leaves = heappush (s.index.stamp q, q) s.index.leaves := by
  refine ((s.index.forget key page).leaves_disown (s.index.parent page)).imp id ?_
  rintro ⟨q, hq, hzero, _, hl⟩
  exact ⟨q, hq, hzero, hl⟩

/-- A leaf left by dropping another is still queued, and so is the parent that
it left without children. -/
theorem queued_without {key : Key} {page : Page} {taken : List Entry}
    (hq : ∀ p, s.index.Leaf p → p ≠ page → p ∈ (s.index.leaves ++ taken).map (·.2)) :
    (s.without key page).index.Queued taken := by
  intro p hp
  obtain ⟨ch, lv, heq⟩ := (s.index.forget key page).disown_eq (s.index.parent page)
  have hkey : ((s.index.forget key page).key p).isSome := by
    have hk : (((s.index.forget key page).disown (s.index.parent page)).key p).isSome := hp.1
    rw [heq] at hk
    exact hk
  have hval := PrefixIndex.children_disown (s.index.forget key page) (s.index.parent page) p
  have hzero : ((s.index.forget key page).disown (s.index.parent page)).children p = 0 := hp.2
  change p ∈ (((s.index.forget key page).disown (s.index.parent page)).leaves ++ taken).map (·.2)
  by_cases hpar : s.index.parent page = some p
  · rw [List.map_append, List.mem_append]
    rw [hpar] at hzero ⊢
    exact Or.inl (PrefixIndex.mem_leaves_disown _ hkey hzero)
  · have hpp : p ≠ page ∧ (s.index.key p).isSome := by
      simp only [PrefixIndex.forget] at hkey
      split at hkey
      · simp at hkey
      · exact ⟨‹_›, hkey⟩
    rw [if_neg hpar] at hval
    have hold : s.index.children p = 0 := by
      change _ = s.index.children p - 0 at hval
      omega
    have hmem := hq p ⟨hpp.2, hold⟩ hpp.1
    rw [List.mem_map] at hmem ⊢
    obtain ⟨x, hx, hxp⟩ := hmem
    refine ⟨x, ?_, hxp⟩
    rw [List.mem_append] at hx ⊢
    refine hx.imp_left fun hx => ?_
    rcases leaves_without s key page with hl | ⟨q, _, _, hl⟩
    · exact hl ▸ hx
    · exact hl ▸ mem_heappush.2 (Or.inr hx)

/-- Also where the leaf dropped was the first of those taken. -/
theorem queued_without_first {key : Key} {x : Entry} {taken : List Entry}
    (hq : s.index.Queued (x :: taken)) : (s.without key x.2).index.Queued taken := by
  refine queued_without fun p hp hpx => ?_
  obtain ⟨y, hy, hyp⟩ := List.mem_map.1 (hq p hp)
  refine List.mem_map.2 ⟨y, ?_, hyp⟩
  rw [List.mem_append] at hy ⊢
  refine hy.imp_right fun hy => (List.mem_cons.1 hy).resolve_left ?_
  rintro rfl
  exact hpx hyp.symm

/-- Dropping a leaf just taken off the front of the heap keeps it tidy. The
parent it leaves without children has no entry yet: one in the heap would be
older than the leaf's and have come first. -/
theorem Sound.tidy_without (h : s.Sound born) {key : Key} {x : Entry} {taken : List Entry}
    (hkey : s.index.key x.2 = some key) (howner : s.owners x.2 ≤ 1)
    (ht : s.index.Tidy born (x :: taken)) (hfirst : ∀ y ∈ s.index.leaves, x.1 ≤ y.1) :
    (s.without key x.2).index.Tidy born taken := by
  have hleaf : s.index.Leaf x.2 := ht.taken_leaf x (by simp)
  have hbornx : born x.2 ≤ x.1 := ht.born_le x (by simp)
  have hsound := h.without hkey hleaf howner
  obtain ⟨ch, lv, heq⟩ := (s.index.forget key x.2).disown_eq (s.index.parent x.2)
  change (s.without key x.2).index = _ at heq
  have hnotParent : ∀ y ∈ taken, s.index.parent x.2 ≠ some y.2 := fun y hy =>
    h.tree.parent_ne_of_leaf h.children (ht.taken_leaf y (List.mem_cons_of_mem x hy)) x.2
  have hch : ∀ y ∈ taken, ch y.2 = 0 := by
    intro y hy
    have hval := PrefixIndex.children_disown (s.index.forget key x.2) (s.index.parent x.2) y.2
    change (s.without key x.2).index.children y.2 = s.index.children y.2 - _ at hval
    rw [heq, if_neg (hnotParent y hy),
      (ht.taken_leaf y (List.mem_cons_of_mem x hy)).2] at hval
    exact hval
  have hforget : { s.index.forget key x.2 with children := ch }.Tidy born taken := ht.forget hch
  have hleaves := leaves_without s key x.2
  rw [heq] at hleaves ⊢
  rcases hleaves with hl | ⟨q, hq, hzero, hl⟩
  · change lv = s.index.leaves at hl
    rw [hl]
    exact hforget
  · change lv = _ at hl
    rw [hl]
    have hqx : q ≠ x.2 := by
      rintro rfl
      exact absurd (h.tree.born_lt hq) (lt_irrefl _)
    have hqkey : ((s.index.forget key x.2).key q).isSome := by
      simpa [PrefixIndex.forget, hqx] using (h.tree.parent_held hq).2
    have hqleaf : (s.without key x.2).index.Leaf q := by
      rw [heq]
      exact ⟨hqkey, hzero⟩
    refine hforget.push (q := q) hqkey (fun hm => ?_) fun c hc => ?_
    · obtain ⟨y, hy, rfl⟩ := List.mem_map.1 hm
      rcases List.mem_append.1 hy with hy | hy
      · have := ht.entry_lt y hy _ hq
        have := hfirst y hy
        omega
      · exact hnotParent y hy hq
    · refine hsound.tree.parent_ne_of_leaf hsound.children hqleaf c ?_
      rw [heq]
      exact hc

end Pool

end Mstar
