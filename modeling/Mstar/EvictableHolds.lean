import Mstar.EvictableTree

/-!
# Holding and releasing cached pages keeps the counts right

Retaining, releasing and filing pages through the arena, which reports every
page that gains or loses its second owner: each call returns, changes the
owner counts it names, and leaves the held-below counts and the evictable set
right for the new owners.
-/

namespace Mstar

variable {Key : Type} [DecidableEq Key]

namespace PrefixIndex

variable {born : Page → ℕ} {owners owners' : Page → ℕ} {ix : PrefixIndex Key}

/-- The same tables but for the held-below counts and the sets they decide. -/
def Remarked (ix ix' : PrefixIndex Key) : Prop :=
  ∃ tk hb ev, ix' = { ix with taken := tk, heldBelow := hb, evictable := ev }

/-- Nothing remarked. -/
theorem Remarked.refl (ix : PrefixIndex Key) : ix.Remarked ix := ⟨_, _, _, rfl⟩

/-- Two remarkings are one. -/
theorem Remarked.trans {ix₁ ix₂ ix₃ : PrefixIndex Key} (h : ix₁.Remarked ix₂)
    (h' : ix₂.Remarked ix₃) : ix₁.Remarked ix₃ := by
  obtain ⟨_, _, _, rfl⟩ := h
  obtain ⟨tk, hb, ev, rfl⟩ := h'
  exact ⟨tk, hb, ev, rfl⟩

/-- Remarking keeps the tree. -/
theorem Remarked.tree {ix' : PrefixIndex Key} (h : ix.Remarked ix') (ht : ix.Tree born) :
    ix'.Tree born := by
  obtain ⟨_, _, _, rfl⟩ := h
  exact ⟨ht.1, ht.2, ht.3, ht.4, ht.5⟩

/-- While no indexed page's standing changes, the counts stay right. -/
theorem Counted.congr (ht : ix.Tree born) (hcount : ix.Counted owners)
    (hsame : ∀ y, (ix.key y).isSome → (ix.OutOfReach owners y ↔ ix.OutOfReach owners' y)) :
    ix.Counted owners' := by
  refine ⟨fun {p} hp => ?_, hcount.nonneg, fun p => ?_⟩
  · have hout : ix.outBelow owners' p = ix.outBelow owners p := ht.outBelow_congr hsame p
    rw [hout]
    exact hcount.heldBelow_eq hp
  · rw [hcount.mem_evictable]
    exact and_congr_right fun hp => not_congr (hsame p hp)

/-- A page that goes out of reach by its owners alone leaves its parent's
count one short. -/
theorem Counted.hold (ht : ix.Tree born) (hcount : ix.Counted owners) {page : Page}
    (hbelow : ix.heldBelow page = 0) (hold : owners page ≤ 1) (hnew : owners' page > 1)
    (hsame : ∀ y, y ≠ page → owners' y = owners y) (tk : ℕ) :
    { ix with taken := tk, evictable := ix.evictable.erase page }.CountedBut owners'
      (ix.parent page) 1 := by
  have hin : ¬ix.OutOfReach owners page := by
    simp only [OutOfReach]
    omega
  have hout : ix.OutOfReach owners' page := Or.inl hnew
  have hstand : ∀ y, y ≠ page → (ix.OutOfReach owners y ↔ ix.OutOfReach owners' y) := by
    intro y hy
    simp [OutOfReach, hsame y hy]
  refine ⟨fun {p} hp => ?_, hcount.nonneg, fun p => ?_⟩
  · have hgain : (ix.outBelow owners' p : ℤ) =
        ix.outBelow owners p + if ix.parent page = some p then 1 else 0 :=
      ht.outBelow_gain hin hout hstand p
    change ix.heldBelow p + _ = (ix.outBelow owners' p : ℤ)
    rw [hgain, hcount.heldBelow_eq_outBelow hp]
  · change p ∈ ix.evictable.erase page ↔ (ix.key p).isSome ∧ ¬ix.OutOfReach owners' p
    rw [Finset.mem_erase, hcount.mem_evictable]
    by_cases hp : p = page
    · subst hp
      simp [hout]
    · simp [hp, hstand p hp]

/-- A page that comes within reach by its owners alone leaves its parent's
count one over. -/
theorem Counted.letGo (ht : ix.Tree born) (hcount : ix.Counted owners) {page : Page}
    (hkey : (ix.key page).isSome) (hbelow : ix.heldBelow page = 0) (hold : owners page > 1)
    (hnew : owners' page ≤ 1) (hsame : ∀ y, y ≠ page → owners' y = owners y) :
    { ix with evictable := insert page ix.evictable }.CountedBut owners'
      (ix.parent page) (-1) := by
  have hout : ix.OutOfReach owners page := Or.inl hold
  have hin : ¬ix.OutOfReach owners' page := by
    simp only [OutOfReach]
    omega
  have hstand : ∀ y, y ≠ page → (ix.OutOfReach owners' y ↔ ix.OutOfReach owners y) := by
    intro y hy
    simp [OutOfReach, hsame y hy]
  refine ⟨fun {p} hp => ?_, hcount.nonneg, fun p => ?_⟩
  · have hgain : (ix.outBelow owners p : ℤ) =
        ix.outBelow owners' p + if ix.parent page = some p then 1 else 0 :=
      ht.outBelow_gain hin hout hstand p
    change ix.heldBelow p + _ = (ix.outBelow owners' p : ℤ)
    rw [hcount.heldBelow_eq_outBelow hp, hgain]
    split <;> omega
  · change p ∈ insert page ix.evictable ↔ (ix.key p).isSome ∧ ¬ix.OutOfReach owners' p
    rw [Finset.mem_insert, hcount.mem_evictable]
    by_cases hp : p = page
    · subst hp
      simp [hin, hkey]
    · simp [hp, hstand p hp]

/-- A page that is not indexed, or is pinned from below, keeps its standing
whatever its owners. -/
theorem Counted.setShared_skip (ht : ix.Tree born) (hcount : ix.Counted owners) {page : Page}
    (hskip : (ix.key page).isNone ∨ ix.heldBelow page ≠ 0)
    (hsame : ∀ y, y ≠ page → owners' y = owners y) : ix.Counted owners' := by
  refine hcount.congr ht fun y hy => ?_
  by_cases hyp : y = page
  · subst hyp
    rcases hskip with h | h
    · simp [Option.isNone_iff_eq_none.1 h] at hy
    · exact iff_of_true (Or.inr h) (Or.inr h)
  · simp [OutOfReach, hsame y hyp]

/-- Reporting a page's second owner settles the counts for the new owners. -/
theorem Counted.setShared_true (ht : ix.Tree born) (hcount : ix.Counted owners) {page : Page}
    (hold : owners page ≤ 1) (hnew : owners' page > 1)
    (hsame : ∀ y, y ≠ page → owners' y = owners y) :
    ∃ ix', ix.setShared owners' page true = .ok ix' ∧ ix.Remarked ix' ∧ ix'.Counted owners' := by
  unfold setShared
  by_cases hskip : (ix.key page).isNone ∨ ix.heldBelow page ≠ 0
  · rw [if_pos hskip]
    exact ⟨ix, rfl, .refl ix, hcount.setShared_skip ht hskip hsame⟩
  · rw [if_neg hskip]
    push Not at hskip
    have hnext := hcount.hold ht hskip.2 hold hnew hsame (ix.taken + 1)
    have htaken : { ix with taken := ix.taken + 1, evictable := ix.evictable.erase page }.Tree born :=
      ⟨ht.1, ht.2, ht.3, ht.4, ht.5⟩
    obtain ⟨hb, ev, heq, hdone⟩ :=
      pinAbove_counts htaken ix.clock (ix.parent page) (fun _ => ht.parent_bound) hnext
    exact ⟨_, heq, ⟨_, _, _, rfl⟩, hdone⟩

/-- Reporting that only the index is left settles the counts for the new
owners. -/
theorem Counted.setShared_false (ht : ix.Tree born) (hcount : ix.Counted owners) {page : Page}
    (hold : owners page > 1) (hnew : owners' page ≤ 1)
    (hsame : ∀ y, y ≠ page → owners' y = owners y) :
    ∃ ix', ix.setShared owners' page false = .ok ix' ∧ ix.Remarked ix' ∧ ix'.Counted owners' := by
  unfold setShared
  by_cases hskip : (ix.key page).isNone ∨ ix.heldBelow page ≠ 0
  · rw [if_pos hskip]
    exact ⟨ix, rfl, .refl ix, hcount.setShared_skip ht hskip hsame⟩
  · rw [if_neg hskip]
    push Not at hskip
    have hkey : (ix.key page).isSome := by simpa [Option.isSome_iff_ne_none] using hskip.1
    have hnext := hcount.letGo ht hkey hskip.2 hold hnew hsame
    have hwith : { ix with evictable := insert page ix.evictable }.Tree born :=
      ⟨ht.1, ht.2, ht.3, ht.4, ht.5⟩
    obtain ⟨hb, ev, heq, hdone⟩ :=
      unpinAbove_counts hwith ix.clock (ix.parent page) (fun _ => ht.parent_bound) hnext
    exact ⟨_, heq, ⟨_, _, _, rfl⟩, hdone⟩

end PrefixIndex

namespace Pool

/-- What holds of a pool between calls: its index's tables are those of a
tree, with every count right for the arena's owners. -/
structure Sound (born : Page → ℕ) (s : Pool Key) : Prop where
  /-- Names and parents. -/
  tree : s.index.Tree born
  /-- Held-below counts and the evictable set. -/
  counted : s.index.Counted s.owners
  /-- Children counts. -/
  children : s.index.ChildrenCounted
  /-- The arena reports to the index. -/
  reports : s.arena.reports = true
  /-- The index holds a reference of every page it names. -/
  owned : ∀ p, (s.index.key p).isSome → 0 < s.owners p

/-- What holds of a pool between calls whether or not its arena reports to the
index: the held-below counts are kept only where it does. -/
structure Whole (born : Page → ℕ) (s : Pool Key) : Prop where
  /-- Names and parents. -/
  tree : s.index.Tree born
  /-- Children counts. -/
  children : s.index.ChildrenCounted
  /-- The index holds a reference of every page it names. -/
  owned : ∀ p, (s.index.key p).isSome → 0 < s.owners p
  /-- Held-below counts and the evictable set, where the arena reports. -/
  counted : s.arena.reports = true → s.index.Counted s.owners

/-- A call that moves owner counts and the marks that follow them, and
nothing else of the index. -/
structure Moves (s : Pool Key) (owners : Page → ℕ) (s' : Pool Key) : Prop where
  /-- The new owner counts. -/
  owners : s'.owners = owners
  /-- The index's other tables are kept. -/
  remarked : s.index.Remarked s'.index
  /-- The arena still reports. -/
  reports : s'.arena.reports = s.arena.reports

variable {born : Page → ℕ} {s : Pool Key}

/-- One owner more for pages that have some leaves as many pages without any. -/
theorem Moves.owners_zero {s' : Pool Key} {pages : List Page}
    (h : s.Moves (fun p => s.owners p + pages.count p) s') (hp : ∀ p ∈ pages, 0 < s.owners p)
    (p : Page) : s'.owners p = 0 ↔ s.owners p = 0 := by
  rw [h.owners]
  dsimp only
  by_cases hpm : p ∈ pages
  · have := hp p hpm
    omega
  · rw [List.count_eq_zero_of_not_mem hpm, Nat.add_zero]

/-- A sound pool is whole. -/
theorem Sound.whole (h : s.Sound born) : s.Whole born :=
  ⟨h.tree, h.children, h.owned, fun _ => h.counted⟩

/-- A whole pool whose arena reports is sound. -/
theorem Whole.sound (h : s.Whole born) (hrep : s.arena.reports = true) : s.Sound born :=
  ⟨h.tree, h.counted hrep, h.children, hrep, h.owned⟩

/-- A pool whose arena reports nothing stays whole through a call that leaves
the index its references. -/
theorem Whole.moves (h : s.Whole born) (hrep : s.arena.reports = false) {owners : Page → ℕ}
    {s' : Pool Key} (hm : s.Moves owners s')
    (howned : ∀ p, (s.index.key p).isSome → 0 < owners p) : s'.Whole born := by
  obtain ⟨rfl, hr, hsame⟩ := hm
  refine ⟨hr.tree h.tree, ?_, ?_, fun hon => ?_⟩
  · obtain ⟨_, _, _, heq⟩ := hr
    rw [heq]
    exact h.children
  · obtain ⟨_, _, _, heq⟩ := hr
    rw [heq]
    exact howned
  · rw [hsame, hrep] at hon
    cases hon

/-- A sound pool stays sound through a call that keeps the counts right and
leaves the index its references. -/
theorem Sound.moves (h : s.Sound born) {owners : Page → ℕ} {s' : Pool Key}
    (hm : s.Moves owners s') (hcount : s'.index.Counted owners)
    (howned : ∀ p, (s.index.key p).isSome → 0 < owners p) : s'.Sound born := by
  obtain ⟨rfl, hr, hrep⟩ := hm
  refine ⟨hr.tree h.tree, hcount, ?_, hrep.trans h.reports, ?_⟩
  all_goals obtain ⟨_, _, _, heq⟩ := hr
  · rw [heq]
    exact h.children
  · rw [heq]
    exact howned

/-- One page's owner count set. -/
theorem owners_setOwners (s : Pool Key) (page : Page) (n : ℕ) :
    (s.setOwners page n).owners = fun p => if p = page then n else s.owners p := rfl

/-- One more owner of one page. -/
theorem Sound.retainOne (h : s.Sound born) (page : Page) :
    ∃ s', s.retainOne page = .ok s' ∧ s'.Sound born ∧ s'.arena.free = s.arena.free ∧
      s.Moves (fun p => if p = page then s.owners page + 1 else s.owners p) s' := by
  have howned : ∀ p, (s.index.key p).isSome →
      0 < if p = page then s.owners page + 1 else s.owners p := by
    intro p hp
    have := h.owned p hp
    split <;> omega
  unfold Pool.retainOne
  dsimp only
  have hval : (s.setOwners page (s.owners page + 1)).owners page = s.owners page + 1 := by
    simp [owners_setOwners]
  rw [hval]
  by_cases htwo : s.owners page + 1 = 2 ∧ (s.setOwners page (s.owners page + 1)).arena.reports
  · rw [if_pos htwo]
    have hsame : ∀ y, y ≠ page →
        (if y = page then s.owners page + 1 else s.owners y) = s.owners y := fun y hy => if_neg hy
    obtain ⟨ix', heq, hr, hdone⟩ :=
      h.counted.setShared_true h.tree (by omega) (by simp; omega) hsame
    have hm : s.Moves (fun p => if p = page then s.owners page + 1 else s.owners p)
        { s.setOwners page (s.owners page + 1) with index := ix' } := ⟨rfl, hr, rfl⟩
    refine ⟨_, ?_, h.moves hm hdone howned, rfl, hm⟩
    unfold Pool.setShared
    rw [owners_setOwners]
    simp only [setOwners]
    rw [heq]
    rfl
  · rw [if_neg htwo]
    have hm : s.Moves (fun p => if p = page then s.owners page + 1 else s.owners p)
        (s.setOwners page (s.owners page + 1)) := ⟨rfl, .refl _, rfl⟩
    refine ⟨_, rfl, h.moves hm ?_ howned, rfl, hm⟩
    refine h.counted.congr h.tree fun y hy => ?_
    by_cases hyp : y = page
    · subst hyp
      have hpos := h.owned y hy
      have hrep : s.arena.reports = true := h.reports
      have hne : s.owners y + 1 ≠ 2 := fun h2 => htwo ⟨h2, hrep⟩
      simp only [PrefixIndex.OutOfReach, if_true]
      omega
    · simp [PrefixIndex.OutOfReach, hyp]

/-- One more owner of one page, whether or not that is reported. -/
theorem Whole.retainOne (h : s.Whole born) (page : Page) :
    ∃ s', s.retainOne page = .ok s' ∧ s'.Whole born ∧ s'.arena.free = s.arena.free ∧
      s.Moves (fun p => if p = page then s.owners page + 1 else s.owners p) s' := by
  by_cases hrep : s.arena.reports = true
  · obtain ⟨s', heq, hs, hfree, hm⟩ := (h.sound hrep).retainOne page
    exact ⟨s', heq, hs.whole, hfree, hm⟩
  · have hm : s.Moves (fun p => if p = page then s.owners page + 1 else s.owners p)
        (s.setOwners page (s.owners page + 1)) := ⟨rfl, .refl _, rfl⟩
    refine ⟨_, ?_, h.moves (Bool.eq_false_iff.2 hrep) hm fun p hp => ?_, rfl, hm⟩
    · unfold Pool.retainOne
      dsimp only
      exact if_neg fun hboth => hrep hboth.2
    · have := h.owned p hp
      split <;> omega

/-- Two calls in a row. -/
theorem Moves.trans {o₁ o₂ : Page → ℕ} {s₁ s₂ : Pool Key} (h : s.Moves o₁ s₁)
    (h' : s₁.Moves o₂ s₂) : s.Moves o₂ s₂ :=
  ⟨h'.owners, h.remarked.trans h'.remarked, h'.reports.trans h.reports⟩

/-- The pages with a key are kept. -/
theorem Moves.key {owners : Page → ℕ} {s' : Pool Key} (h : s.Moves owners s') :
    s'.index.key = s.index.key := by
  obtain ⟨_, _, _, heq⟩ := h.remarked
  rw [heq]

/-- One more owner for each page of a list. -/
theorem Whole.retain (h : s.Whole born) (pages : List Page) :
    ∃ s', s.retain pages = .ok s' ∧ s'.Whole born ∧ s'.arena.free = s.arena.free ∧
      s.Moves (fun p => s.owners p + pages.count p) s' := by
  induction pages generalizing s with
  | nil => exact ⟨s, rfl, h, rfl, ⟨by simp, .refl _, rfl⟩⟩
  | cons page pages ih =>
    obtain ⟨s₁, heq₁, h₁, hfree₁, hm₁⟩ := h.retainOne page
    obtain ⟨s₂, heq₂, h₂, hfree₂, hm₂⟩ := ih h₁
    have hm := hm₁.trans hm₂
    refine ⟨s₂, ?_, h₂, hfree₂.trans hfree₁, ?_⟩
    · unfold Pool.retain
      rw [heq₁]
      exact heq₂
    · convert hm using 2 with p
      rw [hm₁.owners, List.count_cons]
      by_cases hp : p = page
      · subst hp
        simp
        omega
      · simp [hp, Ne.symm hp]

/-- One more owner for each page of a list, every second owner reported. -/
theorem Sound.retain (h : s.Sound born) (pages : List Page) :
    ∃ s', s.retain pages = .ok s' ∧ s'.Sound born ∧ s'.arena.free = s.arena.free ∧
      s.Moves (fun p => s.owners p + pages.count p) s' := by
  obtain ⟨s', heq, hs, hfree, hm⟩ := h.whole.retain pages
  exact ⟨s', heq, hs.sound (hm.reports.trans h.reports), hfree, hm⟩

/-- One owner fewer for a page that somebody besides the index holds. -/
theorem Sound.releaseOne (h : s.Sound born) {page : Page} (hpos : 0 < s.owners page)
    (hheld : (s.index.key page).isSome → 1 < s.owners page) :
    ∃ s', s.releaseOne page = .ok (decide (s.owners page = 1), s') ∧ s'.Sound born ∧
      s'.arena.free = s.arena.free ∧
      s.Moves (fun p => if p = page then s.owners page - 1 else s.owners p) s' := by
  have howned : ∀ p, (s.index.key p).isSome →
      0 < if p = page then s.owners page - 1 else s.owners p := by
    intro p hp
    by_cases hpp : p = page
    · subst hpp
      have := hheld hp
      rw [if_pos rfl]
      omega
    · rw [if_neg hpp]
      exact h.owned p hp
  unfold Pool.releaseOne
  rw [if_neg (by omega)]
  dsimp only
  have hval : (s.setOwners page (s.owners page - 1)).owners page = s.owners page - 1 := by
    simp [owners_setOwners]
  rw [hval]
  by_cases hlast : s.owners page = 1
  · rw [if_pos (by omega)]
    have hkey : ¬(s.index.key page).isSome := by
      intro hk
      have := hheld hk
      omega
    have hm : s.Moves (fun p => if p = page then s.owners page - 1 else s.owners p)
        { s.setOwners page (s.owners page - 1) with
          arena := { (s.setOwners page (s.owners page - 1)).arena with
            «sealed» := fun p => if p = page then false else s.arena.sealed p } } :=
      ⟨rfl, .refl _, rfl⟩
    refine ⟨_, ?_, h.moves hm ?_ howned, rfl, hm⟩
    · simp [hlast, setOwners]
    · refine h.counted.congr h.tree fun y hy => ?_
      have hyp : y ≠ page := by
        rintro rfl
        exact hkey hy
      simp [PrefixIndex.OutOfReach, hyp]
  · rw [if_neg (by omega)]
    by_cases hone : s.owners page - 1 = 1 ∧ (s.setOwners page (s.owners page - 1)).arena.reports
    · rw [if_pos hone]
      have hsame : ∀ y, y ≠ page →
          (if y = page then s.owners page - 1 else s.owners y) = s.owners y := fun y hy => if_neg hy
      obtain ⟨ix', heq, hr, hdone⟩ :=
        h.counted.setShared_false h.tree (by omega) (by simp; omega) hsame
      have hm : s.Moves (fun p => if p = page then s.owners page - 1 else s.owners p)
          { s.setOwners page (s.owners page - 1) with index := ix' } := ⟨rfl, hr, rfl⟩
      refine ⟨_, ?_, h.moves hm hdone howned, rfl, hm⟩
      unfold Pool.setShared
      rw [owners_setOwners]
      simp only [setOwners]
      rw [heq]
      simp [hlast, bind, Except.bind, pure, Except.pure]
    · rw [if_neg hone]
      have hm : s.Moves (fun p => if p = page then s.owners page - 1 else s.owners p)
          (s.setOwners page (s.owners page - 1)) := ⟨rfl, .refl _, rfl⟩
      refine ⟨_, ?_, h.moves hm ?_ howned, rfl, hm⟩
      · simp [hlast]
      · refine h.counted.congr h.tree fun y hy => ?_
        by_cases hyp : y = page
        · subst hyp
          have hrep : s.arena.reports = true := h.reports
          have hne : s.owners y - 1 ≠ 1 := fun h2 => hone ⟨h2, hrep⟩
          simp only [PrefixIndex.OutOfReach, if_true]
          omega
        · simp [PrefixIndex.OutOfReach, hyp]

/-- One owner fewer, whether or not that is reported. -/
theorem Whole.releaseOne (h : s.Whole born) {page : Page} (hpos : 0 < s.owners page)
    (hheld : (s.index.key page).isSome → 1 < s.owners page) :
    ∃ s', s.releaseOne page = .ok (decide (s.owners page = 1), s') ∧ s'.Whole born ∧
      s'.arena.free = s.arena.free ∧
      s.Moves (fun p => if p = page then s.owners page - 1 else s.owners p) s' := by
  by_cases hrep : s.arena.reports = true
  · obtain ⟨s', heq, hs, hfree, hm⟩ := (h.sound hrep).releaseOne hpos hheld
    exact ⟨s', heq, hs.whole, hfree, hm⟩
  · have howned : ∀ p, (s.index.key p).isSome →
        0 < if p = page then s.owners page - 1 else s.owners p := by
      intro p hp
      by_cases hpp : p = page
      · subst hpp
        have := hheld hp
        rw [if_pos rfl]
        omega
      · rw [if_neg hpp]
        exact h.owned p hp
    have hval : (s.setOwners page (s.owners page - 1)).owners page = s.owners page - 1 := by
      simp [owners_setOwners]
    have hoff : ¬(s.setOwners page (s.owners page - 1)).arena.reports = true := hrep
    unfold Pool.releaseOne
    rw [if_neg (by omega)]
    dsimp only
    rw [hval]
    by_cases hlast : s.owners page = 1
    · have hm : s.Moves (fun p => if p = page then s.owners page - 1 else s.owners p)
          { s.setOwners page (s.owners page - 1) with
            arena := { (s.setOwners page (s.owners page - 1)).arena with
              «sealed» := fun p => if p = page then false else s.arena.sealed p } } :=
        ⟨rfl, .refl _, rfl⟩
      refine ⟨_, ?_, h.moves (Bool.eq_false_iff.2 hrep) hm howned, rfl, hm⟩
      rw [if_pos (by omega)]
      simp [hlast, setOwners]
    · have hm : s.Moves (fun p => if p = page then s.owners page - 1 else s.owners p)
          (s.setOwners page (s.owners page - 1)) := ⟨rfl, .refl _, rfl⟩
      refine ⟨_, ?_, h.moves (Bool.eq_false_iff.2 hrep) hm howned, rfl, hm⟩
      rw [if_neg (by omega), if_neg fun hboth => hoff hboth.2]
      simp [hlast]

/-- One owner fewer for each page of a list whose references are held besides
the index's own. The pages left with none are freed, each once. -/
theorem Whole.releaseEach (h : s.Whole born) (freed pages : List Page)
    (hheld : ∀ p, pages.count p + (if (s.index.key p).isSome then 1 else 0) ≤ s.owners p) :
    ∃ gone s', s.releaseEach freed pages = .ok (freed ++ gone, s') ∧ s'.Whole born ∧
      s'.arena.free = s.arena.free ∧ s.Moves (fun p => s.owners p - pages.count p) s' ∧
      gone.Nodup ∧ ∀ p, p ∈ gone ↔ p ∈ pages ∧ s.owners p = pages.count p := by
  induction pages generalizing s freed with
  | nil => exact ⟨[], s, by simp [Pool.releaseEach], h, rfl, ⟨by simp, .refl _, rfl⟩, by simp⟩
  | cons page pages ih =>
    have hself := hheld page
    rw [List.count_cons_self] at hself
    have hpos : 0 < s.owners page := by omega
    obtain ⟨s₁, heq₁, h₁, hfree₁, hm₁⟩ :=
      h.releaseOne hpos fun hk => by rw [if_pos hk] at hself; omega
    have hheld₁ : ∀ p, pages.count p + (if (s₁.index.key p).isSome then 1 else 0) ≤
        s₁.owners p := by
      intro p
      rw [hm₁.owners, hm₁.key]
      have hp := hheld p
      rw [List.count_cons] at hp
      by_cases hpp : p = page
      · subst hpp
        simp only [beq_self_eq_true, if_true] at hp ⊢
        omega
      · simp only [beq_iff_eq, Ne.symm hpp, if_false, hpp] at hp ⊢
        omega
    obtain ⟨gone, s₂, heq₂, h₂, hfree₂, hm₂, hnodup, hgone⟩ :=
      ih h₁ (if decide (s.owners page = 1) then freed ++ [page] else freed) hheld₁
    have hcount : ∀ p, s₁.owners p - pages.count p = s.owners p - (page :: pages).count p := by
      intro p
      rw [hm₁.owners, List.count_cons]
      by_cases hpp : p = page
      · subst hpp
        simp only [beq_self_eq_true, if_true]
        omega
      · simp [hpp, Ne.symm hpp]
    have hother : ∀ p, p ≠ page → (p ∈ gone ↔
        p ∈ page :: pages ∧ s.owners p = (page :: pages).count p) := by
      intro p hpp
      rw [hgone, hm₁.owners, List.count_cons_of_ne (Ne.symm hpp), List.mem_cons]
      simp [hpp]
    have hown : s₁.owners page = s.owners page - 1 := by
      simp [hm₁.owners]
    refine ⟨(if s.owners page = 1 then [page] else []) ++ gone, s₂, ?_, h₂,
      hfree₂.trans hfree₁, (funext hcount) ▸ hm₁.trans hm₂, ?_, ?_⟩
    · unfold Pool.releaseEach
      rw [heq₁]
      simp only [bind, Except.bind]
      rw [heq₂]
      by_cases hlast : s.owners page = 1
      · simp [hlast]
      · simp [hlast]
    · by_cases hlast : s.owners page = 1
      · have hnot : page ∉ pages := List.count_eq_zero.1 (by omega)
        have hng : page ∉ gone := fun hg => hnot ((hgone page).1 hg).1
        simp [hlast, hng, hnodup]
      · simp [hlast, hnodup]
    · intro p
      by_cases hpp : p = page
      · subst hpp
        rw [List.mem_append, hgone, hown, List.count_cons_self]
        by_cases hlast : s.owners p = 1
        · have hzero : pages.count p = 0 := by omega
          simp [hlast, hzero]
        · have hmem : s.owners p = pages.count p + 1 → p ∈ pages := fun he =>
            List.count_pos_iff.1 (by omega)
          simp only [hlast, if_false, List.not_mem_nil, false_or, List.mem_cons, true_or, true_and]
          constructor
          · rintro ⟨_, he⟩
            omega
          · intro he
            exact ⟨hmem he, by omega⟩
      · rw [← hother p hpp]
        by_cases hlast : s.owners page = 1
        · simp [hlast, hpp]
        · simp [hlast]

/-- One owner fewer for each page of a list, and the ones left with none back
on the free list. -/
theorem Whole.release (h : s.Whole born) (pages : List Page)
    (hheld : ∀ p, pages.count p + (if (s.index.key p).isSome then 1 else 0) ≤ s.owners p) :
    ∃ gone s', s.release pages = .ok s' ∧ s'.Whole born ∧
      s'.arena.free = s.arena.free ++ gone ∧ s.Moves (fun p => s.owners p - pages.count p) s' ∧
      gone.Nodup ∧ ∀ p, p ∈ gone ↔ p ∈ pages ∧ s.owners p = pages.count p := by
  obtain ⟨gone, s₁, heq, h₁, hfree, hm, hgone⟩ := h.releaseEach [] pages hheld
  have hm' : s.Moves (fun p => s.owners p - pages.count p)
      { s₁ with arena := { s₁.arena with free := s₁.arena.free ++ gone } } :=
    ⟨hm.owners, hm.remarked, hm.reports⟩
  refine ⟨gone, { s₁ with arena := { s₁.arena with free := s₁.arena.free ++ gone } }, ?_,
    ⟨h₁.tree, h₁.children, h₁.owned, h₁.counted⟩, ?_, hm', hgone⟩
  · unfold Pool.release
    rw [heq]
    rfl
  · change s₁.arena.free ++ gone = _
    rw [hfree]

/-- One owner fewer for each page of a list, every last but one reported. -/
theorem Sound.release (h : s.Sound born) (pages : List Page)
    (hheld : ∀ p, pages.count p + (if (s.index.key p).isSome then 1 else 0) ≤ s.owners p) :
    ∃ gone s', s.release pages = .ok s' ∧ s'.Sound born ∧
      s'.arena.free = s.arena.free ++ gone ∧ s.Moves (fun p => s.owners p - pages.count p) s' ∧
      gone.Nodup ∧ ∀ p, p ∈ gone ↔ p ∈ pages ∧ s.owners p = pages.count p := by
  obtain ⟨gone, s', heq, hs, hfree, hm, hgone⟩ := h.whole.release pages hheld
  exact ⟨gone, s', heq, hs.sound (hm.reports.trans h.reports), hfree, hm, hgone⟩

end Pool

end Mstar
