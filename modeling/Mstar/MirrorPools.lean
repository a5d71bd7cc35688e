import Mstar.EvictableSet

/-!
# Mirrored pools

A replica's pool as the conductor mirrors it: the worker's own arena and index,
with no storage behind them, over a free list that is taken from at its end and
never holds the sink page. Every call on it returns where the mirror makes it,
and keeps every page free without an owner or owned by the index and by whoever
lists it.
-/

namespace Mstar

variable {Key : Type} [DecidableEq Key]

/-- `acquire` from `_FreePages`: the last pages of the free list, each with one
owner, or `none` when there are fewer. -/
def Arena.acquireLast (a : Arena) (n : ℕ) : Option (List Page × Arena) :=
  if n ≤ a.free.length then
    let pages := a.free.drop (a.free.length - n)
    some (pages, { a with
      free := a.free.take (a.free.length - n)
      numOwners := fun p => if p ∈ pages then 1 else a.numOwners p })
  else none

namespace Pool

/-- A replica's pool before any request: all but the sink page is free. -/
def mirrored (n : ℕ) : Pool Key where
  arena := ⟨List.range' 1 (n - 1), fun _ => 0, fun _ => false, true⟩
  index := .empty

/-- What holds of a mirrored pool between any two calls. `listed` counts the
references to each page besides the index's own. -/
structure Mirrors (n : ℕ) (listed : Page → ℕ) (s : Pool Key) : Prop where
  /-- The index's tables and counts are right. -/
  sound : ∃ born, s.Sound born
  /-- Every leaf is in the heap. -/
  queued : s.index.Queued []
  /-- Every owner is the index or listed. -/
  owners_eq : ∀ p, s.owners p = (if (s.index.key p).isSome then 1 else 0) + listed p
  /-- No page is free twice. -/
  free_nodup : s.arena.free.Nodup
  /-- The free pages are those without an owner, but for the sink. -/
  mem_free : ∀ p : ℕ, p ∈ s.arena.free ↔ 0 < p ∧ p < n ∧ s.owners p = 0
  /-- Only the pool's pages have owners, and the sink has none. -/
  owned : ∀ p : ℕ, 0 < s.owners p → 0 < p ∧ p < n

/-- A replica's pool before any request. -/
theorem mirrors_mirrored (n : ℕ) : (mirrored n : Pool Key).Mirrors n fun _ => 0 := by
  have hinv : (PoolWorld.fresh n : PoolWorld Key).Inv .mirror n fun _ => 0 :=
    PoolWorld.inv_fresh .mirror n
  have h := hinv.sound
  constructor
  · exact ⟨fun _ => 0, h.tree, h.counted, h.children, rfl, h.owned⟩
  · exact hinv.queued
  · intro p
    rfl
  · exact List.nodup_range'
  · intro p
    change p ∈ List.range' 1 (n - 1) ↔ 0 < p ∧ p < n ∧ 0 = 0
    rw [List.mem_range'_1, and_iff_left rfl]
    omega
  · intro p hp
    exact absurd hp (Nat.lt_irrefl 0)

namespace Mirrors

variable {n : ℕ} {listed : Page → ℕ} {s : Pool Key}

/-- A page that is listed has an owner. -/
theorem owners_pos (h : s.Mirrors n listed) {p : Page} (hp : 0 < listed p) : 0 < s.owners p := by
  have := h.owners_eq p
  omega

/-- A hit. -/
theorem touch (h : s.Mirrors n listed) (pages : List Page) :
    ({ s with index := s.index.touch pages } : Pool Key).Mirrors n listed ∧
      (s.index.touch pages).key = s.index.key ∧ (s.index.touch pages).byKey = s.index.byKey := by
  obtain ⟨born, hs⟩ := h.sound
  have ht := hs.tree.touch pages
  obtain ⟨cl, st, heq⟩ := s.index.touch_eq pages
  rw [heq] at ht ⊢
  refine ⟨⟨⟨born, ht, ?_, hs.children, hs.reports, hs.owned⟩, h.queued, h.owners_eq, h.free_nodup,
    h.mem_free, h.owned⟩, rfl, rfl⟩
  exact ⟨hs.counted.1, hs.counted.2, hs.counted.3⟩

/-- As many pages as are free, or fewer, are taken from the end of the free
list. None of them is indexed. -/
theorem acquireLast (h : s.Mirrors n listed) {k : ℕ} (hk : k ≤ s.arena.free.length) :
    ∃ own arena, s.arena.acquireLast k = some (own, arena) ∧ own.length = k ∧ own.Nodup ∧
      (∀ p ∈ own, s.index.key p = none) ∧
      ({ s with arena := arena } : Pool Key).Mirrors n fun p => listed p + own.count p := by
  obtain ⟨born, hs⟩ := h.sound
  have hfree : ∀ p ∈ s.arena.free.drop (s.arena.free.length - k),
      (0 < p ∧ p < n) ∧ s.owners p = 0 := by
    intro p hp
    have := (h.mem_free p).1 (List.mem_of_mem_drop hp)
    exact ⟨⟨this.1, this.2.1⟩, this.2.2⟩
  have hkey : ∀ p ∈ s.arena.free.drop (s.arena.free.length - k), s.index.key p = none := by
    intro p hp
    by_contra hsome
    have := hs.owned p (Option.isSome_iff_ne_none.2 hsome)
    have := (hfree p hp).2
    omega
  have hnodup : (s.arena.free.drop (s.arena.free.length - k)).Nodup :=
    h.free_nodup.sublist (List.drop_sublist _ _)
  refine ⟨_, _, if_pos hk, ?_, hnodup, hkey, ?_⟩
  · rw [List.length_drop]
    omega
  constructor
  · refine ⟨born, hs.tree, ?_, hs.children, hs.reports, fun p hp => ?_⟩
    · refine hs.counted.congr hs.tree fun y hy => ?_
      have hnot : y ∉ s.arena.free.drop (s.arena.free.length - k) := by
        intro hmem
        rw [hkey y hmem] at hy
        cases hy
      simp [PrefixIndex.OutOfReach, Pool.owners, hnot]
    · change 0 < if _ then _ else _
      split
      · exact Nat.one_pos
      · exact hs.owned p hp
  · exact h.queued
  · intro p
    change (if p ∈ s.arena.free.drop (s.arena.free.length - k) then 1 else s.owners p) = _
    by_cases hp : p ∈ s.arena.free.drop (s.arena.free.length - k)
    · have hnone := hkey p hp
      have hzero := (hfree p hp).2
      have hold := h.owners_eq p
      rw [hnone] at hold
      rw [if_pos hp, List.count_eq_one_of_mem hnodup hp, hnone]
      simp only [Option.isSome_none, Bool.false_eq_true, if_false] at hold ⊢
      omega
    · rw [if_neg hp, List.count_eq_zero_of_not_mem hp]
      exact h.owners_eq p
  · exact h.free_nodup.sublist (List.take_sublist _ _)
  · intro p
    change p ∈ s.arena.free.take (s.arena.free.length - k) ↔ 0 < p ∧ p < n ∧
      (if p ∈ s.arena.free.drop (s.arena.free.length - k) then 1 else s.owners p) = 0
    have hsplit := h.free_nodup
    rw [← List.take_append_drop (s.arena.free.length - k) s.arena.free] at hsplit
    have happart := (List.nodup_append.1 hsplit).2.2
    have hmem : p ∈ s.arena.free ↔ p ∈ s.arena.free.take (s.arena.free.length - k) ∨
        p ∈ s.arena.free.drop (s.arena.free.length - k) := by
      conv_lhs => rw [← List.take_append_drop (s.arena.free.length - k) s.arena.free]
      exact List.mem_append
    by_cases hp : p ∈ s.arena.free.drop (s.arena.free.length - k)
    · rw [if_pos hp]
      refine iff_of_false (fun ht => happart p ht p hp rfl) ?_
      omega
    · rw [if_neg hp, ← h.mem_free, hmem]
      simp [hp]
  · intro p hpos
    change 0 < if p ∈ s.arena.free.drop (s.arena.free.length - k) then 1 else s.owners p at hpos
    by_cases hp : p ∈ s.arena.free.drop (s.arena.free.length - k)
    · exact (hfree p hp).1
    · rw [if_neg hp] at hpos
      exact h.owned p hpos

/-- Pages that somebody has are retained, and listed once more. -/
theorem retain (h : s.Mirrors n listed) {pages : List Page} (hp : ∀ p ∈ pages, 0 < s.owners p) :
    ∃ s', s.retain pages = .ok s' ∧ (s'.Mirrors n fun p => listed p + pages.count p) ∧
      s'.index.key = s.index.key := by
  obtain ⟨born, hs⟩ := h.sound
  obtain ⟨s', heq, hs', hfree, hm⟩ := hs.retain pages
  have howners : ∀ p, s'.owners p = s.owners p + pages.count p := fun p => by rw [hm.owners]
  have hzero := hm.owners_zero hp
  refine ⟨s', heq, ⟨⟨born, hs'⟩, hm.remarked.queued h.queued, fun p => ?_, hfree ▸ h.free_nodup,
    fun p => ?_, fun p hpos => ?_⟩, hm.key⟩
  · rw [howners, hm.key, h.owners_eq]
    omega
  · rw [hfree, hzero]
    exact h.mem_free p
  · refine h.owned p ?_
    have := hzero p
    omega

/-- Listed references are released. The pages left without an owner are free
again. -/
theorem release (h : s.Mirrors n listed) {pages : List Page}
    (hp : ∀ p, pages.count p ≤ listed p) :
    ∃ s', s.release pages = .ok s' ∧ (s'.Mirrors n fun p => listed p - pages.count p) ∧
      s'.index.key = s.index.key := by
  obtain ⟨born, hs⟩ := h.sound
  have hheld : ∀ p, pages.count p + (if (s.index.key p).isSome then 1 else 0) ≤ s.owners p := by
    intro p
    have := h.owners_eq p
    have := hp p
    omega
  obtain ⟨gone, s', heq, hs', hfree, hm, hnodup, hgone⟩ := hs.release pages hheld
  have howners : ∀ p, s'.owners p = s.owners p - pages.count p := fun p => by rw [hm.owners]
  refine ⟨s', heq, ⟨⟨born, hs'⟩, hm.remarked.queued h.queued, fun p => ?_, ?_, fun p => ?_,
    fun p hpos => ?_⟩, hm.key⟩
  · rw [howners, hm.key]
    have := h.owners_eq p
    have := hp p
    omega
  · rw [hfree]
    refine List.nodup_append.2 ⟨h.free_nodup, hnodup, ?_⟩
    rintro p hpf q hq rfl
    obtain ⟨hpm, hone⟩ := (hgone p).1 hq
    have := List.count_pos_iff.2 hpm
    have := ((h.mem_free p).1 hpf).2.2
    omega
  · rw [hfree, List.mem_append, h.mem_free, hgone, howners]
    by_cases hpm : p ∈ pages
    · have hpos := List.count_pos_iff.2 hpm
      have hle := hheld p
      have hin := h.owned p (hpos.trans_le ((Nat.le_add_right _ _).trans hle))
      have hiff : s.owners p = pages.count p ↔ s.owners p - pages.count p = 0 := by omega
      simp only [hpm, hin, true_and, hiff]
      omega
    · rw [List.count_eq_zero_of_not_mem hpm]
      simp [hpm]
  · refine h.owned p ?_
    have := howners p
    omega

/-- Pages that only the index held go from it to the free list. -/
theorem evicted (h : s.Mirrors n listed) {pages : List Page} {s' : Pool Key}
    (hs : ∃ born, s'.Sound born) (hq : s'.index.Queued []) (he : s.Evicted pages s')
    (hnodup : pages.Nodup) (hone : ∀ p ∈ pages, (s.index.key p).isSome ∧ s.owners p = 1) :
    s'.Mirrors n listed := by
  have hunlisted : ∀ p ∈ pages, listed p = 0 := by
    intro p hp
    have hold := h.owners_eq p
    rw [if_pos (hone p hp).1, (hone p hp).2] at hold
    omega
  refine ⟨hs, hq, fun p => ?_, ?_, fun p => ?_, fun p hpos => ?_⟩
  · rw [he.owners, he.key]
    by_cases hp : p ∈ pages
    · simp [hp, hunlisted p hp]
    · simp only [hp, if_false]
      exact h.owners_eq p
  · rw [he.free]
    refine List.nodup_append.2 ⟨h.free_nodup, hnodup, ?_⟩
    rintro p hpf q hq rfl
    have := ((h.mem_free p).1 hpf).2.2
    have := (hone p hq).2
    omega
  · rw [he.free, List.mem_append, h.mem_free, he.owners]
    by_cases hp : p ∈ pages
    · have hin := h.owned p (by have := (hone p hp).2; omega)
      simp [hp, hin]
    · simp [hp]
  · rw [he.owners] at hpos
    by_cases hp : p ∈ pages
    · simp [hp] at hpos
    · rw [if_neg hp] at hpos
      exact h.owned p hpos

/-- Pages are evicted as far as there are evictable ones. What is listed stays
indexed. -/
theorem evict (h : s.Mirrors n listed) (k : ℕ) :
    ∃ keys s', s.evict k none = .ok (keys, s') ∧ s'.Mirrors n listed ∧
      (∀ p, 0 < listed p → s'.index.key p = s.index.key p) ∧
      ∀ p, (s'.index.key p).isSome → s'.index.key p = s.index.key p := by
  obtain ⟨born, hs⟩ := h.sound
  have hspare : (none : Option (Key → Bool)) ≠ none → False := fun hne => hne rfl
  obtain ⟨keys, s', pages, heq, hs', hq, -, he, -, hnodup, hsub, -⟩ :=
    hs.evict h.queued False.elim k hspare
  have hone : ∀ p ∈ pages, (s.index.key p).isSome ∧ s.owners p = 1 := by
    intro p hp
    obtain ⟨hkey, hin⟩ := (hs.counted.mem_evictable p).1 (hsub p hp)
    have hle : s.owners p ≤ 1 := not_lt.1 fun hgt => hin (Or.inl hgt)
    have hpos := hs.owned p hkey
    exact ⟨hkey, by omega⟩
  refine ⟨keys, s', heq, h.evicted ⟨born, hs'⟩ hq he hnodup hone, fun p hp => ?_, fun p hp => ?_⟩
  · rw [he.key, if_neg]
    intro hmem
    have hold := h.owners_eq p
    rw [if_pos (hone p hmem).1, (hone p hmem).2] at hold
    omega
  · rw [he.key] at hp ⊢
    by_cases hmem : p ∈ pages
    · rw [if_pos hmem] at hp
      cases hp
    · rw [if_neg hmem]

/-- The entries that are dropped are given ones whose key still names their
page. -/
theorem dropEach (h : s.Mirrors n listed) (entries : List (Key × Page)) :
    ∃ s', s.dropEach entries = .ok s' ∧ s'.Mirrors n listed ∧
      ∀ p, s'.index.key p = s.index.key p ∨
        s'.index.key p = none ∧ ∃ key, (key, p) ∈ entries ∧ s.index.key p = some key := by
  induction entries generalizing s with
  | nil => exact ⟨s, rfl, h, fun p => Or.inl rfl⟩
  | cons entry entries ih =>
    obtain ⟨key, page⟩ := entry
    unfold Pool.dropEach
    split
    · rename_i hdrop
      obtain ⟨hname, hzero, howner⟩ := hdrop
      obtain ⟨born, hs⟩ := h.sound
      have hkey := (hs.tree.names key page).1 hname
      have hleaf : s.index.Leaf page := ⟨by rw [hkey]; rfl, hzero⟩
      have hnone : s.Evicted [] s := ⟨by simp, by simp, by simp, by simp⟩
      have he : s.Evicted [page] (s.without key page) := Eviction.evicted_without hnone key page
      have hone : ∀ p ∈ [page], (s.index.key p).isSome ∧ s.owners p = 1 := by
        intro p hp
        obtain rfl := List.mem_singleton.1 hp
        exact ⟨hleaf.1, howner⟩
      have hnext := h.evicted ⟨born, hs.without hkey hleaf howner.le⟩
        (Pool.queued_without fun p hp _ => h.queued p hp) he (List.nodup_singleton page) hone
      rw [Pool.remove_eq hkey hname howner]
      obtain ⟨s', heq, hs', hkeys⟩ := ih hnext
      refine ⟨s', heq, hs', fun p => ?_⟩
      have hwithout := he.key p
      by_cases hp : p = page
      · subst hp
        rw [if_pos (List.mem_singleton_self p)] at hwithout
        rcases hkeys p with hsame | ⟨hgone, -⟩
        · exact Or.inr ⟨hsame.trans hwithout, key, List.mem_cons_self .., hkey⟩
        · exact Or.inr ⟨hgone, key, List.mem_cons_self .., hkey⟩
      · rw [if_neg fun hmem => hp (List.mem_singleton.1 hmem)] at hwithout
        rcases hkeys p with hsame | ⟨hgone, other, hmem, hother⟩
        · exact Or.inl (hsame.trans hwithout)
        · exact Or.inr ⟨hgone, other, List.mem_cons_of_mem _ hmem, hwithout.symm.trans hother⟩
    · obtain ⟨s', heq, hs', hkeys⟩ := ih h
      refine ⟨s', heq, hs', fun p => ?_⟩
      rcases hkeys p with hsame | ⟨hgone, other, hmem, hother⟩
      · exact Or.inl hsame
      · exact Or.inr ⟨hgone, other, List.mem_cons_of_mem _ hmem, hother⟩

/-- A page that is listed and not indexed is filed under a parent that is
indexed, unless its key is taken. -/
theorem insert (h : s.Mirrors n listed) {page : Page} (hlisted : 0 < listed page)
    (hnone : s.index.key page = none) {parent : Option Page}
    (hparent : ∀ q, parent = some q → (s.index.key q).isSome) (key : Key) :
    ∃ filed s', s.insert key page parent = .ok (filed, s') ∧ s'.Mirrors n listed ∧
      ∀ p, s'.index.key p = if p = page ∧ filed = true then some key else s.index.key p := by
  obtain ⟨born, hs⟩ := h.sound
  have hone := h.owners_pos hlisted
  have hasked := s.parent_filed hparent
  cases hkey : s.index.byKey.lookup key with
  | some other =>
    refine ⟨false, s, ?_, h, fun p => by simp⟩
    unfold Pool.insert
    rw [if_neg hasked, hkey]
    rfl
  | none =>
    have hpar : ∀ q, s.filingParent parent = some q → (s.index.key q).isSome :=
      fun q hq => hparent q (filingParent_eq hq)
    have hsame : ∀ y, y ≠ page →
        (if y = page then s.owners page + 1 else s.owners y) = s.owners y := fun y hy => if_neg hy
    obtain ⟨ix, hset, hr, hcount⟩ :=
      hs.counted.setShared_file hs.tree hkey hnone hpar (by simp; omega) hsame
    have hw := hs.whole.filed hkey hnone hpar hr fun _ => hcount
    have hkeys : ∀ p, (s.filed page ix (s.filingParent parent)).index.key p =
        if p = page then some key else s.index.key p := by
      intro p
      obtain ⟨_, hadopt⟩ := ix.adopt_eq page (s.filingParent parent)
      change (ix.adopt page (s.filingParent parent)).key p = _
      rw [hadopt]
      obtain ⟨_, _, _, rfl⟩ := hr
      rfl
    have howners : ∀ p, (s.filed page ix (s.filingParent parent)).owners p =
        if p = page then s.owners page + 1 else s.owners p := fun _ => rfl
    refine ⟨true, _, insert_of_setShared hs.reports hparent hkey hnone hone hset,
      ⟨⟨_, hw.sound hs.reports⟩, hs.whole.queued_filed hr h.queued, fun p => ?_, h.free_nodup,
        fun p => ?_, fun p hpos => ?_⟩, fun p => ?_⟩
    · have hold := h.owners_eq p
      change (s.filed page ix (s.filingParent parent)).owners p =
        (if ((s.filed page ix (s.filingParent parent)).index.key p).isSome then 1 else 0) + listed p
      rw [howners, hkeys]
      by_cases hp : p = page
      · subst hp
        rw [hnone] at hold
        simp only [Option.isSome_none, Option.isSome_some, Bool.false_eq_true, if_false,
          if_true] at hold ⊢
        omega
      · rw [if_neg hp, if_neg hp]
        exact hold
    · refine (h.mem_free p).trans (and_congr_right fun _ => and_congr_right fun _ => ?_)
      change _ ↔ (s.filed page ix (s.filingParent parent)).owners p = 0
      rw [howners]
      by_cases hp : p = page
      · subst hp
        rw [if_pos rfl]
        omega
      · rw [if_neg hp]
    · change 0 < (s.filed page ix (s.filingParent parent)).owners p at hpos
      rw [howners] at hpos
      by_cases hp : p = page
      · exact hp ▸ h.owned page hone
      · rw [if_neg hp] at hpos
        exact h.owned p hpos
    · refine (hkeys p).trans ?_
      simp

end Mirrors

/-- A key that names no page is filed. -/
theorem insert_files {s s' : Pool Key} {key : Key} {page : Page} {parent : Option Page}
    {filed : Bool} (heq : s.insert key page parent = .ok (filed, s'))
    (hkey : s.index.byKey.lookup key = none) : filed = true := by
  unfold Pool.insert at heq
  rw [hkey] at heq
  split at heq
  · cases heq
  rw [if_neg (by simp)] at heq
  split at heq
  · cases heq
  simp only [bind, Except.bind] at heq
  split at heq
  · cases heq
  split at heq
  · split at heq
    · cases heq
    · cases heq
      rfl
  · cases heq
    rfl

/-- The entries filed on the way from one pool to another, by the calls a
mirror makes. -/
inductive Files (s : Pool Key) : List (Key × Page) → Pool Key → Prop
  | start : Files s [] s
  | file {entries : List (Key × Page)} {t u : Pool Key} {key : Key} {page : Page}
      {parent : Option Page} : Files s entries t → t.insert key page parent = .ok (true, u) →
      Files s (entries ++ [(key, page)]) u
  | taken {entries : List (Key × Page)} {t u : Pool Key} {key : Key} {page : Page}
      {parent : Option Page} : Files s entries t → t.insert key page parent = .ok (false, u) →
      Files s entries u
  | touch {entries : List (Key × Page)} {t : Pool Key} (pages : List Page) : Files s entries t →
      Files s entries { t with index := t.index.touch pages }
  | retain {entries : List (Key × Page)} {t u : Pool Key} {pages : List Page} :
      Files s entries t → t.retain pages = .ok u → Files s entries u
  | release {entries : List (Key × Page)} {t u : Pool Key} {pages : List Page} :
      Files s entries t → t.release pages = .ok u → Files s entries u
  | acquire {entries : List (Key × Page)} {t : Pool Key} {k : ℕ} {own : List Page}
      {arena : Arena} : Files s entries t → t.arena.acquireLast k = some (own, arena) →
      Files s entries { t with arena := arena }
  | evict {entries : List (Key × Page)} {t u : Pool Key} {k : ℕ} {keys : List Key} :
      Files s entries t → t.evict k none = .ok (keys, u) → Files s entries u

/-- One way after another. -/
theorem Files.trans {s t u : Pool Key} {entries entries' : List (Key × Page)}
    (h : s.Files entries t) (h' : t.Files entries' u) : s.Files (entries ++ entries') u := by
  induction h' with
  | start => simpa using h
  | file _ heq ih =>
    rw [← List.append_assoc]
    exact ih.file heq
  | taken _ heq ih => exact ih.taken heq
  | touch pages _ ih => exact ih.touch pages
  | retain _ heq ih => exact ih.retain heq
  | release _ heq ih => exact ih.release heq
  | acquire _ heq ih => exact ih.acquire heq
  | evict _ heq ih => exact ih.evict heq

/-- A run of listed pages that are not indexed is filed: it returns, and each
of them that its key then names was filed under it. -/
theorem Mirrors.insertRun {n : ℕ} {listed : Page → ℕ} {s : Pool Key} (h : s.Mirrors n listed)
    {keys : List Key} {pages : List Page} (hlen : keys.length = pages.length)
    (hnodup : pages.Nodup) (hpages : ∀ p ∈ pages, 0 < listed p ∧ s.index.key p = none)
    {parent : Option Page} (hparent : ∀ q, parent = some q → (s.index.key q).isSome) :
    ∃ inserted s' entries, s.insertRun keys pages parent = .ok (inserted, s') ∧
      s'.Mirrors n listed ∧ s.Files entries s' ∧
      (∀ p, p ∉ pages → s'.index.key p = s.index.key p) ∧
      ∀ key page, (key, page) ∈ keys.zip pages → s'.index.key page = some key →
        (key, page) ∈ entries := by
  induction keys generalizing s pages parent with
  | nil =>
    obtain rfl := List.length_eq_zero_iff.1 hlen.symm
    exact ⟨0, s, [], rfl, h, .start, fun p _ => rfl, by simp⟩
  | cons key keys ih =>
    cases pages with
    | nil => cases hlen
    | cons page pages =>
      obtain ⟨hnot, hrest⟩ := List.nodup_cons.1 hnodup
      obtain ⟨hlisted, hnone⟩ := hpages page (List.mem_cons_self ..)
      obtain ⟨filed, s₁, heq, h₁, hkeys⟩ := h.insert hlisted hnone hparent key
      obtain ⟨born, hs₁⟩ := h₁.sound
      have hnext : ∀ q, (if filed = true then some page else s₁.index.byKey.lookup key) = some q →
          (s₁.index.key q).isSome := by
        intro q hq
        cases filed with
        | true =>
          obtain rfl := Option.some.inj hq
          rw [hkeys, if_pos ⟨rfl, rfl⟩]
          rfl
        | false =>
          rw [(hs₁.tree.names key q).1 hq]
          rfl
      have hleft : ∀ p ∈ pages, 0 < listed p ∧ s₁.index.key p = none := by
        intro p hp
        have hne : p ≠ page := fun heq => hnot (heq ▸ hp)
        rw [hkeys, if_neg fun hboth => hne hboth.1]
        exact hpages p (List.mem_cons_of_mem _ hp)
      obtain ⟨inserted, s', entries, heq', h', hfiles, hsame, hentries⟩ :=
        ih h₁ (by simpa using hlen) hrest hleft hnext
      refine ⟨inserted + filed.toNat, s', (if filed = true then [(key, page)] else []) ++ entries,
        ?_, h', ?_, fun p hp => ?_, fun k p hmem hk => ?_⟩
      · unfold Pool.insertRun
        simp only [heq, bind, Except.bind, heq']
        rfl
      · refine Files.trans ?_ hfiles
        cases filed with
        | true => exact Files.file .start heq
        | false => exact Files.taken .start heq
      · rw [List.mem_cons, not_or] at hp
        rw [hsame p hp.2, hkeys, if_neg fun hboth => hp.1 hboth.1]
      · rw [List.zip_cons_cons, List.mem_cons] at hmem
        rcases hmem with heqs | hmem
        · obtain ⟨rfl, rfl⟩ := Prod.mk.inj heqs
          rw [hsame p hnot, hkeys] at hk
          cases filed with
          | true => simp
          | false => simp [hnone] at hk
        · exact List.mem_append_right _ (hentries k p hmem hk)

end Pool

/-- The pages a walk of keys finds are indexed. -/
theorem PrefixIndex.mem_pagesFor {ix : PrefixIndex Key} {keys : List Key} {p : Page}
    (hp : p ∈ ix.pagesFor keys) : ∃ key, ix.byKey.lookup key = some p := by
  induction keys with
  | nil => cases hp
  | cons key keys ih =>
    unfold PrefixIndex.pagesFor at hp
    cases hkey : ix.byKey.lookup key with
    | none => simp [hkey] at hp
    | some page =>
      simp only [hkey, List.mem_cons] at hp
      rcases hp with rfl | hp
      · exact ⟨key, hkey⟩
      · exact ih hp

end Mstar
