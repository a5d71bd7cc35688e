import Mstar.EvictionHeap

/-!
# What one eviction frees

A run of `evict` on a sound pool returns: it frees as many evictable pages as
it was asked for, or all of them. Its loop keeps that the pages freed so far
were evictable when it started, and stops short only when every leaf left in
the index is held by somebody else, so that no page is evictable any more.
-/

namespace Mstar

variable {Key : Type} [DecidableEq Key]

/-- What is left of a pool once some pages of its index are freed. -/
structure Pool.Evicted (s : Pool Key) (pages : List Page) (s' : Pool Key) : Prop where
  /-- The pages freed have no owner, and the others as many as before. -/
  owners : ∀ p, s'.owners p = if p ∈ pages then 0 else s.owners p
  /-- The pages freed have no key, and the others the same as before. -/
  key : ∀ p, s'.index.key p = if p ∈ pages then none else s.index.key p
  /-- The pages freed are not evictable any more; the others are as before. -/
  evictable : s'.index.evictable = s.index.evictable \ pages.toFinset
  /-- The pages freed are at the end of the free list. -/
  free : s'.arena.free = s.arena.free ++ pages

namespace Eviction

variable {born : Page → ℕ} {s : Pool Key} {T : Prop} {spare : Option (Key → Bool)}

/-- Where a running eviction stands that has freed `pages` of the pool `s` and
holds `pending`, just popped. `T` says whether its heap was tidy when it
started. -/
structure Progress (born : Page → ℕ) (s : Pool Key) (T : Prop) (spare : Option (Key → Bool))
    (e : Eviction Key) (pages : List Page) (pending : List Entry) : Prop where
  /-- The pool is sound. -/
  sound : e.pool.Sound born
  /-- The pages freed are those whose keys were dropped. -/
  keys : pages.map s.index.key = e.dropped.map some
  /-- No page is freed twice. -/
  nodup : pages.Nodup
  /-- Every page freed was evictable. -/
  evictable : ∀ p ∈ pages, p ∈ s.index.evictable
  /-- Nothing else has changed. -/
  evicted : s.Evicted pages e.pool
  /-- Every leaf is in the heap, or was popped from it. -/
  queued : e.pool.index.Queued (pending ++ (e.passedOver ++ e.spared))
  /-- The leaves passed over are held by somebody besides the index. -/
  passed : ∀ x ∈ e.passedOver, e.pool.owners x.2 > 1
  /-- With nothing to spare, no leaf is spared. -/
  spared : spare = none → e.spared = []
  /-- A tidy heap is still tidy. -/
  tidy : T → e.pool.index.Tidy born (pending ++ (e.passedOver ++ e.spared))

/-- Rounds a running eviction may still take. -/
def rounds (e : Eviction Key) : ℕ :=
  2 * e.pool.index.leaves.length + e.spared.length + 3 * e.pool.index.numPages

/-- The order of the popped entries does not matter to what is queued. -/
theorem queued_perm {ix : PrefixIndex Key} {taken taken' : List Entry} (h : ix.Queued taken)
    (hp : taken.Perm taken') : ix.Queued taken' := fun p hleaf =>
  ((hp.append_left ix.leaves).map (·.2)).mem_iff.1 (h p hleaf)

/-- Dropping a page leaves one page fewer indexed. -/
theorem numPages_without (s : Pool Key) {key : Key} {page : Page}
    (hname : s.index.byKey.lookup key = some page) :
    (s.without key page).index.numPages + 1 = s.index.numPages := by
  obtain ⟨_, _, heq⟩ := (s.index.forget key page).disown_eq (s.index.parent page)
  have hmem : key ∈ s.index.byKey := by
    rw [← AList.lookup_isSome, hname]
    rfl
  have hpos := List.length_pos_of_mem (AList.mem_keys.1 hmem)
  change ((s.index.forget key page).disown _).byKey.keys.length + 1 = s.index.byKey.keys.length
  rw [heq]
  change (s.index.byKey.erase key).keys.length + 1 = _
  rw [AList.keys_erase, List.length_erase_of_mem (AList.mem_keys.1 hmem)]
  omega

/-- Dropping a page pushes at most one entry. -/
theorem leaves_length_without (s : Pool Key) (key : Key) (page : Page) :
    (s.without key page).index.leaves.length ≤ s.index.leaves.length + 1 := by
  rcases Pool.leaves_without s key page with h | ⟨q, _, _, h⟩
  · rw [h]
    omega
  · rw [h, (heappush_perm _ _).length_eq]
    rfl

/-- Freeing one more page. -/
theorem evicted_without {pages : List Page} {s' : Pool Key} (h : s.Evicted pages s') (key : Key)
    (page : Page) : s.Evicted (pages ++ [page]) (s'.without key page) := by
  obtain ⟨_, _, heq⟩ := (s'.index.forget key page).disown_eq (s'.index.parent page)
  change (s'.without key page).index = _ at heq
  refine ⟨?_, ?_, ?_, ?_⟩
  · intro p
    change (if p = page then 0 else s'.owners p) = _
    rw [h.owners]
    by_cases hp : p = page <;> simp [hp]
  · intro p
    rw [heq]
    change (if p = page then none else s'.index.key p) = _
    rw [h.key]
    by_cases hp : p = page <;> simp [hp]
  · rw [heq]
    change s'.index.evictable.erase page = _
    rw [h.evictable]
    ext p
    simp only [Finset.mem_erase, Finset.mem_sdiff, List.mem_toFinset, List.mem_append,
      List.mem_singleton]
    tauto
  · change s'.arena.free ++ [page] = _
    rw [h.free, List.append_assoc]

/-- A leaf dropped is one more page freed. -/
theorem Progress.dropLeaf {e : Eviction Key} {pages : List Page} {x : Entry}
    (h : e.Progress born s T spare pages [x]) (hleaf : e.pool.index.Leaf x.2)
    (hfirst : T → ∀ y ∈ e.pool.index.leaves, x.1 ≤ y.1) (howner : e.pool.owners x.2 ≤ 1) {key : Key}
    (hkey : e.pool.index.key x.2 = some key) :
    e.pool.remove x.2 = .ok (e.pool.without key x.2) ∧
      Progress born s T spare
        { e with pool := e.pool.without key x.2, dropped := e.dropped ++ [key] }
        (pages ++ [x.2]) [] := by
  have hname := (h.sound.tree.names key x.2).2 hkey
  have hone : e.pool.owners x.2 = 1 := by
    have := h.sound.owned x.2 hleaf.1
    omega
  have hnew : x.2 ∉ pages := by
    intro hm
    have hk := hkey
    rw [h.evicted.key, if_pos hm] at hk
    cases hk
  have hsame : s.index.key x.2 = some key := by
    have hk := hkey
    rwa [h.evicted.key, if_neg hnew] at hk
  have hev : x.2 ∈ e.pool.index.evictable :=
    (h.sound.counted.mem_evictable x.2).2 ⟨hleaf.1, h.sound.leaf_in_reach hleaf howner⟩
  refine ⟨Pool.remove_eq hkey hname hone, h.sound.without hkey hleaf howner, ?_, ?_, ?_,
    evicted_without h.evicted key x.2, ?_, ?_, h.spared, fun hT => ?_⟩
  · rw [List.map_append, List.map_append, h.keys]
    simp [hsame]
  · exact List.nodup_append.2 ⟨h.nodup, by simp, by simpa using fun a ha => ne_of_mem_of_not_mem ha hnew⟩
  · intro p hp
    rcases List.mem_append.1 hp with hp | hp
    · exact h.evictable p hp
    · rw [List.mem_singleton.1 hp]
      rw [h.evicted.evictable] at hev
      exact (Finset.mem_sdiff.1 hev).1
  · exact Pool.queued_without_first h.queued
  · intro y hy
    have hyo := h.passed y hy
    change (if y.2 = x.2 then 0 else e.pool.owners y.2) > 1
    rw [if_neg fun he => by rw [he] at hyo; omega]
    exact hyo
  · exact h.sound.tidy_without hkey howner (h.tidy hT) (hfirst hT)

/-- A popped leaf is passed over, spared or dropped. -/
theorem Progress.takeLeaf {e : Eviction Key} {pages : List Page} {x : Entry}
    (h : e.Progress born s T spare pages [x]) (hleaf : e.pool.index.Leaf x.2)
    (hfirst : T → ∀ y ∈ e.pool.index.leaves, x.1 ≤ y.1) (last : Bool) :
    ∃ e' pages', e.takeLeaf spare last x = .ok e' ∧ Progress born s T spare e' pages' [] ∧
      e'.dropped.length ≤ e.dropped.length + 1 ∧
      e'.rounds ≤ e.rounds + (!last).toNat := by
  unfold Eviction.takeLeaf
  by_cases hheld : e.pool.owners x.2 > 1
  · rw [if_pos hheld]
    have hperm : ([x] ++ (e.passedOver ++ e.spared)).Perm
        ([] ++ ((e.passedOver ++ [x]) ++ e.spared)) := by
      have hmiddle : (e.passedOver ++ x :: e.spared).Perm (x :: (e.passedOver ++ e.spared)) :=
        List.perm_middle
      simpa using hmiddle.symm
    refine ⟨_, pages, rfl, ⟨h.sound, h.keys, h.nodup, h.evictable, h.evicted,
      queued_perm h.queued hperm, fun y hy => ?_, h.spared, fun hT => (h.tidy hT).perm hperm⟩,
      Nat.le_succ _, Nat.le_add_right _ _⟩
    rcases List.mem_append.1 hy with hy | hy
    · exact h.passed y hy
    · rw [List.mem_singleton.1 hy]
      exact hheld
  · rw [if_neg hheld]
    obtain ⟨key, hkey⟩ := Option.isSome_iff_exists.1 hleaf.1
    rw [hkey]
    dsimp only
    by_cases hspare : (!last && spare.any fun accepts => accepts key) = true
    · rw [if_pos hspare]
      have hperm := perm_spare x e.passedOver e.spared
      have hsome : spare ≠ none := by
        rintro rfl
        simp at hspare
      have hlast : last = false := by
        cases last <;> simp_all
      refine ⟨_, pages, rfl, ⟨h.sound, h.keys, h.nodup, h.evictable, h.evicted,
        queued_perm h.queued hperm, h.passed, fun hn => absurd hn hsome,
        fun hT => (h.tidy hT).perm hperm⟩, Nat.le_succ _, ?_⟩
      simp only [rounds, (heappush_perm _ _).length_eq, List.length_cons, hlast, Bool.not_false,
        Bool.toNat_true]
      omega
    · rw [if_neg hspare]
      obtain ⟨heq, hdone⟩ := h.dropLeaf hleaf hfirst (by omega) hkey
      rw [heq]
      refine ⟨_, _, rfl, hdone, by simp, ?_⟩
      have hpages := numPages_without e.pool ((h.sound.tree.names key x.2).2 hkey)
      have hleaves := leaves_length_without e.pool key x.2
      simp only [rounds]
      omega

/-- A pool whose heap is popped is as sound as before. -/
theorem sound_popped {pool : Pool Key} (h : pool.Sound born) (leaves : List Entry) :
    Pool.Sound born { pool with index := { pool.index with leaves := leaves } } :=
  ⟨⟨h.tree.1, h.tree.2, h.tree.3, h.tree.4, h.tree.5⟩,
    ⟨h.counted.1, h.counted.2, h.counted.3⟩, h.children, h.reports, h.owned⟩

/-- Popping the heap holds its first entry. -/
theorem Progress.popped {e : Eviction Key} {pages : List Page}
    (h : e.Progress born s T spare pages []) {heap : List Entry}
    (hclean : e.pool.index.Cleaned e.pool.index.leaves heap) :
    Progress born s T spare
      { e with pool := { e.pool with index := { e.pool.index with leaves := heap.tail } } }
      pages heap.head?.toList := by
  refine ⟨sound_popped h.sound heap.tail, h.keys, h.nodup, h.evictable, ?_, ?_, h.passed,
    h.spared, fun hT => ?_⟩
  · exact ⟨h.evicted.owners, h.evicted.key, h.evicted.evictable, h.evicted.free⟩
  · intro p hp
    have hold := h.queued p hp
    rw [List.nil_append, List.map_append, List.mem_append] at hold
    have hperm : (heap.tail ++ (heap.head?.toList ++ (e.passedOver ++ e.spared))).Perm
        (heap ++ (e.passedOver ++ e.spared)) := by
      cases heap with
      | nil => simp
      | cons x heap => exact List.perm_middle
    refine ((hperm.map (·.2)).mem_iff).2 ?_
    rw [List.map_append, List.mem_append]
    exact hold.imp_left fun hl => hclean.keeps p hp hl
  · exact (h.tidy hT).cleaned h.sound.tree h.sound.children hclean

/-- One round of the loop takes a leaf, or finds that no page is evictable. -/
theorem Progress.round {e : Eviction Key} {pages : List Page}
    (h : e.Progress born s T spare pages []) (hT : spare ≠ none → T) :
    ∃ goesOn e' pages', e.round spare = .ok (goesOn, e') ∧
      Progress born s T spare e' pages' [] ∧ e'.dropped.length ≤ e.dropped.length + 1 ∧
      (goesOn = true → e'.rounds < e.rounds) ∧
      (goesOn = false → e'.pool.index.evictable = ∅) := by
  obtain ⟨heap, heq, hclean⟩ := e.pool.index.popLeaf_spec
  have hpop := h.popped hclean
  have hlen : heap.length ≤ e.pool.index.leaves.length := by
    simpa using hclean.pages.length_le
  unfold Eviction.round
  rw [heq]
  simp only [bind, Except.bind]
  cases heap with
  | cons x heap =>
    have hsorted : T → ∀ y ∈ heap, x.1 ≤ y.1 := fun hTT y hy => by
      have hp := (List.pairwise_cons.1 (hclean.sorted (h.tidy hTT).sorted)).1 y hy
      unfold Entry.le at hp
      omega
    obtain ⟨e', pages', htake, hdone, hdropped, hrounds⟩ :=
      hpop.takeLeaf (hclean.head x rfl).1 hsorted false
    refine ⟨true, e', pages', ?_, hdone, hdropped, fun _ => ?_, by simp⟩
    · simp only [List.head?_cons, List.tail_cons] at htake ⊢
      rw [htake]
      rfl
    · simp only [rounds, List.tail_cons, List.length_cons, Bool.not_false, Bool.toNat_true]
        at hrounds hlen ⊢
      have : e.rounds = 2 * e.pool.index.leaves.length + e.spared.length +
        3 * e.pool.index.numPages := rfl
      change _ ≤ 2 * heap.length + e.spared.length + 3 * e.pool.index.numPages + 1 at hrounds
      omega
  | nil =>
    obtain ⟨pool, dropped, passedOver, spared⟩ := e
    cases spared with
    | nil =>
      refine ⟨false, _, pages, rfl, hpop, Nat.le_succ _, by simp, fun _ => ?_⟩
      -- the heap is empty and nothing was spared: every leaf was passed over
      refine hpop.sound.counted.evictable_eq_empty hpop.sound.tree hpop.sound.children
        fun p hp => ?_
      obtain ⟨x, hx, hxp⟩ := List.mem_map.1 (hpop.queued p hp)
      exact hxp ▸ h.passed x (by simpa using hx)
    | cons x spared =>
      have hsome : spare ≠ none := fun hn => by simpa using h.spared hn
      have hTT : T := hT hsome
      have hperm : ([] ++ (passedOver ++ x :: spared)).Perm ([x] ++ (passedOver ++ spared)) :=
        List.perm_middle
      have hnext : Progress born s T spare
          ⟨{ pool with index := { pool.index with leaves := [] } }, dropped, passedOver, spared⟩
          pages [x] :=
        ⟨hpop.sound, h.keys, h.nodup, h.evictable, hpop.evicted, queued_perm hpop.queued hperm,
          h.passed, fun hn => absurd hn hsome, fun hTT => (hpop.tidy hTT).perm hperm⟩
      have hleaf := (hnext.tidy hTT).taken_leaf x (by simp)
      obtain ⟨e', pages', htake, hdone, hdropped, hrounds⟩ :=
        hnext.takeLeaf hleaf (by simp) true
      refine ⟨true, e', pages', ?_, hdone, hdropped, fun _ => ?_, by simp⟩
      · simp only [List.head?_nil, List.tail_nil, htake]
        rfl
      · simp only [rounds, List.length_cons, List.length_nil, Bool.not_true, Bool.toNat_false]
          at hrounds ⊢
        change _ ≤ 2 * 0 + spared.length + 3 * pool.index.numPages + 0 at hrounds
        omega

/-- The loop frees `n` pages, or stops when no page is evictable. -/
theorem Progress.loop {e : Eviction Key} {pages : List Page} {n : ℕ}
    (h : e.Progress born s T spare pages []) (hT : spare ≠ none → T) (fuel : ℕ)
    (hfuel : e.rounds < fuel) (hn : e.dropped.length ≤ n) :
    ∃ e' pages', Eviction.loop n spare fuel e = .ok e' ∧ Progress born s T spare e' pages' [] ∧
      e'.dropped.length ≤ n ∧ (e'.dropped.length < n → e'.pool.index.evictable = ∅) := by
  induction fuel generalizing e pages with
  | zero => omega
  | succ fuel ih =>
    unfold Eviction.loop
    by_cases hdone : n ≤ e.dropped.length
    · rw [if_pos hdone]
      exact ⟨e, pages, rfl, h, hn, fun hlt => absurd hdone (by omega)⟩
    · rw [if_neg hdone]
      obtain ⟨goesOn, e₁, pages₁, heq, h₁, hlen, hgo, hstop⟩ := h.round hT
      rw [heq]
      simp only [bind, Except.bind]
      cases goesOn with
      | false => exact ⟨e₁, pages₁, rfl, h₁, by omega, fun _ => hstop rfl⟩
      | true => exact ih h₁ (by have := hgo rfl; omega) (by omega)

end Eviction

namespace Pool

variable {born : Page → ℕ} {s : Pool Key}

/-- A pool about to be evicted from. -/
theorem Sound.progress (h : s.Sound born) (hq : s.index.Queued []) {T : Prop}
    (ht : T → s.index.Tidy born []) (spare : Option (Key → Bool)) :
    Eviction.Progress born s T spare ⟨s, [], [], []⟩ [] [] :=
  ⟨h, rfl, List.nodup_nil, by simp, ⟨by simp, by simp, by simp, by simp⟩, hq, by simp,
    fun _ => rfl, ht⟩

/-- `evict` returns. It frees as many evictable pages as it was asked for, or
all of them, and gives back their keys. With a `spare` it may rely on each
page having one entry in the heap. -/
theorem Sound.evict (h : s.Sound born) (hq : s.index.Queued []) {T : Prop}
    (ht : T → s.index.Tidy born []) (n : ℕ) {spare : Option (Key → Bool)}
    (hT : spare ≠ none → T) :
    ∃ keys s' pages, s.evict n spare = .ok (keys, s') ∧ s'.Sound born ∧ s'.index.Queued [] ∧
      (T → s'.index.Tidy born []) ∧ s.Evicted pages s' ∧ pages.map s.index.key = keys.map some ∧
      pages.Nodup ∧ (∀ p ∈ pages, p ∈ s.index.evictable) ∧
      keys.length = min n s.index.evictable.card := by
  obtain ⟨e, pages, heq, hp, hlen, hstop⟩ := (h.progress hq ht spare).loop hT
    (2 * s.index.leaves.length + 3 * s.index.numPages + 1) (n := n)
    (by simp [Eviction.rounds]) (Nat.zero_le n)
  have hcount : pages.length = e.dropped.length := by
    simpa using congrArg List.length hp.keys
  have hsub : pages.toFinset ⊆ s.index.evictable := fun p hpm =>
    hp.evictable p (List.mem_toFinset.1 hpm)
  have hcard : pages.toFinset.card = pages.length := List.toFinset_card_of_nodup hp.nodup
  have hle : pages.length ≤ s.index.evictable.card := hcard ▸ Finset.card_le_card hsub
  refine ⟨e.dropped,
    { e.pool with index := e.pool.index.putBack (e.passedOver ++ e.spared) }, pages, ?_, ?_,
    hp.queued.putBack, fun hTT => ?_, ?_, hp.keys, hp.nodup, hp.evictable, ?_⟩
  · unfold Pool.evict
    rw [heq]
    rfl
  · exact Eviction.sound_popped hp.sound _
  · exact (hp.tidy hTT).putBack hp.sound.tree hp.sound.children
  · exact ⟨hp.evicted.owners, hp.evicted.key, hp.evicted.evictable, hp.evicted.free⟩
  · by_cases hlt : e.dropped.length < n
    · have hempty := hstop hlt
      rw [hp.evicted.evictable, Finset.sdiff_eq_empty_iff_subset] at hempty
      have hge := Finset.card_le_card hempty
      omega
    · omega

end Pool

end Mstar
