import Mstar.EvictionOrder

/-!
# An eviction drops the least recent leaf first

The loop of an eviction whose heap may hold old entries of a page next to its
own. Popping finds the first entry that is some leaf's own, and no other leaf
was hit before it; a spared leaf is kept in a second heap in the same order.
The loop is right as long as no leaf it would spare is in the two heaps twice,
and it never becomes so: a page left without children has no entry yet, old or
not, since each would have surfaced before its last child.
-/

namespace Mstar

variable {Key : Type} [DecidableEq Key]

namespace Eviction

variable {born : Page → ℕ} {s : Pool Key} {spare : Option (Key → Bool)}

/-- Where a running eviction of the pool `s` stands that has dropped `drops`
and holds `pending`, just popped. -/
structure Underway (born : Page → ℕ) (s : Pool Key) (spare : Option (Key → Bool))
    (e : Eviction Key) (drops : List (Key × Page)) (pending : List Entry) : Prop where
  /-- The pool's tables are those of a tree. -/
  whole : e.pool.Whole born
  /-- Old entries come before a page's own. -/
  heaped : e.pool.index.Heaped born
  /-- The keys given back are those of the pages dropped. -/
  keys : e.dropped = drops.map (·.1)
  /-- Each was the next in its turn, and nothing else but the heap changed. -/
  order : ∃ t, s.DropsInOrder spare drops t ∧ e.pool = t.withLeaves e.pool.index.leaves
  /-- Every leaf is in the heap, or was popped from it. -/
  queued : e.pool.index.Queued (pending ++ (e.passedOver ++ e.spared))
  /-- The entries popped are leaves' own. -/
  taken : ∀ x ∈ pending ++ (e.passedOver ++ e.spared),
    e.pool.index.Leaf x.2 ∧ x.1 = e.pool.index.stamp x.2
  /-- The leaves passed over are held by somebody besides the index. -/
  passed : ∀ x ∈ e.passedOver, e.pool.owners x.2 > 1
  /-- The leaves spared are free and their keys accepted. -/
  spares : ∀ x ∈ e.spared, e.pool.owners x.2 ≤ 1 ∧ e.pool.Spares spare x.2
  /-- The spared entries are in order. -/
  sorted : e.spared.Pairwise Entry.le
  /-- No leaf to be spared is met twice. -/
  once : ∀ p, e.pool.FreeLeaf p → e.pool.Spares spare p →
    ((e.pool.index.leaves ++ (pending ++ e.spared)).map (·.2)).count p ≤ 1

variable {e : Eviction Key} {drops : List (Key × Page)} {x : Entry}

/-- A free leaf is in the heap, just popped, or spared. -/
theorem Underway.mem_of_free (h : e.Underway born s spare drops [x]) {q : Page}
    (hq : e.pool.FreeLeaf q) : q = x.2 ∨ (∃ y ∈ e.pool.index.leaves, y.2 = q) ∨
      ∃ y ∈ e.spared, y.2 = q := by
  obtain ⟨y, hy, rfl⟩ := List.mem_map.1 (h.queued q hq.1)
  simp only [List.mem_append, List.mem_singleton] at hy
  rcases hy with hy | rfl | hy | hy
  · exact Or.inr (Or.inl ⟨y, hy, rfl⟩)
  · exact Or.inl rfl
  · have hheld := h.passed y hy
    have hfree := hq.2
    omega
  · exact Or.inr (Or.inr ⟨y, hy, rfl⟩)

/-- The leaf popped is the next to drop when it is not spared, or when nothing
else is left. -/
theorem Underway.dropsNext (h : e.Underway born s spare drops [x])
    (hfirst : ∀ y ∈ e.pool.index.leaves, x.1 ≤ y.1) (howner : e.pool.owners x.2 ≤ 1)
    (hlast : e.pool.Spares spare x.2 →
      e.pool.index.leaves = [] ∧ ∀ y ∈ e.spared, x.1 ≤ y.1) : e.pool.DropsNext spare x.2 := by
  obtain ⟨hleaf, hstamp⟩ := h.taken x (by simp)
  constructor
  · exact ⟨hleaf, howner⟩
  · intro q hq hsame
    rcases h.mem_of_free hq with rfl | ⟨y, hy, rfl⟩ | ⟨y, hy, rfl⟩
    · exact le_refl _
    · have hold := h.heaped.entry_le_stamp y hy hq.1.1
      have hle := hfirst y hy
      omega
    · have hle := (hlast (hsame.1 (h.spares y hy).2)).2 y hy
      have hown := (h.taken y (by simp [hy])).2
      omega
  · intro hspared q hq
    rcases h.mem_of_free hq with rfl | ⟨y, hy, rfl⟩ | ⟨y, hy, rfl⟩
    · exact hspared
    · rw [(hlast hspared).1] at hy
      cases hy
    · exact (h.spares y hy).2

/-- A leaf somebody else holds is put aside. -/
theorem Underway.passOver (h : e.Underway born s spare drops [x]) (hheld : e.pool.owners x.2 > 1) :
    Underway born s spare { e with passedOver := e.passedOver ++ [x] } drops [] := by
  have hperm : ([x] ++ (e.passedOver ++ e.spared)).Perm
      ([] ++ ((e.passedOver ++ [x]) ++ e.spared)) := by
    have hmiddle : (e.passedOver ++ x :: e.spared).Perm (x :: (e.passedOver ++ e.spared)) :=
      List.perm_middle
    simpa using hmiddle.symm
  constructor
  · exact h.whole
  · exact h.heaped
  · exact h.keys
  · exact h.order
  · exact queued_perm h.queued hperm
  · exact fun y hy => h.taken y (hperm.mem_iff.2 hy)
  · intro y hy
    rcases List.mem_append.1 hy with hy | hy
    · exact h.passed y hy
    · rw [List.mem_singleton.1 hy]
      exact hheld
  · exact h.spares
  · exact h.sorted
  · intro p hp hs
    have hone := h.once p hp hs
    simp only [List.map_append, List.count_append, List.nil_append] at hone ⊢
    omega

/-- A leaf whose key is accepted is kept for last. -/
theorem Underway.spareLeaf (h : e.Underway born s spare drops [x])
    (howner : e.pool.owners x.2 ≤ 1) (hspared : e.pool.Spares spare x.2) :
    Underway born s spare { e with spared := heappush x e.spared } drops [] := by
  have hpush := heappush_perm x e.spared
  have hperm := perm_spare x e.passedOver e.spared
  constructor
  · exact h.whole
  · exact h.heaped
  · exact h.keys
  · exact h.order
  · exact queued_perm h.queued hperm
  · exact fun y hy => h.taken y (hperm.mem_iff.2 hy)
  · exact h.passed
  · intro y hy
    rcases mem_heappush.1 hy with rfl | hy
    · exact ⟨howner, hspared⟩
    · exact h.spares y hy
  · exact heappush_sorted h.sorted
  · intro p hp hs
    have hone := h.once p hp hs
    have hcount := (hpush.map (·.2)).count_eq p
    simp only [List.map_append, List.count_append, List.nil_append, List.map_cons,
      List.map_nil, List.count_cons, List.count_nil] at hone hcount ⊢
    omega

/-- A page with a child has no entry left once the child's own is the first of
the heap, and none among the leaves spared. -/
theorem Underway.count_parent (h : e.Underway born s spare drops [x])
    (hfirst : ∀ y ∈ e.pool.index.leaves, x.1 ≤ y.1) {p : Page}
    (hpar : e.pool.index.parent x.2 = some p) :
    ((e.pool.index.leaves ++ e.spared).map (·.2)).count p = 0 := by
  obtain ⟨hleaf, hstamp⟩ := h.taken x (by simp)
  refine List.count_eq_zero.2 fun hm => ?_
  obtain ⟨y, hy, rfl⟩ := List.mem_map.1 hm
  rcases List.mem_append.1 hy with hy | hy
  · have hlt := h.heaped.entry_lt y hy _ hpar
    have hborn := h.heaped.born_le_stamp hleaf.1
    have hle := hfirst y hy
    omega
  · have hyleaf := (h.taken y (by simp [hy])).1
    exact h.whole.tree.parent_ne_of_leaf h.whole.children hyleaf _ hpar

/-- Dropping the leaf popped, the next in its turn. -/
theorem Underway.dropLeaf (h : e.Underway born s spare drops [x])
    (hfirst : ∀ y ∈ e.pool.index.leaves, x.1 ≤ y.1) (howner : e.pool.owners x.2 ≤ 1)
    (hlast : e.pool.Spares spare x.2 →
      e.pool.index.leaves = [] ∧ ∀ y ∈ e.spared, x.1 ≤ y.1)
    {key : Key} (hkey : e.pool.index.key x.2 = some key) :
    e.pool.remove x.2 = .ok (e.pool.without key x.2) ∧
      Underway born s spare
        { e with pool := e.pool.without key x.2, dropped := e.dropped ++ [key] }
        (drops ++ [(key, x.2)]) [] := by
  obtain ⟨hleaf, hstamp⟩ := h.taken x (by simp)
  have hnext := h.dropsNext hfirst howner hlast
  have hname := (h.whole.tree.names key x.2).2 hkey
  have hone : e.pool.owners x.2 = 1 := by
    have := h.whole.owned x.2 hleaf.1
    omega
  have hne : ∀ y ∈ e.passedOver ++ e.spared, y.2 ≠ x.2 := by
    intro y hy hyx
    rcases List.mem_append.1 hy with hy | hy
    · have hheld := h.passed y hy
      rw [hyx] at hheld
      omega
    · have hspared := (h.spares y hy).2
      rw [hyx] at hspared
      have hcount := h.once x.2 ⟨hleaf, howner⟩ hspared
      have hpos : 0 < (e.spared.map (·.2)).count x.2 :=
        List.count_pos_iff.2 (List.mem_map.2 ⟨y, hy, hyx⟩)
      simp only [List.map_append, List.count_append, List.map_cons, List.map_nil,
        List.count_singleton_self] at hcount
      omega
  have hremove : e.pool.remove x.2 = .ok (e.pool.without key x.2) := Pool.remove_eq hkey hname hone
  refine ⟨hremove, ?_⟩
  constructor
  · exact h.whole.without hkey hleaf howner
  · exact h.whole.heaped_without hkey hleaf howner h.heaped
  · rw [h.keys]
    simp
  · obtain ⟨t, ht, hpool⟩ := h.order
    have hsame := Pool.without_withLeaves t e.pool.index.leaves key x.2
    rw [← hpool] at hsame
    refine ⟨t.without key x.2, ?_, hsame⟩
    generalize e.pool.index.leaves = leaves at hpool
    rw [hpool] at hkey hname hone hnext
    exact ht.concat hkey ⟨hnext.free, hnext.oldest, hnext.last⟩ (Pool.remove_eq hkey hname hone)
  · exact Pool.queued_without_first h.queued
  · intro y hy
    obtain ⟨hyleaf, hystamp⟩ := h.taken y (List.mem_append_right _ hy)
    have hpar := h.whole.tree.parent_ne_of_leaf h.whole.children hyleaf x.2
    refine ⟨⟨?_, ?_⟩, ?_⟩
    · rw [Pool.key_without, if_neg (hne y hy)]
      exact hyleaf.1
    · rw [Pool.children_without, if_neg hpar, hyleaf.2]
      rfl
    · rw [Pool.stamp_without]
      exact hystamp
  · intro y hy
    rw [Pool.owners_without, if_neg (hne y (List.mem_append_left _ hy))]
    exact h.passed y hy
  · intro y hy
    obtain ⟨hyfree, k, hk, hyspared⟩ := h.spares y hy
    have hyx := hne y (List.mem_append_right _ hy)
    rw [Pool.owners_without, if_neg hyx]
    exact ⟨hyfree, k, by rw [Pool.key_without, if_neg hyx]; exact hk, hyspared⟩
  · exact h.sorted
  · intro p hp hspared
    obtain ⟨k, hk, hak⟩ := hspared
    have hpx : p ≠ x.2 := by
      rintro rfl
      rw [Pool.key_without, if_pos rfl] at hk
      cases hk
    rw [Pool.key_without, if_neg hpx] at hk
    have hfree : e.pool.owners p ≤ 1 := by
      have hpo := hp.2
      rwa [Pool.owners_without, if_neg hpx] at hpo
    have hchildren := Pool.children_without e.pool key x.2 p
    rw [hp.1.2] at hchildren
    have hleaves := Pool.leaves_without e.pool key x.2
    by_cases hpar : e.pool.index.parent x.2 = some p
    · -- the page just left without children has the one entry pushed for it
      have hzero := h.count_parent hfirst hpar
      simp only [List.map_append, List.count_append, List.nil_append] at hzero ⊢
      rcases hleaves with hl | ⟨q, _, _, hl⟩
      · rw [hl]
        omega
      · have hcount := ((heappush_perm (e.pool.index.stamp q, q) e.pool.index.leaves).map
          (·.2)).count_eq p
        rw [List.map_cons, List.count_cons] at hcount
        rw [hl, hcount]
        split <;> omega
    · rw [if_neg hpar] at hchildren
      have hpleaf : e.pool.FreeLeaf p := ⟨⟨by rw [hk]; rfl, by omega⟩, hfree⟩
      have hold := h.once p hpleaf ⟨k, hk, hak⟩
      simp only [List.map_append, List.count_append, List.nil_append] at hold ⊢
      rcases hleaves with hl | ⟨q, hq, _, hl⟩
      · rw [hl]
        omega
      · have hqp : q ≠ p := fun he => hpar (he ▸ hq)
        have hcount := ((heappush_perm (e.pool.index.stamp q, q) e.pool.index.leaves).map
          (·.2)).count_eq p
        rw [List.map_cons, List.count_cons_of_ne hqp] at hcount
        rw [hl, hcount]
        omega

/-- A popped leaf is passed over, spared or dropped. -/
theorem Underway.takeLeaf (h : e.Underway born s spare drops [x])
    (hfirst : ∀ y ∈ e.pool.index.leaves, x.1 ≤ y.1) (last : Bool)
    (hlast : last = true → e.pool.index.leaves = [] ∧ ∀ y ∈ e.spared, x.1 ≤ y.1) :
    ∃ e' drops', e.takeLeaf spare last x = .ok e' ∧ Underway born s spare e' drops' [] ∧
      e'.dropped.length ≤ e.dropped.length + 1 ∧ e'.rounds ≤ e.rounds + (!last).toNat := by
  unfold Eviction.takeLeaf
  by_cases hheld : e.pool.owners x.2 > 1
  · rw [if_pos hheld]
    exact ⟨_, drops, rfl, h.passOver hheld, Nat.le_succ _, Nat.le_add_right _ _⟩
  · rw [if_neg hheld]
    have howner : e.pool.owners x.2 ≤ 1 := Nat.not_lt.1 hheld
    obtain ⟨key, hkey⟩ := Option.isSome_iff_exists.1 (h.taken x (by simp)).1.1
    have hspares := Pool.spares_iff hkey spare
    rw [hkey]
    dsimp only
    by_cases hspare : (!last && spare.any fun accepts => accepts key) = true
    · rw [if_pos hspare]
      rw [Bool.and_eq_true, Bool.not_eq_true'] at hspare
      refine ⟨_, drops, rfl, h.spareLeaf howner (hspares.2 hspare.2), Nat.le_succ _, ?_⟩
      simp only [rounds, (heappush_perm _ _).length_eq, List.length_cons, hspare.1, Bool.not_false,
        Bool.toNat_true]
      omega
    · rw [if_neg hspare]
      have hlast' : e.pool.Spares spare x.2 →
          e.pool.index.leaves = [] ∧ ∀ y ∈ e.spared, x.1 ≤ y.1 := by
        intro hs
        refine hlast ?_
        rw [hspares.1 hs, Bool.and_true] at hspare
        simpa using hspare
      obtain ⟨heq, hdone⟩ := h.dropLeaf hfirst howner hlast' hkey
      rw [heq]
      refine ⟨_, _, rfl, hdone, by simp, ?_⟩
      have hpages := numPages_without e.pool ((h.whole.tree.names key x.2).2 hkey)
      have hleaves := leaves_length_without e.pool key x.2
      simp only [rounds]
      omega

/-- Popping the heap leaves its first entry pending. -/
theorem Underway.popped (h : e.Underway born s spare drops []) {heap : List Entry}
    (hclean : e.pool.index.Cleaned e.pool.index.leaves heap) :
    Underway born s spare { e with pool := e.pool.withLeaves heap.tail } drops
      heap.head?.toList := by
  have hperm : (heap.tail ++ heap.head?.toList).Perm heap := by
    cases heap with
    | nil => simp
    | cons x heap => exact List.perm_append_singleton x heap
  constructor
  · exact ⟨⟨h.whole.tree.1, h.whole.tree.2, h.whole.tree.3, h.whole.tree.4, h.whole.tree.5⟩,
      h.whole.children, h.whole.owned,
      fun hrep => ⟨(h.whole.counted hrep).1, (h.whole.counted hrep).2, (h.whole.counted hrep).3⟩⟩
  · exact h.heaped.reheap h.whole.tree h.whole.children (hclean.sorted h.heaped.sorted).tail
      fun x hx => hclean.entries x (List.mem_of_mem_tail hx)
  · exact h.keys
  · obtain ⟨t, ht, hpool⟩ := h.order
    refine ⟨t, ht, ?_⟩
    generalize e.pool.index.leaves = leaves at hpool
    rw [hpool]
    rfl
  · intro p hp
    have hold := h.queued p hp
    rw [List.nil_append, List.map_append, List.mem_append] at hold
    have hall : (heap.tail ++ (heap.head?.toList ++ (e.passedOver ++ e.spared))).Perm
        (heap ++ (e.passedOver ++ e.spared)) := by
      rw [← List.append_assoc]
      exact hperm.append_right _
    refine ((hall.map (·.2)).mem_iff).2 ?_
    rw [List.map_append, List.mem_append]
    exact hold.imp_left fun hl => hclean.keeps p hp hl
  · intro x hx
    rcases List.mem_append.1 hx with hx | hx
    · obtain ⟨hleaf, hstamp⟩ := hclean.head x (Option.mem_toList.1 hx)
      exact ⟨hleaf, hstamp.symm⟩
    · exact h.taken x hx
  · exact h.passed
  · exact h.spares
  · exact h.sorted
  · intro p hp hspared
    have hold := h.once p hp hspared
    have hcount := hclean.pages.count_le p
    have hsplit := (hperm.map (·.2)).count_eq p
    simp only [List.map_append, List.count_append, List.nil_append, Pool.withLeaves]
      at hold hsplit ⊢
    omega

/-- One round of the loop takes a leaf, or finds that no free leaf is left. -/
theorem Underway.round (h : e.Underway born s spare drops []) :
    ∃ goesOn e' drops', e.round spare = .ok (goesOn, e') ∧
      Underway born s spare e' drops' [] ∧ e'.dropped.length ≤ e.dropped.length + 1 ∧
      (goesOn = true → e'.rounds < e.rounds) ∧
      (goesOn = false → ∀ p, ¬e'.pool.FreeLeaf p) := by
  obtain ⟨heap, heq, hclean⟩ := e.pool.index.popLeaf_spec
  have hpop := h.popped hclean
  have hlen : heap.length ≤ e.pool.index.leaves.length := by
    simpa using hclean.pages.length_le
  unfold Eviction.round
  rw [heq]
  simp only [bind, Except.bind]
  cases heap with
  | cons x heap =>
    have hsorted : ∀ y ∈ heap, x.1 ≤ y.1 := by
      intro y hy
      have hp := (List.pairwise_cons.1 (hclean.sorted h.heaped.sorted)).1 y hy
      unfold Entry.le at hp
      omega
    obtain ⟨e', drops', htake, hdone, hdropped, hrounds⟩ :=
      hpop.takeLeaf hsorted false (by simp)
    refine ⟨true, e', drops', ?_, hdone, hdropped, fun _ => ?_, by simp⟩
    · simp only [List.head?_cons, List.tail_cons]
      have htake' := htake
      simp only [Pool.withLeaves, List.tail_cons] at htake'
      rw [htake']
      rfl
    · simp only [Bool.not_false, Bool.toNat_true] at hrounds
      change e'.rounds ≤ 2 * heap.length + e.spared.length + 3 * e.pool.index.numPages + 1
        at hrounds
      change e'.rounds <
        2 * e.pool.index.leaves.length + e.spared.length + 3 * e.pool.index.numPages
      rw [List.length_cons] at hlen
      omega
  | nil =>
    obtain ⟨pool, dropped, passedOver, spared⟩ := e
    cases spared with
    | nil =>
      refine ⟨false, _, drops, rfl, hpop, Nat.le_succ _, by simp, fun _ p hp => ?_⟩
      -- the heap is empty and nothing was spared: every leaf was passed over
      obtain ⟨x, hx, rfl⟩ := List.mem_map.1 (hpop.queued p hp.1)
      have hheld := h.passed x (by simpa [Pool.withLeaves] using hx)
      exact absurd hp.2 (Nat.not_le.2 hheld)
    | cons x spared =>
      have hperm : ([] ++ (passedOver ++ x :: spared)).Perm ([x] ++ (passedOver ++ spared)) :=
        List.perm_middle
      have hnext : Underway born s spare ⟨pool.withLeaves [], dropped, passedOver, spared⟩
          drops [x] := by
        constructor
        · exact hpop.whole
        · exact hpop.heaped
        · exact hpop.keys
        · exact hpop.order
        · exact queued_perm hpop.queued hperm
        · exact fun y hy => hpop.taken y (hperm.mem_iff.2 hy)
        · exact hpop.passed
        · exact fun y hy => hpop.spares y (List.mem_cons_of_mem x hy)
        · exact (List.pairwise_cons.1 hpop.sorted).2
        · exact hpop.once
      have hsorted : ∀ y ∈ spared, x.1 ≤ y.1 := by
        intro y hy
        have hp := (List.pairwise_cons.1 h.sorted).1 y hy
        unfold Entry.le at hp
        omega
      obtain ⟨e', drops', htake, hdone, hdropped, hrounds⟩ :=
        hnext.takeLeaf (by simp [Pool.withLeaves]) true fun _ => ⟨rfl, hsorted⟩
      refine ⟨true, e', drops', ?_, hdone, hdropped, fun _ => ?_, by simp⟩
      · simp only [List.head?_nil, List.tail_nil]
        have htake' := htake
        simp only [Pool.withLeaves] at htake'
        rw [htake']
        rfl
      · simp only [Bool.not_true, Bool.toNat_false] at hrounds
        change e'.rounds ≤ 2 * 0 + spared.length + 3 * pool.index.numPages + 0 at hrounds
        change e'.rounds <
          2 * pool.index.leaves.length + (spared.length + 1) + 3 * pool.index.numPages
        omega

/-- The loop drops `n` pages, or stops when no free leaf is left. -/
theorem Underway.loop {n : ℕ} (h : e.Underway born s spare drops []) (fuel : ℕ)
    (hfuel : e.rounds < fuel) (hn : e.dropped.length ≤ n) :
    ∃ e' drops', Eviction.loop n spare fuel e = .ok e' ∧ Underway born s spare e' drops' [] ∧
      e'.dropped.length ≤ n ∧ (e'.dropped.length < n → ∀ p, ¬e'.pool.FreeLeaf p) := by
  induction fuel generalizing e drops with
  | zero => omega
  | succ fuel ih =>
    unfold Eviction.loop
    by_cases hdone : n ≤ e.dropped.length
    · rw [if_pos hdone]
      exact ⟨e, drops, rfl, h, hn, fun hlt => absurd hdone (by omega)⟩
    · rw [if_neg hdone]
      obtain ⟨goesOn, e₁, drops₁, heq, h₁, hlen, hgo, hstop⟩ := h.round
      rw [heq]
      simp only [bind, Except.bind]
      cases goesOn with
      | false => exact ⟨e₁, drops₁, rfl, h₁, by omega, fun _ => hstop rfl⟩
      | true => exact ih h₁ (by have := hgo rfl; omega) (by omega)

end Eviction

namespace Pool

variable {born : Page → ℕ} {s : Pool Key} {spare : Option (Key → Bool)}

/-- An eviction of a pool where no leaf it would spare has two heap entries
returns. It drops the least recent free leaf each time, until it dropped as
many pages as it was asked for or no free leaf is left. -/
theorem Whole.evict (h : s.Whole born) (hh : s.index.Heaped born) (hq : s.index.Queued [])
    (n : ℕ) (hone : s.MetOnce spare) :
    ∃ drops pool t, s.evict n spare = .ok (drops.map (·.1), pool) ∧
      s.DropsInOrder spare drops t ∧ pool = t.withLeaves pool.index.leaves ∧
      pool.Whole born ∧ pool.index.Heaped born ∧ pool.index.Queued [] ∧ drops.length ≤ n ∧
      (drops.length < n → ∀ p, ¬pool.FreeLeaf p) := by
  have hstart : Eviction.Underway born s spare ⟨s, [], [], []⟩ [] [] := by
    constructor
    · exact h
    · exact hh
    · rfl
    · exact ⟨s, .nil s, rfl⟩
    · exact hq
    · simp
    · simp
    · simp
    · exact List.Pairwise.nil
    · intro p hp hs
      simpa using hone p hp hs
  obtain ⟨e, drops, heq, hu, hlen, hstop⟩ := hstart.loop
    (2 * s.index.leaves.length + 3 * s.index.numPages + 1) (n := n)
    (by simp [Eviction.rounds]) (Nat.zero_le n)
  have hperm := e.pool.index.leaves_putBack_perm (e.passedOver ++ e.spared)
  have hcount : drops.length = e.dropped.length := by rw [hu.keys, List.length_map]
  obtain ⟨t, ht, hpool⟩ := hu.order
  refine ⟨drops, { e.pool with index := e.pool.index.putBack (e.passedOver ++ e.spared) }, t,
    ?_, ht, ?_, ?_, ?_, hu.queued.putBack, by omega, fun hlt => hstop (by omega)⟩
  · unfold Pool.evict
    rw [heq, ← hu.keys]
    rfl
  · generalize e.pool.index.leaves = leaves at hpool
    rw [hpool]
    rfl
  · exact ⟨⟨hu.whole.tree.1, hu.whole.tree.2, hu.whole.tree.3, hu.whole.tree.4, hu.whole.tree.5⟩,
      hu.whole.children, hu.whole.owned, fun hrep =>
        ⟨(hu.whole.counted hrep).1, (hu.whole.counted hrep).2, (hu.whole.counted hrep).3⟩⟩
  · refine hu.heaped.reheap hu.whole.tree hu.whole.children
      (putBack_sorted _ hu.heaped.sorted) fun x hx => ?_
    exact (List.mem_append.1 (hperm.mem_iff.1 hx)).imp id fun hx => hu.taken x hx

end Pool

end Mstar
