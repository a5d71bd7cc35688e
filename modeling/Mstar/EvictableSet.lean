import Mathlib.Data.Multiset.AddSub
import Mstar.EvictionLoop

/-!
# The evictable set is exact

Requests acquire, lease, release and file pages of one pool in any order,
between hits, evictions and drops. Whatever they did, the evictable set is the
set of pages that evicting every indexed page would free, and an eviction
frees as many pages as it is asked for or that set has.
-/

namespace Mstar

variable {Key : Type} [DecidableEq Key]

/-- Who calls the index. A pool's index is never dropped from, and the routing
mirror evicts with nothing to spare. -/
inductive Caller
  | pool
  | mirror
  deriving DecidableEq

/-- A call on a pool, for a request where the reference it moves is one. -/
inductive PoolOp (Key : Type)
  | acquire (request n : ℕ)
  | retain (request : ℕ) (pages : List Page)
  | release (request : ℕ) (pages : List Page)
  | insert (request : ℕ) (key : Key) (page : Page) (parent : Option Page)
  | insertRun (request : ℕ) (keys : List Key) (pages : List Page) (parent : Option Page)
  | lookup (keys : List Key)
  | touch (pages : List Page)
  | evict (n : ℕ) (spare : Option (Key → Bool))
  | drop (entries : List (Key × Page))

/-- The calls each caller makes. -/
def Caller.Makes : Caller → PoolOp Key → Prop
  | .pool, .drop _ => False
  | .mirror, .evict _ (some _) => False
  | _, _ => True

/-- A pool and the references its requests hold. -/
structure PoolWorld (Key : Type) [DecidableEq Key] where
  /-- The pool. -/
  pool : Pool Key
  /-- The references requests hold, each with its request. -/
  held : Multiset (ℕ × Page)

namespace PoolWorld

/-- A fresh pool that no request holds a page of. -/
def fresh (n : ℕ) : PoolWorld Key := ⟨.fresh n, 0⟩

/-- One request's references to some pages. -/
def refs (request : ℕ) (pages : List Page) : Multiset (ℕ × Page) := pages.map fun p => (request, p)

/-- What one call does. -/
def step (w : PoolWorld Key) : PoolOp Key → Except Raised (PoolWorld Key)
  | .acquire request n => match w.pool.arena.acquire n with
    | none => .ok w
    | some (pages, arena) => .ok ⟨{ w.pool with arena := arena }, w.held + refs request pages⟩
  | .retain request pages => do
    let pool ← w.pool.retain pages
    return ⟨pool, w.held + refs request pages⟩
  | .release request pages => do
    let pool ← w.pool.release pages
    return ⟨pool, w.held - refs request pages⟩
  | .insert _ key page parent => do
    let (_, pool) ← w.pool.insert key page parent
    return ⟨pool, w.held⟩
  | .insertRun _ keys pages parent => do
    let (_, pool) ← w.pool.insertRun keys pages parent
    return ⟨pool, w.held⟩
  | .lookup keys => .ok ⟨{ w.pool with index := (w.pool.index.lookup keys).2 }, w.held⟩
  | .touch pages => .ok ⟨{ w.pool with index := w.pool.index.touch pages }, w.held⟩
  | .evict n spare => do
    let (_, pool) ← w.pool.evict n spare
    return ⟨pool, w.held⟩
  | .drop entries => do
    let pool ← w.pool.drop entries
    return ⟨pool, w.held⟩

/-- What a request may ask: it retains pages that somebody has, releases only
references it holds, and files only pages it holds. -/
def Promised (w : PoolWorld Key) : PoolOp Key → Prop
  | .retain _ pages => ∀ p ∈ pages, 0 < w.pool.owners p
  | .release request pages => refs request pages ≤ w.held
  | .insert request _ page _ => (request, page) ∈ w.held
  | .insertRun request _ pages _ => ∀ p ∈ pages, (request, p) ∈ w.held
  | _ => True

instance (w : PoolWorld Key) : DecidablePred w.Promised
  | .retain _ pages => inferInstanceAs (Decidable (∀ p ∈ pages, 0 < w.pool.owners p))
  | .release request pages => inferInstanceAs (Decidable (refs request pages ≤ w.held))
  | .insert request _ page _ => inferInstanceAs (Decidable ((request, page) ∈ w.held))
  | .insertRun request _ pages _ =>
    inferInstanceAs (Decidable (∀ p ∈ pages, (request, p) ∈ w.held))
  | .acquire .. | .lookup _ | .touch _ | .evict .. | .drop _ => inferInstanceAs (Decidable True)

/-- The states any order of calls leads to. -/
inductive Reachable (caller : Caller) (n : ℕ) : PoolWorld Key → Prop
  | fresh : Reachable caller n (fresh n)
  | step {w w' : PoolWorld Key} {op : PoolOp Key} : Reachable caller n w → caller.Makes op →
      w.Promised op → w.step op = .ok w' → Reachable caller n w'

end PoolWorld

/-- The owners of a pool's pages are the index and the requests, and the free
list has each page that has none, once. -/
structure Pool.Accounts (n : ℕ) (s : Pool Key) (held : Multiset (ℕ × Page)) : Prop where
  /-- Every owner is the index or a request's reference. -/
  owners_eq : ∀ p, s.owners p =
    (if (s.index.key p).isSome then 1 else 0) + (held.map Prod.snd).count p
  /-- No page is free twice. -/
  free_nodup : s.arena.free.Nodup
  /-- The free pages are the pool's pages without an owner. -/
  mem_free : ∀ p, p ∈ s.arena.free ↔ p < n ∧ s.owners p = 0
  /-- Only the pool's pages have owners. -/
  owned_lt : ∀ p, 0 < s.owners p → p < n

/-- What holds of a pool between any two calls. -/
structure PoolWorld.Inv (caller : Caller) (n : ℕ) (born : Page → ℕ) (w : PoolWorld Key) :
    Prop where
  /-- The index's tables and counts are right. -/
  sound : w.pool.Sound born
  /-- Every leaf is in the heap. -/
  queued : w.pool.index.Queued []
  /-- A pool's own index keeps a tidy heap. -/
  tidy : caller = .pool → w.pool.index.Tidy born []
  /-- The owners are accounted for. -/
  accounts : w.pool.Accounts n w.held

/-- The count of one request's references to some pages. -/
theorem PoolWorld.count_refs (request : ℕ) (pages : List Page) (p : Page) :
    ((refs request pages).map Prod.snd).count p = pages.count p := by
  unfold refs
  simp

namespace Pool.Accounts

variable {n : ℕ} {s : Pool Key} {held : Multiset (ℕ × Page)}

/-- A page a request holds has an owner. -/
theorem owners_pos (h : s.Accounts n held) {request : ℕ} {page : Page}
    (hp : (request, page) ∈ held) : 0 < s.owners page := by
  have hmem : page ∈ held.map Prod.snd := Multiset.mem_map_of_mem Prod.snd hp
  have hpos := Multiset.count_pos.2 hmem
  have := h.owners_eq page
  omega

/-- The references a request releases are owners besides the index. -/
theorem count_refs_le (h : s.Accounts n held) {request : ℕ} {pages : List Page}
    (hp : PoolWorld.refs request pages ≤ held) (p : Page) :
    pages.count p + (if (s.index.key p).isSome then 1 else 0) ≤ s.owners p := by
  have hle := Multiset.count_le_of_le p (Multiset.map_le_map (f := Prod.snd) hp)
  rw [PoolWorld.count_refs] at hle
  have := h.owners_eq p
  omega

/-- Acquired pages were free, and have one owner each. -/
theorem acquire (h : s.Accounts n held) (howned : ∀ p, (s.index.key p).isSome → 0 < s.owners p)
    {k : ℕ} {pages : List Page} {arena : Arena} (heq : s.arena.acquire k = some (pages, arena))
    (request : ℕ) :
    (∀ p, (s.index.key p).isSome → arena.numOwners p = s.owners p) ∧
      arena.reports = s.arena.reports ∧
      ({ s with arena := arena } : Pool Key).Accounts n
        (held + PoolWorld.refs request pages) := by
  unfold Arena.acquire at heq
  dsimp only at heq
  split at heq
  case isFalse => cases heq
  cases heq
  have hfree : ∀ p ∈ s.arena.free.take k, p < n ∧ s.owners p = 0 := fun p hp =>
    (h.mem_free p).1 (List.mem_of_mem_take hp)
  have hkey : ∀ p, (s.index.key p).isSome → p ∉ s.arena.free.take k := by
    intro p hp hm
    have := howned p hp
    have := (hfree p hm).2
    omega
  have hnodup : (s.arena.free.take k).Nodup := h.free_nodup.sublist (List.take_sublist _ _)
  refine ⟨fun p hp => if_neg (hkey p hp), rfl, fun p => ?_, ?_, fun p => ?_, fun p hp => ?_⟩
  · change (if p ∈ s.arena.free.take k then 1 else s.owners p) = _
    rw [Multiset.map_add, Multiset.count_add, PoolWorld.count_refs]
    have hold := h.owners_eq p
    by_cases hp : p ∈ s.arena.free.take k
    · rw [if_pos hp, List.count_eq_one_of_mem hnodup hp]
      have := (hfree p hp).2
      change 1 = (if (s.index.key p).isSome then 1 else 0) + ((held.map Prod.snd).count p + 1)
      omega
    · rw [if_neg hp, List.count_eq_zero_of_not_mem hp]
      exact hold
  · exact h.free_nodup.sublist (List.drop_sublist _ _)
  · change p ∈ s.arena.free.drop k ↔
      p < n ∧ (if p ∈ s.arena.free.take k then 1 else s.owners p) = 0
    have hmem : p ∈ s.arena.free ↔ p ∈ s.arena.free.take k ∨ p ∈ s.arena.free.drop k := by
      conv_lhs => rw [← List.take_append_drop k s.arena.free]
      exact List.mem_append
    have hsplit := h.free_nodup
    rw [← List.take_append_drop k s.arena.free] at hsplit
    by_cases hp : p ∈ s.arena.free.take k
    · rw [if_pos hp]
      refine iff_of_false (fun hd => ?_) (by simp)
      exact (List.nodup_append.1 hsplit).2.2 p hp p hd rfl
    · rw [if_neg hp, ← h.mem_free, hmem]
      simp [hp]
  · change 0 < (if p ∈ s.arena.free.take k then 1 else s.owners p) at hp
    by_cases hm : p ∈ s.arena.free.take k
    · exact (hfree p hm).1
    · rw [if_neg hm] at hp
      exact h.owned_lt p hp

/-- Leasing pages that somebody has. -/
theorem retain (h : s.Accounts n held) {pages : List Page} (hp : ∀ p ∈ pages, 0 < s.owners p)
    {s' : Pool Key} (hfree : s'.arena.free = s.arena.free)
    (hm : s.Moves (fun p => s.owners p + pages.count p) s') (request : ℕ) :
    s'.Accounts n (held + PoolWorld.refs request pages) := by
  have howners : ∀ p, s'.owners p = s.owners p + pages.count p := fun p => by rw [hm.owners]
  have hzero := hm.owners_zero hp
  refine ⟨fun p => ?_, hfree ▸ h.free_nodup, fun p => ?_, fun p hpos => h.owned_lt p ?_⟩
  · rw [howners, hm.key, Multiset.map_add, Multiset.count_add, PoolWorld.count_refs, h.owners_eq]
    omega
  · rw [hfree, hzero]
    exact h.mem_free p
  · have := hzero p
    omega

/-- Releasing references a request holds. -/
theorem release (h : s.Accounts n held) {request : ℕ} {pages : List Page}
    (hp : PoolWorld.refs request pages ≤ held) {gone : List Page} {s' : Pool Key}
    (hfree : s'.arena.free = s.arena.free ++ gone)
    (hm : s.Moves (fun p => s.owners p - pages.count p) s') (hnodup : gone.Nodup)
    (hgone : ∀ p, p ∈ gone ↔ p ∈ pages ∧ s.owners p = pages.count p) :
    s'.Accounts n (held - PoolWorld.refs request pages) := by
  have hcount : ∀ p, (held.map Prod.snd).count p =
      ((held - PoolWorld.refs request pages).map Prod.snd).count p + pages.count p := by
    intro p
    conv_lhs => rw [← Multiset.sub_add_cancel hp]
    rw [Multiset.map_add, Multiset.count_add, PoolWorld.count_refs]
  have howners : ∀ p, s'.owners p = s.owners p - pages.count p := fun p => by rw [hm.owners]
  have hkept : ∀ p ∈ gone, 0 < s.owners p := by
    intro p hpg
    obtain ⟨hpm, hpo⟩ := (hgone p).1 hpg
    rw [hpo]
    exact List.count_pos_iff.2 hpm
  refine ⟨fun p => ?_, ?_, fun p => ?_, fun p hpos => ?_⟩
  · rw [howners, hm.key, h.owners_eq, hcount]
    omega
  · rw [hfree]
    refine List.nodup_append.2 ⟨h.free_nodup, hnodup, ?_⟩
    rintro p hpf q hq rfl
    have := hkept p hq
    have := ((h.mem_free p).1 hpf).2
    omega
  · rw [hfree, List.mem_append, h.mem_free, hgone, howners]
    by_cases hpm : p ∈ pages
    · have hpos := List.count_pos_iff.2 hpm
      have howned := h.owners_eq p
      rw [hcount] at howned
      simp only [hpm, h.owned_lt p (by omega), true_and]
      omega
    · rw [List.count_eq_zero_of_not_mem hpm]
      simp [hpm]
  · have := howners p
    exact h.owned_lt p (by omega)

/-- Filing a page a request holds gives it one more owner, the index. -/
theorem filed (h : s.Accounts n held) {key : Key} {page : Page} (hpage : s.index.key page = none)
    (hone : 0 < s.owners page) {parent : Option Page} {ix : PrefixIndex Key}
    (hr : (s.index.file key page parent).Remarked ix) :
    (s.filed page ix parent).Accounts n held := by
  obtain ⟨_, hadopt⟩ := ix.adopt_eq page parent
  have hkey : ∀ p, ((s.filed page ix parent).index.key p).isSome =
      (decide (p = page) || (s.index.key p).isSome) := by
    intro p
    change ((ix.adopt page parent).key p).isSome = _
    rw [hadopt]
    obtain ⟨_, _, _, rfl⟩ := hr
    by_cases hpp : p = page <;> simp [PrefixIndex.file, hpp]
  have howners : ∀ p, (s.filed page ix parent).owners p =
      if p = page then s.owners page + 1 else s.owners p := fun _ => rfl
  refine ⟨fun p => ?_, h.free_nodup, fun p => ?_, fun p hpos => ?_⟩
  · have hold := h.owners_eq p
    simp only [howners, hkey]
    by_cases hpp : p = page
    · subst hpp
      rw [hpage] at hold
      simp at hold ⊢
      omega
    · simp only [hpp, if_false, decide_false, Bool.false_or]
      exact hold
  · refine (h.mem_free p).trans (and_congr_right fun _ => ?_)
    simp only [howners]
    by_cases hpp : p = page
    · subst hpp
      rw [if_pos rfl]
      omega
    · rw [if_neg hpp]
  · simp only [howners] at hpos
    by_cases hpp : p = page
    · exact hpp ▸ h.owned_lt page hone
    · exact h.owned_lt p (by rwa [if_neg hpp] at hpos)

end Pool.Accounts

namespace PoolWorld

variable {caller : Caller} {n : ℕ} {born : Page → ℕ} {w : PoolWorld Key}

/-- A fresh pool. -/
theorem inv_fresh (caller : Caller) (n : ℕ) : (fresh n : PoolWorld Key).Inv caller n fun _ => 0 := by
  refine ⟨⟨⟨?_, ?_, ?_, ?_, ?_⟩, ⟨?_, ?_, ?_⟩, ?_, rfl, ?_⟩, ?_, fun _ => ?_, ⟨?_, ?_, ?_, ?_⟩⟩
  all_goals simp [fresh, Pool.fresh, PrefixIndex.empty, PrefixIndex.ChildrenCounted,
    PrefixIndex.Queued, PrefixIndex.Leaf, Pool.owners, List.nodup_range]
  refine ⟨?_, ?_, ?_, ?_, ?_, ?_, ?_, ?_, ?_⟩ <;> simp

/-- Acquiring pages, or too few being free. -/
theorem Inv.acquire (h : w.Inv caller n born) (request k : ℕ) :
    ∃ w', w.step (.acquire request k) = .ok w' ∧ w'.Inv caller n born := by
  cases heq : w.pool.arena.acquire k with
  | none => exact ⟨w, by simp only [step, heq], h⟩
  | some taken =>
    obtain ⟨pages, arena⟩ := taken
    obtain ⟨hsame, hrep, haccounts⟩ := h.accounts.acquire h.sound.owned heq request
    refine ⟨⟨{ w.pool with arena := arena }, w.held + refs request pages⟩,
      by simp only [step, heq], ⟨h.sound.tree, ?_, h.sound.children, hrep.trans h.sound.reports,
      fun p hp => ?_⟩, h.queued, h.tidy, haccounts⟩
    · refine h.sound.counted.congr h.sound.tree fun y hy => ?_
      simp [PrefixIndex.OutOfReach, Pool.owners, hsame y hy]
    · change 0 < arena.numOwners p
      rw [hsame p hp]
      exact h.sound.owned p hp

/-- Leasing pages that somebody has. -/
theorem Inv.retain (h : w.Inv caller n born) (request : ℕ) {pages : List Page}
    (hp : ∀ p ∈ pages, 0 < w.pool.owners p) :
    ∃ w', w.step (.retain request pages) = .ok w' ∧ w'.Inv caller n born := by
  obtain ⟨s', heq, hs, hfree, hm⟩ := h.sound.retain pages
  refine ⟨⟨s', w.held + refs request pages⟩, ?_, hs, hm.remarked.queued h.queued,
    fun hc => hm.remarked.tidy (h.tidy hc), h.accounts.retain hp hfree hm request⟩
  unfold step
  simp only [heq]
  rfl

/-- Releasing references a request holds. -/
theorem Inv.release (h : w.Inv caller n born) {request : ℕ} {pages : List Page}
    (hp : refs request pages ≤ w.held) :
    ∃ w', w.step (.release request pages) = .ok w' ∧ w'.Inv caller n born := by
  obtain ⟨gone, s', heq, hs, hfree, hm, hnodup, hgone⟩ :=
    h.sound.release pages (h.accounts.count_refs_le hp)
  refine ⟨⟨s', w.held - refs request pages⟩, ?_, hs, hm.remarked.queued h.queued,
    fun hc => hm.remarked.tidy (h.tidy hc), h.accounts.release hp hfree hm hnodup hgone⟩
  unfold step
  simp only [heq]
  rfl

/-- Filing a page a request holds, or failing to. -/
theorem Inv.insert (h : w.Inv caller n born) {request : ℕ} {page : Page}
    (hp : (request, page) ∈ w.held) (key : Key) (parent : Option Page) :
    w.pool.insert key page parent = .error .assertion ∨
      ∃ filed pool born', w.pool.insert key page parent = .ok (filed, pool) ∧
        (⟨pool, w.held⟩ : PoolWorld Key).Inv caller n born' := by
  have hone := h.accounts.owners_pos hp
  rcases h.sound.insert_cases hone key parent with herr | hsame |
    ⟨hpage, hkey, hpar, ix, hr, heq, hs⟩
  · exact Or.inl herr
  · exact Or.inr ⟨false, w.pool, born, hsame, h⟩
  · exact Or.inr ⟨true, _, _, heq, hs, h.sound.whole.queued_filed hr h.queued,
      fun hc => h.sound.tidy_filed hpar hpage hr (h.tidy hc), h.accounts.filed hpage hone hr⟩

/-- Filing a run of pages a request holds, or failing to. -/
theorem Inv.insertRun (h : w.Inv caller n born) {request : ℕ} {pages : List Page}
    (hp : ∀ p ∈ pages, (request, p) ∈ w.held) (keys : List Key) (parent : Option Page) :
    w.pool.insertRun keys pages parent = .error .assertion ∨
      w.pool.insertRun keys pages parent = .error .valueError ∨
      ∃ inserted pool born', w.pool.insertRun keys pages parent = .ok (inserted, pool) ∧
        (⟨pool, w.held⟩ : PoolWorld Key).Inv caller n born' := by
  induction keys generalizing w pages parent born with
  | nil =>
    cases pages with
    | nil => exact Or.inr (Or.inr ⟨0, w.pool, born, rfl, h⟩)
    | cons page pages => exact Or.inr (Or.inl rfl)
  | cons key keys ih =>
    cases pages with
    | nil => exact Or.inr (Or.inl rfl)
    | cons page pages =>
      unfold Pool.insertRun
      rcases h.insert (hp page (by simp)) key parent with herr | ⟨filed, pool, born', heq, h'⟩
      · rw [herr]
        exact Or.inl rfl
      · rw [heq]
        simp only [bind, Except.bind]
        rcases ih h' (fun p hpm => hp p (List.mem_cons_of_mem page hpm))
          (if filed = true then some page else pool.index.byKey.lookup key) with
          herr | herr | ⟨inserted, pool', born'', heq', h''⟩
        · exact Or.inl (by rw [herr])
        · exact Or.inr (Or.inl (by rw [herr]))
        · exact Or.inr (Or.inr ⟨_, pool', born'', by rw [heq']; rfl, h''⟩)

/-- A hit. -/
theorem Inv.touch (h : w.Inv caller n born) (pages : List Page) :
    (⟨{ w.pool with index := w.pool.index.touch pages }, w.held⟩ : PoolWorld Key).Inv
      caller n born := by
  have ht := h.sound.tree.touch pages
  have htidy := fun hc => (h.tidy hc).touch h.sound.tree pages
  obtain ⟨cl, st, heq⟩ := w.pool.index.touch_eq pages
  rw [heq] at ht htidy ⊢
  refine ⟨⟨ht, ?_, h.sound.children, h.sound.reports, h.sound.owned⟩, h.queued, htidy, ?_⟩
  · exact ⟨h.sound.counted.1, h.sound.counted.2, h.sound.counted.3⟩
  · exact ⟨h.accounts.1, h.accounts.2, h.accounts.3, h.accounts.4⟩

end PoolWorld

/-- Freed pages go from the index to the free list. -/
theorem Pool.Accounts.evicted {n : ℕ} {s s' : Pool Key} {held : Multiset (ℕ × Page)}
    {pages : List Page} (h : s.Accounts n held) (he : s.Evicted pages s') (hnodup : pages.Nodup)
    (hpages : ∀ p ∈ pages, (s.index.key p).isSome ∧ s.owners p ≤ 1) : s'.Accounts n held := by
  have hone : ∀ p ∈ pages, s.owners p = 1 ∧ (held.map Prod.snd).count p = 0 := by
    intro p hp
    have hold := h.owners_eq p
    rw [if_pos (hpages p hp).1] at hold
    have := (hpages p hp).2
    omega
  refine ⟨fun p => ?_, ?_, fun p => ?_, fun p hpos => ?_⟩
  · rw [he.owners, he.key]
    by_cases hp : p ∈ pages
    · simp [hp, (hone p hp).2]
    · simp only [hp, if_false]
      exact h.owners_eq p
  · rw [he.free]
    refine List.nodup_append.2 ⟨h.free_nodup, hnodup, ?_⟩
    rintro p hpf q hq rfl
    have := ((h.mem_free p).1 hpf).2
    have := (hone p hq).1
    omega
  · rw [he.free, List.mem_append, h.mem_free, he.owners]
    by_cases hp : p ∈ pages
    · have howned := (hone p hp).1
      simp [hp, h.owned_lt p (by omega)]
    · simp [hp]
  · rw [he.owners] at hpos
    by_cases hp : p ∈ pages
    · simp [hp] at hpos
    · rw [if_neg hp] at hpos
      exact h.owned_lt p hpos

namespace PoolWorld

variable {caller : Caller} {n : ℕ} {born : Page → ℕ} {w : PoolWorld Key}

/-- An evictable page is indexed, and the index its only owner. -/
theorem Inv.evictable_owner (h : w.Inv caller n born) {p : Page}
    (hp : p ∈ w.pool.index.evictable) : (w.pool.index.key p).isSome ∧ w.pool.owners p ≤ 1 := by
  obtain ⟨hkey, hin⟩ := (h.sound.counted.mem_evictable p).1 hp
  exact ⟨hkey, not_lt.1 fun hgt => hin (Or.inl hgt)⟩

/-- An eviction the caller may make. -/
theorem Inv.evict (h : w.Inv caller n born) (k : ℕ) {spare : Option (Key → Bool)}
    (hc : caller.Makes (.evict k spare)) :
    ∃ keys pool pages, w.pool.evict k spare = .ok (keys, pool) ∧
      (⟨pool, w.held⟩ : PoolWorld Key).Inv caller n born ∧ w.pool.Evicted pages pool ∧
      pages.map w.pool.index.key = keys.map some ∧ pages.Nodup ∧
      (∀ p ∈ pages, p ∈ w.pool.index.evictable) ∧
      keys.length = min k w.pool.index.evictable.card := by
  have hT : spare ≠ none → caller = .pool := by
    intro hsome
    cases caller with
    | pool => rfl
    | mirror =>
      obtain ⟨accepts, rfl⟩ := Option.ne_none_iff_exists'.1 hsome
      exact hc.elim
  obtain ⟨keys, pool, pages, heq, hs, hq, ht, he, hkeys, hnodup, hsub, hlen⟩ :=
    h.sound.evict h.queued h.tidy k hT
  exact ⟨keys, pool, pages, heq, ⟨hs, hq, ht, h.accounts.evicted he hnodup fun p hp =>
    h.evictable_owner (hsub p hp)⟩, he, hkeys, hnodup, hsub, hlen⟩

/-- Dropping entries, as the routing mirror does. -/
theorem Inv.dropEach (h : w.Inv .mirror n born) (entries : List (Key × Page)) :
    ∃ pool, w.pool.dropEach entries = .ok pool ∧
      (⟨pool, w.held⟩ : PoolWorld Key).Inv .mirror n born := by
  induction entries generalizing w with
  | nil => exact ⟨w.pool, rfl, h⟩
  | cons entry entries ih =>
    obtain ⟨key, page⟩ := entry
    unfold Pool.dropEach
    split
    · rename_i hdrop
      obtain ⟨hname, hzero, howner⟩ := hdrop
      have hkey := (h.sound.tree.names key page).1 hname
      have hleaf : w.pool.index.Leaf page := ⟨by rw [hkey]; rfl, hzero⟩
      have hnone : w.pool.Evicted [] w.pool := ⟨by simp, by simp, by simp, by simp⟩
      have he : w.pool.Evicted [page] (w.pool.without key page) :=
        Eviction.evicted_without hnone key page
      rw [Pool.remove_eq hkey hname howner]
      exact ih (w := ⟨w.pool.without key page, w.held⟩)
        ⟨h.sound.without hkey hleaf howner.le,
          Pool.queued_without fun p hp _ => h.queued p hp, by simp,
          h.accounts.evicted he (by simp) (by simpa using ⟨hleaf.1, howner.le⟩)⟩
    · exact ih h

/-- Every call a request may make returns, but for an insert's own checks, and
keeps what holds between calls. -/
theorem Inv.step (h : w.Inv caller n born) {op : PoolOp Key} (hc : caller.Makes op)
    (hp : w.Promised op) :
    w.step op = .error .assertion ∨ w.step op = .error .valueError ∨
      ∃ w' born', w.step op = .ok w' ∧ w'.Inv caller n born' := by
  cases op with
  | acquire request k =>
    obtain ⟨w', heq, h'⟩ := h.acquire request k
    exact Or.inr (Or.inr ⟨w', born, heq, h'⟩)
  | retain request pages =>
    obtain ⟨w', heq, h'⟩ := h.retain request hp
    exact Or.inr (Or.inr ⟨w', born, heq, h'⟩)
  | release request pages =>
    obtain ⟨w', heq, h'⟩ := h.release hp
    exact Or.inr (Or.inr ⟨w', born, heq, h'⟩)
  | insert request key page parent =>
    unfold PoolWorld.step
    rcases h.insert hp key parent with herr | ⟨filed, pool, born', heq, h'⟩
    · exact Or.inl (by simp only [herr]; rfl)
    · exact Or.inr (Or.inr ⟨_, born', by simp only [heq]; rfl, h'⟩)
  | insertRun request keys pages parent =>
    unfold PoolWorld.step
    rcases h.insertRun hp keys parent with herr | herr | ⟨inserted, pool, born', heq, h'⟩
    · exact Or.inl (by simp only [herr]; rfl)
    · exact Or.inr (Or.inl (by simp only [herr]; rfl))
    · exact Or.inr (Or.inr ⟨_, born', by simp only [heq]; rfl, h'⟩)
  | lookup keys => exact Or.inr (Or.inr ⟨_, born, rfl, h.touch _⟩)
  | touch pages => exact Or.inr (Or.inr ⟨_, born, rfl, h.touch pages⟩)
  | evict k spare =>
    unfold PoolWorld.step
    obtain ⟨keys, pool, pages, heq, h', _⟩ := h.evict k hc
    exact Or.inr (Or.inr ⟨_, born, by simp only [heq]; rfl, h'⟩)
  | drop entries =>
    unfold PoolWorld.step Pool.drop
    cases caller with
    | pool => exact hc.elim
    | mirror =>
      obtain ⟨pool, heq, h'⟩ := h.dropEach entries.reverse
      exact Or.inr (Or.inr ⟨_, born, by simp only [heq]; rfl, h'⟩)

/-- What holds between calls holds in every state any calls lead to. -/
theorem Reachable.inv (h : Reachable caller n w) : ∃ born, w.Inv caller n born := by
  induction h with
  | fresh => exact ⟨_, inv_fresh caller n⟩
  | step _ hc hp heq ih =>
    obtain ⟨born, ih⟩ := ih
    rcases ih.step hc hp with herr | herr | ⟨w', born', heq', h'⟩
    · rw [heq] at herr
      cases herr
    · rw [heq] at herr
      cases herr
    · rw [heq] at heq'
      cases heq'
      exact ⟨born', h'⟩

/-- In every state any calls lead to, the evictable pages are exactly those
that evicting as many pages as are indexed would free. Every eviction returns,
with as many keys as it was asked for or there are evictable pages, and no
other call raises but for an insert's own checks. -/
theorem evictable_exact (h : Reachable caller n w) :
    (∃ keys pool, w.pool.evict w.pool.index.numPages none = .ok (keys, pool) ∧
      ∀ p, p ∈ w.pool.index.evictable ↔ 0 < w.pool.owners p ∧ pool.owners p = 0) ∧
    (∀ k spare, caller.Makes (.evict k spare) →
      ∃ keys pool, w.pool.evict k spare = .ok (keys, pool) ∧
        keys.length = min k w.pool.index.evictable.card) ∧
    ∀ op, caller.Makes op → w.Promised op → (∃ w', w.step op = .ok w') ∨
      w.step op = .error .assertion ∨ w.step op = .error .valueError := by
  obtain ⟨born, hinv⟩ := h.inv
  refine ⟨?_, fun k spare hc => ?_, fun op hc hp => ?_⟩
  · have hnone : caller.Makes (.evict w.pool.index.numPages none : PoolOp Key) := by
      cases caller <;> trivial
    obtain ⟨keys, pool, pages, heq, _, he, hkeys, hnodup, hsub, hlen⟩ := hinv.evict _ hnone
    refine ⟨keys, pool, heq, fun p => ⟨fun hp => ?_, fun hp => ?_⟩⟩
    · -- every evictable page is among those freed: there are no more of them
      have hle : w.pool.index.evictable.card ≤ w.pool.index.numPages := by
        refine (Finset.card_le_card fun q hq => ?_).trans
          (PrefixIndex.card_pageSet_le w.pool.index)
        exact hinv.sound.tree.mem_pageSet.2 (hinv.evictable_owner hq).1
      have hcount : pages.length = keys.length := by simpa using congrArg List.length hkeys
      have hall : pages.toFinset = w.pool.index.evictable :=
        Finset.eq_of_subset_of_card_le (fun q hq => hsub q (List.mem_toFinset.1 hq))
          (by rw [List.toFinset_card_of_nodup hnodup]; omega)
      have hmem : p ∈ pages := by rwa [← List.mem_toFinset, hall]
      refine ⟨hinv.sound.owned p (hinv.evictable_owner hp).1, ?_⟩
      rw [he.owners, if_pos hmem]
    · by_contra hnot
      have hno : p ∉ pages := fun hm => hnot (hsub p hm)
      have hown := he.owners p
      rw [if_neg hno] at hown
      omega
  · obtain ⟨keys, pool, _, heq, _, _, _, _, _, hlen⟩ := hinv.evict k hc
    exact ⟨keys, pool, heq, hlen⟩
  · rcases hinv.step hc hp with herr | herr | ⟨w', _, heq, _⟩
    · exact Or.inr (Or.inl herr)
    · exact Or.inr (Or.inr herr)
    · exact Or.inl ⟨w', heq⟩

/-- Two pages filed one under the other by a request that then lets go of the
second: that one is evictable, the one it still holds is not. -/
theorem evictable_exact_shared :
    ∃ w : PoolWorld ℕ, w.pool.index.evictable = {1} ∧
      (∃ keys pool, w.pool.evict 2 none = .ok (keys, pool) ∧ keys.length = 1) := by
  have hacquire : Caller.pool.Makes (.acquire 1 2 : PoolOp ℕ) := trivial
  have hinsert : Caller.pool.Makes (.insertRun 1 [70, 71] [0, 1] none : PoolOp ℕ) := trivial
  have hrelease : Caller.pool.Makes (.release 1 [1] : PoolOp ℕ) := trivial
  have h : ∃ w : PoolWorld ℕ, Reachable .pool 3 w ∧ w.pool.index.evictable = {1} :=
    ⟨_, .step (.step (.step .fresh hacquire trivial rfl) hinsert (by decide) rfl)
      hrelease (by decide) rfl, by decide⟩
  obtain ⟨w, hw, hev⟩ := h
  obtain ⟨keys, pool, heq, hlen⟩ := (evictable_exact hw).2.1 2 none trivial
  exact ⟨w, hev, keys, pool, heq, by rw [hlen, hev]; rfl⟩

end PoolWorld

end Mstar
