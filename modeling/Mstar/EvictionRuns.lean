import Mathlib.Logic.Relation
import Mstar.LeastRecentLeaf

/-!
# Evictions over whole runs

Requests acquire, lease, release and file pages, between hits, drops and
evictions with any `spare`, whether or not the arena reports to the index. The
ancestors of an indexed page stay indexed, every leaf stays in the heap, and
each eviction drops the least recent free leaf first, as long as no leaf it
would spare has two heap entries. Dropping a page behind the heap's back gives
its parent a second one, and evicting with a `spare` then meets that page
twice.
-/

namespace Mstar

variable {Key : Type} [DecidableEq Key]

namespace PoolWorld

/-- An eviction is asked for only where no leaf it would spare has two heap
entries. -/
def MeetsOnce (w : PoolWorld Key) : PoolOp Key → Prop
  | .evict _ spare => w.pool.MetOnce spare
  | _ => True

/-- The states such calls lead to, in any order. -/
inductive Runs (n : ℕ) (reports : Bool) : PoolWorld Key → Prop
  | fresh : Runs n reports ⟨.freshWith n reports, 0⟩
  | step {w w' : PoolWorld Key} {op : PoolOp Key} : Runs n reports w → w.MeetsOnce op →
      w.Promised op → w.step op = .ok w' → Runs n reports w'

/-- What holds of a pool between any two calls, also after drops. -/
structure Kept (n : ℕ) (born : Page → ℕ) (w : PoolWorld Key) : Prop where
  /-- The index's tables are those of a tree. -/
  whole : w.pool.Whole born
  /-- Old heap entries come before a page's own. -/
  heaped : w.pool.index.Heaped born
  /-- Every leaf is in the heap. -/
  queued : w.pool.index.Queued []
  /-- The owners are accounted for. -/
  accounts : w.pool.Accounts n w.held

end PoolWorld

/-- Every page indexed before keeps its key and its parent. -/
def Pool.Grows (s s' : Pool Key) : Prop :=
  ∀ p, (s.index.key p).isSome →
    s'.index.key p = s.index.key p ∧ s'.index.parent p = s.index.parent p

/-- Every page still indexed has the key and the parent it had. -/
def Pool.Shrinks (s s' : Pool Key) : Prop :=
  ∀ p, (s'.index.key p).isSome →
    s'.index.key p = s.index.key p ∧ s'.index.parent p = s.index.parent p

namespace Pool

variable {n : ℕ} {held : Multiset (ℕ × Page)} {s s' s'' : Pool Key}
  {spare : Option (Key → Bool)} {drops : List (Key × Page)}

/-- Growing twice. -/
theorem Grows.trans (h : s.Grows s') (h' : s'.Grows s'') : s.Grows s'' := by
  intro p hp
  obtain ⟨hk, hq⟩ := h p hp
  obtain ⟨hk', hq'⟩ := h' p (by rwa [hk])
  exact ⟨hk'.trans hk, hq'.trans hq⟩

/-- Shrinking twice. -/
theorem Shrinks.trans (h : s.Shrinks s') (h' : s'.Shrinks s'') : s.Shrinks s'' := by
  intro p hp
  obtain ⟨hk, hq⟩ := h' p hp
  obtain ⟨hk', hq'⟩ := h p (by rwa [← hk])
  exact ⟨hk.trans hk', hq.trans hq'⟩

/-- A call that moves owner counts alone. -/
theorem Moves.grows {owners : Page → ℕ} (h : s.Moves owners s') : s.Grows s' := by
  intro p _
  obtain ⟨_, _, _, heq⟩ := h.remarked
  rw [heq]
  exact ⟨rfl, rfl⟩

/-- Dropping a page. -/
theorem shrinks_without (s : Pool Key) (key : Key) (page : Page) :
    s.Shrinks (s.without key page) := by
  intro p hp
  rw [key_without] at hp ⊢
  rw [parent_without]
  by_cases hpp : p = page
  · rw [if_pos hpp] at hp
    cases hp
  · rw [if_neg hpp, if_neg hpp]
    exact ⟨rfl, rfl⟩

/-- Filing a page that was not indexed. -/
theorem grows_filed {key : Key} {page : Page} (hpage : s.index.key page = none)
    {parent : Option Page} {ix : PrefixIndex Key}
    (hr : (s.index.file key page parent).Remarked ix) : s.Grows (s.filed page ix parent) := by
  intro p hp
  have hpp : p ≠ page := by
    rintro rfl
    simp [hpage] at hp
  obtain ⟨_, heq⟩ := ix.adopt_eq page parent
  change (s.filed page ix parent).index = _ at heq
  rw [heq]
  obtain ⟨_, _, _, rfl⟩ := hr
  constructor
  · exact if_neg hpp
  · exact if_neg hpp

/-- Dropping a free leaf moves its page to the free list. -/
theorem Accounts.without (h : s.Accounts n held) {key : Key} {page : Page}
    (hleaf : s.FreeLeaf page) : (s.without key page).Accounts n held := by
  have hnone : s.Evicted [] s := ⟨by simp, by simp, by simp, by simp⟩
  have he : s.Evicted [page] (s.without key page) := Eviction.evicted_without hnone key page
  exact h.evicted he (by simp) (by simpa using ⟨hleaf.1.1, hleaf.2⟩)

/-- Removing a page that returns is dropping it. -/
theorem Whole.remove {born : Page → ℕ} (h : s.Whole born) {key : Key} {page : Page}
    (hkey : s.index.key page = some key) (hleaf : s.FreeLeaf page) :
    s.remove page = .ok (s.without key page) := by
  have hpos := h.owned page hleaf.1.1
  have hle := hleaf.2
  exact remove_eq hkey ((h.tree.names key page).2 hkey) (by omega)

/-- What is left once pages are dropped in order. -/
theorem DropsInOrder.kept {born : Page → ℕ} (h : s.DropsInOrder spare drops s')
    (hw : s.Whole born) (ha : s.Accounts n held) : s'.Accounts n held ∧ s.Shrinks s' := by
  induction h with
  | nil s => exact ⟨ha, fun p _ => ⟨rfl, rfl⟩⟩
  | @cons s s₁ s₂ key page drops hkey hnext hremove _ ih =>
    rw [hw.remove hkey hnext.free] at hremove
    cases hremove
    obtain ⟨haccounts, hshrinks⟩ := ih (hw.without hkey hnext.free.1 hnext.free.2)
      (ha.without hnext.free)
    exact ⟨haccounts, (shrinks_without s key page).trans hshrinks⟩

end Pool

namespace PoolWorld

variable {n : ℕ} {reports : Bool} {born : Page → ℕ} {w w' : PoolWorld Key}

/-- A fresh pool. -/
theorem kept_fresh (n : ℕ) (reports : Bool) :
    (⟨.freshWith n reports, 0⟩ : PoolWorld Key).Kept n fun _ => 0 := by
  have h : (fresh n : PoolWorld Key).Inv .mirror n fun _ => 0 := inv_fresh .mirror n
  constructor
  · exact ⟨h.sound.tree, h.sound.children, h.sound.owned, fun _ => h.sound.counted⟩
  · constructor <;> simp [Pool.freshWith, Pool.fresh, PrefixIndex.empty]
  · exact h.queued
  · exact ⟨h.accounts.1, h.accounts.2, h.accounts.3, h.accounts.4⟩

/-- Acquiring pages, or too few being free. -/
theorem Kept.acquire (h : w.Kept n born) {request k : ℕ}
    (heq : w.step (.acquire request k) = .ok w') : w'.Kept n born ∧ w.pool.Grows w'.pool := by
  unfold step at heq
  cases hacquire : w.pool.arena.acquire k with
  | none =>
    simp only [hacquire] at heq
    cases heq
    exact ⟨h, fun p _ => ⟨rfl, rfl⟩⟩
  | some taken =>
    obtain ⟨pages, arena⟩ := taken
    simp only [hacquire] at heq
    cases heq
    obtain ⟨hsame, hrep, haccounts⟩ := h.accounts.acquire h.whole.owned hacquire request
    refine ⟨⟨⟨h.whole.tree, h.whole.children, fun p hp => ?_, fun hon => ?_⟩, h.heaped, h.queued,
      haccounts⟩, fun p _ => ⟨rfl, rfl⟩⟩
    · change 0 < arena.numOwners p
      rw [hsame p hp]
      exact h.whole.owned p hp
    · refine (h.whole.counted (hrep ▸ hon)).congr h.whole.tree fun y hy => ?_
      simp [PrefixIndex.OutOfReach, Pool.owners, hsame y hy]

/-- Leasing pages that somebody has. -/
theorem Kept.retain (h : w.Kept n born) {request : ℕ} {pages : List Page}
    (hp : ∀ p ∈ pages, 0 < w.pool.owners p) (heq : w.step (.retain request pages) = .ok w') :
    w'.Kept n born ∧ w.pool.Grows w'.pool := by
  obtain ⟨s', hretain, hs, hfree, hm⟩ := h.whole.retain pages
  unfold step at heq
  simp only [hretain] at heq
  cases heq
  exact ⟨⟨hs, hm.remarked.heaped h.heaped, hm.remarked.queued h.queued,
    h.accounts.retain hp hfree hm request⟩, hm.grows⟩

/-- Releasing references a request holds. -/
theorem Kept.release (h : w.Kept n born) {request : ℕ} {pages : List Page}
    (hp : refs request pages ≤ w.held) (heq : w.step (.release request pages) = .ok w') :
    w'.Kept n born ∧ w.pool.Grows w'.pool := by
  obtain ⟨gone, s', hrelease, hs, hfree, hm, hnodup, hgone⟩ :=
    h.whole.release pages (h.accounts.count_refs_le hp)
  unfold step at heq
  simp only [hrelease] at heq
  cases heq
  exact ⟨⟨hs, hm.remarked.heaped h.heaped, hm.remarked.queued h.queued,
    h.accounts.release hp hfree hm hnodup hgone⟩, hm.grows⟩

/-- Filing a page a request holds. -/
theorem Kept.insert (h : w.Kept n born) {request : ℕ} {page : Page}
    (hp : (request, page) ∈ w.held) {key : Key} {parent : Option Page} {filed : Bool}
    {pool : Pool Key} (heq : w.pool.insert key page parent = .ok (filed, pool)) :
    ∃ born', (⟨pool, w.held⟩ : PoolWorld Key).Kept n born' ∧ w.pool.Grows pool := by
  have hone := h.accounts.owners_pos hp
  rcases h.whole.insert_cases hone key parent with herr | hsame |
    ⟨hpage, hkey, hpar, ix, hr, hfiled, hs⟩
  · rw [herr] at heq
    cases heq
  · rw [hsame] at heq
    cases heq
    exact ⟨born, h, fun p _ => ⟨rfl, rfl⟩⟩
  · rw [hfiled] at heq
    cases heq
    exact ⟨_, ⟨hs, h.whole.heaped_filed hpar hpage hr h.heaped, h.whole.queued_filed hr h.queued,
      h.accounts.filed hpage hone hr⟩, Pool.grows_filed hpage hr⟩

/-- Filing a run of pages a request holds. -/
theorem Kept.insertRun {request : ℕ} {pages : List Page} {keys : List Key} {parent : Option Page}
    {inserted : ℕ} {pool : Pool Key} (h : w.Kept n born)
    (hp : ∀ p ∈ pages, (request, p) ∈ w.held)
    (heq : w.pool.insertRun keys pages parent = .ok (inserted, pool)) :
    ∃ born', (⟨pool, w.held⟩ : PoolWorld Key).Kept n born' ∧ w.pool.Grows pool := by
  induction keys generalizing w pages parent born inserted with
  | nil =>
    cases pages with
    | nil =>
      cases heq
      exact ⟨born, h, fun p _ => ⟨rfl, rfl⟩⟩
    | cons page pages => cases heq
  | cons key keys ih =>
    cases pages with
    | nil => cases heq
    | cons page pages =>
      unfold Pool.insertRun at heq
      cases hinsert : w.pool.insert key page parent with
      | error r =>
        rw [hinsert] at heq
        cases heq
      | ok result =>
        obtain ⟨filed, pool₁⟩ := result
        rw [hinsert] at heq
        simp only [bind, Except.bind] at heq
        obtain ⟨born₁, h₁, hgrows₁⟩ := h.insert (hp page (by simp)) hinsert
        cases hrest : pool₁.insertRun keys pages
            (if filed = true then some page else pool₁.index.byKey.lookup key) with
        | error r =>
          rw [hrest] at heq
          cases heq
        | ok result =>
          obtain ⟨inserted₂, pool₂⟩ := result
          rw [hrest] at heq
          cases heq
          obtain ⟨born₂, h₂, hgrows₂⟩ :=
            ih h₁ (fun p hpm => hp p (List.mem_cons_of_mem page hpm)) hrest
          exact ⟨born₂, h₂, hgrows₁.trans hgrows₂⟩

/-- A hit. -/
theorem Kept.touch (h : w.Kept n born) (pages : List Page) :
    (⟨{ w.pool with index := w.pool.index.touch pages }, w.held⟩ : PoolWorld Key).Kept n born ∧
      w.pool.Grows { w.pool with index := w.pool.index.touch pages } := by
  have ht := h.whole.tree.touch pages
  have hh := h.heaped.touch pages
  obtain ⟨cl, st, heq⟩ := w.pool.index.touch_eq pages
  rw [heq] at ht hh ⊢
  refine ⟨⟨⟨ht, h.whole.children, h.whole.owned, fun hon => ?_⟩, hh, h.queued, ?_⟩,
    fun p _ => ⟨rfl, rfl⟩⟩
  · exact ⟨(h.whole.counted hon).1, (h.whole.counted hon).2, (h.whole.counted hon).3⟩
  · exact ⟨h.accounts.1, h.accounts.2, h.accounts.3, h.accounts.4⟩

/-- Dropping entries. -/
theorem Kept.dropEach (h : w.Kept n born) (entries : List (Key × Page)) :
    ∃ pool, w.pool.dropEach entries = .ok pool ∧
      (⟨pool, w.held⟩ : PoolWorld Key).Kept n born ∧ w.pool.Shrinks pool := by
  induction entries generalizing w with
  | nil => exact ⟨w.pool, rfl, h, fun p _ => ⟨rfl, rfl⟩⟩
  | cons entry entries ih =>
    obtain ⟨key, page⟩ := entry
    unfold Pool.dropEach
    split
    · rename_i hdrop
      obtain ⟨hname, hzero, howner⟩ := hdrop
      have hkey := (h.whole.tree.names key page).1 hname
      have hleaf : w.pool.FreeLeaf page := ⟨⟨by rw [hkey]; rfl, hzero⟩, howner.le⟩
      rw [h.whole.remove hkey hleaf]
      have hnext : (⟨w.pool.without key page, w.held⟩ : PoolWorld Key).Kept n born :=
        ⟨h.whole.without hkey hleaf.1 hleaf.2, h.whole.heaped_without hkey hleaf.1 hleaf.2 h.heaped,
          Pool.queued_without fun p hp _ => h.queued p hp, h.accounts.without hleaf⟩
      obtain ⟨pool, heq, hpool, hshrinks⟩ := ih hnext
      exact ⟨pool, heq, hpool, (Pool.shrinks_without w.pool key page).trans hshrinks⟩
    · exact ih h

/-- An eviction, with a `spare` or without. -/
theorem Kept.evict (h : w.Kept n born) (k : ℕ) {spare : Option (Key → Bool)}
    (hone : w.pool.MetOnce spare) :
    ∃ drops pool t, w.pool.evict k spare = .ok (drops.map (·.1), pool) ∧
      w.pool.DropsInOrder spare drops t ∧ pool = t.withLeaves pool.index.leaves ∧
      drops.length ≤ k ∧ (drops.length < k → ∀ p, ¬pool.FreeLeaf p) ∧
      (⟨pool, w.held⟩ : PoolWorld Key).Kept n born ∧ w.pool.Shrinks pool := by
  obtain ⟨drops, pool, t, heq, horder, hpool, hw, hh, hq, hlen, hstop⟩ :=
    h.whole.evict h.heaped h.queued k hone
  obtain ⟨ha, hshrinks⟩ := horder.kept h.whole h.accounts
  refine ⟨drops, pool, t, heq, horder, hpool, hlen, hstop, ⟨hw, hh, hq, ?_⟩, ?_⟩
  · generalize pool.index.leaves = leaves at hpool
    rw [hpool]
    exact ⟨ha.1, ha.2, ha.3, ha.4⟩
  · generalize pool.index.leaves = leaves at hpool
    rw [hpool]
    exact hshrinks

/-- Every call that returns keeps what holds between calls, and either files
pages or drops some. -/
theorem Kept.step (h : w.Kept n born) {op : PoolOp Key} (hone : w.MeetsOnce op)
    (hp : w.Promised op) (heq : w.step op = .ok w') :
    ∃ born', w'.Kept n born' ∧ (w.pool.Grows w'.pool ∨ w.pool.Shrinks w'.pool) := by
  cases op with
  | acquire request k =>
    obtain ⟨h', hgrows⟩ := h.acquire heq
    exact ⟨born, h', Or.inl hgrows⟩
  | retain request pages =>
    obtain ⟨h', hgrows⟩ := h.retain hp heq
    exact ⟨born, h', Or.inl hgrows⟩
  | release request pages =>
    obtain ⟨h', hgrows⟩ := h.release hp heq
    exact ⟨born, h', Or.inl hgrows⟩
  | insert request key page parent =>
    cases hinsert : w.pool.insert key page parent with
    | error r => simp [PoolWorld.step, hinsert, bind, Except.bind] at heq
    | ok result =>
      obtain ⟨filed, pool⟩ := result
      simp only [PoolWorld.step, hinsert] at heq
      cases heq
      obtain ⟨born', h', hgrows⟩ := h.insert hp hinsert
      exact ⟨born', h', Or.inl hgrows⟩
  | insertRun request keys pages parent =>
    cases hinsert : w.pool.insertRun keys pages parent with
    | error r => simp [PoolWorld.step, hinsert, bind, Except.bind] at heq
    | ok result =>
      obtain ⟨inserted, pool⟩ := result
      simp only [PoolWorld.step, hinsert] at heq
      cases heq
      obtain ⟨born', h', hgrows⟩ := h.insertRun hp hinsert
      exact ⟨born', h', Or.inl hgrows⟩
  | lookup keys =>
    cases heq
    obtain ⟨h', hgrows⟩ := h.touch (w.pool.index.pagesFor keys)
    exact ⟨born, h', Or.inl hgrows⟩
  | touch pages =>
    cases heq
    obtain ⟨h', hgrows⟩ := h.touch pages
    exact ⟨born, h', Or.inl hgrows⟩
  | evict k spare =>
    obtain ⟨drops, pool, _, hevict, _, _, _, _, h', hshrinks⟩ := h.evict k hone
    simp only [PoolWorld.step, hevict] at heq
    cases heq
    exact ⟨born, h', Or.inr hshrinks⟩
  | drop entries =>
    obtain ⟨pool, hdrop, h', hshrinks⟩ := h.dropEach entries.reverse
    simp only [PoolWorld.step, Pool.drop, hdrop] at heq
    cases heq
    exact ⟨born, h', Or.inr hshrinks⟩

/-- What holds between calls holds in every state a run leads to. -/
theorem Runs.kept (h : Runs n reports w) : ∃ born, w.Kept n born := by
  induction h with
  | fresh => exact ⟨_, kept_fresh n reports⟩
  | step _ hone hp heq ih =>
    obtain ⟨born, ih⟩ := ih
    obtain ⟨born', h', _⟩ := ih.step hone hp heq
    exact ⟨born', h'⟩

/-- In every state a run leads to, the ancestors of an indexed page are
indexed and stay its ancestors while it is, every free leaf is in the heap,
and an eviction that would spare no leaf with two heap entries returns: it
drops the least recent free leaf first, a spared one only when no other is
left, and stops short of what it was asked for only when no free leaf is
left. -/
theorem evicts_least_recent (h : Runs n reports w) :
    (∀ p q, (w.pool.index.key p).isSome →
      Relation.ReflTransGen (fun a b => w.pool.index.parent a = some b) p q →
        (w.pool.index.key q).isSome) ∧
    (∀ op w', w.MeetsOnce op → w.Promised op → w.step op = .ok w' → ∀ p,
      (w.pool.index.key p).isSome → (w'.pool.index.key p).isSome →
        w'.pool.index.key p = w.pool.index.key p ∧
          w'.pool.index.parent p = w.pool.index.parent p) ∧
    (∀ p, w.pool.FreeLeaf p → p ∈ w.pool.index.leaves.map (·.2)) ∧
    ∀ k spare, w.pool.MetOnce spare →
      ∃ drops pool t, w.pool.evict k spare = .ok (drops.map (·.1), pool) ∧
        w.pool.DropsInOrder spare drops t ∧ pool = t.withLeaves pool.index.leaves ∧
        drops.length ≤ k ∧ (drops.length < k → ∀ p, ¬pool.FreeLeaf p) := by
  obtain ⟨born, hkept⟩ := h.kept
  refine ⟨fun p q hp hpq => ?_, fun op w' hone hpr heq p hp hp' => ?_, fun p hp => ?_,
    fun k spare hone => ?_⟩
  · induction hpq with
    | refl => exact hp
    | tail _ hstep _ => exact (hkept.whole.tree.parent_held hstep).2
  · obtain ⟨_, _, hgrows | hshrinks⟩ := hkept.step hone hpr heq
    · exact hgrows p hp
    · exact hshrinks p hp'
  · simpa using hkept.queued p hp.1
  · obtain ⟨drops, pool, t, heq, horder, hpool, hlen, hstop, _⟩ := hkept.evict k hone
    exact ⟨drops, pool, t, heq, horder, hpool, hlen, hstop⟩

/-- Two pages filed side by side and let go of, the first hit once more. -/
theorem evicts_least_recent_hit : ∃ w : PoolWorld ℕ, w.pool.index.stamp 0 = 3 ∧
    w.pool.index.stamp 1 = 2 ∧ ∃ drops pool, w.pool.evict 2 none = .ok (drops, pool) := by
  have hacquire : ∀ w : PoolWorld ℕ, w.MeetsOnce (.acquire 1 2) := fun _ => trivial
  have hfirst : ∀ w : PoolWorld ℕ, w.MeetsOnce (.insert 1 70 0 none) := fun _ => trivial
  have hsecond : ∀ w : PoolWorld ℕ, w.MeetsOnce (.insert 1 71 1 none) := fun _ => trivial
  have hrelease : ∀ w : PoolWorld ℕ, w.MeetsOnce (.release 1 [0, 1]) := fun _ => trivial
  have hhit : ∀ w : PoolWorld ℕ, w.MeetsOnce (.touch [0]) := fun _ => trivial
  have h : ∃ w : PoolWorld ℕ, Runs 2 true w ∧ w.pool.index.stamp 0 = 3 ∧
      w.pool.index.stamp 1 = 2 :=
    ⟨_, .step (.step (.step (.step (.step .fresh (hacquire _) trivial rfl)
      (hfirst _) (by decide) rfl) (hsecond _) (by decide) rfl) (hrelease _) (by decide) rfl)
      (hhit _) trivial rfl, by decide, by decide⟩
  obtain ⟨w, hw, hzero, hone⟩ := h
  have hmet : w.pool.MetOnce none := fun p _ hs => by
    obtain ⟨_, _, hs⟩ := hs
    simp at hs
  obtain ⟨drops, pool, _, heq, _⟩ := (evicts_least_recent hw).2.2.2 2 none hmet
  exact ⟨w, hzero, hone, _, pool, heq⟩

/-- A child dropped behind the heap's back leaves its parent with two entries.
An eviction that spares the parent's key puts both aside, drops the parent at
the first and asks for the key of a page that has none at the second. -/
theorem dropped_leaf_met_twice : ∃ w : PoolWorld ℕ, Runs 2 true w ∧
    w.pool.evict 2 (some fun _ => true) = .error .keyError := by
  have hacquire : ∀ w : PoolWorld ℕ, w.MeetsOnce (.acquire 1 2) := fun _ => trivial
  have hinsert : ∀ w : PoolWorld ℕ, w.MeetsOnce (.insertRun 1 [70, 71] [0, 1] none) :=
    fun _ => trivial
  have hrelease : ∀ w : PoolWorld ℕ, w.MeetsOnce (.release 1 [0, 1]) := fun _ => trivial
  have hdrop : ∀ w : PoolWorld ℕ, w.MeetsOnce (.drop [(71, 1)]) := fun _ => trivial
  exact ⟨_, .step (.step (.step (.step .fresh (hacquire _) trivial rfl)
    (hinsert _) (by decide) rfl) (hrelease _) (by decide) rfl) (hdrop _) trivial rfl, rfl⟩

end PoolWorld

end Mstar
