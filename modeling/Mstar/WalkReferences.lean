import Mathlib.Algebra.BigOperators.Group.Finset.Basic
import Mathlib.Algebra.Order.BigOperators.Group.Finset
import Mstar.RequestState

/-!
# The references a walk holds

A walk holds a reference for every tensor in a slot that owns it and in a
loop's caches. Resetting and clearing a loop's body moves each reference of
its slots and accumulated outputs to the releases of the completion under
way; only a regular cache is dropped without one.
-/

namespace Mstar.Walk

open Shard (Sym TensorRef)
open CompiledGraph (mem_childLoops)

/-- How often a uuid is among some tensors. -/
def refsTo (u : ℕ) (ts : List TensorRef) : ℕ := (uuids ts).count u

/-- The references some inputs of a slot hold. -/
def Slot.refs (s : Slot) (slots : Mask) (u : ℕ) : ℕ :=
  ∑ i ∈ slots, refsTo u ((s.tensors i).getD [])

/-- The references a cache holds. -/
def cacheRefs (cache : List (Sym × List TensorRef)) (u : ℕ) : ℕ := (cacheUuids cache).count u

/-- The references a node in some state holds. -/
def nodeRefs (g : CompiledGraph) (n : NodeId) (st : NodeState) (u : ℕ) : ℕ :=
  st.cur.refs (g.ownMask n) u + st.next.refs (g.ownMask n) u

/-- A sum of which one term changed. -/
theorem sum_change {s : Finset ℕ} {e f : ℕ → ℕ} {a : ℕ} (ha : a ∈ s)
    (h : ∀ x ∈ s, x ≠ a → f x = e x) : ∑ x ∈ s, f x + e a = ∑ x ∈ s, e x + f a := by
  have hrest : ∑ x ∈ s.erase a, f x = ∑ x ∈ s.erase a, e x :=
    Finset.sum_congr rfl fun x hx => h x (Finset.mem_of_mem_erase hx) (Finset.ne_of_mem_erase hx)
  rw [← Finset.add_sum_erase s f ha, ← Finset.add_sum_erase s e ha, hrest]
  omega

/-- Steps that are each in a transitive relation lead to related ends. -/
theorem foldl_related {σ α : Type} {R : σ → σ → Prop} (refl : ∀ s, R s s)
    (trans : ∀ {a b c}, R a b → R b c → R a c) {f : σ → α → σ} {l : List α}
    (h : ∀ s, ∀ x ∈ l, R s (f s x)) (s : σ) : R s (l.foldl f s) := by
  induction l generalizing s with
  | nil => exact refl s
  | cons x xs ih =>
    rw [List.foldl_cons]
    exact trans (h s x List.mem_cons_self) (ih (fun s y hy => h s y (List.mem_cons_of_mem _ hy)) _)

/-- Steps that each keep a value keep it together. -/
theorem foldl_same {σ α β : Type} (p : σ → β) {f : σ → α → σ} {l : List α}
    (h : ∀ s, ∀ x ∈ l, p (f s x) = p s) (s : σ) : p (l.foldl f s) = p s :=
  foldl_related (R := fun s s' => p s' = p s) (fun _ => rfl) (fun h h' => h'.trans h) h s

section Slots

variable (s : Slot) (slots : Mask) (u : ℕ)

/-- No tensors refer to none. -/
@[simp] theorem refsTo_nil : refsTo u [] = 0 := rfl

/-- A tensor is referred to where it is one of them. -/
theorem refsTo_pos {ts : List TensorRef} : 0 < refsTo u ts ↔ ∃ t ∈ ts, t.uuid = u := by
  unfold refsTo uuids
  rw [List.count_pos_iff, List.mem_map]

/-- A new slot holds nothing. -/
@[simp] theorem Slot.new_refs : Slot.new.refs slots u = 0 := by
  unfold Slot.refs Slot.new
  simp

/-- Nor does a cleared one. -/
@[simp] theorem Slot.clear_refs : s.clear.refs slots u = 0 := Slot.new_refs slots u

/-- An input that arrives brings its references. -/
theorem Slot.set_refs {slot : ℕ} (h : s.has slot = false) (t : List TensorRef) (fin : Bool) :
    (s.set slot t fin).refs slots u = s.refs slots u + if slot ∈ slots then refsTo u t else 0 := by
  have hnone := Slot.tensors_of_not_has h
  unfold Slot.refs Slot.set
  dsimp only
  by_cases hm : slot ∈ slots
  · have hchange := sum_change (e := fun i => refsTo u ((s.tensors i).getD []))
      (f := fun i => refsTo u ((Function.update s.tensors slot (some t) i).getD [])) hm
      fun x _ hx => by rw [Function.update_of_ne hx]
    simp only [hnone, Function.update_self, Option.getD_none, Option.getD_some, refsTo_nil]
      at hchange
    rw [if_pos hm]
    omega
  · rw [if_neg hm]
    refine (Finset.sum_congr rfl fun i hi => ?_).trans (Nat.add_zero _).symm
    have hne : i ≠ slot := by
      rintro rfl
      exact hm hi
    rw [Function.update_of_ne hne]

/-- Inputs that are taken hold nothing. -/
theorem Slot.takeAll_refs : (s.takeAll slots).refs slots u = 0 := by
  unfold Slot.refs Slot.takeAll
  refine Finset.sum_eq_zero fun i hi => ?_
  simp [hi]

end Slots

namespace RequestState

variable (g : CompiledGraph) (s : RequestState) (u : ℕ)

/-- References of the slots. -/
def slotRefs : ℕ := ∑ n ∈ Finset.range g.nodes.length, nodeRefs g n (s.nodes n) u

/-- References of the accumulated outputs. -/
def accumRefs : ℕ := ∑ l ∈ Finset.range g.loops.length, cacheRefs (s.loops l).accum u

/-- References of the regular caches. -/
def cachedRefs : ℕ := ∑ l ∈ Finset.range g.loops.length, cacheRefs (s.loops l).cached u

/-- The references to a tensor the walk holds. -/
def holds : ℕ := slotRefs g s u + accumRefs g s u + cachedRefs g s u

/-- The references the walk holds outside its regular caches, or has just
released or handed on. -/
def tally : ℕ :=
  slotRefs g s u + accumRefs g s u + (s.refsReleased.count u + s.refsTransferred.count u)

/-- A node without inputs holds nothing. -/
theorem nodeRefs_of_ge {n : NodeId} (hn : g.nodes.length ≤ n) (st : NodeState) :
    nodeRefs g n st u = 0 := by
  have hnode : g.node n = default := by
    unfold CompiledGraph.node
    rw [List.getD_eq_getElem?_getD, List.getElem?_eq_none hn]
    rfl
  have hown : g.ownMask n = ∅ := by
    unfold CompiledGraph.ownMask NodeSpec.fullMask
    rw [hnode]
    exact Finset.empty_sdiff _
  unfold nodeRefs Slot.refs
  rw [hown]
  simp

/-- Replacing a node's state replaces what it holds. -/
theorem slotRefs_setNode (n : NodeId) (st : NodeState) :
    slotRefs g (s.setNode n st) u + nodeRefs g n (s.nodes n) u =
      slotRefs g s u + nodeRefs g n st u := by
  unfold slotRefs setNode
  dsimp only
  by_cases hn : n ∈ Finset.range g.nodes.length
  · have hchange := sum_change (e := fun n => nodeRefs g n (s.nodes n) u)
      (f := fun m => nodeRefs g m (Function.update s.nodes n st m) u) hn
      fun x _ hx => by rw [Function.update_of_ne hx]
    simpa using hchange
  · have hge : g.nodes.length ≤ n := by simpa using hn
    rw [nodeRefs_of_ge g u hge, nodeRefs_of_ge g u hge]
    congr 1
    refine Finset.sum_congr rfl fun m hm => ?_
    have hne : m ≠ n := by
      rintro rfl
      exact hn hm
    rw [Function.update_of_ne hne]

/-- Replacing a loop's state replaces its accumulated outputs. -/
theorem accumRefs_setLoop {l : LoopId} (hl : l < g.loops.length) (st : LoopState) :
    accumRefs g (s.setLoop l st) u + cacheRefs (s.loops l).accum u =
      accumRefs g s u + cacheRefs st.accum u := by
  have hchange := sum_change (e := fun l => cacheRefs (s.loops l).accum u)
    (f := fun m => cacheRefs (Function.update s.loops l st m).accum u) (Finset.mem_range.2 hl)
    fun x _ hx => by rw [Function.update_of_ne hx]
  rw [Function.update_self] at hchange
  exact hchange

/-- Replacing a loop's state replaces its cache. -/
theorem cachedRefs_setLoop {l : LoopId} (hl : l < g.loops.length) (st : LoopState) :
    cachedRefs g (s.setLoop l st) u + cacheRefs (s.loops l).cached u =
      cachedRefs g s u + cacheRefs st.cached u := by
  have hchange := sum_change (e := fun l => cacheRefs (s.loops l).cached u)
    (f := fun m => cacheRefs (Function.update s.loops l st m).cached u) (Finset.mem_range.2 hl)
    fun x _ hx => by rw [Function.update_of_ne hx]
  rw [Function.update_self] at hchange
  exact hchange

/-- The uuids a slot owns are its references. -/
theorem count_slotUuids (n : NodeId) (slot : Slot) :
    (slotUuids g n slot).count u = slot.refs (g.ownMask n) u := by
  have hown : g.ownMask n = (Finset.range (g.node n).inputs.length).filter (· ∉ g.heldMask n) := by
    unfold CompiledGraph.ownMask NodeSpec.fullMask
    ext i
    simp
  have hlist : (Finset.range (g.node n).inputs.length) =
      (List.range (g.node n).inputs.length).toFinset := by
    ext i
    simp
  unfold slotUuids Slot.refs
  rw [List.count_flatMap, hown, Finset.sum_filter, hlist, List.sum_toFinset _ List.nodup_range]
  congr 1
  refine List.map_congr_left fun i _ => ?_
  by_cases hi : i ∈ g.heldMask n
  · simp [hi]
  · simp [hi, refsTo]

/-- A slot that owns its inputs has every tensor it was given. -/
def Arrived (n : NodeId) (i : ℕ) (ts : List TensorRef) : Prop :=
  (s.nodes n).cur.tensors i = some ts ∨ (s.nodes n).next.tensors i = some ts

end RequestState

open RequestState

/-- Going from one state to another only releases: what the slots and the
accumulated outputs held is held or released, and nothing arrives anywhere. -/
structure Releases (g : CompiledGraph) (u : ℕ) (s s' : RequestState) : Prop where
  /-- Nothing is lost outside the regular caches. -/
  tally_eq : tally g s' u = tally g s u
  /-- No reference is taken. -/
  taken_eq : s'.refsTaken = s.refsTaken
  /-- Nothing is handed on. -/
  transferred_eq : s'.refsTransferred = s.refsTransferred
  /-- A regular cache does not grow. -/
  cached_le : ∀ l, cacheRefs (s'.loops l).cached u ≤ cacheRefs (s.loops l).cached u
  /-- What is in a slot was there. -/
  arrived : ∀ ⦃n i ts⦄, s'.Arrived n i ts → s.Arrived n i ts
  /-- What is saved was saved. -/
  saved : ∀ l, (s'.loops l).extInputs ⊆ (s.loops l).extInputs

namespace Releases

variable {g : CompiledGraph} {u : ℕ} {s s' s'' : RequestState}

/-- Nothing released. -/
theorem refl (s : RequestState) : Releases g u s s :=
  ⟨rfl, rfl, rfl, fun _ => le_rfl, fun _ _ _ h => h, fun _ => List.Subset.refl _⟩

/-- One release after another. -/
theorem trans (h : Releases g u s s') (h' : Releases g u s' s'') : Releases g u s s'' where
  tally_eq := h'.tally_eq.trans h.tally_eq
  taken_eq := h'.taken_eq.trans h.taken_eq
  transferred_eq := h'.transferred_eq.trans h.transferred_eq
  cached_le l := (h'.cached_le l).trans (h.cached_le l)
  arrived _ _ _ ha := h.arrived (h'.arrived ha)
  saved l := List.Subset.trans (h'.saved l) (h.saved l)

/-- A node whose slots are released and then emptied or swapped. -/
theorem of_node {n : NodeId} (st : NodeState) (us : List ℕ) (s : RequestState)
    (hrefs : nodeRefs g n st u + us.count u = nodeRefs g n (s.nodes n) u)
    (harr : ∀ i ts, st.cur.tensors i = some ts ∨ st.next.tensors i = some ts → s.Arrived n i ts) :
    Releases g u s ((s.release us).setNode n st) where
  tally_eq := by
    have hslots := slotRefs_setNode g (s.release us) u n st
    have hsame : slotRefs g (s.release us) u = slotRefs g s u := rfl
    have hnode : (s.release us).nodes n = s.nodes n := rfl
    have haccum : accumRefs g ((s.release us).setNode n st) u = accumRefs g s u := rfl
    have hrel : ((s.release us).setNode n st).refsReleased = s.refsReleased ++ us := rfl
    have htrans : ((s.release us).setNode n st).refsTransferred = s.refsTransferred := rfl
    unfold tally
    rw [haccum, hrel, htrans, List.count_append]
    rw [hsame, hnode] at hslots
    omega
  taken_eq := rfl
  transferred_eq := rfl
  cached_le _ := le_rfl
  arrived := by
    intro m i ts ha
    by_cases hm : m = n
    · subst hm
      refine harr i ts ?_
      simpa [Arrived, setNode] using ha
    · simpa [Arrived, setNode, release, Function.update_of_ne hm] using ha
  saved _ := List.Subset.refl _

/-- A loop whose accumulated outputs stay or are released, whose cache does
not grow and which saves nothing. -/
theorem of_loop {l : LoopId} (st : LoopState) (us : List ℕ) (s : RequestState)
    (hl : l < g.loops.length)
    (haccum : cacheRefs st.accum u + us.count u = cacheRefs (s.loops l).accum u)
    (hcached : cacheRefs st.cached u ≤ cacheRefs (s.loops l).cached u)
    (hext : st.extInputs ⊆ (s.loops l).extInputs) :
    Releases g u s ((s.release us).setLoop l st) where
  tally_eq := by
    have hsum := accumRefs_setLoop g (s.release us) u hl st
    have hsame : accumRefs g (s.release us) u = accumRefs g s u := rfl
    have hloop : (s.release us).loops l = s.loops l := rfl
    have hslots : slotRefs g ((s.release us).setLoop l st) u = slotRefs g s u := rfl
    have hrel : ((s.release us).setLoop l st).refsReleased = s.refsReleased ++ us := rfl
    have htrans : ((s.release us).setLoop l st).refsTransferred = s.refsTransferred := rfl
    unfold tally
    rw [hslots, hrel, htrans, List.count_append]
    rw [hsame, hloop] at hsum
    omega
  taken_eq := rfl
  transferred_eq := rfl
  cached_le := by
    intro m
    by_cases hm : m = l
    · subst hm
      simpa [setLoop] using hcached
    · simp [setLoop, release, Function.update_of_ne hm]
  arrived _ _ _ ha := ha
  saved := by
    intro m
    by_cases hm : m = l
    · subst hm
      simpa [setLoop] using hext
    · simp [setLoop, release, Function.update_of_ne hm]

end Releases

namespace RequestState

variable {g : CompiledGraph} {u : ℕ}

/-- A change of the ready sets releases nothing and holds nothing. -/
theorem releases_ready (s : RequestState) (n : NodeId) :
    Releases g u s ((s.refreshReady g n).reseedStreamingReady g n) :=
  ⟨rfl, rfl, rfl, fun _ => le_rfl, fun _ _ _ h => h, fun _ => List.Subset.refl _⟩

/-- A member going on releases its current slot and promotes its next one. -/
theorem releases_resetMember (s : RequestState) (n : NodeId) :
    Releases g u s (s.resetMember g n) := by
  refine (Releases.of_node (n := n)
    { s.nodes n with cur := (s.nodes n).next, next := .new, completed := false }
    (slotUuids g n (s.nodes n).cur) s ?_ ?_).trans (releases_ready _ n)
  · unfold nodeRefs
    rw [count_slotUuids]
    simp
    omega
  · intro i ts h
    rcases h with h | h
    · exact .inr h
    · simp [Slot.new] at h

/-- A member of a finished loop releases both its slots. -/
theorem releases_clearMember (s : RequestState) (n : NodeId) :
    Releases g u s (s.clearMember g n) := by
  have hrelease : (s.releaseSlot g n false).releaseSlot g n true =
      s.release (slotUuids g n (s.nodes n).cur ++ slotUuids g n (s.nodes n).next) := by
    simp [releaseSlot, release]
  unfold clearMember
  rw [hrelease]
  refine (Releases.of_node (n := n) .new _ s ?_ ?_).trans (releases_ready _ n)
  · unfold nodeRefs NodeState.new
    rw [List.count_append, count_slotUuids, count_slotUuids]
    simp
  · intro i ts h
    simp [NodeState.new, Slot.new] at h

/-- A loop whose caches stay and which saves nothing. -/
theorem releases_setLoop {l : LoopId} (hl : l < g.loops.length) (s : RequestState) (st : LoopState)
    (haccum : st.accum = (s.loops l).accum) (hcached : st.cached = (s.loops l).cached)
    (hext : st.extInputs ⊆ (s.loops l).extInputs) : Releases g u s (s.setLoop l st) := by
  have hrelease : s.release [] = s := by
    unfold release
    rw [List.append_nil]
  have h := Releases.of_loop (u := u) st [] s hl (by rw [haccum]; rfl) (by rw [hcached]) hext
  rwa [hrelease] at h

/-- A child loop's metadata cleared for its parent's next iteration. -/
theorem releases_resetChild (s : RequestState) {c : LoopId} (hc : c < g.loops.length) :
    Releases g u s (s.setLoop c { (s.loops c).resetMetadata with completedEntities := 0 }) :=
  releases_setLoop hc s _ rfl rfl (List.nil_subset _)

/-- A child of a finished loop releases its accumulated outputs. -/
theorem releases_clearChild (s : RequestState) {c : LoopId} (hc : c < g.loops.length) :
    Releases g u s (s.clearChild c) := by
  refine Releases.of_loop _ (cacheUuids (s.loops c).accum) s hc ?_ ?_ ?_
  · simp [cacheRefs, cacheUuids]
  · simp [cacheRefs, cacheUuids]
  · simp [LoopState.resetMetadata]

/-- Resetting a loop's body for its next iteration only releases. -/
theorem releases_resetSubtreeForIter (k : ℕ) (l : LoopId) (s : RequestState) :
    Releases g u s (resetSubtreeForIter g k l s) := by
  induction k generalizing l s with
  | zero => exact Releases.refl s
  | succ k ih =>
    have hmembers := foldl_related (R := Releases g u) Releases.refl Releases.trans
      (f := resetMember g) (l := (g.lp l).memberNodes) (fun s n _ => releases_resetMember s n) s
    refine hmembers.trans (foldl_related Releases.refl Releases.trans (fun s c hc => ?_) _)
    exact (ih c s).trans (releases_resetChild _ (mem_childLoops.1 hc).1)

/-- Clearing a loop's body only releases. -/
theorem releases_clearSubtree (k : ℕ) (l : LoopId) (s : RequestState) :
    Releases g u s (clearSubtree g k l s) := by
  induction k generalizing l s with
  | zero => exact Releases.refl s
  | succ k ih =>
    have hmembers := foldl_related (R := Releases g u) Releases.refl Releases.trans
      (f := clearMember g) (l := (g.lp l).memberNodes) (fun s n _ => releases_clearMember s n) s
    refine hmembers.trans (foldl_related Releases.refl Releases.trans (fun s c hc => ?_) _)
    exact (ih c s).trans (releases_clearChild _ (mem_childLoops.1 hc).1)

/-- Resetting a loop's body leaves every loop that is not in it alone. -/
theorem resetSubtreeForIter_loops {d : LoopId} (k : ℕ) (l : LoopId) (s : RequestState)
    (hd : ¬ g.Below d l) : (resetSubtreeForIter g k l s).loops d = s.loops d := by
  induction k generalizing l s with
  | zero => rfl
  | succ k ih =>
    have hmembers : ((g.lp l).memberNodes.foldl (resetMember g) s).loops d = s.loops d :=
      foldl_same (f := resetMember g) (fun s => s.loops d) (fun _ _ _ => rfl) s
    refine (foldl_same (fun s : RequestState => s.loops d) (fun s c hc => ?_) _).trans hmembers
    have hparent := (mem_childLoops.1 hc).2
    have hne : d ≠ c := fun h => hd (h ▸ .single hparent)
    exact (setLoop_loops_of_ne _ hne _).trans (ih c s fun h => hd (h.tail hparent))

/-- Clearing a loop's body leaves every loop that is not in it alone. -/
theorem clearSubtree_loops {d : LoopId} (k : ℕ) (l : LoopId) (s : RequestState)
    (hd : ¬ g.Below d l) : (clearSubtree g k l s).loops d = s.loops d := by
  induction k generalizing l s with
  | zero => rfl
  | succ k ih =>
    have hmembers : ((g.lp l).memberNodes.foldl (clearMember g) s).loops d = s.loops d :=
      foldl_same (f := clearMember g) (fun s => s.loops d) (fun _ _ _ => rfl) s
    refine (foldl_same (fun s : RequestState => s.loops d) (fun s c hc => ?_) _).trans hmembers
    have hparent := (mem_childLoops.1 hc).2
    have hne : d ≠ c := fun h => hd (h ▸ .single hparent)
    exact (setLoop_loops_of_ne _ hne _).trans (ih c s fun h => hd (h.tail hparent))

end RequestState

end Mstar.Walk
