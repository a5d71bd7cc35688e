import Mstar.WalkReferences

/-!
# What a completion moves

A completion caches outputs, and ends with loops that finish one inside the
other or with one that advances. Each of these moves takes a reference for
what it caches, and keeps, releases or hands on the ones the walk had.
-/

namespace Mstar.Walk

open Shard (Sym TensorRef)
open CompiledGraph (parent_lt_length loopId_lt_length)

namespace RequestState

variable {g : CompiledGraph} {u : ℕ}

/-- The references the walk holds, or has just released or handed on. -/
def mass (g : CompiledGraph) (s : RequestState) (u : ℕ) : ℕ := tally g s u + cachedRefs g s u

/-- It is what is held, released and handed on. -/
theorem mass_eq (g : CompiledGraph) (s : RequestState) (u : ℕ) : mass g s u =
    holds g s u + (s.refsReleased.count u + s.refsTransferred.count u) := by
  unfold holds mass tally
  omega

/-- Releasing keeps the references, the dropped caches' apart. -/
theorem mass_le_of_releases {s s' : RequestState} (h : Releases g u s s') :
    mass g s' u ≤ mass g s u := by
  unfold mass
  rw [h.tally_eq]
  have hcached : cachedRefs g s' u ≤ cachedRefs g s u := by
    unfold cachedRefs
    exact Finset.sum_le_sum fun l _ => h.cached_le l
  omega

/-- Releasing keeps every reference when no cache is dropped. -/
theorem mass_eq_of_releases {s s' : RequestState} (h : Releases g u s s')
    (hcached : ∀ l, cacheRefs (s'.loops l).cached u = cacheRefs (s.loops l).cached u) :
    mass g s' u = mass g s u := by
  unfold mass
  rw [h.tally_eq]
  congr 1
  unfold cachedRefs
  exact Finset.sum_congr rfl fun l _ => hcached l

/-- Replacing a loop's state replaces its caches. -/
theorem mass_setLoop {l : LoopId} (hl : l < g.loops.length) (s : RequestState) (st : LoopState) :
    mass g (s.setLoop l st) u + (cacheRefs (s.loops l).cached u + cacheRefs (s.loops l).accum u) =
      mass g s u + (cacheRefs st.cached u + cacheRefs st.accum u) := by
  have hcached := cachedRefs_setLoop g s u hl st
  have haccum := accumRefs_setLoop g s u hl st
  have hslots : slotRefs g (s.setLoop l st) u = slotRefs g s u := rfl
  have hreleased : (s.setLoop l st).refsReleased = s.refsReleased := rfl
  have htransferred : (s.setLoop l st).refsTransferred = s.refsTransferred := rfl
  unfold mass tally
  rw [hslots, hreleased, htransferred]
  omega

/-- What is taken is recorded. -/
theorem take_refsTaken (s : RequestState) (us : List ℕ) :
    (s.take us).refsTaken = s.refsTaken ++ us := rfl

/-- Taking references holds none yet. -/
@[simp] theorem mass_take (s : RequestState) (us : List ℕ) : mass g (s.take us) u = mass g s u := rfl

/-- A released reference was held by somebody. -/
theorem mass_release (s : RequestState) (us : List ℕ) :
    mass g (s.release us) u = mass g s u + us.count u := by
  unfold mass tally release
  dsimp only
  rw [List.count_append]
  change slotRefs g s u + accumRefs g s u + _ + cachedRefs g s u = _
  omega

/-- A reference handed on was held by somebody. -/
theorem mass_transfer (s : RequestState) (us : List ℕ) :
    mass g (s.transfer us) u = mass g s u + us.count u := by
  unfold mass tally transfer
  dsimp only
  rw [List.count_append]
  change slotRefs g s u + accumRefs g s u + _ + cachedRefs g s u = _
  omega

/-- A cache that is extended holds the new tensors too. -/
theorem extendCache_refs (name : Sym) (t : List TensorRef) (cache : List (Sym × List TensorRef)) :
    cacheRefs (extendCache name t cache) u = cacheRefs cache u + refsTo u t := by
  induction cache with
  | nil => simp [extendCache, cacheRefs, cacheUuids, refsTo]
  | cons c cache ih =>
    unfold cacheRefs cacheUuids at ih ⊢
    unfold extendCache
    split
    · rw [List.flatMap_cons, List.flatMap_cons, List.count_append, List.count_append]
      unfold uuids refsTo uuids
      rw [List.map_append, List.count_append]
      omega
    · rw [List.flatMap_cons, List.flatMap_cons, List.count_append, List.count_append, ih]
      omega

end RequestState

open RequestState

/-- Going from one state to another only caches outputs of one loop, and takes
a reference for each. -/
structure Caches (g : CompiledGraph) (u : ℕ) (l : LoopId) (s s' : RequestState) : Prop where
  /-- No slot changes. -/
  nodes_eq : s'.nodes = s.nodes
  /-- No other loop changes. -/
  other : ∀ d, d ≠ l → s'.loops d = s.loops d
  /-- Only the loop's caches change. -/
  same : ∃ c a, s'.loops l = { s.loops l with cached := c, accum := a }
  /-- Nothing is handed on. -/
  transferred_eq : s'.refsTransferred = s.refsTransferred
  /-- What is taken is held. -/
  mass_eq : mass g s' u + s.refsTaken.count u = mass g s u + s'.refsTaken.count u

namespace Caches

variable {g : CompiledGraph} {u : ℕ} {l : LoopId} {s s' s'' : RequestState}

/-- Nothing cached. -/
theorem refl (s : RequestState) : Caches g u l s s :=
  ⟨rfl, fun _ _ => rfl, ⟨_, _, rfl⟩, rfl, rfl⟩

/-- One cache after another. -/
theorem trans (h : Caches g u l s s') (h' : Caches g u l s' s'') : Caches g u l s s'' where
  nodes_eq := h'.nodes_eq.trans h.nodes_eq
  other d hd := (h'.other d hd).trans (h.other d hd)
  same := by
    obtain ⟨c, a, h1⟩ := h.same
    obtain ⟨c', a', h2⟩ := h'.same
    exact ⟨c', a', by rw [h2, h1]⟩
  transferred_eq := h'.transferred_eq.trans h.transferred_eq
  mass_eq := by
    have h1 := h.mass_eq
    have h2 := h'.mass_eq
    omega

end Caches

namespace RequestState

variable {g : CompiledGraph} {u : ℕ} {l : LoopId}

/-- Caching one edge. -/
theorem caches_cacheOutput (hl : l < g.loops.length) (s : RequestState) (e : RoutedEdge) :
    Caches g u l s (s.cacheOutput g l e) := by
  have hcaches {c a : List (Sym × List TensorRef)}
      (h : cacheRefs c u + cacheRefs a u = cacheRefs (s.loops l).cached u +
        cacheRefs (s.loops l).accum u + refsTo u e.tensors) :
      Caches g u l s ((s.setLoop l { s.loops l with cached := c, accum := a }).take
        (uuids e.tensors)) := by
    refine ⟨rfl, fun d hd => Function.update_of_ne hd _ _, ⟨c, a, Function.update_self _ _ _⟩,
      rfl, ?_⟩
    have hmass : mass g (s.setLoop l { s.loops l with cached := c, accum := a }) u +
        (cacheRefs (s.loops l).cached u + cacheRefs (s.loops l).accum u) =
          mass g s u + (cacheRefs c u + cacheRefs a u) := mass_setLoop hl s _
    have htaken : ((s.setLoop l { s.loops l with cached := c, accum := a }).take
        (uuids e.tensors)).refsTaken.count u = s.refsTaken.count u + refsTo u e.tensors :=
      List.count_append
    rw [mass_take, htaken]
    omega
  unfold cacheOutput
  dsimp only
  split
  · refine hcaches ?_
    rw [extendCache_refs]
    omega
  · split
    · refine hcaches ?_
      rw [extendCache_refs]
      omega
    · exact Caches.refl s

/-- Caching a node's or a child loop's outputs. -/
theorem caches_cacheOutputs (hl : l < g.loops.length) (s : RequestState) (own : List RoutedEdge) :
    Caches g u l s (s.cacheOutputs g l own) :=
  foldl_related Caches.refl Caches.trans (fun s e _ => caches_cacheOutput hl s e) s

/-- The first of a name is one of the edges. -/
theorem mem_of_mem_firstOfName {seen : List Sym} {e : RoutedEdge} {es : List RoutedEdge}
    (h : e ∈ firstOfName seen es) : e ∈ es := by
  induction es generalizing seen with
  | nil => exact h
  | cons f es ih =>
    unfold firstOfName at h
    split at h
    · exact List.mem_cons_of_mem _ (ih h)
    · rcases List.mem_cons.1 h with rfl | h
      · exact List.mem_cons_self
      · exact List.mem_cons_of_mem _ (ih h)

/-- What is taken is on an edge that is cached. -/
theorem cacheOutputs_taken (s : RequestState) (own : List RoutedEdge)
    (h : 0 < (s.cacheOutputs g l own).refsTaken.count u) :
    0 < s.refsTaken.count u ∨ ∃ e ∈ own, 0 < refsTo u e.tensors := by
  have hstep : ∀ s : RequestState, ∀ e ∈ firstOfName [] own,
      0 < (s.cacheOutput g l e).refsTaken.count u →
        0 < s.refsTaken.count u ∨ ∃ e ∈ own, 0 < refsTo u e.tensors := by
    intro s e he hpos
    by_cases hu : 0 < refsTo u e.tensors
    · exact .inr ⟨e, mem_of_mem_firstOfName he, hu⟩
    · refine .inl ?_
      have hzero : (uuids e.tensors).count u = 0 := by
        unfold refsTo at hu
        omega
      unfold cacheOutput at hpos
      dsimp only at hpos
      split at hpos
      · rw [take_refsTaken, List.count_append, hzero] at hpos
        exact hpos
      · split at hpos
        · rw [take_refsTaken, List.count_append, hzero] at hpos
          exact hpos
        · exact hpos
  have hrun := foldl_related (l := firstOfName [] own) (f := cacheOutput g l)
    (R := fun s s' => 0 < s'.refsTaken.count u →
      0 < s.refsTaken.count u ∨ ∃ e ∈ own, 0 < refsTo u e.tensors)
    (fun _ h => .inl h) (fun h h' hc => (h' hc).elim h .inr) hstep s
  exact hrun h

/-- Handing a finished loop's caches on keeps every reference. -/
theorem mass_handOn (hl : l < g.loops.length) (s : RequestState) :
    mass g (s.handOn l) u = mass g s u := by
  have hmass : mass g (s.setLoop l { s.loops l with cached := [], accum := [] }) u +
      (cacheRefs (s.loops l).cached u + cacheRefs (s.loops l).accum u) =
        mass g s u + (0 + 0) := mass_setLoop hl s _
  unfold handOn
  rw [mass_transfer, List.count_append]
  exact hmass

/-- Releasing a cache keeps every reference. -/
theorem mass_uncache (hl : l < g.loops.length) (s : RequestState) :
    mass g (s.uncache l) u = mass g s u := by
  have hmass : mass g (s.setLoop l { s.loops l with cached := [] }) u +
      (cacheRefs (s.loops l).cached u + cacheRefs (s.loops l).accum u) =
        mass g s u + (0 + cacheRefs (s.loops l).accum u) := mass_setLoop hl s _
  have hcount : (cacheUuids (s.loops l).cached).count u = cacheRefs (s.loops l).cached u := rfl
  unfold uncache
  rw [mass_release, hcount]
  omega

/-- A finished loop's body is cleared, which only releases. -/
theorem releases_finishing (hl : l < g.loops.length) (s : RequestState) :
    Releases g u s (clearSubtree g g.loops.length l (s.setLoop l { s.loops l with done := true })) :=
  (releases_setLoop hl s { s.loops l with done := true } rfl rfl (List.Subset.refl _)).trans
    (releases_clearSubtree _ _ _)

/-- An advancing loop's body is reset, which only releases. -/
theorem releases_advancing (hl : l < g.loops.length) (s : RequestState) (i : ℕ) :
    Releases g u s
      (resetSubtreeForIter g g.loops.length l (s.setLoop l { s.loops l with currIter := i })) :=
  (releases_setLoop hl s { s.loops l with currIter := i } rfl rfl (List.Subset.refl _)).trans
    (releases_resetSubtreeForIter _ _ _)

/-- What a finished loop puts out was in its caches, and is handed on. -/
theorem loopOutputs_transferred {s : RequestState} {e : RoutedEdge}
    (he : e ∈ loopOutputs g l (s.loops l)) (hu : 0 < refsTo u e.tensors) :
    0 < (s.handOn l).refsTransferred.count u := by
  have hunder (cache : List (Sym × List TensorRef)) (name : Sym)
      (h : 0 < refsTo u (cachedUnder cache name)) : u ∈ cacheUuids cache := by
    unfold cachedUnder at h
    cases hf : cache.find? (·.1 == name) with
    | none =>
      rw [hf] at h
      simp at h
    | some c =>
      rw [hf] at h
      unfold cacheUuids
      rw [List.mem_flatMap]
      exact ⟨c, List.mem_of_find?_eq_some hf, List.count_pos_iff.1 h⟩
  have hmem : u ∈ cacheUuids (s.loops l).cached ∨ u ∈ cacheUuids (s.loops l).accum := by
    unfold loopOutputs at he
    rw [List.mem_append, List.mem_map, List.mem_map] at he
    rcases he with ⟨o, _, rfl⟩ | ⟨o, _, rfl⟩
    · exact .inl (hunder _ _ hu)
    · exact .inr (hunder _ _ hu)
  unfold handOn transfer
  rw [List.count_pos_iff]
  simp only [List.mem_append]
  exact .inr hmem

/-- A loop's outputs are not re-injected. -/
theorem loopOutputs_persistForLoop {st : LoopState} {e : RoutedEdge}
    (he : e ∈ loopOutputs g l st) : e.persistForLoop = false := by
  unfold loopOutputs at he
  rw [List.mem_append, List.mem_map, List.mem_map] at he
  rcases he with ⟨o, _, rfl⟩ | ⟨o, _, rfl⟩ <;> rfl

end RequestState

end Mstar.Walk
