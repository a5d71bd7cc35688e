import Mstar.WalkCompletion

/-!
# A completion accounts for its references

Along the cascade of a completion every reference the walk had or takes is
held, released or handed on, and every tensor that is taken or put on an edge
was produced by the node or held before.
-/

namespace Mstar.Walk

open Shard (Sym TensorRef)
open CompiledGraph (parent_lt_length loopId_lt_length height_lt_of_below not_below_self)
open RequestState

variable {g : CompiledGraph} {u : ℕ} {produced : Prop} {s₀ s s' : RequestState}
  {l : LoopId} {out own : List RoutedEdge}

/-- What holds of one tensor along a completion that began in `s₀`. -/
structure Cascading (g : CompiledGraph) (u : ℕ) (produced : Prop) (s₀ s : RequestState)
    (out : List RoutedEdge) : Prop where
  /-- No reference appears but those taken. -/
  mass_le : mass g s u ≤ mass g s₀ u + s.refsTaken.count u
  /-- What is taken was produced or held. -/
  taken : 0 < s.refsTaken.count u → produced ∨ 0 < mass g s₀ u
  /-- What is on an edge was produced or is handed on. -/
  settled : ∀ e ∈ out, e.persistForLoop = false → 0 < refsTo u e.tensors →
    produced ∨ 0 < s.refsTransferred.count u
  /-- What is re-injected was saved. -/
  reinjected : ∀ e ∈ out, e.persistForLoop = true →
    ∃ l, ∃ x ∈ (s₀.loops l).extInputs, e = reinject g x
  /-- What is in a slot was there. -/
  arrived : ∀ ⦃n i ts⦄, s.Arrived n i ts → s₀.Arrived n i ts
  /-- What is saved was saved. -/
  saved : ∀ l, (s.loops l).extInputs ⊆ (s₀.loops l).extInputs

namespace Cascading

/-- What is handed on was produced or held. -/
theorem of_transferred (h : Cascading g u produced s₀ s out)
    (hu : 0 < s.refsTransferred.count u) : produced ∨ 0 < mass g s₀ u := by
  have hmass : s.refsTransferred.count u ≤ mass g s u := by
    unfold mass tally
    omega
  have hle := h.mass_le
  by_cases hpos : 0 < mass g s₀ u
  · exact .inr hpos
  · exact h.taken (by omega)

/-- The other parts of a state do not matter. -/
theorem congr (h : Cascading g u produced s₀ s out) (hnodes : s'.nodes = s.nodes)
    (hsaved : ∀ l, (s'.loops l).extInputs = (s.loops l).extInputs)
    (hmass : mass g s' u = mass g s u) (htaken : s'.refsTaken = s.refsTaken)
    (htransferred : s'.refsTransferred = s.refsTransferred) :
    Cascading g u produced s₀ s' out where
  mass_le := by
    rw [hmass, htaken]
    exact h.mass_le
  taken := by
    rw [htaken]
    exact h.taken
  settled := by
    rw [htransferred]
    exact h.settled
  reinjected := h.reinjected
  arrived := by
    unfold Arrived
    rw [hnodes]
    exact h.arrived
  saved l := by
    rw [hsaved]
    exact h.saved l

/-- A loop's counter does not matter. -/
theorem setCompletedEntities (h : Cascading g u produced s₀ s out) (hl : l < g.loops.length)
    (n : ℕ) :
    Cascading g u produced s₀ (s.setLoop l { s.loops l with completedEntities := n }) out := by
  refine h.congr rfl (fun m => ?_) ?_ rfl rfl
  · by_cases hm : m = l
    · subst hm
      rw [setLoop_loops_self]
    · rw [setLoop_loops_of_ne _ hm]
  · have hmass : mass g (s.setLoop l { s.loops l with completedEntities := n }) u +
        (cacheRefs (s.loops l).cached u + cacheRefs (s.loops l).accum u) = mass g s u +
          (cacheRefs (s.loops l).cached u + cacheRefs (s.loops l).accum u) := mass_setLoop hl s _
    omega

/-- A top-level entity done does not matter. -/
theorem rootEntityDone (h : Cascading g u produced s₀ s out) :
    Cascading g u produced s₀ (s.rootEntityDone g) out := by
  unfold RequestState.rootEntityDone
  split
  · exact h
  · exact h.congr rfl (fun _ => rfl) rfl rfl rfl

/-- Caching the outputs of a node or a child loop. -/
theorem cacheOutputs (h : Cascading g u produced s₀ s (out ++ own)) (hl : l < g.loops.length)
    (hown : ∀ e ∈ own, e.persistForLoop = false) :
    Cascading g u produced s₀ (s.cacheOutputs g l own) (out ++ own) := by
  have hc : Caches g u l s (s.cacheOutputs g l own) := caches_cacheOutputs hl s own
  refine ⟨?_, fun hu => ?_, ?_, h.reinjected, ?_, fun m => ?_⟩
  · have hmass := hc.mass_eq
    have hle := h.mass_le
    omega
  · rcases cacheOutputs_taken s own hu with hold | ⟨e, he, hpos⟩
    · exact h.taken hold
    · rcases h.settled e (List.mem_append_right _ he) (hown e he) hpos with hp | ht
      · exact .inl hp
      · exact h.of_transferred ht
  · rw [hc.transferred_eq]
    exact h.settled
  · unfold Arrived
    rw [hc.nodes_eq]
    exact h.arrived
  · by_cases hm : m = l
    · subst hm
      obtain ⟨c, a, hsame⟩ := hc.same
      rw [hsame]
      exact h.saved m
    · rw [hc.other m hm]
      exact h.saved m

/-- A loop that finishes. -/
theorem finishLoop (h : Cascading g u produced s₀ s out) (hl : l < g.loops.length) :
    Cascading g u produced s₀ (s.finishLoop g l).1
      (dropLoopBack g l out ++ (s.finishLoop g l).2) := by
  have hr : Releases g u s _ := releases_finishing hl s
  unfold RequestState.finishLoop
  dsimp only
  set s₁ := clearSubtree g g.loops.length l (s.setLoop l { s.loops l with done := true })
  have htransferred : (s₁.handOn l).refsTransferred =
      s.refsTransferred ++ (cacheUuids (s₁.loops l).cached ++ cacheUuids (s₁.loops l).accum) := by
    rw [← hr.transferred_eq]
    rfl
  refine ⟨?_, ?_, fun e he hp hu => ?_, fun e he hp => ?_, ?_, fun m => ?_⟩
  · have hle := mass_le_of_releases hr
    have htaken : (s₁.handOn l).refsTaken = s.refsTaken := hr.taken_eq
    rw [mass_handOn hl, htaken]
    exact hle.trans h.mass_le
  · have htaken : (s₁.handOn l).refsTaken = s.refsTaken := hr.taken_eq
    rw [htaken]
    exact h.taken
  · rcases List.mem_append.1 he with he | he
    · rw [htransferred, List.count_append]
      have hold := h.settled e (List.mem_of_mem_filter he) hp hu
      exact hold.imp_right fun h => by omega
    · exact .inr (loopOutputs_transferred he hu)
  · rcases List.mem_append.1 he with he | he
    · exact h.reinjected e (List.mem_of_mem_filter he) hp
    · rw [loopOutputs_persistForLoop he] at hp
      exact absurd hp (by simp)
  · exact fun n i ts ha => h.arrived (hr.arrived ha)
  · have hsaved : ((s₁.handOn l).loops m).extInputs = (s₁.loops m).extInputs := by
      unfold handOn transfer
      dsimp only
      by_cases hm : m = l
      · subst hm
        rw [setLoop_loops_self]
      · rw [setLoop_loops_of_ne _ hm]
    rw [hsaved]
    exact List.Subset.trans (hr.saved m) (h.saved m)

/-- A loop that advances. -/
theorem advanceLoop (h : Cascading g u produced s₀ s out) (hl : l < g.loops.length) (stride : ℕ) :
    Cascading g u produced s₀ (s.advanceLoop g l stride).1
      (out ++ (s.advanceLoop g l stride).2) := by
  have hr : Releases g u s _ :=
    releases_advancing hl s (saturatingAdd (s.loops l).currIter stride)
  unfold RequestState.advanceLoop
  dsimp only
  set s₁ := resetSubtreeForIter g g.loops.length l
    (s.setLoop l { s.loops l with currIter := saturatingAdd (s.loops l).currIter stride })
  have htaken : (s₁.uncache l).refsTaken = s.refsTaken := hr.taken_eq
  have htransferred : (s₁.uncache l).refsTransferred = s.refsTransferred := hr.transferred_eq
  refine ⟨?_, ?_, fun e he hp hu => ?_, fun e he hp => ?_, ?_, fun m => ?_⟩
  · have hle := mass_le_of_releases hr
    rw [mass_uncache hl, htaken]
    exact hle.trans h.mass_le
  · rw [htaken]
    exact h.taken
  · rw [htransferred]
    rcases List.mem_append.1 he with he | he
    · exact h.settled e he hp hu
    · obtain ⟨x, _, rfl⟩ := List.mem_map.1 he
      exact absurd hp (by simp [reinject])
  · rcases List.mem_append.1 he with he | he
    · exact h.reinjected e he hp
    · obtain ⟨x, hx, rfl⟩ := List.mem_map.1 he
      exact ⟨l, x, h.saved l (hr.saved l hx), rfl⟩
  · exact fun n i ts ha => h.arrived (hr.arrived ha)
  · have hsaved : ((s₁.uncache l).loops m).extInputs = (s₁.loops m).extInputs := by
      unfold uncache release
      dsimp only
      by_cases hm : m = l
      · subst hm
        rw [setLoop_loops_self]
      · rw [setLoop_loops_of_ne _ hm]
    rw [hsaved]
    exact List.Subset.trans (hr.saved m) (h.saved m)

/-- A cascade, however far up it goes. -/
theorem entityCompleted (k : ℕ) (h : Cascading g u produced s₀ s (out ++ own))
    (hl : l < g.loops.length) (hown : ∀ e ∈ own, e.persistForLoop = false) (stride : ℕ) :
    Cascading g u produced s₀ (entityCompleted g k l out own stride s).1
      (entityCompleted g k l out own stride s).2 := by
  induction k generalizing l out own stride s with
  | zero => exact h
  | succ k ih =>
    unfold RequestState.entityCompleted
    have hcached := h.cacheOutputs hl hown
    dsimp only
    split
    · exact hcached.setCompletedEntities hl _
    · have hcounted := hcached.setCompletedEntities hl 0
      split
      · have hfinished := hcounted.finishLoop hl
        cases hp : (g.lp l).parent with
        | none => exact hfinished.rootEntityDone
        | some p =>
          refine ih hfinished (parent_lt_length hp) (fun e he => ?_) 1
          exact loopOutputs_persistForLoop he
      · exact hcounted.advanceLoop hl stride

end Cascading

/-- The loops a completion in a loop finishes, inner to outer. -/
def finishes (g : CompiledGraph) (loops : LoopId → LoopState) : ℕ → LoopId → ℕ → List LoopId
  | 0, _, _ => []
  | k + 1, l, stride =>
    if (loops l).completedEntities + 1 < g.nEntities l then []
    else if finishing (loops l) stride then
      l :: (match (g.lp l).parent with
        | none => []
        | some p => finishes g loops k p 1)
    else []

/-- What holds of one tensor along a cascade that drops no cache, after it
finished some loops and before it reaches `l`. -/
structure Lossless (g : CompiledGraph) (u : ℕ) (height : LoopId → ℕ) (s₀ s : RequestState)
    (l : LoopId) (finished : List LoopId) : Prop where
  /-- No reference is lost. -/
  mass_eq : mass g s u = mass g s₀ u + s.refsTaken.count u
  /-- No cache has grown. -/
  cached_le : ∀ d, cacheRefs (s.loops d).cached u ≤ cacheRefs (s₀.loops d).cached u
  /-- The finished loops' caches are handed on. -/
  emptied : ∀ d ∈ finished, cacheRefs (s.loops d).cached u = 0
  /-- The loops to come are as they were. -/
  same : ∀ d, height l ≤ height d → s.loops d = s₀.loops d

/-- The loops a completion finishes are around one another. -/
theorem height_le_of_mem_finishes {height : LoopId → ℕ}
    (hup : ∀ l p, (g.lp l).parent = some p → height l < height p) {loops : LoopId → LoopState}
    {k stride : ℕ} {d : LoopId} (h : d ∈ finishes g loops k l stride) : height l ≤ height d := by
  induction k generalizing l stride with
  | zero => simp [finishes] at h
  | succ k ih =>
    unfold finishes at h
    split at h
    · simp at h
    · split at h
      · rcases List.mem_cons.1 h with rfl | h
        · exact le_rfl
        · cases hp : (g.lp l).parent with
          | none =>
            rw [hp] at h
            simp at h
          | some p =>
            rw [hp] at h
            exact (hup l p hp).le.trans (ih h)
      · simp at h

namespace Lossless

variable {height : LoopId → ℕ} {finished : List LoopId}

/-- Caching the outputs of a node or a child loop loses no reference. -/
theorem mass_cacheOutputs (h : Lossless g u height s₀ s l finished) (hl : l < g.loops.length)
    (own : List RoutedEdge) :
    mass g (s.cacheOutputs g l own) u =
      mass g s₀ u + (s.cacheOutputs g l own).refsTaken.count u := by
  have hc : Caches g u l s (s.cacheOutputs g l own) := caches_cacheOutputs hl s own
  have hmass := hc.mass_eq
  have heq := h.mass_eq
  omega

/-- A loop that finishes keeps every reference, if nothing nested in it has a
cache. -/
theorem mass_finishLoop (hl : l < g.loops.length)
    (hbelow : ∀ d, g.Below d l → cacheRefs (s.loops d).cached u = 0) :
    mass g (s.finishLoop g l).1 u = mass g s u := by
  have hr : Releases g u s _ := releases_finishing hl s
  refine (mass_handOn hl _).trans (mass_eq_of_releases hr fun d => ?_)
  by_cases hd : g.Below d l
  · have hle := hr.cached_le d
    have hzero := hbelow d hd
    omega
  · have hsame := clearSubtree_loops g.loops.length l
      (s.setLoop l { s.loops l with done := true }) hd
    rw [hsame]
    by_cases hdl : d = l
    · subst hdl
      rw [setLoop_loops_self]
    · rw [setLoop_loops_of_ne _ hdl]

/-- What a finished loop leaves of the caches. -/
theorem cached_finishLoop (hl : l < g.loops.length) (d : LoopId) :
    cacheRefs ((s.finishLoop g l).1.loops d).cached u ≤
      if d = l then 0 else cacheRefs (s.loops d).cached u := by
  have hr : Releases g u s _ := releases_finishing hl s
  unfold finishLoop handOn transfer
  dsimp only
  by_cases hd : d = l
  · subst hd
    rw [setLoop_loops_self, if_pos rfl]
    exact le_rfl
  · rw [setLoop_loops_of_ne _ hd, if_neg hd]
    exact hr.cached_le d

/-- A finished loop leaves the loops around it alone. -/
theorem loops_finishLoop {d : LoopId} (hd : ¬ g.Below d l) (hne : d ≠ l) :
    (s.finishLoop g l).1.loops d = s.loops d := by
  have hsame := clearSubtree_loops g.loops.length l
    (s.setLoop l { s.loops l with done := true }) hd
  unfold finishLoop handOn transfer
  dsimp only
  rw [setLoop_loops_of_ne _ hne, hsame, setLoop_loops_of_ne _ hne]

/-- Resetting a loop's body touches no cache. -/
theorem cached_resetSubtreeForIter (k : ℕ) (l d : LoopId) (s : RequestState) :
    ((resetSubtreeForIter g k l s).loops d).cached = (s.loops d).cached := by
  induction k generalizing l s with
  | zero => rfl
  | succ k ih =>
    have hmembers : (((g.lp l).memberNodes.foldl (resetMember g) s).loops d).cached =
        (s.loops d).cached :=
      foldl_same (f := resetMember g) (fun s => (s.loops d).cached) (fun _ _ _ => rfl) s
    refine (foldl_same (fun s : RequestState => (s.loops d).cached) (fun s c _ => ?_) _).trans hmembers
    have hsub := ih c s
    by_cases hd : d = c
    · subst hd
      rw [setLoop_loops_self]
      exact hsub
    · rw [setLoop_loops_of_ne _ hd]
      exact hsub

/-- A loop that advances keeps every reference. -/
theorem mass_advanceLoop (hl : l < g.loops.length) (stride : ℕ) :
    mass g (s.advanceLoop g l stride).1 u = mass g s u := by
  have hr : Releases g u s _ :=
    releases_advancing hl s (saturatingAdd (s.loops l).currIter stride)
  refine (mass_uncache hl _).trans (mass_eq_of_releases hr fun d => ?_)
  rw [cached_resetSubtreeForIter]
  by_cases hd : d = l
  · subst hd
    rw [setLoop_loops_self]
  · rw [setLoop_loops_of_ne _ hd]

/-- A top-level entity done keeps every reference. -/
theorem mass_rootEntityDone (s : RequestState) : mass g (s.rootEntityDone g) u = mass g s u := by
  unfold rootEntityDone
  split <;> rfl

/-- A loop's counter holds no reference. -/
theorem mass_setCompletedEntities (hl : l < g.loops.length) (s : RequestState) (n : ℕ) :
    mass g (s.setLoop l { s.loops l with completedEntities := n }) u = mass g s u := by
  have hmass : mass g (s.setLoop l { s.loops l with completedEntities := n }) u +
      (cacheRefs (s.loops l).cached u + cacheRefs (s.loops l).accum u) = mass g s u +
        (cacheRefs (s.loops l).cached u + cacheRefs (s.loops l).accum u) := mass_setLoop hl s _
  omega

/-- A loop that ends takes no reference. -/
theorem refsTaken_finishLoop (hl : l < g.loops.length) (s : RequestState) :
    (s.finishLoop g l).1.refsTaken = s.refsTaken :=
  (releases_finishing (u := 0) hl s).taken_eq

/-- Nothing nested in a loop that finishes has a cache left, if only loops the
completion finishes had one. -/
theorem cached_below {k stride : ℕ} {F : List LoopId}
    (hup : ∀ l p, (g.lp l).parent = some p → height l < height p)
    (h : Lossless g u height s₀ s l finished)
    (hF : ∀ l' ∈ F, ∀ d, g.Below d l' → d ∉ F → cacheRefs (s₀.loops d).cached u = 0)
    (hsplit : F = finished ++ finishes g s₀.loops k l stride) (hmem : l ∈ F) {d : LoopId}
    (hd : g.Below d l) : cacheRefs (s.loops d).cached u = 0 := by
  have hlt := height_lt_of_below hup hd
  by_cases hfin : d ∈ finished
  · exact h.emptied d hfin
  · have hnot : d ∉ F := by
      rw [hsplit, List.mem_append]
      rintro (hm | hm)
      · exact hfin hm
      · have := height_le_of_mem_finishes hup hm
        omega
    have hle := h.cached_le d
    rw [hF l hmem d hd hnot] at hle
    omega

/-- The state a finished loop's parent goes on from. -/
theorem finishLoop {p : LoopId} (hup : ∀ l p, (g.lp l).parent = some p → height l < height p)
    (h : Lossless g u height s₀ s l finished) (hl : l < g.loops.length)
    (hp : (g.lp l).parent = some p) (hmass : mass g s' u = mass g s₀ u + s'.refsTaken.count u)
    (hother : ∀ d, d ≠ l → s'.loops d = s.loops d)
    (hbelow : ∀ d, g.Below d l → cacheRefs (s'.loops d).cached u = 0) :
    Lossless g u height s₀ (s'.finishLoop g l).1 p (finished ++ [l]) := by
  have hcached (d : LoopId) (hd : d ≠ l) :
      cacheRefs ((s'.finishLoop g l).1.loops d).cached u ≤ cacheRefs (s.loops d).cached u := by
    have hle := cached_finishLoop (u := u) (s := s') hl d
    rwa [if_neg hd, hother d hd] at hle
  have hself : cacheRefs ((s'.finishLoop g l).1.loops l).cached u = 0 := by
    have hle := cached_finishLoop (u := u) (s := s') hl l
    rw [if_pos rfl] at hle
    omega
  refine ⟨?_, fun d => ?_, fun d hd => ?_, fun d hd => ?_⟩
  · rw [mass_finishLoop hl hbelow, refsTaken_finishLoop hl]
    exact hmass
  · by_cases hdl : d = l
    · subst hdl
      omega
    · exact (hcached d hdl).trans (h.cached_le d)
  · by_cases hdl : d = l
    · subst hdl
      exact hself
    · rcases List.mem_append.1 hd with hd | hd
      · have hzero := h.emptied d hd
        have hle := hcached d hdl
        omega
      · exact absurd (List.mem_singleton.1 hd) hdl
  · have hlt := hup l p hp
    have hdl : d ≠ l := by
      rintro rfl
      omega
    have hnot : ¬ g.Below d l := fun hb => by
      have := height_lt_of_below hup hb
      omega
    rw [loops_finishLoop hnot hdl, hother d hdl]
    exact h.same d (hlt.le.trans hd)

/-- A cascade loses no reference, if nothing nested in a loop it finishes has
a cache, but for the loops it finishes too. -/
theorem mass_entityCompleted (k : ℕ) {F : List LoopId}
    (hup : ∀ l p, (g.lp l).parent = some p → height l < height p)
    (hF : ∀ l' ∈ F, ∀ d, g.Below d l' → d ∉ F → cacheRefs (s₀.loops d).cached u = 0)
    (h : Lossless g u height s₀ s l finished) (hl : l < g.loops.length) (stride : ℕ)
    (hsplit : F = finished ++ finishes g s₀.loops k l stride) :
    mass g (entityCompleted g k l out own stride s).1 u =
      mass g s₀ u + (entityCompleted g k l out own stride s).1.refsTaken.count u := by
  induction k generalizing l out own stride s finished with
  | zero => exact h.mass_eq
  | succ k ih =>
    have hc : Caches g u l s (s.cacheOutputs g l own) := caches_cacheOutputs hl s own
    have hmass := h.mass_cacheOutputs hl own
    have hcount : ((s.cacheOutputs g l own).loops l).completedEntities =
        (s₀.loops l).completedEntities := by
      obtain ⟨c, a, hsame⟩ := hc.same
      rw [hsame, h.same l le_rfl]
    have hfinishing : finishing ((s.cacheOutputs g l own).loops l) stride =
        finishing (s₀.loops l) stride := by
      obtain ⟨c, a, hsame⟩ := hc.same
      rw [hsame, h.same l le_rfl]
      rfl
    have hsplit₀ := hsplit
    unfold finishes at hsplit
    unfold entityCompleted
    dsimp only
    rw [hcount, hfinishing]
    set s₁ := s.cacheOutputs g l own
    split
    · rw [mass_setCompletedEntities hl]
      exact hmass
    · next hdone =>
      rw [if_neg hdone] at hsplit
      set s₂ := s₁.setLoop l { s₁.loops l with completedEntities := 0 }
      have hmass₂ : mass g s₂ u = mass g s₀ u + s₂.refsTaken.count u :=
        (mass_setCompletedEntities hl s₁ 0).trans hmass
      have hother : ∀ d, d ≠ l → s₂.loops d = s.loops d := fun d hd =>
        (setLoop_loops_of_ne s₁ hd _).trans (hc.other d hd)
      split
      · next hover =>
        rw [if_pos hover] at hsplit
        have hmem : l ∈ F := by
          rw [hsplit]
          exact List.mem_append_right _ List.mem_cons_self
        have hbelow : ∀ d, g.Below d l → cacheRefs (s₂.loops d).cached u = 0 := by
          intro d hd
          have hne : d ≠ l := fun hdl => not_below_self l (hdl ▸ hd)
          rw [hother d hne]
          exact h.cached_below hup hF hsplit₀ hmem hd
        cases hp : (g.lp l).parent with
        | none =>
          dsimp only
          have hroot : ((s₂.finishLoop g l).1.rootEntityDone g).refsTaken =
              (s₂.finishLoop g l).1.refsTaken := by
            unfold rootEntityDone
            split <;> rfl
          rw [mass_rootEntityDone, hroot, mass_finishLoop hl hbelow, refsTaken_finishLoop hl]
          exact hmass₂
        | some p =>
          rw [hp] at hsplit
          refine ih (h.finishLoop hup hl hp hmass₂ hother hbelow) (parent_lt_length hp) 1 ?_
          rw [hsplit, List.append_assoc]
          rfl
      · have htaken : (s₂.advanceLoop g l stride).1.refsTaken = s₂.refsTaken :=
          (releases_advancing (u := u) hl s₂ _).taken_eq
        dsimp only
        rw [mass_advanceLoop hl, htaken]
        exact hmass₂

end Lossless

end Mstar.Walk
