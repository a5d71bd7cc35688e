import Mstar.WalkCascade
import Mstar.WalkIngest

/-!
# A node's completion, as its caller sees it

What a completion reports to release and to hand on, with what the walk still
holds, is what the walk held and what the completion takes. Only caches that
a finishing loop drops from the loops in it are missing.
-/

namespace Mstar.Walk

open Shard (Sym TensorRef)
open CompiledGraph (parent_lt_length loopId_lt_length heldMask_eq_empty)
open RequestState

variable {g : CompiledGraph} {u : ℕ} {s s' : RequestState}

/-- Between completions every reference is held. -/
theorem RequestState.Drained.mass_eq (h : s.Drained) : mass g s u = holds g s u := by
  unfold mass tally holds
  rw [h.released, h.transferred]
  simp

/-- What marking a node completed changes. -/
structure Marks (g : CompiledGraph) (u : ℕ) (s : RequestState) (freed : List ℕ)
    (s' : RequestState) : Prop where
  /-- What a top-level node frees is what its current slot held. -/
  mass_eq : mass g s' u + freed.count u = mass g s u
  loops_eq : s'.loops = s.loops
  taken_eq : s'.refsTaken = s.refsTaken
  released_eq : s'.refsReleased = s.refsReleased
  transferred_eq : s'.refsTransferred = s.refsTransferred
  arrived : ∀ ⦃n i ts⦄, s'.Arrived n i ts → s.Arrived n i ts

/-- A node's state replaced by one whose slots hold less. -/
theorem marks_setNode {n : NodeId} (st : NodeState) {freed : List ℕ}
    (hrefs : nodeRefs g n st u + freed.count u = nodeRefs g n (s.nodes n) u)
    (harr : ∀ i ts, st.cur.tensors i = some ts ∨ st.next.tensors i = some ts → s.Arrived n i ts) :
    Marks g u s freed (s.setNode n st) := by
  refine ⟨?_, rfl, rfl, rfl, rfl, fun m i ts ha => ?_⟩
  · have hslots := slotRefs_setNode g s u n st
    have haccum : accumRefs g (s.setNode n st) u = accumRefs g s u := rfl
    have hcached : cachedRefs g (s.setNode n st) u = cachedRefs g s u := rfl
    have hreleased : (s.setNode n st).refsReleased = s.refsReleased := rfl
    have htransferred : (s.setNode n st).refsTransferred = s.refsTransferred := rfl
    unfold mass tally
    rw [haccum, hcached, hreleased, htransferred]
    omega
  · by_cases hm : m = n
    · subst hm
      refine harr i ts ?_
      simpa [Arrived, setNode] using ha
    · simpa [Arrived, setNode, Function.update_of_ne hm] using ha

/-- The ready sets do not matter. -/
theorem Marks.ready {freed : List ℕ} (h : Marks g u s freed s') (ready streaming : Finset NodeId) :
    Marks g u s freed { s' with ready := ready, readyStreaming := streaming } :=
  ⟨h.mass_eq, h.loops_eq, h.taken_eq, h.released_eq, h.transferred_eq, h.arrived⟩

/-- A node is marked completed. -/
theorem marks_markCompleted (s : RequestState) (n : NodeId) :
    Marks g u s (s.markCompleted g n).1 (s.markCompleted g n).2 := by
  unfold markCompleted
  cases hn : g.loopId n with
  | none =>
    have hown : (List.range (g.node n).inputs.length).flatMap
        (fun i => uuids (((s.nodes n).cur.tensors i).getD [])) = slotUuids g n (s.nodes n).cur := by
      unfold slotUuids
      rw [heldMask_eq_empty hn]
      rfl
    refine (marks_setNode { s.nodes n with completed := true, cur := (s.nodes n).cur.clear }
      ?_ fun i ts h => ?_).ready _ _
    · dsimp only
      rw [hown, count_slotUuids]
      unfold nodeRefs
      simp
      omega
    · rcases h with h | h
      · simp [Slot.clear, Slot.new] at h
      · exact .inr h
  | some l =>
    exact (marks_setNode { s.nodes n with completed := true } rfl fun i ts h => h).ready _ _

/-- A cascade at its start. -/
theorem Cascading.start {produced : Prop} {own : List RoutedEdge} (h : s.Drained)
    (hown : ∀ e ∈ own, e.persistForLoop = false)
    (hproduced : ∀ e ∈ own, 0 < refsTo u e.tensors → produced) :
    Cascading g u produced s s own where
  mass_le := by omega
  taken hu := by
    rw [h.taken] at hu
    simp at hu
  settled e he _ hu := .inl (hproduced e he hu)
  reinjected e he hp := by
    rw [hown e he] at hp
    exact absurd hp (by simp)
  arrived _ _ _ ha := ha
  saved _ := List.Subset.refl _

/-- A node's own outputs are not re-injected. -/
theorem nodeOutputs_persistForLoop {n : NodeId} {outTensors : List (List TensorRef)}
    {e : RoutedEdge} (he : e ∈ nodeOutputs g n outTensors) : e.persistForLoop = false := by
  unfold nodeOutputs at he
  rw [List.mem_mapIdx] at he
  obtain ⟨i, hi, rfl⟩ := he
  rfl

/-- What is on a node's output edges it produced. -/
theorem nodeOutputs_produced {n : NodeId} {outTensors : List (List TensorRef)} {e : RoutedEdge}
    (he : e ∈ nodeOutputs g n outTensors) (hu : 0 < refsTo u e.tensors) :
    ∃ ts ∈ outTensors, 0 < refsTo u ts := by
  unfold nodeOutputs at he
  rw [List.mem_mapIdx] at he
  obtain ⟨i, hi, rfl⟩ := he
  change 0 < refsTo u (outTensors.getD i []) at hu
  rw [List.getD_eq_getElem?_getD] at hu
  cases hg : outTensors[i]? with
  | none =>
    rw [hg] at hu
    simp at hu
  | some ts =>
    rw [hg] at hu
    exact ⟨ts, List.mem_of_getElem? hg, hu⟩

/-- The whole cascade of a completed node. -/
theorem Cascading.cascade {produced : Prop} {s₀ : RequestState} {own : List RoutedEdge}
    (h : Cascading g u produced s₀ s own) (hown : ∀ e ∈ own, e.persistForLoop = false)
    (n : NodeId) (stride : ℕ) :
    Cascading g u produced s₀ (s.cascade g n own stride).1 (s.cascade g n own stride).2 := by
  unfold RequestState.cascade
  cases hn : g.loopId n with
  | none => exact h.rootEntityDone
  | some l =>
    have hout : Cascading g u produced s₀ s ([] ++ own) := h
    exact Cascading.entityCompleted g.loops.length hout (loopId_lt_length hn) hown stride

/-- What a completion reports about one tensor. -/
structure Completes (g : CompiledGraph) (u : ℕ) (produced : Prop) (s : RequestState) (c : Completed)
    (s' : RequestState) : Prop where
  /-- Nothing waits to be reported. -/
  drained : s'.Drained
  /-- No hold appears but those taken. -/
  holds_le : holds g s' u + (c.freed.count u + c.transferred.count u) ≤
    holds g s u + c.taken.count u
  /-- What is taken was produced or held. -/
  taken : 0 < c.taken.count u → produced ∨ 0 < holds g s u
  /-- What is on an edge was produced or is handed on. -/
  settled : ∀ e ∈ c.edges, e.persistForLoop = false → 0 < refsTo u e.tensors →
    produced ∨ 0 < c.transferred.count u
  /-- What is re-injected was saved. -/
  reinjected : ∀ e ∈ c.edges, e.persistForLoop = true →
    ∃ l, ∃ x ∈ (s.loops l).extInputs, e = reinject g x
  arrived : ∀ ⦃n i ts⦄, s'.Arrived n i ts → s.Arrived n i ts
  saved : ∀ l, (s'.loops l).extInputs ⊆ (s.loops l).extInputs

/-- The state a completion's cascade ends in. -/
def RequestState.cascaded (g : CompiledGraph) (s : RequestState) (n : NodeId)
    (outTensors : List (List TensorRef)) (stride : ℕ) : RequestState × List RoutedEdge :=
  (s.markCompleted g n).2.cascade g n (nodeOutputs g n outTensors) stride

/-- A completion drains the changes its cascade made. -/
theorem completeStrided_eq (s : RequestState) (n : NodeId) (outTensors : List (List TensorRef))
    (stride : ℕ) :
    let r := s.cascaded g n outTensors stride
    ∃ times, s.completeStrided g n outTensors stride =
      (⟨r.2, (s.markCompleted g n).1 ++ r.1.refsReleased, r.1.refsTaken, r.1.refsTransferred⟩,
        { r.1 with numTimesRun := times, refsTaken := [], refsReleased := [], refsTransferred := [] }) := by
  dsimp only
  unfold completeStrided cascaded
  dsimp only
  by_cases hdone : (((s.markCompleted g n).2.cascade g n (nodeOutputs g n outTensors) stride).1.isDone &&
      !s.isDone) = true
  · exact ⟨_, by rw [if_pos hdone]⟩
  · exact ⟨_, by rw [if_neg hdone]⟩

/-- Marking a node takes and releases nothing. -/
theorem marked_drained (h : s.Drained) (n : NodeId) : (s.markCompleted g n).2.Drained := by
  have hm : Marks g 0 s _ _ := marks_markCompleted s n
  exact ⟨hm.taken_eq.trans h.taken, hm.released_eq.trans h.released,
    hm.transferred_eq.trans h.transferred⟩

/-- A completion accounts for every reference. -/
theorem completes_completeStrided (h : s.Drained) (n : NodeId)
    (outTensors : List (List TensorRef)) (stride : ℕ) :
    Completes g u (∃ ts ∈ outTensors, 0 < refsTo u ts) s
      (s.completeStrided g n outTensors stride).1 (s.completeStrided g n outTensors stride).2 := by
  obtain ⟨times, heq⟩ := completeStrided_eq (g := g) s n outTensors stride
  have hm : Marks g u s _ _ := marks_markCompleted s n
  have hmarked : (s.markCompleted g n).2.Drained := marked_drained h n
  have hown : ∀ e ∈ nodeOutputs g n outTensors, e.persistForLoop = false := fun e he =>
    nodeOutputs_persistForLoop he
  have hstart : Cascading g u (∃ ts ∈ outTensors, 0 < refsTo u ts) _ _ _ :=
    Cascading.start hmarked hown fun e he => nodeOutputs_produced he
  have hc : Cascading g u _ _ (s.cascaded g n outTensors stride).1
    (s.cascaded g n outTensors stride).2 := hstart.cascade hown n stride
  set r := s.cascaded g n outTensors stride
  have hmass : mass g (s.markCompleted g n).2 u ≤ holds g s u := by
    have := hm.mass_eq
    rw [h.mass_eq] at this
    omega
  rw [heq]
  refine ⟨⟨rfl, rfl, rfl⟩, ?_, fun hu => (hc.taken hu).imp_right (lt_of_lt_of_le · hmass),
    hc.settled, fun e he hp => ?_, fun _ _ _ ha => hm.arrived (hc.arrived ha), fun l => ?_⟩
  · have hle := hc.mass_le
    have hmark := hm.mass_eq
    rw [h.mass_eq] at hmark
    have hholds := mass_eq g r.1 u
    change holds g r.1 u + (((s.markCompleted g n).1 ++ r.1.refsReleased).count u + _) ≤ _
    rw [List.count_append]
    dsimp only
    omega
  · obtain ⟨l, x, hx, he⟩ := hc.reinjected e he hp
    rw [hm.loops_eq] at hx
    exact ⟨l, x, hx, he⟩
  · have hsaved := hc.saved l
    rw [hm.loops_eq] at hsaved
    exact hsaved

/-- What a completion may lose: the caches of loops nested in one that it
finishes, but for the loops it finishes too. -/
def DropsNoCache (g : CompiledGraph) (u : ℕ) (s : RequestState) (n : NodeId) (stride : ℕ) : Prop :=
  ∀ l, g.loopId n = some l → ∀ m ∈ finishes g s.loops g.loops.length l stride,
    ∀ d, g.Below d m → d ∉ finishes g s.loops g.loops.length l stride →
      cacheRefs (s.loops d).cached u = 0

/-- A completion that drops no cache loses no reference. -/
theorem holds_completeStrided (h : s.Drained) (n : NodeId) (outTensors : List (List TensorRef))
    (stride : ℕ) (hcache : DropsNoCache g u s n stride) :
    holds g (s.completeStrided g n outTensors stride).2 u +
        ((s.completeStrided g n outTensors stride).1.freed.count u +
          (s.completeStrided g n outTensors stride).1.transferred.count u) =
      holds g s u + (s.completeStrided g n outTensors stride).1.taken.count u := by
  obtain ⟨times, heq⟩ := completeStrided_eq (g := g) s n outTensors stride
  have hm : Marks g u s _ _ := marks_markCompleted s n
  have hmarked : (s.markCompleted g n).2.Drained := marked_drained h n
  have hc : mass g (s.cascaded g n outTensors stride).1 u =
      mass g (s.markCompleted g n).2 u +
        (s.cascaded g n outTensors stride).1.refsTaken.count u := by
    unfold cascaded RequestState.cascade
    cases hn : g.loopId n with
    | none =>
      have htaken : ((s.markCompleted g n).2.rootEntityDone g).refsTaken = [] := by
        unfold rootEntityDone
        split <;> exact hmarked.taken
      dsimp only
      rw [Lossless.mass_rootEntityDone, htaken]
      rfl
    | some l =>
      obtain ⟨height, _, hup⟩ := g.nested
      set marked := (s.markCompleted g n).2
      have hstart : Lossless g u height marked marked l [] := by
        refine ⟨?_, fun _ => le_rfl, fun _ hd => absurd hd (by simp), fun _ _ => rfl⟩
        rw [hmarked.taken]
        rfl
      have hsplit : finishes g s.loops g.loops.length l stride =
          [] ++ finishes g marked.loops g.loops.length l stride := by
        rw [hm.loops_eq]
        rfl
      refine hstart.mass_entityCompleted g.loops.length hup (fun m hmem d hd hnot => ?_)
        (loopId_lt_length hn) stride hsplit
      rw [hm.loops_eq]
      exact hcache l hn m hmem d hd hnot
  set r := s.cascaded g n outTensors stride
  have hmark := hm.mass_eq
  rw [h.mass_eq] at hmark
  have hholds := mass_eq g r.1 u
  rw [heq]
  change holds g r.1 u + (((s.markCompleted g n).1 ++ r.1.refsReleased).count u + _) = _
  rw [List.count_append]
  dsimp only
  omega

end Mstar.Walk
