import Mstar.WalkReferences

/-!
# What the walk's small operations hold and release

An ingested edge brings its references into the slot it lands in, and every
enclosing loop that is fed it from outside saves it; clearing consumed inputs
releases what they held.
-/

namespace Mstar.Walk

open Shard (Sym TensorRef)
open CompiledGraph (slotOf_inputs mem_heldMask mem_ownMask)
open RequestState

variable {g : CompiledGraph} {u : ℕ} {s s' : RequestState}

/-- No reference change waits to be reported. -/
structure RequestState.Drained (s : RequestState) : Prop where
  taken : s.refsTaken = []
  released : s.refsReleased = []
  transferred : s.refsTransferred = []

/-- An input a loop around its node holds. -/
def SavedInput (g : CompiledGraph) (x : Sym × NodeId × List TensorRef) : Prop :=
  ∃ i, (g.node x.2.1).slotOf x.1 = some i ∧ i ∈ g.heldMask x.2.1

/-- Going from one state to another only saves one input. -/
structure Saves (g : CompiledGraph) (x : Sym × NodeId × List TensorRef) (s s' : RequestState) :
    Prop where
  nodes_eq : s'.nodes = s.nodes
  drained : s.Drained → s'.Drained
  cached_eq : ∀ l, (s'.loops l).cached = (s.loops l).cached
  accum_eq : ∀ l, (s'.loops l).accum = (s.loops l).accum
  saved : ∀ l, ∀ y ∈ (s'.loops l).extInputs, y ∈ (s.loops l).extInputs ∨ y = x ∧
    l ∈ g.enclosing x.2.1 ∧ (x.1, x.2.1) ∈ (g.lp l).externalInputs

namespace Saves

variable {x : Sym × NodeId × List TensorRef} {s'' : RequestState}

/-- Nothing saved. -/
theorem refl (s : RequestState) : Saves g x s s :=
  ⟨rfl, id, fun _ => rfl, fun _ => rfl, fun _ _ h => .inl h⟩

/-- One save after another. -/
theorem trans (h : Saves g x s s') (h' : Saves g x s' s'') : Saves g x s s'' where
  nodes_eq := h'.nodes_eq.trans h.nodes_eq
  drained hd := h'.drained (h.drained hd)
  cached_eq l := (h'.cached_eq l).trans (h.cached_eq l)
  accum_eq l := (h'.accum_eq l).trans (h.accum_eq l)
  saved l y hy := (h'.saved l y hy).elim (h.saved l y) .inr

end Saves

/-- One loop saves an input. -/
theorem saves_recordAt {node : NodeId} {name : Sym} {t : List TensorRef} {l : LoopId}
    (hl : l ∈ g.enclosing node) (s : RequestState) :
    Saves g (name, node, t) s (recordAt g node name t s l) := by
  unfold recordAt
  dsimp only
  split
  · next h =>
    refine ⟨rfl, fun hd => ⟨hd.taken, hd.released, hd.transferred⟩, fun d => ?_, fun d => ?_,
      fun d y hy => ?_⟩
    · by_cases hd : d = l
      · subst hd
        rw [setLoop_loops_self]
      · rw [setLoop_loops_of_ne _ hd]
    · by_cases hd : d = l
      · subst hd
        rw [setLoop_loops_self]
      · rw [setLoop_loops_of_ne _ hd]
    · by_cases hd : d = l
      · subst hd
        rw [setLoop_loops_self] at hy
        rcases List.mem_append.1 hy with hy | hy
        · exact .inl hy
        · exact .inr ⟨List.mem_singleton.1 hy, hl, h.1⟩
      · rw [setLoop_loops_of_ne _ hd] at hy
        exact .inl hy
  · exact Saves.refl s

/-- Every loop around a node may save its input. -/
theorem saves_recordExternal (s : RequestState) (node : NodeId) (name : Sym) (t : List TensorRef) :
    Saves g (name, node, t) s (s.recordExternal g node name t) := by
  have hfold : Saves g (name, node, t) s ((g.enclosing node).foldl (recordAt g node name t) s) :=
    foldl_related Saves.refl Saves.trans (fun s l hl => saves_recordAt hl s) s
  unfold recordExternal
  split
  · split
    · exact Saves.refl s
    · exact hfold
  · exact hfold

/-- An input that a loop saves is held. -/
theorem saved_recordExternal (s : RequestState) {node : NodeId} {slot : ℕ}
    (hslot : slot < (g.node node).inputs.length) (t : List TensorRef) (l : LoopId)
    (y : Sym × NodeId × List TensorRef)
    (hy : y ∈ ((s.recordExternal g node ((g.node node).inputs.getD slot 0) t).loops l).extInputs) :
    y ∈ (s.loops l).extInputs ∨ slot ∈ g.heldMask node ∧
      y = ((g.node node).inputs.getD slot 0, node, t) := by
  have hfound := slotOf_inputs hslot
  by_cases hstream : slot ∈ (g.node node).streamingMask
  · unfold recordExternal at hy
    rw [hfound] at hy
    dsimp only at hy
    rw [if_pos hstream] at hy
    exact .inl hy
  · rcases (saves_recordExternal (g := g) s node _ t).saved l y hy with h | ⟨rfl, hl, hext⟩
    · exact .inl h
    · exact .inr ⟨mem_heldMask hl hext hfound hstream, rfl⟩

/-- What an accepted edge brings. -/
structure Ingests (g : CompiledGraph) (u : ℕ) (s : RequestState) (node : NodeId) (slot : ℕ)
    (t : List TensorRef) (s' : RequestState) : Prop where
  /-- A slot that owns its input holds the new references. -/
  holds_eq : holds g s' u = holds g s u + if slot ∈ g.ownMask node then refsTo u t else 0
  drained : s.Drained → s'.Drained
  arrived : ∀ ⦃n i ts⦄, s'.Arrived n i ts → s.Arrived n i ts ∨ n = node ∧ i = slot ∧ ts = t
  saved : ∀ l, ∀ y ∈ (s'.loops l).extInputs, y ∈ (s.loops l).extInputs ∨
    slot ∈ g.heldMask node ∧ y = ((g.node node).inputs.getD slot 0, node, t)

/-- Where an input lands it brings its references. -/
theorem land_spec {st st' : NodeState} (node : NodeId) {slot : ℕ} {t : List TensorRef}
    {canBuffer fin : Bool} (h : land st slot t canBuffer fin = some st') :
    nodeRefs g node st' u = nodeRefs g node st u + (if slot ∈ g.ownMask node then refsTo u t else 0) ∧
      ∀ i ts, st'.cur.tensors i = some ts ∨ st'.next.tensors i = some ts →
        (st.cur.tensors i = some ts ∨ st.next.tensors i = some ts) ∨ i = slot ∧ ts = t := by
  have hset {sl : Slot} {i : ℕ} {ts : List TensorRef} (h : (sl.set slot t fin).tensors i = some ts) :
      sl.tensors i = some ts ∨ i = slot ∧ ts = t := by
    by_cases hi : i = slot
    · subst hi
      refine .inr ⟨rfl, ?_⟩
      simpa [Slot.set] using h.symm
    · left
      simpa [Slot.set, Function.update_of_ne hi] using h
  unfold land at h
  split at h
  · next hcur =>
    rw [Option.some.injEq] at h
    subst h
    unfold nodeRefs
    rw [Slot.set_refs _ _ _ hcur]
    refine ⟨by dsimp only; omega, fun i ts hi => ?_⟩
    rcases hi with hi | hi
    · exact (hset hi).imp_left .inl
    · exact .inl (.inr hi)
  · split at h
    · next hnext =>
      rw [Option.some.injEq] at h
      subst h
      unfold nodeRefs
      rw [Slot.set_refs _ _ _ hnext.2]
      refine ⟨by dsimp only; omega, fun i ts hi => ?_⟩
      rcases hi with hi | hi
      · exact .inl (.inl hi)
      · exact (hset hi).imp_left .inr
    · exact absurd h (by simp)

/-- An accepted edge. -/
theorem ingests_of_ingest {node : NodeId} {slot : ℕ} {t : List TensorRef} {canBuffer fin : Bool}
    (hslot : slot < (g.node node).inputs.length)
    (h : s.ingest g node slot t canBuffer fin = some s') : Ingests g u s node slot t s' := by
  unfold ingest at h
  cases hland : land (s.nodes node) slot t canBuffer fin with
  | none =>
    rw [hland] at h
    exact absurd h (by simp)
  | some st =>
    rw [hland] at h
    dsimp only at h
    rw [Option.some.injEq] at h
    subst h
    obtain ⟨hrefs, harr⟩ := land_spec (g := g) (u := u) node hland
    set name := (g.node node).inputs.getD slot 0
    have hsaves : Saves g (name, node, t) (s.setNode node st) _ :=
      saves_recordExternal (s.setNode node st) node name t
    set s₁ := (s.setNode node st).recordExternal g node name t
    refine ⟨?_, fun hd => ?_, fun n i ts ha => ?_, fun l y hy => ?_⟩
    · have hslots := slotRefs_setNode g s u node st
      have hslots₁ : slotRefs g s₁ u = slotRefs g (s.setNode node st) u := by
        unfold slotRefs
        rw [hsaves.nodes_eq]
      have haccum : accumRefs g s₁ u = accumRefs g s u :=
        Finset.sum_congr rfl fun l _ => by
          rw [hsaves.accum_eq]
          rfl
      have hcached : cachedRefs g s₁ u = cachedRefs g s u :=
        Finset.sum_congr rfl fun l _ => by
          rw [hsaves.cached_eq]
          rfl
      change slotRefs g s₁ u + accumRefs g s₁ u + cachedRefs g s₁ u = _
      unfold holds
      omega
    · have hd₁ := hsaves.drained ⟨hd.taken, hd.released, hd.transferred⟩
      exact ⟨hd₁.taken, hd₁.released, hd₁.transferred⟩
    · have ha₁ : s₁.Arrived n i ts := ha
      unfold Arrived at ha₁
      rw [hsaves.nodes_eq] at ha₁
      by_cases hn : n = node
      · subst hn
        have hst : (s.setNode n st).nodes n = st := Function.update_self _ _ _
        rw [hst] at ha₁
        exact (harr i ts ha₁).imp_right fun h => ⟨rfl, h⟩
      · have hst : (s.setNode node st).nodes n = s.nodes n := Function.update_of_ne hn _ _
        rw [hst] at ha₁
        exact .inl ha₁
    · exact saved_recordExternal (s.setNode node st) hslot t l y hy

/-- Clearing consumed inputs releases what they held. -/
theorem holds_clearConsumedInputs (s : RequestState) (n : NodeId) :
    holds g (s.clearConsumedInputs g n).2 u + (s.clearConsumedInputs g n).1.count u =
      holds g s u := by
  unfold clearConsumedInputs
  dsimp only
  rw [count_slotUuids]
  set st : NodeState := { s.nodes n with cur := (s.nodes n).cur.takeAll (g.ownMask n) }
  have hslots := slotRefs_setNode g s u n st
  have hst : nodeRefs g n st u = (s.nodes n).next.refs (g.ownMask n) u := by
    unfold nodeRefs
    dsimp only [st]
    rw [Slot.takeAll_refs, Nat.zero_add]
  have hold : nodeRefs g n (s.nodes n) u =
      (s.nodes n).cur.refs (g.ownMask n) u + (s.nodes n).next.refs (g.ownMask n) u := rfl
  change slotRefs g (s.setNode n st) u + accumRefs g s u + cachedRefs g s u + _ = _
  unfold holds
  omega

/-- Clearing consumed inputs brings nothing. -/
theorem arrived_clearConsumedInputs (n : NodeId) {m i : ℕ} {ts : List TensorRef}
    (h : (s.clearConsumedInputs g n).2.Arrived m i ts) : s.Arrived m i ts := by
  by_cases hm : m = n
  · subst hm
    rcases h with h | h
    · left
      have hcur : ((s.clearConsumedInputs g m).2.nodes m).cur =
          (s.nodes m).cur.takeAll (g.ownMask m) := by
        unfold clearConsumedInputs setNode refreshReady
        simp
      rw [hcur] at h
      unfold Slot.takeAll at h
      dsimp only at h
      split at h
      · exact absurd h (by simp)
      · exact h
    · right
      have hnext : ((s.clearConsumedInputs g m).2.nodes m).next = (s.nodes m).next := by
        unfold clearConsumedInputs setNode refreshReady
        simp
      rwa [hnext] at h
  · have hnode : (s.clearConsumedInputs g n).2.nodes m = s.nodes m := Function.update_of_ne hm _ _
    unfold Arrived at h ⊢
    rwa [hnode] at h

/-- Two states with the same slots, caches and saved inputs. -/
structure SameHolds (s s' : RequestState) : Prop where
  drained : s.Drained → s'.Drained
  cur_eq : ∀ n, (s'.nodes n).cur = (s.nodes n).cur
  next_eq : ∀ n, (s'.nodes n).next = (s.nodes n).next
  cached_eq : ∀ l, (s'.loops l).cached = (s.loops l).cached
  accum_eq : ∀ l, (s'.loops l).accum = (s.loops l).accum
  ext_eq : ∀ l, (s'.loops l).extInputs = (s.loops l).extInputs

namespace SameHolds

variable {s'' : RequestState}

/-- Nothing held changes. -/
theorem refl (s : RequestState) : SameHolds s s :=
  ⟨id, fun _ => rfl, fun _ => rfl, fun _ => rfl, fun _ => rfl, fun _ => rfl⟩

/-- One such step after another. -/
theorem trans (h : SameHolds s s') (h' : SameHolds s' s'') : SameHolds s s'' where
  drained hd := h'.drained (h.drained hd)
  cur_eq n := (h'.cur_eq n).trans (h.cur_eq n)
  next_eq n := (h'.next_eq n).trans (h.next_eq n)
  cached_eq l := (h'.cached_eq l).trans (h.cached_eq l)
  accum_eq l := (h'.accum_eq l).trans (h.accum_eq l)
  ext_eq l := (h'.ext_eq l).trans (h.ext_eq l)

/-- They hold the same references. -/
theorem holds_eq (h : SameHolds s s') (u : ℕ) : holds g s' u = holds g s u := by
  unfold holds slotRefs accumRefs cachedRefs nodeRefs
  simp only [h.cur_eq, h.next_eq, h.cached_eq, h.accum_eq]

/-- A node's state changed outside its two slots. -/
theorem setNode (s : RequestState) {n : NodeId} (st : NodeState) (hcur : st.cur = (s.nodes n).cur)
    (hnext : st.next = (s.nodes n).next) : SameHolds s (s.setNode n st) := by
  have hnode {α : Type} (f : NodeState → α) (hf : f st = f (s.nodes n)) (m : NodeId) :
      f ((s.setNode n st).nodes m) = f (s.nodes m) := by
    unfold RequestState.setNode
    by_cases hm : m = n
    · subst hm
      simpa using hf
    · simp [Function.update_of_ne hm]
  exact ⟨fun hd => ⟨hd.taken, hd.released, hd.transferred⟩, hnode NodeState.cur hcur,
    hnode NodeState.next hnext, fun _ => rfl, fun _ => rfl, fun _ => rfl⟩

/-- A loop's state changed outside its caches and saved inputs. -/
theorem setLoop (s : RequestState) {l : LoopId} {st : LoopState}
    (hcached : st.cached = (s.loops l).cached) (haccum : st.accum = (s.loops l).accum)
    (hext : st.extInputs = (s.loops l).extInputs) : SameHolds s (s.setLoop l st) := by
  have hloop {α : Type} (f : LoopState → α) (hf : f st = f (s.loops l)) (d : LoopId) :
      f ((s.setLoop l st).loops d) = f (s.loops d) := by
    by_cases hd : d = l
    · subst hd
      rw [setLoop_loops_self]
      exact hf
    · rw [setLoop_loops_of_ne _ hd]
  exact ⟨fun hd => ⟨hd.taken, hd.released, hd.transferred⟩, fun _ => rfl, fun _ => rfl,
    hloop LoopState.cached hcached, hloop LoopState.accum haccum, hloop LoopState.extInputs hext⟩

/-- The ready sets and the speculated nodes hold nothing. -/
theorem marks (s : RequestState) (ready streaming : Finset NodeId) (dirty : List NodeId) :
    SameHolds s { s with ready := ready, readyStreaming := streaming, specDirty := dirty } :=
  ⟨fun hd => ⟨hd.taken, hd.released, hd.transferred⟩, fun _ => rfl, fun _ => rfl, fun _ => rfl,
    fun _ => rfl, fun _ => rfl⟩

/-- A speculated edge fills only a speculative slot. -/
theorem speculate (s : RequestState) (e : RoutedEdge) : SameHolds s (s.speculate g e) := by
  unfold RequestState.speculate
  split
  · next d _ =>
    split
    · next slot _ =>
      refine (setNode (n := d) s
        { s.nodes d with spec := (s.nodes d).spec.set slot e.tensors false } rfl rfl).trans ?_
      exact marks _ _ _ _
    · exact refl s
  · exact refl s

/-- Speculating fills only speculative slots. -/
theorem ingestForSpeculation (s : RequestState) (source : NodeId) (edges : List RoutedEdge) :
    SameHolds s (s.ingestForSpeculation g source edges).2 :=
  foldl_related refl trans (fun s e _ => speculate s e) s

/-- Dropping what was speculated empties only speculative slots. -/
theorem clearSpeculativeInputs (s : RequestState) : SameHolds s s.clearSpeculativeInputs :=
  (foldl_related (f := fun s n => s.setNode n { s.nodes n with spec := .new }) refl trans
    (fun s _ _ => setNode s _ rfl rfl) s).trans (marks _ _ _ _)

end SameHolds

end Mstar.Walk
