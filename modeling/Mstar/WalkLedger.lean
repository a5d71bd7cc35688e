import Mstar.WalkWorld

/-!
# The bookkeeper covers what the walk holds

Between events every tensor is counted for its holds in slots and caches, its
routed readers and the references handed in with inputs a loop holds; while a
completion is routed, for what is still to settle too. The count is exact as
long as nothing lands in a held input, no cache is dropped and a reset finds
the walk empty.
-/

namespace Mstar.Walk

open Shard (Sym TensorRef)
open CompiledGraph (slotOf_inputs slotOf_spec mem_ownMask)
open RequestState

/-- What is counted covers what is held, exactly so if it is claimed. -/
def Covered (exact : Prop) (held counted : ℕ) : Prop := held ≤ counted ∧ (exact → held = counted)

section Settling

variable {c k : ℕ → ℕ} {l : RefLedger ℕ} {u : ℕ}

/-- A uuid that was not produced is not settled with the produced ones. -/
theorem settleOwned_of_not_mem {us : List ℕ} (h : u ∉ us) :
    l.Agree u (settleOwned c us k l).1 ∧
      (settleOwned c us k l).2 u = k u := by
  induction us generalizing k l with
  | nil => exact ⟨⟨rfl, rfl⟩, rfl⟩
  | cons v us ih =>
    have hne : u ≠ v := fun huv => h (huv ▸ List.mem_cons_self)
    obtain ⟨hagree, hrest⟩ := ih (k := Function.update k v 0)
      (l := l.settle v (1 + k v) (c v)) fun hm => h (List.mem_cons_of_mem _ hm)
    unfold settleOwned
    refine ⟨(l.settle_agree hne _ _).trans hagree, ?_⟩
    rw [hrest, Function.update_of_ne hne]

/-- A produced uuid's producer and finished loops are exchanged for its
readers. -/
theorem settleOwned_of_mem {us : List ℕ} (hnodup : us.Nodup) (hu : u ∈ us)
    (hheld : 1 + k u ≤ l.count u) :
    (settleOwned c us k l).1.count u + (1 + k u) = l.count u + c u ∧
      (settleOwned c us k l).1.overdrawn u = l.overdrawn u ∧
      (settleOwned c us k l).2 u = 0 := by
  induction us generalizing k l with
  | nil => exact absurd hu (by simp)
  | cons v us ih =>
    obtain ⟨hv, hus⟩ := List.nodup_cons.1 hnodup
    unfold settleOwned
    by_cases huv : u = v
    · subst huv
      obtain ⟨⟨hcount, hover⟩, hrest⟩ := settleOwned_of_not_mem (c := c)
        (k := Function.update k u 0) (l := l.settle u (1 + k u) (c u)) hv
      refine ⟨?_, ?_, ?_⟩
      · rw [hcount]
        exact l.settle_count (by omega) hheld _
      · rw [hover]
        exact l.settle_overdrawn hheld _
      · rw [hrest, Function.update_self]
    · have hmem : u ∈ us := (List.mem_cons.1 hu).resolve_left huv
      obtain ⟨hcount, hover⟩ := l.settle_agree huv (1 + k v) (c v)
      have hsame : Function.update k v 0 u = k u := Function.update_of_ne huv _ _
      have hrec := ih (k := Function.update k v 0)
        (l := l.settle v (1 + k v) (c v)) hus hmem (by rw [hsame, hcount]; exact hheld)
      rw [hsame, hcount, hover] at hrec
      exact hrec

/-- One step of settling what is left. -/
theorem settleRest_step {v : ℕ} (huv : u ≠ v) :
    l.Agree u (if k v = 0 then l else l.settle v (k v) (c v)) := by
  split
  · exact ⟨rfl, rfl⟩
  · exact l.settle_agree huv _ _

/-- A uuid nothing is left of is not settled again. -/
theorem settleRest_of_not_mem {vs : List ℕ} (h : u ∉ vs) :
    l.Agree u (settleRest c k vs l) := by
  induction vs generalizing l with
  | nil => exact ⟨rfl, rfl⟩
  | cons v vs ih =>
    have huv : u ≠ v := fun huv => h (huv ▸ List.mem_cons_self)
    unfold settleRest
    exact (settleRest_step huv).trans (ih fun hm => h (List.mem_cons_of_mem _ hm))

/-- What is left of a uuid is exchanged for its readers. -/
theorem settleRest_of_mem {vs : List ℕ} (hnodup : vs.Nodup) (hu : u ∈ vs)
    (hheld : k u ≤ l.count u) :
    (settleRest c k vs l).overdrawn u = l.overdrawn u ∧
      (settleRest c k vs l).count u + k u =
        l.count u + if k u = 0 then 0 else c u := by
  induction vs generalizing l with
  | nil => exact absurd hu (by simp)
  | cons v vs ih =>
    obtain ⟨hv, hvs⟩ := List.nodup_cons.1 hnodup
    unfold settleRest
    by_cases huv : u = v
    · subst huv
      obtain ⟨hcount, hover⟩ := settleRest_of_not_mem (c := c)
        (k := k) (l := if k u = 0 then l else l.settle u (k u) (c u)) hv
      rw [hcount, hover]
      by_cases hzero : k u = 0
      · simp [hzero]
      · simp only [if_neg hzero]
        exact ⟨l.settle_overdrawn hheld _, l.settle_count (by omega) hheld _⟩
    · have hmem : u ∈ vs := (List.mem_cons.1 hu).resolve_left huv
      obtain ⟨hcount, hover⟩ := settleRest_step (c := c) (k := k)
        (l := l) huv
      have hrec := ih (l := if k v = 0 then l else l.settle v (k v) (c v)) hvs
        hmem (by rw [hcount]; exact hheld)
      rw [hcount, hover] at hrec
      exact hrec

/-- Settling exchanges what is due for the readers. -/
theorem settleAll_spec {r : Routing} (hnodup : r.owned.Nodup) (hdue : r.due u ≤ l.count u) :
    (settleAll r l).overdrawn u = l.overdrawn u ∧
      (settleAll r l).count u + r.due u =
        l.count u + if r.due u = 0 then 0 else r.contributed u := by
  unfold Routing.due at hdue ⊢
  unfold settleAll
  dsimp only
  by_cases hu : u ∈ r.owned
  · have hone : r.owned.count u = 1 := List.count_eq_one_of_mem hnodup hu
    rw [hone] at hdue ⊢
    obtain ⟨hcount, hover, hrest⟩ := settleOwned_of_mem (c := r.contributed)
      (k := fun u => r.transferred.count u) hnodup hu hdue
    set settled := settleOwned r.contributed r.owned (fun u => r.transferred.count u) l
    have hagree : settled.1.Agree u
        (settleRest r.contributed settled.2 r.transferred.dedup settled.1) := by
      by_cases hmem : u ∈ r.transferred.dedup
      · have hspec := settleRest_of_mem (c := r.contributed) (k := settled.2)
          (l := settled.1) (List.nodup_dedup _) hmem (by omega)
        rw [hrest] at hspec
        exact ⟨by simpa using hspec.2, hspec.1⟩
      · exact settleRest_of_not_mem hmem
    rw [hagree.1, hagree.2, hover, if_neg (by omega)]
    exact ⟨rfl, hcount⟩
  · have hzero : r.owned.count u = 0 := List.count_eq_zero_of_not_mem hu
    rw [hzero] at hdue ⊢
    obtain ⟨⟨hcount, hover⟩, hrest⟩ := settleOwned_of_not_mem (c := r.contributed)
      (k := fun u => r.transferred.count u) (l := l) hu
    set settled := settleOwned r.contributed r.owned (fun u => r.transferred.count u) l
    rw [Nat.zero_add]
    by_cases hmem : u ∈ r.transferred.dedup
    · have hspec := settleRest_of_mem (c := r.contributed) (k := settled.2)
        (l := settled.1) (List.nodup_dedup _) hmem (by rw [hrest, hcount]; omega)
      rw [hrest, hcount, hover] at hspec
      exact hspec
    · have hagree := settleRest_of_not_mem (c := r.contributed) (k := settled.2)
        (l := settled.1) hmem
      have hnone : r.transferred.count u = 0 :=
        List.count_eq_zero_of_not_mem fun h => hmem (List.mem_dedup.2 h)
      rw [hagree.1, hagree.2, hover, hcount, hnone]
      simp

end Settling

namespace WalkWorld

/-- When the count stays exact: nothing lands in a held input, no cache is
dropped, and a reset finds the walk empty. -/
def Keeps (g : CompiledGraph) (w : WalkWorld) : WalkOp → Prop
  | .ingest node slot t canBuffer fin => (w.state.ingest g node slot t canBuffer fin).isSome →
      slot ∈ g.heldMask node → t = []
  | .complete node _ _ stride _ => ∀ u, DropsNoCache g u w.state node stride
  | .route => ∀ r ∈ w.routing, ∀ c ∈ r.edges.head?, ∀ x ∈ offered g c,
      (w.state.ingest g x.1 x.2 c.tensors true false).isSome → c.persistForLoop = false →
      x.2 ∈ g.heldMask x.1 → c.tensors = []
  | .reset => ∀ u, holds g w.state u = 0
  | _ => True

/-- What holds of a completion while it is routed. -/
structure RoutingInv (g : CompiledGraph) (exact : Prop) (w : WalkWorld) (r : Routing) : Prop where
  nodup : r.owned.Nodup
  /-- Holds, and what is to be released and settled, are counted, with the
  readers of what is to be settled. -/
  counted : ∀ u, Covered exact
    (holds g w.state u + w.readers u + w.handedIn u + r.freed.count u + r.due u)
    (w.ledger.count u + if r.due u = 0 then 0 else r.contributed u)
  /-- What is to be released and settled is counted by itself. -/
  backed : ∀ u, r.freed.count u + r.due u ≤ w.ledger.count u
  /-- What is on an edge is to be settled. -/
  settled : ∀ e ∈ r.edges, e.persistForLoop = false → ∀ u, 0 < refsTo u e.tensors → 0 < r.due u
  /-- What is re-injected is held and was handed in. -/
  reinjected : ∀ e ∈ r.edges, e.persistForLoop = true → ∃ x, e = reinject g x ∧ SavedInput g x ∧
    ∀ u, 0 < refsTo u x.2.2 → 0 < w.handedIn u

/-- What holds of a walk in every state. -/
structure Inv (g : CompiledGraph) (exact : Prop) (w : WalkWorld) : Prop where
  drained : w.state.Drained
  /-- No reference was released twice. -/
  overdrawn : ∀ u, w.ledger.overdrawn u = 0
  /-- Between events every hold is counted. -/
  idle : w.routing = none → ∀ u, Covered exact
    (holds g w.state u + w.readers u + w.handedIn u) (w.ledger.count u)
  routing : ∀ r, w.routing = some r → w.RoutingInv g exact r
  /-- What is in a held input was handed in. -/
  slots : ∀ n i ts, w.state.Arrived n i ts → i ∈ g.heldMask n → ∀ u, 0 < refsTo u ts →
    0 < w.handedIn u
  /-- What a loop saves was handed in. -/
  saved : ∀ l, ∀ x ∈ (w.state.loops l).extInputs, SavedInput g x ∧
    ∀ u, 0 < refsTo u x.2.2 → 0 < w.handedIn u
  /-- An exact count knows of nothing handed in for a loop. -/
  handedIn : exact → ∀ u, w.handedIn u = 0

variable {g : CompiledGraph} {exact : Prop} {w : WalkWorld}

/-- A walk before anything arrives. -/
theorem inv_fresh (g : CompiledGraph) (exact : Prop) : (fresh g).Inv g exact := by
  have hholds : ∀ u, holds g (fresh g).state u = 0 := by
    intro u
    simp [holds, slotRefs, accumRefs, cachedRefs, nodeRefs, fresh, RequestState.new, NodeState.new,
      LoopState.new, cacheRefs, cacheUuids]
  refine ⟨⟨rfl, rfl, rfl⟩, fun _ => rfl, fun _ u => ?_, fun r hr => ?_, fun n i ts ha => ?_,
    fun l x hx => ?_, fun _ _ => rfl⟩
  · rw [hholds]
    exact ⟨le_rfl, fun _ => rfl⟩
  · exact absurd hr (by simp [fresh])
  · rcases ha with ha | ha <;> simp [fresh, RequestState.new, NodeState.new, Slot.new] at ha
  · simp [fresh, RequestState.new, LoopState.new] at hx

/-- A change of the walk that moves no reference. -/
theorem Inv.of_state (h : w.Inv g exact) {s : RequestState} (hd : s.Drained)
    (hholds : ∀ u, Covered exact (holds g s u) (holds g w.state u))
    (harr : ∀ n i ts, s.Arrived n i ts → w.state.Arrived n i ts)
    (hsaved : ∀ l, (s.loops l).extInputs ⊆ (w.state.loops l).extInputs) :
    ({ w with state := s } : WalkWorld).Inv g exact := by
  refine ⟨hd, h.overdrawn, fun hr u => ?_, fun r hr => ?_, fun n i ts ha => h.slots n i ts (harr n i ts ha),
    fun l x hx => h.saved l x (hsaved l hx), h.handedIn⟩
  · obtain ⟨hle, heq⟩ := h.idle hr u
    obtain ⟨hle', heq'⟩ := hholds u
    refine ⟨by dsimp only; omega, fun he => ?_⟩
    have := heq he
    have := heq' he
    dsimp only
    omega
  · obtain ⟨hnodup, hcounted, hbacked, hsettled, hreinjected⟩ := h.routing r hr
    refine ⟨hnodup, fun u => ?_, hbacked, hsettled, hreinjected⟩
    obtain ⟨hle, heq⟩ := hcounted u
    obtain ⟨hle', heq'⟩ := hholds u
    refine ⟨by dsimp only; omega, fun he => ?_⟩
    have := heq he
    have := heq' he
    dsimp only
    omega

/-- A change of the walk that leaves slots, caches and saved inputs alone. -/
theorem Inv.of_same (h : w.Inv g exact) {s : RequestState} (hs : SameHolds w.state s) :
    ({ w with state := s } : WalkWorld).Inv g exact := by
  refine h.of_state (hs.drained h.drained) (fun u => ?_) (fun n i ts ha => ?_) fun l => ?_
  · rw [hs.holds_eq]
    exact ⟨le_rfl, fun _ => rfl⟩
  · unfold Arrived at ha ⊢
    rwa [hs.cur_eq, hs.next_eq] at ha
  · rw [hs.ext_eq]
    exact List.Subset.refl _

/-- An edge from outside lands in the walk, or nothing happens. -/
theorem Inv.ingest (h : w.Inv g exact) {node slot : ℕ} {t : List TensorRef} {canBuffer fin : Bool}
    (he : w.Enabled g (.ingest node slot t canBuffer fin))
    (hk : exact → w.Keeps g (.ingest node slot t canBuffer fin)) :
    (w.step g (.ingest node slot t canBuffer fin)).Inv g exact := by
  obtain ⟨hnone, hslot⟩ := he
  have hidle : w.routing = none := Option.isNone_iff_eq_none.1 hnone
  unfold step
  cases hs : w.state.ingest g node slot t canBuffer fin with
  | none =>
    dsimp only
    rw [hs]
    exact h
  | some s =>
    dsimp only
    rw [hs]
    dsimp only
    have hi (u : ℕ) : Ingests g u w.state node slot t s := ingests_of_ingest hslot hs
    refine ⟨(hi 0).drained h.drained, fun u => ?_, fun _ u => ?_, fun r hr => ?_,
      fun n i ts ha hheld u hu => ?_, fun l x hx => ?_, fun hex u => ?_⟩
    · dsimp only
      rw [RefLedger.storeAll_overdrawn]
      exact h.overdrawn u
    · obtain ⟨hle, heq⟩ := h.idle hidle u
      have hholds := (hi u).holds_eq
      have hown := mem_ownMask hslot
      have hcount : (w.ledger.storeAll (uuids t)).count u = w.ledger.count u + refsTo u t :=
        w.ledger.storeAll_count _ u
      unfold heldRefs
      dsimp only
      rw [hcount, hholds]
      by_cases hheld : slot ∈ g.heldMask node
      · rw [if_neg fun ho => hown.1 ho hheld, if_pos hheld]
        refine ⟨by omega, fun hex => ?_⟩
        have := heq hex
        omega
      · rw [if_pos (hown.2 hheld), if_neg hheld]
        refine ⟨by omega, fun hex => ?_⟩
        have := heq hex
        omega
    · dsimp only at hr
      rw [hidle] at hr
      exact absurd hr (by simp)
    · dsimp only
      rcases (hi 0).arrived ha with hold | ⟨rfl, rfl, rfl⟩
      · have := h.slots n i ts hold hheld u hu
        omega
      · unfold heldRefs
        rw [if_pos hheld]
        omega
    · dsimp only
      rcases (hi 0).saved l x hx with hold | ⟨hheld, rfl⟩
      · obtain ⟨hsaved, hpos⟩ := h.saved l x hold
        refine ⟨hsaved, fun u hu => ?_⟩
        have := hpos u hu
        omega
      · refine ⟨⟨slot, slotOf_inputs hslot, hheld⟩, fun u hu => ?_⟩
        unfold heldRefs
        rw [if_pos hheld]
        dsimp only at hu
        omega
    · have hzero := h.handedIn hex u
      have hempty := hk hex (by rw [hs]; rfl)
      unfold heldRefs
      dsimp only
      split
      · next hheld =>
        rw [hempty hheld, hzero]
        rfl
      · omega

/-- Consumed inputs are released. -/
theorem Inv.clearConsumed (h : w.Inv g exact) {node : NodeId}
    (he : w.Enabled g (.clearConsumed node)) : (w.step g (.clearConsumed node)).Inv g exact := by
  have hidle : w.routing = none := Option.isNone_iff_eq_none.1 he
  have hholds (u : ℕ) := holds_clearConsumedInputs (g := g) (u := u) w.state node
  unfold step
  dsimp only
  have hle (u : ℕ) : (w.state.clearConsumedInputs g node).1.count u ≤ w.ledger.count u := by
    have := (h.idle hidle u).1
    have := hholds u
    omega
  refine ⟨⟨h.drained.taken, h.drained.released, h.drained.transferred⟩, fun u => ?_, fun _ u => ?_,
    fun r hr => ?_, fun n i ts ha => h.slots n i ts (arrived_clearConsumedInputs node ha),
    fun l x hx => h.saved l x hx, h.handedIn⟩
  · rw [RefLedger.dropAll_overdrawn _ _ _ (hle u)]
    exact h.overdrawn u
  · obtain ⟨hc, heq⟩ := h.idle hidle u
    have hu := hholds u
    have hleu := hle u
    rw [RefLedger.dropAll_count]
    dsimp only
    refine ⟨by omega, fun hex => ?_⟩
    have := heq hex
    omega
  · rw [hidle] at hr
    exact absurd hr (by simp)

/-- A routed reader is done. -/
theorem Inv.consume (h : w.Inv g exact) {v : ℕ} (he : w.Enabled g (.consume v)) :
    (w.step g (.consume v)).Inv g exact := by
  obtain ⟨hnone, hpos⟩ := he
  have hidle : w.routing = none := Option.isNone_iff_eq_none.1 hnone
  unfold step
  dsimp only
  refine ⟨h.drained, fun u => ?_, fun _ u => ?_, fun r hr => ?_, h.slots, h.saved, h.handedIn⟩
  · rw [RefLedger.drop_overdrawn _ _ _ _ fun huv => ?_]
    · exact h.overdrawn u
    · subst huv
      have := (h.idle hidle v).1
      omega
  · obtain ⟨hc, heq⟩ := h.idle hidle u
    rw [RefLedger.drop_count]
    dsimp only
    by_cases huv : v = u
    · subst huv
      rw [if_pos rfl, Function.update_self]
      refine ⟨by omega, fun hex => ?_⟩
      have := heq hex
      omega
    · rw [if_neg huv, Function.update_of_ne (Ne.symm huv)]
      exact ⟨hc, heq⟩
  · rw [hidle] at hr
    exact absurd hr (by simp)

/-- A finished worker graph is reset. -/
theorem Inv.reset (h : w.Inv g exact) (hk : exact → w.Keeps g .reset) :
    (w.step g .reset).Inv g exact := by
  have hholds : ∀ u, holds g (w.state.reset g) u = 0 := by
    intro u
    simp [holds, slotRefs, accumRefs, cachedRefs, nodeRefs, RequestState.reset, NodeState.new,
      LoopState.new, cacheRefs, cacheUuids]
  refine h.of_state ⟨h.drained.taken, h.drained.released, h.drained.transferred⟩ (fun u => ?_)
    (fun n i ts ha => ?_) fun l => ?_
  · rw [hholds]
    exact ⟨Nat.zero_le _, fun hex => (hk hex u).symm⟩
  · rcases ha with ha | ha <;> simp [RequestState.reset, NodeState.new, Slot.new] at ha
  · exact List.nil_subset _

/-- A slice has a uuid only if the edge it was cut from has it. -/
theorem refsTo_pos_of_slice {ts ts' : List TensorRef} {u : ℕ}
    (h : ∀ t ∈ ts', ∃ t' ∈ ts, t'.uuid = t.uuid) (hu : 0 < refsTo u ts') : 0 < refsTo u ts := by
  obtain ⟨t, ht, rfl⟩ := (refsTo_pos u).1 hu
  obtain ⟨t', ht', heq⟩ := h t ht
  exact (refsTo_pos _).2 ⟨t', ht', heq⟩

/-- A node completes: its tensors are stored, what is cached is taken, and the
edges wait to be routed. -/
theorem Inv.complete (h : w.Inv g exact) {node : NodeId} {owned : List ℕ}
    {outTensors : List (List TensorRef)} {stride : ℕ} {fanout : Fanout}
    (he : w.Enabled g (.complete node owned outTensors stride fanout))
    (hk : exact → w.Keeps g (.complete node owned outTensors stride fanout)) :
    (w.step g (.complete node owned outTensors stride fanout)).Inv g exact := by
  obtain ⟨hnone, hnodup, hproduced⟩ := he
  have hidle : w.routing = none := Option.isNone_iff_eq_none.1 hnone
  have hc (u : ℕ) := completes_completeStrided (g := g) (u := u) h.drained node outTensors stride
  have hexact (hex : exact) (u : ℕ) := holds_completeStrided (g := g) (u := u) h.drained node
    outTensors stride (hk hex u)
  have howned (u : ℕ) (hp : ∃ ts ∈ outTensors, 0 < refsTo u ts) : 0 < owned.count u := by
    obtain ⟨ts, hts, hu⟩ := hp
    obtain ⟨t, ht, rfl⟩ := (refsTo_pos u).1 hu
    exact List.count_pos_iff.2 (hproduced ts hts t ht)
  unfold step
  dsimp only
  set c := (w.state.completeStrided g node outTensors stride).1
  set s := (w.state.completeStrided g node outTensors stride).2
  have hcount (u : ℕ) : ((w.ledger.storeAll owned).takeAll c.taken).count u =
      w.ledger.count u + owned.count u + c.taken.count u := by
    rw [RefLedger.takeAll_count, RefLedger.storeAll_count]
    intro hu
    rw [RefLedger.storeAll_count]
    have hidle' := (h.idle hidle u).1
    rcases (hc u).taken (List.count_pos_iff.2 hu) with hp | hp
    · have := howned u hp
      omega
    · omega
  have hedge (e : RoutedEdge) (he : e ∈ (readEdges g node c.edges).flatMap fanout.copies) :
      ∃ e' ∈ c.edges, e ∈ fanout.copies e' := by
    obtain ⟨e', he', hcopy⟩ := List.mem_flatMap.1 he
    exact ⟨e', List.mem_of_mem_filter he', hcopy⟩
  have hreinjected (e : RoutedEdge) (he : e ∈ (readEdges g node c.edges).flatMap fanout.copies)
      (hp : e.persistForLoop = true) : ∃ l, ∃ x ∈ (w.state.loops l).extInputs, e = reinject g x := by
    obtain ⟨e', he', hcopy⟩ := hedge e he
    have hp' : e'.persistForLoop = true := (fanout.slices e' e hcopy).1 ▸ hp
    rw [fanout.reinjects e' hp', List.mem_singleton] at hcopy
    subst hcopy
    exact (hc 0).reinjected e he' hp
  refine ⟨(hc 0).drained, fun u => ?_, fun hr => absurd hr (by simp), fun r hr => ?_,
    fun n i ts ha => h.slots n i ts ((hc 0).arrived ha), fun l x hx => h.saved l x ((hc 0).saved l hx),
    h.handedIn⟩
  · rw [RefLedger.takeAll_overdrawn, RefLedger.storeAll_overdrawn]
    exact h.overdrawn u
  · obtain rfl := Option.some.inj hr
    refine ⟨hnodup, fun u => ?_, fun u => ?_, fun e he hp u hu => ?_, fun e he hp => ?_⟩
    · obtain ⟨hle, heq⟩ := h.idle hidle u
      have hholds := (hc u).holds_le
      unfold Routing.due
      dsimp only
      rw [hcount]
      refine ⟨by split <;> omega, fun hex => ?_⟩
      have := heq hex
      have := hexact hex u
      split <;> omega
    · have hle := (h.idle hidle u).1
      have hholds := (hc u).holds_le
      unfold Routing.due
      dsimp only
      rw [hcount]
      omega
    · obtain ⟨e', he', hcopy⟩ := hedge e he
      obtain ⟨hpersist, hslice⟩ := fanout.slices e' e hcopy
      have hp' : e'.persistForLoop = false := hpersist ▸ hp
      unfold Routing.due
      dsimp only
      rcases (hc u).settled e' he' hp' (refsTo_pos_of_slice hslice hu) with hp | hp
      · have := howned u hp
        omega
      · omega
    · obtain ⟨l, x, hx, rfl⟩ := hreinjected e he hp
      exact ⟨x, rfl, h.saved l x hx⟩

/-- A copy goes out of the walk: whatever is on it is to be settled. -/
theorem Inv.sendOut (h : w.Inv g exact) {r : Routing} {c : RoutedEdge} {rest : List RoutedEdge}
    (hr : w.routing = some r) (hedges : r.edges = c :: rest)
    (hout : c.persistForLoop = true → ∀ u, refsTo u c.tensors = 0) :
    (w.sendOut r c rest).Inv g exact := by
  obtain ⟨hnodup, hcounted, hbacked, hsettled, hreinjected⟩ := h.routing r hr
  have hmem : ∀ e ∈ rest, e ∈ r.edges := fun e he => hedges ▸ List.mem_cons_of_mem _ he
  refine ⟨h.drained, h.overdrawn, fun hn => absurd hn (by simp [WalkWorld.sendOut]), fun r' hr' => ?_,
    h.slots, h.saved, h.handedIn⟩
  obtain rfl := Option.some.inj hr'
  refine ⟨hnodup, fun u => ?_, hbacked, fun e he => hsettled e (hmem e he),
    fun e he => hreinjected e (hmem e he)⟩
  obtain ⟨hle, heq⟩ := hcounted u
  have hdue : r.due u = 0 → refsTo u c.tensors = 0 := by
    intro hzero
    by_contra hne
    by_cases hp : c.persistForLoop = true
    · exact hne (hout hp u)
    · have := hsettled c (hedges ▸ List.mem_cons_self) (by simpa using hp) u (by omega)
      omega
  change Covered exact (holds g w.state u + (w.readers u + r.outside c * refsTo u c.tensors) +
    w.handedIn u + r.freed.count u + r.due u) (w.ledger.count u +
      if r.due u = 0 then 0 else r.contributed u + r.outside c * refsTo u c.tensors)
  by_cases hzero : r.due u = 0
  · rw [hdue hzero]
    rw [if_pos hzero] at hle heq ⊢
    refine ⟨by omega, fun hex => ?_⟩
    have := heq hex
    omega
  · rw [if_neg hzero] at hle heq ⊢
    refine ⟨by omega, fun hex => ?_⟩
    have := heq hex
    omega

/-- What a copy that lands hands in. -/
theorem handedIn_landIn (r : Routing) (c : RoutedEdge) (rest : List RoutedEdge) (node slot : ℕ)
    (s : RequestState) (u : ℕ) : (w.landIn g r c rest node slot s).handedIn u =
      w.handedIn u + if c.persistForLoop then 0 else heldRefs g node slot c.tensors u := by
  unfold WalkWorld.landIn
  dsimp only
  split <;> rfl

/-- A copy that is offered is for the input it names. -/
theorem offered_spec {c : RoutedEdge} {node slot : ℕ} (h : offered g c = some (node, slot)) :
    c.dest = .localNode node ∧ (g.node node).slotOf c.name = some slot := by
  unfold offered at h
  split at h
  · next d hd =>
    split at h
    · exact absurd h (by simp)
    · obtain ⟨i, hi, heq⟩ := Option.map_eq_some_iff.1 h
      obtain ⟨rfl, rfl⟩ := Prod.mk.inj heq
      exact ⟨hd, hi⟩
  · exact absurd h (by simp)

/-- A re-injected copy goes where it was held before. -/
theorem Inv.reinjected_slot (h : w.Inv g exact) {r : Routing} {c : RoutedEdge}
    (hr : w.routing = some r) (hc : c ∈ r.edges) (hp : c.persistForLoop = true) {node slot : ℕ}
    (hoffered : offered g c = some (node, slot)) :
    slot ∈ g.heldMask node ∧ ∀ u, 0 < refsTo u c.tensors → 0 < w.handedIn u := by
  obtain ⟨-, -, -, -, hreinjected⟩ := h.routing r hr
  obtain ⟨x, hx, ⟨i, hfound, hmask⟩, hpos⟩ := hreinjected c hc hp
  obtain ⟨hdest, hslot⟩ := offered_spec hoffered
  subst hx
  have hnode : x.2.1 = node := Dest.localNode.inj hdest
  subst hnode
  have hsame : some i = some slot := hfound.symm.trans hslot
  rw [Option.some.injEq] at hsame
  subst hsame
  exact ⟨hmask, hpos⟩

/-- A copy lands in the walk: what it brings is to be settled, or it is
re-injected and was handed in before. -/
theorem Inv.landIn (h : w.Inv g exact) {r : Routing} {c : RoutedEdge} {rest : List RoutedEdge}
    (hr : w.routing = some r) (hedges : r.edges = c :: rest) {node slot : ℕ}
    (hoffered : offered g c = some (node, slot)) {s : RequestState}
    (hs : w.state.ingest g node slot c.tensors true false = some s)
    (hk : exact → c.persistForLoop = false → slot ∈ g.heldMask node → c.tensors = []) :
    (w.landIn g r c rest node slot s).Inv g exact := by
  obtain ⟨hnodup, hcounted, hbacked, hsettled, hreinjected⟩ := h.routing r hr
  have hmem : ∀ e ∈ rest, e ∈ r.edges := fun e he => hedges ▸ List.mem_cons_of_mem _ he
  have hslotOf := offered_spec hoffered
  have hslot := (slotOf_spec hslotOf.2).1
  have hi (u : ℕ) : Ingests g u w.state node slot c.tensors s := ingests_of_ingest hslot hs
  have hheld (hp : c.persistForLoop = true) :=
    h.reinjected_slot hr (hedges ▸ List.mem_cons_self) hp hoffered
  set handed : ℕ → ℕ := (w.landIn g r c rest node slot s).handedIn
  have hhanded (u : ℕ) : handed u =
      w.handedIn u + if c.persistForLoop then 0 else heldRefs g node slot c.tensors u :=
    handedIn_landIn r c rest node slot s u
  have hmono (u : ℕ) : w.handedIn u ≤ handed u := by
    rw [hhanded]
    exact Nat.le_add_right _ _
  -- whatever lands in a held input is handed in by now
  have hbrought (hmask : slot ∈ g.heldMask node) (u : ℕ) (hu : 0 < refsTo u c.tensors) :
      0 < handed u := by
    by_cases hp : c.persistForLoop = true
    · exact lt_of_lt_of_le ((hheld hp).2 u hu) (hmono u)
    · rw [hhanded, if_neg hp, heldRefs, if_pos hmask]
      omega
  have hgain (u : ℕ) : holds g s u + handed u = holds g w.state u + w.handedIn u +
      if c.persistForLoop then 0 else refsTo u c.tensors := by
    have hholds := (hi u).holds_eq
    have hown := mem_ownMask hslot
    rw [hholds, hhanded]
    unfold heldRefs
    by_cases hp : c.persistForLoop = true
    · rw [if_pos hp, if_pos hp, if_neg fun ho => hown.1 ho (hheld hp).1]
      omega
    · rw [if_neg hp, if_neg hp]
      by_cases hmask : slot ∈ g.heldMask node
      · rw [if_neg fun ho => hown.1 ho hmask, if_pos hmask]
        omega
      · rw [if_pos (hown.2 hmask), if_neg hmask]
        omega
  refine ⟨(hi 0).drained h.drained, h.overdrawn, fun hn => absurd hn (by simp [WalkWorld.landIn]),
    fun r' hr' => ?_, fun n i ts ha hmask u hu => ?_, fun l x hx => ?_, fun hex u => ?_⟩
  · obtain rfl := Option.some.inj hr'
    refine ⟨hnodup, fun u => ?_, hbacked, fun e he => hsettled e (hmem e he), fun e he hp => ?_⟩
    · obtain ⟨hle, heq⟩ := hcounted u
      have hgained := hgain u
      change Covered exact (holds g s u + w.readers u + handed u + r.freed.count u + r.due u)
        (w.ledger.count u + if r.due u = 0 then 0 else r.contributed u + refsTo u c.tensors)
      by_cases hp : c.persistForLoop = true
      · rw [if_pos hp] at hgained
        have hexact : exact → refsTo u c.tensors = 0 := by
          intro hex
          by_contra hne
          have := (hheld hp).2 u (by omega)
          have := h.handedIn hex u
          omega
        by_cases hzero : r.due u = 0
        · rw [if_pos hzero] at hle heq ⊢
          refine ⟨by omega, fun hex => ?_⟩
          have := heq hex
          omega
        · rw [if_neg hzero] at hle heq ⊢
          refine ⟨by omega, fun hex => ?_⟩
          have := heq hex
          have := hexact hex
          omega
      · rw [if_neg hp] at hgained
        have hdue : r.due u = 0 → refsTo u c.tensors = 0 := by
          intro hzero
          by_contra hne
          have := hsettled c (hedges ▸ List.mem_cons_self) (by simpa using hp) u (by omega)
          omega
        by_cases hzero : r.due u = 0
        · have := hdue hzero
          rw [if_pos hzero] at hle heq ⊢
          refine ⟨by omega, fun hex => ?_⟩
          have := heq hex
          omega
        · rw [if_neg hzero] at hle heq ⊢
          refine ⟨by omega, fun hex => ?_⟩
          have := heq hex
          omega
    · obtain ⟨x, hx, hsaved, hpos⟩ := hreinjected e (hmem e he) hp
      exact ⟨x, hx, hsaved, fun u hu => lt_of_lt_of_le (hpos u hu) (hmono u)⟩
  · rcases (hi 0).arrived ha with hold | ⟨rfl, rfl, rfl⟩
    · exact lt_of_lt_of_le (h.slots n i ts hold hmask u hu) (hmono u)
    · exact hbrought hmask u hu
  · rcases (hi 0).saved l x hx with hold | ⟨hmask, rfl⟩
    · obtain ⟨hsaved, hpos⟩ := h.saved l x hold
      exact ⟨hsaved, fun u hu => lt_of_lt_of_le (hpos u hu) (hmono u)⟩
    · exact ⟨⟨slot, slotOf_inputs hslot, hmask⟩, fun u hu => hbrought hmask u hu⟩
  · change handed u = 0
    rw [hhanded, h.handedIn hex u]
    unfold heldRefs
    split
    · rfl
    · next hp =>
      split
      · next hmask =>
        rw [hk hex (by simpa using hp) hmask]
        rfl
      · rfl

/-- The next copy is routed. -/
theorem Inv.route (h : w.Inv g exact) (he : w.Enabled g .route)
    (hre : exact ∨ w.Reinjects g .route) (hk : exact → w.Keeps g .route) :
    (w.step g .route).Inv g exact := by
  obtain ⟨r, hr, hne⟩ := he
  obtain ⟨c, rest, hedges⟩ := List.exists_cons_of_ne_nil hne
  have hhead : c ∈ r.edges.head? := by rw [hedges]; rfl
  have hstep : w.step g .route = w.routeCopy g r c rest := by
    unfold step
    dsimp only
    rw [hr]
    dsimp only
    rw [hedges]
  -- a re-injected input is taken, or carries nothing
  have hout (hnot : ¬ w.Accepts g c) (hp : c.persistForLoop = true) (u : ℕ) :
      refsTo u c.tensors = 0 := by
    rcases hre with hex | hre
    · obtain ⟨x, rfl, _, hpos⟩ := (h.routing r hr).reinjected c (hedges ▸ List.mem_cons_self) hp
      by_contra hu
      have := hpos u (Nat.pos_of_ne_zero hu)
      have := h.handedIn hex u
      omega
    · exact absurd (hre r hr c hhead hp) hnot
  rw [hstep]
  unfold routeCopy
  cases hoffered : offered g c with
  | none =>
    refine h.sendOut hr hedges (hout fun hacc => ?_)
    obtain ⟨x, hsome, _⟩ := hacc
    rw [hoffered] at hsome
    exact absurd hsome (by simp)
  | some target =>
    obtain ⟨node, slot⟩ := target
    dsimp only
    cases hs : w.state.ingest g node slot c.tensors true false with
    | none =>
      refine h.sendOut hr hedges (hout fun hacc => ?_)
      obtain ⟨x, hsome, htook⟩ := hacc
      rw [hoffered] at hsome
      obtain rfl := Option.some.inj hsome
      rw [hs] at htook
      exact absurd htook (by simp)
    | some s =>
      exact h.landIn hr hedges hoffered hs fun hex hp =>
        hk hex r hr c hhead (node, slot) hoffered (by rw [hs]; rfl) hp

/-- Everything is routed: the freed references are dropped and the due ones
settled. -/
theorem Inv.settle (h : w.Inv g exact) (he : w.Enabled g .settle) :
    (w.step g .settle).Inv g exact := by
  obtain ⟨r, hr, _⟩ := he
  obtain ⟨hnodup, hcounted, hbacked, _, _⟩ := h.routing r hr
  have hstep : w.step g .settle =
      { w with ledger := settleAll r (w.ledger.dropAll r.freed), routing := none } := by
    unfold step
    dsimp only
    rw [hr]
  have hdrop (u : ℕ) : (w.ledger.dropAll r.freed).count u = w.ledger.count u - r.freed.count u :=
    w.ledger.dropAll_count _ u
  have hspec (u : ℕ) := settleAll_spec (u := u) (l := w.ledger.dropAll r.freed) hnodup (by
    have := hbacked u
    rw [hdrop]
    omega)
  rw [hstep]
  refine ⟨h.drained, fun u => ?_, fun _ u => ?_, fun r' hr' => absurd hr' (by simp), h.slots,
    h.saved, h.handedIn⟩
  · have hback := hbacked u
    change (settleAll r (w.ledger.dropAll r.freed)).overdrawn u = 0
    rw [(hspec u).1, RefLedger.dropAll_overdrawn _ _ _ (by omega)]
    exact h.overdrawn u
  · obtain ⟨hle, heq⟩ := hcounted u
    have hback := hbacked u
    have hcount := (hspec u).2
    rw [hdrop] at hcount
    change Covered exact _ ((settleAll r (w.ledger.dropAll r.freed)).count u)
    dsimp only
    refine ⟨by omega, fun hex => ?_⟩
    have := heq hex
    omega

/-- Whatever happens keeps the count. -/
theorem Inv.step (h : w.Inv g exact) {op : WalkOp} (he : w.Enabled g op)
    (hre : exact ∨ w.Reinjects g op) (hk : exact → w.Keeps g op) : (w.step g op).Inv g exact := by
  cases op with
  | ingest node slot t canBuffer fin => exact h.ingest he hk
  | clearConsumed node => exact h.clearConsumed he
  | complete node owned outTensors stride fanout => exact h.complete he hk
  | route => exact h.route he hre hk
  | settle => exact h.settle he
  | reset => exact h.reset hk
  | consume v => exact h.consume he
  | registerLoopFinish l => exact h.of_same (.setLoop _ rfl rfl rfl)
  | capLoop l cap => exact h.of_same (.setLoop _ rfl rfl rfl)
  | setLoopCap l cap => exact h.of_same (.setLoop _ rfl rfl rfl)
  | takeForSchedule node => exact h.of_same (.marks _ _ _ _)
  | pushBack node => exact h.of_same (.marks _ _ _ _)
  | setInFlight node on => exact h.of_same (.setNode _ _ rfl rfl)
  | speculate source edges => exact h.of_same (.ingestForSpeculation _ source edges)
  | clearSpeculative => exact h.of_same (.clearSpeculativeInputs _)

end WalkWorld

end Mstar.Walk
