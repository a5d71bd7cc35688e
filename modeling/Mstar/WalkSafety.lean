import Mathlib.Algebra.Order.Ring.Int
import Mstar.WalkLedger

/-!
# A tensor the walk holds is never freed

The count of a tensor's references is at least the number of slots that own
it, of caches and of readers, and of references handed in with inputs a loop
holds; and it is never zero while anything holds the tensor. A held input's
slot and its saved copy share the reference the input was handed in with.
-/

namespace Mstar.Walk

open Shard (Sym TensorRef)
open CompiledGraph (mem_ownMask)
open RequestState

namespace WalkWorld

variable {g : CompiledGraph} {exact : Prop} {w : WalkWorld}

/-- Every reachable walk is counted. -/
theorem Reachable.inv {cond : WalkWorld → WalkOp → Prop} (h : Reachable g cond w)
    (hre : ∀ w op, cond w op → exact ∨ w.Reinjects g op)
    (hk : ∀ w op, cond w op → exact → w.Keeps g op) : w.Inv g exact := by
  induction h with
  | fresh => exact inv_fresh g exact
  | step _ he hc ih => exact ih.step he (hre _ _ hc) (hk _ _ hc)

/-- A hold, a reader or a reference handed in keeps its tensor counted, also
while a completion is routed. -/
theorem Inv.count_pos (h : w.Inv g exact) {u : ℕ}
    (hu : 0 < holds g w.state u + w.readers u + w.handedIn u) : 0 < w.ledger.count u := by
  cases hr : w.routing with
  | none =>
    have := (h.idle hr u).1
    omega
  | some r =>
    have hcounted := ((h.routing r hr).counted u).1
    have hbacked := (h.routing r hr).backed u
    by_cases hdue : r.due u = 0
    · rw [if_pos hdue] at hcounted
      omega
    · omega

/-- A filled slot that owns its input is a hold. -/
theorem holds_of_arrived {s : RequestState} {n : NodeId} {i : ℕ} {ts : List TensorRef} {u : ℕ}
    (hn : n < g.nodes.length) (hi : i ∈ g.ownMask n) (ha : s.Arrived n i ts)
    (hu : 0 < refsTo u ts) : 0 < holds g s u := by
  have hslot {sl : Slot} (h : sl.tensors i = some ts) : refsTo u ts ≤ sl.refs (g.ownMask n) u := by
    have hle := Finset.single_le_sum (f := fun i => refsTo u ((sl.tensors i).getD []))
      (fun _ _ => Nat.zero_le _) hi
    rwa [h] at hle
  have hnode : refsTo u ts ≤ nodeRefs g n (s.nodes n) u := by
    unfold nodeRefs
    rcases ha with ha | ha
    · have := hslot ha
      omega
    · have := hslot ha
      omega
  have hsum : nodeRefs g n (s.nodes n) u ≤ slotRefs g s u :=
    Finset.single_le_sum (f := fun n => nodeRefs g n (s.nodes n) u) (fun _ _ => Nat.zero_le _)
      (Finset.mem_range.2 hn)
  unfold holds
  omega

/-- A tensor that anything holds is counted. -/
theorem Inv.count_pos_of_held (h : w.Inv g exact) {u : ℕ} (hu : w.Held g u) :
    0 < w.ledger.count u := by
  cases hu with
  | @slot n i ts hn hi ha hu =>
    refine h.count_pos ?_
    by_cases hheld : i ∈ g.heldMask n
    · have := h.slots n i ts ha hheld u hu
      omega
    · have := holds_of_arrived hn ((mem_ownMask hi).2 hheld) ha hu
      omega
  | @cached l hl hu =>
    refine h.count_pos ?_
    have hsum : cacheRefs (w.state.loops l).cached u ≤ cachedRefs g w.state u :=
      Finset.single_le_sum (f := fun l => cacheRefs (w.state.loops l).cached u)
        (fun _ _ => Nat.zero_le _) (Finset.mem_range.2 hl)
    unfold holds
    omega
  | @accumulated l hl hu =>
    refine h.count_pos ?_
    have hsum : cacheRefs (w.state.loops l).accum u ≤ accumRefs g w.state u :=
      Finset.single_le_sum (f := fun l => cacheRefs (w.state.loops l).accum u)
        (fun _ _ => Nat.zero_le _) (Finset.mem_range.2 hl)
    unfold holds
    omega
  | @saved l x hx hu =>
    refine h.count_pos ?_
    have := (h.saved l x hx).2 u hu
    omega
  | reader hu => exact h.count_pos (by omega)
  | @edge r e hr he hu =>
    by_cases hp : e.persistForLoop = true
    · refine h.count_pos ?_
      obtain ⟨x, rfl, _, hpos⟩ := (h.routing r hr).reinjected e he hp
      have := hpos u hu
      omega
    · have hdue := (h.routing r hr).settled e he (by simpa using hp) u hu
      have hbacked := (h.routing r hr).backed u
      omega

/-- Every live hold on a tensor, counted one by one: filled slots, caches,
saved external inputs and readers. -/
def liveHolds (g : CompiledGraph) (w : WalkWorld) (u : ℕ) : ℕ :=
  ∑ n ∈ Finset.range g.nodes.length, ((w.state.nodes n).cur.refs (g.node n).fullMask u +
      (w.state.nodes n).next.refs (g.node n).fullMask u) +
    ∑ l ∈ Finset.range g.loops.length, (cacheRefs (w.state.loops l).cached u +
      cacheRefs (w.state.loops l).accum u +
      ((w.state.loops l).extInputs.map fun x => refsTo u x.2.2).sum) +
    w.readers u

end WalkWorld

/-- An edge that is only routed. -/
def plainEdge (name : Sym) (dest : Dest) (destSym : Sym) : EdgeSpec :=
  ⟨name, dest, destSym, false, false, false, 0⟩

/-- `enc` feeds a loop of three iterations around `dec`: `h` from outside, held
and re-injected, and the first `tok`, which loops back. -/
def decodeLoop : CompiledGraph where
  nodes := [⟨0, [5], ∅, [plainEdge 2 (.localNode 1) 1, plainEdge 3 (.localNode 1) 1]⟩,
    ⟨1, [2, 3], ∅, [plainEdge 3 (.localNode 1) 1, plainEdge 4 .empty 8]⟩]
  loops := [⟨6, 3, none, [1], [plainEdge 3 .emitToClient 7], [plainEdge 4 .emitToClient 7],
    [(3, 1)], [(2, 1)]⟩]
  inputs_nodup := by decide
  parent_lt := by decide
  nested := by
    refine ⟨fun _ => 0, fun l => by simp, fun l p => ?_⟩
    rcases l with _ | l <;> simp [default]
  claimed_once := by
    intro l m n hl hm
    rcases l with _ | l <;> rcases m with _ | m <;> simp [default] at hl hm
    rfl

/-- A loop of three iterations around `A` and an inner loop of two around `B`,
which feeds `A` each time it runs. -/
def directExit : CompiledGraph where
  nodes := [⟨0, [2], ∅, []⟩, ⟨1, [3], ∅, [plainEdge 2 (.localNode 0) 0, plainEdge 3 (.localNode 1) 1]⟩]
  loops := [⟨4, 3, none, [0], [], [], [], [(2, 0)]⟩, ⟨5, 2, some 0, [1], [], [], [(3, 1)], []⟩]
  inputs_nodup := by decide
  parent_lt := by decide
  nested := by
    refine ⟨fun l => if l = 1 then 0 else 1, fun l => .inl ?_, fun l p => ?_⟩
    · dsimp only
      split <;> decide
    · rcases l with _ | _ | l <;> simp [default]
      rintro rfl
      decide
  claimed_once := by
    intro l m n hl hm
    rcases l with _ | _ | l <;> rcases m with _ | _ | m <;> simp [default] at hl hm <;>
      first | rfl | exact absurd (hl.symm.trans hm) (by decide)

/-- One row of four bytes. -/
def oneRow (uuid : ℕ) : TensorRef := ⟨uuid, 1, 4, 0⟩

/-- `h` arrives at `dec`. -/
def heldInput : List WalkOp := [.ingest 1 0 [oneRow 2] true false]

/-- `B` runs twice, the first time after `A`. The second time the outer loop
advances, and `A` has no slot left for the input it was first fed. -/
def refusedInput : List WalkOp :=
  [.ingest 0 0 [oneRow 1] true false, .ingest 1 0 [oneRow 2] true false,
    .complete 0 [] [] 1 .whole, .settle,
    .complete 1 [3, 4] [[oneRow 3], [oneRow 4]] 1 .whole, .route, .route, .settle,
    .complete 1 [5, 6] [[oneRow 5], [oneRow 6]] 1 .whole, .route, .route, .settle, .consume 1]

/-- `dec` runs once, and what it loops back and `h` are ingested again. -/
def decodedOnce : List WalkOp :=
  [.ingest 1 0 [oneRow 2] true false, .ingest 1 1 [oneRow 3] true false, .clearConsumed 1,
    .complete 1 [10, 11] [[oneRow 10], [oneRow 11]] 1 .whole, .route, .route, .route, .settle]

namespace WalkWorld

/-- In every run in which each re-injected input finds a slot, no reference is
released twice, the count of a tensor covers its holds in slots and caches,
its readers and the references it was handed in with for a loop to hold, and
a tensor that anything holds is counted at every step. -/
theorem never_freed_while_held (g : CompiledGraph) (w : WalkWorld)
    (h : Reachable g (fun w op => w.Reinjects g op) w) :
    (∀ u, w.ledger.overdrawn u = 0) ∧
      (w.routing = none →
        ∀ u, holds g w.state u + w.readers u + w.handedIn u ≤ w.ledger.count u) ∧
      ∀ u, w.Held g u → 0 < w.ledger.count u := by
  have hinv : w.Inv g False := h.inv (fun _ _ hre => .inr hre) fun _ _ _ hf => hf.elim
  exact ⟨hinv.overdrawn, fun hr u => (hinv.idle hr u).1, fun u hu => hinv.count_pos_of_held hu⟩

/-- After one iteration of the decode loop `h` is in its slot and saved. -/
theorem never_freed_while_held_decoded : ∃ w,
    (fresh decodeLoop).run decodeLoop (fun w op => w.Reinjects decodeLoop op) decodedOnce = some w ∧
      w.liveHolds decodeLoop 2 = 2 ∧ (∀ u, w.ledger.overdrawn u = 0) ∧
      holds decodeLoop w.state 10 + w.readers 10 + w.handedIn 10 ≤ w.ledger.count 10 := by
  have hrun : ((fresh decodeLoop).run decodeLoop (fun w op => w.Reinjects decodeLoop op)
      decodedOnce).map (fun w => (w.liveHolds decodeLoop 2, w.routing.isNone)) = some (2, true) := by
    decide
  obtain ⟨w, hw, hvalues⟩ := Option.map_eq_some_iff.1 hrun
  obtain ⟨hlive, hnone⟩ := Prod.mk.inj hvalues
  obtain ⟨hover, hcovered, _⟩ := never_freed_while_held decodeLoop w (Reachable.fresh.run hw)
  exact ⟨w, hw, hlive, hover, hcovered (Option.isNone_iff_eq_none.1 hnone) 10⟩

/-- The one reference `h` was handed in with has two holds on it, its slot and
its saved copy; and where a re-injected input is refused, its reader takes the
reference of the copy that stays saved. -/
theorem held_input_counted_once :
    (∃ w, Reachable decodeLoop (fun _ _ => True) w ∧ w.routing = none ∧
      w.ledger.count 2 = 1 ∧ w.liveHolds decodeLoop 2 = 2) ∧
    ∃ w, Reachable directExit (fun _ _ => True) w ∧ w.routing = none ∧
      w.ledger.count 1 = 0 ∧ w.liveHolds directExit 1 = 1 := by
  constructor
  · have hrun : ((fresh decodeLoop).run decodeLoop (fun _ _ => True) heldInput).map
        (fun w => (w.routing.isNone, w.ledger.count 2, w.liveHolds decodeLoop 2)) =
          some (true, 1, 2) := by decide
    obtain ⟨w, hw, hvalues⟩ := Option.map_eq_some_iff.1 hrun
    obtain ⟨hnone, hcount, hlive⟩ : _ ∧ _ ∧ _ := by simpa only [Prod.mk.injEq] using hvalues
    exact ⟨w, Reachable.fresh.run hw, Option.isNone_iff_eq_none.1 hnone, hcount, hlive⟩
  · have hrun : ((fresh directExit).run directExit (fun _ _ => True) refusedInput).map
        (fun w => (w.routing.isNone, w.ledger.count 1, w.liveHolds directExit 1)) =
          some (true, 0, 1) := by decide
    obtain ⟨w, hw, hvalues⟩ := Option.map_eq_some_iff.1 hrun
    obtain ⟨hnone, hcount, hlive⟩ : _ ∧ _ ∧ _ := by simpa only [Prod.mk.injEq] using hvalues
    exact ⟨w, Reachable.fresh.run hw, Option.isNone_iff_eq_none.1 hnone, hcount, hlive⟩

end WalkWorld

end Mstar.Walk
