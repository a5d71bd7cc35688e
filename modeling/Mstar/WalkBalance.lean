import Mstar.WalkRests

/-!
# What a walk leaves counted

A run that puts nothing in an input a loop holds, in what is over or, outside
all loops, behind another input, and finishes no loop around a filled cache
keeps every count exact: a walk that is done holds nothing, and when it is
reset only the readers of what it handed on are still counted. A loop's held
input is skipped by every release, also when the loop finishes.
-/

namespace Mstar.Walk

open Shard (Sym TensorRef)
open RequestState
open CompiledGraph (not_below_of_root)

variable {g : CompiledGraph} {w : WalkWorld}

namespace WalkWorld

/-- A weaker condition allows more runs. -/
theorem Reachable.mono {cond cond' : WalkWorld → WalkOp → Prop} (h : Reachable g cond w)
    (hcond : ∀ w op, cond w op → cond' w op) : Reachable g cond' w := by
  induction h with
  | fresh => exact .fresh
  | step _ he hc ih => exact ih.step he (hcond _ _ hc)

end WalkWorld

/-- Nothing in a slot that owns its input or in a cache. -/
def Vacant (g : CompiledGraph) (s : RequestState) : Prop :=
  (∀ n < g.nodes.length, ∀ i ∈ g.ownMask n,
      (s.nodes n).cur.tensors i = none ∧ (s.nodes n).next.tensors i = none) ∧
    ∀ l < g.loops.length, (s.loops l).cached = [] ∧ (s.loops l).accum = []

instance (g : CompiledGraph) (s : RequestState) : Decidable (Vacant g s) :=
  inferInstanceAs (Decidable ((∀ n < g.nodes.length, ∀ i ∈ g.ownMask n,
      (s.nodes n).cur.tensors i = none ∧ (s.nodes n).next.tensors i = none) ∧
    ∀ l < g.loops.length, (s.loops l).cached = [] ∧ (s.loops l).accum = []))

/-- A walk that was reset holds nothing. -/
theorem holds_reset (g : CompiledGraph) (s : RequestState) (u : ℕ) : holds g (s.reset g) u = 0 := by
  simp [holds, slotRefs, accumRefs, cachedRefs, nodeRefs, RequestState.reset, NodeState.new,
    LoopState.new, cacheRefs, cacheUuids]

/-- `enc` feeds a loop of two iterations around `dec`, which takes nothing else
but what it loops back. -/
def feedback : CompiledGraph where
  nodes := [⟨0, [5], ∅, [plainEdge 3 (.localNode 1) 1]⟩,
    ⟨1, [3], ∅, [plainEdge 3 (.localNode 1) 1]⟩]
  loops := [⟨6, 2, none, [1], [plainEdge 3 .emitToClient 7], [], [(3, 1)], []⟩]
  inputs_nodup := by decide
  parent_lt := by decide
  nested := by
    refine ⟨fun _ => 0, fun l => by simp, fun l p => ?_⟩
    rcases l with _ | l <;> simp [default]
  claimed_once := by
    intro l m n hl hm
    rcases l with _ | l <;> rcases m with _ | m <;> simp [default] at hl hm
    rfl

/-- `enc` and two iterations of `dec`; the walk is reset as the loop finishes. -/
def feedbackPass : List WalkOp :=
  [.ingest 0 0 [oneRow 1] true false, .clearConsumed 0,
    .complete 0 [2] [[oneRow 2]] 1 .whole, .route, .settle, .clearConsumed 1,
    .complete 1 [3] [[oneRow 3]] 1 .whole, .route, .settle, .clearConsumed 1,
    .complete 1 [4] [[oneRow 4]] 1 .whole, .reset, .route, .settle]

/-- `enc` and three iterations of `dec`; the walk is reset as the loop finishes,
and its readers are done. -/
def decodePass : List WalkOp :=
  [.ingest 0 0 [oneRow 1] true false, .clearConsumed 0,
    .complete 0 [2, 3] [[oneRow 2], [oneRow 3]] 1 .whole, .route, .route, .settle,
    .clearConsumed 1, .complete 1 [10, 11] [[oneRow 10], [oneRow 11]] 1 .whole,
    .route, .route, .route, .settle,
    .clearConsumed 1, .complete 1 [12, 13] [[oneRow 12], [oneRow 13]] 1 .whole,
    .route, .route, .route, .settle,
    .clearConsumed 1, .complete 1 [14, 15] [[oneRow 14], [oneRow 15]] 1 .whole, .reset,
    .route, .route, .route, .settle, .consume 11, .consume 13, .consume 14, .consume 15]

namespace WalkWorld

/-- What arrives may arrive where it does, and a node completes whose part is
not over. -/
def Fed (g : CompiledGraph) (w : WalkWorld) : WalkOp → Prop
  | .ingest node slot t canBuffer fin =>
    (w.state.ingest g node slot t canBuffer fin).isSome → w.state.TakesIn g node slot t
  | .complete node _ _ _ _ => node < g.nodes.length ∧ ¬ w.state.Over g node
  | .route => ∀ r ∈ w.routing, ∀ c ∈ r.edges.head?, ∀ x ∈ offered g c,
      (w.state.ingest g x.1 x.2 c.tensors true false).isSome → c.persistForLoop = false →
      w.state.TakesIn g x.1 x.2 c.tensors
  | _ => True

instance (g : CompiledGraph) (w : WalkWorld) : DecidablePred (w.Fed g)
  | .ingest node slot t canBuffer fin =>
    inferInstanceAs (Decidable ((w.state.ingest g node slot t canBuffer fin).isSome →
      w.state.TakesIn g node slot t))
  | .complete node _ _ _ _ =>
    inferInstanceAs (Decidable (node < g.nodes.length ∧ ¬ w.state.Over g node))
  | .route => inferInstanceAs (Decidable (∀ r ∈ w.routing, ∀ c ∈ r.edges.head?,
      ∀ x ∈ offered g c, (w.state.ingest g x.1 x.2 c.tensors true false).isSome →
        c.persistForLoop = false → w.state.TakesIn g x.1 x.2 c.tensors))
  | .clearConsumed .. | .settle | .reset | .consume .. | .registerLoopFinish .. | .capLoop ..
  | .setLoopCap .. | .takeForSchedule .. | .pushBack .. | .setInFlight .. | .speculate ..
  | .clearSpeculative => inferInstanceAs (Decidable True)

/-- No completion drops a filled cache. -/
def DropsNone (g : CompiledGraph) (w : WalkWorld) : WalkOp → Prop
  | .complete node _ _ stride _ => ∀ u, DropsNoCache g u w.state node stride
  | _ => True

/-- A step after which everything that is held will be released. -/
def Clean (g : CompiledGraph) (w : WalkWorld) (op : WalkOp) : Prop := w.Fed g op ∧ w.DropsNone g op

/-- A clean step keeps the count exact. -/
theorem Clean.keeps {op : WalkOp} (h : w.Clean g op) (hr : Rests g w.state) (he : w.Enabled g op) :
    w.Keeps g op := by
  obtain ⟨hfed, hdrops⟩ := h
  cases op with
  | ingest node slot t canBuffer fin =>
    intro hsome hheld
    by_contra hne
    exact (hfed hsome hne).1 hheld
  | complete node owned outTensors stride fanout => exact hdrops
  | route =>
    intro r hr c hc x hx hsome hpersist hheld
    by_contra hne
    exact (hfed r hr c hc x hx hsome hpersist hne).1 hheld
  | reset => exact hr.holds_eq_zero he
  | _ => trivial

/-- A copy is routed. -/
theorem rests_route (hr : Rests g w.state) (hinv : w.Inv g True)
    (hfed : w.Fed g .route) : Rests g (w.step g .route).state := by
  unfold step
  dsimp only
  cases hrouting : w.routing with
  | none => exact hr
  | some r =>
    dsimp only
    cases hedges : r.edges with
    | nil => exact hr
    | cons c rest =>
      dsimp only
      unfold routeCopy
      cases hoff : offered g c with
      | none => exact hr
      | some x =>
        dsimp only
        cases hs : w.state.ingest g x.1 x.2 c.tensors true false with
        | none => exact hr
        | some s =>
          refine hr.ingest hs ?_
          cases hp : c.persistForLoop with
          | false => exact hfed r hrouting c (by rw [hedges]; rfl) x hoff (by rw [hs]; rfl) hp
          | true =>
            -- what is re-injected was handed in, and nothing was
            intro hne
            obtain ⟨t, ht⟩ := List.exists_mem_of_ne_nil _ hne
            obtain ⟨y, rfl, _, hpos⟩ := (hinv.routing r hrouting).reinjected c
              (hedges ▸ List.mem_cons_self) hp
            have := hpos t.uuid ((refsTo_pos _).2 ⟨t, ht, rfl⟩)
            have := hinv.handedIn trivial t.uuid
            omega

/-- An anticipated edge changes no slot that holds anything. -/
theorem rests_speculate {s : RequestState} (e : RoutedEdge) (h : Rests g s) :
    Rests g (s.speculate g e) := by
  unfold RequestState.speculate
  split
  · split
    · exact h.setNode rfl rfl rfl rfl rfl fun _ => le_rfl
    · exact h
  · exact h

/-- A clean step leaves nothing in what is over. -/
theorem Clean.rests {op : WalkOp} (h : w.Clean g op) (hr : Rests g w.state)
    (hinv : w.Inv g True) : Rests g (w.step g op).state := by
  obtain ⟨hfed, _⟩ := h
  cases op with
  | ingest node slot t canBuffer fin =>
    unfold step
    dsimp only
    cases hs : w.state.ingest g node slot t canBuffer fin with
    | none => exact hr
    | some s => exact hr.ingest hs (hfed (by rw [hs]; rfl))
  | clearConsumed node =>
    refine hr.setNode rfl rfl rfl rfl rfl fun u => ?_
    rw [Slot.takeAll_refs]
    exact Nat.zero_le _
  | complete node owned outTensors stride fanout => exact hr.complete hfed.1 hfed.2 outTensors stride
  | route => exact rests_route hr hinv hfed
  | settle =>
    unfold step
    dsimp only
    cases w.routing <;> exact hr
  | reset => exact .blank rfl rfl (fun _ => rfl) fun _ => rfl
  | consume v => exact hr
  | registerLoopFinish l => exact hr.setLoop rfl rfl rfl rfl
  | capLoop l cap => exact hr.setLoop rfl rfl rfl rfl
  | setLoopCap l cap => exact hr.setLoop rfl rfl rfl rfl
  | takeForSchedule node => exact hr.of_sameHolds (.marks _ _ _ _) rfl (fun _ => rfl) fun _ => rfl
  | pushBack node => exact hr.of_sameHolds (.marks _ _ _ _) rfl (fun _ => rfl) fun _ => rfl
  | setInFlight node on => exact hr.setNode rfl rfl rfl rfl rfl fun _ => le_rfl
  | speculate source edges =>
    exact foldl_related (R := fun s s' => Rests g s → Rests g s') (fun _ => id)
      (fun h h' => h' ∘ h) (fun s e _ => rests_speculate e) w.state hr
  | clearSpeculative =>
    have hrest := foldl_related (R := fun s s' => Rests g s → Rests g s')
      (f := fun s n => s.setNode n { s.nodes n with spec := .new }) (fun _ => id)
      (fun h h' => h' ∘ h) (fun s n _ h => h.setNode rfl rfl rfl rfl rfl fun _ => le_rfl)
      (l := w.state.specDirty) w.state hr
    exact ⟨hrest.counted, hrest.ended, hrest.next, hrest.nodes, hrest.caches⟩

/-- In every clean run the count is exact, and nothing is left in what is over. -/
theorem Reachable.rests (h : Reachable g (fun w op => w.Clean g op) w) :
    w.Inv g True ∧ Rests g w.state := by
  induction h with
  | fresh => exact ⟨inv_fresh g True, .blank rfl rfl (fun _ => rfl) fun _ => rfl⟩
  | step _ he hc ih =>
    obtain ⟨hinv, hrests⟩ := ih
    exact ⟨hinv.step he (.inl trivial) fun _ => hc.keeps hrests he, hc.rests hrests hinv⟩

/-- In every run that puts nothing in a held input, in what is over or behind
another input outside all loops, and drops no filled cache, no reference is
released twice, every count is the holds of the walk and the readers of what it
handed on, a walk that is done holds nothing, and once it is reset the readers
are all that is left. -/
theorem released_or_handed_on (g : CompiledGraph) (w : WalkWorld)
    (h : Reachable g (fun w op => w.Clean g op) w) :
    (∀ u, w.ledger.overdrawn u = 0) ∧
      (w.routing = none → ∀ u, w.ledger.count u = holds g w.state u + w.readers u) ∧
      (w.state.isDone = true → ∀ u, holds g w.state u = 0) ∧
      (w.routing = none → ∀ s : RequestState, w.state = s.reset g →
        ∀ u, w.ledger.count u = w.readers u) := by
  obtain ⟨hinv, hrests⟩ := h.rests
  have hcount (hr : w.routing = none) (u : ℕ) :
      w.ledger.count u = holds g w.state u + w.readers u := by
    have hexact := (hinv.idle hr u).2 trivial
    rw [hinv.handedIn trivial u] at hexact
    exact hexact.symm
  refine ⟨hinv.overdrawn, hcount, hrests.holds_eq_zero, fun hr s hs u => ?_⟩
  rw [hcount hr u, hs, holds_reset, Nat.zero_add]

/-- A flat graph has no cache that a completion drops. -/
theorem Fed.clean {op : WalkOp} (h : w.Fed g op) (hflat : ∀ l, (g.lp l).parent = none) :
    w.Clean g op := by
  refine ⟨h, ?_⟩
  cases op with
  | complete node owned outTensors stride fanout =>
    exact fun _ _ _ _ _ _ hd => absurd hd (not_below_of_root (hflat _))
  | _ => trivial

/-- The loop of two iterations holds nothing when it is done, and leaves one
reference, for the reader of its output. -/
theorem released_or_handed_on_feedback : ∃ w₁ w,
    Reachable feedback (fun w op => w.Clean feedback op) w₁ ∧ w₁.state.isDone = true ∧
      (∀ u, holds feedback w₁.state u = 0) ∧
    Reachable feedback (fun w op => w.Clean feedback op) w ∧ (∀ u, w.ledger.overdrawn u = 0) ∧
      w.readers 4 = 1 ∧ w.ledger.count 4 = holds feedback w.state 4 + w.readers 4 := by
  have hflat (l : LoopId) : (feedback.lp l).parent = none := by
    rcases l with _ | l <;> rfl
  have hreach {ops : List WalkOp} {w : WalkWorld}
      (hw : (fresh feedback).run feedback (fun w op => w.Fed feedback op) ops = some w) :
      Reachable feedback (fun w op => w.Clean feedback op) w :=
    (Reachable.fresh.run hw).mono fun w op hop => hop.clean hflat
  have hrun₁ : ((fresh feedback).run feedback (fun w op => w.Fed feedback op)
      (feedbackPass.take 11)).map (fun w => w.state.isDone) = some true := by decide
  have hrun : ((fresh feedback).run feedback (fun w op => w.Fed feedback op)
      feedbackPass).map (fun w => (w.readers 4, w.routing.isNone)) = some (1, true) := by decide
  obtain ⟨w₁, hw₁, hdone⟩ := Option.map_eq_some_iff.1 hrun₁
  obtain ⟨w, hw, hvalues⟩ := Option.map_eq_some_iff.1 hrun
  obtain ⟨hreaders, hnone⟩ := Prod.mk.inj hvalues
  obtain ⟨_, _, hempty, _⟩ := released_or_handed_on feedback w₁ (hreach hw₁)
  obtain ⟨hover, hcount, _⟩ := released_or_handed_on feedback w (hreach hw)
  exact ⟨w₁, w, hreach hw₁, hdone, hempty hdone, hreach hw, hover, hreaders,
    hcount (Option.isNone_iff_eq_none.1 hnone) 4⟩

/-- The decode loop's pass is over, the walk was reset and every reader is
done. Only the input the loop held is still counted. -/
theorem held_input_outlives_walk : ∃ w, Reachable decodeLoop (fun _ _ => True) w ∧
    w.routing = none ∧ Vacant decodeLoop w.state ∧
      (List.range 16).map w.readers = List.replicate 16 0 ∧
      (List.range 16).map w.ledger.count = [0, 0, 1, 0, 0, 0, 0, 0, 0, 0, 0, 0, 0, 0, 0, 0] := by
  have hrun : ((fresh decodeLoop).run decodeLoop (fun _ _ => True) decodePass).map
      (fun w => (w.routing.isNone, decide (Vacant decodeLoop w.state), (List.range 16).map w.readers,
        (List.range 16).map w.ledger.count)) = some (true, true, List.replicate 16 0,
          [0, 0, 1, 0, 0, 0, 0, 0, 0, 0, 0, 0, 0, 0, 0, 0]) := by decide
  obtain ⟨w, hw, hvalues⟩ := Option.map_eq_some_iff.1 hrun
  obtain ⟨hnone, hvacant, hleft⟩ : _ ∧ _ ∧ _ := by simpa only [Prod.mk.injEq] using hvalues
  exact ⟨w, Reachable.fresh.run hw, Option.isNone_iff_eq_none.1 hnone, of_decide_eq_true hvacant,
    hleft⟩

end WalkWorld

end Mstar.Walk
