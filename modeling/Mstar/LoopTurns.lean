import Mstar.LoopRuns
import Mstar.WalkCascade

/-!
# A completion turns the loops around its node

A completed node's cascade leaves every loop in its iteration, or ends loops
up to one, or advances one: that loop's body starts over without a finish
signal and every other loop stays as it is. The last root entity ends the
pass, and the reset that follows starts every loop over.
-/

namespace Mstar.Walk

open Shard (Sym TensorRef)
open CompiledGraph (parent_lt_length loopId_lt_length mem_childLoops not_below_self)

namespace RequestState

variable {g : CompiledGraph} {s s' s₀ : RequestState} {l d : LoopId}

/-- The pass, and every loop's cap. -/
def passAndCaps (s : RequestState) : ℕ × (LoopId → ℕ) :=
  (s.numTimesRun, fun d => (s.loops d).maxIters)

/-- A loop's new state with the old cap. -/
theorem passAndCaps_setLoop (s : RequestState) (l : LoopId) {st : LoopState}
    (h : st.maxIters = (s.loops l).maxIters) : (s.setLoop l st).passAndCaps = s.passAndCaps := by
  refine Prod.ext rfl (funext fun d => ?_)
  by_cases hd : d = l
  · subst hd
    change ((s.setLoop d st).loops d).maxIters = _
    rw [setLoop_loops_self, h]
    rfl
  · change ((s.setLoop l st).loops d).maxIters = _
    rw [setLoop_loops_of_ne _ hd]
    rfl

/-- Another iteration changes no pass and no cap. -/
theorem passAndCaps_resetSubtreeForIter (k : ℕ) (l : LoopId) (s : RequestState) :
    (resetSubtreeForIter g k l s).passAndCaps = s.passAndCaps := by
  induction k generalizing l s with
  | zero => rfl
  | succ k ih =>
    have hmembers : ((g.lp l).memberNodes.foldl (resetMember g) s).passAndCaps = s.passAndCaps :=
      foldl_same (f := resetMember g) passAndCaps (fun _ _ _ => rfl) s
    refine (foldl_same passAndCaps (fun s c _ => ?_) _).trans hmembers
    exact (passAndCaps_setLoop _ c (by rfl)).trans (ih c s)

/-- Nor does clearing a loop. -/
theorem passAndCaps_clearSubtree (k : ℕ) (l : LoopId) (s : RequestState) :
    (clearSubtree g k l s).passAndCaps = s.passAndCaps := by
  induction k generalizing l s with
  | zero => rfl
  | succ k ih =>
    have hmembers : ((g.lp l).memberNodes.foldl (clearMember g) s).passAndCaps = s.passAndCaps :=
      foldl_same (f := clearMember g) passAndCaps (fun _ _ _ => rfl) s
    refine (foldl_same passAndCaps (fun s c _ => ?_) _).trans hmembers
    exact (passAndCaps_setLoop _ c (by rfl)).trans (ih c s)

/-- Nor does caching. -/
theorem passAndCaps_cacheOutputs (s : RequestState) (l : LoopId) (edges : List RoutedEdge) :
    (s.cacheOutputs g l edges).passAndCaps = s.passAndCaps := by
  refine foldl_same passAndCaps (fun s e _ => ?_) s
  unfold cacheOutput
  dsimp only
  split
  · change (s.setLoop l _).passAndCaps = _
    exact passAndCaps_setLoop s l (by rfl)
  · split
    · change (s.setLoop l _).passAndCaps = _
      exact passAndCaps_setLoop s l (by rfl)
    · rfl

/-- Nor does ending a loop. -/
theorem passAndCaps_finishLoop (s : RequestState) (l : LoopId) :
    (s.finishLoop g l).1.passAndCaps = s.passAndCaps :=
  (passAndCaps_setLoop _ l (by rfl)).trans
    ((passAndCaps_clearSubtree _ l _).trans (passAndCaps_setLoop s l (by rfl)))

/-- Nor does going on. -/
theorem passAndCaps_advanceLoop (s : RequestState) (l : LoopId) (stride : ℕ) :
    (s.advanceLoop g l stride).1.passAndCaps = s.passAndCaps :=
  (passAndCaps_setLoop _ l (by rfl)).trans
    ((passAndCaps_resetSubtreeForIter _ l _).trans (passAndCaps_setLoop s l (by rfl)))

/-- Nor does counting an entity. -/
theorem passAndCaps_rootEntityDone (s : RequestState) :
    (s.rootEntityDone g).passAndCaps = s.passAndCaps := by
  unfold rootEntityDone
  split <;> rfl

/-- A cascade leaves the pass and the caps alone. -/
theorem passAndCaps_entityCompleted (k : ℕ) (l : LoopId) (out own : List RoutedEdge) (stride : ℕ)
    (s : RequestState) : (entityCompleted g k l out own stride s).1.passAndCaps = s.passAndCaps := by
  induction k generalizing l out own stride s with
  | zero => rfl
  | succ k ih =>
    have hcached := passAndCaps_cacheOutputs (g := g) s l own
    have hzero : ((s.cacheOutputs g l own).setLoop l
        { (s.cacheOutputs g l own).loops l with completedEntities := 0 }).passAndCaps =
          s.passAndCaps := (passAndCaps_setLoop _ l (by rfl)).trans hcached
    unfold entityCompleted
    dsimp only
    split
    · exact (passAndCaps_setLoop _ l (by rfl)).trans hcached
    · split
      · cases (g.lp l).parent with
        | none =>
          exact (passAndCaps_rootEntityDone _).trans ((passAndCaps_finishLoop _ l).trans hzero)
        | some p => exact (ih p _ _ _ _).trans ((passAndCaps_finishLoop _ l).trans hzero)
      · exact (passAndCaps_advanceLoop _ l stride).trans hzero

/-- A value one step of a fold reaches and the others keep is reached. -/
theorem foldl_reaches {σ α : Type} {Q : σ → Prop} {f : σ → α → σ} {xs : List α} {x : α}
    (hx : x ∈ xs) (hreach : ∀ s, Q (f s x)) (hkeep : ∀ s, ∀ y ∈ xs, Q s → Q (f s y)) (s : σ) :
    Q (xs.foldl f s) := by
  induction xs generalizing s with
  | nil => exact absurd hx List.not_mem_nil
  | cons y ys ih =>
    rw [List.foldl_cons]
    rcases List.mem_cons.1 hx with rfl | hys
    · have hstay : ∀ zs : List α, (∀ z ∈ zs, z ∈ ys) → ∀ s, Q s → Q (zs.foldl f s) := by
        intro zs hzs
        induction zs with
        | nil => exact fun s hs => hs
        | cons z zs ihz =>
          intro s hs
          exact ihz (fun w hw => hzs w (List.mem_cons_of_mem _ hw)) _
            (hkeep s z (List.mem_cons_of_mem _ (hzs z List.mem_cons_self)) hs)
      exact hstay ys (fun _ h => h) _ (hreach s)
    · exact ih hys (fun s z hz => hkeep s z (List.mem_cons_of_mem _ hz)) _

/-- A loop has no finish signal. -/
def Quiet (d : LoopId) (s : RequestState) : Prop := (s.loops d).finishSignal = false

/-- A loop that a quiet state replaces is quiet, and so is one left alone. -/
theorem Quiet.setLoop (h : Quiet d s) (l : LoopId) {st : LoopState} (hst : st.finishSignal = false) :
    Quiet d (s.setLoop l st) := by
  unfold Quiet
  by_cases hd : d = l
  · subst hd
    rw [setLoop_loops_self, hst]
  · rw [setLoop_loops_of_ne _ hd]
    exact h

/-- A loop stays quiet as another goes on. -/
theorem Quiet.resetSubtreeForIter (h : Quiet d s) (k : ℕ) (l : LoopId) :
    Quiet d (resetSubtreeForIter g k l s) := by
  induction k generalizing l s with
  | zero => exact h
  | succ k ih =>
    have hmembers : Quiet d ((g.lp l).memberNodes.foldl (resetMember g) s) := by
      have hsame := foldl_same (f := resetMember g) (l := (g.lp l).memberNodes)
        (fun s => (s.loops d).finishSignal) (fun _ _ _ => rfl) s
      exact hsame.trans h
    refine List.foldlRecOn _ _ hmembers fun s hs c _ => ?_
    exact (ih hs c).setLoop c rfl

/-- And as another is cleared. -/
theorem Quiet.clearSubtree (h : Quiet d s) (k : ℕ) (l : LoopId) :
    Quiet d (clearSubtree g k l s) := by
  induction k generalizing l s with
  | zero => exact h
  | succ k ih =>
    have hmembers : Quiet d ((g.lp l).memberNodes.foldl (clearMember g) s) := by
      have hsame := foldl_same (f := clearMember g) (l := (g.lp l).memberNodes)
        (fun s => (s.loops d).finishSignal) (fun _ _ _ => rfl) s
      exact hsame.trans h
    refine List.foldlRecOn _ _ hmembers fun s hs c _ => ?_
    exact Quiet.setLoop (s := (RequestState.clearSubtree g k c s).release _) (ih hs c) c rfl

/-- Whatever is nested in a loop is quiet when its body starts over. -/
theorem quiet_resetSubtreeForIter (hb : g.Below d l) (s : RequestState) :
    Quiet d (resetSubtreeForIter g g.loops.length l s) := by
  induction hb generalizing s with
  | single hp =>
    rw [resetSubtreeForIter_eq (parent_lt_length hp)]
    refine foldl_reaches (mem_childLoops.2 ⟨CompiledGraph.lt_length_of_parent hp, hp⟩) (fun s => ?_)
      (fun s c _ hs => ?_) _
    · unfold Quiet
      rw [setLoop_loops_self]
      rfl
    · exact (hs.resetSubtreeForIter _ c).setLoop c rfl
  | @tail c p _ hp ih =>
    rw [resetSubtreeForIter_eq (parent_lt_length hp)]
    refine foldl_reaches (mem_childLoops.2 ⟨CompiledGraph.lt_length_of_parent hp, hp⟩)
      (fun s => (ih s).setLoop c rfl) (fun s c _ hs => ?_) _
    exact (hs.resetSubtreeForIter _ c).setLoop c rfl

/-- Whatever is nested in a loop is quiet when its body is over. -/
theorem quiet_clearSubtree (hb : g.Below d l) (s : RequestState) :
    Quiet d (clearSubtree g g.loops.length l s) := by
  have hclear {s : RequestState} (hs : Quiet d s) (c : LoopId) : Quiet d (s.clearChild c) :=
    Quiet.setLoop (s := s.release _) hs c rfl
  have hkeep (s : RequestState) (c : LoopId) (hs : Quiet d s) :
      Quiet d ((clearSubtree g g.loops.length c s).clearChild c) :=
    hclear (hs.clearSubtree g.loops.length c) c
  induction hb generalizing s with
  | single hp =>
    rw [clearSubtree_eq (parent_lt_length hp)]
    refine foldl_reaches (mem_childLoops.2 ⟨CompiledGraph.lt_length_of_parent hp, hp⟩) (fun s => ?_)
      (fun s c _ => hkeep s c) _
    unfold Quiet clearChild
    dsimp only
    rw [setLoop_loops_self]
    rfl
  | @tail c p _ hp ih =>
    rw [clearSubtree_eq (parent_lt_length hp)]
    refine foldl_reaches (mem_childLoops.2 ⟨CompiledGraph.lt_length_of_parent hp, hp⟩) (fun s => ?_)
      (fun s c _ => hkeep s c) _
    exact hclear (ih s) c

/-- A loop whose new state is in the same iteration. -/
theorem sameIter_setLoop (s : RequestState) (l : LoopId) {st : LoopState}
    (h : (st.currIter, st.done, st.finishSignal) =
      ((s.loops l).currIter, (s.loops l).done, (s.loops l).finishSignal)) (d : LoopId) :
    SameIter s (s.setLoop l st) d := by
  unfold SameIter
  by_cases hd : d = l
  · subst hd
    rw [setLoop_loops_self]
    simpa only [Prod.mk.injEq] using h
  · rw [setLoop_loops_of_ne _ hd]
    exact ⟨rfl, rfl, rfl⟩

/-- Caching leaves every loop in its iteration. -/
theorem sameIter_cacheOutputs (s : RequestState) (l : LoopId) (edges : List RoutedEdge)
    (d : LoopId) : SameIter s (s.cacheOutputs g l edges) d := by
  refine foldl_related (R := fun s s' => SameIter s s' d) (fun s => .refl s d) SameIter.trans
    (fun s e _ => ?_) s
  unfold cacheOutput
  dsimp only
  split
  · exact sameIter_setLoop s l (by rfl) d
  · split
    · exact sameIter_setLoop s l (by rfl) d
    · exact .refl s d

/-- A loop that finishes ends the runs nested in it. -/
theorem turned_finishLoop (hout : ∀ d, ¬ g.Below d l → SameIter s₀ s d) :
    Turned g s₀ (s.finishLoop g l).1 := by
  set s₁ := s.setLoop l { s.loops l with done := true } with hs₁
  have hbody (d : LoopId) : SameIter (clearSubtree g g.loops.length l s₁) (s.finishLoop g l).1 d :=
    sameIter_setLoop _ l (by rfl) d
  have hself : (clearSubtree g g.loops.length l s₁).loops l = s₁.loops l :=
    clearSubtree_loops _ l _ (not_below_self l)
  refine .ended l ?_ (fun d hd => ?_) fun d hd hnot => ?_
  · rw [(hbody l).2.1, hself, hs₁, setLoop_loops_self]
  · rw [(hbody d).2.2]
    exact quiet_clearSubtree hd s₁
  · refine (hout d hnot).trans ?_
    unfold SameIter
    rw [Lossless.loops_finishLoop hnot hd]
    exact ⟨rfl, rfl, rfl⟩

/-- A loop that advances starts the runs nested in it over. -/
theorem turned_advanceLoop (hout : ∀ d, ¬ g.Below d l → SameIter s₀ s d) {stride : ℕ}
    (hstride : 0 < stride) (hcap : (s.loops l).maxIters ≤ 4294967295)
    (hgo : finishing (s.loops l) stride = false) : Turned g s₀ (s.advanceLoop g l stride).1 := by
  set s₁ := s.setLoop l { s.loops l with
    currIter := saturatingAdd (s.loops l).currIter stride } with hs₁
  have hbody (d : LoopId) :
      SameIter (resetSubtreeForIter g g.loops.length l s₁) (s.advanceLoop g l stride).1 d :=
    sameIter_setLoop _ l (by rfl) d
  have hself : (resetSubtreeForIter g g.loops.length l s₁).loops l = s₁.loops l :=
    resetSubtreeForIter_loops _ l _ (not_below_self l)
  have hl := hout l (not_below_self l)
  have hmore : (s.loops l).currIter < saturatingAdd (s.loops l).currIter stride := by
    have hlt : saturatingAdd (s.loops l).currIter stride < (s.loops l).maxIters := by
      unfold finishing at hgo
      simpa using (Bool.or_eq_false_iff.1 hgo).2
    unfold saturatingAdd at hlt ⊢
    omega
  refine .advanced l ?_ ?_ ?_ (fun d hd => ?_) fun d hd hnot => ?_
  · rw [(hbody l).1, hself, hs₁, setLoop_loops_self, ← hl.1]
    exact hmore
  · rw [(hbody l).2.1, hself, hs₁, setLoop_loops_self]
    exact hl.2.1
  · rw [(hbody l).2.2, hself, hs₁, setLoop_loops_self]
    exact hl.2.2
  · rw [(hbody d).2.2]
    exact quiet_resetSubtreeForIter hd s₁
  · have hfar : SameIter s s₁ d := by
      unfold SameIter
      rw [hs₁, setLoop_loops_of_ne _ hd]
      exact ⟨rfl, rfl, rfl⟩
    have hreset : SameIter s₁ (resetSubtreeForIter g g.loops.length l s₁) d := by
      unfold SameIter
      rw [resetSubtreeForIter_loops _ l _ hnot]
      exact ⟨rfl, rfl, rfl⟩
    exact (hout d hnot).trans (hfar.trans (hreset.trans (hbody d)))

/-- A top-level entity done leaves every loop in its iteration. -/
theorem sameIter_rootEntityDone (s : RequestState) (d : LoopId) :
    SameIter s (s.rootEntityDone g) d := by
  unfold rootEntityDone
  split <;> exact ⟨rfl, rfl, rfl⟩

/-- Loops left in their iteration have turned the same way. -/
theorem Turned.of_sameIter (h : Turned g s₀ s) (hsame : ∀ d, SameIter s s' d) : Turned g s₀ s' := by
  cases h with
  | same h => exact .same fun d => (h d).trans (hsame d)
  | ended m hdone hbelow h =>
    exact .ended m ((hsame m).2.1.trans hdone) (fun d hd => (hsame d).2.2.trans (hbelow d hd))
      fun d hd hnot => (h d hd hnot).trans (hsame d)
  | advanced m hiter hdone hfinish hbelow h =>
    exact .advanced m (hiter.trans_eq (hsame m).1.symm) ((hsame m).2.1.trans hdone)
      ((hsame m).2.2.trans hfinish) (fun d hd => (hsame d).2.2.trans (hbelow d hd))
      fun d hd hnot => (h d hd hnot).trans (hsame d)

/-- Along a cascade only what is nested in the loop it has reached has turned. -/
theorem turned_entityCompleted (k : ℕ) (out own : List RoutedEdge) {stride : ℕ}
    (hstride : 0 < stride) (hcap : ∀ d, (s.loops d).maxIters ≤ 4294967295)
    (h : Turned g s₀ s) (hout : ∀ d, ¬ g.Below d l → SameIter s₀ s d) :
    Turned g s₀ (entityCompleted g k l out own stride s).1 := by
  induction k generalizing l out own stride s with
  | zero => exact h
  | succ k ih =>
    set s₁ := s.cacheOutputs g l own with hs₁
    have hcached (d : LoopId) : SameIter s s₁ d := sameIter_cacheOutputs s l own d
    have hcounted (n : ℕ) (d : LoopId) :
        SameIter s (s₁.setLoop l { s₁.loops l with completedEntities := n }) d :=
      (hcached d).trans (sameIter_setLoop s₁ l (by rfl) d)
    have hcaps (n : ℕ) : (s₁.setLoop l { s₁.loops l with completedEntities := n }).passAndCaps =
        s.passAndCaps := (passAndCaps_setLoop s₁ l (by rfl)).trans (passAndCaps_cacheOutputs s l own)
    have hstill (n : ℕ) (d : LoopId) (hd : ¬ g.Below d l) :
        SameIter s₀ (s₁.setLoop l { s₁.loops l with completedEntities := n }) d :=
      (hout d hd).trans (hcounted n d)
    unfold entityCompleted
    dsimp only
    rw [← hs₁]
    split
    · exact h.of_sameIter (hcounted _)
    · split
      · next hfin =>
        have hturned := turned_finishLoop (hstill 0)
        cases hp : (g.lp l).parent with
        | none => exact hturned.of_sameIter (sameIter_rootEntityDone _)
        | some p =>
          refine ih _ _ Nat.one_pos (fun d => ?_) hturned fun d hd => ?_
          · have hcap' := congrFun (congrArg Prod.snd
              ((passAndCaps_finishLoop (g := g) _ l).trans (hcaps 0))) d
            exact le_of_eq_of_le hcap' (hcap d)
          · have hne : d ≠ l := by
              rintro rfl
              exact hd (.single hp)
            have hnot : ¬ g.Below d l := fun hb => hd (hb.tail hp)
            refine (hstill 0 d hnot).trans ?_
            unfold SameIter
            rw [Lossless.loops_finishLoop hnot hne]
            exact ⟨rfl, rfl, rfl⟩
      · next hgo =>
        refine turned_advanceLoop (hstill 0) hstride ?_ ?_
        · exact le_of_eq_of_le (congrFun (congrArg Prod.snd (hcaps 0)) l) (hcap l)
        · rw [setLoop_loops_self]
          exact Bool.eq_false_iff.2 hgo

/-- The cascade of a completed node turns the loops around it. -/
theorem turned_cascade (hsame : ∀ d, SameIter s₀ s d)
    (hcap : ∀ d, (s.loops d).maxIters ≤ 4294967295) (n : NodeId) (own : List RoutedEdge)
    {stride : ℕ} (hstride : 0 < stride) : Turned g s₀ (s.cascade g n own stride).1 := by
  have hstart : Turned g s₀ s := .same hsame
  unfold cascade
  cases g.loopId n with
  | none => exact hstart.of_sameIter (sameIter_rootEntityDone s)
  | some l => exact turned_entityCompleted _ _ _ hstride hcap hstart fun d _ => hsame d

/-- A cascade changes no pass and no cap. -/
theorem passAndCaps_cascade (s : RequestState) (n : NodeId) (own : List RoutedEdge) (stride : ℕ) :
    (s.cascade g n own stride).1.passAndCaps = s.passAndCaps := by
  unfold cascade
  cases g.loopId n with
  | none => exact passAndCaps_rootEntityDone s
  | some l => exact passAndCaps_entityCompleted _ l _ _ _ s

/-- Marking a node completed leaves the loops and the pass alone. -/
theorem markCompleted_loops (s : RequestState) (n : NodeId) :
    (s.markCompleted g n).2.loops = s.loops ∧
      (s.markCompleted g n).2.numTimesRun = s.numTimesRun := by
  unfold markCompleted
  cases g.loopId n <;> exact ⟨rfl, rfl⟩

end RequestState

open RequestState

/-- What happens to one worker graph of a request between messages. -/
inductive GraphOp
  | ingest (node : NodeId) (slot : ℕ) (tensors : List TensorRef) (canBuffer finalChunk : Bool)
  | clearConsumed (node : NodeId)
  /-- A node completes, and a graph it finishes is reset. -/
  | complete (node : NodeId) (outTensors : List (List TensorRef)) (stride : ℕ)
  | capLoop (l : LoopId) (cap : ℕ)
  | setLoopCap (l : LoopId) (cap : ℕ)
  | takeForSchedule (node : NodeId)
  | pushBack (node : NodeId)
  | setInFlight (node : NodeId) (on : Bool)
  | speculate (source : NodeId) (edges : List RoutedEdge)
  | clearSpeculative

namespace GraphOp

variable (g : CompiledGraph)

/-- What it does. -/
def apply (s : RequestState) : GraphOp → RequestState
  | ingest node slot t canBuffer finalChunk =>
    (s.ingest g node slot t canBuffer finalChunk).getD s
  | clearConsumed node => (s.clearConsumedInputs g node).2
  | complete node outTensors stride =>
    let s := (s.completeStrided g node outTensors stride).2
    if s.isDone then s.reset g else s
  | capLoop l cap => s.capLoop l cap
  | setLoopCap l cap => s.setLoopCap l cap
  | takeForSchedule node => s.takeForSchedule node
  | pushBack node => s.pushBack node
  | setInFlight node on => s.setInFlight node on
  | speculate source edges => (s.ingestForSpeculation g source edges).2
  | clearSpeculative => s.clearSpeculativeInputs

/-- A stride counts tokens, and a cap is a `u32`. -/
def Enabled : GraphOp → Prop
  | complete _ _ stride => 0 < stride
  | setLoopCap _ cap => cap ≤ 4294967295
  | _ => True

instance : DecidablePred Enabled
  | complete _ _ stride => inferInstanceAs (Decidable (0 < stride))
  | setLoopCap _ cap => inferInstanceAs (Decidable (cap ≤ 4294967295))
  | ingest .. | clearConsumed .. | capLoop .. | takeForSchedule .. | pushBack .. | setInFlight ..
  | speculate .. | clearSpeculative => inferInstanceAs (Decidable True)

end GraphOp

namespace RequestState

variable {g : CompiledGraph} {s s' : RequestState} {l : LoopId}

/-- A walk between events: its pass is not over, and its caps are `u32`s. -/
structure Sound (s : RequestState) : Prop where
  going : s.isDone = false
  capped : ∀ d, (s.loops d).maxIters ≤ 4294967295

/-- An event that leaves every loop in its iteration and the pass alone. -/
structure Idles (s s' : RequestState) : Prop where
  same : ∀ d, SameIter s s' d
  times : s'.numTimesRun = s.numTimesRun
  sound : s.Sound → s'.Sound

/-- Nothing done turns no loop. -/
theorem Idles.refl (s : RequestState) : Idles s s := ⟨fun d => .refl s d, rfl, id⟩

/-- Nor do two steps that turn none. -/
theorem Idles.trans {s'' : RequestState} (h : Idles s s') (h' : Idles s' s'') : Idles s s'' :=
  ⟨fun d => (h.same d).trans (h'.same d), h'.times.trans h.times, fun hs => h'.sound (h.sound hs)⟩

/-- An event that touches no loop. -/
theorem Idles.of_loops (hloops : s'.loops = s.loops) (htimes : s'.numTimesRun = s.numTimesRun)
    (hdone : s'.isDone = s.isDone) : Idles s s' := by
  refine ⟨fun d => ?_, htimes, fun hs => ⟨hdone.trans hs.going, ?_⟩⟩
  · unfold SameIter
    rw [hloops]
    exact ⟨rfl, rfl, rfl⟩
  · rw [hloops]
    exact hs.capped

/-- A step that turns no loop ticks none. -/
theorem Idles.ticks (h : Idles s s') : Ticks g s s' l := by
  refine ticks_of_around h.times (fun d _ => h.same d) fun he => ?_
  unfold Ending
  rw [(h.same l).2.1, (h.same l).2.2]
  exact he

/-- A loop's new cap or saved inputs leave it in its iteration. -/
theorem idles_setLoop (s : RequestState) (l : LoopId) {st : LoopState}
    (h : (st.currIter, st.done, st.finishSignal) =
      ((s.loops l).currIter, (s.loops l).done, (s.loops l).finishSignal))
    (hcap : (s.loops l).maxIters ≤ 4294967295 → st.maxIters ≤ 4294967295) :
    Idles s (s.setLoop l st) := by
  refine ⟨sameIter_setLoop s l h, rfl, fun hs => ⟨hs.going, fun d => ?_⟩⟩
  by_cases hd : d = l
  · subst hd
    rw [setLoop_loops_self]
    exact hcap (hs.capped d)
  · rw [setLoop_loops_of_ne _ hd]
    exact hs.capped d

/-- An ingest turns no loop. -/
theorem idles_ingest (s : RequestState) {node : NodeId} {slot : ℕ} {t : List TensorRef}
    {canBuffer fin : Bool} (h : s.ingest g node slot t canBuffer fin = some s') : Idles s s' := by
  unfold ingest at h
  cases hland : land (s.nodes node) slot t canBuffer fin with
  | none =>
    rw [hland] at h
    exact absurd h (by simp)
  | some st =>
    rw [hland] at h
    obtain rfl := Option.some.inj h
    have hrecord (s : RequestState) (name : Sym) :
        Idles s ((g.enclosing node).foldl (recordAt g node name t) s) := by
      refine foldl_related Idles.refl Idles.trans (fun s l _ => ?_) s
      unfold recordAt
      dsimp only
      split
      · exact idles_setLoop s l (by rfl) (by exact id)
      · exact .refl s
    have hexternal (s : RequestState) (name : Sym) :
        Idles s (s.recordExternal g node name t) := by
      unfold recordExternal
      split
      · split
        · exact .refl s
        · exact hrecord s name
      · exact hrecord s name
    have hset : Idles s (s.setNode node st) := .of_loops rfl rfl rfl
    exact (hset.trans (hexternal (s.setNode node st) _)).trans (.of_loops rfl rfl rfl)

/-- Nor does a speculation. -/
theorem idles_speculation (s : RequestState) (source : NodeId) (edges : List RoutedEdge) :
    Idles s (s.ingestForSpeculation g source edges).2 := by
  refine foldl_related Idles.refl Idles.trans (fun s e _ => ?_) s
  unfold speculate
  split
  · split
    · exact .of_loops rfl rfl rfl
    · exact .refl s
  · exact .refl s

/-- Nor does its end. -/
theorem idles_clearSpeculative (s : RequestState) : Idles s s.clearSpeculativeInputs := by
  have hfold : Idles s (s.specDirty.foldl
      (fun s n => s.setNode n { s.nodes n with spec := .new }) s) :=
    foldl_related (f := fun s n => s.setNode n { s.nodes n with spec := .new }) Idles.refl Idles.trans
      (fun _ _ _ => .of_loops rfl rfl rfl) s
  exact hfold.trans (.of_loops rfl rfl rfl)

/-- A completion moves every loop's clock on or leaves it, and leaves the walk
between events. -/
theorem ticks_complete (hs : s.Sound) (n : NodeId) (outTensors : List (List TensorRef))
    {stride : ℕ} (hstride : 0 < stride) :
    (∀ l < g.loops.length, Ticks g s ((GraphOp.complete n outTensors stride).apply g s) l) ∧
      ((GraphOp.complete n outTensors stride).apply g s).Sound := by
  obtain ⟨hloops, htimes⟩ := markCompleted_loops (g := g) s n
  set m := (s.markCompleted g n).2
  set r := (m.cascade g n (nodeOutputs g n outTensors) stride).1 with hr
  have hmark : ∀ d, SameIter s m d := by
    unfold SameIter
    rw [hloops]
    exact fun d => ⟨rfl, rfl, rfl⟩
  have hcaps : r.passAndCaps = m.passAndCaps := passAndCaps_cascade m n _ stride
  have hcapped (d : LoopId) : (r.loops d).maxIters ≤ 4294967295 := by
    refine le_of_eq_of_le (congrFun (congrArg Prod.snd hcaps) d) ?_
    change (m.loops d).maxIters ≤ _
    rw [hloops]
    exact hs.capped d
  have hpass : r.numTimesRun = s.numTimesRun := (congrArg Prod.fst hcaps).trans htimes
  have hturned : Turned g s r := turned_cascade hmark (by rw [hloops]; exact hs.capped) n _ hstride
  unfold GraphOp.apply completeStrided
  dsimp only
  rw [← hr, hs.going]
  cases hdone : r.isDone with
  | true =>
    simp only [Bool.not_false, Bool.and_self, if_true]
    refine ⟨fun l _ => ⟨fun hpasses => ?_, fun heq => ?_, fun _ => rfl⟩, rfl, hcapped⟩
    · refine le_of_lt ((Prod.Lex.toLex_lt_toLex).2 (.inl ?_))
      change s.numTimesRun < (r.numTimesRun + 1) % 2 ^ 32
      omega
    · have hsame : (r.numTimesRun + 1) % 2 ^ 32 = s.numTimesRun :=
        congrArg Prod.fst (toLex.injective heq)
      omega
  | false =>
    simp only [Bool.false_and, Bool.false_eq_true, if_false, hdone]
    refine ⟨fun l hl => ?_, rfl, hcapped⟩
    exact Turned.ticks (hturned.of_sameIter fun _ => ⟨rfl, rfl, rfl⟩) (by exact hpass) hl

/-- Between events every event moves every loop's clock on or leaves it, and
leaves the walk between events. -/
theorem ticks_apply (hs : s.Sound) {op : GraphOp} (he : op.Enabled) :
    (∀ l < g.loops.length, Ticks g s (op.apply g s) l) ∧ (op.apply g s).Sound := by
  have hidle {s' : RequestState} (h : Idles s s') :
      (∀ l < g.loops.length, Ticks g s s' l) ∧ s'.Sound := ⟨fun _ _ => h.ticks, h.sound hs⟩
  cases op with
  | complete node outTensors stride => exact ticks_complete hs node outTensors he
  | ingest node slot t canBuffer fin =>
    refine hidle ?_
    unfold GraphOp.apply
    dsimp only
    cases h : s.ingest g node slot t canBuffer fin with
    | none => exact .refl s
    | some s' => exact idles_ingest s h
  | capLoop l cap => exact hidle (idles_setLoop s l (by rfl) fun h => (Nat.min_le_left _ _).trans h)
  | setLoopCap l cap => exact hidle (idles_setLoop s l (by rfl) fun _ => he)
  | speculate source edges => exact hidle (idles_speculation s source edges)
  | clearSpeculative => exact hidle (idles_clearSpeculative s)
  | clearConsumed node => exact hidle (.of_loops rfl rfl rfl)
  | takeForSchedule node => exact hidle (.of_loops rfl rfl rfl)
  | pushBack node => exact hidle (.of_loops rfl rfl rfl)
  | setInFlight node on => exact hidle (.of_loops rfl rfl rfl)

end RequestState

end Mstar.Walk
