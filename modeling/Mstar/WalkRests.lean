import Mstar.LoopsAsAsked
import Mstar.WalkSafety

/-!
# What is left where a pass is over

A node outside all loops frees its inputs as it completes, and an outermost
loop that ends empties the slots and caches of everything in it. A walk that
is done has ended all of them: where nothing landed in what was over, nothing
is held any more.
-/

namespace Mstar.Walk

open Shard (Sym TensorRef)
open CompiledGraph (mem_enclosing_iff mem_childLoops parent_lt_length lt_length_of_parent
  not_below_self loopId_eq_some exists_root)
open RequestState

namespace CompiledGraph

variable {g : CompiledGraph}

/-- What is in two outermost loops shows that they are one. -/
theorem root_unique {l r r' : LoopId} (h : l = r ∨ g.Below l r) (h' : l = r' ∨ g.Below l r')
    (hr : (g.lp r).parent = none) (hr' : (g.lp r').parent = none) : r = r' := by
  have hreach {x : LoopId} (hx : l = x ∨ g.Below l x) :
      Relation.ReflTransGen (fun c p => (g.lp c).parent = some p) l x :=
    hx.elim (fun heq => heq ▸ .refl) Relation.TransGen.to_reflTransGen
  have htop {x y : LoopId} (hx : (g.lp x).parent = none)
      (hxy : Relation.ReflTransGen (fun c p => (g.lp c).parent = some p) x y) : x = y := by
    rcases hxy.cases_head with heq | ⟨p, hp, _⟩
    · exact heq
    · rw [hx] at hp
      exact absurd hp (by simp)
  have hfun : Relator.RightUnique fun c p => (g.lp c).parent = some p := fun _ _ _ hp hq =>
    Option.some.inj (hp.symm.trans hq)
  rcases Relation.ReflTransGen.total_of_right_unique hfun (hreach h) (hreach h') with hrr | hrr
  · exact htop hr hrr
  · exact (htop hr' hrr).symm

/-- An outermost loop is in no other. -/
theorem not_below_of_root {r l : LoopId} (hr : (g.lp r).parent = none) : ¬ g.Below r l := by
  intro h
  obtain ⟨p, hp, _⟩ := Relation.TransGen.head'_iff.1 h
  rw [hr] at hp
  exact absurd hp (by simp)

end CompiledGraph

open CompiledGraph (root_unique not_below_of_root)

namespace RequestState

section Nodes

variable {g : CompiledGraph} {l : LoopId} {d : NodeId}

/-- A node cleared is new. -/
theorem clearMember_nodes (s : RequestState) (n d : NodeId) :
    (clearMember g s n).nodes d = if d = n then .new else s.nodes d := by
  change Function.update s.nodes n .new d = _
  rw [Function.update_apply]

/-- Clearing a node renews a node or leaves it alone. -/
theorem clearMember_keeps_or_renews (s : RequestState) (n d : NodeId) :
    (clearMember g s n).nodes d = s.nodes d ∨ (clearMember g s n).nodes d = .new := by
  rw [clearMember_nodes]
  split
  · exact .inr rfl
  · exact .inl rfl

/-- So does clearing one child after the other. -/
theorem clearChildren_keeps_or_renews {k : ℕ} {cs : List LoopId} (s : RequestState)
    (h : ∀ s, ∀ c ∈ cs, (clearSubtree g k c s).nodes d = s.nodes d ∨
      (clearSubtree g k c s).nodes d = .new) :
    (cs.foldl (fun s c => (clearSubtree g k c s).clearChild c) s).nodes d = s.nodes d ∨
      (cs.foldl (fun s c => (clearSubtree g k c s).clearChild c) s).nodes d = .new :=
  foldl_keeps_or_applies (p := fun s : RequestState => s.nodes d) (R := fun _ => NodeState.new)
    (f := fun s c => (clearSubtree g k c s).clearChild c) (fun _ => rfl) h s

/-- Clearing a loop's body renews a node or leaves it alone. -/
theorem clearSubtree_keeps_or_renews (k : ℕ) (l : LoopId) (d : NodeId) (s : RequestState) :
    (clearSubtree g k l s).nodes d = s.nodes d ∨ (clearSubtree g k l s).nodes d = .new := by
  induction k generalizing l s with
  | zero => exact .inl rfl
  | succ k ih =>
    have hmembers : ((g.lp l).memberNodes.foldl (clearMember g) s).nodes d = s.nodes d ∨
        ((g.lp l).memberNodes.foldl (clearMember g) s).nodes d = .new :=
      foldl_keeps_or_applies (p := fun s : RequestState => s.nodes d)
        (R := fun _ => NodeState.new) (fun _ => rfl)
        (fun s n _ => clearMember_keeps_or_renews s n d) s
    unfold clearSubtree
    rcases clearChildren_keeps_or_renews ((g.lp l).memberNodes.foldl (clearMember g) s)
      (fun s c _ => ih c s) with h | h
    · rw [h]
      exact hmembers
    · exact .inr h

/-- A loop's own nodes are renewed when it is cleared. -/
theorem renewed_of_member (hd : g.loopId d = some l) (s : RequestState) :
    (clearSubtree g g.loops.length l s).nodes d = .new := by
  rw [clearSubtree_eq (CompiledGraph.loopId_lt_length hd)]
  have hmembers : ((g.lp l).memberNodes.foldl (clearMember g) s).nodes d = .new :=
    foldl_applies (p := fun s : RequestState => s.nodes d) (R := fun _ => NodeState.new)
      (fun _ => rfl) (fun s n _ => clearMember_keeps_or_renews s n d) (loopId_eq_some.1 hd)
      (fun s => by rw [clearMember_nodes, if_pos rfl]) s
  rcases clearChildren_keeps_or_renews ((g.lp l).memberNodes.foldl (clearMember g) s)
    (fun s c _ => clearSubtree_keeps_or_renews g.loops.length c d s) with h | h
  · exact h.trans hmembers
  · exact h

/-- Every node in a loop is renewed when the loop is cleared. -/
theorem renewed_of_enclosing (h : l ∈ g.enclosing d) (s : RequestState) :
    (clearSubtree g g.loops.length l s).nodes d = .new := by
  obtain ⟨m, hm, hin⟩ := mem_enclosing_iff.1 h
  rcases hin with rfl | hb
  · exact renewed_of_member hm s
  · have hsteps (s : RequestState) (c : LoopId) :=
      clearSubtree_keeps_or_renews (g := g) g.loops.length c d s
    induction hb generalizing s with
    | single hp =>
      rw [clearSubtree_eq (parent_lt_length hp)]
      exact foldl_applies (p := fun s : RequestState => s.nodes d) (R := fun _ => NodeState.new)
        (f := fun s c => (clearSubtree g g.loops.length c s).clearChild c)
        (fun _ => rfl) (fun s c _ => hsteps s c) (mem_childLoops.2 ⟨lt_length_of_parent hp, hp⟩)
        (fun s => renewed_of_member hm s) _
    | @tail c p hb hp ih =>
      rw [clearSubtree_eq (parent_lt_length hp)]
      exact foldl_applies (p := fun s : RequestState => s.nodes d) (R := fun _ => NodeState.new)
        (f := fun s c => (clearSubtree g g.loops.length c s).clearChild c)
        (fun _ => rfl) (fun s c _ => hsteps s c) (mem_childLoops.2 ⟨lt_length_of_parent hp, hp⟩)
        (fun s => ih (mem_enclosing_iff.2 ⟨m, hm, .inr hb⟩) s) _

/-- What is not in a loop is in none of its children. -/
theorem notMem_enclosing_child {c : LoopId} (hc : c ∈ g.childLoops l) (h : l ∉ g.enclosing d) :
    c ∉ g.enclosing d := by
  intro hmem
  obtain ⟨m, hm, hin⟩ := mem_enclosing_iff.1 hmem
  have hp := (mem_childLoops.1 hc).2
  refine h (mem_enclosing_iff.2 ⟨m, hm, .inr ?_⟩)
  rcases hin with rfl | hb
  · exact .single hp
  · exact hb.tail hp

/-- A node that is not in a loop is none of its members. -/
theorem ne_of_member {n : NodeId} (hn : n ∈ (g.lp l).memberNodes) (h : l ∉ g.enclosing d) :
    d ≠ n := by
  rintro rfl
  exact h (mem_enclosing_iff.2 ⟨l, loopId_eq_some.2 hn, .inl rfl⟩)

/-- Clearing a loop's body leaves what is not in it alone. -/
theorem clearSubtree_nodes (k : ℕ) (h : l ∉ g.enclosing d) (s : RequestState) :
    (clearSubtree g k l s).nodes d = s.nodes d := by
  induction k generalizing l s with
  | zero => rfl
  | succ k ih =>
    have hmembers : ((g.lp l).memberNodes.foldl (clearMember g) s).nodes d = s.nodes d :=
      foldl_same (fun s : RequestState => s.nodes d)
        (fun s n hn => by rw [clearMember_nodes, if_neg (ne_of_member hn h)]) s
    refine (foldl_same (fun s : RequestState => s.nodes d) (fun s c hc => ?_) _).trans hmembers
    exact ih (notMem_enclosing_child hc h) s

/-- So does going on to another iteration. -/
theorem resetSubtreeForIter_nodes (k : ℕ) (h : l ∉ g.enclosing d) (s : RequestState) :
    (resetSubtreeForIter g k l s).nodes d = s.nodes d := by
  induction k generalizing l s with
  | zero => rfl
  | succ k ih =>
    have hmembers : ((g.lp l).memberNodes.foldl (resetMember g) s).nodes d = s.nodes d :=
      foldl_same (fun s : RequestState => s.nodes d)
        (fun s n hn => Function.update_of_ne (ne_of_member hn h) _ _) s
    refine (foldl_same (fun s : RequestState => s.nodes d) (fun s c hc => ?_) _).trans hmembers
    exact ih (notMem_enclosing_child hc h) s

end Nodes

variable {g : CompiledGraph} {s s' : RequestState} {r l : LoopId}

/-- Going from one state to another changes nothing outside an outermost loop. -/
structure Within (g : CompiledGraph) (r : LoopId) (s s' : RequestState) : Prop where
  nodes : ∀ n, r ∉ g.enclosing n → s'.nodes n = s.nodes n
  loops : ∀ d, d ≠ r → ¬ g.Below d r → s'.loops d = s.loops d

/-- One step within a loop after another. -/
theorem Within.trans {s'' : RequestState} (h : Within g r s s') (h' : Within g r s' s'') :
    Within g r s s'' :=
  ⟨fun n hn => (h'.nodes n hn).trans (h.nodes n hn),
    fun d hd hb => (h'.loops d hd hb).trans (h.loops d hd hb)⟩

/-- Nothing is left in a loop. -/
structure Emptied (g : CompiledGraph) (r : LoopId) (s : RequestState) : Prop where
  nodes : ∀ n, r ∈ g.enclosing n → s.nodes n = .new
  caches : ∀ d, d = r ∨ g.Below d r → (s.loops d).cached = [] ∧ (s.loops d).accum = []

/-- What a completion in an outermost loop does: it counts nothing outside of
it, or it ends the loop, which counts, and empties it. -/
structure Closes (g : CompiledGraph) (r : LoopId) (s s' : RequestState) : Prop where
  within : Within g r s s'
  outcome : ((s'.loops r).done = false ∧ s'.progress = s.progress) ∨
    ((s'.loops r).done = true ∧ s'.progress = (s.rootEntityDone g).progress ∧ Emptied g r s')

/-- The root count depends on nothing else. -/
theorem progress_rootEntityDone (h : s'.progress = s.progress) :
    (s'.rootEntityDone g).progress = (s.rootEntityDone g).progress := by
  obtain ⟨hcount, hdone⟩ := Prod.mk.inj h
  unfold rootEntityDone
  rw [hcount, hdone]
  split
  · exact h
  · rfl

/-- A loop in an outermost one is within it. -/
theorem within_of_loop (hl : l = r ∨ g.Below l r)
    (hnodes : ∀ n, l ∉ g.enclosing n → s'.nodes n = s.nodes n)
    (hloops : ∀ d, d ≠ l → ¬ g.Below d l → s'.loops d = s.loops d) : Within g r s s' := by
  refine ⟨fun n hn => hnodes n fun hmem => hn ?_, fun d hd hb => hloops d ?_ fun hdl => ?_⟩
  · obtain ⟨m, hm, hin⟩ := mem_enclosing_iff.1 hmem
    refine mem_enclosing_iff.2 ⟨m, hm, ?_⟩
    rcases hl with rfl | hl
    · exact hin
    · exact .inr (hin.elim (fun heq => heq ▸ hl) fun hb => hb.trans hl)
  · rintro rfl
    exact hl.elim hd hb
  · exact hl.elim (fun heq => hb (heq ▸ hdl)) fun hl => hb (hdl.trans hl)

/-- A loop set is within the loops around it. -/
theorem within_setLoop (hl : l = r ∨ g.Below l r) (s : RequestState) (st : LoopState) :
    Within g r s (s.setLoop l st) :=
  within_of_loop hl (fun _ _ => rfl) fun _ hd _ => setLoop_loops_of_ne _ hd _

/-- So is one that caches. -/
theorem within_cacheOutputs (hl : l = r ∨ g.Below l r) (hlt : l < g.loops.length)
    (s : RequestState) (own : List RoutedEdge) : Within g r s (s.cacheOutputs g l own) := by
  have hcaches := caches_cacheOutputs (u := 0) hlt s own
  exact within_of_loop hl (fun n _ => congrFun hcaches.nodes_eq n) fun d hd _ => hcaches.other d hd

/-- And one that ends. -/
theorem within_finishLoop (hl : l = r ∨ g.Below l r) (s : RequestState) :
    Within g r s (s.finishLoop g l).1 := by
  refine within_of_loop hl (fun n hn => clearSubtree_nodes _ hn _) fun d hd hb => ?_
  rw [finishLoop_loops, if_neg hd, if_neg fun h => hb (CompiledGraph.mem_around_iff.1 h)]

/-- And one that goes on. -/
theorem within_advanceLoop (hl : l = r ∨ g.Below l r) (s : RequestState) (stride : ℕ) :
    Within g r s (s.advanceLoop g l stride).1 := by
  refine within_of_loop hl (fun n hn => resetSubtreeForIter_nodes _ hn _) fun d hd hb => ?_
  rw [advanceLoop_loops, if_neg hd, if_neg fun h => hb (CompiledGraph.mem_around_iff.1 h)]

/-- A loop that ends is emptied. -/
theorem emptied_finishLoop (s : RequestState) (l : LoopId) :
    Emptied g l (s.finishLoop g l).1 := by
  refine ⟨fun n hn => renewed_of_enclosing hn _, fun d hd => ?_⟩
  rw [finishLoop_loops]
  by_cases heq : d = l
  · rw [if_pos heq]
    exact ⟨rfl, rfl⟩
  · rw [if_neg heq, if_pos (CompiledGraph.mem_around_iff.2 (hd.resolve_left heq))]
    exact ⟨rfl, rfl⟩

/-- A completion in an outermost loop that is not over. -/
theorem closes_entityCompleted (hr : (g.lp r).parent = none) (k : ℕ)
    (hl : l = r ∨ g.Below l r) (hlt : l < g.loops.length) (out own : List RoutedEdge) (stride : ℕ)
    (hgoing : (s.loops r).done = false) :
    Closes g r s (entityCompleted g k l out own stride s).1 := by
  induction k generalizing l out own stride s with
  | zero => exact ⟨⟨fun _ _ => rfl, fun _ _ _ => rfl⟩, .inl ⟨hgoing, rfl⟩⟩
  | succ k ih =>
    have hcaches := caches_cacheOutputs (u := 0) hlt s own
    have hcached := within_cacheOutputs hl hlt s own
    have hprogress := progress_cacheOutputs (g := g) s l own
    set s₁ := s.cacheOutputs g l own
    have hdone₁ : ∀ d, (s₁.loops d).done = (s.loops d).done := by
      intro d
      by_cases hd : d = l
      · obtain ⟨c, a, hsame⟩ := hcaches.same
        rw [hd, hsame]
      · rw [hcaches.other d hd]
    have hcount (n : ℕ) : ((s₁.setLoop l { s₁.loops l with completedEntities := n }).loops r).done =
        false := by
      by_cases hrl : r = l
      · rw [hrl, setLoop_loops_self]
        exact (hdone₁ l).trans (hrl ▸ hgoing)
      · rw [setLoop_loops_of_ne _ hrl]
        exact (hdone₁ r).trans hgoing
    have hcounted (n : ℕ) := hcached.trans (within_setLoop hl s₁
      { s₁.loops l with completedEntities := n })
    unfold entityCompleted
    dsimp only
    split
    · exact ⟨hcounted _, .inl ⟨hcount _, hprogress⟩⟩
    · have hgoing₂ := hcount 0
      have hwithin₂ := hcounted 0
      set s₂ := s₁.setLoop l { s₁.loops l with completedEntities := 0 }
      split
      · have hfinished := hwithin₂.trans (within_finishLoop hl s₂)
        have hprogress₃ : (s₂.finishLoop g l).1.progress = s.progress :=
          (progress_finishLoop s₂ l).trans hprogress
        split
        · next hp =>
          obtain rfl : l = r := hl.resolve_right (not_below_of_root hp)
          refine ⟨hfinished.trans ?_, .inr ⟨?_, progress_rootEntityDone hprogress₃, ?_⟩⟩
          · unfold rootEntityDone
            split <;> exact ⟨fun _ _ => rfl, fun _ _ _ => rfl⟩
          · have hloops : ((s₂.finishLoop g l).1.rootEntityDone g).loops =
                (s₂.finishLoop g l).1.loops := by
              unfold rootEntityDone
              split <;> rfl
            rw [hloops, finishLoop_loops, if_pos rfl]
          · have hempty := emptied_finishLoop (g := g) s₂ l
            unfold rootEntityDone
            split <;> exact ⟨hempty.nodes, hempty.caches⟩
        · next p hp =>
          have hlr : g.Below l r := hl.resolve_left fun heq => by
            rw [heq, hr] at hp
            exact absurd hp (by simp)
          have hpr : p = r ∨ g.Below p r := by
            obtain ⟨q, hq, hqr⟩ := Relation.TransGen.head'_iff.1 hlr
            obtain rfl : q = p := Option.some.inj (hq.symm.trans hp)
            exact (Relation.reflTransGen_iff_eq_or_transGen.1 hqr).imp_left Eq.symm
          have hgoing₃ : ((s₂.finishLoop g l).1.loops r).done = false := by
            have hne : r ≠ l := by
              intro heq
              rw [← heq] at hlr
              exact not_below_self r hlr
            rw [finishLoop_loops, if_neg hne, if_neg fun h =>
              not_below_of_root hr (CompiledGraph.mem_around_iff.1 h)]
            exact hgoing₂
          obtain ⟨hwithin, houtcome⟩ := ih hpr (parent_lt_length hp)
            (dropLoopBack g l (out ++ own)) (s₂.finishLoop g l).2 1 hgoing₃
          refine ⟨hfinished.trans hwithin, houtcome.imp (fun h => ⟨h.1, h.2.trans hprogress₃⟩)
            fun h => ⟨h.1, h.2.1.trans (progress_rootEntityDone hprogress₃), h.2.2⟩⟩
      · refine ⟨hwithin₂.trans (within_advanceLoop hl s₂ stride), .inl ⟨?_, ?_⟩⟩
        · rw [advanceLoop_loops]
          split
          · next heq =>
            rw [heq] at hgoing₂
            exact hgoing₂
          · rw [if_neg fun h => not_below_of_root hr (CompiledGraph.mem_around_iff.1 h)]
            exact hgoing₂
        · exact (progress_advanceLoop s₂ l stride).trans hprogress

end RequestState

namespace RequestState

variable {g : CompiledGraph} {s s' : RequestState} {n : NodeId} {u : ℕ}

/-- A node's part in the pass is over: the node outside all loops, or the
outermost loop around it. -/
def Over (g : CompiledGraph) (s : RequestState) (n : NodeId) : Prop :=
  (g.loopId n = none ∧ (s.nodes n).completed = true) ∨
    ∃ r ∈ g.enclosing n, (g.lp r).parent = none ∧ (s.loops r).done = true

instance (g : CompiledGraph) (s : RequestState) (n : NodeId) : Decidable (s.Over g n) :=
  inferInstanceAs (Decidable ((g.loopId n = none ∧ (s.nodes n).completed = true) ∨
    ∃ r ∈ g.enclosing n, (g.lp r).parent = none ∧ (s.loops r).done = true))

/-- How many nodes outside all loops and outermost loops are over. -/
def overCount (g : CompiledGraph) (s : RequestState) : ℕ :=
  g.rootNodes.countP (fun n => (s.nodes n).completed) + g.rootLoops.countP fun l => (s.loops l).done

/-- What is over holds nothing, and the walk is done when all of it is over. -/
structure Rests (g : CompiledGraph) (s : RequestState) : Prop where
  counted : s.isDone = false → s.rootCompleted = s.overCount g
  ended : s.isDone = true → s.overCount g = g.nRootEntities
  /-- Nothing waits for another iteration of what has none. -/
  next : ∀ n, g.loopId n = none → ∀ u, (s.nodes n).next.refs (g.ownMask n) u = 0
  nodes : ∀ n < g.nodes.length, s.Over g n → ∀ u, nodeRefs g n (s.nodes n) u = 0
  caches : ∀ r, (g.lp r).parent = none → (s.loops r).done = true → ∀ l, l = r ∨ g.Below l r →
    (s.loops l).cached = [] ∧ (s.loops l).accum = []

/-- The nodes outside all loops. -/
theorem mem_rootNodes : n ∈ g.rootNodes ↔ n < g.nodes.length ∧ g.loopId n = none := by
  unfold CompiledGraph.rootNodes
  simp

/-- And the outermost loops. -/
theorem mem_rootLoops {l : LoopId} :
    l ∈ g.rootLoops ↔ l < g.loops.length ∧ (g.lp l).parent = none := by
  unfold CompiledGraph.rootLoops
  simp

/-- In a walk that is done every node's part is over, and every outermost loop. -/
theorem Rests.over (h : Rests g s) (hdone : s.isDone = true) :
    (∀ n < g.nodes.length, s.Over g n) ∧
      ∀ r < g.loops.length, (g.lp r).parent = none → (s.loops r).done = true := by
  have hcount := h.ended hdone
  unfold overCount CompiledGraph.nRootEntities at hcount
  have hnodes := List.countP_le_length (p := fun n => (s.nodes n).completed) (l := g.rootNodes)
  have hloops := List.countP_le_length (p := fun l => (s.loops l).done) (l := g.rootLoops)
  have hall := List.countP_eq_length.1 (Nat.le_antisymm hnodes (by omega))
  have hall' := List.countP_eq_length.1 (Nat.le_antisymm hloops (by omega))
  refine ⟨fun n hn => ?_, fun r hr hp => hall' r (mem_rootLoops.2 ⟨hr, hp⟩)⟩
  cases hl : g.loopId n with
  | none => exact .inl ⟨hl, hall n (mem_rootNodes.2 ⟨hn, hl⟩)⟩
  | some l =>
    obtain ⟨r, hr, hp, hin⟩ := exists_root (CompiledGraph.loopId_lt_length hl)
    exact .inr ⟨r, mem_enclosing_iff.2 ⟨l, hl, hin.imp_left Eq.symm⟩, hp,
      hall' r (mem_rootLoops.2 ⟨hr, hp⟩)⟩

/-- A walk that is done holds nothing. -/
theorem Rests.holds_eq_zero (h : Rests g s) (hdone : s.isDone = true) (u : ℕ) :
    holds g s u = 0 := by
  obtain ⟨hnodes, hloops⟩ := h.over hdone
  have hcaches (l : LoopId) (hl : l < g.loops.length) :
      (s.loops l).cached = [] ∧ (s.loops l).accum = [] := by
    obtain ⟨r, hr, hp, hin⟩ := exists_root hl
    exact h.caches r hp (hloops r hr hp) l (hin.imp_left Eq.symm)
  have hslots : slotRefs g s u = 0 := Finset.sum_eq_zero fun n hn =>
    h.nodes n (Finset.mem_range.1 hn) (hnodes n (Finset.mem_range.1 hn)) u
  have haccum : accumRefs g s u = 0 := Finset.sum_eq_zero fun l hl => by
    rw [(hcaches l (Finset.mem_range.1 hl)).2]
    rfl
  have hcached : cachedRefs g s u = 0 := Finset.sum_eq_zero fun l hl => by
    rw [(hcaches l (Finset.mem_range.1 hl)).1]
    rfl
  unfold holds
  omega

/-- A walk in which nothing arrived and nothing is over. -/
theorem Rests.blank (hcount : s.rootCompleted = 0) (hdone : s.isDone = false)
    (hnodes : ∀ n, s.nodes n = .new) (hloops : ∀ l, (s.loops l).done = false) : Rests g s where
  counted _ := by
    unfold overCount
    rw [hcount, List.countP_eq_zero.2 fun n _ => by simp [hnodes, NodeState.new],
      List.countP_eq_zero.2 fun l _ => by simp [hloops]]
  ended h := absurd (hdone.symm.trans h) (by simp)
  next n _ u := by
    rw [hnodes]
    exact Slot.new_refs _ u
  nodes n _ hover u := by
    rw [hnodes]
    unfold nodeRefs NodeState.new
    simp
  caches r _ h := absurd ((hloops r).symm.trans h) (by simp)

/-- Where no more arrives at what is over, and nothing outside all loops waits
for another iteration. -/
theorem Rests.of_same (h : Rests g s) (hprogress : s'.progress = s.progress)
    (hloops : ∀ l, (s'.loops l).done = (s.loops l).done ∧
      (s'.loops l).cached = (s.loops l).cached ∧ (s'.loops l).accum = (s.loops l).accum)
    (hcompleted : ∀ n, (s'.nodes n).completed = (s.nodes n).completed)
    (hnext : ∀ n, g.loopId n = none → ∀ u,
      (s'.nodes n).next.refs (g.ownMask n) u = (s.nodes n).next.refs (g.ownMask n) u)
    (hnodes : ∀ n, s.Over g n → ∀ u,
      nodeRefs g n (s'.nodes n) u ≤ nodeRefs g n (s.nodes n) u) : Rests g s' := by
  obtain ⟨hroots, hdone⟩ := Prod.mk.inj hprogress
  have hcount : s'.overCount g = s.overCount g := by
    unfold overCount
    simp only [hcompleted, (hloops _).1]
  have hover {n : NodeId} (ho : s'.Over g n) : s.Over g n := by
    unfold Over at ho ⊢
    simpa only [hcompleted, (hloops _).1] using ho
  refine ⟨fun hd => ?_, fun hd => ?_, fun n hn u => ?_, fun n hn ho u => ?_, fun r hp hd l hl => ?_⟩
  · rw [hroots, hcount]
    exact h.counted (hdone ▸ hd)
  · rw [hcount]
    exact h.ended (hdone ▸ hd)
  · rw [hnext n hn]
    exact h.next n hn u
  · exact Nat.le_zero.1 ((hnodes n (hover ho) u).trans (h.nodes n hn (hover ho) u).le)
  · rw [(hloops l).2.1, (hloops l).2.2]
    exact h.caches r hp ((hloops r).1 ▸ hd) l hl

/-- Where no slot and no cache changes. -/
theorem Rests.of_sameHolds (h : Rests g s) (hs : SameHolds s s')
    (hprogress : s'.progress = s.progress) (hdone : ∀ l, (s'.loops l).done = (s.loops l).done)
    (hcompleted : ∀ n, (s'.nodes n).completed = (s.nodes n).completed) : Rests g s' := by
  refine h.of_same hprogress (fun l => ⟨hdone l, hs.cached_eq l, hs.accum_eq l⟩) hcompleted
    (fun n _ u => by rw [hs.next_eq]) fun n _ u => ?_
  unfold nodeRefs
  rw [hs.cur_eq, hs.next_eq]

/-- A node's state changed so that no more is in it. -/
theorem Rests.setNode (h : Rests g s) {st : NodeState}
    (hnodes : s'.nodes = Function.update s.nodes n st) (hloops : s'.loops = s.loops)
    (hprogress : s'.progress = s.progress) (hcompleted : st.completed = (s.nodes n).completed)
    (hnext : st.next = (s.nodes n).next)
    (hcur : ∀ u, st.cur.refs (g.ownMask n) u ≤ (s.nodes n).cur.refs (g.ownMask n) u) :
    Rests g s' := by
  have hnode {P : NodeId → NodeState → Prop} (hself : P n st) (hother : ∀ d, P d (s.nodes d))
      (d : NodeId) : P d (s'.nodes d) := by
    rw [hnodes]
    by_cases hd : d = n
    · rw [hd, Function.update_self]
      exact hself
    · rw [Function.update_of_ne hd]
      exact hother d
  refine h.of_same hprogress (fun l => by rw [hloops]; exact ⟨rfl, rfl, rfl⟩)
    (hnode (P := fun d st => st.completed = (s.nodes d).completed) hcompleted fun _ => rfl)
    (hnode (P := fun d st => g.loopId d = none → ∀ u,
      st.next.refs (g.ownMask d) u = (s.nodes d).next.refs (g.ownMask d) u)
      (fun _ _ => by rw [hnext]) fun _ _ _ => rfl)
    (hnode (P := fun d st => s.Over g d → ∀ u, nodeRefs g d st u ≤ nodeRefs g d (s.nodes d) u)
      (fun _ u => ?_) fun _ _ _ => le_rfl)
  unfold nodeRefs
  rw [hnext]
  exact Nat.add_le_add_right (hcur u) _

/-- A loop's state changed outside its caches and its end. -/
theorem Rests.setLoop (h : Rests g s) {l : LoopId} {st : LoopState}
    (hcached : st.cached = (s.loops l).cached) (haccum : st.accum = (s.loops l).accum)
    (hext : st.extInputs = (s.loops l).extInputs) (hdone : st.done = (s.loops l).done) :
    Rests g (s.setLoop l st) := by
  refine h.of_sameHolds (.setLoop s hcached haccum hext) rfl (fun d => ?_) fun _ => rfl
  by_cases hd : d = l
  · subst hd
    rw [setLoop_loops_self]
    exact hdone
  · rw [setLoop_loops_of_ne _ hd]

/-- A tensor may arrive at an input: no loop holds it, the node's part is not
over, and outside all loops the input is free. -/
def TakesIn (g : CompiledGraph) (s : RequestState) (node : NodeId) (slot : ℕ)
    (t : List TensorRef) : Prop :=
  t ≠ [] → slot ∉ g.heldMask node ∧ ¬ s.Over g node ∧
    (g.loopId node = none → (s.nodes node).cur.has slot = false)

instance (g : CompiledGraph) (s : RequestState) (node : NodeId) (slot : ℕ) (t : List TensorRef) :
    Decidable (s.TakesIn g node slot t) :=
  inferInstanceAs (Decidable (t ≠ [] → slot ∉ g.heldMask node ∧ ¬ s.Over g node ∧
    (g.loopId node = none → (s.nodes node).cur.has slot = false)))

/-- Where an input lands: in the next slot only if the current one is full. -/
theorem land_kept {st st' : NodeState} {slot : ℕ} {t : List TensorRef} {canBuffer fin : Bool}
    (h : land st slot t canBuffer fin = some st') : st'.completed = st.completed ∧
      ((t ≠ [] → st.cur.has slot = false) → ∀ slots u,
        st'.next.refs slots u = st.next.refs slots u) := by
  unfold land at h
  split at h
  · obtain rfl := Option.some.inj h
    exact ⟨rfl, fun _ _ _ => rfl⟩
  · next hcur =>
    split at h
    · next hnext =>
      obtain rfl := Option.some.inj h
      refine ⟨rfl, fun ht slots u => ?_⟩
      obtain rfl : t = [] := by
        by_contra hne
        exact hcur (ht hne)
      rw [Slot.set_refs _ _ _ hnext.2]
      simp
    · exact absurd h (by simp)

/-- An input that arrives where it may. -/
theorem Rests.ingest (h : Rests g s) {node : NodeId} {slot : ℕ} {t : List TensorRef}
    {canBuffer fin : Bool} (hin : s.ingest g node slot t canBuffer fin = some s')
    (ht : s.TakesIn g node slot t) : Rests g s' := by
  have hsteady := (steady_ingest hin).1
  obtain ⟨st, hland, hnodes⟩ : ∃ st, land (s.nodes node) slot t canBuffer fin = some st ∧
      s'.nodes = Function.update s.nodes node st := by
    unfold RequestState.ingest at hin
    cases hland : land (s.nodes node) slot t canBuffer fin with
    | none =>
      rw [hland] at hin
      exact absurd hin (by simp)
    | some st =>
      rw [hland] at hin
      obtain rfl := Option.some.inj hin
      exact ⟨st, rfl, (saves_recordExternal (s.setNode node st) node _ t).nodes_eq⟩
  obtain ⟨hcompleted, hnext⟩ := land_kept hland
  have hnode {P : NodeId → NodeState → Prop} (hself : P node st) (hother : ∀ n, P n (s.nodes n))
      (n : NodeId) : P n (s'.nodes n) := by
    rw [hnodes]
    by_cases hn : n = node
    · rw [hn, Function.update_self]
      exact hself
    · rw [Function.update_of_ne hn]
      exact hother n
  refine h.of_same hsteady.progress (fun l => ?_) ?_ ?_ ?_
  · rw [hsteady.loops]
    exact ⟨rfl, rfl, rfl⟩
  · exact hnode (P := fun n st => st.completed = (s.nodes n).completed) hcompleted fun _ => rfl
  · exact hnode (P := fun n st => g.loopId n = none → ∀ u,
      st.next.refs (g.ownMask n) u = (s.nodes n).next.refs (g.ownMask n) u)
      (fun hl => hnext (fun hne => (ht hne).2.2 hl) _) fun _ _ _ => rfl
  · refine hnode (P := fun n st => s.Over g n → ∀ u,
      nodeRefs g n st u ≤ nodeRefs g n (s.nodes n) u) (fun hover u => ?_) fun _ _ _ => le_rfl
    obtain rfl : t = [] := by
      by_contra hne
      exact (ht hne).2.1 hover
    rw [(land_spec node hland).1]
    simp

/-- One more of some entities is over. -/
theorem countP_add_one {xs : List ℕ} (hnodup : xs.Nodup) {a : ℕ} (ha : a ∈ xs) {p q : ℕ → Bool}
    (hsame : ∀ b ∈ xs, b ≠ a → q b = p b) (hp : p a = false) (hq : q a = true) :
    xs.countP q = xs.countP p + 1 := by
  have hperm := List.perm_cons_erase ha
  have hrest : (xs.erase a).countP q = (xs.erase a).countP p :=
    List.countP_congr fun b hb => by
      rw [hsame b (List.mem_of_mem_erase hb) ((List.Nodup.mem_erase_iff hnodup).1 hb).1]
  rw [hperm.countP_eq, hperm.countP_eq, List.countP_cons, List.countP_cons, hrest, hp, hq]
  simp

/-- One more entity is over, and counted. -/
theorem Rests.counts (h : Rests g s) (hgoing : s.isDone = false)
    (hprogress : s'.progress = (s.rootEntityDone g).progress)
    (hcount : s'.overCount g = s.overCount g + 1) :
    (s'.isDone = false → s'.rootCompleted = s'.overCount g) ∧
      (s'.isDone = true → s'.overCount g = g.nRootEntities) := by
  unfold rootEntityDone at hprogress
  rw [hgoing] at hprogress
  obtain ⟨hroots, hdone⟩ := Prod.mk.inj hprogress
  have hold := h.counted hgoing
  refine ⟨fun _ => ?_, fun hd => ?_⟩
  · rw [hroots, hcount, ← hold]
    rfl
  · rw [hdone] at hd
    rw [hcount, ← hold]
    exact beq_iff_eq.1 hd

/-- A node outside all loops completes. -/
theorem Rests.completeRoot (h : Rests g s) (hn : n < g.nodes.length) (hl : g.loopId n = none)
    (hgoing : s.isDone = false) (hopen : (s.nodes n).completed = false)
    (hnodes : s'.nodes = Function.update s.nodes n
      { s.nodes n with completed := true, cur := (s.nodes n).cur.clear })
    (hloops : s'.loops = s.loops) (hprogress : s'.progress = (s.rootEntityDone g).progress) :
    Rests g s' := by
  have hself : s'.nodes n = { s.nodes n with completed := true, cur := (s.nodes n).cur.clear } := by
    rw [hnodes, Function.update_self]
  have hother {d : NodeId} (hd : d ≠ n) : s'.nodes d = s.nodes d := by
    rw [hnodes, Function.update_of_ne hd]
  have hcount : s'.overCount g = s.overCount g + 1 := by
    have hone : g.rootNodes.countP (fun d => (s'.nodes d).completed) =
        g.rootNodes.countP (fun d => (s.nodes d).completed) + 1 :=
      countP_add_one (List.Nodup.filter _ List.nodup_range) (mem_rootNodes.2 ⟨hn, hl⟩)
        (fun d _ hd => by rw [hother hd]) hopen (by rw [hself])
    unfold overCount
    rw [hone, hloops]
    omega
  obtain ⟨hcounted, hended⟩ := h.counts hgoing hprogress hcount
  refine ⟨hcounted, hended, fun d hd u => ?_, fun d hd hover u => ?_, ?_⟩
  · by_cases heq : d = n
    · rw [heq, hself]
      exact h.next n hl u
    · rw [hother heq]
      exact h.next d hd u
  · by_cases heq : d = n
    · rw [heq, hself]
      unfold nodeRefs
      dsimp only
      rw [Slot.clear_refs, h.next n hl u]
    · rw [hother heq]
      refine h.nodes d hd ?_ u
      unfold Over at hover ⊢
      rwa [hother heq, hloops] at hover
  · rw [hloops]
    exact h.caches

/-- A node in a loop completes. -/
theorem Rests.closes (h : Rests g s) {r : LoopId} (hr : (g.lp r).parent = none)
    (hrlt : r < g.loops.length) (hn : r ∈ g.enclosing n) (hgoing : s.isDone = false)
    (hopen : (s.loops r).done = false)
    (hc : Closes g r (s.setNode n { s.nodes n with completed := true }) s') : Rests g s' := by
  have hother {d : NodeId} (hd : r ∉ g.enclosing d) : s'.nodes d = s.nodes d := by
    have hne : d ≠ n := by
      rintro rfl
      exact hd hn
    rw [hc.within.nodes d hd]
    exact Function.update_of_ne hne _ _
  have houtside {d : NodeId} (hd : g.loopId d = none) : r ∉ g.enclosing d := fun hmem => by
    obtain ⟨m, hm, _⟩ := mem_enclosing_iff.1 hmem
    rw [hd] at hm
    exact absurd hm (by simp)
  have hroots : g.rootNodes.countP (fun d => (s'.nodes d).completed) =
      g.rootNodes.countP fun d => (s.nodes d).completed :=
    List.countP_congr fun d hd => by rw [hother (houtside (mem_rootNodes.1 hd).2)]
  have hloops {d : LoopId} (hd : (g.lp d).parent = none) (hne : d ≠ r) :
      s'.loops d = s.loops d := hc.within.loops d hne (not_below_of_root hd)
  -- what is over outside the loop was over before
  have hover {d : NodeId} (hd : s'.Over g d) :
      (r ∉ g.enclosing d ∧ s.Over g d) ∨ ((s'.loops r).done = true ∧ r ∈ g.enclosing d) := by
    rcases hd with ⟨hl, hcompleted⟩ | ⟨q, hq, hp, hdone⟩
    · exact .inl ⟨houtside hl, .inl ⟨hl, by rwa [hother (houtside hl)] at hcompleted⟩⟩
    · by_cases hqr : q = r
      · exact .inr ⟨hqr ▸ hdone, hqr ▸ hq⟩
      · refine .inl ⟨fun hmem => hqr ?_, .inr ⟨q, hq, hp, by rwa [hloops hp hqr] at hdone⟩⟩
        obtain ⟨m, hm, hin⟩ := mem_enclosing_iff.1 hq
        obtain ⟨m', hm', hin'⟩ := mem_enclosing_iff.1 hmem
        obtain rfl := Option.some.inj (hm.symm.trans hm')
        exact root_unique hin hin' hp hr
  have hnext (d : NodeId) (hd : g.loopId d = none) (u : ℕ) :
      (s'.nodes d).next.refs (g.ownMask d) u = 0 := by
    rw [hother (houtside hd)]
    exact h.next d hd u
  have hcaches {q : LoopId} (hp : (g.lp q).parent = none) (hqr : q ≠ r)
      (hdone : (s'.loops q).done = true) {l : LoopId} (hl : l = q ∨ g.Below l q) :
      (s'.loops l).cached = [] ∧ (s'.loops l).accum = [] := by
    rw [hc.within.loops l]
    · exact h.caches q hp (by rwa [hloops hp hqr] at hdone) l hl
    · rintro rfl
      exact hqr (root_unique hl (.inl rfl) hp hr)
    · exact fun hb => hqr (root_unique hl (.inr hb) hp hr)
  rcases hc.outcome with ⟨hstill, hprogress⟩ | ⟨hdone, hprogress, hempty⟩
  · have hcount : s'.overCount g = s.overCount g := by
      have hsame : g.rootLoops.countP (fun d => (s'.loops d).done) =
          g.rootLoops.countP fun d => (s.loops d).done := by
        refine List.countP_congr fun d hd => ?_
        by_cases hdr : d = r
        · rw [hdr, hstill, hopen]
        · rw [hloops (mem_rootLoops.1 hd).2 hdr]
      unfold overCount
      rw [hroots, hsame]
    obtain ⟨hsame, hgoing'⟩ := Prod.mk.inj hprogress
    refine ⟨fun _ => ?_, fun hd => ?_, hnext, fun d hd ho u => ?_, fun q hp hq l hl => ?_⟩
    · rw [hsame, hcount]
      exact h.counted hgoing
    · exact absurd ((hgoing'.trans hgoing).symm.trans hd) (by simp)
    · obtain ⟨hout, ho⟩ := (hover ho).resolve_right fun hx => by
        rw [hstill] at hx
        exact absurd hx.1 (by simp)
      rw [hother hout]
      exact h.nodes d hd ho u
    · refine hcaches hp ?_ hq hl
      rintro rfl
      rw [hstill] at hq
      exact absurd hq (by simp)
  · have hcount : s'.overCount g = s.overCount g + 1 := by
      have hone : g.rootLoops.countP (fun d => (s'.loops d).done) =
          g.rootLoops.countP (fun d => (s.loops d).done) + 1 :=
        countP_add_one (List.Nodup.filter _ List.nodup_range) (mem_rootLoops.2 ⟨hrlt, hr⟩)
          (fun d hd hdr => by rw [hloops (mem_rootLoops.1 hd).2 hdr]) hopen hdone
      unfold overCount
      rw [hone, hroots]
      omega
    obtain ⟨hcounted, hended⟩ :=
      h.counts hgoing (hprogress.trans (progress_rootEntityDone rfl)) hcount
    refine ⟨hcounted, hended, hnext, fun d hd ho u => ?_, fun q hp hq l hl => ?_⟩
    · rcases hover ho with ⟨hout, ho⟩ | ⟨_, hin⟩
      · rw [hother hout]
        exact h.nodes d hd ho u
      · rw [hempty.nodes d hin]
        unfold nodeRefs NodeState.new
        simp
    · by_cases hqr : q = r
      · exact hempty.caches l (hqr ▸ hl)
      · exact hcaches hp hqr hq hl

/-- A node completes whose part is not over. -/
theorem Rests.complete (h : Rests g s) (hn : n < g.nodes.length) (hover : ¬ s.Over g n)
    (outTensors : List (List TensorRef)) (stride : ℕ) :
    Rests g (s.completeStrided g n outTensors stride).2 := by
  have hgoing : s.isDone = false := by
    by_contra hdone
    exact hover ((h.over (by simpa using hdone)).1 n hn)
  obtain ⟨times, heq⟩ := completeStrided_eq (g := g) s n outTensors stride
  rw [heq]
  suffices hrest : Rests g (s.cascaded g n outTensors stride).1 from
    ⟨hrest.counted, hrest.ended, hrest.next, hrest.nodes, hrest.caches⟩
  unfold cascaded cascade markCompleted
  cases hl : g.loopId n with
  | none =>
    have hopen : (s.nodes n).completed = false := by
      by_contra hcompleted
      exact hover (.inl ⟨hl, by simpa using hcompleted⟩)
    dsimp only
    refine h.completeRoot hn hl hgoing hopen ?_ ?_ ?_
    · unfold rootEntityDone
      split <;> rfl
    · unfold rootEntityDone
      split <;> rfl
    · exact progress_rootEntityDone rfl
  | some l =>
    have hlt := CompiledGraph.loopId_lt_length hl
    obtain ⟨r, hrlt, hr, hin⟩ := exists_root hlt
    have hmem : r ∈ g.enclosing n := mem_enclosing_iff.2 ⟨l, hl, hin.imp_left Eq.symm⟩
    have hopen : (s.loops r).done = false := by
      by_contra hdone
      exact hover (.inr ⟨r, hmem, hr, by simpa using hdone⟩)
    have hcloses := closes_entityCompleted (s := (s.setNode n
      { s.nodes n with completed := true }).refreshReady g n) hr g.loops.length
      (hin.imp_left Eq.symm) hlt [] (nodeOutputs g n outTensors) stride hopen
    dsimp only
    exact h.closes hr hrlt hmem hgoing hopen
      ⟨⟨hcloses.within.nodes, hcloses.within.loops⟩, hcloses.outcome.imp
        (fun h => ⟨h.1, h.2⟩) fun h => ⟨h.1, h.2.1.trans (progress_rootEntityDone rfl), h.2.2⟩⟩

end RequestState

end Mstar.Walk
