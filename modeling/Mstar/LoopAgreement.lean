import Mathlib.Data.List.Perm.Subperm
import Mathlib.Data.List.Nodup
import Mstar.LoopCaches

/-!
# The walk's loops and the loops asked for

The counters and caches of a walk agree with the productions its loops are
asked to keep. An entity that completes is counted in its loop, and a loop
that turns starts everything nested in it over as new, because all of that
had already completed.
-/

namespace Mstar.Walk

open Shard (Sym TensorRef)
open CompiledGraph (mem_childLoops lt_length_of_parent loopId_lt_length mem_around_iff not_below_self)

/-- A list without repetition that stays within another covers it when it is
as long. -/
theorem covers_iff {α : Type} {xs ys : List α} (hxs : xs.Nodup) (hys : ys.Nodup)
    (hsub : ∀ x ∈ xs, x ∈ ys) : (∀ y ∈ ys, y ∈ xs) ↔ ys.length ≤ xs.length := by
  constructor
  · exact fun h => (hys.subperm h).length_le
  · intro h y hy
    exact ((hxs.subperm hsub).perm_of_length_le h).mem_iff.2 hy

namespace CompiledGraph

variable {g : CompiledGraph} {l : LoopId}

/-- An entity of the graph. -/
def Has (g : CompiledGraph) : Entity → Prop
  | .node n => n < g.nodes.length
  | .loop l => l < g.loops.length

/-- The loop that claims a node is its innermost one. -/
theorem loopId_eq_some {n : NodeId} : g.loopId n = some l ↔ n ∈ (g.lp l).memberNodes := by
  constructor
  · intro h
    unfold loopId at h
    simpa using List.find?_some h
  · intro h
    have hl : l < g.loops.length := by
      by_contra hl
      unfold lp at h
      rw [List.getD_eq_getElem?_getD, List.getElem?_eq_none (Nat.not_lt.1 hl)] at h
      exact absurd h (by simp [default])
    cases hf : g.loopId n with
    | none =>
      unfold loopId at hf
      rw [List.find?_eq_none] at hf
      exact absurd (hf l (List.mem_range.2 hl)) (by simpa using h)
    | some m =>
      unfold loopId at hf
      have hm : n ∈ (g.lp m).memberNodes := by simpa using List.find?_some hf
      rw [g.claimed_once m l n hm h]

/-- What has members is a loop. -/
theorem lt_length_of_scope {e : Entity} (h : g.scope e = some l) : l < g.loops.length := by
  cases e with
  | node n => exact loopId_lt_length h
  | loop c => exact parent_lt_length h

/-- The entities of a loop are those it is directly around. -/
theorem mem_entities {e : Entity} : e ∈ g.entities l ↔ g.scope e = some l := by
  unfold entities scope
  cases e with
  | node n => simp [loopId_eq_some]
  | loop c =>
    have hlt (h : (g.lp c).parent = some l) : c < g.loops.length := lt_length_of_parent h
    simp [mem_childLoops]
    exact hlt

/-- The root entities are those in no loop. -/
theorem mem_rootEntities {e : Entity} : e ∈ g.rootEntities ↔ g.Has e ∧ g.scope e = none := by
  unfold rootEntities rootNodes rootLoops Has scope
  cases e <;> simp

/-- The entities of a loop are counted. -/
theorem length_entities (l : LoopId) : (g.entities l).length = g.nEntities l := by
  unfold entities nEntities
  simp

/-- So are those outside all loops. -/
theorem length_rootEntities : g.rootEntities.length = g.nRootEntities := by
  unfold rootEntities nRootEntities
  simp

/-- Nodes and loops named once each. -/
theorem nodup_named {ns ls : List ℕ} (hn : ns.Nodup) (hl : ls.Nodup) :
    (ns.map Entity.node ++ ls.map Entity.loop).Nodup := by
  refine List.Nodup.append ?_ ?_ ?_
  · exact hn.map fun _ _ h => Entity.node.inj h
  · exact hl.map fun _ _ h => Entity.loop.inj h
  · intro e he he'
    obtain ⟨n, _, rfl⟩ := List.mem_map.1 he
    obtain ⟨m, _, hm⟩ := List.mem_map.1 he'
    exact Entity.noConfusion hm

/-- None of a loop's entities is twice. -/
theorem Checked.nodup_entities (h : g.Checked) (l : LoopId) : (g.entities l).Nodup :=
  nodup_named (h.members_nodup l) (List.nodup_range.filter _)

/-- Nor of those outside. -/
theorem nodup_rootEntities : g.rootEntities.Nodup :=
  nodup_named (List.nodup_range.filter _) (List.nodup_range.filter _)

/-- What is nested in a loop is one of its entities, or nested in one. -/
theorem child_of_below {d : LoopId} (h : g.Below d l) :
    ∃ c, (g.lp c).parent = some l ∧ (d = c ∨ g.Below d c) := by
  cases h with
  | single hp => exact ⟨d, hp, .inl rfl⟩
  | @tail c _ hb hp => exact ⟨c, hp, .inr hb⟩

/-- Every loop is in an outermost one, or is one. -/
theorem exists_root (hl : l < g.loops.length) :
    ∃ r < g.loops.length, (g.lp r).parent = none ∧ (r = l ∨ g.Below l r) := by
  obtain ⟨height, hlt, hup⟩ := g.nested
  have hdeep : ∀ k l, l < g.loops.length → g.loops.length ≤ height l + k →
      ∃ r < g.loops.length, (g.lp r).parent = none ∧ (r = l ∨ g.Below l r) := by
    intro k
    induction k with
    | zero =>
      intro l hl h
      have := (hlt l).resolve_right (Nat.not_le.2 hl)
      omega
    | succ k ih =>
      intro l hl h
      cases hp : (g.lp l).parent with
      | none => exact ⟨l, hl, hp, .inl rfl⟩
      | some p =>
        have := hup l p hp
        obtain ⟨r, hr, hroot, hin⟩ := ih p (parent_lt_length hp) (by omega)
        refine ⟨r, hr, hroot, .inr ?_⟩
        rcases hin with rfl | hin
        · exact .single hp
        · exact hin.head hp
  exact hdeep g.loops.length l hl (by omega)

end CompiledGraph

open CompiledGraph (Has mem_entities mem_rootEntities length_entities length_rootEntities
  nodup_rootEntities child_of_below exists_root)

namespace LoopNest

variable {g : CompiledGraph} {a : LoopNest} {l : LoopId}

/-- A loop has completed in the loop around it, or is about to be marked. -/
def Over (g : CompiledGraph) (a : LoopNest) (pending : Option LoopId) (l : LoopId) : Prop :=
  .loop l ∈ a.completedIn (g.scope (.loop l)) ∨ pending = some l

/-- The loop that is about to be marked complete in the one around it. -/
def pendingOf : Entity → Option LoopId
  | .node _ => none
  | .loop l => some l

/-- Only a loop is pending. -/
theorem pendingOf_eq_some {e : Entity} : pendingOf e = some l ↔ e = .loop l := by
  cases e <;> simp [pendingOf]

/-- Neither a loop nor one around it is over. -/
def Open (g : CompiledGraph) (a : LoopNest) (pending : Option LoopId) (l : LoopId) : Prop :=
  ∀ m, m = l ∨ g.Below l m → ¬ a.Over g pending m

/-- A production completes in its own scope. -/
theorem completedIn_mark (p : Production) (k : Option LoopId) :
    (a.mark g p).completedIn k = a.completedIn k ++ if k = g.scope p.1 then [p.1] else [] := by
  unfold mark completedIn
  cases hs : g.scope p.1 with
  | none => cases k <;> simp
  | some l =>
    cases k with
    | none => simp
    | some m =>
      by_cases hm : m = l
      · subst hm
        simp
      · simp [hm]

/-- A marked loop is over, and was to be. -/
theorem over_mark (p : Production) (m : LoopId) :
    (a.mark g p).Over g none m ↔ a.Over g (pendingOf p.1) m := by
  unfold Over
  rw [completedIn_mark, pendingOf_eq_some, List.mem_append]
  constructor
  · rintro ((h | h) | h)
    · exact .inl h
    · split at h
      · exact .inr (List.mem_singleton.1 h).symm
      · exact absurd h List.not_mem_nil
    · exact absurd h (by simp)
  · rintro (h | h)
    · exact .inl (.inl h)
    · rw [h, if_pos rfl]
      exact .inl (.inr (List.mem_singleton.2 rfl))

/-- A round is over when as many completed as the loop waits for. -/
theorem roundOver_iff (hg : g.Checked) (hnodup : (a.completedIn (some l)).Nodup)
    (hmembers : ∀ x ∈ a.completedIn (some l), g.scope x = some l) :
    a.RoundOver g l ↔ g.nEntities l ≤ (a.run l).round.length := by
  unfold RoundOver
  rw [covers_iff hnodup (hg.nodup_entities l) fun x hx => mem_entities.2 (hmembers x hx),
    length_entities]
  simp [completedIn]

/-- A pass is over when as many root entities completed as there are. -/
theorem passOver_iff (hnodup : a.roots.Nodup)
    (hmembers : ∀ x ∈ a.roots, g.Has x ∧ g.scope x = none) :
    a.PassOver g ↔ g.nRootEntities ≤ a.roots.length := by
  unfold PassOver
  rw [covers_iff hnodup nodup_rootEntities fun x hx => mem_rootEntities.2 (hmembers x hx),
    length_rootEntities]

/-- Where a loop is not over, and none around it, the pass is not. -/
theorem Open.not_passOver (h : a.Open g none l) (hl : l < g.loops.length) : ¬ a.PassOver g := by
  obtain ⟨r, hr, hroot, hin⟩ := exists_root hl
  intro hpass
  have hmem := hpass (.loop r) (mem_rootEntities.2 ⟨hr, hroot⟩)
  refine h r hin (.inl ?_)
  change Entity.loop r ∈ a.completedIn (g.lp r).parent
  rw [hroot]
  exact hmem

/-- What has completed in a loop that did not turn is as it was. -/
theorem completedIn_turn {r : LoopRun} (hr : r.round = []) (k : Option LoopId) :
    (a.turn g l r).completedIn k = [] ∧ (∃ m, k = some m ∧ (m = l ∨ g.Below m l)) ∨
      (a.turn g l r).completedIn k = a.completedIn k ∧ ∀ m, k = some m → m ≠ l ∧ ¬ g.Below m l := by
  unfold turn completedIn
  cases k with
  | none => exact .inr ⟨rfl, fun m hm => absurd hm (by simp)⟩
  | some m =>
    dsimp only
    by_cases hm : m = l
    · rw [if_pos hm, hr]
      exact .inl ⟨rfl, m, rfl, .inl hm⟩
    · rw [if_neg hm]
      by_cases hb : g.Below m l
      · rw [if_pos (mem_around_iff.2 hb)]
        exact .inl ⟨rfl, m, rfl, .inr hb⟩
      · rw [if_neg fun h => hb (mem_around_iff.1 h)]
        refine .inr ⟨rfl, fun d hd => ?_⟩
        obtain rfl := Option.some.inj hd
        exact ⟨hm, hb⟩

/-- What is nested in a loop that turned is over no more, and nothing else changed. -/
theorem over_turn {r : LoopRun} (hr : r.round = []) {pending : Option LoopId}
    (hpending : ∀ m, pending = some m → m = l) (m : LoopId) :
    (a.turn g l r).Over g pending m ↔
      (¬ g.Below m l ∧ a.Over g none m) ∨ pending = some m := by
  have hnone : a.Over g none m ↔ Entity.loop m ∈ a.completedIn (g.scope (.loop m)) := by
    unfold Over
    simp
  rw [hnone]
  unfold Over
  rcases completedIn_turn (g := g) (a := a) (l := l) hr (g.scope (.loop m)) with
    ⟨hempty, q, hq, hin⟩ | ⟨hsame, hout⟩
  · have hb : g.Below m l := by
      rcases hin with rfl | hin
      · exact .single hq
      · exact hin.head hq
    rw [hempty]
    simp [hb]
  · rw [hsame]
    have hb : ¬ g.Below m l := by
      intro hb
      obtain ⟨q, hq, hin⟩ := Relation.TransGen.head'_iff.1 hb
      have := hout q hq
      rcases Relation.reflTransGen_iff_eq_or_transGen.1 hin with h | h
      · exact this.1 h.symm
      · exact this.2 h
    simp [hb]

end LoopNest

end Mstar.Walk
