import Mathlib.Algebra.Order.Ring.Int
import Mathlib.Data.List.Nodup
import Mathlib.Data.List.Dedup
import Mathlib.Logic.Function.Basic

/-!
# Group templates and one request's instance of them

The conductor hands over the configured groups once; each request brings its
own assignment of workers to `(node, walk)` keys, and `instantiate` resolves
one against the other. The assignment is a hash map: the order in which its
keys are met is a parameter of the run.
-/

namespace Mstar.ShardSetup

variable {σ : Type*} [DecidableEq σ]

/-- `(node, graph_walk)`; no walk is the lookup of a streaming consumer. -/
abbrev NodeWalk (σ : Type*) := σ × Option σ

/-- A `(node, walk)` key of the assignment. -/
abbrev Key (σ : Type*) := σ × σ

/-- One group as configured, before it knows which workers a request uses. -/
structure GroupTemplate (σ : Type*) where
  nodes : List σ
  tpSize : ℕ
  /-- No list means every graph walk. -/
  graphWalks : Option (List σ)
  /-- This worker's rank in the group, once the conductor has set it. -/
  tpRank : Option ℕ
  deriving DecidableEq

/-- The deployment-wide config. -/
structure ShardingTemplate (σ : Type*) where
  groups : List (GroupTemplate σ)
  shardDim : σ → Option ℕ
  /-- The worker that holds this copy. -/
  me : σ

/-- A group bound to one request's workers. -/
structure Group (σ : Type*) where
  workers : List σ
  tpSize : ℕ
  tpRank : Option ℕ
  deriving DecidableEq

/-- Why an assignment is refused. -/
inductive ShardError (σ : Type*)
  /-- As many workers as `got` where the group has `tpSize`. -/
  | workerCount (got tpSize : ℕ)
  /-- Two groups claim a node on every walk. -/
  | duplicateStreamingGroup (node : σ)
  deriving DecidableEq

/-- `workers.len() as u32 == tp_size`: the length is compared in 32 bits. -/
def Counted (workers : List σ) (tpSize : ℕ) : Prop := workers.length % 2 ^ 32 = tpSize

instance (workers : List σ) (tpSize : ℕ) : Decidable (Counted workers tpSize) :=
  inferInstanceAs (Decidable (_ = _))

/-- A group over these workers, if there are as many as it has ranks. -/
def Group.bind (workers : List σ) (tpSize : ℕ) (tpRank : Option ℕ) :
    Except (ShardError σ) (Group σ) :=
  if Counted workers tpSize then .ok ⟨workers, tpSize, tpRank⟩
  else .error (.workerCount workers.length tpSize)

/-- `node_to_workers`: every key once, in the order it was inserted. -/
structure NodeWorkers (σ : Type*) where
  entries : List (Key σ × List σ)
  nodup : (entries.map Prod.fst).Nodup

/-- The workers the conductor assigned to a key. -/
def NodeWorkers.get (m : NodeWorkers σ) (k : Key σ) : Option (List σ) :=
  m.entries.lookup k

/-- A key the request has. -/
def NodeWorkers.has (m : NodeWorkers σ) (k : Key σ) : Bool := (m.get k).isSome

/-- A node some key of the request is about. -/
def NodeWorkers.hasNode (m : NodeWorkers σ) (n : σ) : Bool :=
  m.entries.any fun e => e.1.1 = n

/-- A key the leftovers are grouped by, and the walks that share it. -/
abbrev Shared (σ : Type*) := (σ × List σ) × List σ

/-- The orders in which one process meets what its hash maps hold: the set of
walks, the assignment, and the leftovers by node and workers. -/
structure HashOrder (m : NodeWorkers σ) where
  walks : List σ
  entries : List (Key σ × List σ)
  regroup : List (Shared σ) → List (Shared σ)
  walks_nodup : walks.Nodup
  mem_walks : ∀ w, w ∈ walks ↔ ∃ n, m.has (n, w)
  entries_perm : entries.Perm m.entries
  regroup_perm : ∀ l, (regroup l).Perm l

/-- The groups bound so far and the lookups that lead to them. -/
structure Setup (σ : Type*) where
  groups : List (Group σ)
  /-- An index into the groups. -/
  mapping : NodeWalk σ → Option ℕ

/-- Nothing bound. -/
def Setup.empty : Setup σ := ⟨[], fun _ => none⟩

/-- A setup in the middle of one template, and the group it has bound. -/
structure Claim (σ : Type*) extends Setup σ where
  bound : Option ℕ

namespace GroupTemplate

/-- No list of walks: the group also answers streaming lookups. -/
def spansAll (t : GroupTemplate σ) : Bool := t.graphWalks.isNone

/-- The keys one template goes through, node by node. -/
def keys (t : GroupTemplate σ) (allWalks : List σ) : List (Key σ) :=
  t.nodes.flatMap fun node => (t.graphWalks.getD allWalks).map fun walk => (node, walk)

/-- The keys a template would claim, of those the request has. -/
def claims (t : GroupTemplate σ) (m : NodeWorkers σ) (k : Key σ) : Bool :=
  decide (k.1 ∈ t.nodes) && (t.graphWalks.all fun ws => decide (k.2 ∈ ws)) && m.has k

/-- The nodes whose streaming lookup it would answer: those of a group on every
walk, from the first node the request is about. -/
def streams (t : GroupTemplate σ) (m : NodeWorkers σ) (n : σ) : Bool :=
  t.spansAll && decide (n ∈ t.nodes.dropWhile fun n => !m.hasNode n)

/-- A template that claims some key of the request. -/
def binds (t : GroupTemplate σ) (m : NodeWorkers σ) : Bool :=
  m.entries.any fun e => t.claims m e.1

/-- A key with workers: it is checked, binds the group if nothing has, and
leads to the group. -/
def claimWorkers (t : GroupTemplate σ) (c : Claim σ) (k : Key σ) (workers : List σ) :
    Except (ShardError σ) (Claim σ) :=
  if Counted workers t.tpSize then
    match c.bound with
    | some i => .ok { c with mapping := Function.update c.mapping (k.1, some k.2) (some i) }
    | none => do
      let group ← Group.bind workers t.tpSize t.tpRank
      .ok
        { groups := c.groups ++ [group]
          mapping := Function.update c.mapping (k.1, some k.2) (some c.groups.length)
          bound := some c.groups.length }
  else .error (.workerCount workers.length t.tpSize)

/-- A node of a group on every walk: its streaming lookup leads to the group,
once the group is bound. -/
def claimStreaming (c : Claim σ) (node : σ) : Except (ShardError σ) (Claim σ) :=
  match c.bound with
  | none => .ok c
  | some i =>
    match c.mapping (node, none) with
    | some existing =>
      if existing ≠ i then .error (.duplicateStreamingGroup node)
      else .ok { c with mapping := Function.update c.mapping (node, none) (some i) }
    | none => .ok { c with mapping := Function.update c.mapping (node, none) (some i) }

/-- A key the template claims, if the request has it. -/
def claimEntry (t : GroupTemplate σ) (m : NodeWorkers σ) (c : Claim σ) (k : Key σ) :
    Except (ShardError σ) (Claim σ) :=
  match m.get k with
  | some workers => t.claimWorkers c k workers
  | none => .ok c

/-- One round of a template's two loops. -/
def claimKey (t : GroupTemplate σ) (m : NodeWorkers σ) (c : Claim σ) (k : Key σ) :
    Except (ShardError σ) (Claim σ) := do
  let c ← t.claimEntry m c k
  if t.spansAll then claimStreaming c k.1 else .ok c

/-- One template over the keys it goes through. -/
def claim (t : GroupTemplate σ) (m : NodeWorkers σ) (allWalks : List σ) (s : Setup σ) :
    Except (ShardError σ) (Setup σ) := do
  let c ← (t.keys allWalks).foldlM (t.claimKey m) { s with bound := none }
  .ok c.toSetup

end GroupTemplate

/-- What no template claimed, by node and workers, with the number of
different worker lists each node has there. -/
structure Leftovers (σ : Type*) where
  byNodeWorkers : List (Shared σ)
  walkCombos : σ → ℕ

namespace Leftovers

/-- Nothing met yet. -/
def empty : Leftovers σ := ⟨[], fun _ => 0⟩

/-- One key of the assignment, filed with those of its node and workers. -/
def add (mapping : NodeWalk σ → Option ℕ) (l : Leftovers σ) (e : Key σ × List σ) :
    Leftovers σ :=
  if (mapping (e.1.1, some e.1.2)).isSome then l
  else if l.byNodeWorkers.any fun g => g.1 = (e.1.1, e.2) then
    { l with
      byNodeWorkers := l.byNodeWorkers.map fun g =>
        if g.1 = (e.1.1, e.2) then (g.1, g.2 ++ [e.1.2]) else g }
  else
    { byNodeWorkers := l.byNodeWorkers ++ [((e.1.1, e.2), [e.1.2])]
      walkCombos := Function.update l.walkCombos e.1.1 (l.walkCombos e.1.1 + 1) }

/-- A singleton group for one node and workers; the streaming lookup leads
there too if the node's leftovers have one worker list. -/
def bindShared (combos : σ → ℕ) (s : Setup σ) (g : Shared σ) :
    Except (ShardError σ) (Setup σ) := do
  let group ← Group.bind g.1.2 1 (some 0)
  let idx := s.groups.length
  let mapping := g.2.foldl
    (fun mapping walk => Function.update mapping (g.1.1, some walk) (some idx)) s.mapping
  .ok
    { groups := s.groups ++ [group]
      mapping :=
        if combos g.1.1 = 1 then Function.update mapping (g.1.1, none) (some idx)
        else mapping }

end Leftovers

/-- One request's resolved sharding. -/
structure ShardMap (σ : Type*) where
  groups : List (Group σ)
  groupMapping : NodeWalk σ → Option ℕ
  shardDim : σ → Option ℕ
  me : σ

/-- The group of a node on a walk, or of a streaming lookup. -/
def ShardMap.groupOf (r : ShardMap σ) (node : σ) (walk : Option σ) : Option (Group σ) :=
  (r.groupMapping (node, walk)).bind fun i => r.groups[i]?

namespace ShardingTemplate

/-- The configured groups claim their nodes in turn. -/
def claimAll (ts : List (GroupTemplate σ)) (m : NodeWorkers σ) (allWalks : List σ) :
    Except (ShardError σ) (Setup σ) :=
  ts.foldlM (fun s t => t.claim m allWalks s) Setup.empty

/-- What is left becomes singleton groups. -/
def singletons (m : NodeWorkers σ) (o : HashOrder m) (s : Setup σ) :
    Except (ShardError σ) (Setup σ) :=
  let left := o.entries.foldl (Leftovers.add s.mapping) Leftovers.empty
  (o.regroup left.byNodeWorkers).foldlM (Leftovers.bindShared left.walkCombos) s

/-- The config resolved for one request, in one process' hash order. -/
def instantiate (config : ShardingTemplate σ) (m : NodeWorkers σ) (o : HashOrder m) :
    Except (ShardError σ) (ShardMap σ) := do
  let s ← claimAll config.groups m o.walks
  let s ← singletons m o s
  .ok ⟨s.groups, s.mapping, config.shardDim, config.me⟩

end ShardingTemplate

namespace NodeWorkers

/-- The keys are distinct, so a lookup is a membership. -/
theorem lookup_eq_some {l : List (Key σ × List σ)} (hl : (l.map Prod.fst).Nodup)
    {k : Key σ} {ws : List σ} : l.lookup k = some ws ↔ (k, ws) ∈ l := by
  induction l with
  | nil => simp
  | cons e l ih =>
    simp only [List.map_cons, List.nodup_cons, List.mem_map, not_exists, not_and] at hl
    rw [List.lookup_cons]
    by_cases he : k = e.1
    · subst he
      simp only [BEq.rfl, Option.some.injEq, List.mem_cons, Prod.ext_iff, true_and]
      constructor
      · intro h
        exact Or.inl h.symm
      · rintro (h | h)
        · exact h.symm
        · exact absurd rfl (hl.1 (e.1, ws) h)
    · simp only [beq_eq_false_iff_ne.2 he, List.mem_cons, Prod.ext_iff, he, false_and,
        false_or]
      exact ih hl.2

/-- The workers of a key are its entry's. -/
theorem get_eq_some {m : NodeWorkers σ} {k : Key σ} {ws : List σ} :
    m.get k = some ws ↔ (k, ws) ∈ m.entries :=
  lookup_eq_some m.nodup

/-- A key is assigned where it has workers. -/
theorem has_iff {m : NodeWorkers σ} {k : Key σ} : m.has k ↔ ∃ ws, m.get k = some ws :=
  Option.isSome_iff_exists

/-- Else it has none. -/
theorem has_eq_false {m : NodeWorkers σ} {k : Key σ} : m.has k = false ↔ m.get k = none := by
  unfold has
  exact Option.isSome_eq_false_iff.trans Option.isNone_iff_eq_none

/-- A node is assigned where one of its keys is. -/
theorem hasNode_iff {m : NodeWorkers σ} {n : σ} : m.hasNode n ↔ ∃ w, m.has (n, w) := by
  simp only [hasNode, List.any_eq_true, decide_eq_true_eq, has_iff, get_eq_some]
  constructor
  · rintro ⟨⟨⟨node, w⟩, ws⟩, he, rfl⟩
    exact ⟨w, ws, he⟩
  · rintro ⟨w, ws, he⟩
    exact ⟨_, he, rfl⟩

/-- The order in which the keys were inserted is one a process may meet them
in. -/
def order (m : NodeWorkers σ) : HashOrder m where
  walks := (m.entries.map fun e => e.1.2).dedup
  entries := m.entries
  regroup := id
  walks_nodup := List.nodup_dedup _
  mem_walks := by
    intro w
    simp only [List.mem_dedup, List.mem_map, has_iff, get_eq_some]
    constructor
    · rintro ⟨⟨⟨n, w'⟩, ws⟩, he, rfl⟩
      exact ⟨n, ws, he⟩
    · rintro ⟨n, ws, he⟩
      exact ⟨_, he, rfl⟩
  entries_perm := List.Perm.refl _
  regroup_perm := fun _ => List.Perm.refl _

end NodeWorkers

end Mstar.ShardSetup
