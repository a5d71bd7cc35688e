import Mstar.ShardResolved

/-!
# The same assignment in Python

`ShardingConfig.setup` keeps one object a group, and each key the group claims
registers its workers on the object: the last one stays, where `instantiate`
binds the first. The two resolve a lookup alike if the keys of the template
that answers it have one worker list.
-/

namespace Mstar.ShardSetup

variable {σ : Type*} [DecidableEq σ]

/-- What an assertion of `setup` refuses. -/
inductive SetupError (σ : Type*)
  /-- As many workers as `got` where the group has `tpSize`. -/
  | workerCount (got tpSize : ℕ)
  /-- Two groups claim a node on every walk. -/
  | duplicateStreaming (node : σ)
  deriving DecidableEq

namespace GroupTemplate

/-- `register_workers` on the group's object, the one of index `i`. -/
def registerWorkers (t : GroupTemplate σ) (i : ℕ) (s : Setup σ) (k : Key σ) (workers : List σ) :
    Except (SetupError σ) (Setup σ) :=
  if workers.length = t.tpSize then
    .ok
      { groups := s.groups.modify i fun g => { g with workers := workers }
        mapping := Function.update s.mapping (k.1, some k.2) (some i) }
  else .error (.workerCount workers.length t.tpSize)

/-- The streaming lookup of a node of a group on every walk. -/
def registerStreaming (i : ℕ) (s : Setup σ) (node : σ) : Except (SetupError σ) (Setup σ) :=
  if s.mapping (node, none) = none ∨ s.mapping (node, none) = some i then
    .ok { s with mapping := Function.update s.mapping (node, none) (some i) }
  else .error (.duplicateStreaming node)

/-- A key of the group, if the request has it. -/
def registerEntry (t : GroupTemplate σ) (m : NodeWorkers σ) (i : ℕ) (s : Setup σ) (k : Key σ) :
    Except (SetupError σ) (Setup σ) :=
  match m.get k with
  | some workers => t.registerWorkers i s k workers
  | none => .ok s

/-- One round of the two loops over a group's nodes and walks. -/
def registerKey (t : GroupTemplate σ) (m : NodeWorkers σ) (i : ℕ) (s : Setup σ) (k : Key σ) :
    Except (SetupError σ) (Setup σ) := do
  let s ← t.registerEntry m i s k
  if t.spansAll then registerStreaming i s k.1 else .ok s

/-- The same group, with its sets met in some order. -/
structure Same (t u : GroupTemplate σ) : Prop where
  nodes : ∀ n, n ∈ u.nodes ↔ n ∈ t.nodes
  tpSize : u.tpSize = t.tpSize
  graphWalks : u.spansAll = t.spansAll ∧ ∀ w, (u.graphWalks.all fun ws => decide (w ∈ ws)) =
    t.graphWalks.all fun ws => decide (w ∈ ws)
  tpRank : u.tpRank = t.tpRank

end GroupTemplate

/-- The configured groups register their nodes in turn, the first of them the
object of index `i`. -/
def registerAll (m : NodeWorkers σ) (allWalks : List σ) :
    ℕ → List (GroupTemplate σ) → Setup σ → Except (SetupError σ) (Setup σ)
  | _, [], s => .ok s
  | i, t :: ts, s => do
    let s ← (t.keys allWalks).foldlM (t.registerKey m i) s
    registerAll m allWalks (i + 1) ts s

/-- A singleton group for one node and workers. -/
def registerShared (combos : σ → ℕ) (s : Setup σ) (g : Shared σ) :
    Except (SetupError σ) (Setup σ) :=
  if g.1.2.length = 1 then
    let idx := s.groups.length
    let mapping := g.2.foldl
      (fun mapping walk => Function.update mapping (g.1.1, some walk) (some idx)) s.mapping
    .ok
      { groups := s.groups ++ [⟨g.1.2, 1, some 0⟩]
        mapping :=
          if combos g.1.1 = 1 then Function.update mapping (g.1.1, none) (some idx)
          else mapping }
  else .error (.workerCount g.1.2.length 1)

/-- The group objects before any worker is registered. -/
def freshGroups (ts : List (GroupTemplate σ)) : Setup σ where
  groups := ts.map fun t => ⟨[], t.tpSize, t.tpRank⟩
  mapping := fun _ => none

/-- `setup`: the configured groups, then a singleton for each node and workers
that are left. A dict is gone through in the order it was filled. -/
def setup (ts : List (GroupTemplate σ)) (m : NodeWorkers σ) (allWalks : List σ) :
    Except (SetupError σ) (Setup σ) := do
  let s ← registerAll m allWalks 0 ts (freshGroups ts)
  let left := m.entries.foldl (Leftovers.add s.mapping) Leftovers.empty
  left.byNodeWorkers.foldlM (registerShared left.walkCombos) s

/-- `group_mapping.get`. -/
def Setup.groupOf (s : Setup σ) (node : σ) (walk : Option σ) : Option (Group σ) :=
  (s.mapping (node, walk)).bind fun i => s.groups[i]?

namespace GroupTemplate

variable {t u : GroupTemplate σ} {m : NodeWorkers σ} {i : ℕ} {s s' : Setup σ}

/-- A group in the middle of its keys, with the streaming lookups of some nodes
made to lead to its object. -/
structure Registered (m : NodeWorkers σ) (i : ℕ) (s : Setup σ) (ks : List (Key σ)) (ns : List σ)
    (s' : Setup σ) : Prop where
  /-- The other objects are as they were. -/
  others : ∀ j, j ≠ i → s'.groups[j]? = s.groups[j]?
  /-- The group's own has the workers of one of its keys, if it has any. -/
  own : ∀ g, s.groups[i]? = some g → ∃ workers, s'.groups[i]? = some { g with workers := workers } ∧
    ((∃ k ∈ ks, m.has k) → ∃ k ∈ ks, m.get k = some workers)
  walk : ∀ k : Key σ, s'.mapping (k.1, some k.2) =
    if k ∈ ks ∧ m.has k then some i else s.mapping (k.1, some k.2)
  stream : ∀ n, s'.mapping (n, none) = if n ∈ ns then some i else s.mapping (n, none)

/-- A group before its first key. -/
theorem Registered.nil : Registered m i s [] [] s where
  others := fun _ _ => rfl
  own := fun g hg => ⟨g.workers, hg, by simp⟩
  walk := by simp
  stream := by simp

variable {ks : List (Key σ)} {ns : List σ} {k : Key σ} {mid : Setup σ}

/-- A key the request does not have. -/
theorem Registered.skip (h : Registered m i s ks ns s') (hk : m.has k = false) :
    Registered m i s (ks ++ [k]) ns s' where
  others := h.others
  own := by
    intro g hg
    obtain ⟨workers, hown, hfrom⟩ := h.own g hg
    refine ⟨workers, hown, ?_⟩
    rintro ⟨k', hk', hhas⟩
    rcases List.mem_append.1 hk' with hk' | hk'
    · obtain ⟨k₀, hk₀, hget⟩ := hfrom ⟨k', hk', hhas⟩
      exact ⟨k₀, List.mem_append_left _ hk₀, hget⟩
    · rw [List.mem_singleton.1 hk', hk] at hhas
      cases hhas
  walk := by
    intro k'
    rw [h.walk]
    by_cases hkk : k' = k
    · subst hkk
      simp [hk]
    · simp [hkk]
  stream := h.stream

/-- A key the request has: its workers replace those registered before. -/
theorem Registered.workers (h : Registered m i s ks ns s') {workers : List σ}
    (hk : m.get k = some workers) (hstep : t.registerWorkers i s' k workers = .ok mid) :
    Registered m i s (ks ++ [k]) ns mid := by
  have hhas : m.has k := NodeWorkers.has_iff.2 ⟨workers, hk⟩
  unfold registerWorkers at hstep
  split at hstep
  · cases hstep
    constructor
    · intro j hj
      dsimp only
      rw [List.getElem?_modify_ne _ _ (Ne.symm hj)]
      exact h.others j hj
    · intro g hg
      obtain ⟨old, hown, -⟩ := h.own g hg
      refine ⟨workers, ?_, fun _ => ⟨k, by simp, hk⟩⟩
      dsimp only
      rw [List.getElem?_modify_eq, hown]
      rfl
    · intro k'
      dsimp only
      by_cases hkk : k' = k
      · subst hkk
        simp [hhas]
      · have hne : (k'.1, some k'.2) ≠ (k.1, some k.2) := by
          intro he
          simp only [Prod.mk.injEq, Option.some.injEq] at he
          exact hkk (Prod.ext he.1 he.2)
        rw [Function.update_of_ne hne, h.walk]
        simp [hkk]
    · intro n
      dsimp only
      rw [Function.update_of_ne (by simp), h.stream]
  · cases hstep

/-- The streaming lookup of one node more. -/
theorem Registered.streaming (h : Registered m i s ks ns s') {n : σ}
    (hstep : registerStreaming i s' n = .ok mid) : Registered m i s ks (ns ++ [n]) mid := by
  unfold registerStreaming at hstep
  split at hstep
  · cases hstep
    constructor
    · exact h.others
    · exact h.own
    · intro k'
      dsimp only
      rw [Function.update_of_ne (by simp), h.walk]
    · intro n'
      dsimp only
      by_cases hn : n' = n
      · subst hn
        simp
      · rw [Function.update_of_ne (by simpa using hn), h.stream]
        simp [hn]
  · cases hstep

/-- The nodes whose streaming lookups lead to a group, among the keys it has
gone through. -/
def registeredNodes (t : GroupTemplate σ) (ks : List (Key σ)) : List σ :=
  if t.spansAll then ks.map Prod.fst else []

/-- One key more. -/
theorem Registered.key (h : Registered m i s ks (t.registeredNodes ks) s')
    (hstep : t.registerKey m i s' k = .ok mid) :
    Registered m i s (ks ++ [k]) (t.registeredNodes (ks ++ [k])) mid := by
  have hentry : ∀ s'', t.registerEntry m i s' k = .ok s'' →
      Registered m i s (ks ++ [k]) (t.registeredNodes ks) s'' := by
    intro s'' hs
    unfold registerEntry at hs
    cases hk : m.get k with
    | none =>
      rw [hk] at hs
      cases hs
      exact h.skip (NodeWorkers.has_eq_false.2 hk)
    | some workers =>
      rw [hk] at hs
      exact h.workers hk hs
  unfold registerKey at hstep
  cases hs : t.registerEntry m i s' k with
  | error e => rw [hs] at hstep; cases hstep
  | ok s'' =>
    rw [hs] at hstep
    change (if t.spansAll then registerStreaming i s'' k.1 else .ok s'') = .ok mid at hstep
    have hdone := hentry s'' hs
    unfold registeredNodes at hdone ⊢
    by_cases hall : t.spansAll
    · rw [if_pos hall] at hstep hdone ⊢
      rw [List.map_append]
      exact hdone.streaming hstep
    · rw [if_neg hall] at hstep hdone ⊢
      cases hstep
      exact hdone

/-- A group over all its keys. -/
theorem registered (t : GroupTemplate σ) (m : NodeWorkers σ) (i : ℕ) (s : Setup σ)
    (ks : List (Key σ)) {s' : Setup σ} (h : ks.foldlM (t.registerKey m i) s = .ok s') :
    Registered m i s ks (t.registeredNodes ks) s' := by
  induction ks using List.reverseRecOn generalizing s' with
  | nil =>
    cases h
    simpa [registeredNodes] using Registered.nil
  | append_singleton ks k ih =>
    rw [List.foldlM_append] at h
    cases hks : ks.foldlM (t.registerKey m i) s with
    | error e => rw [hks] at h; cases h
    | ok mid =>
      rw [hks] at h
      simp only [List.foldlM_cons, List.foldlM_nil, bind_pure] at h
      exact (ih hks).key h

/-- A group on every walk names the node, and the request has some walk. -/
def spans (t : GroupTemplate σ) (m : NodeWorkers σ) (n : σ) : Bool :=
  t.spansAll && decide (n ∈ t.nodes) && !m.entries.isEmpty

/-- Every node of a group on every walk is registered, if there is a walk. -/
theorem mem_registeredNodes (o : HashOrder m) {n : σ} :
    n ∈ t.registeredNodes (t.keys o.walks) ↔ t.spans m n := by
  unfold registeredNodes keys spans
  by_cases hall : t.spansAll
  · have hnone : t.graphWalks = none := Option.isNone_iff_eq_none.1 hall
    rw [if_pos hall, hnone, hall]
    simp only [List.mem_map, List.mem_flatMap, Option.getD_none, Bool.true_and, Bool.and_eq_true,
      decide_eq_true_eq, Bool.not_eq_true', List.isEmpty_eq_false_iff]
    constructor
    · rintro ⟨_, ⟨node, hnode, walk, hwalk, rfl⟩, rfl⟩
      obtain ⟨n', hhas⟩ := (o.mem_walks walk).1 hwalk
      obtain ⟨ws, hws⟩ := NodeWorkers.has_iff.1 hhas
      exact ⟨hnode, List.ne_nil_of_mem (NodeWorkers.get_eq_some.1 hws)⟩
    · rintro ⟨hn, hsome⟩
      obtain ⟨⟨k, ws⟩, hentry⟩ := List.exists_mem_of_ne_nil _ hsome
      have hhas : m.has k := NodeWorkers.has_iff.2 ⟨ws, NodeWorkers.get_eq_some.2 hentry⟩
      exact ⟨(n, k.2), ⟨n, hn, k.2, (o.mem_walks k.2).2 ⟨k.1, hhas⟩, rfl⟩, rfl⟩
  · simp [hall]

/-- The sets' order changes no claim. -/
theorem Same.claims (h : Same t u) (k : Key σ) : u.claims m k = t.claims m k := by
  unfold GroupTemplate.claims
  rw [h.graphWalks.2, decide_eq_decide.2 (h.nodes k.1)]

/-- Nor does it change which nodes a group on every walk names. -/
theorem Same.spans (h : Same t u) (n : σ) : u.spans m n = t.spans m n := by
  unfold GroupTemplate.spans
  rw [h.graphWalks.1, decide_eq_decide.2 (h.nodes n)]

end GroupTemplate

open GroupTemplate ShardingTemplate Leftovers

section Setup

variable {m : NodeWorkers σ} {o : HashOrder m} {ts pre : List (GroupTemplate σ)}
  {t : GroupTemplate σ} {s s' : Setup σ}

/-- The lookups after the first groups. -/
structure RegisteredAll (ts : List (GroupTemplate σ)) (m : NodeWorkers σ)
    (pre : List (GroupTemplate σ)) (s : Setup σ) : Prop where
  groups : ∀ j t, ts[j]? = some t → ∃ workers,
    s.groups[j]? = some ⟨workers, t.tpSize, t.tpRank⟩ ∧
      (j < pre.length → t.binds m → ∃ k, t.claims m k ∧ m.get k = some workers)
  walk : ∀ before t after (k : Key σ), pre = before ++ t :: after → t.claims m k →
    (∀ u ∈ after, u.claims m k = false) → s.mapping (k.1, some k.2) = some before.length
  noWalk : ∀ k : Key σ, (∀ t ∈ pre, t.claims m k = false) → s.mapping (k.1, some k.2) = none
  stream : ∀ before t after n, pre = before ++ t :: after → t.spans m n →
    (∀ u ∈ after, u.spans m n = false) → s.mapping (n, none) = some before.length
  noStream : ∀ n, (∀ t ∈ pre, t.spans m n = false) → s.mapping (n, none) = none

/-- Before the first group. -/
theorem RegisteredAll.nil : RegisteredAll ts m [] (freshGroups ts) where
  groups := by
    intro j t ht
    refine ⟨[], ?_, by simp⟩
    simp only [freshGroups, List.getElem?_map, ht, Option.map_some]
  walk := by simp
  noWalk := fun _ _ => rfl
  stream := by simp
  noStream := fun _ _ => rfl

/-- One group more. -/
theorem RegisteredAll.concat (h : RegisteredAll ts m pre s) (hat : ts[pre.length]? = some t)
    (hreg : Registered m pre.length s (t.keys o.walks) (t.registeredNodes (t.keys o.walks)) s') :
    RegisteredAll ts m (pre ++ [t]) s' where
  groups := by
    intro j u hu
    obtain ⟨workers, hgroup, hfrom⟩ := h.groups j u hu
    by_cases hj : j = pre.length
    · subst hj
      obtain rfl : t = u := Option.some.inj (hat.symm.trans hu)
      obtain ⟨own, hown, hkey⟩ := hreg.own _ hgroup
      refine ⟨own, hown, fun _ hbinds => ?_⟩
      obtain ⟨k, hk⟩ := binds_iff.1 hbinds
      obtain ⟨hmem, hhas⟩ := (mem_keys o).2 hk
      obtain ⟨k', hk', hget⟩ := hkey ⟨k, hmem, hhas⟩
      exact ⟨k', (mem_keys o).1 ⟨hk', NodeWorkers.has_iff.2 ⟨own, hget⟩⟩, hget⟩
    · refine ⟨workers, (hreg.others j hj).trans hgroup, fun hlt => hfrom ?_⟩
      rw [List.length_append, List.length_singleton] at hlt
      omega
  walk := by
    intro before u after k hcut hu hafter
    rw [hreg.walk]
    simp only [mem_keys o]
    rcases cut_concat hcut with ⟨rfl, rfl, rfl⟩ | ⟨after', rfl, hpre⟩
    · rw [if_pos hu]
    · rw [if_neg (by simp [hafter t (by simp)])]
      exact h.walk before u after' k hpre hu fun v hv => hafter v (by simp [hv])
  noWalk := by
    intro k hk
    rw [hreg.walk]
    simp only [mem_keys o]
    rw [if_neg (by simp [hk t (by simp)])]
    exact h.noWalk k fun u hu => hk u (by simp [hu])
  stream := by
    intro before u after n hcut hu hafter
    rw [hreg.stream]
    simp only [mem_registeredNodes o]
    rcases cut_concat hcut with ⟨rfl, rfl, rfl⟩ | ⟨after', rfl, hpre⟩
    · rw [if_pos hu]
    · rw [if_neg (by simp [hafter t (by simp)])]
      exact h.stream before u after' n hpre hu fun v hv => hafter v (by simp [hv])
  noStream := by
    intro n hn
    rw [hreg.stream]
    simp only [mem_registeredNodes o]
    rw [if_neg (by simp [hn t (by simp)])]
    exact h.noStream n fun u hu => hn u (by simp [hu])

/-- All the groups, from some of them on. -/
theorem registerAll_spec (o : HashOrder m) {post : List (GroupTemplate σ)}
    (h : RegisteredAll ts m pre s) (hts : ts = pre ++ post)
    (hrun : registerAll m o.walks pre.length post s = .ok s') : RegisteredAll ts m ts s' := by
  induction post generalizing pre s with
  | nil =>
    cases hrun
    rw [List.append_nil] at hts
    exact hts ▸ h
  | cons t post ih =>
    unfold registerAll at hrun
    cases hkeys : (t.keys o.walks).foldlM (t.registerKey m pre.length) s with
    | error e => rw [hkeys] at hrun; cases hrun
    | ok mid =>
      rw [hkeys] at hrun
      have hat : ts[pre.length]? = some t := by simp [hts]
      refine ih (h.concat hat (GroupTemplate.registered t m _ s _ hkeys)) (by simp [hts]) ?_
      rw [List.length_append, List.length_singleton]
      exact hrun

/-- A singleton that goes through in Python goes through, to the same setup. -/
theorem bindShared_of_register {combos : σ → ℕ} {g : Shared σ}
    (h : registerShared combos s g = .ok s') : Leftovers.bindShared combos s g = .ok s' := by
  unfold registerShared at h
  split at h
  · rename_i hone
    have hcounted : Counted g.1.2 1 := by
      unfold Counted
      rw [hone]
      exact Nat.mod_eq_of_lt (by decide)
    unfold Leftovers.bindShared Group.bind
    rw [if_pos hcounted]
    cases h
    rfl
  · cases h

/-- So do all of them. -/
theorem singletons_of_register {combos : σ → ℕ} {gs : List (Shared σ)}
    (h : gs.foldlM (registerShared combos) s = .ok s') :
    gs.foldlM (Leftovers.bindShared combos) s = .ok s' := by
  induction gs generalizing s with
  | nil =>
    cases h
    rfl
  | cons g gs ih =>
    rw [List.foldlM_cons] at h ⊢
    cases hg : registerShared combos s g with
    | error e => rw [hg] at h; cases h
    | ok mid =>
      rw [hg] at h
      rw [bindShared_of_register hg]
      exact ih h

/-- A request resolved in Python: the setup after the configured groups, and
what it became. -/
structure SetUp (ts : List (GroupTemplate σ)) (m : NodeWorkers σ) (s p : Setup σ) : Prop where
  registered : RegisteredAll ts m ts s
  finished : Finished m s p

/-- What `setup` returns. -/
theorem setUp_of_ok (o : HashOrder m) {p : Setup σ}
    (h : setup ts m o.walks = .ok p) : ∃ s, SetUp ts m s p := by
  unfold setup at h
  cases hs : registerAll m o.walks 0 ts (freshGroups ts) with
  | error e => rw [hs] at h; cases h
  | ok s =>
    rw [hs] at h
    have hreg : RegisteredAll ts m ts s := registerAll_spec o RegisteredAll.nil rfl hs
    have hrun : ShardingTemplate.singletons m m.order s = .ok p := singletons_of_register h
    refine ⟨s, hreg, ?_⟩
    rcases singletons_finished m.order s with ⟨p', hp', hfin, -⟩ | ⟨⟨e, he⟩, -⟩
    · obtain rfl : p = p' := Except.ok.inj (hrun.symm.trans hp')
      exact hfin
    · rw [he] at hrun
      cases hrun

/-- The keys a template claims have one worker list. -/
def GroupTemplate.OneAssignment (t : GroupTemplate σ) (m : NodeWorkers σ) : Prop :=
  ∀ k k', t.claims m k → t.claims m k' → m.get k = m.get k'

/-- A lookup that the template answering it binds from one worker list. A
streaming lookup that a template on every walk should answer, it does. -/
structure Plain (ts : List (GroupTemplate σ)) (m : NodeWorkers σ) (n : σ) (walk : Option σ) :
    Prop where
  onWalk : ∀ w, walk = some w → ∀ before t after, ts = before ++ t :: after → t.claims m (n, w) →
    (∀ u ∈ after, u.claims m (n, w) = false) → t.OneAssignment m
  onStream : walk = none → ∀ t ∈ ts, t.spans m n → t.streams m n ∧ t.OneAssignment m

variable {config : ShardingTemplate σ} {ts' : List (GroupTemplate σ)} {r : ShardMap σ}
  {p : Setup σ}

/-- A list cut where the list it goes with is. -/
theorem forall₂_cut {α : Type*} {R : α → α → Prop} {xs ys before after : List α} {x : α}
    (h : List.Forall₂ R xs ys) (hcut : xs = before ++ x :: after) :
    ∃ before' y after', ys = before' ++ y :: after' ∧ before'.length = before.length ∧ R x y ∧
      List.Forall₂ R after after' := by
  subst hcut
  induction before generalizing ys with
  | nil =>
    cases h with
    | @cons _ y _ after' hxy hafter => exact ⟨[], y, after', rfl, rfl, hxy, hafter⟩
  | cons z before ih =>
    cases h with
    | @cons _ w _ rest _ hrest =>
      obtain ⟨before', y, after', rfl, hlen, hxy, hafter⟩ := ih hrest
      exact ⟨w :: before', y, after', rfl, by simp [hlen], hxy, hafter⟩

/-- What holds of none of the templates holds of none of the groups. -/
theorem none_of_same {P : GroupTemplate σ → Bool} (hP : ∀ t u, t.Same u → P u = P t)
    (h : List.Forall₂ GroupTemplate.Same ts ts') (hts : ∀ t ∈ ts, P t = false) :
    ∀ u ∈ ts', P u = false := by
  induction h with
  | nil => simp
  | @cons t u ts ts' hsame _ ih =>
    intro v hv
    rcases List.mem_cons.1 hv with rfl | hv
    · rw [hP t v hsame]
      exact hts t List.mem_cons_self
    · exact ih (fun x hx => hts x (List.mem_cons_of_mem _ hx)) v hv

/-- The object at a group's place, after what is left has its own. -/
theorem SetUp.group (h : SetUp ts' m s' p) {before after : List (GroupTemplate σ)}
    {u : GroupTemplate σ} (hcut : ts' = before ++ u :: after) (hbinds : u.binds m) :
    ∃ workers k, p.groups[before.length]? = some ⟨workers, u.tpSize, u.tpRank⟩ ∧ u.claims m k ∧
      m.get k = some workers := by
  have hat : ts'[before.length]? = some u := by simp [hcut]
  obtain ⟨workers, hgroup, hfrom⟩ := h.registered.groups _ _ hat
  obtain ⟨k, hk, hget⟩ := hfrom (by rw [hcut]; simp) hbinds
  obtain ⟨more, hmore⟩ := h.finished.groups
  refine ⟨workers, k, ?_, hk, hget⟩
  rw [hmore, List.getElem?_append_left (List.getElem?_eq_some_iff.1 hgroup).1, hgroup]

/-- What the groups leave is what no template claims. -/
theorem SetUp.left_iff (h : SetUp ts' m s' p) (hsame : List.Forall₂ GroupTemplate.Same ts ts')
    {k : Key σ} : Left s'.mapping k ↔ Unclaimed ts m k := by
  have hclaims : ∀ t u : GroupTemplate σ, t.Same u → u.claims m k = t.claims m k :=
    fun t u htu => htu.claims k
  constructor
  · intro hleft
    rcases unclaimed_or_last ts m k with hnone | ⟨before, t, after, hcut, ht, hafter⟩
    · exact hnone
    · obtain ⟨before', u, after', hcut', -, htu, hafter'⟩ := forall₂_cut hsame hcut
      have hmapping := h.registered.walk before' u after' k hcut' ((hclaims t u htu).trans ht)
        (none_of_same hclaims hafter' hafter)
      rw [hleft] at hmapping
      cases hmapping
  · intro hun
    exact h.registered.noWalk k (none_of_same hclaims hsame hun)

/-- The shard dims are the config's. -/
theorem ShardingTemplate.shardDim_of_ok (h : config.instantiate m o = .ok r) :
    r.shardDim = config.shardDim := by
  unfold instantiate at h
  cases hs : claimAll config.groups m o.walks with
  | error e => rw [hs] at h; cases h
  | ok s =>
    rw [hs] at h
    cases hs' : singletons m o s with
    | error e =>
      simp only [bind, Except.bind, hs'] at h
      cases h
    | ok s' =>
      simp only [bind, Except.bind, hs'] at h
      cases h
      rfl

/-- A template that answers a streaming lookup names its node. -/
theorem spans_of_streams {n : σ} (h : t.streams m n) : t.spans m n := by
  obtain ⟨k, hk⟩ := binds_iff.1 (binds_of_streams h)
  obtain ⟨ws, hws⟩ := NodeWorkers.has_iff.1 (has_of_claims hk)
  have hsome := List.ne_nil_of_mem (NodeWorkers.get_eq_some.1 hws)
  unfold streams at h
  simp only [Bool.and_eq_true, decide_eq_true_eq] at h
  unfold spans
  simp only [h.1, (List.dropWhile_sublist _).mem h.2, decide_true, Bool.and_self, Bool.true_and,
    Bool.not_eq_true', List.isEmpty_eq_false_iff]
  exact hsome

/-- A key's lookup leads to groups alike. -/
theorem walk_alike (hr : Resolves config m o s r) (hsame : List.Forall₂ Same config.groups ts')
    (hp : SetUp ts' m s' p) {k : Key σ} (hplain : Plain config.groups m k.1 (some k.2)) :
    p.groupOf k.1 (some k.2) = r.groupOf k.1 (some k.2) := by
  cases hget : m.get k with
  | none =>
    have hkept := hp.finished.otherWalk k (Or.inl hget)
    have hnone : ∀ u ∈ ts', u.claims m k = false := by
      intro u _
      by_contra hu
      have hhas := has_of_claims (by simpa using hu)
      rw [NodeWorkers.has_eq_false.2 hget] at hhas
      cases hhas
    rw [hr.groupOf_absent hget]
    unfold Setup.groupOf
    rw [hkept, hp.registered.noWalk k hnone]
    rfl
  | some ws =>
    rcases unclaimed_or_last config.groups m k with hun | ⟨before, t, after, hcut, ht, hafter⟩
    · obtain ⟨j, -, hj, hwalk, -⟩ := hp.finished.left k ws hget ((hp.left_iff hsame).2 hun)
      rw [hr.groupOf_left hget hun]
      unfold Setup.groupOf
      rw [hwalk k.2 hget ((hp.left_iff hsame).2 hun), Option.bind_some, hj]
    · have hone := hplain.onWalk k.2 rfl before t after hcut ht hafter
      obtain ⟨before', u, after', hcut', hlen, htu, hafter'⟩ := forall₂_cut hsame hcut
      have hclaims : ∀ t u : GroupTemplate σ, t.Same u → u.claims m k = t.claims m k :=
        fun t u htu => htu.claims k
      have hu : u.claims m k := (hclaims t u htu).trans ht
      have hmapping := hp.registered.walk before' u after' k hcut' hu
        (none_of_same hclaims hafter' hafter)
      have hnotLeft : ¬Left s'.mapping k := by
        intro hleft
        rw [hleft] at hmapping
        cases hmapping
      obtain ⟨workers, k', hgroup, hk', hget'⟩ := hp.group hcut' (binds_of_claims hu)
      rw [htu.claims] at hk'
      have hworkers := hone k' k hk' ht
      have hbound : ∀ b, t.MayBind m b → m.get b = m.get k := by
        intro b hb
        obtain ⟨o', ho⟩ := mayBind_iff.1 hb
        exact hone b k (claims_of_firstKey o' ho) ht
      rw [hr.groupOf_claimed hcut ht hafter hbound]
      unfold Setup.groupOf
      rw [hp.finished.otherWalk k (Or.inr hnotLeft), hmapping, Option.bind_some, hgroup, htu.tpSize,
        htu.tpRank]
      unfold groupFrom
      rw [← hworkers, hget']
      rfl

/-- So does a streaming lookup. -/
theorem stream_alike (hr : Resolves config m o s r) (hsame : List.Forall₂ Same config.groups ts')
    (hp : SetUp ts' m s' p) {n : σ} (hplain : Plain config.groups m n none) :
    p.groupOf n none = r.groupOf n none := by
  have hspans : ∀ t u : GroupTemplate σ, t.Same u → u.spans m n = t.spans m n :=
    fun t u htu => htu.spans n
  rcases none_or_last (fun t : GroupTemplate σ => t.spans m n) config.groups with
    hnone | ⟨before, t, after, hcut, ht, hafter⟩
  · have hempty := hp.registered.noStream n (none_of_same hspans hsame hnone)
    have hunstreamed : ∀ t ∈ config.groups, t.streams m n = false := by
      intro t ht
      by_contra hstreams
      have := spans_of_streams (t := t) (by simpa using hstreams)
      rw [hnone t ht] at this
      cases this
    have hlist : ∀ ws, OneList s'.mapping m n ws ↔ OneList s.mapping m n ws := by
      intro ws
      have hleft : ∀ w, Left s'.mapping (n, w) ↔ Left s.mapping (n, w) := fun w =>
        (hp.left_iff hsame).trans hr.resolved.left_iff.symm
      constructor
      · rintro ⟨⟨w, hw, hl⟩, hall⟩
        exact ⟨⟨w, hw, (hleft w).1 hl⟩, fun w' ws' hw' hl' => hall w' ws' hw' ((hleft w').2 hl')⟩
      · rintro ⟨⟨w, hw, hl⟩, hall⟩
        exact ⟨⟨w, hw, (hleft w).2 hl⟩, fun w' ws' hw' hl' => hall w' ws' hw' ((hleft w').1 hl')⟩
    rcases hr.unstreamed hunstreamed with ⟨w, ws, j, hget, hun, hone, -, -, -, hgroup⟩ | ⟨hno, hmapping⟩
    · obtain ⟨j', -, hj', -, hstream⟩ :=
        hp.finished.left (n, w) ws hget ((hp.left_iff hsame).2 hun)
      rw [hgroup]
      unfold Setup.groupOf
      rw [hstream ((hlist ws).2 hone), Option.bind_some, hj']
    · unfold Setup.groupOf ShardMap.groupOf
      rw [hmapping, hp.finished.otherStream n fun ws hws => hno ws ((hlist ws).1 hws), hempty]
      rfl
  · obtain ⟨hstreams, hone⟩ := hplain.onStream rfl t (by rw [hcut]; simp) ht
    obtain ⟨before', u, after', hcut', hlen, htu, hafter'⟩ := forall₂_cut hsame hcut
    have hmapping := hp.registered.stream before' u after' n hcut' ((hspans t u htu).trans ht)
      (none_of_same hspans hafter' hafter)
    have hnot : ∀ ws, ¬OneList s'.mapping m n ws := by
      rintro ws ⟨⟨w, hw, hleft⟩, -⟩
      have hun := (hp.left_iff hsame).1 hleft
      have hclaims := claims_of_streams hstreams (NodeWorkers.has_iff.2 ⟨ws, hw⟩)
      rw [hun t (by rw [hcut]; simp)] at hclaims
      cases hclaims
    have hbinds := binds_of_streams hstreams
    obtain ⟨b, hb⟩ := Option.isSome_iff_exists.1 ((firstKey_isSome o).trans hbinds)
    obtain ⟨k₀, hk₀⟩ := binds_iff.1 hbinds
    obtain ⟨workers, k', hgroup, hk', hget'⟩ :=
      hp.group hcut' (binds_of_claims ((htu.claims k₀).trans hk₀))
    rw [htu.claims] at hk'
    have hworkers := hone k' b hk' (claims_of_firstKey o hb)
    unfold Setup.groupOf ShardMap.groupOf
    rw [hp.finished.otherStream n hnot, hmapping, Option.bind_some, hgroup, hr.streamed hcut hstreams,
      Option.bind_some, hr.group hcut hb, htu.tpSize, htu.tpRank]
    unfold groupFrom
    rw [← hworkers, hget']
    rfl

/-- A request that both resolve leads a plain lookup to groups alike, whatever
the orders in which either meets what its sets hold. -/
theorem lookup_alike (o' : HashOrder m) (hrust : config.instantiate m o = .ok r)
    (hsame : List.Forall₂ Same config.groups ts') (hpython : setup ts' m o'.walks = .ok p) {n : σ}
    {walk : Option σ} (hplain : Plain config.groups m n walk) :
    p.groupOf n walk = r.groupOf n walk := by
  obtain ⟨-, s, hr⟩ := resolves_of_ok hrust
  obtain ⟨s', hp⟩ := setUp_of_ok o' hpython
  cases walk with
  | some w => exact walk_alike hr hsame hp (k := (n, w)) hplain
  | none => exact stream_alike hr hsame hp hplain

end Setup

end Mstar.ShardSetup
