import Mstar.ShardTemplates
import Mathlib.Data.List.TakeWhile
import Mathlib.Data.List.Induction

/-!
# What one group template claims

A template that goes through its keys binds one group, from the first key the
request has. Every key it has leads there, and so does the streaming lookup of
each node from that key on. It succeeds exactly if every worker list is as long
as the group has ranks and no earlier group answers one of those lookups.
-/

namespace Mstar.ShardSetup

variable {σ : Type*} [DecidableEq σ]

/-- Every lookup leads to a group that was bound. -/
def Setup.Below (s : Setup σ) : Prop := ∀ k i, s.mapping k = some i → i < s.groups.length

namespace GroupTemplate

variable {t : GroupTemplate σ} {m : NodeWorkers σ} {s : Setup σ} {c c' : Claim σ}

/-- The keys from the first one the request has. -/
def fresh (m : NodeWorkers σ) (ks : List (Key σ)) : List (Key σ) :=
  ks.dropWhile fun k => !m.has k

/-- The group a template binds from a key. -/
def groupFrom (t : GroupTemplate σ) (m : NodeWorkers σ) (k : Key σ) : Group σ :=
  ⟨(m.get k).getD [], t.tpSize, t.tpRank⟩

/-- A claim after a key with workers. -/
def take (t : GroupTemplate σ) (c : Claim σ) (k : Key σ) (workers : List σ) : Claim σ :=
  match c.bound with
  | some i => { c with mapping := Function.update c.mapping (k.1, some k.2) (some i) }
  | none =>
    { groups := c.groups ++ [⟨workers, t.tpSize, t.tpRank⟩]
      mapping := Function.update c.mapping (k.1, some k.2) (some c.groups.length)
      bound := some c.groups.length }

/-- A key's workers are taken if they are as many as the ranks. -/
theorem claimWorkers_eq (k : Key σ) (workers : List σ) :
    t.claimWorkers c k workers =
      if Counted workers t.tpSize then .ok (t.take c k workers)
      else .error (.workerCount workers.length t.tpSize) := by
  unfold claimWorkers take Group.bind
  split
  · cases c.bound <;> rfl
  · rfl

/-- A streaming key is bound to the group of its node. -/
theorem claimStreaming_eq (n : σ) (i : ℕ) (hi : c.bound = some i) :
    claimStreaming c n =
      if c.mapping (n, none) = none ∨ c.mapping (n, none) = some i then
        .ok { c with mapping := Function.update c.mapping (n, none) (some i) }
      else .error (.duplicateStreamingGroup n) := by
  unfold claimStreaming
  rw [hi]
  cases he : c.mapping (n, none) with
  | none => simp
  | some existing => by_cases hx : existing = i <;> simp [hx]

/-- The keys from the first that is assigned, with one more. -/
theorem fresh_concat (m : NodeWorkers σ) (ks : List (Key σ)) (k : Key σ) :
    fresh m (ks ++ [k]) =
      if fresh m ks = [] then if m.has k then [k] else [] else fresh m ks ++ [k] := by
  unfold fresh
  rw [List.dropWhile_append]
  cases hd : ks.dropWhile fun k => !m.has k with
  | nil => cases hk : m.has k <;> simp [hk]
  | cons a l => simp

/-- There is none where no key is assigned. -/
theorem fresh_eq_nil {ks : List (Key σ)} : fresh m ks = [] ↔ ∀ k ∈ ks, m.has k = false := by
  unfold fresh
  rw [List.dropWhile_eq_nil_iff]
  simp

/-- Nor is one found. -/
theorem find_eq_none {ks : List (Key σ)} : ks.find? m.has = none ↔ fresh m ks = [] := by
  rw [fresh_eq_nil]
  simp

/-- The first assigned key, with one more. -/
theorem find_concat (m : NodeWorkers σ) (ks : List (Key σ)) (k : Key σ) :
    (ks ++ [k]).find? m.has =
      if fresh m ks = [] then if m.has k then some k else none else ks.find? m.has := by
  rw [List.find?_append]
  by_cases hf : fresh m ks = []
  · rw [if_pos hf, find_eq_none.2 hf, Option.none_or]
    cases hk : m.has k <;> simp [hk]
  · rw [if_neg hf]
    cases hd : ks.find? m.has with
    | none => exact absurd (find_eq_none.1 hd) hf
    | some a => rfl

/-- A template that is through some of its keys, with the streaming lookups of
some nodes made to lead to its group. -/
structure Claimed (t : GroupTemplate σ) (m : NodeWorkers σ) (s : Setup σ)
    (ks : List (Key σ)) (ns : List σ) (c : Claim σ) : Prop where
  bound : c.bound = if fresh m ks = [] then none else some s.groups.length
  groups : c.groups = s.groups ++ ((ks.find? m.has).map (t.groupFrom m)).toList
  walk : ∀ k : Key σ, c.mapping (k.1, some k.2) =
    if k ∈ ks ∧ m.has k then some s.groups.length else s.mapping (k.1, some k.2)
  stream : ∀ n, c.mapping (n, none) =
    if n ∈ ns then some s.groups.length else s.mapping (n, none)

/-- A template before its first key. -/
theorem Claimed.nil : Claimed t m s [] [] { s with bound := none } where
  bound := by simp [fresh]
  groups := by simp
  walk := by simp
  stream := by simp

/-- A key the request does not have. -/
theorem Claimed.skip {ks : List (Key σ)} {ns : List σ} (h : Claimed t m s ks ns c)
    {k : Key σ} (hk : m.has k = false) : Claimed t m s (ks ++ [k]) ns c where
  bound := by
    rw [h.bound, fresh_concat]
    by_cases hf : fresh m ks = [] <;> simp [hf, hk]
  groups := by
    rw [h.groups, find_concat]
    by_cases hf : fresh m ks = []
    · simp [hf, hk, find_eq_none.2 hf]
    · simp [hf]
  walk := by
    intro k'
    rw [h.walk]
    by_cases hk' : k' = k
    · subst hk'
      simp [hk]
    · simp [hk']
  stream := h.stream

/-- A key the request has. -/
theorem Claimed.take {ks : List (Key σ)} {ns : List σ} (h : Claimed t m s ks ns c)
    {k : Key σ} {ws : List σ} (hk : m.get k = some ws) :
    Claimed t m s (ks ++ [k]) ns (t.take c k ws) := by
  have hhas : m.has k := NodeWorkers.has_iff.2 ⟨ws, hk⟩
  have hwalk : ∀ i, i = s.groups.length → ∀ k' : Key σ,
      Function.update c.mapping (k.1, some k.2) (some i) (k'.1, some k'.2) =
        if k' ∈ ks ++ [k] ∧ m.has k' then some s.groups.length
        else s.mapping (k'.1, some k'.2) := by
    intro i hi k'
    by_cases hk' : k' = k
    · subst hk'
      simp [hi, hhas]
    · have hne : (k'.1, some k'.2) ≠ (k.1, some k.2) := by
        intro he
        simp only [Prod.mk.injEq, Option.some.injEq] at he
        exact hk' (Prod.ext he.1 he.2)
      rw [Function.update_of_ne hne, h.walk]
      simp [hk']
  have hstream : ∀ i n, Function.update c.mapping (k.1, some k.2) (some i) (n, none) =
      if n ∈ ns then some s.groups.length else s.mapping (n, none) := by
    intro i n
    rw [Function.update_of_ne (by simp), h.stream]
  have hb := h.bound
  by_cases hf : fresh m ks = []
  · rw [if_pos hf] at hb
    have hg : c.groups = s.groups := by
      rw [h.groups, find_eq_none.2 hf]
      simp
    constructor
    · simp [GroupTemplate.take, hb, fresh_concat, hf, hhas, hg]
    · rw [find_concat, if_pos hf, if_pos hhas]
      simp [GroupTemplate.take, hb, hg, groupFrom, hk]
    · simpa only [GroupTemplate.take, hb] using hwalk _ (by rw [hg])
    · simpa only [GroupTemplate.take, hb] using hstream _
  · rw [if_neg hf] at hb
    constructor
    · simp [GroupTemplate.take, hb, fresh_concat, hf]
    · rw [find_concat, if_neg hf]
      simp [GroupTemplate.take, hb, h.groups]
    · simpa only [GroupTemplate.take, hb] using hwalk _ rfl
    · simpa only [GroupTemplate.take, hb] using hstream _

/-- A streaming lookup made to lead to the group. -/
theorem Claimed.streamed {ks : List (Key σ)} {ns : List σ} (h : Claimed t m s ks ns c)
    (n : σ) :
    Claimed t m s ks (ns ++ [n])
      { c with mapping := Function.update c.mapping (n, none) (some s.groups.length) } where
  bound := h.bound
  groups := h.groups
  walk := by
    intro k
    dsimp only
    rw [Function.update_of_ne (by simp), h.walk]
  stream := by
    intro n'
    dsimp only
    by_cases hn : n' = n
    · subst hn
      simp
    · rw [Function.update_of_ne (by simpa using hn), h.stream]
      simp [hn]

/-- The nodes whose streaming lookups lead to a template's group, among the
keys it has gone through. -/
def streamed (t : GroupTemplate σ) (m : NodeWorkers σ) (ks : List (Key σ)) : List σ :=
  if t.spansAll then (fresh m ks).map Prod.fst else []

/-- The keys a template can go through. -/
structure Fits (t : GroupTemplate σ) (m : NodeWorkers σ) (s : Setup σ)
    (ks : List (Key σ)) : Prop where
  counted : ∀ k ∈ ks, ∀ ws, m.get k = some ws → Counted ws t.tpSize
  single : ∀ n ∈ t.streamed m ks, s.mapping (n, none) = none

/-- What fits with one more key fits without. -/
theorem Fits.of_concat {ks : List (Key σ)} {k : Key σ} (h : t.Fits m s (ks ++ [k])) :
    t.Fits m s ks where
  counted := by
    intro k' hk'
    exact h.counted k' (List.mem_append_left _ hk')
  single := by
    intro n hn
    refine h.single n ?_
    unfold streamed at hn ⊢
    rw [fresh_concat]
    split
    · rename_i hsp
      rw [if_pos hsp] at hn
      by_cases hf : fresh m ks = []
      · simp [hf] at hn
      · rw [if_neg hf, List.map_append]
        exact List.mem_append_left _ hn
    · rename_i hsp
      rw [if_neg hsp] at hn
      exact hn

/-- A key after the first assigned one. -/
theorem fresh_concat_ne_nil {ks : List (Key σ)} {k : Key σ} (h : fresh m (ks ++ [k]) ≠ []) :
    fresh m (ks ++ [k]) = fresh m ks ++ [k] := by
  rw [fresh_concat] at h ⊢
  by_cases hf : fresh m ks = []
  · rw [if_pos hf] at h ⊢
    rw [hf]
    cases hk : m.has k with
    | false => simp [hk] at h
    | true => simp
  · rw [if_neg hf]

/-- The streamed nodes, with one more key. -/
theorem streamed_concat {ks : List (Key σ)} {k : Key σ} :
    t.streamed m (ks ++ [k]) =
      if t.spansAll ∧ fresh m (ks ++ [k]) ≠ [] then t.streamed m ks ++ [k.1]
      else t.streamed m ks := by
  unfold streamed
  by_cases hsp : t.spansAll
  · by_cases hf : fresh m (ks ++ [k]) = []
    · have hks : fresh m ks = [] := by
        rw [fresh_eq_nil] at hf ⊢
        intro k' hk'
        exact hf k' (List.mem_append_left _ hk')
      simp [hf, hks]
    · simp [hsp, fresh_concat_ne_nil hf]
  · simp [hsp]

/-- The workers of one key: refused exactly if they are not as many as the
group has ranks. -/
theorem Claimed.entry {ks : List (Key σ)} {ns : List σ} (h : Claimed t m s ks ns c)
    (k : Key σ) :
    (∃ c', t.claimEntry m c k = .ok c' ∧ Claimed t m s (ks ++ [k]) ns c' ∧
        ∀ ws, m.get k = some ws → Counted ws t.tpSize) ∨
      (∃ e, t.claimEntry m c k = .error e) ∧
        ¬∀ ws, m.get k = some ws → Counted ws t.tpSize := by
  unfold claimEntry
  cases hk : m.get k with
  | none => exact Or.inl ⟨c, rfl, h.skip (NodeWorkers.has_eq_false.2 hk), by simp⟩
  | some ws =>
    simp only [claimWorkers_eq, Option.some.injEq, forall_eq']
    by_cases hcount : Counted ws t.tpSize
    · exact Or.inl ⟨_, if_pos hcount, h.take hk, hcount⟩
    · exact Or.inr ⟨⟨_, if_neg hcount⟩, hcount⟩

/-- One key of a template: it goes through exactly if the keys up to it fit. -/
theorem Claimed.key {ks : List (Key σ)} (h : Claimed t m s ks (t.streamed m ks) c)
    (hs : s.Below) (hfit : t.Fits m s ks) (k : Key σ) :
    (∃ c', t.claimKey m c k = .ok c' ∧
        Claimed t m s (ks ++ [k]) (t.streamed m (ks ++ [k])) c' ∧ t.Fits m s (ks ++ [k])) ∨
      (∃ e, t.claimKey m c k = .error e) ∧ ¬t.Fits m s (ks ++ [k]) := by
  unfold claimKey
  rcases h.entry k with ⟨c', hc', hclaimed, hcount⟩ | ⟨⟨e, he⟩, hcount⟩
  · rw [hc']
    have hcounted : ∀ k' ∈ ks ++ [k], ∀ ws, m.get k' = some ws → Counted ws t.tpSize := by
      intro k' hk'
      rcases List.mem_append.1 hk' with hk' | hk'
      · exact hfit.counted k' hk'
      · rw [List.mem_singleton.1 hk']
        exact hcount
    have hb := hclaimed.bound
    rw [streamed_concat]
    by_cases hsp : t.spansAll ∧ fresh m (ks ++ [k]) ≠ []
    · rw [if_neg hsp.2] at hb
      have hsingle : (c'.mapping (k.1, none) = none ∨
          c'.mapping (k.1, none) = some s.groups.length) ↔ s.mapping (k.1, none) = none := by
        rw [hclaimed.stream]
        by_cases hn : k.1 ∈ t.streamed m ks
        · simp [hn, hfit.single k.1 hn]
        · rw [if_neg hn]
          have hbelow := hs (k.1, none) s.groups.length
          constructor
          · rintro (hnone | hself)
            · exact hnone
            · exact absurd (hbelow hself) (lt_irrefl _)
          · exact Or.inl
      simp only [bind, Except.bind, if_pos hsp, if_pos hsp.1, claimStreaming_eq k.1 _ hb,
        hsingle]
      by_cases hnone : s.mapping (k.1, none) = none
      · refine Or.inl ⟨_, if_pos hnone, hclaimed.streamed k.1, hcounted, ?_⟩
        intro n hn
        rw [streamed_concat, if_pos hsp] at hn
        rcases List.mem_append.1 hn with hn | hn
        · exact hfit.single n hn
        · rw [List.mem_singleton.1 hn]
          exact hnone
      · refine Or.inr ⟨⟨_, if_neg hnone⟩, ?_⟩
        intro hf
        refine hnone (hf.single k.1 ?_)
        rw [streamed_concat, if_pos hsp]
        simp
    · have hok : (if t.spansAll then claimStreaming c' k.1 else .ok c') = .ok c' := by
        by_cases hall : t.spansAll
        · have hf : fresh m (ks ++ [k]) = [] := by
            by_contra hf
            exact hsp ⟨hall, hf⟩
          rw [if_pos hf] at hb
          rw [if_pos hall]
          unfold claimStreaming
          rw [hb]
        · exact if_neg hall
      rw [if_neg hsp]
      refine Or.inl ⟨c', hok, hclaimed, hcounted, ?_⟩
      intro n hn
      rw [streamed_concat, if_neg hsp] at hn
      exact hfit.single n hn
  · rw [he]
    refine Or.inr ⟨⟨e, rfl⟩, ?_⟩
    intro hf
    exact hcount (hf.counted k (by simp))

/-- A template over its keys: it goes through exactly if they all fit. -/
theorem claimed_keys (hs : s.Below) (ks : List (Key σ)) :
    (∃ c, ks.foldlM (t.claimKey m) { s with bound := none } = .ok c ∧
        Claimed t m s ks (t.streamed m ks) c ∧ t.Fits m s ks) ∨
      (∃ e, ks.foldlM (t.claimKey m) { s with bound := none } = .error e) ∧
        ¬t.Fits m s ks := by
  induction ks using List.reverseRecOn with
  | nil =>
    refine Or.inl ⟨_, rfl, ?_, ?_, ?_⟩
    · simpa [streamed, fresh] using Claimed.nil
    · simp
    · simp [streamed, fresh]
  | append_singleton ks k ih =>
    rw [List.foldlM_append]
    rcases ih with ⟨c, hc, hclaimed, hfit⟩ | ⟨⟨e, he⟩, hfit⟩
    · rw [hc]
      simp only [List.foldlM_cons, List.foldlM_nil, bind_pure]
      exact hclaimed.key hs hfit k
    · rw [he]
      refine Or.inr ⟨⟨e, rfl⟩, ?_⟩
      exact fun hf => hfit hf.of_concat

/-- A key the request has is among those of a template exactly if the template
claims it, in any order of the walks. -/
theorem mem_keys (o : HashOrder m) {k : Key σ} :
    (k ∈ t.keys o.walks ∧ m.has k) ↔ t.claims m k := by
  unfold keys claims
  rw [List.mem_flatMap]
  simp only [List.mem_map, Prod.ext_iff, Bool.and_eq_true, decide_eq_true_eq]
  constructor
  · rintro ⟨⟨node, hnode, walk, hwalk, rfl, rfl⟩, hk⟩
    refine ⟨⟨hnode, ?_⟩, hk⟩
    cases hws : t.graphWalks with
    | none => rfl
    | some ws => simpa [hws] using hwalk
  · rintro ⟨⟨hnode, hwalk⟩, hk⟩
    refine ⟨⟨k.1, hnode, k.2, ?_, rfl, rfl⟩, hk⟩
    cases hws : t.graphWalks with
    | none => exact (o.mem_walks k.2).2 ⟨k.1, hk⟩
    | some ws => simpa [hws] using hwalk

/-- The keys of a node the request is not about are passed over. -/
theorem fresh_node_of_not (o : HashOrder m) {n : σ} (hn : m.hasNode n = false) :
    fresh m (o.walks.map fun walk => (n, walk)) = [] := by
  rw [fresh_eq_nil]
  intro k hk
  obtain ⟨w, -, rfl⟩ := List.mem_map.1 hk
  by_contra hw
  have hnode := NodeWorkers.hasNode_iff.2 ⟨w, by simpa using hw⟩
  rw [hn] at hnode
  cases hnode

/-- Those of a node it is about are not. -/
theorem fresh_node_ne_nil (o : HashOrder m) {n : σ} (hn : m.hasNode n) :
    fresh m (o.walks.map fun walk => (n, walk)) ≠ [] := by
  obtain ⟨w, hw⟩ := NodeWorkers.hasNode_iff.1 hn
  intro hf
  have hmem : (n, w) ∈ o.walks.map fun walk => (n, walk) :=
    List.mem_map.2 ⟨w, (o.mem_walks w).2 ⟨n, hw⟩, rfl⟩
  rw [fresh_eq_nil.1 hf _ hmem] at hw
  cases hw

/-- On every walk, the keys from the first one the request has are about the
nodes from the first one it is about. -/
theorem mem_fresh_nodes (o : HashOrder m) (nodes : List σ) (n : σ) :
    n ∈ (fresh m (nodes.flatMap fun node => o.walks.map fun walk => (node, walk))).map
        Prod.fst ↔
      n ∈ nodes.dropWhile fun n => !m.hasNode n := by
  induction nodes with
  | nil => simp [fresh]
  | cons node nodes ih =>
    have happ : fresh m ((node :: nodes).flatMap fun node => o.walks.map fun walk =>
          (node, walk)) =
        if fresh m (o.walks.map fun walk => (node, walk)) = [] then
          fresh m (nodes.flatMap fun node => o.walks.map fun walk => (node, walk))
        else fresh m (o.walks.map fun walk => (node, walk)) ++
          nodes.flatMap fun node => o.walks.map fun walk => (node, walk) := by
      unfold fresh
      rw [List.flatMap_cons, List.dropWhile_append]
      simp only [List.isEmpty_iff]
    rw [happ, List.dropWhile_cons]
    cases hnode : m.hasNode node with
    | false =>
      rw [if_pos (fresh_node_of_not o hnode)]
      simpa using ih
    | true =>
      have hne := fresh_node_ne_nil o hnode
      have hwalks : o.walks ≠ [] := by
        intro hw
        simp [hw, fresh] at hne
      have hfst : ∀ x ∈ fresh m (o.walks.map fun walk => (node, walk)), x.1 = node := by
        intro x hx
        obtain ⟨w, -, rfl⟩ := List.mem_map.1 ((List.dropWhile_sublist _).mem hx)
        rfl
      rw [if_neg hne]
      simp only [List.map_append, List.mem_append, List.mem_map, List.mem_flatMap,
        Bool.not_true, Bool.false_eq_true, if_false, List.mem_cons]
      constructor
      · rintro (⟨x, hx, rfl⟩ | ⟨x, ⟨node', hnode', walk, -, rfl⟩, rfl⟩)
        · exact Or.inl (hfst x hx)
        · exact Or.inr hnode'
      · rintro (rfl | hn)
        · obtain ⟨x, hx⟩ := List.exists_mem_of_ne_nil _ hne
          exact Or.inl ⟨x, hx, hfst x hx⟩
        · obtain ⟨w, hw⟩ := List.exists_mem_of_ne_nil _ hwalks
          exact Or.inr ⟨(n, w), ⟨n, hn, w, hw, rfl⟩, rfl⟩

/-- Which nodes are streamed. -/
theorem mem_streamed (o : HashOrder m) {n : σ} :
    n ∈ t.streamed m (t.keys o.walks) ↔ t.streams m n := by
  unfold streamed streams spansAll keys
  cases hws : t.graphWalks with
  | none => simpa using mem_fresh_nodes o t.nodes n
  | some ws => simp

/-- The key that binds the group, if one does. -/
def firstKey (t : GroupTemplate σ) (m : NodeWorkers σ) (allWalks : List σ) :
    Option (Key σ) :=
  (t.keys allWalks).find? m.has

/-- A template binds where it claims a key. -/
theorem binds_iff : t.binds m ↔ ∃ k, t.claims m k := by
  unfold binds
  rw [List.any_eq_true]
  constructor
  · rintro ⟨e, -, he⟩
    exact ⟨e.1, he⟩
  · rintro ⟨k, hk⟩
    have hhas : m.has k := by
      unfold claims at hk
      simp only [Bool.and_eq_true] at hk
      exact hk.2
    obtain ⟨ws, hws⟩ := NodeWorkers.has_iff.1 hhas
    exact ⟨(k, ws), NodeWorkers.get_eq_some.1 hws, hk⟩

/-- The first key is claimed. -/
theorem claims_of_firstKey (o : HashOrder m) {k : Key σ}
    (h : t.firstKey m o.walks = some k) : t.claims m k :=
  (mem_keys o).1 ⟨List.mem_of_find?_eq_some h, List.find?_some h⟩

/-- There is one where the template binds. -/
theorem firstKey_isSome (o : HashOrder m) : (t.firstKey m o.walks).isSome = t.binds m := by
  rw [Bool.eq_iff_iff, binds_iff, Option.isSome_iff_exists]
  constructor
  · rintro ⟨k, hk⟩
    exact ⟨k, claims_of_firstKey o hk⟩
  · rintro ⟨k, hk⟩
    obtain ⟨hmem, hhas⟩ := (mem_keys o).2 hk
    exact Option.isSome_iff_exists.1 (List.find?_isSome.2 ⟨k, hmem, hhas⟩)

/-- A template after all its keys. -/
structure Bound (t : GroupTemplate σ) (m : NodeWorkers σ) (o : HashOrder m)
    (s s' : Setup σ) : Prop where
  groups : s'.groups = s.groups ++ ((t.firstKey m o.walks).map (t.groupFrom m)).toList
  walk : ∀ k : Key σ, s'.mapping (k.1, some k.2) =
    if t.claims m k then some s.groups.length else s.mapping (k.1, some k.2)
  stream : ∀ n, s'.mapping (n, none) =
    if t.streams m n then some s.groups.length else s.mapping (n, none)

/-- What a template asks of the assignment and of the templates before it. -/
structure Admits (t : GroupTemplate σ) (m : NodeWorkers σ) (s : Setup σ) : Prop where
  counted : ∀ k, t.claims m k → ∀ ws, m.get k = some ws → Counted ws t.tpSize
  single : ∀ n, t.streams m n → s.mapping (n, none) = none

/-- A template fits its keys where it admits the assignment. -/
theorem fits_iff (o : HashOrder m) : t.Fits m s (t.keys o.walks) ↔ t.Admits m s := by
  constructor
  · intro h
    constructor
    · intro k hk
      exact h.counted k ((mem_keys o).2 hk).1
    · intro n hn
      exact h.single n ((mem_streamed o).2 hn)
  · intro h
    constructor
    · intro k hk ws hws
      exact h.counted k ((mem_keys o).1 ⟨hk, NodeWorkers.has_iff.2 ⟨ws, hws⟩⟩) ws hws
    · intro n hn
      exact h.single n ((mem_streamed o).1 hn)

/-- One template: what it asks decides whether it goes through, in every order
of the walks. -/
theorem claim_bound (o : HashOrder m) (hs : s.Below) :
    (∃ s', t.claim m o.walks s = .ok s' ∧ t.Bound m o s s' ∧ t.Admits m s) ∨
      (∃ e, t.claim m o.walks s = .error e) ∧ ¬t.Admits m s := by
  unfold claim
  rcases claimed_keys (t := t) (m := m) hs (t.keys o.walks) with
    ⟨c, hc, hclaimed, hfit⟩ | ⟨⟨e, he⟩, hfit⟩
  · rw [hc]
    refine Or.inl ⟨c.toSetup, rfl, ?_, (fits_iff o).1 hfit⟩
    constructor
    · exact hclaimed.groups
    · intro k
      rw [hclaimed.walk]
      simp only [mem_keys o]
    · intro n
      rw [hclaimed.stream]
      simp only [mem_streamed o]
  · rw [he]
    exact Or.inr ⟨⟨e, rfl⟩, fun h => hfit ((fits_iff o).2 h)⟩

end GroupTemplate

end Mstar.ShardSetup
