import Mstar.ShardLeftovers

/-!
# Which assignments a resolved sharding follows

A template binds its group from one key and compares only lengths at the
others, and it may take a key from a template before it. The resolved groups
follow the assignment, in every hash order, exactly if each key's workers are
those of every key its template may bind from, and a streaming lookup is
answered by nothing but the group of all the node's walks.
-/

namespace Mstar.ShardSetup

variable {σ : Type*} [DecidableEq σ]

/-- What a resolved sharding owes the assignment. -/
structure Faithful (m : NodeWorkers σ) (r : ShardMap σ) : Prop where
  workers : ∀ n w ws, m.get (n, w) = some ws →
    ∃ g, r.groupOf n (some w) = some g ∧ g.workers = ws
  streaming : ∀ n i, r.groupMapping (n, none) = some i →
    ∀ w, m.has (n, w) → r.groupMapping (n, some w) = some i

/-- Every process resolves the request, and to the same groups. -/
structure Follows (config : ShardingTemplate σ) (m : NodeWorkers σ) : Prop where
  faithful : ∀ (o : HashOrder m) r, config.instantiate m o = .ok r → Faithful m r
  agreed : ∀ (o o' : HashOrder m) r, config.instantiate m o = .ok r →
    ∃ r', config.instantiate m o' = .ok r' ∧ ∀ n w, r'.groupOf n w = r.groupOf n w

/-- The keys a template may bind its group from: its first key the request has,
and on every walk any key of the first node the request is about. -/
def GroupTemplate.MayBind (t : GroupTemplate σ) (m : NodeWorkers σ) (b : Key σ) : Prop :=
  match t.graphWalks with
  | none => m.has b ∧ t.nodes.find? m.hasNode = some b.1
  | some ws => (t.keys ws).find? m.has = some b

/-- A key no template claims. -/
def Unclaimed (ts : List (GroupTemplate σ)) (m : NodeWorkers σ) (k : Key σ) : Prop :=
  ∀ t ∈ ts, t.claims m k = false

/-- The assignments `instantiate` goes through with: as many workers as ranks
at every key, and no streaming lookup answered by two templates. -/
structure Accepted (ts : List (GroupTemplate σ)) (m : NodeWorkers σ) : Prop where
  counted : ∀ t ∈ ts, ∀ k, t.claims m k → ∀ ws, m.get k = some ws → Counted ws t.tpSize
  single : ts.Pairwise fun t u => ∀ n, t.streams m n → u.streams m n = false
  one : ∀ k ws, m.get k = some ws → Unclaimed ts m k → Counted ws 1

/-- The assignments that agree with the config. -/
structure Consistent (ts : List (GroupTemplate σ)) (m : NodeWorkers σ) : Prop where
  /-- A key has the workers of every key its last template may bind from. -/
  workers : ∀ pre t post k, ts = pre ++ t :: post → t.claims m k →
    (∀ u ∈ post, u.claims m k = false) → ∀ b, t.MayBind m b → m.get b = m.get k
  /-- No later template takes a key of a node on every walk. -/
  streams : ∀ pre t post n, ts = pre ++ t :: post → t.streams m n →
    ∀ w, ∀ u ∈ post, u.claims m (n, w) = false
  /-- A node whose leftovers have one worker list has only leftovers. -/
  leftovers : ∀ n w ws, m.get (n, w) = some ws → Unclaimed ts m (n, w) →
    (∀ w' ws', m.get (n, w') = some ws' → Unclaimed ts m (n, w') → ws' = ws) →
    ∀ w', Unclaimed ts m (n, w')

namespace ShardingTemplate

open GroupTemplate Leftovers

variable {m : NodeWorkers σ} {o : HashOrder m} {s s' : Setup σ}
  {ts : List (GroupTemplate σ)} {config : ShardingTemplate σ} {r : ShardMap σ}

/-- The templates before and after the last one of a kind. -/
theorem none_or_last {α : Type*} (P : α → Bool) (xs : List α) :
    (∀ x ∈ xs, P x = false) ∨
      ∃ before x after, xs = before ++ x :: after ∧ P x ∧ ∀ y ∈ after, P y = false := by
  induction xs with
  | nil => exact Or.inl (by simp)
  | cons x xs ih =>
    rcases ih with hnone | ⟨before, y, after, rfl, hy, hafter⟩
    · cases hx : P x with
      | true => exact Or.inr ⟨[], x, xs, rfl, hx, hnone⟩
      | false => exact Or.inl (List.forall_mem_cons.2 ⟨hx, hnone⟩)
    · exact Or.inr ⟨x :: before, y, after, rfl, hy, hafter⟩

/-- A key is claimed by a last template or by none. -/
theorem unclaimed_or_last (ts : List (GroupTemplate σ)) (m : NodeWorkers σ) (k : Key σ) :
    Unclaimed ts m k ∨ ∃ pre t post, ts = pre ++ t :: post ∧ t.claims m k ∧
      ∀ u ∈ post, u.claims m k = false :=
  none_or_last (fun t : GroupTemplate σ => t.claims m k) ts

/-- What the templates leave is what none of them claims. -/
theorem Resolved.left_iff (h : Resolved ts m o s) {k : Key σ} :
    Left s.mapping k ↔ Unclaimed ts m k := by
  constructor
  · intro hleft
    rcases unclaimed_or_last ts m k with hnone | ⟨pre, t, post, hts, ht, hpost⟩
    · exact hnone
    · have hsome := h.walk pre t post k hts ht hpost
      rw [hleft] at hsome
      cases hsome
  · exact h.noWalk k

/-- A request resolved: the setup after the templates, and what it became. -/
structure Resolves (config : ShardingTemplate σ) (m : NodeWorkers σ) (o : HashOrder m)
    (s : Setup σ) (r : ShardMap σ) : Prop where
  resolved : Resolved config.groups m o s
  finished : Finished m s ⟨r.groups, r.groupMapping⟩

/-- A request is resolved exactly if its assignment is accepted, whatever the
hash order. -/
theorem instantiate_cases (config : ShardingTemplate σ) (o : HashOrder m) :
    (∃ s r, config.instantiate m o = .ok r ∧ Resolves config m o s r ∧
        Accepted config.groups m) ∨
      (∃ e, config.instantiate m o = .error e) ∧ ¬Accepted config.groups m := by
  unfold instantiate
  rcases claimAll_resolved o config.groups with ⟨s, hs, hres, -, hadm⟩ | ⟨⟨e, he⟩, hadm⟩
  · rw [hs]
    have hone : (∀ k ws, m.get k = some ws → Left s.mapping k → Counted ws 1) ↔
        Accepted config.groups m := by
      simp only [hres.left_iff]
      exact ⟨fun h => ⟨hadm.counted, hadm.single, h⟩, fun h => h.one⟩
    rw [← hone]
    rcases singletons_finished o s with ⟨s', hs', hfin, hc⟩ | ⟨⟨e, he⟩, hc⟩
    · refine Or.inl ⟨s, ⟨s'.groups, s'.mapping, config.shardDim, config.me⟩, ?_,
        ⟨hres, hfin⟩, hc⟩
      simp only [bind, Except.bind, hs']
    · refine Or.inr ⟨⟨e, ?_⟩, hc⟩
      simp only [bind, Except.bind, he]
  · rw [he]
    exact Or.inr ⟨⟨e, rfl⟩, fun h => hadm ⟨h.counted, h.single⟩⟩

/-- What is accepted is instantiated. -/
theorem exists_instantiate (o : HashOrder m) (h : Accepted config.groups m) :
    ∃ s r, config.instantiate m o = .ok r ∧ Resolves config m o s r := by
  rcases instantiate_cases config o with ⟨s, r, hr, hres, -⟩ | ⟨-, hnot⟩
  · exact ⟨s, r, hr, hres⟩
  · exact absurd h hnot

/-- What is instantiated was accepted. -/
theorem resolves_of_ok (h : config.instantiate m o = .ok r) :
    Accepted config.groups m ∧ ∃ s, Resolves config m o s r := by
  rcases instantiate_cases config o with ⟨s, r', hr', hres, hacc⟩ | ⟨⟨e, he⟩, -⟩
  · rw [h] at hr'
    cases hr'
    exact ⟨hacc, s, hres⟩
  · rw [h] at he
    cases he

/-- A group for each template that binds. -/
theorem Resolves.slot_eq (h : Resolves config m o s r) :
    s.groups.length = slot m config.groups := by
  rw [h.resolved.groups, length_groupsOf]

/-- A key some template claims leads where the templates led it. -/
theorem Resolves.claimed (h : Resolves config m o s r) {pre post : List (GroupTemplate σ)}
    {t : GroupTemplate σ} {k : Key σ} (hts : config.groups = pre ++ t :: post)
    (ht : t.claims m k) (hpost : ∀ u ∈ post, u.claims m k = false) :
    r.groupMapping (k.1, some k.2) = some (slot m pre) := by
  have hleft : ¬Left s.mapping k := by
    rw [h.resolved.left_iff, hts]
    intro hun
    rw [hun t (by simp)] at ht
    cases ht
  have hkept := h.finished.otherWalk k (Or.inr hleft)
  dsimp only at hkept
  rw [hkept]
  exact h.resolved.walk pre t post k hts ht hpost

/-- The group at the index of a template. -/
theorem Resolves.group (h : Resolves config m o s r) {pre post : List (GroupTemplate σ)}
    {t : GroupTemplate σ} {b : Key σ} (hts : config.groups = pre ++ t :: post)
    (hb : t.firstKey m o.walks = some b) :
    r.groups[slot m pre]? = some (t.groupFrom m b) := by
  have hat := groupsOf_slot o pre post t hb
  obtain ⟨more, hmore⟩ := h.finished.groups
  dsimp only at hmore
  rw [← hts, ← h.resolved.groups] at hat
  have hlt : slot m pre < s.groups.length := (List.getElem?_eq_some_iff.1 hat).1
  rw [hmore, List.getElem?_append_left hlt, hat]

/-- A template on every walk that answers a node's streaming lookup claims all
the keys of the node. -/
theorem claims_of_streams {t : GroupTemplate σ} {n w : σ} (ht : t.streams m n)
    (hw : m.has (n, w)) : t.claims m (n, w) := by
  unfold streams at ht
  simp only [Bool.and_eq_true, decide_eq_true_eq] at ht
  have hall : t.graphWalks = none := Option.isNone_iff_eq_none.1 ht.1
  have hmem : n ∈ t.nodes := (List.dropWhile_sublist _).mem ht.2
  unfold claims
  simp [hmem, hall, hw]

/-- The streaming lookup of a node leads to the one template that answers it. -/
theorem Resolves.streamed (h : Resolves config m o s r) {pre post : List (GroupTemplate σ)}
    {t : GroupTemplate σ} {n : σ} (hts : config.groups = pre ++ t :: post)
    (ht : t.streams m n) : r.groupMapping (n, none) = some (slot m pre) := by
  have hnot : ∀ ws, ¬OneList s.mapping m n ws := by
    intro ws hone
    obtain ⟨w, hw, hleft⟩ := hone.left
    have hclaims := claims_of_streams ht (NodeWorkers.has_iff.2 ⟨ws, hw⟩)
    rw [h.resolved.left_iff.1 hleft t (by rw [hts]; simp)] at hclaims
    cases hclaims
  have hkept := h.finished.otherStream n hnot
  dsimp only at hkept
  rw [hkept]
  exact h.resolved.stream pre t post n hts ht

/-- On every walk, the key that comes first is one of the first node the
request is about. -/
theorem find_onWalks (o : HashOrder m) (nodes : List σ) (b : Key σ)
    (h : (nodes.flatMap fun node => o.walks.map fun walk => (node, walk)).find? m.has =
      some b) : nodes.find? m.hasNode = some b.1 := by
  induction nodes with
  | nil => simp at h
  | cons node nodes ih =>
    rw [List.flatMap_cons, List.find?_append] at h
    rw [List.find?_cons]
    cases hnode : m.hasNode node with
    | false =>
      rw [find_eq_none.2 (fresh_node_of_not o hnode), Option.none_or] at h
      exact ih h
    | true =>
      cases hfind : (o.walks.map fun walk => (node, walk)).find? m.has with
      | none => exact absurd (find_eq_none.1 hfind) (fresh_node_ne_nil o hnode)
      | some b' =>
        rw [hfind, Option.some_or] at h
        cases h
        obtain ⟨w, -, rfl⟩ := List.mem_map.1 (List.mem_of_find?_eq_some hfind)
        rfl

/-- A hash order that meets the walk of a key first. -/
def frontOrder (m : NodeWorkers σ) (b : Key σ) (hb : m.has b) : HashOrder m :=
  { m.order with
    walks := b.2 :: m.order.walks.erase b.2
    walks_nodup := by
      rw [List.nodup_cons]
      exact ⟨m.order.walks_nodup.not_mem_erase, m.order.walks_nodup.erase _⟩
    mem_walks := by
      intro w
      have hmem : b.2 ∈ m.order.walks := (m.order.mem_walks b.2).2 ⟨b.1, hb⟩
      rw [← m.order.mem_walks w]
      exact (List.perm_cons_erase hmem).symm.mem_iff }

/-- The keys a template may bind its group from are those that come first in
some hash order. -/
theorem mayBind_iff {t : GroupTemplate σ} {b : Key σ} :
    t.MayBind m b ↔ ∃ o : HashOrder m, t.firstKey m o.walks = some b := by
  unfold MayBind firstKey keys
  cases hws : t.graphWalks with
  | some ws =>
    constructor
    · exact fun h => ⟨m.order, h⟩
    · exact fun h => h.choose_spec
  | none =>
    constructor
    · rintro ⟨hb, hnode⟩
      refine ⟨frontOrder m b hb, ?_⟩
      obtain ⟨-, pre, post, hnodes, hpre⟩ := List.find?_eq_some_iff_append.1 hnode
      have hnone : (pre.flatMap fun node => (frontOrder m b hb).walks.map fun walk =>
          (node, walk)).find? m.has = none := by
        rw [List.find?_eq_none]
        intro k hk hhas
        obtain ⟨n, hn, hkn⟩ := List.mem_flatMap.1 hk
        obtain ⟨w, -, rfl⟩ := List.mem_map.1 hkn
        have hn' := hpre n hn
        rw [NodeWorkers.hasNode_iff.2 ⟨w, hhas⟩] at hn'
        cases hn'
      rw [Option.getD_none, hnodes, List.flatMap_append, List.find?_append, hnone,
        Option.none_or, List.flatMap_cons]
      unfold frontOrder
      rw [List.map_cons, List.cons_append, List.find?_cons_of_pos hb]
    · rintro ⟨o, ho⟩
      exact ⟨List.find?_some ho, find_onWalks o t.nodes b ho⟩

/-- A claimed key is assigned. -/
theorem has_of_claims {t : GroupTemplate σ} {k : Key σ} (h : t.claims m k) : m.has k := by
  unfold claims at h
  simp only [Bool.and_eq_true] at h
  exact h.2

/-- A key whose template binds from keys with its own workers. -/
theorem Resolves.groupOf_claimed (h : Resolves config m o s r)
    {pre post : List (GroupTemplate σ)} {t : GroupTemplate σ} {k : Key σ}
    (hts : config.groups = pre ++ t :: post) (ht : t.claims m k)
    (hpost : ∀ u ∈ post, u.claims m k = false)
    (hsame : ∀ b, t.MayBind m b → m.get b = m.get k) :
    r.groupOf k.1 (some k.2) = some (t.groupFrom m k) := by
  have hbinds := binds_of_claims ht
  rw [← firstKey_isSome o] at hbinds
  obtain ⟨b, hb⟩ := Option.isSome_iff_exists.1 hbinds
  unfold ShardMap.groupOf
  rw [h.claimed hts ht hpost, Option.bind_some, h.group hts hb]
  unfold groupFrom
  rw [hsame b (mayBind_iff.2 ⟨o, hb⟩)]

/-- A key no template claims. -/
theorem Resolves.groupOf_left (h : Resolves config m o s r) {k : Key σ} {ws : List σ}
    (hk : m.get k = some ws) (hun : Unclaimed config.groups m k) :
    r.groupOf k.1 (some k.2) = some ⟨ws, 1, some 0⟩ := by
  have hleft := h.resolved.left_iff.2 hun
  obtain ⟨j, -, hj, hwalk, -⟩ := h.finished.left k ws hk hleft
  unfold ShardMap.groupOf
  have hkey := hwalk k.2 hk hleft
  dsimp only at hkey hj
  rw [hkey, Option.bind_some, hj]

/-- A key the request does not have. -/
theorem Resolves.groupOf_absent (h : Resolves config m o s r) {k : Key σ}
    (hk : m.get k = none) : r.groupOf k.1 (some k.2) = none := by
  have hkept := h.finished.otherWalk k (Or.inl hk)
  have hun : ∀ t ∈ config.groups, t.claims m k = false := by
    intro t _
    by_contra ht
    have hhas := has_of_claims (by simpa using ht)
    rw [NodeWorkers.has_eq_false.2 hk] at hhas
    cases hhas
  dsimp only at hkept
  unfold ShardMap.groupOf
  rw [hkept, h.resolved.noWalk k hun]
  rfl

/-- The first node of a template on every walk has its streaming lookup
answered. -/
theorem streams_of_mayBind {t : GroupTemplate σ} {n : σ} {b : Key σ} (ht : t.streams m n)
    (hb : t.MayBind m b) : t.streams m b.1 ∧ m.has b := by
  unfold streams at ht
  simp only [Bool.and_eq_true] at ht
  have hall : t.graphWalks = none := Option.isNone_iff_eq_none.1 ht.1
  unfold MayBind at hb
  rw [hall] at hb
  refine ⟨?_, hb.1⟩
  unfold streams
  rw [ht.1, Bool.true_and, decide_eq_true_eq]
  have hhead := hb.2
  rw [List.find?_eq_head?_dropWhile_not] at hhead
  exact List.mem_of_mem_head? hhead

/-- The streaming lookup of a node some template answers. -/
theorem Resolves.groupOf_streamed (h : Resolves config m o s r)
    (hcons : Consistent config.groups m) {pre post : List (GroupTemplate σ)}
    {t : GroupTemplate σ} {n : σ} {b : Key σ} (hts : config.groups = pre ++ t :: post)
    (ht : t.streams m n) (hb : t.MayBind m b) :
    r.groupOf n none = some (t.groupFrom m b) := by
  have hbinds := binds_of_streams ht
  rw [← firstKey_isSome o] at hbinds
  obtain ⟨b', hb'⟩ := Option.isSome_iff_exists.1 hbinds
  obtain ⟨hstreams, hhas⟩ := streams_of_mayBind ht hb
  have hsame : m.get b' = m.get b :=
    hcons.workers pre t post b hts (claims_of_streams hstreams hhas)
      (hcons.streams pre t post b.1 hts hstreams b.2) b' (mayBind_iff.2 ⟨o, hb'⟩)
  unfold ShardMap.groupOf
  rw [h.streamed hts ht, Option.bind_some, h.group hts hb']
  unfold groupFrom
  rw [hsame]

/-- A node whose leftovers have one worker list. -/
theorem Resolves.oneList_iff (h : Resolves config m o s r) {n : σ} {ws : List σ} :
    OneList s.mapping m n ws ↔
      (∃ w, m.get (n, w) = some ws ∧ Unclaimed config.groups m (n, w)) ∧
        ∀ w ws', m.get (n, w) = some ws' → Unclaimed config.groups m (n, w) → ws' = ws := by
  have hleft : ∀ w, Left s.mapping (n, w) ↔ Unclaimed config.groups m (n, w) :=
    fun w => h.resolved.left_iff
  constructor
  · rintro ⟨⟨w, hw, hl⟩, hsame⟩
    exact ⟨⟨w, hw, (hleft w).1 hl⟩, fun w' ws' hw' hun => hsame w' ws' hw' ((hleft w').2 hun)⟩
  · rintro ⟨⟨w, hw, hun⟩, hsame⟩
    exact ⟨⟨w, hw, (hleft w).2 hun⟩, fun w' ws' hw' hl => hsame w' ws' hw' ((hleft w').1 hl)⟩

/-- The streaming lookup of a node no template answers: the singleton of its
one worker list, if there is one, and nothing otherwise. -/
theorem Resolves.unstreamed (h : Resolves config m o s r) {n : σ}
    (hn : ∀ t ∈ config.groups, t.streams m n = false) :
    (∃ w ws j, m.get (n, w) = some ws ∧ Unclaimed config.groups m (n, w) ∧
        OneList s.mapping m n ws ∧ s.groups.length ≤ j ∧
        r.groupMapping (n, none) = some j ∧ r.groupMapping (n, some w) = some j ∧
        r.groupOf n none = some ⟨ws, 1, some 0⟩) ∨
      (∀ ws, ¬OneList s.mapping m n ws) ∧ r.groupMapping (n, none) = none := by
  by_cases hone : ∃ ws, OneList s.mapping m n ws
  · obtain ⟨ws, hone⟩ := hone
    obtain ⟨w, hw, hl⟩ := hone.left
    obtain ⟨j, hle, hj, hwalk, hstream⟩ := h.finished.left (n, w) ws hw hl
    have hnone := hstream hone
    dsimp only at hnone hj
    refine Or.inl ⟨w, ws, j, hw, h.resolved.left_iff.1 hl, hone, hle, hnone, hwalk w hw hl, ?_⟩
    unfold ShardMap.groupOf
    rw [hnone, Option.bind_some, hj]
  · have hno : ∀ ws, ¬OneList s.mapping m n ws := fun ws hws => hone ⟨ws, hws⟩
    have hkept := h.finished.otherStream n hno
    dsimp only at hkept
    rw [h.resolved.noStream n hn] at hkept
    exact Or.inr ⟨hno, hkept⟩

/-- A node some template answers for, with the place of that template. -/
theorem streamed_or_not (ts : List (GroupTemplate σ)) (m : NodeWorkers σ) (n : σ) :
    (∀ t ∈ ts, t.streams m n = false) ∨
      ∃ pre t post, ts = pre ++ t :: post ∧ t.streams m n := by
  by_cases hex : ∃ t ∈ ts, t.streams m n
  · obtain ⟨t, ht, hn⟩ := hex
    obtain ⟨pre, post, hts⟩ := List.append_of_mem ht
    exact Or.inr ⟨pre, t, post, hts, hn⟩
  · refine Or.inl ?_
    intro t ht
    by_contra hn
    exact hex ⟨t, ht, by simpa using hn⟩

/-- A consistent assignment is followed in every hash order. -/
theorem Resolves.faithful (h : Resolves config m o s r) (hcons : Consistent config.groups m) :
    Faithful m r where
  workers := by
    intro n w ws hget
    rcases unclaimed_or_last config.groups m (n, w) with hun | ⟨pre, t, post, hts, ht, hpost⟩
    · exact ⟨_, h.groupOf_left hget hun, rfl⟩
    · refine ⟨_, h.groupOf_claimed hts ht hpost (hcons.workers pre t post _ hts ht hpost), ?_⟩
      simp [groupFrom, hget]
  streaming := by
    intro n i hi w hw
    rcases streamed_or_not config.groups m n with hnone | ⟨pre, t, post, hts, ht⟩
    · rcases h.unstreamed hnone with
        ⟨w₀, ws, j, hget, hun, hone, -, hj, hw₀, -⟩ | ⟨-, hno⟩
      · rw [hj] at hi
        cases hi
        have hsame := (h.oneList_iff.1 hone).2
        have hunw := hcons.leftovers n w₀ ws hget hun hsame w
        obtain ⟨ws', hws'⟩ := NodeWorkers.has_iff.1 hw
        rw [hsame w ws' hws' hunw] at hws'
        obtain ⟨j', -, -, hwalk, -⟩ :=
          h.finished.left (n, w₀) ws hget (h.resolved.left_iff.2 hun)
        have h₀ := hwalk w₀ hget (h.resolved.left_iff.2 hun)
        have h₁ := hwalk w hws' (h.resolved.left_iff.2 hunw)
        dsimp only at h₀ h₁
        rw [h₁, ← h₀, hw₀]
      · rw [hno] at hi
        cases hi
    · rw [h.streamed hts ht] at hi
      cases hi
      exact h.claimed hts (claims_of_streams ht hw) (hcons.streams pre t post n hts ht w)

/-- Two processes resolve a consistent assignment alike. -/
theorem Resolves.agreed {o' : HashOrder m} {r' : ShardMap σ} (h : Resolves config m o s r)
    (h' : Resolves config m o' s' r') (hcons : Consistent config.groups m) (n : σ)
    (w : Option σ) : r'.groupOf n w = r.groupOf n w := by
  cases w with
  | some w =>
    cases hget : m.get (n, w) with
    | none =>
      have hr := h.groupOf_absent hget
      have hr' := h'.groupOf_absent hget
      dsimp only at hr hr'
      rw [hr, hr']
    | some ws =>
      rcases unclaimed_or_last config.groups m (n, w) with
        hun | ⟨pre, t, post, hts, ht, hpost⟩
      · have hr := h.groupOf_left hget hun
        have hr' := h'.groupOf_left hget hun
        dsimp only at hr hr'
        rw [hr, hr']
      · have hsame := hcons.workers pre t post _ hts ht hpost
        have hr := h.groupOf_claimed hts ht hpost hsame
        have hr' := h'.groupOf_claimed hts ht hpost hsame
        dsimp only at hr hr'
        rw [hr, hr']
  | none =>
    rcases streamed_or_not config.groups m n with hnone | ⟨pre, t, post, hts, ht⟩
    · rcases h.unstreamed hnone with ⟨w₀, ws, _, _, _, hone, _, _, _, hr⟩ | ⟨hno, hr⟩
      · rcases h'.unstreamed hnone with ⟨w₁, ws', _, hget', hun', _, _, _, _, hr'⟩ | ⟨hno', _⟩
        · rw [(h.oneList_iff.1 hone).2 w₁ ws' hget' hun'] at hr'
          rw [hr, hr']
        · exact absurd (h'.oneList_iff.2 (h.oneList_iff.1 hone)) (hno' ws)
      · rcases h'.unstreamed hnone with ⟨_, ws', _, _, _, hone', _, _, _, _⟩ | ⟨_, hr'⟩
        · exact absurd (h.oneList_iff.2 (h'.oneList_iff.1 hone')) (hno ws')
        · unfold ShardMap.groupOf
          rw [hr, hr']
          rfl
    · have hbinds := binds_of_streams ht
      rw [← firstKey_isSome o] at hbinds
      obtain ⟨b, hb⟩ := Option.isSome_iff_exists.1 hbinds
      have hmay := mayBind_iff.2 ⟨o, hb⟩
      rw [h.groupOf_streamed hcons hts ht hmay, h'.groupOf_streamed hcons hts ht hmay]

/-- An assignment followed in every hash order is a consistent one. -/
theorem consistent_of_faithful (hacc : Accepted config.groups m)
    (h : ∀ (o : HashOrder m) r, config.instantiate m o = .ok r → Faithful m r) :
    Consistent config.groups m where
  workers := by
    intro pre t post k hts ht hpost b hb
    obtain ⟨o, ho⟩ := mayBind_iff.1 hb
    obtain ⟨s, r, hr, hres⟩ := exists_instantiate o hacc
    obtain ⟨ws, hws⟩ := NodeWorkers.has_iff.1 (has_of_claims ht)
    obtain ⟨wb, hwb⟩ := NodeWorkers.has_iff.1 (has_of_claims (claims_of_firstKey o ho))
    obtain ⟨g, hg, hgw⟩ := (h o r hr).workers k.1 k.2 ws hws
    unfold ShardMap.groupOf at hg
    rw [hres.claimed hts ht hpost, Option.bind_some, hres.group hts ho] at hg
    cases hg
    rw [hws, hwb, ← hgw]
    simp [groupFrom, hwb]
  streams := by
    intro pre t post n hts ht w u hu
    by_contra hclaims
    have hclaims' : u.claims m (n, w) := by simpa using hclaims
    obtain ⟨s, r, hr, hres⟩ := exists_instantiate m.order hacc
    rcases unclaimed_or_last post m (n, w) with hun | ⟨mid, v, rest, hpost, hv, hrest⟩
    · rw [hun u hu] at hclaims'
      cases hclaims'
    · have hcut : config.groups = (pre ++ t :: mid) ++ v :: rest := by
        rw [hts, hpost]
        simp
      have hwalk := hres.claimed hcut hv hrest
      have hsame := (h m.order r hr).streaming n _ (hres.streamed hts ht) w
        (has_of_claims hclaims')
      dsimp only at hwalk
      rw [hwalk] at hsame
      have hlt := slot_lt pre mid (binds_of_streams ht)
      simp only [Option.some.injEq] at hsame
      omega
  leftovers := by
    intro n w ws hget hun hsame w'
    obtain ⟨s, r, hr, hres⟩ := exists_instantiate m.order hacc
    rcases unclaimed_or_last config.groups m (n, w') with
      hun' | ⟨pre, t, post, hts, ht, hpost⟩
    · exact hun'
    · obtain ⟨j, hle, -, -, hstream⟩ :=
        hres.finished.left (n, w) ws hget (hres.resolved.left_iff.2 hun)
      have hj := hstream (hres.oneList_iff.2 ⟨⟨w, hget, hun⟩, hsame⟩)
      have hwalk := hres.claimed hts ht hpost
      have hone := (h m.order r hr).streaming n j hj w' (has_of_claims ht)
      dsimp only at hwalk
      rw [hwalk] at hone
      have hlt := slot_lt pre post (binds_of_claims ht)
      rw [← hts, ← hres.slot_eq] at hlt
      simp only [Option.some.injEq] at hone
      omega

end ShardingTemplate

open ShardingTemplate in
/-- A request's resolved sharding follows its assignment, the same in every
process, exactly if the assignment is refused or agrees with the config. -/
theorem assignment_followed (config : ShardingTemplate σ) (m : NodeWorkers σ) :
    Follows config m ↔ (Accepted config.groups m → Consistent config.groups m) := by
  constructor
  · intro h hacc
    exact consistent_of_faithful hacc h.faithful
  · intro hcons
    constructor
    · intro o r hr
      obtain ⟨hacc, s, hres⟩ := resolves_of_ok hr
      exact hres.faithful (hcons hacc)
    · intro o o' r hr
      obtain ⟨hacc, s, hres⟩ := resolves_of_ok hr
      obtain ⟨s', r', hr', hres'⟩ := exists_instantiate o' hacc
      exact ⟨r', hr', hres.agreed hres' (hcons hacc)⟩

/-- Two nodes of one group that the conductor gave different workers. -/
def twoWorkers : NodeWorkers ℕ where
  entries := [((0, 10), [100]), ((1, 10), [101])]
  nodup := by decide

/-- A group of two nodes with one rank, on one walk. -/
def pairGroup : ShardingTemplate ℕ where
  groups := [⟨[0, 1], 1, some [10], some 0⟩]
  shardDim := fun _ => none
  me := 100

/-- Both keys pass the length check, and the second node is routed on the first
one's worker. -/
theorem second_node_rerouted :
    (pairGroup.instantiate twoWorkers twoWorkers.order).toOption.map
        (fun r => (r.groupOf 0 (some 10), r.groupOf 1 (some 10))) =
      some (some ⟨[100], 1, some 0⟩, some ⟨[100], 1, some 0⟩) ∧
    ¬Follows pairGroup twoWorkers := by
  have hrun : (pairGroup.instantiate twoWorkers twoWorkers.order).toOption.map
      (fun r => (r.groupOf 0 (some 10), r.groupOf 1 (some 10))) =
      some (some ⟨[100], 1, some 0⟩, some ⟨[100], 1, some 0⟩) := by
    decide
  constructor
  · exact hrun
  · intro h
    cases hr : pairGroup.instantiate twoWorkers twoWorkers.order with
    | error e =>
      rw [hr] at hrun
      cases hrun
    | ok r =>
      rw [hr] at hrun
      simp only [Except.toOption, Option.map_some, Option.some.injEq, Prod.mk.injEq] at hrun
      obtain ⟨g, hg, hworkers⟩ := (h.faithful _ r hr).workers 1 10 [101] (by decide)
      rw [hrun.2] at hg
      cases hg
      simp at hworkers

end Mstar.ShardSetup
