import Mstar.ShardClaims

/-!
# The lookups after every template

The templates are met in the order of the config. A key leads to the group of
the last template that claims it, a streaming lookup to that of the one
template that answers it, and the groups are those of the templates that bind
one, in that order.
-/

namespace Mstar.ShardSetup

variable {σ : Type*} [DecidableEq σ]

namespace ShardingTemplate

open GroupTemplate

variable {m : NodeWorkers σ} {o : HashOrder m} {s s' : Setup σ}
  {ts : List (GroupTemplate σ)}

/-- The index of the group a template binds after these ones. -/
def slot (m : NodeWorkers σ) (pre : List (GroupTemplate σ)) : ℕ :=
  (pre.filter fun t => t.binds m).length

/-- The groups the templates bind. -/
def groupsOf (m : NodeWorkers σ) (o : HashOrder m) (ts : List (GroupTemplate σ)) :
    List (Group σ) :=
  ts.filterMap fun t => (t.firstKey m o.walks).map (t.groupFrom m)

/-- The lookups after some templates. -/
structure Resolved (ts : List (GroupTemplate σ)) (m : NodeWorkers σ) (o : HashOrder m)
    (s : Setup σ) : Prop where
  groups : s.groups = groupsOf m o ts
  walk : ∀ pre t post (k : Key σ), ts = pre ++ t :: post → t.claims m k →
    (∀ u ∈ post, u.claims m k = false) → s.mapping (k.1, some k.2) = some (slot m pre)
  noWalk : ∀ k : Key σ, (∀ t ∈ ts, t.claims m k = false) → s.mapping (k.1, some k.2) = none
  stream : ∀ pre t post n, ts = pre ++ t :: post → t.streams m n →
    s.mapping (n, none) = some (slot m pre)
  noStream : ∀ n, (∀ t ∈ ts, t.streams m n = false) → s.mapping (n, none) = none

/-- What the templates ask of the assignment: as many workers as ranks at every
key they claim, and no streaming lookup answered twice. -/
structure Admitted (ts : List (GroupTemplate σ)) (m : NodeWorkers σ) : Prop where
  counted : ∀ t ∈ ts, ∀ k, t.claims m k → ∀ ws, m.get k = some ws → Counted ws t.tpSize
  single : ts.Pairwise fun t u => ∀ n, t.streams m n → u.streams m n = false

/-- A group for each template that binds. -/
theorem length_groupsOf (o : HashOrder m) (ts : List (GroupTemplate σ)) :
    (groupsOf m o ts).length = slot m ts := by
  unfold groupsOf slot
  induction ts with
  | nil => rfl
  | cons t ts ih =>
    have ht := firstKey_isSome (t := t) o
    rw [List.filterMap_cons, List.filter_cons, ← ht]
    cases hk : t.firstKey m o.walks with
    | none => simpa using ih
    | some k => simpa using ih

/-- The group a template binds is at the index of its place. -/
theorem groupsOf_slot (o : HashOrder m) (pre post : List (GroupTemplate σ))
    (t : GroupTemplate σ) {k : Key σ} (hk : t.firstKey m o.walks = some k) :
    (groupsOf m o (pre ++ t :: post))[slot m pre]? = some (t.groupFrom m k) := by
  rw [← length_groupsOf o pre]
  unfold groupsOf
  rw [List.filterMap_append, List.getElem?_append_right (le_refl _), Nat.sub_self,
    List.filterMap_cons, hk]
  rfl

/-- The groups of templates one after another. -/
theorem slot_append (pre post : List (GroupTemplate σ)) :
    slot m (pre ++ post) = slot m pre + slot m post := by
  unfold slot
  rw [List.filter_append, List.length_append]

/-- A template that binds a group takes an index of its own. -/
theorem slot_lt (pre mid : List (GroupTemplate σ)) {t : GroupTemplate σ} (ht : t.binds m) :
    slot m pre < slot m (pre ++ t :: mid) := by
  rw [slot_append]
  unfold slot
  rw [List.filter_cons, if_pos ht, List.length_cons]
  omega

/-- A template that claims a key binds. -/
theorem binds_of_claims {t : GroupTemplate σ} {k : Key σ} (h : t.claims m k) : t.binds m :=
  binds_iff.2 ⟨k, h⟩

/-- The end of a list cut at one of its members. -/
theorem cut_concat {α : Type*} {ts pre post : List α} {t u : α}
    (h : ts ++ [u] = pre ++ t :: post) :
    (pre = ts ∧ t = u ∧ post = []) ∨ ∃ post', post = post' ++ [u] ∧ ts = pre ++ t :: post' := by
  rcases List.eq_nil_or_concat post with rfl | ⟨post', u', rfl⟩
  · have h' := List.append_inj' h rfl
    simp only [List.cons.injEq, and_true] at h'
    exact Or.inl ⟨h'.1.symm, h'.2.symm, rfl⟩
  · have hlast : ts ++ [u] = (pre ++ t :: post') ++ [u'] := by simpa using h
    obtain ⟨hts, hu⟩ := List.append_inj' hlast rfl
    rw [List.singleton_inj.1 hu]
    exact Or.inr ⟨post', by simp, hts⟩

/-- No template resolves nothing. -/
theorem Resolved.nil : Resolved [] m o Setup.empty where
  groups := rfl
  walk := by simp
  noWalk := fun _ _ => rfl
  stream := by simp
  noStream := fun _ _ => rfl

/-- A streaming lookup some template answers is one a node of the request
binds. -/
theorem binds_of_streams {t : GroupTemplate σ} {n : σ} (h : t.streams m n) : t.binds m := by
  unfold streams at h
  simp only [Bool.and_eq_true, decide_eq_true_eq] at h
  have hne : t.nodes.dropWhile (fun n => !m.hasNode n) ≠ [] := List.ne_nil_of_mem h.2
  obtain ⟨node, hmem, hnode⟩ : ∃ node ∈ t.nodes, m.hasNode node := by
    by_contra hnone
    refine hne (List.dropWhile_eq_nil_iff.2 ?_)
    intro n hn
    by_contra hhas
    exact hnone ⟨n, hn, by simpa using hhas⟩
  obtain ⟨w, hw⟩ := NodeWorkers.hasNode_iff.1 hnode
  refine binds_of_claims (k := (node, w)) ?_
  have hall : t.graphWalks = none := Option.isNone_iff_eq_none.1 h.1
  unfold claims
  simp [hmem, hall, hw]

/-- One template more. -/
theorem Resolved.concat {t : GroupTemplate σ} (h : Resolved ts m o s) (hb : t.Bound m o s s')
    (hadmits : t.Admits m s) : Resolved (ts ++ [t]) m o s' := by
  have hlen : s.groups.length = slot m ts := by
    rw [h.groups, length_groupsOf]
  constructor
  · rw [hb.groups, h.groups]
    unfold groupsOf
    rw [List.filterMap_append]
    cases ht : t.firstKey m o.walks <;> simp [ht]
  · intro pre u post k hcut hclaims hpost
    rw [hb.walk]
    rcases cut_concat hcut with ⟨rfl, rfl, rfl⟩ | ⟨post', rfl, hts⟩
    · rw [if_pos hclaims, hlen]
    · rw [if_neg (by simp [hpost t (by simp)])]
      exact h.walk pre u post' k hts hclaims fun v hv => hpost v (by simp [hv])
  · intro k hk
    rw [hb.walk, if_neg (by simp [hk t (by simp)])]
    exact h.noWalk k fun u hu => hk u (by simp [hu])
  · intro pre u post n hcut hstreams
    rw [hb.stream]
    rcases cut_concat hcut with ⟨rfl, rfl, rfl⟩ | ⟨post', rfl, hts⟩
    · rw [if_pos hstreams, hlen]
    · -- an earlier template answers the lookup, so this one does not
      have hsome := h.stream pre u post' n hts hstreams
      have hnot : ¬t.streams m n := by
        intro hn
        rw [hadmits.single n hn] at hsome
        cases hsome
      rw [if_neg hnot]
      exact hsome
  · intro n hn
    rw [hb.stream, if_neg (by simp [hn t (by simp)])]
    exact h.noStream n fun u hu => hn u (by simp [hu])

/-- A lookup that leads somewhere leads to a group. -/
theorem below_bound {t : GroupTemplate σ} (hs : s.Below) (hb : t.Bound m o s s') :
    s'.Below := by
  have hgrown : t.binds m → s.groups.length < s'.groups.length := by
    intro ht
    rw [← firstKey_isSome o] at ht
    obtain ⟨k, hk⟩ := Option.isSome_iff_exists.1 ht
    simp [hb.groups, hk]
  have hkept : s.groups.length ≤ s'.groups.length := by
    rw [hb.groups, List.length_append]
    omega
  rintro ⟨n, w⟩ i hi
  cases w with
  | some w =>
    have hwalk := hb.walk (n, w)
    dsimp only at hwalk
    rw [hwalk] at hi
    split at hi
    · rename_i hclaims
      cases hi
      exact hgrown (binds_of_claims hclaims)
    · exact lt_of_lt_of_le (hs _ _ hi) hkept
  | none =>
    rw [hb.stream] at hi
    split at hi
    · rename_i hstreams
      cases hi
      exact hgrown (binds_of_streams hstreams)
    · exact lt_of_lt_of_le (hs _ _ hi) hkept

/-- What one template more asks, beside what those before it ask. -/
theorem admitted_concat {t : GroupTemplate σ} (h : Resolved ts m o s)
    (hts : Admitted ts m) : Admitted (ts ++ [t]) m ↔ t.Admits m s := by
  constructor
  · intro hall
    constructor
    · exact hall.counted t (by simp)
    · intro n hn
      refine h.noStream n ?_
      intro u hu
      have hpair := (List.pairwise_append.1 hall.single).2.2 u hu t (by simp) n
      by_contra hu'
      have hnot := hpair (by simpa using hu')
      rw [hn] at hnot
      cases hnot
  · intro hadmits
    constructor
    · intro u hu
      rcases List.mem_append.1 hu with hu | hu
      · exact hts.counted u hu
      · rw [List.mem_singleton.1 hu]
        exact hadmits.counted
    · refine List.pairwise_append.2 ⟨hts.single, List.pairwise_singleton _ _, ?_⟩
      intro u hu v hv n hn
      rw [List.mem_singleton.1 hv]
      obtain ⟨pre, post, hcut⟩ := List.append_of_mem hu
      by_contra ht
      have hnone := hadmits.single n (by simpa using ht)
      rw [h.stream pre u post n hcut hn] at hnone
      cases hnone

/-- What is admitted with one more template is without. -/
theorem Admitted.of_concat {t : GroupTemplate σ} (h : Admitted (ts ++ [t]) m) :
    Admitted ts m where
  counted := fun u hu => h.counted u (List.mem_append_left _ hu)
  single := (List.pairwise_append.1 h.single).1

/-- The templates go through exactly if the assignment is one they admit. -/
theorem claimAll_resolved (o : HashOrder m) (ts : List (GroupTemplate σ)) :
    (∃ s, claimAll ts m o.walks = .ok s ∧ Resolved ts m o s ∧ s.Below ∧ Admitted ts m) ∨
      (∃ e, claimAll ts m o.walks = .error e) ∧ ¬Admitted ts m := by
  unfold claimAll
  induction ts using List.reverseRecOn with
  | nil =>
    refine Or.inl ⟨_, rfl, Resolved.nil, ?_, ?_⟩
    · simp [Setup.Below, Setup.empty]
    · constructor <;> simp
  | append_singleton ts t ih =>
    rw [List.foldlM_append]
    rcases ih with ⟨s, hs, hresolved, hbelow, hadmitted⟩ | ⟨⟨e, he⟩, hadmitted⟩
    · rw [hs]
      simp only [List.foldlM_cons, List.foldlM_nil, bind_pure]
      rw [admitted_concat hresolved hadmitted]
      rcases claim_bound (t := t) o hbelow with ⟨s', hs', hb, hadmits⟩ | herror
      · exact Or.inl ⟨s', hs', hresolved.concat hb hadmits, below_bound hbelow hb, hadmits⟩
      · exact Or.inr herror
    · rw [he]
      exact Or.inr ⟨⟨e, rfl⟩, fun h => hadmitted h.of_concat⟩

end ShardingTemplate

end Mstar.ShardSetup
