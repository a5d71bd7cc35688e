import Mstar.ShardLookups

/-!
# What no template claims

Keys left over are grouped by their node and their workers, and each group
becomes a singleton. In whatever order the keys and the groups are met, the
leftovers of one node and one worker list share one group, and the streaming
lookup of a node leads to it exactly if the node's leftovers have one worker
list.
-/

namespace Mstar.ShardSetup

variable {σ : Type*} [DecidableEq σ]

namespace Leftovers

variable {mapping : NodeWalk σ → Option ℕ} {l : Leftovers σ} {es : List (Key σ × List σ)}

/-- A key no template has claimed. -/
abbrev Left (mapping : NodeWalk σ → Option ℕ) (k : Key σ) : Prop :=
  mapping (k.1, some k.2) = none

/-- The leftovers among the keys met so far, filed by node and workers. -/
structure Filed (mapping : NodeWalk σ → Option ℕ) (es : List (Key σ × List σ))
    (l : Leftovers σ) : Prop where
  nodup : (l.byNodeWorkers.map Prod.fst).Nodup
  shared : ∀ g ∈ l.byNodeWorkers, ∀ w,
    w ∈ g.2 ↔ ((g.1.1, w), g.1.2) ∈ es ∧ Left mapping (g.1.1, w)
  nonempty : ∀ g ∈ l.byNodeWorkers, g.2 ≠ []
  all : ∀ e ∈ es, Left mapping e.1 → (e.1.1, e.2) ∈ l.byNodeWorkers.map Prod.fst
  combos : ∀ n, l.walkCombos n = (l.byNodeWorkers.filter fun g => g.1.1 = n).length

/-- Nothing is filed. -/
theorem Filed.nil : Filed mapping [] (empty : Leftovers σ) where
  nodup := by simp [empty]
  shared := by simp [empty]
  nonempty := by simp [empty]
  all := by simp
  combos := by simp [empty]

/-- A walk pushed onto the group of its node and workers. -/
def push (e : Key σ × List σ) (g : Shared σ) : Shared σ :=
  if g.1 = (e.1.1, e.2) then (g.1, g.2 ++ [e.1.2]) else g

/-- A group keeps its walk and its workers. -/
@[simp] theorem push_fst (e : Key σ × List σ) (g : Shared σ) : (push e g).1 = g.1 := by
  unfold push
  split <;> rfl

/-- An entry of them adds its node. -/
theorem mem_push {e : Key σ × List σ} {g : Shared σ} {w : σ} :
    w ∈ (push e g).2 ↔ w ∈ g.2 ∨ (g.1 = (e.1.1, e.2) ∧ w = e.1.2) := by
  unfold push
  split
  · rename_i hg
    simp [hg]
  · rename_i hg
    simp [hg]

/-- What one key of the assignment leaves. -/
theorem add_cases (mapping : NodeWalk σ → Option ℕ) (l : Leftovers σ) (e : Key σ × List σ) :
    (¬Left mapping e.1 ∧ add mapping l e = l) ∨
      (Left mapping e.1 ∧ (e.1.1, e.2) ∈ l.byNodeWorkers.map Prod.fst ∧
        add mapping l e = { l with byNodeWorkers := l.byNodeWorkers.map (push e) }) ∨
      (Left mapping e.1 ∧ (e.1.1, e.2) ∉ l.byNodeWorkers.map Prod.fst ∧
        add mapping l e =
          { byNodeWorkers := l.byNodeWorkers ++ [((e.1.1, e.2), [e.1.2])]
            walkCombos := Function.update l.walkCombos e.1.1 (l.walkCombos e.1.1 + 1) }) := by
  have hany : (l.byNodeWorkers.any fun g => g.1 = (e.1.1, e.2)) ↔
      (e.1.1, e.2) ∈ l.byNodeWorkers.map Prod.fst := by
    simp only [List.any_eq_true, decide_eq_true_eq, List.mem_map]
  unfold add
  by_cases hleft : Left mapping e.1
  · rw [if_neg (by simp [hleft])]
    by_cases hin : (e.1.1, e.2) ∈ l.byNodeWorkers.map Prod.fst
    · rw [if_pos (hany.2 hin)]
      exact Or.inr (Or.inl ⟨hleft, hin, rfl⟩)
    · rw [if_neg (fun h => hin (hany.1 h))]
      exact Or.inr (Or.inr ⟨hleft, hin, rfl⟩)
  · rw [if_pos (Option.isSome_iff_ne_none.2 hleft)]
    exact Or.inl ⟨hleft, rfl⟩

/-- One key more. -/
theorem Filed.add (h : Filed mapping es l) (e : Key σ × List σ) :
    Filed mapping (es ++ [e]) (l.add mapping e) := by
  rcases add_cases mapping l e with
    ⟨hleft, heq⟩ | ⟨hleft, hin, heq⟩ | ⟨hleft, hnew, heq⟩
  · rw [heq]
    have hskip : ∀ g : Shared σ, ∀ w, Left mapping (g.1.1, w) → ((g.1.1, w), g.1.2) ≠ e := by
      intro g w hw he
      rw [← he] at hleft
      exact hleft hw
    constructor
    · exact h.nodup
    · intro g hg w
      rw [h.shared g hg, List.mem_append, List.mem_singleton]
      constructor
      · exact fun hw => ⟨Or.inl hw.1, hw.2⟩
      · rintro ⟨hw | hw, hl⟩
        · exact ⟨hw, hl⟩
        · exact absurd hw (hskip g w hl)
    · exact h.nonempty
    · intro e' he' hl
      rcases List.mem_append.1 he' with he' | he'
      · exact h.all e' he' hl
      · rw [List.mem_singleton.1 he'] at hl
        exact absurd hl hleft
    · exact h.combos
  · rw [heq]
    have hfst : (l.byNodeWorkers.map (push e)).map Prod.fst = l.byNodeWorkers.map Prod.fst := by
      rw [List.map_map]
      exact List.map_congr_left fun g _ => push_fst e g
    constructor
    · dsimp only
      rw [hfst]
      exact h.nodup
    · intro g' hg' w
      obtain ⟨g, hg, rfl⟩ := List.mem_map.1 hg'
      rw [mem_push, push_fst, h.shared g hg, List.mem_append, List.mem_singleton]
      constructor
      · rintro (hw | ⟨hge, rfl⟩)
        · exact ⟨Or.inl hw.1, hw.2⟩
        · rw [hge]
          exact ⟨Or.inr rfl, hleft⟩
      · rintro ⟨hw | hw, hl⟩
        · exact Or.inl ⟨hw, hl⟩
        · rw [← hw]
          exact Or.inr ⟨rfl, rfl⟩
    · intro g' hg' hnil
      obtain ⟨g, hg, rfl⟩ := List.mem_map.1 hg'
      obtain ⟨w, hw⟩ := List.exists_mem_of_ne_nil _ (h.nonempty g hg)
      have hmem : w ∈ (push e g).2 := mem_push.2 (Or.inl hw)
      rw [hnil] at hmem
      cases hmem
    · intro e' he' hl
      dsimp only
      rw [hfst]
      rcases List.mem_append.1 he' with he' | he'
      · exact h.all e' he' hl
      · rw [List.mem_singleton.1 he']
        exact hin
    · intro n
      rw [h.combos, List.filter_map, List.length_map]
      congr 1
      refine List.filter_congr ?_
      intro g _
      simp
  · rw [heq]
    constructor
    · dsimp only
      rw [List.map_append, List.nodup_append]
      refine ⟨h.nodup, by simp, ?_⟩
      intro a ha b hb hab
      simp only [List.map_cons, List.map_nil, List.mem_singleton] at hb
      rw [hab, hb] at ha
      exact hnew ha
    · intro g hg w
      rw [List.mem_append, List.mem_singleton]
      rcases List.mem_append.1 hg with hg | hg
      · rw [h.shared g hg]
        constructor
        · exact fun hw => ⟨Or.inl hw.1, hw.2⟩
        · rintro ⟨hw | hw, hl⟩
          · exact ⟨hw, hl⟩
          · refine absurd (List.mem_map.2 ⟨g, hg, ?_⟩) hnew
            rw [← hw]
      · rw [List.mem_singleton.1 hg]
        dsimp only
        constructor
        · intro hw
          rw [List.mem_singleton.1 hw]
          exact ⟨Or.inr rfl, hleft⟩
        · rintro ⟨hw | hw, hl⟩
          · exact absurd (h.all _ hw hl) hnew
          · rw [← hw]
            simp
    · intro g hg
      rcases List.mem_append.1 hg with hg | hg
      · exact h.nonempty g hg
      · rw [List.mem_singleton.1 hg]
        simp
    · intro e' he' hl
      dsimp only
      rw [List.map_append, List.mem_append]
      rcases List.mem_append.1 he' with he' | he'
      · exact Or.inl (h.all e' he' hl)
      · rw [List.mem_singleton.1 he']
        exact Or.inr (by simp)
    · intro n
      dsimp only
      rw [List.filter_append, List.length_append, ← h.combos]
      by_cases hn : n = e.1.1
      · subst hn
        simp
      · simp [Function.update_of_ne hn, Ne.symm hn]

/-- Every key met. -/
theorem filed (mapping : NodeWalk σ → Option ℕ) (es : List (Key σ × List σ)) :
    Filed mapping es (es.foldl (Leftovers.add mapping) empty) := by
  induction es using List.reverseRecOn with
  | nil => exact Filed.nil
  | append_singleton es e ih =>
    rw [List.foldl_append]
    exact ih.add e

/-- The walks of one group led to its index. -/
theorem foldl_lead (n : σ) (idx : ℕ) (ws : List σ) (f : NodeWalk σ → Option ℕ) (k : NodeWalk σ) :
    ws.foldl (fun f w => Function.update f (n, some w) (some idx)) f k =
      if ∃ w ∈ ws, k = (n, some w) then some idx else f k := by
  induction ws generalizing f with
  | nil => simp
  | cons w ws ih =>
    rw [List.foldl_cons, ih]
    by_cases hk : ∃ w' ∈ ws, k = (n, some w')
    · obtain ⟨w', hw', rfl⟩ := hk
      rw [if_pos ⟨w', hw', rfl⟩, if_pos ⟨w', List.mem_cons_of_mem _ hw', rfl⟩]
    · rw [if_neg hk]
      by_cases hw : k = (n, some w)
      · rw [hw, Function.update_self, if_pos ⟨w, by simp, rfl⟩]
      · rw [Function.update_of_ne hw, if_neg]
        rintro ⟨w', hw', he⟩
        rcases List.mem_cons.1 hw' with rfl | hw'
        · exact hw he
        · exact hk ⟨w', hw', he⟩

/-- The singleton of a node and its workers. -/
def single (g : Shared σ) : Group σ := ⟨g.1.2, 1, some 0⟩

/-- The lookups after some singletons. -/
structure Led (combos : σ → ℕ) (s : Setup σ) (gs : List (Shared σ)) (s' : Setup σ) :
    Prop where
  groups : s'.groups = s.groups ++ gs.map single
  walk : ∀ pre g post, gs = pre ++ g :: post → ∀ w ∈ g.2,
    s'.mapping (g.1.1, some w) = some (s.groups.length + pre.length)
  otherWalk : ∀ k : Key σ, (∀ g ∈ gs, g.1.1 = k.1 → k.2 ∉ g.2) →
    s'.mapping (k.1, some k.2) = s.mapping (k.1, some k.2)
  stream : ∀ pre g post, gs = pre ++ g :: post → combos g.1.1 = 1 →
    s'.mapping (g.1.1, none) = some (s.groups.length + pre.length)
  otherStream : ∀ n, (∀ g ∈ gs, g.1.1 = n → combos n ≠ 1) →
    s'.mapping (n, none) = s.mapping (n, none)

/-- Groups none of which takes a lookup from another. -/
structure Apart (combos : σ → ℕ) (gs : List (Shared σ)) : Prop where
  walks : gs.Pairwise fun g g' => g.1.1 = g'.1.1 → ∀ w ∈ g.2, w ∉ g'.2
  streams : gs.Pairwise fun g g' => g.1.1 = g'.1.1 → combos g.1.1 ≠ 1

/-- One singleton. -/
theorem bindShared_eq (combos : σ → ℕ) (s : Setup σ) (g : Shared σ) :
    (∃ s', bindShared combos s g = .ok s' ∧ Counted g.1.2 1 ∧
        s'.groups = s.groups ++ [single g] ∧
        (∀ k : Key σ, s'.mapping (k.1, some k.2) =
          if k.1 = g.1.1 ∧ k.2 ∈ g.2 then some s.groups.length
          else s.mapping (k.1, some k.2)) ∧
        ∀ n, s'.mapping (n, none) =
          if n = g.1.1 ∧ combos g.1.1 = 1 then some s.groups.length
          else s.mapping (n, none)) ∨
      (∃ e, bindShared combos s g = .error e) ∧ ¬Counted g.1.2 1 := by
  unfold bindShared Group.bind
  by_cases hc : Counted g.1.2 1
  · rw [if_pos hc]
    refine Or.inl ⟨_, rfl, hc, rfl, ?_, ?_⟩
    · intro k
      have hmem : (∃ w ∈ g.2, (k.1, some k.2) = (g.1.1, some w)) ↔ k.1 = g.1.1 ∧ k.2 ∈ g.2 := by
        simp only [Prod.mk.injEq, Option.some.injEq]
        constructor
        · rintro ⟨w, hw, hn, rfl⟩
          exact ⟨hn, hw⟩
        · rintro ⟨hn, hw⟩
          exact ⟨k.2, hw, hn, rfl⟩
      dsimp only
      by_cases h1 : combos g.1.1 = 1
      · rw [if_pos h1, Function.update_of_ne (by simp), foldl_lead]
        simp only [hmem]
      · rw [if_neg h1, foldl_lead]
        simp only [hmem]
    · intro n
      dsimp only
      by_cases h1 : combos g.1.1 = 1
      · rw [if_pos h1]
        by_cases hn : n = g.1.1
        · rw [hn, Function.update_self, if_pos ⟨rfl, h1⟩]
        · rw [Function.update_of_ne (by simpa using hn), foldl_lead, if_neg (by simp),
            if_neg (fun h => hn h.1)]
      · rw [if_neg h1, foldl_lead, if_neg (by simp), if_neg (fun h => h1 h.2)]
  · rw [if_neg hc]
    exact Or.inr ⟨⟨_, rfl⟩, hc⟩

/-- Every singleton: they all go through exactly if each has one worker. -/
theorem led (combos : σ → ℕ) (s : Setup σ) (gs : List (Shared σ)) (hgs : Apart combos gs) :
    (∃ s', gs.foldlM (bindShared combos) s = .ok s' ∧ Led combos s gs s' ∧
        ∀ g ∈ gs, Counted g.1.2 1) ∨
      (∃ e, gs.foldlM (bindShared combos) s = .error e) ∧ ¬∀ g ∈ gs, Counted g.1.2 1 := by
  induction gs using List.reverseRecOn with
  | nil =>
    refine Or.inl ⟨s, rfl, ?_, by simp⟩
    constructor <;> simp
  | append_singleton gs g ih =>
    have hwalks := List.pairwise_append.1 hgs.walks
    have hstreams := List.pairwise_append.1 hgs.streams
    rw [List.foldlM_append]
    rcases ih ⟨hwalks.1, hstreams.1⟩ with ⟨s', hs', hled, hcounted⟩ | ⟨⟨e, he⟩, hcounted⟩
    · rw [hs']
      simp only [List.foldlM_cons, List.foldlM_nil, bind_pure]
      have hlen : s'.groups.length = s.groups.length + gs.length := by
        rw [hled.groups, List.length_append, List.length_map]
      rcases bindShared_eq combos s' g with ⟨s'', hs'', hc, hgroups, hwalk, hstream⟩ | ⟨he, hc⟩
      · refine Or.inl ⟨s'', hs'', ?_, ?_⟩
        · constructor
          · rw [hgroups, hled.groups]
            simp
          · intro pre g' post hcut w hw
            have hw' := hwalk (g'.1.1, w)
            dsimp only at hw'
            rw [hw']
            rcases ShardingTemplate.cut_concat hcut with ⟨rfl, rfl, rfl⟩ | ⟨post', rfl, hgs'⟩
            · rw [if_pos ⟨rfl, hw⟩, hlen]
            · have hmem : g' ∈ gs := by
                rw [hgs']
                simp
              rw [if_neg]
              · exact hled.walk pre g' post' hgs' w hw
              · exact fun h => hwalks.2.2 g' hmem g (by simp) h.1 w hw h.2
          · intro k hk
            rw [hwalk, if_neg (fun h => hk g (by simp) h.1.symm h.2)]
            exact hled.otherWalk k fun g' hg' => hk g' (List.mem_append_left _ hg')
          · intro pre g' post hcut h1
            rw [hstream]
            rcases ShardingTemplate.cut_concat hcut with ⟨rfl, rfl, rfl⟩ | ⟨post', rfl, hgs'⟩
            · rw [if_pos ⟨rfl, h1⟩, hlen]
            · have hmem : g' ∈ gs := by
                rw [hgs']
                simp
              rw [if_neg]
              · exact hled.stream pre g' post' hgs' h1
              · exact fun h => hstreams.2.2 g' hmem g (by simp) h.1 h1
          · intro n hn
            rw [hstream, if_neg]
            · exact hled.otherStream n fun g' hg' => hn g' (List.mem_append_left _ hg')
            · rintro ⟨rfl, h1⟩
              exact hn g (by simp) rfl h1
        · intro g' hg'
          rcases List.mem_append.1 hg' with hg' | hg'
          · exact hcounted g' hg'
          · rw [List.mem_singleton.1 hg']
            exact hc
      · exact Or.inr ⟨he, fun h => hc (h g (by simp))⟩
    · rw [he]
      exact Or.inr ⟨⟨e, rfl⟩, fun h => hcounted fun g' hg' => h g' (List.mem_append_left _ hg')⟩

variable {m : NodeWorkers σ} {s s' : Setup σ} {gs : List (Shared σ)} {combos : σ → ℕ}

/-- The leftovers of an assignment, grouped. -/
structure Grouped (mapping : NodeWalk σ → Option ℕ) (m : NodeWorkers σ) (combos : σ → ℕ)
    (gs : List (Shared σ)) : Prop where
  nodup : (gs.map Prod.fst).Nodup
  shared : ∀ g ∈ gs, ∀ w,
    w ∈ g.2 ↔ m.get (g.1.1, w) = some g.1.2 ∧ Left mapping (g.1.1, w)
  nonempty : ∀ g ∈ gs, g.2 ≠ []
  all : ∀ k ws, m.get k = some ws → Left mapping k → ∃ g ∈ gs, g.1 = (k.1, ws)
  combos : ∀ n, combos n = (gs.filter fun g => g.1.1 = n).length

/-- The order of the assignment and that of its groups leave the same ones. -/
theorem grouped (mapping : NodeWalk σ → Option ℕ) (o : HashOrder m) :
    Grouped mapping m (o.entries.foldl (Leftovers.add mapping) empty).walkCombos
      (o.regroup (o.entries.foldl (Leftovers.add mapping) empty).byNodeWorkers) := by
  have h := filed mapping o.entries
  have hperm := o.regroup_perm (o.entries.foldl (Leftovers.add mapping) empty).byNodeWorkers
  have hmem : ∀ k ws, (k, ws) ∈ o.entries ↔ m.get k = some ws := by
    intro k ws
    rw [o.entries_perm.mem_iff, NodeWorkers.get_eq_some]
  constructor
  · exact (hperm.map Prod.fst).nodup_iff.2 h.nodup
  · intro g hg w
    rw [h.shared g (hperm.mem_iff.1 hg), hmem]
  · intro g hg
    exact h.nonempty g (hperm.mem_iff.1 hg)
  · intro k ws hk hleft
    obtain ⟨g, hg, hgk⟩ := List.mem_map.1 (h.all (k, ws) ((hmem k ws).2 hk) hleft)
    exact ⟨g, hperm.mem_iff.2 hg, hgk⟩
  · intro n
    rw [h.combos]
    exact (hperm.filter _).length_eq.symm

/-- The one group of a node whose leftovers were counted once. -/
theorem Grouped.alone (h : Grouped mapping m combos gs) {n : σ} (h1 : combos n = 1)
    {g g' : Shared σ} (hg : g ∈ gs) (hg' : g' ∈ gs) (hn : g.1.1 = n) (hn' : g'.1.1 = n) :
    g = g' := by
  rw [h.combos] at h1
  obtain ⟨x, hx⟩ := List.length_eq_one_iff.1 h1
  have hmem : ∀ y ∈ gs, y.1.1 = n → y = x := by
    intro y hy hyn
    have hin : y ∈ gs.filter fun g => g.1.1 = n := List.mem_filter.2 ⟨hy, by simpa using hyn⟩
    rw [hx] at hin
    exact List.mem_singleton.1 hin
  rw [hmem g hg hn, hmem g' hg' hn']

/-- The groups are apart. -/
theorem Grouped.apart (h : Grouped mapping m combos gs) : Apart combos gs := by
  have hkeys : gs.Pairwise fun g g' => g.1 ≠ g'.1 := List.pairwise_map.1 h.nodup
  constructor
  · refine hkeys.imp_of_mem ?_
    intro g g' hg hg' hne hn w hw hw'
    have hws := ((h.shared g hg w).1 hw).1
    rw [hn, ((h.shared g' hg' w).1 hw').1] at hws
    simp only [Option.some.injEq] at hws
    exact hne (Prod.ext hn hws.symm)
  · refine hkeys.imp_of_mem ?_
    intro g g' hg hg' hne hn h1
    exact hne (congrArg Prod.fst (h.alone h1 hg hg' rfl hn.symm))

/-- A node whose leftovers all have these workers. -/
structure OneList (mapping : NodeWalk σ → Option ℕ) (m : NodeWorkers σ) (n : σ)
    (ws : List σ) : Prop where
  left : ∃ w, m.get (n, w) = some ws ∧ Left mapping (n, w)
  same : ∀ w ws', m.get (n, w) = some ws' → Left mapping (n, w) → ws' = ws

/-- A node is counted once exactly if its leftovers have one worker list. -/
theorem Grouped.combos_eq_one (h : Grouped mapping m combos gs) {n : σ} :
    combos n = 1 ↔ ∃ ws, OneList mapping m n ws := by
  constructor
  · intro h1
    have hlen := h1
    rw [h.combos] at hlen
    obtain ⟨g, hg⟩ := List.length_eq_one_iff.1 hlen
    have hin : g ∈ gs.filter fun g => g.1.1 = n := by
      rw [hg]
      simp
    obtain ⟨hgs, hgn⟩ := List.mem_filter.1 hin
    have hn : g.1.1 = n := by simpa using hgn
    subst hn
    refine ⟨g.1.2, ?_, ?_⟩
    · obtain ⟨w, hw⟩ := List.exists_mem_of_ne_nil _ (h.nonempty g hgs)
      exact ⟨w, (h.shared g hgs w).1 hw⟩
    · intro w ws' hws' hleft
      obtain ⟨g', hg', hkey⟩ := h.all _ _ hws' hleft
      have hsame := h.alone h1 hg' hgs (by rw [hkey]) rfl
      rw [← hsame, hkey]
  · rintro ⟨ws, hone⟩
    obtain ⟨w, hw, hleft⟩ := hone.left
    obtain ⟨g, hg, hkey⟩ := h.all _ _ hw hleft
    have hkeys : ∀ y ∈ gs.filter fun g => g.1.1 = n, y.1 = (n, ws) := by
      intro y hy
      obtain ⟨hyg, hyn⟩ := List.mem_filter.1 hy
      have hyn' : y.1.1 = n := by simpa using hyn
      obtain ⟨w', hw'⟩ := List.exists_mem_of_ne_nil _ (h.nonempty y hyg)
      obtain ⟨hget, hl⟩ := (h.shared y hyg w').1 hw'
      rw [hyn'] at hget hl
      exact Prod.ext hyn' (hone.same w' _ hget hl)
    have hnodup : ((gs.filter fun g => g.1.1 = n).map Prod.fst).Nodup :=
      h.nodup.sublist (List.filter_sublist.map _)
    have hrep : (gs.filter fun g => g.1.1 = n).map Prod.fst =
        List.replicate (gs.filter fun g => g.1.1 = n).length (n, ws) := by
      rw [List.eq_replicate_iff]
      refine ⟨List.length_map _, ?_⟩
      intro y hy
      obtain ⟨x, hx, rfl⟩ := List.mem_map.1 hy
      exact hkeys x hx
    rw [hrep, List.nodup_replicate] at hnodup
    have hpos : 0 < (gs.filter fun g => g.1.1 = n).length :=
      List.length_pos_of_mem (List.mem_filter.2 ⟨hg, by simp [hkey]⟩)
    rw [h.combos]
    omega

/-- The lookups after what is left has become singletons. -/
structure Finished (m : NodeWorkers σ) (s s' : Setup σ) : Prop where
  groups : ∃ more, s'.groups = s.groups ++ more
  left : ∀ k ws, m.get k = some ws → Left s.mapping k →
    ∃ j, s.groups.length ≤ j ∧ s'.groups[j]? = some ⟨ws, 1, some 0⟩ ∧
      (∀ w, m.get (k.1, w) = some ws → Left s.mapping (k.1, w) →
        s'.mapping (k.1, some w) = some j) ∧
      (OneList s.mapping m k.1 ws → s'.mapping (k.1, none) = some j)
  otherWalk : ∀ k : Key σ, m.get k = none ∨ ¬Left s.mapping k →
    s'.mapping (k.1, some k.2) = s.mapping (k.1, some k.2)
  otherStream : ∀ n, (∀ ws, ¬OneList s.mapping m n ws) →
    s'.mapping (n, none) = s.mapping (n, none)

/-- What is left goes through exactly if each leftover key has one worker. -/
theorem singletons_finished (o : HashOrder m) (s : Setup σ) :
    (∃ s', ShardingTemplate.singletons m o s = .ok s' ∧ Finished m s s' ∧
        ∀ k ws, m.get k = some ws → Left s.mapping k → Counted ws 1) ∨
      (∃ e, ShardingTemplate.singletons m o s = .error e) ∧
        ¬∀ k ws, m.get k = some ws → Left s.mapping k → Counted ws 1 := by
  have hg := grouped s.mapping o
  unfold ShardingTemplate.singletons
  dsimp only
  generalize (o.entries.foldl (Leftovers.add s.mapping) empty).walkCombos = combos at hg ⊢
  generalize o.regroup (o.entries.foldl (Leftovers.add s.mapping) empty).byNodeWorkers = gs
    at hg ⊢
  have hcount : (∀ g ∈ gs, Counted g.1.2 1) ↔
      ∀ k ws, m.get k = some ws → Left s.mapping k → Counted ws 1 := by
    constructor
    · intro hall k ws hk hleft
      obtain ⟨g, hgs, hkey⟩ := hg.all k ws hk hleft
      have hc := hall g hgs
      rw [hkey] at hc
      exact hc
    · intro hall g hgs
      obtain ⟨w, hw⟩ := List.exists_mem_of_ne_nil _ (hg.nonempty g hgs)
      obtain ⟨hget, hleft⟩ := (hg.shared g hgs w).1 hw
      exact hall _ _ hget hleft
  rw [← hcount]
  rcases led combos s gs hg.apart with ⟨s', hs', hled, hcounted⟩ | herror
  · refine Or.inl ⟨s', hs', ?_, hcounted⟩
    constructor
    · exact ⟨_, hled.groups⟩
    · intro k ws hk hleft
      obtain ⟨g, hgs, hkey⟩ := hg.all k ws hk hleft
      obtain ⟨pre, post, hcut⟩ := List.append_of_mem hgs
      have hn : g.1.1 = k.1 := by rw [hkey]
      have hws : g.1.2 = ws := by rw [hkey]
      refine ⟨s.groups.length + pre.length, Nat.le_add_right _ _, ?_, ?_, ?_⟩
      · rw [hled.groups, List.getElem?_append_right (Nat.le_add_right _ _),
          Nat.add_sub_cancel_left, hcut, List.map_append,
          List.getElem?_append_right (by rw [List.length_map]), List.length_map, Nat.sub_self]
        simp [single, hws]
      · intro w hw hl
        rw [← hn]
        refine hled.walk pre g post hcut w ((hg.shared g hgs w).2 ?_)
        rw [hn, hws]
        exact ⟨hw, hl⟩
      · intro hone
        rw [← hn]
        refine hled.stream pre g post hcut (hg.combos_eq_one.2 ⟨ws, ?_⟩)
        rw [hn]
        exact hone
    · intro k hk
      refine hled.otherWalk k ?_
      intro g hgs hn hw
      obtain ⟨hget, hleft⟩ := (hg.shared g hgs k.2).1 hw
      rw [hn] at hget hleft
      rcases hk with hk | hk
      · rw [hk] at hget
        cases hget
      · exact hk hleft
    · intro n hn
      refine hled.otherStream n ?_
      intro g _ _ h1
      obtain ⟨ws, hone⟩ := hg.combos_eq_one.1 h1
      exact hn ws hone
  · exact Or.inr herror

end Leftovers

end Mstar.ShardSetup
