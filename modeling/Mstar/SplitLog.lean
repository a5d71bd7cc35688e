import Mstar.SplitSends

/-!
# The log of a split

The appends to `inputs_per_worker` are the copies of the signal-only inputs and
the fan-outs of every source of the others. A worker's own are ready to be
joined, and over all workers a list object has one content.
-/

namespace Mstar.SplitInputs

open Shard

variable {c : RequestConfig} {graphWalk : Sym} {inputs : List GraphEdge}
  {log : List (Sym × Placed)}

/-- Where an edge in the log comes from. -/
def FromInput (c : RequestConfig) (graphWalk : Sym) (edge : GraphEdge) (e : ℕ)
    (sent : Sym × Placed) : Prop :=
  FromSignal c graphWalk edge e sent ∨ ∃ key, FromSource c graphWalk edge e key sent

/-- Two groups of one source are the same. -/
theorem groupsOf_inj {items : List Descriptor} {g g' : ℕ} {group group' : SourceKey × List ℕ}
    (h : (groupsOf items)[g]? = some group) (h' : (groupsOf items)[g']? = some group')
    (hkey : group.1 = group'.1) : g = g' := by
  have hnodup := (grouped_groupsOf items).keys
  have hlt : g < ((groupsOf items).map Prod.fst).length := by
    rw [List.length_map]
    exact (List.getElem?_eq_some_iff.1 h).1
  refine (List.getElem?_inj hlt hnodup).1 ?_
  rw [List.getElem?_map, List.getElem?_map, h, h', Option.map_some, Option.map_some, hkey]

/-- A group of an input fanned out. -/
theorem fanGroup_ok {edge : GraphEdge} {e : ℕ} {group : (SourceKey × List ℕ) × ℕ}
    {sent : List (Sym × Placed)}
    (hgroup : group ∈ (groupsOf edge.tensorInfo.items).zipIdx)
    (h : fanGroup c graphWalk edge e group = .ok sent) :
    (∀ a, a ∈ sent ↔ FromSource c graphWalk edge e group.1.1 a) ∧
      sent.Pairwise (fun a b => a.1 ≠ b.1) := by
  obtain ⟨⟨key, idxs⟩, g⟩ := group
  have hat := List.mk_mem_zipIdx_iff_getElem?.1 hgroup
  have hin := List.mem_of_getElem? hat
  have hgrouped := grouped_groupsOf edge.tensorInfo.items
  have hidxs : idxs = idxsOf edge.tensorInfo.items key := hgrouped.idxs _ hin
  subst hidxs
  unfold fanGroup at h
  dsimp only at h ⊢
  cases hfanout : c.fanoutGraphEdges (subEdge edge e g (idxsOf edge.tensorInfo.items key)) key.node
      key.graphWalk graphWalk key.rank (.cut e g) with
  | error error =>
    rw [hfanout] at h
    cases h
  | ok fanout =>
    rw [hfanout] at h
    cases h
    obtain ⟨hnodup, _, _⟩ := RequestConfig.fanoutGraphEdges_ok hfanout (cut_injective e g)
      (cut_ne_grouped edge e g _)
    refine ⟨fun a => ⟨fun ha => ?_, ?_⟩, ?_⟩
    · obtain ⟨b, hb, rfl⟩ := List.mem_map.1 ha
      exact ⟨(hgrouped.sources key).1 (List.mem_map_of_mem (f := Prod.fst) hin), g, fanout, hat,
        hfanout, hb, rfl⟩
    · rintro ⟨_, g', fanout', hat', hfanout', hmem, hpositions⟩
      have hg := groupsOf_inj hat hat' rfl
      subst hg
      rw [hfanout] at hfanout'
      cases hfanout'
      refine List.mem_map.2 ⟨(a.1, a.2.edge), hmem, ?_⟩
      rw [← hpositions]
    · rw [List.pairwise_map]
      exact List.pairwise_map.1 hnodup

/-- Places of different sources of an input are different. -/
theorem idxsOf_disjoint {items : List Descriptor} {key key' : SourceKey} (hne : key ≠ key') {i : ℕ}
    (hi : i ∈ idxsOf items key) : i ∉ idxsOf items key' := by
  intro hi'
  rw [mem_idxsOf] at hi hi'
  rw [hi] at hi'
  exact hne (Option.some.inj hi')

/-- Two edges for one worker have no place in common. -/
def Apart (a b : Sym × Placed) : Prop := a.1 = b.1 → ∀ p ∈ a.2.positions, p ∉ b.2.positions

/-- What one input is split into. -/
theorem splitEdge_ok {edge : GraphEdge} {e : ℕ} {sent : List (Sym × Placed)}
    (h : splitEdge c graphWalk (edge, e) = .ok sent) :
    (∀ a ∈ sent, FromInput c graphWalk edge e a) ∧ sent.Pairwise Apart ∧
      (edge.tensorInfo.items = [] → sent = signalCopies c graphWalk edge e) ∧
      ∀ key a, FromSource c graphWalk edge e key a → a ∈ sent := by
  unfold splitEdge at h
  dsimp only at h
  by_cases hempty : edge.tensorInfo.items = []
  · rw [hempty] at h
    simp only [List.isEmpty_nil, if_true, Except.ok.injEq] at h
    subst h
    refine ⟨fun a ha => ?_, ?_, fun _ => rfl, fun key a ha => ?_⟩
    · obtain ⟨worker, hworker, rfl⟩ := List.mem_map.1 ha
      obtain ⟨w, n⟩ := worker
      exact Or.inl ⟨hempty, n, List.mk_mem_zipIdx_iff_getElem?.1 hworker, rfl⟩
    · refine List.pairwise_map.2 (List.pairwise_iff_forall_sublist.2 fun _ _ p hp => ?_)
      cases hp
    · have hkey := ha.1
      rw [hempty] at hkey
      cases hkey
  · rw [if_neg (by simpa using hempty)] at h
    cases hall : (groupsOf edge.tensorInfo.items).zipIdx.mapM (fanGroup c graphWalk edge e) with
    | error error =>
      rw [hall] at h
      cases h
    | ok lists =>
      rw [hall] at h
      cases h
      have heach := forall₂_of_mapM hall
      have hgrouped := grouped_groupsOf edge.tensorInfo.items
      have hstrong : List.Forall₂ (fun group sent => group ∈ (groupsOf edge.tensorInfo.items).zipIdx ∧
          fanGroup c graphWalk edge e group = .ok sent)
          (groupsOf edge.tensorInfo.items).zipIdx lists := by
        refine List.forall₂_iff_get.2 ⟨heach.length_eq, fun i hi hi' => ⟨List.get_mem _ _, ?_⟩⟩
        exact heach.get hi hi'
      refine ⟨fun a ha => ?_, ?_, fun hnil => absurd hnil hempty, fun key a ha => ?_⟩
      · obtain ⟨list, hlist, ha⟩ := List.mem_flatten.1 ha
        obtain ⟨group, _, hgroup, hok⟩ := exists_left_of_forall₂ hstrong hlist
        exact Or.inr ⟨group.1.1, ((fanGroup_ok hgroup hok).1 a).1 ha⟩
      · rw [List.pairwise_flatten]
        constructor
        · intro list hlist
          obtain ⟨group, _, hgroup, hok⟩ := exists_left_of_forall₂ hstrong hlist
          exact (fanGroup_ok hgroup hok).2.imp fun hne hsame => absurd hsame hne
        · -- two groups are of two sources
          have hkeys : (groupsOf edge.tensorInfo.items).zipIdx.Pairwise
              fun x y => x.1.1 ≠ y.1.1 := by
            have hfst := List.zipIdx_map_fst 0 (groupsOf edge.tensorInfo.items)
            have hpairs := List.pairwise_map.1 hgrouped.keys
            rw [← hfst, List.pairwise_map] at hpairs
            exact hpairs
          refine pairwise_of_forall₂ hstrong hkeys ?_
          rintro x y list list' ⟨hx, hokx⟩ ⟨hy, hoky⟩ hne a ha b hb _ p hp hp'
          rw [(((fanGroup_ok hx hokx).1 a).1 ha).sentOf.positions] at hp
          rw [(((fanGroup_ok hy hoky).1 b).1 hb).sentOf.positions] at hp'
          obtain ⟨i, hi, rfl⟩ := List.mem_map.1 hp
          obtain ⟨i', hi', heq⟩ := List.mem_map.1 hp'
          cases heq
          exact idxsOf_disjoint hne hi hi'
      · obtain ⟨group, hgroup, rfl⟩ := List.mem_map.1 ((hgrouped.sources key).2 ha.1)
        obtain ⟨g, hg⟩ := List.mem_iff_getElem?.1 hgroup
        have hmem := List.mk_mem_zipIdx_iff_getElem?.2 hg
        obtain ⟨list, hlist, _, hok⟩ := exists_right_of_forall₂ hstrong hmem
        exact List.mem_flatten.2 ⟨list, hlist, ((fanGroup_ok hmem hok).1 a).2 ha⟩

/-- An edge but for which object its list is. -/
def GraphEdge.plain (edge : GraphEdge) : GraphEdge :=
  { edge with tensorInfo := ⟨.given 0, edge.tensorInfo.items⟩ }

/-- What a worker is sent of two logs. -/
theorem sentTo_append (log log' : List (Sym × Placed)) (worker : Sym) :
    sentTo (log ++ log') worker = sentTo log worker ++ sentTo log' worker := List.filterMap_append

/-- What a worker is sent of a log with one more edge. -/
theorem sentTo_cons (sent : Sym × Placed) (log : List (Sym × Placed)) (worker : Sym) :
    sentTo (sent :: log) worker =
      if sent.1 = worker then sent.2 :: sentTo log worker else sentTo log worker := by
  unfold sentTo
  split
  · rename_i hw
    exact List.filterMap_cons_some (if_pos hw)
  · rename_i hw
    exact List.filterMap_cons_none (if_neg hw)

/-- A signal-only input goes to a worker once for each rank it has. -/
theorem sentTo_signalCopies (c : RequestConfig) (graphWalk : Sym) (edge : GraphEdge) (e : ℕ)
    (worker : Sym) (hempty : edge.tensorInfo.items = []) :
    ((sentTo (signalCopies c graphWalk edge e) worker).filter (·.edge.key = none)).map
        (·.edge.plain) =
      List.replicate ((c.nodeToWorker edge.nextNode graphWalk).count worker)
        (edge.clone (.given 0)) := by
  unfold signalCopies
  generalize c.nodeToWorker edge.nextNode graphWalk = workers
  have hall : ∀ n, ((sentTo ((workers.zipIdx n).map fun w =>
      (w.1, (⟨edge.clone (.copied e w.2), []⟩ : Placed))) worker).filter
        (·.edge.key = none)).map (·.edge.plain) =
          List.replicate (workers.count worker) (edge.clone (.given 0)) := by
    intro n
    induction workers generalizing n with
    | nil => rfl
    | cons w workers ih =>
      have hkey : (edge.clone (.copied e n)).key = none := GraphEdge.key_eq_none.2 hempty
      rw [List.zipIdx_cons, List.map_cons, sentTo_cons]
      by_cases hw : w = worker
      · rw [if_pos hw, List.filter_cons_of_pos (by simpa using hkey), List.map_cons, ih, hw,
          List.count_cons_self, List.replicate_succ]
        rfl
      · rw [if_neg hw, ih, List.count_cons_of_ne hw]
  exact hall 0

/-- What a split makes of the inputs. -/
theorem splitAll_ok (h : splitAll c graphWalk inputs = .ok log) :
    (∀ a ∈ log, ∃ e edge, inputs[e]? = some edge ∧ FromInput c graphWalk edge e a) ∧
      log.Pairwise Apart ∧
      (∀ e edge key a, inputs[e]? = some edge → FromSource c graphWalk edge e key a → a ∈ log) ∧
      ∀ worker, ((sentTo log worker).filter (·.edge.key = none)).map (·.edge.plain) =
        inputs.flatMap fun edge =>
          if edge.tensorInfo.items = [] then
            List.replicate ((c.nodeToWorker edge.nextNode graphWalk).count worker)
              (edge.clone (.given 0))
          else [] := by
  unfold splitAll at h
  cases hall : inputs.zipIdx.mapM (splitEdge c graphWalk) with
  | error error =>
    rw [hall] at h
    cases h
  | ok lists =>
    rw [hall] at h
    cases h
    have heach := forall₂_of_mapM hall
    have hfrom : ∀ list ∈ lists, ∃ e edge, inputs[e]? = some edge ∧
        splitEdge c graphWalk (edge, e) = .ok list := by
      intro list hlist
      obtain ⟨⟨edge, e⟩, hin, hok⟩ := exists_left_of_forall₂ heach hlist
      exact ⟨e, edge, List.mk_mem_zipIdx_iff_getElem?.1 hin, hok⟩
    refine ⟨fun a ha => ?_, ?_, fun e edge key a hedge ha => ?_, fun worker => ?_⟩
    · obtain ⟨list, hlist, ha⟩ := List.mem_flatten.1 ha
      obtain ⟨e, edge, hedge, hok⟩ := hfrom list hlist
      exact ⟨e, edge, hedge, (splitEdge_ok hok).1 a ha⟩
    · rw [List.pairwise_flatten]
      constructor
      · intro list hlist
        obtain ⟨e, edge, _, hok⟩ := hfrom list hlist
        exact (splitEdge_ok hok).2.1
      · -- the places of an input have its index
        have hplaces : ∀ {edge : GraphEdge} {e : ℕ} {a : Sym × Placed},
            FromInput c graphWalk edge e a → ∀ p ∈ a.2.positions, p.1 = e := by
          rintro edge e a (⟨_, n, _, hsame⟩ | ⟨key, hsource⟩) p hp
          · rw [hsame] at hp
            cases hp
          · rw [hsource.sentOf.positions] at hp
            obtain ⟨i, _, rfl⟩ := List.mem_map.1 hp
            rfl
        refine pairwise_of_forall₂ heach (pairwise_zipIdx_ne inputs 0) ?_
        rintro ⟨edge, e⟩ ⟨edge', e'⟩ list list' hok hok' hne a ha b hb _ p hp hp'
        have he := hplaces ((splitEdge_ok hok).1 a ha) p hp
        have he' := hplaces ((splitEdge_ok hok').1 b hb) p hp'
        exact hne (he.symm.trans he')
    · have hin := List.mk_mem_zipIdx_iff_getElem?.2 hedge
      obtain ⟨list, hlist, hok⟩ := exists_right_of_forall₂ heach hin
      exact List.mem_flatten.2 ⟨list, hlist, (splitEdge_ok hok).2.2.2 key a ha⟩
    · have hrun : ∀ n, List.Forall₂ (fun input list => splitEdge c graphWalk input = .ok list)
          (inputs.zipIdx n) lists →
          ((sentTo lists.flatten worker).filter (·.edge.key = none)).map (·.edge.plain) =
            inputs.flatMap fun edge =>
              if edge.tensorInfo.items = [] then
                List.replicate ((c.nodeToWorker edge.nextNode graphWalk).count worker)
                  (edge.clone (.given 0))
              else [] := by
        clear heach hfrom hall
        induction inputs generalizing lists with
        | nil =>
          intro n hnil
          cases hnil
          rfl
        | cons edge inputs ih =>
          intro n hcons
          rw [List.zipIdx_cons] at hcons
          cases hcons with
          | cons hok hrest =>
            rename_i list lists
            rw [List.flatten_cons, sentTo_append, List.filter_append, List.map_append,
              ih lists (n + 1) hrest, List.flatMap_cons]
            congr 1
            by_cases hempty : edge.tensorInfo.items = []
            · rw [if_pos hempty, (splitEdge_ok hok).2.2.1 hempty]
              exact sentTo_signalCopies c graphWalk edge n worker hempty
            · rw [if_neg hempty]
              have hnone : (sentTo list worker).filter (·.edge.key = none) = [] := by
                rw [List.filter_eq_nil_iff]
                intro x hx
                obtain ⟨a, ha, hax⟩ := List.mem_filterMap.1 hx
                split at hax
                · cases hax
                  rcases (splitEdge_ok hok).1 a ha with ⟨hnil, _⟩ | ⟨key, hsource⟩
                  · exact absurd hnil hempty
                  · simp [hsource.sentOf.uniform.1]
                · cases hax
              rw [hnone]
              rfl
      exact hrun 0 heach

end Mstar.SplitInputs
