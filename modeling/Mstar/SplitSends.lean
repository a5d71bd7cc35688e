import Mstar.SplitOrder

/-!
# What a split sends to each worker

Every edge in the log is a copy of a signal-only input or one group's fan-out.
A fan-out keeps one descriptor for each it was given, and hands a list to
several workers only as it was made. No place of the inputs is sent twice to a
worker.
-/

namespace Mstar.SplitInputs

open Shard

variable {c : RequestConfig} {graphWalk : Sym} {inputs : List GraphEdge}

/-- A cut keeps one descriptor for each, with its source. -/
theorem RequestConfig.cutAll_source {srcRank : ℕ} {items cut : List Descriptor}
    {starts stops : List ℤ} (h : cutAll srcRank items starts stops = .ok cut) :
    cut.map Descriptor.source = items.map Descriptor.source := by
  induction items generalizing cut starts stops with
  | nil =>
    cases h
    rfl
  | cons d items ih =>
    cases starts with
    | nil => cases h
    | cons start starts =>
      cases stops with
      | nil => cases h
      | cons stop stops =>
        unfold cutAll at h
        cases hinfo : ShardingConfig.cutInfo srcRank d.info start stop with
        | error e =>
          rw [hinfo] at h
          cases h
        | ok info =>
          cases hrest : cutAll srcRank items starts stops with
          | error e =>
            rw [hinfo, hrest] at h
            cases h
          | ok rest =>
            rw [hinfo, hrest] at h
            cases h
            rw [List.map_cons, List.map_cons, ih hrest]
            rfl

/-- What a copy for a destination keeps of the edge. -/
structure CopyOf (edge : GraphEdge) (fresh : ℕ → ListId) (n : ℕ) (sent : GraphEdge) : Prop where
  /-- The signal. -/
  name : sent.name = edge.name
  /-- The consumer. -/
  nextNode : sent.nextNode = edge.nextNode
  /-- One descriptor for each, from the same source. -/
  sources : sent.tensorInfo.items.map Descriptor.source =
    edge.tensorInfo.items.map Descriptor.source
  /-- The edge's own list, or one made for the destination. -/
  list : sent.tensorInfo = edge.tensorInfo ∨ sent.tensorInfo.id = fresh n

/-- A destination's copy. -/
theorem RequestConfig.copyOf_edgeTo {edge : GraphEdge} {dest : Option Group} {srcRank srcTp : ℕ}
    {fresh : ℕ → ListId} {item : ShardDestination × ℕ} {sent : Sym × GraphEdge}
    (h : c.edgeTo edge dest srcRank srcTp fresh item = .ok sent) :
    CopyOf edge fresh item.2 sent.2 := by
  unfold RequestConfig.edgeTo at h
  dsimp only at h
  split at h
  · cases h
    exact ⟨rfl, rfl, rfl, Or.inl rfl⟩
  · cases hcut : RequestConfig.cutAll srcRank edge.tensorInfo.items item.1.startIdxs
      item.1.endIdxs with
    | error e =>
      rw [hcut] at h
      cases h
    | ok cut =>
      rw [hcut] at h
      cases h
      exact ⟨rfl, rfl, RequestConfig.cutAll_source hcut, Or.inr rfl⟩

/-- A fan-out sends each worker one copy, and a list it made has one
content. -/
theorem RequestConfig.fanoutGraphEdges_ok {edge : GraphEdge} {node walk : Option Sym}
    {rank : ℕ} {fresh : ℕ → ListId} {sent : List (Sym × GraphEdge)}
    (h : c.fanoutGraphEdges edge node walk graphWalk rank fresh = .ok sent)
    (hfresh : Function.Injective fresh) (hid : ∀ n, fresh n ≠ edge.tensorInfo.id) :
    (sent.map Prod.fst).Nodup ∧ (∀ a ∈ sent, ∃ n, CopyOf edge fresh n a.2) ∧
      ∀ a ∈ sent, ∀ b ∈ sent, a.2.tensorInfo.id = b.2.tensorInfo.id →
        a.2.tensorInfo = b.2.tensorInfo := by
  unfold RequestConfig.fanoutGraphEdges at h
  cases hdest : c.destinations edge node walk graphWalk rank with
  | error e =>
    rw [hdest] at h
    cases h
  | ok out =>
    obtain ⟨fanout, srcRank, srcTp⟩ := out
    rw [hdest] at h
    dsimp only at h
    cases hall : fanout.zipIdx.mapM
        (c.edgeTo edge (c.groupMapping edge.nextNode (some graphWalk)) srcRank srcTp fresh) with
    | error e =>
      rw [hall] at h
      cases h
    | ok entries =>
      rw [hall] at h
      cases h
      have heach := forall₂_of_mapM hall
      have hfrom : ∀ a ∈ dictItems entries, ∃ item ∈ fanout.zipIdx,
          c.edgeTo edge (c.groupMapping edge.nextNode (some graphWalk)) srcRank srcTp fresh item =
            .ok a :=
        fun a ha => exists_left_of_forall₂ heach (mem_of_mem_dictItems ha)
      refine ⟨nodup_dictItems entries, ?_, ?_⟩
      · intro a ha
        obtain ⟨item, _, hitem⟩ := hfrom a ha
        exact ⟨item.2, RequestConfig.copyOf_edgeTo hitem⟩
      · intro a ha b hb hsame
        obtain ⟨item, hin, hitem⟩ := hfrom a ha
        obtain ⟨item', hin', hitem'⟩ := hfrom b hb
        rcases (RequestConfig.copyOf_edgeTo hitem).list with hlist | hlist
        · rcases (RequestConfig.copyOf_edgeTo hitem').list with hlist' | hlist'
          · rw [hlist, hlist']
          · rw [hlist, hlist'] at hsame
            exact absurd hsame.symm (hid _)
        · rcases (RequestConfig.copyOf_edgeTo hitem').list with hlist' | hlist'
          · rw [hlist, hlist'] at hsame
            exact absurd hsame (hid _)
          · -- the same number is the same destination
            rw [hlist, hlist'] at hsame
            have hn := hfresh hsame
            obtain ⟨d, n⟩ := item
            obtain ⟨d', n'⟩ := item'
            dsimp only at hn
            subst hn
            have hd := List.mk_mem_zipIdx_iff_getElem?.1 hin
            have hd' := List.mk_mem_zipIdx_iff_getElem?.1 hin'
            rw [hd] at hd'
            cases hd'
            rw [hitem] at hitem'
            cases hitem'
            rfl

/-- Where an edge in the log comes from: input `e` as it was passed in. -/
def FromSignal (c : RequestConfig) (graphWalk : Sym) (edge : GraphEdge) (e : ℕ)
    (sent : Sym × Placed) : Prop :=
  edge.tensorInfo.items = [] ∧ ∃ n, (c.nodeToWorker edge.nextNode graphWalk)[n]? = some sent.1 ∧
    sent.2 = ⟨edge.clone (.copied e n), []⟩

/-- What the fan-out of one source of input `e` sends. -/
def FromSource (c : RequestConfig) (graphWalk : Sym) (edge : GraphEdge) (e : ℕ) (key : SourceKey)
    (sent : Sym × Placed) : Prop :=
  key ∈ edge.tensorInfo.items.map Descriptor.source ∧ ∃ g fanout,
    (groupsOf edge.tensorInfo.items)[g]? = some (key, idxsOf edge.tensorInfo.items key) ∧
    c.fanoutGraphEdges (subEdge edge e g (idxsOf edge.tensorInfo.items key)) key.node key.graphWalk
      graphWalk key.rank (.cut e g) = .ok fanout ∧
    (sent.1, sent.2.edge) ∈ fanout ∧
    sent.2.positions = (idxsOf edge.tensorInfo.items key).map fun i => (e, i)

/-- The descriptors of a source's edge. -/
theorem source_subEdge (edge : GraphEdge) (e g : ℕ) (key : SourceKey) :
    (subEdge edge e g (idxsOf edge.tensorInfo.items key)).tensorInfo.items.map Descriptor.source =
      (idxsOf edge.tensorInfo.items key).map fun _ => key := by
  have hall : ∀ idxs : List ℕ, (∀ i ∈ idxs, i ∈ idxsOf edge.tensorInfo.items key) →
      (idxs.filterMap fun i => edge.tensorInfo.items[i]?).map Descriptor.source =
        idxs.map fun _ => key := by
    intro idxs hidxs
    induction idxs with
    | nil => rfl
    | cons i idxs ih =>
      have hi := mem_idxsOf.1 (hidxs i List.mem_cons_self)
      obtain ⟨d, hd, hsource⟩ := Option.map_eq_some_iff.1 hi
      rw [List.filterMap_cons_some hd, List.map_cons, List.map_cons, hsource,
        ih fun j hj => hidxs j (List.mem_cons_of_mem _ hj)]
  exact hall _ fun _ hi => hi

/-- What a source's fan-out sends to a worker. -/
structure SentOf (edge : GraphEdge) (e : ℕ) (key : SourceKey) (x : Placed) : Prop where
  /-- The signal. -/
  name : x.edge.name = edge.name
  /-- The consumer. -/
  nextNode : x.edge.nextNode = edge.nextNode
  /-- One descriptor for each of the source. -/
  sources : x.edge.tensorInfo.items.map Descriptor.source =
    (idxsOf edge.tensorInfo.items key).map fun _ => key
  /-- Their places. -/
  positions : x.positions = (idxsOf edge.tensorInfo.items key).map fun i => (e, i)
  /-- The source has descriptors. -/
  inhabited : idxsOf edge.tensorInfo.items key ≠ []

/-- The lists a fan-out makes are its own. -/
theorem cut_ne_grouped (edge : GraphEdge) (e g : ℕ) (idxs : List ℕ) (n : ℕ) :
    ListId.cut e g n ≠ (subEdge edge e g idxs).tensorInfo.id := by
  intro h
  cases h

/-- The lists for two destinations differ. -/
theorem cut_injective (e g : ℕ) : Function.Injective (ListId.cut e g) := by
  intro n n' h
  cases h
  rfl

/-- What a source's fan-out sends. -/
theorem FromSource.sentOf {edge : GraphEdge} {e : ℕ} {key : SourceKey} {sent : Sym × Placed}
    (h : FromSource c graphWalk edge e key sent) : SentOf edge e key sent.2 := by
  obtain ⟨hkey, g, fanout, _, hfanout, hmem, hpositions⟩ := h
  obtain ⟨_, hcopies, _⟩ := RequestConfig.fanoutGraphEdges_ok hfanout (cut_injective e g)
    (cut_ne_grouped edge e g _)
  obtain ⟨n, hcopy⟩ := hcopies _ hmem
  constructor
  · exact hcopy.name
  · exact hcopy.nextNode
  · exact hcopy.sources.trans (source_subEdge edge e g key)
  · exact hpositions
  · obtain ⟨d, hd, hsource⟩ := List.mem_map.1 hkey
    obtain ⟨i, hi⟩ := List.mem_iff_getElem?.1 hd
    exact List.ne_nil_of_mem (mem_idxsOf.2 (by rw [hi, Option.map_some, hsource]))

/-- A source's descriptors are as many as their places. -/
theorem SentOf.lengths {edge : GraphEdge} {e : ℕ} {key : SourceKey} {x : Placed}
    (h : SentOf edge e key x) : x.positions.length = x.edge.tensorInfo.items.length := by
  have hsources := congrArg List.length h.sources
  rw [List.length_map, List.length_map] at hsources
  rw [h.positions, List.length_map, hsources]

/-- They are of the source's rank. -/
theorem SentOf.uniform {edge : GraphEdge} {e : ℕ} {key : SourceKey} {x : Placed}
    (h : SentOf edge e key x) :
    x.edge.key = some ⟨edge.name, edge.nextNode, key.rank⟩ ∧
      ∀ d ∈ x.edge.tensorInfo.items, d.sourceTpRank = key.rank := by
  have hrank : ∀ d ∈ x.edge.tensorInfo.items, d.sourceTpRank = key.rank := by
    intro d hd
    have hin := List.mem_map_of_mem (f := Descriptor.source) hd
    rw [h.sources] at hin
    obtain ⟨_, _, hsource⟩ := List.mem_map.1 hin
    rw [hsource]
    rfl
  refine ⟨?_, hrank⟩
  unfold GraphEdge.key
  cases hitems : x.edge.tensorInfo.items with
  | nil =>
    have hsources := h.sources
    rw [hitems] at hsources
    exact absurd (List.map_eq_nil_iff.1 hsources.symm) h.inhabited
  | cons d rest =>
    have hd := hrank d (by rw [hitems]; exact List.mem_cons_self)
    rw [List.head?_cons, Option.map_some, h.name, h.nextNode, hd]

end Mstar.SplitInputs
