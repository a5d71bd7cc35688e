import Mstar.SplitLog

/-!
# Inputs reach each worker once, in order

Every worker ends with one edge for each name, consumer and source rank it is
sent descriptors of, with these descriptors in the order of the inputs, and
with every signal-only input once for each of its ranks. A split raises when a
fan-out does, or when the edges of one key disagree on fan-in.
-/

namespace Mstar.SplitInputs

open Shard

variable {c : RequestConfig} {graphWalk : Sym} {inputs : List GraphEdge}
  {log : List (Sym × Placed)}

/-- The object a source's list is: the edge's own or one made for the
destination. -/
theorem FromSource.list_id {edge : GraphEdge} {e : ℕ} {key : SourceKey} {sent : Sym × Placed}
    (h : FromSource c graphWalk edge e key sent) :
    ∃ g, (groupsOf edge.tensorInfo.items)[g]? = some (key, idxsOf edge.tensorInfo.items key) ∧
      (sent.2.edge.tensorInfo.id = .grouped e g ∨
        ∃ n, sent.2.edge.tensorInfo.id = .cut e g n) := by
  obtain ⟨_, g, fanout, hg, hfanout, hmem, _⟩ := h
  obtain ⟨_, hcopies, _⟩ := RequestConfig.fanoutGraphEdges_ok hfanout (cut_injective e g)
    (cut_ne_grouped edge e g _)
  obtain ⟨n, hcopy⟩ := hcopies _ hmem
  refine ⟨g, hg, ?_⟩
  rcases hcopy.list with hlist | hlist
  · left
    rw [hlist]
    rfl
  · exact Or.inr ⟨n, hlist⟩

/-- A list is a worker's own: it made it when it joined two edges. -/
def ListId.isOwn : ListId → Bool
  | .joined _ _ => true
  | .ordered _ _ => true
  | _ => false

/-- A list that is sent is no worker's own. -/
theorem FromInput.not_isOwn {edge : GraphEdge} {e : ℕ} {sent : Sym × Placed}
    (h : FromInput c graphWalk edge e sent) : sent.2.edge.tensorInfo.id.isOwn = false := by
  rcases h with ⟨_, n, _, hsame⟩ | ⟨key, hsource⟩
  · rw [hsame]
    rfl
  · obtain ⟨g, _, hlist | ⟨n, hlist⟩⟩ := hsource.list_id
    · rw [hlist]
      rfl
    · rw [hlist]
      rfl

/-- Two lists of one source that are the same object have the same
descriptors. -/
theorem FromSource.list_eq {edge : GraphEdge} {e : ℕ} {key : SourceKey} {a b : Sym × Placed}
    (ha : FromSource c graphWalk edge e key a) (hb : FromSource c graphWalk edge e key b)
    (hid : a.2.edge.tensorInfo.id = b.2.edge.tensorInfo.id) :
    a.2.edge.tensorInfo = b.2.edge.tensorInfo := by
  obtain ⟨_, g, fanout, hg, hfanout, hmem, _⟩ := ha
  obtain ⟨_, g', fanout', hg', hfanout', hmem', _⟩ := hb
  have hgg := groupsOf_inj hg hg' rfl
  subst hgg
  rw [hfanout] at hfanout'
  cases hfanout'
  obtain ⟨_, _, hlists⟩ := RequestConfig.fanoutGraphEdges_ok hfanout (cut_injective e g)
    (cut_ne_grouped edge e g _)
  exact hlists _ hmem _ hmem' hid

/-- An object has one content in the whole log. -/
theorem lists_of_splitAll (h : splitAll c graphWalk inputs = .ok log) {a b : Sym × Placed}
    (ha : a ∈ log) (hb : b ∈ log) (hid : a.2.edge.tensorInfo.id = b.2.edge.tensorInfo.id) :
    a.2.edge.tensorInfo = b.2.edge.tensorInfo := by
  obtain ⟨hfrom, _, _, _⟩ := splitAll_ok h
  obtain ⟨e, edge, hedge, hsent⟩ := hfrom a ha
  obtain ⟨e', edge', hedge', hsent'⟩ := hfrom b hb
  rcases hsent with ⟨hempty, n, _, hsame⟩ | ⟨key, hsource⟩
  · rcases hsent' with ⟨hempty', n', _, hsame'⟩ | ⟨key', hsource'⟩
    · rw [hsame, hsame'] at hid ⊢
      simp only [GraphEdge.clone] at hid ⊢
      rw [hid, hempty, hempty']
    · obtain ⟨g', _, hid' | ⟨n', hid'⟩⟩ := hsource'.list_id
      · rw [hid', hsame] at hid
        cases hid
      · rw [hid', hsame] at hid
        cases hid
  · obtain ⟨g, hg, hid₁⟩ := hsource.list_id
    rcases hsent' with ⟨_, n', _, hsame'⟩ | ⟨key', hsource'⟩
    · rcases hid₁ with hid₁ | ⟨n, hid₁⟩
      · rw [hid₁, hsame'] at hid
        cases hid
      · rw [hid₁, hsame'] at hid
        cases hid
    · obtain ⟨g', hg', hid₂⟩ := hsource'.list_id
      -- the object tells the input and the group
      have hplace : e = e' ∧ g = g' := by
        rcases hid₁ with hid₁ | ⟨n, hid₁⟩
        · rcases hid₂ with hid₂ | ⟨n', hid₂⟩
          · rw [hid₁, hid₂] at hid
            cases hid
            exact ⟨rfl, rfl⟩
          · rw [hid₁, hid₂] at hid
            cases hid
        · rcases hid₂ with hid₂ | ⟨n', hid₂⟩
          · rw [hid₁, hid₂] at hid
            cases hid
          · rw [hid₁, hid₂] at hid
            cases hid
            exact ⟨rfl, rfl⟩
      obtain ⟨rfl, rfl⟩ := hplace
      rw [hedge] at hedge'
      cases hedge'
      rw [hg] at hg'
      cases hg'
      exact hsource.list_eq hsource' hid

/-- A worker's part of the log. -/
theorem mem_sentTo {worker : Sym} {x : Placed} : x ∈ sentTo log worker ↔ (worker, x) ∈ log := by
  unfold sentTo
  rw [List.mem_filterMap]
  constructor
  · rintro ⟨sent, hsent, hx⟩
    split at hx
    · rename_i hw
      cases hx
      rw [← hw]
      exact hsent
    · cases hx
  · intro h
    exact ⟨(worker, x), h, if_pos rfl⟩

/-- A worker's part of the log is ready to be joined. -/
theorem ready_of_splitAll (h : splitAll c graphWalk inputs = .ok log) (worker : Sym) :
    Ready (sentTo log worker) := by
  obtain ⟨hfrom, hapart, _, _⟩ := splitAll_ok h
  have hcases : ∀ x ∈ sentTo log worker, ∃ e edge, FromInput c graphWalk edge e (worker, x) := by
    intro x hx
    obtain ⟨e, edge, _, hsent⟩ := hfrom _ (mem_sentTo.1 hx)
    exact ⟨e, edge, hsent⟩
  constructor
  · intro x hx
    obtain ⟨e, edge, ⟨hempty, n, _, hsame⟩ | ⟨key, hsource⟩⟩ := hcases x hx
    · dsimp only at hsame
      rw [hsame]
      simp [GraphEdge.clone, hempty]
    · exact hsource.sentOf.lengths
  · intro x hx
    obtain ⟨e, edge, ⟨_, n, _, hsame⟩ | ⟨key, hsource⟩⟩ := hcases x hx
    · dsimp only at hsame
      rw [hsame]
      exact .nil
    · have hpositions := hsource.sentOf.positions
      dsimp only at hpositions
      rw [hpositions, List.pairwise_map]
      exact (idxsOf_ascends edge.tensorInfo.items key).imp fun hij => Or.inr ⟨rfl, hij⟩
  · unfold sentTo
    rw [List.pairwise_filterMap]
    refine hapart.imp fun {a b} hab x hx y hy => ?_
    split at hx
    · split at hy
      · rename_i hw hw'
        cases hx
        cases hy
        exact hab (hw.trans hw'.symm)
      · cases hy
    · cases hx
  · intro x hx d hd
    obtain ⟨e, edge, ⟨hempty, n, _, hsame⟩ | ⟨key, hsource⟩⟩ := hcases x hx
    · dsimp only at hsame
      rw [hsame] at hd
      simp [GraphEdge.clone, hempty] at hd
    · obtain ⟨hkey, hrank⟩ := hsource.sentOf.uniform
      dsimp only at hkey hrank
      rw [hkey, hrank d hd, ← hsource.sentOf.name, ← hsource.sentOf.nextNode]
  · intro x hx w i hid
    obtain ⟨e, edge, hsent⟩ := hcases x hx
    have hown := hsent.not_isOwn
    dsimp only at hown
    rw [hid] at hown
    cases hown

/-- The fan-out sends a worker a descriptor for a place of the inputs, under a
name, consumer and source rank. -/
def Sends (c : RequestConfig) (graphWalk : Sym) (inputs : List GraphEdge) (worker : Sym)
    (k : EdgeKey) (p : (ℕ × ℕ) × Descriptor) : Prop :=
  ∃ e edge key x, inputs[e]? = some edge ∧ FromSource c graphWalk edge e key (worker, x) ∧
    k = ⟨edge.name, edge.nextNode, key.rank⟩ ∧ p ∈ x.pairs

/-- An edge with a key is from a source. -/
theorem source_of_key (h : splitAll c graphWalk inputs = .ok log) {worker : Sym} {x : Placed}
    (hx : x ∈ sentTo log worker) (hk : x.edge.key.isSome) :
    ∃ e edge key, inputs[e]? = some edge ∧ FromSource c graphWalk edge e key (worker, x) := by
  obtain ⟨hfrom, _, _, _⟩ := splitAll_ok h
  obtain ⟨e, edge, hedge, ⟨hempty, n, _, hsame⟩ | ⟨key, hsource⟩⟩ := hfrom _ (mem_sentTo.1 hx)
  · dsimp only at hsame
    have hnone : x.edge.key = none := by
      rw [hsame]
      exact GraphEdge.key_eq_none.2 hempty
    rw [hnone] at hk
    cases hk
  · exact ⟨e, edge, key, hedge, hsource⟩

/-- What a worker is sent under a key is what is in its part of the log. -/
theorem sends_iff (h : splitAll c graphWalk inputs = .ok log) {worker : Sym} {k : EdgeKey}
    {p : (ℕ × ℕ) × Descriptor} :
    Sends c graphWalk inputs worker k p ↔
      ∃ x ∈ sentTo log worker, x.edge.key = some k ∧ p ∈ x.pairs := by
  obtain ⟨_, _, hall, _⟩ := splitAll_ok h
  constructor
  · rintro ⟨e, edge, key, x, hedge, hsource, rfl, hp⟩
    exact ⟨x, mem_sentTo.2 (hall e edge key _ hedge hsource), hsource.sentOf.uniform.1, hp⟩
  · rintro ⟨x, hx, hk, hp⟩
    obtain ⟨e, edge, key, hedge, hsource⟩ := source_of_key h hx (by rw [hk]; rfl)
    refine ⟨e, edge, key, x, hedge, hsource, ?_, hp⟩
    have hkey := hsource.sentOf.uniform.1
    dsimp only at hkey
    rw [hkey] at hk
    exact (Option.some.inj hk).symm

/-- What each worker ends with. -/
structure SplitWhole (c : RequestConfig) (graphWalk : Sym) (inputs : List GraphEdge)
    (out : List (Sym × List GraphEdge)) : Prop where
  /-- A worker has one list of edges. -/
  workers : (out.map Prod.fst).Nodup
  /-- The workers are those that are sent anything. -/
  reached : ∀ worker, worker ∈ out.map Prod.fst ↔
    (∃ k p, Sends c graphWalk inputs worker k p) ∨
      ∃ edge ∈ inputs, edge.tensorInfo.items = [] ∧
        worker ∈ c.nodeToWorker edge.nextNode graphWalk
  /-- A name, consumer and source rank has one edge. -/
  one : ∀ sent ∈ out, ∀ k, (∃ p, Sends c graphWalk inputs sent.1 k p) →
    sent.2.countP (·.key = some k) = 1
  /-- Its descriptors are those the fan-out sends, each once and in the order
  of the inputs. -/
  descriptors : ∀ sent ∈ out, ∀ edge ∈ sent.2, ∀ k, edge.key = some k →
    ∃ placed : List ((ℕ × ℕ) × Descriptor), edge.tensorInfo.items = placed.map Prod.snd ∧
      (placed.map Prod.fst).Pairwise Before ∧
      ∀ p, p ∈ placed ↔ Sends c graphWalk inputs sent.1 k p
  /-- A signal-only input is there once for each rank of the consumer. -/
  signals : ∀ sent ∈ out, (sent.2.filter (·.key = none)).map (·.plain) =
    inputs.flatMap fun edge =>
      if edge.tensorInfo.items = [] then
        List.replicate ((c.nodeToWorker edge.nextNode graphWalk).count sent.1)
          (edge.clone (.given 0))
      else []
  /-- Lists that are one object have one content, over all workers. -/
  lists : ∀ sent ∈ out, ∀ sent' ∈ out, ∀ edge ∈ sent.2, ∀ edge' ∈ sent'.2,
    edge.tensorInfo.id = edge'.tensorInfo.id → edge.tensorInfo = edge'.tensorInfo
  /-- A list is one that was sent, as it was sent, or a new object, which nobody was sent
  and no other worker has. -/
  extended : ∀ sent ∈ out, ∀ edge ∈ sent.2,
    (∃ e input x, inputs[e]? = some input ∧ FromInput c graphWalk input e (sent.1, x) ∧
      edge.tensorInfo = x.edge.tensorInfo) ∨
    (∀ e input x, inputs[e]? = some input → FromInput c graphWalk input e x →
      x.2.edge.tensorInfo.id ≠ edge.tensorInfo.id) ∧
    ∀ sent' ∈ out, ∀ edge' ∈ sent'.2, edge'.tensorInfo.id = edge.tensorInfo.id → sent' = sent

/-- The lists a worker keeps once the first `k` of its edges are joined. -/
def keptAfter (log : List (Sym × Placed)) (worker : Sym) (k : ℕ) : List DescriptorList :=
  match joinAll worker 0 [] ((sentTo log worker).take k) with
  | .error _ => []
  | .ok merged => merged.map (·.edge.tensorInfo)

/-- What a worker keeps after one edge more is a list it kept, or one it was sent, or a new
object: one that no worker was sent, that it did not keep and that no other worker keeps
at any time. So nothing is added to a list that somebody else has. -/
def ExtendsOwn (log : List (Sym × Placed)) : Prop :=
  ∀ worker k, ∀ list ∈ keptAfter log worker (k + 1),
    list ∈ keptAfter log worker k ∨ (∃ x ∈ sentTo log worker, list = x.edge.tensorInfo) ∨
    (∀ sent ∈ log, sent.2.edge.tensorInfo.id ≠ list.id) ∧
    (∀ kept ∈ keptAfter log worker k, kept.id ≠ list.id) ∧
    ∀ worker' k', worker' ≠ worker → ∀ kept ∈ keptAfter log worker' k', kept.id ≠ list.id

/-- Why a split raises: the fan-out of a source of an input does, or two edges
for one worker, name, consumer and source rank disagree on fan-in. -/
def SplitRaises (c : RequestConfig) (graphWalk : Sym) (inputs : List GraphEdge)
    (error : SplitError) : Prop :=
  (∃ e edge key g pyError, inputs[e]? = some edge ∧
    key ∈ edge.tensorInfo.items.map Descriptor.source ∧
    c.fanoutGraphEdges (subEdge edge e g (idxsOf edge.tensorInfo.items key)) key.node key.graphWalk
      graphWalk key.rank (.cut e g) = .error pyError ∧ error = .fanout pyError) ∨
  error = .fanin ∧ ∃ worker e edge key x e' edge' key' x',
    inputs[e]? = some edge ∧ FromSource c graphWalk edge e key (worker, x) ∧
    inputs[e']? = some edge' ∧ FromSource c graphWalk edge' e' key' (worker, x') ∧
    x.edge.key = x'.edge.key ∧ x.edge.totalFanin ≠ x'.edge.totalFanin

/-- A list that is kept was sent, or made when an earlier edge was joined. -/
theorem keptAfter_id (h : splitAll c graphWalk inputs = .ok log) {worker : Sym} {k : ℕ}
    {list : DescriptorList} (hlist : list ∈ keptAfter log worker k) :
    list.id.isOwn = false ∨
      ∃ j, j < ((sentTo log worker).take k).length ∧ list.id = .joined worker j := by
  obtain ⟨hfrom, _, _, _⟩ := splitAll_ok h
  unfold keptAfter at hlist
  cases hjoin : joinAll worker 0 [] ((sentTo log worker).take k) with
  | error e =>
    rw [hjoin] at hlist
    cases hlist
  | ok merged =>
    rw [hjoin] at hlist
    obtain ⟨m, hm, rfl⟩ := List.mem_map.1 hlist
    rcases joinAll_lists worker hjoin hm with hm | ⟨x, hx, heq⟩ | ⟨j, hj, hid⟩
    · cases hm
    · obtain ⟨e, edge, _, hsent⟩ := hfrom _ (mem_sentTo.1 (List.mem_of_mem_take hx))
      rw [heq]
      exact Or.inl hsent.not_isOwn
    · rw [Nat.zero_add] at hj
      exact Or.inr ⟨j, hj, hid⟩

/-- Every extended list is a new object. -/
theorem extendsOwn_of_splitAll (h : splitAll c graphWalk inputs = .ok log) : ExtendsOwn log := by
  obtain ⟨hfrom, _, _, _⟩ := splitAll_ok h
  intro worker k list hlist
  have hfresh : ∀ j, ((sentTo log worker).take k).length = j → list.id = .joined worker j →
      (∀ sent ∈ log, sent.2.edge.tensorInfo.id ≠ list.id) ∧
      (∀ kept ∈ keptAfter log worker k, kept.id ≠ list.id) ∧
      ∀ worker' k', worker' ≠ worker → ∀ kept ∈ keptAfter log worker' k', kept.id ≠ list.id := by
    intro j hj hid
    rw [hid]
    refine ⟨fun sent hsent heq => ?_, fun kept hkept heq => ?_,
      fun worker' k' hne kept hkept heq => ?_⟩
    · obtain ⟨e, edge, _, hin⟩ := hfrom _ hsent
      have hown := hin.not_isOwn
      rw [heq] at hown
      cases hown
    · rcases keptAfter_id h hkept with hown | ⟨i, hi, hi'⟩
      · rw [heq] at hown
        cases hown
      · rw [heq, ListId.joined.injEq] at hi'
        omega
    · rcases keptAfter_id h hkept with hown | ⟨i, hi, hi'⟩
      · rw [heq] at hown
        cases hown
      · rw [heq, ListId.joined.injEq] at hi'
        exact hne hi'.1.symm
  unfold keptAfter at hlist ⊢
  rw [List.take_add_one, joinAll_append] at hlist
  cases hjoin : joinAll worker 0 [] ((sentTo log worker).take k) with
  | error e =>
    rw [hjoin] at hlist
    cases hlist
  | ok merged =>
    have hkept : keptAfter log worker k = merged.map (·.edge.tensorInfo) := by
      rw [keptAfter, hjoin]
    rw [hjoin] at hlist
    dsimp only at hlist ⊢
    cases hat : (sentTo log worker)[k]? with
    | none =>
      rw [hat] at hlist
      exact Or.inl hlist
    | some x =>
      rw [hat] at hlist
      simp only [Option.toList_some, joinAll, Nat.zero_add] at hlist
      cases hstep : joinInto (.joined worker ((sentTo log worker).take k).length) (.first x)
          merged with
      | error e =>
        rw [hstep] at hlist
        cases hlist
      | ok merged' =>
        rw [hstep] at hlist
        obtain ⟨m, hm, rfl⟩ := List.mem_map.1 hlist
        rcases joinInto_lists hstep hm with hm | rfl | hid
        · exact Or.inl (List.mem_map_of_mem hm)
        · exact Or.inr (Or.inl ⟨x, List.mem_of_getElem? hat, rfl⟩)
        · have hnew := hfresh _ rfl hid
          rw [hkept] at hnew
          exact Or.inr (Or.inr hnew)

/-- A split whose log raises does so in a fan-out. -/
theorem splitAll_error {pyError : PyError} (h : splitAll c graphWalk inputs = .error pyError) :
    SplitRaises c graphWalk inputs (.fanout pyError) := by
  unfold splitAll at h
  cases hall : inputs.zipIdx.mapM (splitEdge c graphWalk) with
  | ok lists =>
    rw [hall] at h
    cases h
  | error error =>
    rw [hall] at h
    cases h
    obtain ⟨⟨edge, e⟩, hin, hedge⟩ := exists_of_mapM_error hall
    unfold splitEdge at hedge
    dsimp only at hedge
    split at hedge
    · cases hedge
    · cases hgroups : (groupsOf edge.tensorInfo.items).zipIdx.mapM (fanGroup c graphWalk edge e) with
      | ok lists =>
        rw [hgroups] at hedge
        cases hedge
      | error error =>
        rw [hgroups] at hedge
        cases hedge
        obtain ⟨⟨⟨key, idxs⟩, g⟩, hgroup, hfan⟩ := exists_of_mapM_error hgroups
        have hat := List.mem_of_getElem? (List.mk_mem_zipIdx_iff_getElem?.1 hgroup)
        have hgrouped := grouped_groupsOf edge.tensorInfo.items
        have hidxs : idxs = idxsOf edge.tensorInfo.items key := hgrouped.idxs _ hat
        subst hidxs
        refine Or.inl ⟨e, edge, key, g, pyError, List.mk_mem_zipIdx_iff_getElem?.1 hin,
          (hgrouped.sources key).1 (List.mem_map_of_mem (f := Prod.fst) hat), ?_, rfl⟩
        unfold fanGroup at hfan
        dsimp only at hfan
        cases hout : c.fanoutGraphEdges (subEdge edge e g (idxsOf edge.tensorInfo.items key))
            key.node key.graphWalk graphWalk key.rank (.cut e g) with
        | ok fanout =>
          rw [hout] at hfan
          cases hfan
        | error error =>
          rw [hout] at hfan
          cases hfan
          rfl

/-- The workers with anything in the log are those sent anything. -/
theorem mem_workers_iff (h : splitAll c graphWalk inputs = .ok log) (worker : Sym) :
    worker ∈ log.map Prod.fst ↔
      (∃ k p, Sends c graphWalk inputs worker k p) ∨
        ∃ edge ∈ inputs, edge.tensorInfo.items = [] ∧
          worker ∈ c.nodeToWorker edge.nextNode graphWalk := by
  obtain ⟨hfrom, _, _, hsignals⟩ := splitAll_ok h
  have hin : ∀ x, x ∈ sentTo log worker → worker ∈ log.map Prod.fst := fun x hx =>
    List.mem_map_of_mem (f := Prod.fst) (mem_sentTo.1 hx)
  constructor
  · intro hmem
    obtain ⟨⟨w, x⟩, ha, rfl⟩ := List.mem_map.1 hmem
    obtain ⟨e, edge, hedge, ⟨hempty, n, hn, _⟩ | ⟨key, hsource⟩⟩ := hfrom _ ha
    · exact Or.inr ⟨edge, List.mem_of_getElem? hedge, hempty, List.mem_of_getElem? hn⟩
    · left
      have hlengths := hsource.sentOf.lengths
      have hkey := hsource.sentOf.uniform.1
      have hne : x.pairs ≠ [] := by
        intro hnil
        have hplaces := Placed.fst_pairs hlengths
        dsimp only at hplaces hlengths hkey
        rw [hnil, List.map_nil] at hplaces
        rw [← hplaces] at hlengths
        have hitems := List.eq_nil_of_length_eq_zero hlengths.symm
        rw [GraphEdge.key_eq_none.2 hitems] at hkey
        cases hkey
      obtain ⟨p, hp⟩ := List.exists_mem_of_ne_nil _ hne
      exact ⟨_, p, e, edge, key, x, hedge, hsource, rfl, hp⟩
  · rintro (⟨k, p, hsends⟩ | ⟨edge, hedge, hempty, hworker⟩)
    · obtain ⟨x, hx, _⟩ := (sends_iff h).1 hsends
      exact hin x hx
    · have hcopy : edge.clone (.given 0) ∈
          ((sentTo log worker).filter (·.edge.key = none)).map (·.edge.plain) := by
        rw [hsignals worker, List.mem_flatMap]
        refine ⟨edge, hedge, ?_⟩
        rw [if_pos hempty]
        exact List.mem_replicate.2 ⟨(List.count_pos_iff.2 hworker).ne', rfl⟩
      obtain ⟨x, hx, _⟩ := List.mem_map.1 hcopy
      exact hin x (List.mem_of_mem_filter hx)

/-- The workers' joined edges, of a log without error. -/
theorem splitWhole_of_log (h : splitAll c graphWalk inputs = .ok log)
    {out : List (Sym × List GraphEdge)}
    (hout : ((log.map Prod.fst).dedup.mapM fun worker =>
      (rejoin worker (sentTo log worker)).map fun edges => (worker, edges)) = .ok out) :
    SplitWhole c graphWalk inputs out := by
  have heach := forall₂_of_mapM hout
  have hone : ∀ worker (sent : Sym × List GraphEdge),
      (rejoin worker (sentTo log worker)).map (fun edges => (worker, edges)) = .ok sent →
      sent.1 = worker ∧ rejoin worker (sentTo log worker) = .ok sent.2 := by
    intro worker sent hsent
    cases hrejoin : rejoin worker (sentTo log worker) with
    | error e =>
      rw [hrejoin] at hsent
      cases hsent
    | ok edges =>
      rw [hrejoin] at hsent
      cases hsent
      exact ⟨rfl, rfl⟩
  have hworkers : out.map Prod.fst = (log.map Prod.fst).dedup := by
    have hsame := heach.imp fun worker sent hsent => (hone worker sent hsent).1.symm
    have hmap := List.forall₂_map_right_iff.2 hsame
    exact (List.forall₂_eq_eq_eq ▸ hmap : (log.map Prod.fst).dedup = out.map Prod.fst).symm
  have hrejoined : ∀ sent ∈ out, rejoin sent.1 (sentTo log sent.1) = .ok sent.2 := by
    intro sent hsent
    obtain ⟨worker, _, hok⟩ := exists_left_of_forall₂ heach hsent
    obtain ⟨hw, hrejoin⟩ := hone worker sent hok
    rw [hw]
    exact hrejoin
  have hspec : ∀ sent ∈ out, Rejoined sent.1 (sentTo log sent.1) sent.2 := fun sent hsent =>
    (rejoin_spec sent.1 (ready_of_splitAll h sent.1)).1 _ (hrejoined sent hsent)
  obtain ⟨hfrom, _, _, hsignals⟩ := splitAll_ok h
  -- lists put in order at the same place are of the same worker
  have hsameWorker : ∀ sent ∈ out, ∀ sent' ∈ out, sent.1 = sent'.1 → sent = sent' := by
    intro sent hsent sent' hsent' hname
    refine Prod.ext hname ?_
    have hok := hrejoined sent hsent
    have hok' := hrejoined sent' hsent'
    rw [hname, hok'] at hok
    exact (Except.ok.inj hok).symm
  constructor
  · rw [hworkers]
    exact List.nodup_dedup _
  · intro worker
    rw [hworkers, List.mem_dedup]
    exact mem_workers_iff h worker
  · rintro sent hsent k ⟨p, hp⟩
    obtain ⟨x, hx, hk, _⟩ := (sends_iff h).1 hp
    exact (hspec sent hsent).one k ⟨x, hx, hk⟩
  · intro sent hsent edge hedge k hk
    obtain ⟨placed, hitems, hplaces, hfrom⟩ := (hspec sent hsent).descriptors edge hedge k hk
    exact ⟨placed, hitems, hplaces, fun p => (hfrom p).trans (sends_iff h).symm⟩
  · intro sent hsent
    rw [(hspec sent hsent).signals, List.map_map]
    exact hsignals sent.1
  · intro sent hsent sent' hsent' edge hedge edge' hedge' hid
    rcases (hspec sent hsent).lists edge hedge with ⟨x, hx, hlist⟩ | ⟨i, hi⟩
    · rcases (hspec sent' hsent').lists edge' hedge' with ⟨x', hx', hlist'⟩ | ⟨i', hi'⟩
      · rw [hlist, hlist'] at hid ⊢
        exact lists_of_splitAll h (mem_sentTo.1 hx) (mem_sentTo.1 hx') hid
      · rw [hlist, hi'] at hid
        exact absurd hid ((ready_of_splitAll h sent.1).fresh x hx _ _)
    · rcases (hspec sent' hsent').lists edge' hedge' with ⟨x', hx', hlist'⟩ | ⟨i', hi'⟩
      · rw [hlist', hi] at hid
        exact absurd hid.symm ((ready_of_splitAll h sent'.1).fresh x' hx' _ _)
      · -- put in order by the same worker, at the same place
        have hsame : sent.1 = sent'.1 ∧ i = i' := by
          rw [hi, hi'] at hid
          simpa only [ListId.ordered.injEq] using hid
        obtain rfl := hsameWorker sent hsent sent' hsent' hsame.1
        rw [← hsame.2] at hi'
        exact (hspec sent hsent).ordered edge hedge edge' hedge' i hi hi'
  · intro sent hsent edge hedge
    rcases (hspec sent hsent).lists edge hedge with ⟨x, hx, hlist⟩ | ⟨i, hi⟩
    · obtain ⟨e, input, hinput, hin⟩ := hfrom _ (mem_sentTo.1 hx)
      exact Or.inl ⟨e, input, x, hinput, hin, hlist⟩
    · refine Or.inr ⟨fun e input x _ hin heq => ?_, fun sent' hsent' edge' hedge' heq => ?_⟩
      · have hown := hin.not_isOwn
        rw [heq, hi] at hown
        cases hown
      · rw [hi] at heq
        rcases (hspec sent' hsent').lists edge' hedge' with ⟨x', hx', hlist'⟩ | ⟨i', hi'⟩
        · rw [hlist'] at heq
          exact absurd heq ((ready_of_splitAll h sent'.1).fresh x' hx' _ _)
        · rw [hi', ListId.ordered.injEq] at heq
          exact hsameWorker sent' hsent' sent hsent heq.1

/-- A worker's edges that cannot be joined disagree on fan-in. -/
theorem splitRaises_of_log (h : splitAll c graphWalk inputs = .ok log) {error : SplitError}
    (herror : ((log.map Prod.fst).dedup.mapM fun worker =>
      (rejoin worker (sentTo log worker)).map fun edges => (worker, edges)) = .error error) :
    SplitRaises c graphWalk inputs error := by
  obtain ⟨worker, _, hrejoin⟩ := exists_of_mapM_error herror
  obtain ⟨_, herrors⟩ := rejoin_spec worker (ready_of_splitAll h worker)
  cases hout : rejoin worker (sentTo log worker) with
  | ok edges =>
    rw [hout] at hrejoin
    cases hrejoin
  | error error' =>
    rw [hout] at hrejoin
    cases hrejoin
    obtain ⟨hfanin, x, hx, y, hy, hsome, hkeys, hdiffer⟩ := herrors error hout
    obtain ⟨e, edge, key, hedge, hsource⟩ := source_of_key h hx hsome
    obtain ⟨e', edge', key', hedge', hsource'⟩ := source_of_key h hy (hkeys ▸ hsome)
    exact Or.inr ⟨hfanin, worker, e, edge, key, x, e', edge', key', y, hedge, hsource, hedge',
      hsource', hkeys, hdiffer⟩

/-- A split gives every worker its inputs once and in order, adding to no list that
somebody else has, or raises because a fan-out does or contributors disagree on fan-in. -/
theorem splits_whole (c : RequestConfig) (inputs : List GraphEdge) (graphWalk : Sym) :
    (∀ out, splitInputsToWorkers c inputs graphWalk = .ok out →
      SplitWhole c graphWalk inputs out) ∧
    (∀ log, splitAll c graphWalk inputs = .ok log → ExtendsOwn log) ∧
    ∀ error, splitInputsToWorkers c inputs graphWalk = .error error →
      SplitRaises c graphWalk inputs error := by
  refine ⟨?_, fun log hlog => extendsOwn_of_splitAll hlog, ?_⟩
  · intro out hout
    unfold splitInputsToWorkers at hout
    cases hlog : splitAll c graphWalk inputs with
    | error pyError =>
      rw [hlog] at hout
      cases hout
    | ok log =>
      rw [hlog] at hout
      exact splitWhole_of_log hlog hout
  · intro error herror
    unfold splitInputsToWorkers at herror
    cases hlog : splitAll c graphWalk inputs with
    | error pyError =>
      rw [hlog] at herror
      cases herror
      exact splitAll_error hlog
    | ok log =>
      rw [hlog] at herror
      exact splitRaises_of_log hlog herror

/-- Two workers behind node 10, the first of them behind node 11 too; signal 50
is cut along its leading dim. -/
def twoRanks : RequestConfig where
  groupMapping node _ :=
    if node = 10 then some ⟨[7, 8], 2, none, rfl, Nat.two_pos, Group.two_lt⟩
    else if node = 11 then some ⟨[7], 1, none, rfl, Nat.one_pos, Group.one_lt⟩ else none
  shardDim signal := if signal = 50 then some 0 else none
  nodeToWorker node _ := if node = 10 then [7, 8] else if node = 11 then [7] else []

/-- An input with one descriptor, of three rows from node 11. -/
def threeRows : GraphEdge where
  nextNode := 10
  name := 50
  tensorInfo := ⟨.given 0, [⟨⟨1, [3], 4, 12, 0⟩, 0, some 11, some 1⟩]⟩
  persist := true
  conductorNewToken := false
  isStreaming := false
  outputModality := 0
  persistForLoop := false
  finalStreamChunk := false

/-- A split of one descriptor raises, where no two contributors can
disagree. -/
theorem one_descriptor_raises :
    splitInputsToWorkers twoRanks [threeRows] 1 = .error (.fanout .indivisible) := by
  rfl

end Mstar.SplitInputs
