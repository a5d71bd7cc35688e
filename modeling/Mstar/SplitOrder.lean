import Mstar.SplitJoins

/-!
# Joined edges in the order of the inputs

A worker ends with one edge for every key it was sent, whose descriptors are
those of the key's edges, each once and in the order of the inputs.
-/

namespace Mstar.SplitInputs

open Shard

/-- A worker's edges once they are joined and in order. -/
structure Rejoined (worker : Sym) (edges : List Placed) (out : List GraphEdge) : Prop where
  /-- A key has one edge. -/
  one : ∀ k, (∃ x ∈ edges, x.edge.key = some k) → out.countP (·.key = some k) = 1
  /-- Its descriptors are those of the key's edges, in the order of the
  inputs. -/
  descriptors : ∀ o ∈ out, ∀ k, o.key = some k →
    ∃ placed : List ((ℕ × ℕ) × Descriptor), o.tensorInfo.items = placed.map Prod.snd ∧
      (placed.map Prod.fst).Pairwise Before ∧
      ∀ p, p ∈ placed ↔ ∃ x ∈ edges, x.edge.key = some k ∧ p ∈ x.pairs
  /-- The signal-only edges are those sent. -/
  signals : out.filter (·.key = none) = (edges.filter (·.edge.key = none)).map (·.edge)
  /-- A list is one that was sent, or one put in order here. -/
  lists : ∀ o ∈ out, (∃ x ∈ edges, o.tensorInfo = x.edge.tensorInfo) ∨
    ∃ i, o.tensorInfo.id = .ordered worker i
  /-- A list put in order has one content. -/
  ordered : ∀ o ∈ out, ∀ o' ∈ out, ∀ i, o.tensorInfo.id = .ordered worker i →
    o'.tensorInfo.id = .ordered worker i → o.tensorInfo = o'.tensorInfo

/-- A kept edge as a worker ends with it. -/
def finished (worker : Sym) (merged : Merged × ℕ) : GraphEdge :=
  if merged.1.joined then
    { merged.1.edge with tensorInfo := ⟨.ordered worker merged.2,
      (merged.1.pairs.mergeSort placeLe).map Prod.snd⟩ }
  else merged.1.edge

variable {worker : Sym} {edges : List Placed} {merged : List Merged}

/-- Putting in order raises nothing: every descriptor has a place. -/
theorem inOrder_eq (worker : Sym) {m : Merged × ℕ}
    (hlength : m.1.positions.length = m.1.edge.tensorInfo.items.length) :
    inOrder worker m = .ok (finished worker m) := by
  unfold inOrder finished Merged.pairs
  cases m.1.joined with
  | false => rfl
  | true => simp only [if_true, if_pos hlength]

/-- Every place comes before, is, or comes after every other. -/
theorem before_of_placeLe {p q : (ℕ × ℕ) × Descriptor} (h : placeLe p q = true)
    (hne : p.1 ≠ q.1) : Before p.1 q.1 := by
  unfold placeLe at h
  rw [decide_eq_true_iff] at h
  rcases h with h | ⟨hfst, hsnd⟩
  · exact Or.inl h
  · right
    refine ⟨hfst, ?_⟩
    have hlt : p.1.2 ≠ q.1.2 := fun heq => hne (Prod.ext hfst heq)
    omega

/-- Sorting pairs with different places puts the places in order. -/
theorem sorted_places {pairs : List ((ℕ × ℕ) × Descriptor)} (h : (pairs.map Prod.fst).Nodup) :
    ((pairs.mergeSort placeLe).map Prod.fst).Pairwise Before := by
  have hsorted : (pairs.mergeSort placeLe).Pairwise fun p q => placeLe p q = true := by
    refine List.pairwise_mergeSort ?_ ?_ pairs
    · intro p q r hpq hqr
      unfold placeLe at hpq hqr ⊢
      rw [decide_eq_true_iff] at hpq hqr ⊢
      omega
    · intro p q
      unfold placeLe
      rw [Bool.or_eq_true, decide_eq_true_iff, decide_eq_true_iff]
      omega
  have hperm := (List.mergeSort_perm pairs placeLe).map Prod.fst
  have hdistinct := List.pairwise_map.1 (hperm.symm.nodup h)
  exact List.pairwise_map.2 ((hsorted.and hdistinct).imp fun hboth =>
    before_of_placeLe hboth.1 hboth.2)

/-- The places of an edge's descriptors. -/
theorem Placed.fst_pairs {x : Placed}
    (hlength : x.positions.length = x.edge.tensorInfo.items.length) :
    x.pairs.map Prod.fst = x.positions := List.map_fst_zip hlength.le

/-- The descriptors of a kept edge. -/
theorem Merged.snd_pairs {m : Merged}
    (hlength : m.positions.length = m.edge.tensorInfo.items.length) :
    m.pairs.map Prod.snd = m.edge.tensorInfo.items := List.map_snd_zip hlength.ge

/-- No place comes before itself. -/
theorem nodup_of_before {places : List (ℕ × ℕ)} (h : places.Pairwise Before) : places.Nodup := by
  refine h.imp fun {p q} hpq heq => ?_
  unfold Before at hpq
  subst heq
  omega

/-- The places of the edges of a key are different. -/
theorem Ready.nodup_places (h : Ready edges) (k : EdgeKey) :
    (((edges.filter (·.edge.key = some k)).flatMap Placed.pairs).map Prod.fst).Nodup := by
  have hplaces : ((edges.filter (·.edge.key = some k)).flatMap Placed.pairs).map Prod.fst =
      (edges.filter (·.edge.key = some k)).flatMap Placed.positions := by
    rw [List.map_flatMap]
    exact List.flatMap_congr fun x hx => Placed.fst_pairs (h.lengths x (List.mem_of_mem_filter hx))
  rw [hplaces, List.nodup_flatMap]
  constructor
  · exact fun x hx => nodup_of_before (h.ascend x (List.mem_of_mem_filter hx))
  · exact (h.apart.filter _).imp fun hxy p hx hy => hxy p hx hy

/-- A kept edge of a key has the descriptors of the key's edges. -/
theorem Joins.pairs_eq (h : Joins edges merged) {m : Merged} (hm : m ∈ merged) {k : EdgeKey}
    (hk : m.key = some k) :
    m.pairs = (edges.filter (·.edge.key = some k)).flatMap Placed.pairs := by
  obtain ⟨front, back, hmerged⟩ := List.append_of_mem hm
  obtain ⟨hfront, hback⟩ := filter_of_few (h.few k) hmerged hk
  rw [← h.pairs k, hmerged, List.filter_append, List.filter_cons_of_pos (by simp [hk]), hfront,
    hback]
  simp

/-- The key of a kept edge, with its descriptors in any order. -/
theorem Joins.key_eq (h : Joins edges merged) {m : Merged} (hm : m ∈ merged) {edge : GraphEdge}
    (hname : edge.name = m.edge.name) (hnext : edge.nextNode = m.edge.nextNode)
    (hitems : edge.tensorInfo.items.Perm m.edge.tensorInfo.items) : edge.key = m.key := by
  cases hhead : edge.tensorInfo.items with
  | nil =>
    rw [hhead] at hitems
    rw [h.keyed m hm (List.nil_perm.1 hitems), GraphEdge.key_eq_none.2 hhead]
  | cons d rest =>
    have hd : d ∈ m.edge.tensorInfo.items :=
      hitems.mem_iff.1 (by rw [hhead]; exact List.mem_cons_self)
    rw [h.uniform m hm d hd]
    unfold GraphEdge.key
    rw [hhead, hname, hnext]
    rfl

/-- A finished edge has its descriptors in some order. -/
theorem Joins.finished_perm (h : Joins edges merged) {m : Merged × ℕ} (hm : m.1 ∈ merged) :
    (finished worker m).tensorInfo.items.Perm m.1.edge.tensorInfo.items := by
  unfold finished
  split
  · have hperm := (List.mergeSort_perm m.1.pairs placeLe).map Prod.snd
    rwa [Merged.snd_pairs (h.lengths m.1 hm)] at hperm
  · exact List.Perm.refl _

/-- A finished edge keeps its key. -/
theorem Joins.finished_key (h : Joins edges merged) {m : Merged × ℕ} (hm : m.1 ∈ merged) :
    (finished worker m).key = m.1.key := by
  refine h.key_eq hm ?_ ?_ (h.finished_perm hm)
  · unfold finished
    split <;> rfl
  · unfold finished
    split <;> rfl

/-- What a worker ends with. -/
theorem Joins.rejoined (h : Joins edges merged) (hready : Ready edges) :
    Rejoined worker edges (merged.zipIdx.map (finished worker)) := by
  have hmem : ∀ m ∈ merged.zipIdx, m.1 ∈ merged := by
    intro m hm
    have hfst := List.mem_map_of_mem (f := Prod.fst) hm
    rwa [List.zipIdx_map_fst] at hfst
  constructor
  · rintro k ⟨x, hx, hk⟩
    have hcount : (merged.zipIdx.map (finished worker)).countP (·.key = some k) =
        merged.countP (·.key = some k) := by
      rw [List.countP_map]
      have hfst : merged.zipIdx.map Prod.fst = merged := List.zipIdx_map_fst 0 merged
      rw [← List.countP_congr fun m hm => ?_, ← List.countP_map, hfst]
      simp [h.finished_key (hmem m hm)]
    have hfew := h.few k
    rw [← List.countP_eq_length_filter] at hfew
    have hsome : 0 < merged.countP (·.key = some k) := by
      rw [List.countP_pos_iff]
      by_contra hnone
      push Not at hnone
      have hempty : merged.filter (·.key = some k) = [] := by
        rw [List.filter_eq_nil_iff]
        exact hnone
      have hpairs := h.pairs k
      rw [hempty, List.flatMap_nil] at hpairs
      have hx' : x ∈ edges.filter (·.edge.key = some k) := List.mem_filter.2 ⟨hx, by simp [hk]⟩
      have hnil := List.flatMap_eq_nil_iff.1 hpairs.symm x hx'
      have hplaces := Placed.fst_pairs (hready.lengths x hx)
      rw [hnil, List.map_nil] at hplaces
      have hlength := hready.lengths x hx
      rw [← hplaces] at hlength
      have hitems := List.eq_nil_of_length_eq_zero hlength.symm
      rw [GraphEdge.key_eq_none.2 hitems] at hk
      cases hk
    rw [hcount]
    omega
  · intro o ho k hk
    obtain ⟨m, hm, rfl⟩ := List.mem_map.1 ho
    rw [h.finished_key (hmem m hm)] at hk
    have hpairs := h.pairs_eq (hmem m hm) hk
    have hplaces := hready.nodup_places k
    rw [← hpairs] at hplaces
    have hfrom : ∀ p, p ∈ m.1.pairs ↔ ∃ x ∈ edges, x.edge.key = some k ∧ p ∈ x.pairs := by
      intro p
      rw [hpairs, List.mem_flatMap]
      simp only [List.mem_filter, decide_eq_true_eq]
      constructor
      · rintro ⟨x, ⟨hx, hkx⟩, hp⟩
        exact ⟨x, hx, hkx, hp⟩
      · rintro ⟨x, hx, hkx, hp⟩
        exact ⟨x, ⟨hx, hkx⟩, hp⟩
    unfold finished
    cases hj : m.1.joined with
    | true =>
      refine ⟨m.1.pairs.mergeSort placeLe, rfl, sorted_places hplaces, fun p => ?_⟩
      rw [(List.mergeSort_perm m.1.pairs placeLe).mem_iff]
      exact hfrom p
    | false =>
      obtain ⟨x, hx, _, hpositions⟩ := h.alone m.1 (hmem m hm) hj
      refine ⟨m.1.pairs, (Merged.snd_pairs (h.lengths m.1 (hmem m hm))).symm, ?_, hfrom⟩
      have hfst : m.1.pairs.map Prod.fst = m.1.positions :=
        List.map_fst_zip (h.lengths m.1 (hmem m hm)).le
      rw [hfst, hpositions]
      exact hready.ascend x hx
  · have hfst : merged.zipIdx.map Prod.fst = merged := List.zipIdx_map_fst 0 merged
    have hsignals := h.signals
    rw [← hfst, List.filter_map, List.map_map] at hsignals
    rw [List.filter_map, ← hsignals]
    have hsame : merged.zipIdx.filter ((fun o : GraphEdge => decide (o.key = none)) ∘
        finished worker) =
        merged.zipIdx.filter ((fun m : Merged => decide (m.key = none)) ∘ Prod.fst) := by
      refine List.filter_congr fun m hm => ?_
      simp [h.finished_key (hmem m hm)]
    rw [hsame]
    refine List.map_congr_left fun m hm => ?_
    obtain ⟨hm, hnone⟩ := List.mem_filter.1 hm
    have hj := h.unjoined m.1 (hmem m hm) (by simpa using hnone)
    unfold finished
    rw [hj]
    rfl
  · intro o ho
    obtain ⟨m, hm, rfl⟩ := List.mem_map.1 ho
    unfold finished
    cases hj : m.1.joined with
    | true => exact Or.inr ⟨m.2, rfl⟩
    | false =>
      obtain ⟨x, hx, hedge, _⟩ := h.alone m.1 (hmem m hm) hj
      exact Or.inl ⟨x, hx, by rw [← hedge]; rfl⟩
  · intro o ho o' ho' i hi hi'
    obtain ⟨m, hm, rfl⟩ := List.mem_map.1 ho
    obtain ⟨m', hm', rfl⟩ := List.mem_map.1 ho'
    have hindex : ∀ n ∈ merged.zipIdx, (finished worker n).tensorInfo.id = .ordered worker i →
        n.2 = i := by
      intro n hn hid
      unfold finished at hid
      cases hj : n.1.joined with
      | true =>
        rw [hj] at hid
        simp only [if_true, ListId.ordered.injEq, true_and] at hid
        exact hid
      | false =>
        rw [hj] at hid
        obtain ⟨x, hx, hedge, _⟩ := h.alone n.1 (hmem n hn) hj
        simp only [Bool.false_eq_true, if_false, hedge] at hid
        exact absurd hid (hready.fresh x hx worker i)
    have hsame : m = m' := by
      by_contra hne
      obtain ⟨a, n⟩ := m
      obtain ⟨a', n'⟩ := m'
      have hn : n = n' := (hindex _ hm hi).trans (hindex _ hm' hi').symm
      subst hn
      have ha := List.mk_mem_zipIdx_iff_getElem?.1 hm
      have ha' := List.mk_mem_zipIdx_iff_getElem?.1 hm'
      rw [ha] at ha'
      cases ha'
      exact hne rfl
    rw [hsame]

/-- A worker joins its edges, or meets two of one key that disagree on
fan-in. -/
theorem rejoin_spec (worker : Sym) (h : Ready edges) :
    (∀ out, rejoin worker edges = .ok out → Rejoined worker edges out) ∧
    ∀ error, rejoin worker edges = .error error →
      error = .fanin ∧ ∃ x ∈ edges, ∃ y ∈ edges, x.edge.key.isSome ∧ x.edge.key = y.edge.key ∧
        x.edge.totalFanin ≠ y.edge.totalFanin := by
  have hstart : Joins [] [] := by
    constructor <;> simp
  obtain ⟨hok, herror⟩ := joinAll_spec worker hstart h.lengths h.uniform 0
  rw [List.nil_append] at hok herror
  unfold rejoin
  cases hjoin : joinAll worker 0 [] edges with
  | error e =>
    constructor
    · intro out hout
      cases hout
    · intro error herr
      cases herr
      exact herror e hjoin
  | ok merged =>
    have hjoins := hok merged hjoin
    have hall : merged.zipIdx.mapM (inOrder worker) = .ok (merged.zipIdx.map (finished worker)) := by
      refine mapM_ok fun m hm => inOrder_eq worker (hjoins.lengths m.1 ?_)
      have hfst := List.mem_map_of_mem (f := Prod.fst) hm
      rwa [List.zipIdx_map_fst] at hfst
    dsimp only
    rw [hall]
    constructor
    · intro out hout
      cases hout
      exact hjoins.rejoined h
    · intro error herr
      cases herr

end Mstar.SplitInputs
