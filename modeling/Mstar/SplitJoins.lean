import Mstar.SplitGroups

/-!
# A worker joins its edges

Joining keeps, for every key, the descriptors of the edges that had it, each
with its place in the inputs. What was joined is sorted by these places, and
what was not is in their order already.
-/

namespace Mstar.SplitInputs

open Shard

/-- One place comes before another in the inputs. -/
def Before (p q : ℕ × ℕ) : Prop := p.1 < q.1 ∨ p.1 = q.1 ∧ p.2 < q.2

/-- An edge's descriptors with their places. -/
def Placed.pairs (x : Placed) : List ((ℕ × ℕ) × Descriptor) :=
  x.positions.zip x.edge.tensorInfo.items

/-- A kept edge's descriptors with their places. -/
def Merged.pairs (m : Merged) : List ((ℕ × ℕ) × Descriptor) :=
  m.positions.zip m.edge.tensorInfo.items

/-- Edges as a split sends them. -/
structure Ready (edges : List Placed) : Prop where
  /-- Every descriptor has a place. -/
  lengths : ∀ x ∈ edges, x.positions.length = x.edge.tensorInfo.items.length
  /-- An edge's places ascend. -/
  ascend : ∀ x ∈ edges, x.positions.Pairwise Before
  /-- No place is in two edges. -/
  apart : edges.Pairwise fun x y => ∀ p ∈ x.positions, p ∉ y.positions
  /-- An edge's descriptors are of one source rank. -/
  uniform : ∀ x ∈ edges, ∀ d ∈ x.edge.tensorInfo.items,
    x.edge.key = some ⟨x.edge.name, x.edge.nextNode, d.sourceTpRank⟩
  /-- No list was put in order yet. -/
  fresh : ∀ x ∈ edges, ∀ worker i, x.edge.tensorInfo.id ≠ .ordered worker i

/-- What joining an edge does: it is kept, or joined to the one edge of its
key. -/
theorem joinInto_cases {id : ListId} {x : Merged} {merged merged' : List Merged}
    (h : joinInto id x merged = .ok merged') :
    (x.key = none ∨ ∀ m ∈ merged, m.key ≠ x.key) ∧ merged' = merged ++ [x] ∨
      ∃ front first back, merged = front ++ first :: back ∧ x.key.isSome ∧ first.key = x.key ∧
        first.edge.totalFanin = x.edge.totalFanin ∧
        merged' = front ++ { first with
          edge := { first.edge with
            tensorInfo := ⟨id, first.edge.tensorInfo.items ++ x.edge.tensorInfo.items⟩ }
          positions := first.positions ++ x.positions
          joined := true } :: back := by
  induction merged generalizing merged' with
  | nil =>
    cases h
    exact Or.inl ⟨Or.inr fun m hm => absurd hm List.not_mem_nil, rfl⟩
  | cons first rest ih =>
    unfold joinInto at h
    by_cases hkey : x.key.isSome = true ∧ first.key = x.key
    · rw [if_pos hkey] at h
      by_cases hfanin : first.edge.totalFanin = x.edge.totalFanin
      · rw [if_pos hfanin] at h
        cases h
        exact Or.inr ⟨[], first, rest, rfl, hkey.1, hkey.2, hfanin, rfl⟩
      · rw [if_neg hfanin] at h
        cases h
    · rw [if_neg hkey] at h
      cases hrest : joinInto id x rest with
      | error e =>
        rw [hrest] at h
        cases h
      | ok rest' =>
        rw [hrest] at h
        cases h
        rcases ih hrest with ⟨hnone, rfl⟩ | ⟨front, m, back, rfl, hsome, hm, hfanin, rfl⟩
        · refine Or.inl ⟨?_, rfl⟩
          rcases hnone with hnone | hnone
          · exact Or.inl hnone
          · cases hx : x.key with
            | none => exact Or.inl rfl
            | some k =>
              right
              rw [hx] at hnone hkey
              intro m hm
              rcases List.mem_cons.1 hm with rfl | hm
              · exact fun hsame => hkey ⟨rfl, hsame⟩
              · exact hnone m hm
        · exact Or.inr ⟨first :: front, m, back, rfl, hsome, hm, hfanin, rfl⟩

/-- Joining raises when two edges of one key disagree on fan-in. -/
theorem joinInto_error {id : ListId} {x : Merged} {merged : List Merged} {error : SplitError}
    (h : joinInto id x merged = .error error) :
    error = .fanin ∧ ∃ first ∈ merged, x.key.isSome ∧ first.key = x.key ∧
      first.edge.totalFanin ≠ x.edge.totalFanin := by
  induction merged with
  | nil => cases h
  | cons first rest ih =>
    unfold joinInto at h
    by_cases hkey : x.key.isSome = true ∧ first.key = x.key
    · rw [if_pos hkey] at h
      by_cases hfanin : first.edge.totalFanin = x.edge.totalFanin
      · rw [if_pos hfanin] at h
        cases h
      · rw [if_neg hfanin] at h
        cases h
        exact ⟨rfl, first, List.mem_cons_self, hkey.1, hkey.2, hfanin⟩
    · rw [if_neg hkey] at h
      cases hrest : joinInto id x rest with
      | error e =>
        rw [hrest] at h
        cases h
        obtain ⟨herror, m, hm, hfacts⟩ := ih hrest
        exact ⟨herror, m, List.mem_cons_of_mem _ hm, hfacts⟩
      | ok rest' =>
        rw [hrest] at h
        cases h

/-- The edges kept of those joined so far. -/
structure Joins (edges : List Placed) (merged : List Merged) : Prop where
  /-- A key has the descriptors of its edges. -/
  pairs : ∀ k, (merged.filter (·.key = some k)).flatMap Merged.pairs =
    (edges.filter (·.edge.key = some k)).flatMap Placed.pairs
  /-- A key has one edge. -/
  few : ∀ k, (merged.filter (·.key = some k)).length ≤ 1
  /-- The signal-only edges are kept as they are. -/
  signals : (merged.filter (·.key = none)).map (·.edge) =
    (edges.filter (·.edge.key = none)).map (·.edge)
  /-- Every descriptor has a place. -/
  lengths : ∀ m ∈ merged, m.positions.length = m.edge.tensorInfo.items.length
  /-- The key is that of every descriptor. -/
  uniform : ∀ m ∈ merged, ∀ d ∈ m.edge.tensorInfo.items,
    m.key = some ⟨m.edge.name, m.edge.nextNode, d.sourceTpRank⟩
  /-- Only edges with descriptors have a key. -/
  keyed : ∀ m ∈ merged, m.edge.tensorInfo.items = [] → m.key = none
  /-- An edge nothing was joined to is one of those sent. -/
  alone : ∀ m ∈ merged, m.joined = false →
    ∃ x ∈ edges, m.edge = x.edge ∧ m.positions = x.positions
  /-- A signal-only edge has nothing joined to it. -/
  unjoined : ∀ m ∈ merged, m.key = none → m.joined = false
  /-- The fan-in is that of an edge sent. -/
  fanin : ∀ m ∈ merged, ∃ x ∈ edges, x.edge.key = m.key ∧ x.edge.totalFanin = m.edge.totalFanin

/-- An edge's key is none only without descriptors. -/
theorem GraphEdge.key_eq_none {edge : GraphEdge} :
    edge.key = none ↔ edge.tensorInfo.items = [] := by
  unfold GraphEdge.key
  cases edge.tensorInfo.items <;> simp

/-- An edge is kept as the first of its key. -/
theorem Joins.keep {edges : List Placed} {merged : List Merged} (h : Joins edges merged)
    {x : Placed} (hlength : x.positions.length = x.edge.tensorInfo.items.length)
    (huniform : ∀ d ∈ x.edge.tensorInfo.items,
      x.edge.key = some ⟨x.edge.name, x.edge.nextNode, d.sourceTpRank⟩)
    (hnew : x.edge.key = none ∨ ∀ m ∈ merged, m.key ≠ x.edge.key) :
    Joins (edges ++ [x]) (merged ++ [.first x]) := by
  have hmem : ∀ {P : Merged → Prop}, (∀ m ∈ merged, P m) → P (.first x) →
      ∀ m ∈ merged ++ [.first x], P m := by
    intro P hold hx m hm
    rcases List.mem_append.1 hm with hm | hm
    · exact hold m hm
    · obtain rfl := List.mem_singleton.1 hm
      exact hx
  constructor
  · intro k
    rw [List.filter_append, List.flatMap_append, h.pairs, List.filter_append, List.flatMap_append]
    congr 1
    by_cases hk : x.edge.key = some k
    · simp [Merged.first, hk, Merged.pairs, Placed.pairs]
    · simp [Merged.first, hk]
  · intro k
    rw [List.filter_append, List.length_append]
    by_cases hk : x.edge.key = some k
    · have hnone : merged.filter (·.key = some k) = [] := by
        rw [List.filter_eq_nil_iff]
        intro m hm
        rcases hnew with hnew | hnew
        · rw [hk] at hnew
          cases hnew
        · simpa [← hk] using hnew m hm
      simp [hnone, Merged.first, hk]
    · simpa [Merged.first, hk] using h.few k
  · rw [List.filter_append, List.map_append, h.signals, List.filter_append, List.map_append]
    congr 1
    by_cases hk : x.edge.key = none
    · simp [Merged.first, hk]
    · simp [Merged.first, hk]
  · exact hmem h.lengths hlength
  · exact hmem h.uniform huniform
  · exact hmem h.keyed GraphEdge.key_eq_none.2
  · refine hmem (fun m hm hj => ?_) fun _ =>
      ⟨x, List.mem_append_right _ (List.mem_singleton_self x), rfl, rfl⟩
    obtain ⟨y, hy, hfacts⟩ := h.alone m hm hj
    exact ⟨y, List.mem_append_left _ hy, hfacts⟩
  · exact hmem h.unjoined fun _ => rfl
  · refine hmem (fun m hm => ?_)
      ⟨x, List.mem_append_right _ (List.mem_singleton_self x), rfl, rfl⟩
    obtain ⟨y, hy, hfacts⟩ := h.fanin m hm
    exact ⟨y, List.mem_append_left _ hy, hfacts⟩

/-- The one edge of a key among those kept. -/
theorem filter_of_few {merged front back : List Merged} {first : Merged} {k : EdgeKey}
    (hfew : (merged.filter (·.key = some k)).length ≤ 1)
    (hmerged : merged = front ++ first :: back) (hfirst : first.key = some k) :
    front.filter (·.key = some k) = [] ∧ back.filter (·.key = some k) = [] := by
  subst hmerged
  rw [List.filter_append, List.filter_cons_of_pos (by simp [hfirst]), List.length_append,
    List.length_cons] at hfew
  constructor
  · exact List.eq_nil_of_length_eq_zero (by omega)
  · exact List.eq_nil_of_length_eq_zero (by omega)

/-- An edge is joined to the first of its key. -/
theorem Joins.join {edges : List Placed} {merged front back : List Merged} {first : Merged}
    (h : Joins edges merged) (id : ListId) {x : Placed} {k : EdgeKey}
    (hlength : x.positions.length = x.edge.tensorInfo.items.length)
    (huniform : ∀ d ∈ x.edge.tensorInfo.items,
      x.edge.key = some ⟨x.edge.name, x.edge.nextNode, d.sourceTpRank⟩)
    (hk : x.edge.key = some k) (hmerged : merged = front ++ first :: back)
    (hfirst : first.key = some k) :
    Joins (edges ++ [x]) (front ++ { first with
      edge := { first.edge with
        tensorInfo := ⟨id, first.edge.tensorInfo.items ++ x.edge.tensorInfo.items⟩ }
      positions := first.positions ++ x.positions
      joined := true } :: back) := by
  have hin : first ∈ merged := by
    rw [hmerged]
    exact List.mem_append_right _ List.mem_cons_self
  obtain ⟨hfront, hback⟩ := filter_of_few (h.few k) hmerged hfirst
  have hfirstLength := h.lengths first hin
  have hmem : ∀ {P : Merged → Prop}, (∀ m ∈ merged, P m) → ∀ joined, P joined →
      ∀ m ∈ front ++ joined :: back, P m := by
    intro P hold joined hjoined m hm
    rcases List.mem_append.1 hm with hm | hm
    · exact hold m (by rw [hmerged]; exact List.mem_append_left _ hm)
    · rcases List.mem_cons.1 hm with rfl | hm
      · exact hjoined
      · exact hold m (by rw [hmerged]; exact List.mem_append_right _ (List.mem_cons_of_mem _ hm))
  constructor
  · intro k'
    have hold := h.pairs k'
    rw [hmerged] at hold
    by_cases hkk : k = k'
    · subst hkk
      rw [List.filter_append, hfront, List.filter_cons_of_pos (by simp [hfirst]), hback] at hold ⊢
      have hadd : ((edges ++ [x]).filter (·.edge.key = some k)).flatMap Placed.pairs =
          (edges.filter (·.edge.key = some k)).flatMap Placed.pairs ++ x.pairs := by
        simp [List.filter_append, hk]
      rw [hadd, ← hold]
      simp [Merged.pairs, Placed.pairs, List.zip_append hfirstLength]
    · have hne : ¬first.key = some k' := by
        rw [hfirst, Option.some.injEq]
        exact hkk
      have hne' : ¬x.edge.key = some k' := by
        rw [hk, Option.some.injEq]
        exact hkk
      rw [List.filter_append, List.filter_cons_of_neg (by simp [hne])] at hold ⊢
      rw [hold, List.filter_append, List.filter_cons_of_neg (by simp [hne'])]
      simp
  · intro k'
    have hold := h.few k'
    rw [hmerged, List.filter_append, List.length_append] at hold
    rw [List.filter_append, List.length_append]
    by_cases hkk : first.key = some k'
    · rw [List.filter_cons_of_pos (by simp [hkk])] at hold ⊢
      exact hold
    · rw [List.filter_cons_of_neg (by simp [hkk])] at hold ⊢
      exact hold
  · have hold := h.signals
    rw [hmerged, List.filter_append, List.filter_cons_of_neg (by simp [hfirst])] at hold
    rw [List.filter_append, List.filter_cons_of_neg (by simp [hfirst]), hold, List.filter_append,
      List.filter_cons_of_neg (by simp [hk])]
    simp
  · exact hmem h.lengths _ (by simp [hfirstLength, hlength])
  · refine hmem h.uniform _ fun d hd => ?_
    rcases List.mem_append.1 hd with hd | hd
    · exact h.uniform first hin d hd
    · -- the edge and the first of its key agree on what the key says
      have hx := huniform d hd
      obtain ⟨y, hy⟩ := List.exists_mem_of_ne_nil first.edge.tensorInfo.items fun hnil => by
        rw [h.keyed first hin hnil] at hfirst
        cases hfirst
      have hf := h.uniform first hin y hy
      rw [hfirst] at hf
      rw [hk] at hx
      dsimp only
      rw [hfirst, hx]
      rw [hf] at hx
      simp only [Option.some.injEq, EdgeKey.mk.injEq] at hx ⊢
      exact ⟨hx.1.symm, hx.2.1.symm, trivial⟩
  · refine hmem h.keyed _ fun hnil => ?_
    exact h.keyed first hin (List.append_eq_nil_iff.1 hnil).1
  · refine hmem (fun m hm hj => ?_) _ fun hj => ?_
    · obtain ⟨y, hy, hfacts⟩ := h.alone m hm hj
      exact ⟨y, List.mem_append_left _ hy, hfacts⟩
    · cases hj
  · refine hmem h.unjoined _ fun hnone => ?_
    rw [hfirst] at hnone
    cases hnone
  · have hold : ∀ m ∈ merged, ∃ y ∈ edges ++ [x], y.edge.key = m.key ∧
        y.edge.totalFanin = m.edge.totalFanin := by
      intro m hm
      obtain ⟨y, hy, hfacts⟩ := h.fanin m hm
      exact ⟨y, List.mem_append_left _ hy, hfacts⟩
    exact hmem hold _ (hold first hin)

/-- A kept list is one that was kept, the list of the edge, or a new object. -/
theorem joinInto_lists {id : ListId} {x : Merged} {merged merged' : List Merged}
    (h : joinInto id x merged = .ok merged') {m' : Merged} (hm' : m' ∈ merged') :
    m' ∈ merged ∨ m' = x ∨ m'.edge.tensorInfo.id = id := by
  rcases joinInto_cases h with ⟨_, rfl⟩ | ⟨front, first, back, rfl, _, _, _, rfl⟩
  · rcases List.mem_append.1 hm' with hm' | hm'
    · exact Or.inl hm'
    · exact Or.inr (Or.inl (List.mem_singleton.1 hm'))
  · rcases List.mem_append.1 hm' with hm' | hm'
    · exact Or.inl (List.mem_append_left _ hm')
    · rcases List.mem_cons.1 hm' with rfl | hm'
      · exact Or.inr (Or.inr rfl)
      · exact Or.inl (List.mem_append_right _ (List.mem_cons_of_mem _ hm'))

/-- The loop over a first part of a worker's edges, then over the rest. -/
theorem joinAll_append (worker : Sym) (k : ℕ) (merged : List Merged) (front back : List Placed) :
    joinAll worker k merged (front ++ back) =
      match joinAll worker k merged front with
      | .error e => .error e
      | .ok merged' => joinAll worker (k + front.length) merged' back := by
  induction front generalizing k merged with
  | nil => rfl
  | cons x front ih =>
    rw [List.cons_append, joinAll, joinAll]
    cases joinInto (.joined worker k) (.first x) merged with
    | error e => rfl
    | ok merged' =>
      dsimp only
      rw [ih, List.length_cons, Nat.add_assoc, Nat.add_comm 1]

/-- A list kept after any of a worker's edges is the list of one of them, or was made when
one was joined. -/
theorem joinAll_lists (worker : Sym) {edges : List Placed} {k : ℕ} {merged merged' : List Merged}
    (h : joinAll worker k merged edges = .ok merged') {m' : Merged} (hm' : m' ∈ merged') :
    m' ∈ merged ∨ (∃ x ∈ edges, m'.edge.tensorInfo = x.edge.tensorInfo) ∨
      ∃ j, j < k + edges.length ∧ m'.edge.tensorInfo.id = .joined worker j := by
  induction edges generalizing merged k with
  | nil =>
    cases h
    exact Or.inl hm'
  | cons x edges ih =>
    rw [joinAll] at h
    cases hstep : joinInto (.joined worker k) (.first x) merged with
    | error e =>
      rw [hstep] at h
      cases h
    | ok next =>
      rw [hstep] at h
      rcases ih h with hkept | ⟨y, hy, hlist⟩ | ⟨j, hj, hid⟩
      · rcases joinInto_lists hstep hkept with hkept | rfl | hid
        · exact Or.inl hkept
        · exact Or.inr (Or.inl ⟨x, List.mem_cons_self, rfl⟩)
        · exact Or.inr (Or.inr ⟨k, by simp, hid⟩)
      · exact Or.inr (Or.inl ⟨y, List.mem_cons_of_mem _ hy, hlist⟩)
      · rw [List.length_cons]
        exact Or.inr (Or.inr ⟨j, by omega, hid⟩)

/-- The loop over a worker's edges joins them all, or meets two of a key that
disagree on fan-in. -/
theorem joinAll_spec (worker : Sym) {done edges : List Placed} {merged : List Merged}
    (h : Joins done merged)
    (hlength : ∀ x ∈ edges, x.positions.length = x.edge.tensorInfo.items.length)
    (huniform : ∀ x ∈ edges, ∀ d ∈ x.edge.tensorInfo.items,
      x.edge.key = some ⟨x.edge.name, x.edge.nextNode, d.sourceTpRank⟩) (k : ℕ) :
    (∀ merged', joinAll worker k merged edges = .ok merged' → Joins (done ++ edges) merged') ∧
    ∀ error, joinAll worker k merged edges = .error error →
      error = .fanin ∧ ∃ x ∈ done ++ edges, ∃ y ∈ done ++ edges, x.edge.key.isSome ∧
        x.edge.key = y.edge.key ∧ x.edge.totalFanin ≠ y.edge.totalFanin := by
  induction edges generalizing done merged k with
  | nil =>
    constructor
    · intro merged' hok
      cases hok
      rwa [List.append_nil]
    · intro error herror
      cases herror
  | cons x edges ih =>
    have hx := hlength x List.mem_cons_self
    have hux := huniform x List.mem_cons_self
    unfold joinAll
    cases hstep : joinInto (.joined worker k) (.first x) merged with
    | error e =>
      constructor
      · intro merged' hok
        cases hok
      · intro error herror
        cases herror
        obtain ⟨he, first, hfirst, hsome, hkey, hfanin⟩ := joinInto_error hstep
        obtain ⟨y, hy, hykey, hyfanin⟩ := h.fanin first hfirst
        refine ⟨he, x, List.mem_append_right _ List.mem_cons_self, y, List.mem_append_left _ hy,
          hsome, ?_, ?_⟩
        · exact (hykey.trans hkey).symm
        · rw [hyfanin]
          exact Ne.symm hfanin
    | ok merged' =>
      have hnext : Joins (done ++ [x]) merged' := by
        rcases joinInto_cases hstep with ⟨hnew, rfl⟩ | ⟨front, first, back, hmerged, hsome, hkey, _,
          rfl⟩
        · exact h.keep hx hux hnew
        · obtain ⟨key, hk⟩ := Option.isSome_iff_exists.1 hsome
          exact h.join _ hx hux hk hmerged (hkey.trans hk)
      have hrest := ih hnext (fun y hy => hlength y (List.mem_cons_of_mem _ hy))
        (fun y hy => huniform y (List.mem_cons_of_mem _ hy)) (k + 1)
      rwa [List.append_assoc] at hrest

end Mstar.SplitInputs
