import Mstar.TokenBudgets

/-!
# Walks held to their caps

A walk whose rows take more than its cap shares the cap among them. Its rows
give tokens up, those of other walks stay as they are.
-/

namespace Mstar.TokenShares

variable {ρ ω : Type} [DecidableEq ρ] [DecidableEq ω] {walkOf : ρ → ω} {walk : ω}
  {share : Share ρ} {first : List ρ → Option ρ} {rows : List ρ} {chunkable : Finset ρ}
  {minChunk cap : ℤ} {startOrder : ρ → Option ℤ} {take : Takes ρ} {dropped : List ρ}

/-- The builder shares any budget. -/
def ValidShare (share : Share ρ) (chunkable : Finset ρ) (startOrder : ρ → Option ℤ)
    (first : List ρ → Option ρ) : Prop :=
  ∀ (rids : List ρ) (tokens : ρ → ℤ) (budget minChunk : ℤ), rids.Nodup →
    (∀ rid ∈ rids, 0 ≤ tokens rid) → (1 ≤ minChunk ∨ minChunk ≤ budget) →
      Shares rids tokens chunkable budget (first rids)
        (share rids tokens chunkable budget minChunk startOrder).1
        (share rids tokens chunkable budget minChunk startOrder).2

/-- What the rows of a walk take. -/
def walkTake (walkOf : ρ → ω) (walk : ω) (take : Takes ρ) : Takes ρ :=
  take.filter fun p => walkOf p.1 = walk

/-- The rows of a walk that are taken, in the order of the batch. -/
def walkRows (rows : List ρ) (walkOf : ρ → ω) (walk : ω) (take : Takes ρ) : List ρ :=
  rows.filter fun rid => rid ∈ rowsOf take ∧ walkOf rid = walk

omit [DecidableEq ρ] in
/-- The rows taken of a walk. -/
theorem mem_rowsOf_walkTake {rid : ρ} :
    rid ∈ rowsOf (walkTake walkOf walk take) ↔ rid ∈ rowsOf take ∧ walkOf rid = walk := by
  simp only [rowsOf, walkTake, List.mem_map, List.mem_filter, decide_eq_true_eq]
  constructor
  · rintro ⟨p, ⟨hp, hw⟩, heq⟩
    exact ⟨⟨p, hp, heq⟩, heq ▸ hw⟩
  · rintro ⟨⟨p, hp, heq⟩, hw⟩
    exact ⟨p, ⟨hp, heq ▸ hw⟩, heq⟩

/-- Those are the walk's rows in another order. -/
theorem walkRows_perm (hrows : rows.Nodup) (htake : (rowsOf take).Nodup)
    (hsub : rowsOf take ⊆ rows) :
    (walkRows rows walkOf walk take).Perm (rowsOf (walkTake walkOf walk take)) := by
  rw [walkRows, List.perm_ext_iff_of_nodup (hrows.filter _)]
  · intro rid
    rw [mem_rowsOf_walkTake, List.mem_filter, decide_eq_true_eq]
    constructor
    · exact fun h => h.2
    · exact fun h => ⟨hsub h.1, h⟩
  · exact htake.sublist (List.filter_sublist.map _)

/-- Each row has one entry. -/
theorem tokensOf_eq (htake : (rowsOf take).Nodup) {p : ρ × ℤ} (hp : p ∈ take) :
    tokensOf take p.1 = p.2 := by
  induction take with
  | nil => simp at hp
  | cons q take ih =>
    rw [rowsOf_cons, List.nodup_cons] at htake
    rw [tokensOf]
    rcases List.mem_cons.1 hp with rfl | hlater
    · simp
    · have hne : q.1 ≠ p.1 := by
        intro heq
        exact htake.1 (heq ▸ List.mem_map_of_mem hlater)
      rw [List.find?_cons_of_neg (by simpa using hne)]
      exact ih htake.2 hlater

/-- What some rows take adds up. -/
theorem sum_tokensOf (htake : (rowsOf take).Nodup) {some : Takes ρ} (hsub : some ⊆ take) :
    ((rowsOf some).map (tokensOf take)).sum = total some := by
  rw [rowsOf, List.map_map, total]
  congr 1
  apply List.map_congr_left
  intro p hp
  exact tokensOf_eq htake (hsub hp)

/-- What holding one walk to its cap does. -/
structure Capped (rows : List ρ) (walkOf : ρ → ω) (first : List ρ → Option ρ) (walk : ω)
    (cap : ℤ) (take : Takes ρ) (dropped : List ρ) (take' : Takes ρ) (dropped' : List ρ) :
    Prop where
  /-- Each row is still taken or left out. -/
  split : (rowsOf take' ++ dropped').Perm (rowsOf take ++ dropped)
  /-- No row gains. -/
  gives : ∀ p ∈ take', ∃ q ∈ take, q.1 = p.1 ∧ p.2 ≤ q.2
  /-- Other walks' rows are left as they are. -/
  others : ∀ other ≠ walk, walkTake walkOf other take' = walkTake walkOf other take ∧
    dropped'.filter (walkOf · = other) = dropped.filter (walkOf · = other)
  /-- So are the walk's, within its cap. -/
  spared : total (walkTake walkOf walk take) ≤ cap → take' = take ∧ dropped' = dropped
  /-- The walk is within its cap, unless one row runs alone or none is taken. -/
  within : walkTake walkOf walk take = [] ∨ total (walkTake walkOf walk take') ≤ cap ∨
    ∃ head n, first (walkRows rows walkOf walk take) = some head ∧
      walkTake walkOf walk take' = [(head, n)]

/-- One walk's cap. -/
theorem capWalk_spec (hshare : ValidShare share chunkable startOrder first)
    (hrows : rows.Nodup) (htake : (rowsOf take ++ dropped).Nodup) (hsub : rowsOf take ⊆ rows)
    (hneed : ∀ p ∈ walkTake walkOf walk take, 0 ≤ p.2) :
    Capped rows walkOf first walk cap take dropped
      (capWalk share rows walkOf chunkable minChunk startOrder (take, dropped) (walk, cap)).1
      (capWalk share rows walkOf chunkable minChunk startOrder (take, dropped) (walk, cap)).2 := by
  have hnodup : (rowsOf take).Nodup := (List.nodup_append.1 htake).1
  have hperm : (walkRows rows walkOf walk take).Perm (rowsOf (walkTake walkOf walk take)) :=
    walkRows_perm hrows hnodup hsub
  have hsum : ((walkRows rows walkOf walk take).map (tokensOf take)).sum =
      total (walkTake walkOf walk take) := by
    rw [(hperm.map _).sum_eq]
    exact sum_tokensOf hnodup (List.filter_subset_self _)
  rw [capWalk]
  change Capped rows walkOf first walk cap take dropped
    (if ((walkRows rows walkOf walk take).map (tokensOf take)).sum ≤ cap then (take, dropped)
      else _).1 (if ((walkRows rows walkOf walk take).map (tokensOf take)).sum ≤ cap then
        (take, dropped) else _).2
  rw [hsum]
  split
  next hle =>
    exact ⟨.refl _, fun p hp => ⟨p, hp, rfl, le_rfl⟩, fun _ _ => ⟨rfl, rfl⟩,
      fun _ => ⟨rfl, rfl⟩, .inr (.inl hle)⟩
  next hgt =>
    set rids := walkRows rows walkOf walk take with hrids
    have hin : ∀ p ∈ take, (p.1 ∉ rids ↔ walkOf p.1 ≠ walk) := by
      intro p hp
      have hmem := hperm.mem_iff (a := p.1)
      rw [mem_rowsOf_walkTake] at hmem
      have hrow : p.1 ∈ rowsOf take := List.mem_map_of_mem hp
      tauto
    have hkept : take.filter (fun p => p.1 ∉ rids) = take.filter fun p => ¬ walkOf p.1 = walk :=
      List.filter_congr fun p hp => decide_eq_decide.2 (hin p hp)
    have hvalid := hshare rids (tokensOf take) cap (min minChunk cap) (hrows.filter _)
      (by
        intro rid hrid
        obtain ⟨p, hp, rfl⟩ := List.mem_map.1 (hperm.subset hrid)
        rw [tokensOf_eq hnodup (List.mem_of_mem_filter hp)]
        exact hneed p hp)
      (.inr (min_le_right _ _))
    set shared := share rids (tokensOf take) chunkable cap (min minChunk cap) startOrder
    have hwalk : ∀ rid ∈ rowsOf shared.1 ++ shared.2, rid ∈ rowsOf take ∧ walkOf rid = walk := by
      intro rid hrid
      exact mem_rowsOf_walkTake.1 (hperm.subset (hvalid.split.subset hrid))
    change Capped rows walkOf first walk cap take dropped
      (take.filter (fun p => p.1 ∉ rids) ++ shared.1) (dropped ++ shared.2)
    rw [hkept]
    have hnone : ∀ other ≠ walk, walkTake walkOf other shared.1 = [] := by
      intro other hne
      rw [walkTake, List.filter_eq_nil_iff]
      intro p hp
      have hw := (hwalk p.1 (List.mem_append_left _ (List.mem_map_of_mem hp))).2
      simpa [hw] using Ne.symm hne
    constructor
    · have hsplit := filter_split (fun p : ρ × ℤ => walkOf p.1 = walk) take
      have hrowsOf := hsplit.map (·.1)
      rw [List.map_append] at hrowsOf
      have hall : (rids ++ rowsOf (take.filter fun p => ¬ walkOf p.1 = walk)).Perm
          (rowsOf take) := (hperm.append_right _).trans hrowsOf
      rw [rowsOf_append, List.perm_iff_count]
      intro rid
      have hcount := hall.count_eq rid
      have hshared := hvalid.split.count_eq rid
      simp only [List.count_append] at hcount hshared ⊢
      omega
    · intro p hp
      rcases List.mem_append.1 hp with hold | hnew
      · exact ⟨p, List.mem_of_mem_filter hold, rfl, le_rfl⟩
      · obtain ⟨hrow, -⟩ := hwalk p.1 (List.mem_append_left _ (List.mem_map_of_mem hnew))
        obtain ⟨q, hq, heq⟩ := List.mem_map.1 hrow
        have hmost := hvalid.most p hnew
        rw [← heq, tokensOf_eq hnodup hq] at hmost
        exact ⟨q, hq, heq, hmost⟩
    · intro other hne
      constructor
      · rw [walkTake, List.filter_append]
        change _ ++ walkTake walkOf other shared.1 = _
        rw [hnone other hne, List.append_nil, List.filter_filter, walkTake]
        apply List.filter_congr
        intro p _
        by_cases hw : walkOf p.1 = other
        · simp [hw, hne]
        · simp [hw]
      · rw [List.filter_append]
        have hleft : shared.2.filter (walkOf · = other) = [] := by
          rw [List.filter_eq_nil_iff]
          intro rid hrid
          have hw := (hwalk rid (List.mem_append_right _ hrid)).2
          simpa [hw] using Ne.symm hne
        rw [hleft, List.append_nil]
    · intro hle
      exact absurd hle hgt
    · have hself : walkTake walkOf walk
          (take.filter (fun p => ¬ walkOf p.1 = walk) ++ shared.1) = shared.1 := by
        rw [walkTake, List.filter_append]
        have hold : (take.filter fun p => ¬ walkOf p.1 = walk).filter
            (fun p => walkOf p.1 = walk) = [] := by
          rw [List.filter_eq_nil_iff]
          intro p hp
          simpa using (List.mem_filter.1 hp).2
        rw [hold, List.nil_append, List.filter_eq_self]
        intro p hp
        have hw := (hwalk p.1 (List.mem_append_left _ (List.mem_map_of_mem hp))).2
        simpa using hw
      rw [hself]
      rcases hvalid.within with hnil | hwithin
      · refine .inl ?_
        rw [hnil] at hperm
        exact List.map_eq_nil_iff.1 hperm.symm.eq_nil
      · exact .inr hwithin

/-- What holding walks to their caps does. -/
structure CapsKept (rows : List ρ) (walkOf : ρ → ω) (first : List ρ → Option ρ)
    (caps : List (ω × ℤ)) (take : Takes ρ) (dropped : List ρ) (take' : Takes ρ)
    (dropped' : List ρ) : Prop where
  /-- Each row is still taken or left out. -/
  split : (rowsOf take' ++ dropped').Perm (rowsOf take ++ dropped)
  /-- No row gains. -/
  gives : ∀ p ∈ take', ∃ q ∈ take, q.1 = p.1 ∧ p.2 ≤ q.2
  /-- A walk that has no cap, or keeps it, is left as it is. -/
  others : ∀ walk, (∀ cap, (walk, cap) ∈ caps → total (walkTake walkOf walk take) ≤ cap) →
    walkTake walkOf walk take' = walkTake walkOf walk take ∧
      dropped'.filter (walkOf · = walk) = dropped.filter (walkOf · = walk)
  /-- A capped walk is within its cap, unless one row of it runs alone or none
  is taken. -/
  within : ∀ walk cap, (walk, cap) ∈ caps → walkTake walkOf walk take = [] ∨
    total (walkTake walkOf walk take') ≤ cap ∨
      ∃ head n, first (walkRows rows walkOf walk take) = some head ∧
        walkTake walkOf walk take' = [(head, n)]

/-- The rows of a walk that took the same are the same. -/
theorem walkRows_congr {take' : Takes ρ}
    (h : walkTake walkOf walk take' = walkTake walkOf walk take) :
    walkRows rows walkOf walk take' = walkRows rows walkOf walk take := by
  apply List.filter_congr
  intro rid _
  apply decide_eq_decide.2
  rw [← mem_rowsOf_walkTake, ← mem_rowsOf_walkTake, h]

/-- The caps of all walks. -/
theorem capWalks_spec {caps : List (ω × ℤ)}
    (hshare : ValidShare share chunkable startOrder first) (hrows : rows.Nodup)
    (hcaps : (caps.map (·.1)).Nodup) (htake : (rowsOf take ++ dropped).Nodup)
    (hsub : rowsOf take ⊆ rows) (hneed : ∀ p ∈ take, walkOf p.1 ∈ caps.map (·.1) → 0 ≤ p.2) :
    CapsKept rows walkOf first caps take dropped
      (capWalks share rows walkOf chunkable caps minChunk startOrder (take, dropped)).1
      (capWalks share rows walkOf chunkable caps minChunk startOrder (take, dropped)).2 := by
  induction caps generalizing take dropped with
  | nil =>
    exact ⟨.refl _, fun p hp => ⟨p, hp, rfl, le_rfl⟩, fun _ _ => ⟨rfl, rfl⟩, by simp⟩
  | cons capped caps ih =>
    obtain ⟨walk, cap⟩ := capped
    rw [List.map_cons, List.nodup_cons] at hcaps
    set taken := capWalk share rows walkOf chunkable minChunk startOrder (take, dropped)
      (walk, cap)
    have hstep : Capped rows walkOf first walk cap take dropped taken.1 taken.2 := by
      apply capWalk_spec hshare hrows htake hsub
      intro p hp
      obtain ⟨hp, hw⟩ := List.mem_filter.1 hp
      rw [decide_eq_true_eq] at hw
      exact hneed p hp (hw ▸ List.mem_cons_self)
    have hne : ∀ other ∈ caps.map (·.1), other ≠ walk := fun other ho heq => hcaps.1 (heq ▸ ho)
    have hrest : CapsKept rows walkOf first caps taken.1 taken.2
        (capWalks share rows walkOf chunkable caps minChunk startOrder (taken.1, taken.2)).1
        (capWalks share rows walkOf chunkable caps minChunk startOrder (taken.1, taken.2)).2 := by
      apply ih hcaps.2 (hstep.split.nodup_iff.2 htake)
      · intro rid hrid
        obtain ⟨p, hp, rfl⟩ := List.mem_map.1 hrid
        obtain ⟨q, hq, heq, -⟩ := hstep.gives p hp
        exact hsub (heq ▸ List.mem_map_of_mem hq)
      · intro p hp hw
        have hin : p ∈ walkTake walkOf (walkOf p.1) taken.1 :=
          List.mem_filter.2 ⟨hp, by simp⟩
        rw [(hstep.others _ (hne _ hw)).1] at hin
        exact hneed p (List.mem_of_mem_filter hin) (List.mem_cons_of_mem _ hw)
    change CapsKept rows walkOf first _ take dropped
      (capWalks share rows walkOf chunkable caps minChunk startOrder (taken.1, taken.2)).1
      (capWalks share rows walkOf chunkable caps minChunk startOrder (taken.1, taken.2)).2
    constructor
    · exact hrest.split.trans hstep.split
    · intro p hp
      obtain ⟨q, hq, heq, hle⟩ := hrest.gives p hp
      obtain ⟨q', hq', heq', hle'⟩ := hstep.gives q hq
      exact ⟨q', hq', heq'.trans heq, hle.trans hle'⟩
    · intro other hkept
      have hsame : walkTake walkOf other taken.1 = walkTake walkOf other take ∧
          taken.2.filter (walkOf · = other) = dropped.filter (walkOf · = other) := by
        by_cases hw : other = walk
        · subst hw
          obtain ⟨ht, hd⟩ := hstep.spared (hkept cap List.mem_cons_self)
          rw [ht, hd]
          exact ⟨rfl, rfl⟩
        · exact hstep.others other hw
      obtain ⟨ht, hd⟩ := hrest.others other (by
        intro cap' hc
        rw [hsame.1]
        exact hkept cap' (List.mem_cons_of_mem _ hc))
      exact ⟨ht.trans hsame.1, hd.trans hsame.2⟩
    · intro other cap' hc
      rcases List.mem_cons.1 hc with heq | hlater
      · obtain ⟨rfl, rfl⟩ := Prod.mk.inj heq
        obtain ⟨ht, -⟩ := hrest.others other (by
          intro cap'' hc'
          exact absurd (List.mem_map_of_mem hc') hcaps.1)
        rw [ht]
        exact hstep.within
      · have hw : other ≠ walk := hne other (List.mem_map_of_mem hlater)
        have hsame := (hstep.others other hw).1
        have hwithin := hrest.within other cap' hlater
        rw [hsame, walkRows_congr hsame] at hwithin
        exact hwithin

end Mstar.TokenShares
