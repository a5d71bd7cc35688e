import Mathlib.Tactic.Tauto
import Mstar.TokenPasses

/-!
# Budgets shared validly

However the budget is shared, each row is taken or left out, none takes more
than it needs, and no more than the budget is taken unless the first row runs
alone. With a floor for a cut row, a row that is cut gets the floor.
-/

namespace Mstar.TokenShares

variable {ρ : Type} [DecidableEq ρ] {tokens : ρ → ℤ} {chunkable : Finset ρ}
  {budget minChunk left : ℤ} {startOrder : ρ → Option ℤ} {pending rids : List ρ}
  {take : Takes ρ} {dropped : List ρ} {first : Option ρ}

/-- A budget is shared among rows. -/
structure Shares (rids : List ρ) (tokens : ρ → ℤ) (chunkable : Finset ρ) (budget : ℤ)
    (first : Option ρ) (take : Takes ρ) (dropped : List ρ) : Prop where
  /-- Each row is taken or left out, once. -/
  split : (rowsOf take ++ dropped).Perm rids
  /-- A row takes no more than it needs. -/
  most : ∀ p ∈ take, p.2 ≤ tokens p.1
  /-- A row that may not be cut takes all it needs. -/
  whole : ∀ p ∈ take, p.1 ∉ chunkable → p.2 = tokens p.1
  /-- The budget is kept, unless the first row runs alone or there is none. -/
  within : rids = [] ∨ total take ≤ budget ∨
    ∃ head n, first = some head ∧ take = [(head, n)]
  /-- A row runs if there is one. -/
  runs : take = [] → rids = []

/-- A budget is shared among rows, with a floor for a cut row. -/
structure SharesChunks (rids : List ρ) (tokens : ρ → ℤ) (chunkable : Finset ρ)
    (budget minChunk : ℤ) (first : Option ρ) (take : Takes ρ) (dropped : List ρ) : Prop
    extends Shares rids tokens chunkable budget first take dropped where
  /-- No row takes less than nothing. -/
  least : ∀ p ∈ take, 0 ≤ p.2
  /-- A row taken short gets the floor, or all it needs if that is fewer. -/
  floor : ∀ p ∈ take, p.2 < tokens p.1 → min minChunk (tokens p.1) ≤ p.2

/-- What the passes come to before the head is made to run. -/
structure Passes (rids : List ρ) (tokens : ρ → ℤ) (chunkable : Finset ρ)
    (budget minChunk : ℤ) (take : Takes ρ) (dropped : List ρ) : Prop where
  /-- Each row is taken or left out. -/
  split : (rowsOf take ++ dropped).Perm rids
  /-- A row takes all it needs, or is cut. -/
  parts : ∀ p ∈ take, p.2 = tokens p.1 ∨
    p.1 ∈ chunkable ∧ p.2 < tokens p.1 ∧ minChunk ≤ p.2
  /-- The budget is kept. -/
  room : take = [] ∨ total take ≤ budget

/-- With a head made to run where there is no other, the budget is shared. -/
theorem Passes.shares {heads : List ρ}
    (h : Passes rids tokens chunkable budget minChunk take dropped)
    (hheads : take = [] → heads.Perm rids ∧ heads.head? = first) :
    Shares rids tokens chunkable budget first
      (runHead heads tokens chunkable budget minChunk take dropped).1
      (runHead heads tokens chunkable budget minChunk take dropped).2 := by
  cases take with
  | cons p take =>
    constructor
    · exact h.split
    · intro q hq
      rcases h.parts q hq with heq | ⟨-, hlt, -⟩
      · omega
      · omega
    · intro q hq hnot
      rcases h.parts q hq with heq | ⟨hmem, -⟩
      · exact heq
      · exact absurd hmem hnot
    · rcases h.room with hnil | hroom
      · exact absurd hnil (List.cons_ne_nil _ _)
      · exact .inr (.inl hroom)
    · exact fun hnil => absurd hnil (List.cons_ne_nil _ _)
  | nil =>
    obtain ⟨hperm, hfirst⟩ := hheads rfl
    cases heads with
    | nil =>
      have hnone : rids = [] := hperm.symm.eq_nil
      exact ⟨h.split, by simp [runHead], by simp [runHead], .inl hnone, fun _ => hnone⟩
    | cons head heads =>
      have hmem : head ∈ dropped := by
        have hall : head ∈ rids := hperm.subset List.mem_cons_self
        simpa using h.split.symm.subset hall
      have hone : ∀ q ∈ (runHead (head :: heads) tokens chunkable budget minChunk []
          dropped).1, q = (head, if head ∈ chunkable then
            min (tokens head) (max (max budget minChunk) 1) else tokens head) :=
        fun q hq => List.mem_singleton.1 hq
      constructor
      · exact (List.perm_cons_erase hmem).symm.trans h.split
      · intro q hq
        rw [hone q hq]
        dsimp only
        split
        · exact min_le_left _ _
        · exact le_rfl
      · intro q hq hnot
        rw [hone q hq] at hnot ⊢
        exact if_neg hnot
      · exact .inr (.inr ⟨head, _, hfirst.symm, rfl⟩)
      · exact fun hnil => absurd hnil (List.cons_ne_nil _ _)

/-- The floor of a cut row holds of the head too. -/
theorem Passes.chunks {heads : List ρ}
    (h : Passes rids tokens chunkable budget minChunk take dropped)
    (hheads : take = [] → heads.Perm rids ∧ heads.head? = first)
    (hneed : ∀ rid ∈ rids, 0 ≤ tokens rid) (hmin : 1 ≤ minChunk) :
    SharesChunks rids tokens chunkable budget minChunk first
      (runHead heads tokens chunkable budget minChunk take dropped).1
      (runHead heads tokens chunkable budget minChunk take dropped).2 := by
  have hshares := h.shares hheads
  have hin : ∀ p ∈ (runHead heads tokens chunkable budget minChunk take dropped).1,
      p.1 ∈ rids := by
    intro p hp
    exact hshares.split.subset (List.mem_append_left _ (List.mem_map_of_mem hp))
  have hparts : ∀ p ∈ (runHead heads tokens chunkable budget minChunk take dropped).1,
      p.2 = tokens p.1 ∨ minChunk ≤ p.2 := by
    intro p hp
    cases take with
    | cons q take =>
      rcases h.parts p hp with heq | ⟨-, -, hfloor⟩
      · exact .inl heq
      · exact .inr hfloor
    | nil =>
      cases heads with
      | nil => simp [runHead] at hp
      | cons head heads =>
        obtain rfl := List.mem_singleton.1 hp
        dsimp only
        split
        · omega
        · exact .inl rfl
  constructor
  · exact hshares
  · intro p hp
    have hneed' := hneed p.1 (hin p hp)
    rcases hparts p hp with heq | hfloor
    · omega
    · omega
  · intro p hp hlt
    rcases hparts p hp with heq | hfloor
    · omega
    · omega

/-- Some of a list's rows and the others are all of them. -/
theorem perm_filter_notMem {some : List ρ} (hsome : some ⊆ pending) (hn : some.Nodup)
    (hp : pending.Nodup) : (some ++ pending.filter (· ∉ some)).Perm pending := by
  rw [List.perm_ext_iff_of_nodup _ hp]
  · intro rid
    rw [List.mem_append, List.mem_filter, decide_eq_true_eq]
    constructor
    · intro hor
      rcases hor with hmem | ⟨hmem, -⟩
      · exact hsome hmem
      · exact hmem
    · intro hmem
      by_cases hin : rid ∈ some
      · exact .inl hin
      · exact .inr ⟨hmem, hin⟩
  · rw [List.nodup_append]
    constructor
    · exact hn
    · constructor
      · exact hp.filter _
      · intro a ha b hb heq
        rw [List.mem_filter, decide_eq_true_eq] at hb
        exact hb.2 (heq ▸ ha)

/-- The finishing pass takes rows of those pending, each once. -/
theorem finishing_spec (minChunk left : ℤ) (pending : List ρ) :
    Finishes tokens (oldestOf chunkable startOrder pending)
        (left - reservedFor tokens minChunk left (oldestOf chunkable startOrder pending))
        (pending.insertionSort fun a b => tokens a ≤ tokens b)
        (finishing tokens chunkable minChunk startOrder left pending) :=
  finish_spec _ _ _

/-- A row that waits finishes or waits on. -/
theorem finishing_rows (minChunk left : ℤ) (hp : pending.Nodup) :
    (rowsOf (finishing tokens chunkable minChunk startOrder left pending) ++
      pending.filter (· ∉ rowsOf
        (finishing tokens chunkable minChunk startOrder left pending))).Perm pending := by
  have horder : (rowsOf (finishing tokens chunkable minChunk startOrder left pending)).Sublist _ :=
    (finishing_spec minChunk left pending).order
  have hsorted := List.perm_insertionSort (fun a b => tokens a ≤ tokens b) pending
  apply perm_filter_notMem
  · exact fun rid hrid => hsorted.subset (horder.subset hrid)
  · exact horder.nodup (hsorted.nodup_iff.2 hp)
  · exact hp

/-- What is left after the finishing pass holds the reserve. -/
theorem reserve_left {oldest : ρ} (ho : oldestOf chunkable startOrder pending = some oldest)
    (henough : minChunk ≤ left) :
    min minChunk (tokens oldest) ≤
      left - total (finishing tokens chunkable minChunk startOrder left pending) := by
  have hroom : finishing tokens chunkable minChunk startOrder left pending = [] ∨
      total (finishing tokens chunkable minChunk startOrder left pending) ≤ _ :=
    (finishing_spec minChunk left pending).room
  rw [ho, reservedFor, if_pos henough] at hroom
  rcases hroom with hnil | hroom
  · rw [hnil, total_nil]
    omega
  · omega

/-- The oldest row mid-prefill that is pending runs, cut to the floor or more,
where the whole-row pass leaves the floor. -/
theorem reserve_taken {oldest : ρ} (hstarted : ∀ rid, (startOrder rid).isSome → rid ∈ chunkable)
    (ho : oldestOf chunkable startOrder pending = some oldest) (henough : minChunk ≤ left) :
    ∃ n, (oldest, n) ∈ (takeInOrder tokens chunkable minChunk
      (left - total (finishing tokens chunkable minChunk startOrder left pending)) false
      (line startOrder (pending.filter (· ∉ rowsOf
        (finishing tokens chunkable minChunk startOrder left pending))))).1 ∧
      min minChunk (tokens oldest) ≤ n := by
  have hspared : oldest ∉ rowsOf
      (finishing tokens chunkable minChunk startOrder left pending) :=
    (finishing_spec minChunk left pending).spares oldest ho
  have hkept : decide (oldest ∉ rowsOf
      (finishing tokens chunkable minChunk startOrder left pending)) = true :=
    decide_eq_true hspared
  obtain ⟨rest, hrest⟩ := line_oldest (p := fun rid => rid ∉ rowsOf
    (finishing tokens chunkable minChunk startOrder left pending)) hstarted ho hkept
  rw [hrest]
  exact takeInOrder_first (mem_chunkable_of_oldest ho).2 (reserve_left ho henough)

/-- What the passes in start order come to. -/
theorem fifo_passes (budget minChunk : ℤ) (hn : rids.Nodup) (hneed : ∀ rid ∈ rids, 0 ≤ tokens rid)
    (hstarted : ∀ rid, (startOrder rid).isSome → rid ∈ chunkable) :
    let whole := takeWhole rids tokens budget
    let done := finishing tokens chunkable minChunk startOrder whole.2.1 whole.2.2
    let order := line startOrder (whole.2.2.filter (· ∉ rowsOf done))
    let ordered := takeInOrder tokens chunkable minChunk (whole.2.1 - total done) false order
    Passes rids tokens chunkable budget minChunk (whole.1 ++ done ++ ordered.1) ordered.2 ∧
      (whole.1 ++ done ++ ordered.1 = [] → order = line startOrder rids) := by
  intro whole done order ordered
  have hwhole : Pass tokens rids budget whole.1 whole.2.1 whole.2.2 := takeWhole_pass hneed
  have hpending : whole.2.2.Nodup := by
    rw [hwhole.rest]
    exact hn.filter _
  have hdone : Finishes tokens (oldestOf chunkable startOrder whole.2.2)
      (whole.2.1 - reservedFor tokens minChunk whole.2.1
        (oldestOf chunkable startOrder whole.2.2)) _ done :=
    finishing_spec minChunk whole.2.1 whole.2.2
  have hrows : (rowsOf done ++ whole.2.2.filter (· ∉ rowsOf done)).Perm whole.2.2 :=
    finishing_rows minChunk whole.2.1 hpending
  have hordered : Ordered tokens chunkable minChunk (whole.2.1 - total done) false order
      ordered.1 ordered.2 := takeInOrder_spec _ _ _
  constructor
  · constructor
    · rw [rowsOf_append, rowsOf_append, List.append_assoc, List.append_assoc]
      apply List.Perm.trans _ hwhole.split
      apply List.Perm.append_left
      apply List.Perm.trans _ hrows
      apply List.Perm.append_left
      exact hordered.split.trans (line_perm _ _)
    · intro p hp
      rcases List.mem_append.1 hp with hp | hp
      · rcases List.mem_append.1 hp with hp | hp
        · exact .inl (hwhole.whole p hp)
        · exact .inl (hdone.whole p hp)
      · exact hordered.parts p hp
    · have hspent := hwhole.spent
      rw [total_append, total_append]
      rcases hordered.room with hnil | hroom
      · rw [hnil, List.append_nil, total_nil]
        rcases hdone.room with hnone | hroom
        · rw [hnone, List.append_nil, total_nil]
          rcases hwhole.room with hempty | hleft
          · exact .inl hempty
          · exact .inr (by omega)
        · refine .inr ?_
          cases ho : oldestOf chunkable startOrder whole.2.2 with
          | none =>
            rw [ho, reservedFor] at hroom
            omega
          | some oldest =>
            rw [ho, reservedFor] at hroom
            split at hroom
            next henough =>
              have htaken : ∃ n, (oldest, n) ∈ ordered.1 ∧ min minChunk (tokens oldest) ≤ n :=
                reserve_taken hstarted ho henough
              obtain ⟨n, hmem, -⟩ := htaken
              rw [hnil] at hmem
              simp at hmem
            next => omega
      · exact .inr (by omega)
  · intro hnil
    obtain ⟨hnil, -⟩ := List.append_eq_nil_iff.1 hnil
    obtain ⟨hfirst, hsecond⟩ := List.append_eq_nil_iff.1 hnil
    have hall : whole.2.2 = rids := by
      rw [hwhole.rest, hfirst]
      simp
    change line startOrder (whole.2.2.filter (· ∉ rowsOf done)) = _
    rw [hsecond, hall]
    simp

omit [DecidableEq ρ] in
/-- A share under the floor means a real floor. -/
theorem one_le_of_share_lt {cut : List ρ} (hsub : cut.length ≤ pending.length)
    (hmin : 1 ≤ minChunk ∨ minChunk ≤ left ∨ 0 ≤ left) (hne : cut ≠ [])
    (hlt : (if pending = [] then 0 else left / pending.length) < minChunk) : 1 ≤ minChunk := by
  have hpos : 0 < pending.length := lt_of_lt_of_le (List.length_pos_of_ne_nil hne) hsub
  rw [if_neg (List.ne_nil_of_length_pos hpos)] at hlt
  rcases hmin with hone | hbudget | hleft
  · exact hone
  · by_contra hnot
    have hself : left ≤ left / pending.length ∨ 0 ≤ left := by
      rcases Int.lt_or_le left 0 with hneg | hpos'
      · refine .inl ((Int.le_ediv_iff_mul_le (by omega)).2 ?_)
        nlinarith
      · exact .inr hpos'
    rcases hself with hself | hleft
    · omega
    · have hshare : 0 ≤ left / pending.length := Int.ediv_nonneg hleft (by omega)
      omega
  · have hshare : 0 ≤ left / pending.length := Int.ediv_nonneg hleft (by omega)
    omega

omit [DecidableEq ρ] in
/-- What each row that may be cut gets at most is there for all of them, and
is no less than the floor. -/
theorem evenShare_spec {cut : List ρ} (hsub : cut.length ≤ pending.length)
    (hmin : 1 ≤ minChunk ∨ minChunk ≤ left ∨ 0 ≤ left)
    (he : 1 ≤ (evenShare minChunk left
      (if pending = [] then 0 else left / pending.length) cut).2) :
    (evenShare minChunk left (if pending = [] then 0 else left / pending.length) cut).1 *
        (evenShare minChunk left (if pending = [] then 0 else left / pending.length) cut).2 ≤
          left ∧
      (cut ≠ [] → minChunk ≤ (evenShare minChunk left
        (if pending = [] then 0 else left / pending.length) cut).2) := by
  set share := if pending = [] then 0 else left / pending.length with hshare
  have hfair : 1 ≤ share → 0 < pending.length ∧ share = left / pending.length := by
    intro hone
    split at hshare
    next => omega
    next hne => exact ⟨List.length_pos_of_ne_nil hne, hshare⟩
  rw [evenShare] at he ⊢
  split
  next hfew =>
    rw [if_pos hfew] at he
    dsimp only at he ⊢
    set n := min (cut.length : ℤ) (max left 0 / minChunk) with hn
    split at he
    next hne =>
      rw [if_pos hne]
      have hfloor := one_le_of_share_lt hsub hmin hfew.1 hfew.2
      have hle : n ≤ max left 0 / minChunk := min_le_right _ _
      have hnonneg : 0 ≤ n := by
        apply le_min
        · omega
        · exact Int.ediv_nonneg (le_max_right _ _) (by omega)
      have hmul : n * minChunk ≤ max left 0 := (Int.le_ediv_iff_mul_le (by omega)).1 hle
      have hleft : 0 < left := by
        have hpos : 0 < n * minChunk := mul_pos (by omega) (by omega)
        omega
      have hall : minChunk ≤ left / n := by
        rw [Int.le_ediv_iff_mul_le (by omega), mul_comm]
        omega
      rw [max_eq_left hall, Int.toNat_of_nonneg hnonneg]
      exact ⟨Int.mul_ediv_self_le hne, fun _ => hall⟩
    next => omega
  next henough =>
    rw [if_neg henough] at he
    dsimp only at he ⊢
    obtain ⟨hpos, heq⟩ := hfair he
    constructor
    · exact shares_le (by omega) hsub hpos heq.le
    · intro hne
      by_contra hlt
      exact henough ⟨hne, by omega⟩

/-- What the passes of a fair share come to. -/
theorem fair_passes (chunkable : Finset ρ) (hneed : ∀ rid ∈ rids, 0 ≤ tokens rid)
    (hmin : 1 ≤ minChunk ∨ minChunk ≤ budget) :
    let whole := takeWhole rids tokens budget
    let cut := whole.2.2.filter (· ∈ chunkable)
    let even := evenShare minChunk whole.2.1
      (if whole.2.2 = [] then 0 else whole.2.1 / whole.2.2.length) cut
    Passes rids tokens chunkable budget minChunk
      (whole.1 ++ if 1 ≤ even.2 then
        (cut.take even.1).map fun rid => (rid, min (tokens rid) even.2) else [])
      (whole.2.2.filter (· ∉ chunkable) ++ cut.drop even.1 ++
        if 1 ≤ even.2 then [] else cut.take even.1) := by
  intro whole cut even
  have hwhole : Pass tokens rids budget whole.1 whole.2.1 whole.2.2 := takeWhole_pass hneed
  have hsplit : (cut.take even.1 ++ (whole.2.2.filter (· ∉ chunkable) ++
      cut.drop even.1)).Perm whole.2.2 := by
    have hparts := filter_split (fun rid => rid ∈ chunkable) whole.2.2
    apply List.Perm.trans _ hparts
    apply ((List.perm_append_comm).append_left (cut.take even.1)).trans
    rw [← List.append_assoc, List.take_append_drop]
  have hleft : minChunk ≤ budget → minChunk ≤ whole.2.1 ∨ 0 ≤ whole.2.1 := by
    intro hle
    rcases hwhole.room with hnil | hroom
    · have hspent := hwhole.spent
      rw [hnil, total_nil] at hspent
      exact .inl (by omega)
    · exact .inr hroom
  have hspent := hwhole.spent
  by_cases hone : 1 ≤ even.2
  · rw [if_pos hone, if_pos hone, List.append_nil]
    have hspec : even.1 * even.2 ≤ whole.2.1 ∧ (cut ≠ [] → minChunk ≤ even.2) := by
      apply evenShare_spec (List.length_filter_le _ _) _ hone
      rcases hmin with hreal | hle
      · exact .inl hreal
      · exact .inr (hleft hle)
    constructor
    · rw [rowsOf_append, rowsOf_map, List.append_assoc]
      exact (hsplit.append_left _).trans hwhole.split
    · intro p hp
      rcases List.mem_append.1 hp with hp | hp
      · exact .inl (hwhole.whole p hp)
      · obtain ⟨rid, hrid, rfl⟩ := List.mem_map.1 hp
        have hcut : rid ∈ cut := List.mem_of_mem_take hrid
        have hchunk : rid ∈ chunkable := by simpa using (List.mem_filter.1 hcut).2
        have hfloor := hspec.2 (List.ne_nil_of_mem hcut)
        dsimp only
        rcases le_or_gt (tokens rid) even.2 with hle | hlt
        · exact .inl (min_eq_left hle)
        · refine .inr ⟨hchunk, ?_, ?_⟩
          · rw [min_eq_right hlt.le]
            exact hlt
          · rw [min_eq_right hlt.le]
            exact hfloor
    · refine .inr ?_
      have hsum : ((cut.take even.1).map fun rid => min (tokens rid) even.2).sum ≤
          (cut.take even.1).length * even.2 :=
        sum_le_shares fun rid _ => min_le_right _ _
      have hlen : ((cut.take even.1).length : ℤ) * even.2 ≤ even.1 * even.2 := by
        apply mul_le_mul_of_nonneg_right _ (by omega)
        exact_mod_cast List.length_take_le _ _
      rw [total_append, total_map]
      linarith
  · rw [if_neg hone, if_neg hone, List.append_nil]
    constructor
    · apply List.Perm.trans _ hwhole.split
      apply List.Perm.append_left
      exact List.perm_append_comm.trans hsplit
    · exact fun p hp => .inl (hwhole.whole p hp)
    · rcases hwhole.room with hnil | hroom
      · exact .inl hnil
      · exact .inr (by omega)

end Mstar.TokenShares
