import Mstar.TokenCaps

/-!
# What a shared budget promises

Both builders share any budget validly. In start order, the oldest prompt
mid-prefill is not starved by rows that finish, as long as the whole-row pass
leaves the floor of a cut row; where it leaves less, nothing is kept back.
-/

namespace Mstar.TokenShares

variable {ρ : Type} [DecidableEq ρ] {tokens : ρ → ℤ} {chunkable : Finset ρ}
  {budget minChunk : ℤ} {startOrder : ρ → Option ℤ} {rids : List ρ}

/-- What serving prompts in start order promises. -/
structure ServesInOrder (rids : List ρ) (tokens : ρ → ℤ) (chunkable : Finset ρ)
    (budget minChunk : ℤ) (startOrder : ρ → Option ℤ) (take : Takes ρ) : Prop where
  /-- One row is cut at most. -/
  once : (cutRows tokens take).length ≤ 1
  /-- Rows that finish leave the reserve of the oldest pending mid-prefill. -/
  reserve : ∀ oldest,
    oldestOf chunkable startOrder (takeWhole rids tokens budget).2.2 = some oldest →
      minChunk ≤ (takeWhole rids tokens budget).2.1 →
        total (finishing tokens chunkable minChunk startOrder (takeWhole rids tokens budget).2.1
          (takeWhole rids tokens budget).2.2) + min minChunk (tokens oldest) ≤
            (takeWhole rids tokens budget).2.1
  /-- It runs, at the floor or with all it needs. -/
  pending : ∀ oldest,
    oldestOf chunkable startOrder (takeWhole rids tokens budget).2.2 = some oldest →
      minChunk ≤ (takeWhole rids tokens budget).2.1 →
        ∃ n, (oldest, n) ∈ take ∧ min minChunk (tokens oldest) ≤ n
  /-- So does the oldest of all rows mid-prefill. -/
  oldest : ∀ oldest, oldestOf chunkable startOrder rids = some oldest →
    minChunk ≤ (takeWhole rids tokens budget).2.1 →
      ∃ n, (oldest, n) ∈ take ∧ min minChunk (tokens oldest) ≤ n

/-- What both builders make of a budget, and of the caps of walks. -/
structure BudgetShared (ω : Type) [DecidableEq ω] (rids : List ρ) (tokens : ρ → ℤ)
    (chunkable : Finset ρ) (budget minChunk : ℤ) (startOrder : ρ → Option ℤ) : Prop where
  /-- In start order, the budget is shared, -/
  inOrder : SharesChunks rids tokens chunkable budget minChunk (line startOrder rids).head?
    (fillTokenBudgetInStartOrder rids tokens chunkable budget minChunk startOrder).1
    (fillTokenBudgetInStartOrder rids tokens chunkable budget minChunk startOrder).2
  /-- and prompts are served in it. -/
  serves : ServesInOrder rids tokens chunkable budget minChunk startOrder
    (fillTokenBudgetInStartOrder rids tokens chunkable budget minChunk startOrder).1
  /-- Max-min fair, the budget is shared. -/
  fair : SharesChunks rids tokens chunkable budget minChunk rids.head?
    (fillTokenBudget rids tokens chunkable budget minChunk).1
    (fillTokenBudget rids tokens chunkable budget minChunk).2
  /-- Walks are held to any caps, of any step. -/
  caps : ∀ (walkOf : ρ → ω) (caps : List (ω × ℤ)) (rows : List ρ) (take : Takes ρ)
    (dropped : List ρ), rows.Nodup → (caps.map (·.1)).Nodup → (rowsOf take ++ dropped).Nodup →
      rowsOf take ⊆ rows → (∀ p ∈ take, 0 ≤ p.2) →
        CapsKept rows walkOf (fun rids => (line startOrder rids).head?) caps take dropped
            (capWalks fifo rows walkOf chunkable caps minChunk startOrder (take, dropped)).1
            (capWalks fifo rows walkOf chunkable caps minChunk startOrder (take, dropped)).2 ∧
          CapsKept rows walkOf List.head? caps take dropped
            (capWalks fairShare rows walkOf chunkable caps minChunk startOrder (take, dropped)).1
            (capWalks fairShare rows walkOf chunkable caps minChunk startOrder (take, dropped)).2

/-- Start order is a valid share. -/
theorem fifo_valid (hstarted : ∀ rid, (startOrder rid).isSome → rid ∈ chunkable) :
    ValidShare fifo chunkable startOrder fun rids => (line startOrder rids).head? := by
  intro rids tokens budget minChunk hn hneed _
  have hpasses := fifo_passes budget minChunk hn hneed hstarted
  apply hpasses.1.shares
  intro hnil
  rw [hpasses.2 hnil]
  exact ⟨line_perm _ _, rfl⟩

/-- So is the fair share. -/
theorem fairShare_valid : ValidShare fairShare chunkable startOrder List.head? := by
  intro rids tokens budget minChunk hn hneed hmin
  have hpasses := fair_passes chunkable hneed hmin
  apply hpasses.shares
  intro hnil
  exact ⟨.refl _, rfl⟩

/-- A row that the passes take runs. -/
theorem mem_runHead {heads : List ρ} {take : Takes ρ} {dropped : List ρ} {p : ρ × ℤ}
    (h : p ∈ take) : p ∈ (runHead heads tokens chunkable budget minChunk take dropped).1 := by
  cases take with
  | nil => simp at h
  | cons first take => exact h

/-- Start order serves in order. -/
theorem fifo_serves (hneed : ∀ rid ∈ rids, 0 ≤ tokens rid)
    (hstarted : ∀ rid, (startOrder rid).isSome → rid ∈ chunkable) :
    ServesInOrder rids tokens chunkable budget minChunk startOrder
      (fillTokenBudgetInStartOrder rids tokens chunkable budget minChunk startOrder).1 := by
  rw [fillTokenBudgetInStartOrder]
  set whole := takeWhole rids tokens budget with hw
  have hwhole : Pass tokens rids budget whole.1 whole.2.1 whole.2.2 := takeWhole_pass hneed
  set done := finishing tokens chunkable minChunk startOrder whole.2.1 whole.2.2
  have hdone : Finishes tokens (oldestOf chunkable startOrder whole.2.2)
      (whole.2.1 - reservedFor tokens minChunk whole.2.1
        (oldestOf chunkable startOrder whole.2.2)) _ done :=
    finishing_spec minChunk whole.2.1 whole.2.2
  set order := line startOrder (whole.2.2.filter (· ∉ rowsOf done))
  set ordered := takeInOrder tokens chunkable minChunk (whole.2.1 - total done) false order
  have hordered : Ordered tokens chunkable minChunk (whole.2.1 - total done) false order
      ordered.1 ordered.2 := takeInOrder_spec _ _ _
  have hpending : ∀ oldest, oldestOf chunkable startOrder whole.2.2 = some oldest →
      minChunk ≤ whole.2.1 → ∃ n, (oldest, n) ∈
        (runHead order tokens chunkable budget minChunk (whole.1 ++ done ++ ordered.1)
          ordered.2).1 ∧ min minChunk (tokens oldest) ≤ n := by
    intro oldest ho henough
    have htaken : ∃ n, (oldest, n) ∈ ordered.1 ∧ min minChunk (tokens oldest) ≤ n :=
      reserve_taken hstarted ho henough
    obtain ⟨n, hmem, hle⟩ := htaken
    exact ⟨n, mem_runHead (List.mem_append_right _ hmem), hle⟩
  constructor
  · have hcut : cutRows tokens (whole.1 ++ done ++ ordered.1) = cutRows tokens ordered.1 := by
      have hwholly : ∀ take : Takes ρ, (∀ p ∈ take, p.2 = tokens p.1) →
          cutRows tokens take = [] := by
        intro take h
        rw [cutRows, List.filter_eq_nil_iff]
        intro p hp
        simp [h p hp]
      have hfirst := hwholly (whole.1 ++ done) (by
        intro p hp
        rcases List.mem_append.1 hp with hp | hp
        · exact hwhole.whole p hp
        · exact hdone.whole p hp)
      rw [cutRows] at hfirst
      rw [cutRows, List.filter_append, hfirst, List.nil_append, cutRows]
    have honce := hordered.once
    simp only [Bool.false_eq_true, if_false] at honce
    cases htake : whole.1 ++ done ++ ordered.1 with
    | nil =>
      apply (List.length_filter_le _ _).trans
      cases order with
      | nil => simp [runHead]
      | cons head order => simp [runHead]
    | cons p take =>
      rw [htake] at hcut
      change (cutRows tokens (p :: take)).length ≤ 1
      rw [hcut]
      exact honce
  · intro oldest ho henough
    have hleft : min minChunk (tokens oldest) ≤ whole.2.1 - total done :=
      reserve_left ho henough
    change total done + min minChunk (tokens oldest) ≤ whole.2.1
    omega
  · exact hpending
  · intro oldest ho henough
    obtain ⟨hmem, hchunk⟩ := mem_chunkable_of_oldest ho
    by_cases htaken : oldest ∈ rowsOf whole.1
    · obtain ⟨p, hp, rfl⟩ := List.mem_map.1 htaken
      refine ⟨p.2, mem_runHead (List.mem_append_left _ (List.mem_append_left _ hp)), ?_⟩
      rw [hwhole.whole p hp]
      exact min_le_right _ _
    · apply hpending oldest _ henough
      have hkept := argmin_filter (p := fun rid => rid ∉ rowsOf whole.1) ho (by simpa using htaken)
      rw [oldestOf, hwhole.rest, ← hkept, List.filter_filter, List.filter_filter]
      congr 1
      apply List.filter_congr
      intro rid _
      exact Bool.and_comm _ _

/-- Whatever the rows need and whichever may be cut, both builders share any
budget validly, and hold the walks of a step to their caps. -/
theorem budgets_shared (ω : Type) [DecidableEq ω] (rids : List ρ) (tokens : ρ → ℤ)
    (chunkable : Finset ρ) (budget minChunk : ℤ) (startOrder : ρ → Option ℤ)
    (hn : rids.Nodup) (hneed : ∀ rid ∈ rids, 0 ≤ tokens rid) (hmin : 1 ≤ minChunk)
    (hstarted : ∀ rid, (startOrder rid).isSome → rid ∈ chunkable) :
    BudgetShared ω rids tokens chunkable budget minChunk startOrder := by
  constructor
  · have hpasses := fifo_passes budget minChunk hn hneed hstarted
    apply hpasses.1.chunks _ hneed hmin
    intro hnil
    rw [hpasses.2 hnil]
    exact ⟨line_perm _ _, rfl⟩
  · exact fifo_serves hneed hstarted
  · have hpasses := fair_passes chunkable hneed (.inl hmin : 1 ≤ minChunk ∨ minChunk ≤ budget)
    apply hpasses.chunks _ hneed hmin
    exact fun _ => ⟨.refl _, rfl⟩
  · intro walkOf caps rows take dropped hrows hcaps htake hsub hpos
    constructor
    · exact capWalks_spec (fifo_valid hstarted) hrows hcaps htake hsub fun p hp _ => hpos p hp
    · exact capWalks_spec fairShare_valid hrows hcaps htake hsub fun p hp _ => hpos p hp

/-- Two prompts of seven tokens, the first mid-prefill. -/
def seven : ℕ → ℤ := fun _ => 7

/-- The first prompt started first. -/
def firstStarted : ℕ → Option ℤ := fun rid => if rid = 0 then some 0 else none

/-- Two rows of seven tokens, the first of them started. -/
theorem budgets_shared_seven : BudgetShared ℕ [0, 1] seven {0, 1} 12 4 firstStarted :=
  budgets_shared ℕ [0, 1] seven {0, 1} 12 4 firstStarted (by decide) (by decide) (by decide)
    (by
      intro rid hrid
      rw [firstStarted] at hrid
      split at hrid
      next heq => simp [heq]
      next => simp at hrid)

/-- Where the whole-row pass leaves eight tokens, enough for all the oldest
needs but not for the floor, a row that finishes takes them and the oldest is
left out. Short prompts are not meant to starve it, and what is shared above is
said only where the floor is left. No row at all takes more than a budget that
is overdrawn. -/
theorem oldest_left_out :
    ((takeWhole [0, 1] seven 8).2.1 = 8 ∧ oldestOf {0, 1} firstStarted [0, 1] = some 0 ∧
      min 10 (seven 0) ≤ 8 ∧
        0 ∉ rowsOf (fillTokenBudgetInStartOrder [0, 1] seven {0, 1} 8 10 firstStarted).1) ∧
      (fillTokenBudget [] seven {0, 1} (-1) 1).1 = [] ∧
        ¬ total (fillTokenBudget [] seven {0, 1} (-1) 1).1 ≤ -1 := by
  decide

end Mstar.TokenShares
