import Mathlib.Algebra.BigOperators.Group.List.Lemmas
import Mathlib.Algebra.Order.BigOperators.Group.List
import Mathlib.Tactic.Linarith
import Mstar.TokenShares

/-!
# The passes of a budget

What each pass over the rows takes and leaves: no row twice, no more than is
left, and nothing of a row but all it needs or a cut.
-/

namespace Mstar.TokenShares

variable {ρ : Type} {tokens : ρ → ℤ} {chunkable : Finset ρ} {minChunk left : ℤ}
  {startOrder : ρ → Option ℤ} {pending rids : List ρ}

/-- No row takes nothing. -/
@[simp] theorem total_nil : total ([] : Takes ρ) = 0 := rfl

/-- One more row's tokens. -/
@[simp] theorem total_cons (p : ρ × ℤ) (take : Takes ρ) : total (p :: take) = p.2 + total take :=
  List.sum_cons

/-- Totals add up. -/
@[simp] theorem total_append (a b : Takes ρ) : total (a ++ b) = total a + total b := by
  simp [total]

/-- No rows. -/
@[simp] theorem rowsOf_nil : rowsOf ([] : Takes ρ) = [] := rfl

/-- One more row. -/
@[simp] theorem rowsOf_cons (p : ρ × ℤ) (take : Takes ρ) :
    rowsOf (p :: take) = p.1 :: rowsOf take := rfl

/-- The rows of takes one after another. -/
@[simp] theorem rowsOf_append (a b : Takes ρ) : rowsOf (a ++ b) = rowsOf a ++ rowsOf b := by
  simp [rowsOf]

/-- The rows of a list that each take what this says are the list. -/
theorem rowsOf_map (rids : List ρ) (f : ρ → ℤ) :
    rowsOf (rids.map fun rid => (rid, f rid)) = rids := by
  simp [rowsOf, Function.comp_def]

/-- The total of what each row takes. -/
theorem total_map (rids : List ρ) (f : ρ → ℤ) :
    total (rids.map fun rid => (rid, f rid)) = (rids.map f).sum := by
  simp [total, Function.comp_def]

/-- Rows that each need a share at most need no more than as many shares. -/
theorem sum_le_shares {share : ℤ} (h : ∀ rid ∈ rids, tokens rid ≤ share) :
    (rids.map tokens).sum ≤ rids.length * share := by
  induction rids with
  | nil => simp
  | cons rid rids ih =>
    have hhead := h rid List.mem_cons_self
    have htail := ih fun other ho => h other (List.mem_cons_of_mem _ ho)
    rw [List.map_cons, List.sum_cons, List.length_cons]
    push_cast
    linarith

/-- An equal share for no more rows than it was worked out for is there. -/
theorem shares_le {n m : ℕ} {share : ℤ} (hshare : 0 ≤ share) (hn : n ≤ m) (hm : 0 < m)
    (hle : share ≤ left / m) : n * share ≤ left := by
  have hmul : left / m * m ≤ left := Int.ediv_mul_le left (by omega)
  have hcast : (n : ℤ) ≤ m := by exact_mod_cast hn
  have hfew : (n : ℤ) * share ≤ m * share := mul_le_mul_of_nonneg_right hcast hshare
  have hall : (m : ℤ) * share ≤ m * (left / m) := mul_le_mul_of_nonneg_left hle (by omega)
  linarith

/-- The rows with a property and those without it are all rows. -/
theorem filter_split (P : ρ → Prop) [DecidablePred P] (pending : List ρ) :
    (pending.filter (fun rid => P rid) ++ pending.filter fun rid => ¬ P rid).Perm pending := by
  have hperm := List.filter_append_perm (fun rid => decide (P rid)) pending
  simpa only [decide_not] using hperm

/-- The first of the smallest is the head of the sorted list. -/
theorem head?_insertionSort (key : ρ → ℤ) (rids : List ρ) :
    (rids.insertionSort fun a b => key a ≤ key b).head? = rids.argmin key := by
  induction rids with
  | nil => rfl
  | cons rid rids ih =>
    rw [List.insertionSort_cons, List.argmin_cons, ← ih]
    cases rids.insertionSort fun a b => key a ≤ key b with
    | nil => rfl
    | cons first rest =>
      rw [List.orderedInsert]
      by_cases hle : key rid ≤ key first
      · simp [hle, not_lt.2 hle]
      · simp [hle, not_le.1 hle]

/-- The first of the smallest stays so where others are taken away. -/
theorem argmin_filter {key : ρ → ℤ} {p : ρ → Bool} {rid : ρ} (h : rids.argmin key = some rid)
    (hp : p rid = true) : (rids.filter p).argmin key = some rid := by
  induction rids with
  | nil => simp at h
  | cons first rids ih =>
    rw [List.argmin_cons] at h
    cases hrest : rids.argmin key with
    | none =>
      rw [hrest] at h
      obtain rfl := Option.some.inj h
      rw [List.argmin_eq_none.1 hrest, List.filter_cons_of_pos hp]
      rfl
    | some later =>
      rw [hrest] at h
      dsimp only at h
      split at h
      next hlt =>
        obtain rfl := Option.some.inj h
        have hlater := ih hrest
        by_cases hfirst : p first = true
        · rw [List.filter_cons_of_pos hfirst, List.argmin_cons, hlater]
          simp [hlt]
        · rw [List.filter_cons_of_neg hfirst]
          exact hlater
      next hle =>
        obtain rfl := Option.some.inj h
        rw [List.filter_cons_of_pos hp, List.argmin_cons]
        cases hf : (rids.filter p).argmin key with
        | none => rfl
        | some other =>
          have hmem : other ∈ rids := List.mem_of_mem_filter (List.argmin_mem hf)
          have hge := List.le_of_mem_argmin hmem hrest
          have hnot : ¬ key other < key first := by omega
          simp [hnot]

/-- The line is the rows in another order. -/
theorem line_perm (startOrder : ρ → Option ℤ) (pending : List ρ) :
    (line startOrder pending).Perm pending := by
  rw [line]
  apply ((List.perm_insertionSort _ _).append_right _).trans
  have hsplit := filter_split (fun rid => (startOrder rid).isSome = true) pending
  simpa only [Bool.decide_eq_true] using hsplit

variable [DecidableEq ρ]

/-- A pass over rows, that takes some of them whole and leaves the others. -/
structure Pass (tokens : ρ → ℤ) (pending : List ρ) (left : ℤ) (take : Takes ρ) (left' : ℤ)
    (pending' : List ρ) : Prop where
  /-- Each row is taken or left. -/
  split : (rowsOf take ++ pending').Perm pending
  /-- Those not taken are left, in their order. -/
  rest : pending' = pending.filter fun rid => rid ∉ rowsOf take
  /-- A row takes all it needs. -/
  whole : ∀ p ∈ take, p.2 = tokens p.1
  /-- What they take is gone. -/
  spent : left' = left - total take
  /-- There was enough for them. -/
  room : take = [] ∨ 0 ≤ left'

/-- The rows that are not among those that fit are those that do not fit. -/
theorem filter_notMem_filter (P : ρ → Prop) [DecidablePred P] (pending : List ρ) :
    pending.filter (fun rid => rid ∉ pending.filter fun rid => P rid) =
      pending.filter fun rid => ¬ P rid := by
  apply List.filter_congr
  intro rid hrid
  simp [List.mem_filter, hrid]

/-- The rounds are a pass. -/
theorem takeRounds_pass (rounds : ℕ) (hneed : ∀ rid ∈ pending, 0 ≤ tokens rid) :
    Pass tokens pending left (takeRounds tokens rounds pending left).1
      (takeRounds tokens rounds pending left).2.1
      (takeRounds tokens rounds pending left).2.2 := by
  have hnone : ∀ (pending : List ρ) (left : ℤ), Pass tokens pending left [] left pending :=
    fun pending left => ⟨.refl _, by simp, by simp, by simp, .inl rfl⟩
  induction rounds generalizing pending left with
  | zero => exact hnone pending left
  | succ rounds ih =>
    rw [takeRounds]
    dsimp only
    split
    next => exact hnone pending left
    next hfits =>
      set fits := pending.filter fun rid => tokens rid ≤ left / pending.length with hdef
      have hrest : pending.filter (fun rid => rid ∉ fits) =
          pending.filter fun rid => ¬ tokens rid ≤ left / pending.length :=
        filter_notMem_filter (fun rid => tokens rid ≤ left / pending.length) pending
      have hneed' : ∀ rid ∈ pending.filter (fun rid => rid ∉ fits), 0 ≤ tokens rid :=
        fun rid hrid => hneed rid (List.mem_of_mem_filter hrid)
      have hpass : Pass tokens (pending.filter (fun rid => rid ∉ fits))
          (left - total (fits.map fun rid => (rid, tokens rid))) _ _ _ := ih hneed'
      have hsome : ∃ rid, rid ∈ fits := List.exists_mem_of_ne_nil _ hfits
      obtain ⟨first, hfirst⟩ := hsome
      have hshare : 0 ≤ left / pending.length := by
        have hle : tokens first ≤ left / pending.length := by
          simpa using (List.mem_filter.1 hfirst).2
        have hnonneg := hneed first (List.mem_of_mem_filter hfirst)
        omega
      have hpos : 0 < pending.length :=
        List.length_pos_of_mem (List.mem_of_mem_filter hfirst)
      have hroom : 0 ≤ left - total (fits.map fun rid => (rid, tokens rid)) := by
        have hsum : (fits.map tokens).sum ≤ fits.length * (left / pending.length) := by
          apply sum_le_shares
          intro rid hrid
          simpa using (List.mem_filter.1 hrid).2
        have hle : (fits.length : ℤ) * (left / pending.length) ≤ left :=
          shares_le hshare (List.length_filter_le _ _) hpos le_rfl
        rw [total_map]
        linarith
      constructor
      · rw [rowsOf_append, rowsOf_map, List.append_assoc]
        apply (hpass.split.append_left fits).trans
        rw [hrest]
        exact filter_split (fun rid => tokens rid ≤ left / pending.length) pending
      · rw [hpass.rest, List.filter_filter, rowsOf_append, rowsOf_map]
        apply List.filter_congr
        intro rid _
        simp [Bool.and_comm]
      · intro p hp
        rcases List.mem_append.1 hp with hfit | hlater
        · obtain ⟨rid, -, rfl⟩ := List.mem_map.1 hfit
          rfl
        · exact hpass.whole p hlater
      · rw [hpass.spent, total_append]
        omega
      · refine .inr ?_
        rcases hpass.room with hnil | hlater
        · rw [hpass.spent, hnil, total_nil]
          omega
        · exact hlater

/-- The whole rows, where a row needs no fewer tokens than none. -/
theorem takeWhole_pass {budget : ℤ} (hneed : ∀ rid ∈ rids, 0 ≤ tokens rid) :
    Pass tokens rids budget (takeWhole rids tokens budget).1
      (takeWhole rids tokens budget).2.1 (takeWhole rids tokens budget).2.2 :=
  takeRounds_pass _ hneed

/-- What a finishing pass takes. -/
structure Finishes (tokens : ρ → ℤ) (oldest : Option ρ) (left : ℤ) (rids : List ρ)
    (take : Takes ρ) : Prop where
  /-- Rows of the list. -/
  order : (rowsOf take).Sublist rids
  /-- A row takes all it needs. -/
  whole : ∀ p ∈ take, p.2 = tokens p.1
  /-- The oldest is passed over. -/
  spares : ∀ rid ∈ oldest, rid ∉ rowsOf take
  /-- There was enough for them. -/
  room : take = [] ∨ total take ≤ left

/-- The rows that finish. -/
theorem finish_spec (oldest : Option ρ) (left : ℤ) (rids : List ρ) :
    Finishes tokens oldest left rids (finish tokens oldest left rids) := by
  induction rids generalizing left with
  | nil => exact ⟨.refl _, by simp [finish], by simp [finish], .inl rfl⟩
  | cons rid rids ih =>
    rw [finish]
    split
    next => exact { ih left with order := (ih left).order.cons _ }
    next htake =>
      have hrest := ih (left - tokens rid)
      simp only [not_or, not_lt] at htake
      constructor
      · exact hrest.order.cons_cons _
      · intro p hp
        rcases List.mem_cons.1 hp with rfl | hlater
        · rfl
        · exact hrest.whole p hlater
      · intro other ho hmem
        rcases List.mem_cons.1 hmem with rfl | hlater
        · exact htake.2 ho.symm
        · exact hrest.spares other ho hlater
      · refine .inr ?_
        rw [total_cons]
        rcases hrest.room with hnil | hroom
        · rw [hnil, total_nil]
          omega
        · omega

/-- The rows taken short. -/
def cutRows (tokens : ρ → ℤ) (take : Takes ρ) : Takes ρ := take.filter fun p => p.2 < tokens p.1

/-- What a pass in order takes and leaves out. -/
structure Ordered (tokens : ρ → ℤ) (chunkable : Finset ρ) (minChunk left : ℤ) (cut : Bool)
    (rids : List ρ) (take : Takes ρ) (dropped : List ρ) : Prop where
  /-- Each row is taken or left out. -/
  split : (rowsOf take ++ dropped).Perm rids
  /-- A row takes all it needs, or is cut. -/
  parts : ∀ p ∈ take, p.2 = tokens p.1 ∨
    p.1 ∈ chunkable ∧ p.2 < tokens p.1 ∧ minChunk ≤ p.2
  /-- There was enough for them. -/
  room : take = [] ∨ total take ≤ left
  /-- One is cut at most. -/
  once : (cutRows tokens take).length ≤ if cut then 0 else 1

/-- The rows taken in order. -/
theorem takeInOrder_spec (left : ℤ) (cut : Bool) (rids : List ρ) :
    Ordered tokens chunkable minChunk left cut rids
      (takeInOrder tokens chunkable minChunk left cut rids).1
      (takeInOrder tokens chunkable minChunk left cut rids).2 := by
  induction rids generalizing left cut with
  | nil => exact ⟨.refl _, by simp [takeInOrder], .inl rfl, by simp [takeInOrder, cutRows]⟩
  | cons rid rids ih =>
    rw [takeInOrder]
    split
    next hfits =>
      have hrest := ih (left - tokens rid) cut
      constructor
      · exact hrest.split.cons _
      · intro p hp
        rcases List.mem_cons.1 hp with rfl | hlater
        · exact .inl rfl
        · exact hrest.parts p hlater
      · refine .inr ?_
        rw [total_cons]
        rcases hrest.room with hnil | hroom
        · rw [hnil, total_nil]
          omega
        · omega
      · simpa [cutRows] using hrest.once
    next hfits =>
      split
      next hcut =>
        obtain ⟨hchunk, rfl, henough⟩ := hcut
        have hrest := ih 0 true
        constructor
        · exact hrest.split.cons _
        · intro p hp
          rcases List.mem_cons.1 hp with rfl | hlater
          · have hlt : left < tokens rid := by omega
            exact .inr ⟨hchunk, hlt, henough⟩
          · exact hrest.parts p hlater
        · refine .inr ?_
          rw [total_cons]
          rcases hrest.room with hnil | hroom
          · rw [hnil, total_nil]
            omega
          · omega
        · have hnone := hrest.once
          simp only [cutRows, if_true] at hnone ⊢
          have hlt : left < tokens rid := by omega
          rw [List.filter_cons_of_pos (by simpa using hlt), List.length_cons]
          simp only [Bool.false_eq_true, if_false]
          omega
      next =>
        have hrest := ih left cut
        exact { hrest with
          split := List.perm_middle.trans (hrest.split.cons _) }

/-- The first in order is not left out where enough for a cut of it is left. -/
theorem takeInOrder_first {oldest : ρ} (hchunk : oldest ∈ chunkable)
    (hroom : min minChunk (tokens oldest) ≤ left) :
    ∃ n, (oldest, n) ∈ (takeInOrder tokens chunkable minChunk left false (oldest :: rids)).1 ∧
      min minChunk (tokens oldest) ≤ n := by
  rw [takeInOrder]
  split
  next => exact ⟨tokens oldest, List.mem_cons_self, min_le_right _ _⟩
  next hlong =>
    rw [if_pos ⟨hchunk, rfl, by omega⟩]
    exact ⟨left, List.mem_cons_self, hroom⟩

/-- The oldest mid-prefill is first in line, others taken away. -/
theorem line_oldest {oldest : ρ} {p : ρ → Bool}
    (hstarted : ∀ rid, (startOrder rid).isSome → rid ∈ chunkable)
    (h : oldestOf chunkable startOrder pending = some oldest) (hp : p oldest = true) :
    ∃ rest, line startOrder (pending.filter p) = oldest :: rest := by
  have hsame : pending.filter (fun rid => (startOrder rid).isSome ∧ rid ∈ chunkable) =
      pending.filter fun rid => (startOrder rid).isSome := by
    apply List.filter_congr
    intro rid _
    simpa using hstarted rid
  rw [oldestOf, hsame] at h
  have hhead := argmin_filter h hp
  rw [List.filter_filter, ← head?_insertionSort] at hhead
  obtain ⟨rest, hrest⟩ := List.head?_eq_some_iff.1 hhead
  have hcomm : (pending.filter p).filter (fun rid => (startOrder rid).isSome) =
      pending.filter fun rid => p rid && (startOrder rid).isSome := by
    rw [List.filter_filter]
    apply List.filter_congr
    intro rid _
    exact Bool.and_comm _ _
  rw [line, hcomm, hrest]
  exact ⟨_, List.cons_append⟩

/-- The oldest waits and can be cut. -/
theorem mem_chunkable_of_oldest {oldest : ρ}
    (h : oldestOf chunkable startOrder pending = some oldest) :
    oldest ∈ pending ∧ oldest ∈ chunkable := by
  have hmem := List.mem_filter.1 (List.argmin_mem h)
  simp only [decide_eq_true_eq] at hmem
  exact ⟨hmem.1, hmem.2.2⟩

end Mstar.TokenShares
