import Mathlib.Data.Finset.Card
import Mathlib.Tactic.Push

/-!
# Pinned nodes of a forest

A forest given by each node's parent, some of whose nodes are held from
outside. A node is pinned when it or some node below it is held, so that
taking unheld leaves one after the other never reaches it. A mark kept at
each node only about its own children decides the pinned nodes exactly, and
once every leaf is held every node is pinned.
-/

namespace Mstar.PinnedForest

variable {α : Type*} {parent : α → Option α} {held : α → Prop}

/-- The node, or a node below it, is held. -/
inductive Pinned (parent : α → Option α) (held : α → Prop) : α → Prop
  | here {a : α} : held a → Pinned parent held a
  | above {a c : α} : parent c = some a → Pinned parent held c → Pinned parent held a

/-- Every child comes strictly after its parent, and none after `bound`. -/
structure Ranked (parent : α → Option α) (rank : α → ℕ) (bound : ℕ) : Prop where
  /-- A child is ranked after its parent. -/
  lt : ∀ {c a : α}, parent c = some a → rank a < rank c
  /-- No child is ranked past the bound. -/
  le : ∀ {c a : α}, parent c = some a → rank c ≤ bound

/-- Induction from the children up: a property that every node inherits from
all its children holds everywhere. -/
theorem Ranked.childInduction {rank : α → ℕ} {bound : ℕ} (hr : Ranked parent rank bound)
    {P : α → Prop} (hstep : ∀ a, (∀ c, parent c = some a → P c) → P a) (a : α) : P a := by
  induction h : bound - rank a using Nat.strong_induction_on generalizing a with
  | _ m ih =>
    refine hstep a fun c hc => ih (bound - rank c) ?_ c rfl
    have hlt := hr.lt hc
    have hle := hr.le hc
    omega

/-- A mark that says of each node whether a child of it is held or marked
itself finds exactly the pinned nodes. -/
theorem held_or_mark_iff_pinned {rank : α → ℕ} {bound : ℕ} (hr : Ranked parent rank bound)
    {m : α → Prop}
    (hmark : ∀ a, m a ↔ ∃ c, parent c = some a ∧ (held c ∨ m c)) (a : α) :
    held a ∨ m a ↔ Pinned parent held a := by
  constructor
  · induction a using hr.childInduction with
    | hstep a ih =>
      rintro (hheld | hm)
      · exact Pinned.here hheld
      · obtain ⟨c, hc, hcm⟩ := (hmark a).1 hm
        exact Pinned.above hc (ih c hc hcm)
  · intro hp
    induction hp with
    | here h => exact Or.inl h
    | above hc _ ih => exact Or.inr ((hmark _).2 ⟨_, hc, ih⟩)

/-- Once no unheld leaf is left, nothing is left to take: every node lies
over a held leaf. -/
theorem pinned_of_leaves_held {rank : α → ℕ} {bound : ℕ} (hr : Ranked parent rank bound)
    {n : α → Prop} (hchild : ∀ {c a : α}, parent c = some a → n c)
    (hleaf : ∀ a, n a → (∀ c, parent c ≠ some a) → held a) (a : α) (ha : n a) :
    Pinned parent held a := by
  induction a using hr.childInduction with
  | hstep a ih =>
    by_cases hc : ∃ c, parent c = some a
    · obtain ⟨c, hc⟩ := hc
      exact Pinned.above hc (ih c hc (hchild hc))
    · push Not at hc
      exact Pinned.here (hleaf a ha hc)

/-- When one element starts to satisfy a predicate, the elements of a set
that satisfy it become one more if the set has it, and else no more. -/
theorem card_filter_of_gain [DecidableEq α] (s : Finset α) {P Q : α → Prop} [DecidablePred P]
    [DecidablePred Q] {x : α} (hP : ¬P x) (hQ : Q x) (hsame : ∀ y, y ≠ x → (P y ↔ Q y)) :
    (s.filter Q).card = (s.filter P).card + if x ∈ s then 1 else 0 := by
  by_cases hx : x ∈ s
  · have hins : s.filter Q = insert x (s.filter P) := by
      ext y
      by_cases hy : y = x
      · subst hy
        simp [hx, hQ]
      · simp [hy, hsame y hy]
    rw [hins, Finset.card_insert_of_notMem (by simp [hP]), if_pos hx]
  · have hsame' : s.filter Q = s.filter P := by
      refine Finset.filter_congr fun y hy => (hsame y ?_).symm
      rintro rfl
      exact hx hy
    rw [hsame', if_neg hx, Nat.add_zero]

end Mstar.PinnedForest
