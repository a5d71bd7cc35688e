import Mathlib.Data.List.Basic

/-!
# Growing histories

A history only grows at its end. What every entry owes to the entries before
it is kept by an append whose own entries owe nothing else.
-/

namespace Mstar

section Histories

variable {α : Type} {P : List α → α → Prop} {l m : List α}

/-- Every entry stands in this relation to what came before it. -/
def Always (P : List α → α → Prop) (l : List α) : Prop :=
  ∀ before entry after, l = before ++ entry :: after → P before entry

/-- Nothing is owed in an empty history. -/
theorem always_nil : Always P [] := by
  intro before entry after h
  simp at h

/-- New entries keep the rule if each keeps it after those before it. -/
theorem Always.append (h : Always P l)
    (hm : ∀ before entry after, m = before ++ entry :: after → P (l ++ before) entry) :
    Always P (l ++ m) := by
  intro before entry after heq
  rcases List.append_eq_append_iff.1 heq with ⟨own, hbefore, hown⟩ | ⟨rest, hl, hrest⟩
  · exact hbefore ▸ hm own entry after hown
  · cases rest with
    | nil =>
      have hsame : l ++ [] = before := by simpa using hl
      exact hsame ▸ hm [] entry after hrest.symm
    | cons first rest =>
      obtain ⟨rfl, rfl⟩ := List.cons.inj hrest
      exact h before entry rest hl

/-- A prefix of a history that keeps the rule keeps it. -/
theorem Always.of_append (h : Always P (l ++ m)) : Always P l := by
  intro before entry after heq
  exact h before entry (after ++ m) (by simp [heq])

end Histories

end Mstar
