import Mathlib.Data.List.Range
import Mathlib.Order.MinMax
import Mathlib.Order.Lattice

/-!
# Tilings of an interval by consecutive spans

A list of spans tiles an interval when the first one starts at its lower
end, each starts where the one before it stopped, and the last one stops at
its upper end. Cutting an interval at the successive marks of a monotone
scale gives such a tiling, also when the pieces that lie wholly outside the
interval are left out by some coarser test.
-/

namespace Mstar.SpanTiling

variable {α : Type*} [LinearOrder α]

/-- Spans, in order, that cover an interval without gap or overlap. Empty
spans are allowed: an interval cut where nothing lies between two marks. -/
inductive Tiles : α → α → List (α × α) → Prop
  | nil (at_ : α) : Tiles at_ at_ []
  | cons {lo mid hi : α} {rest : List (α × α)} :
      lo ≤ mid → Tiles mid hi rest → Tiles lo hi ((lo, mid) :: rest)

/-- The piece of `[lo, hi)` between a scale's marks `s` and `s + 1`. -/
def clip (mark : ℕ → α) (lo hi : α) (s : ℕ) : α × α :=
  (max (mark s) lo, min (mark (s + 1)) hi)

/-- Cutting `[lo, hi)` at consecutive marks tiles the part of it between the
first and the last mark. A piece may be left out only when it is empty: the
interval ends before it starts, or starts after it ends. -/
theorem tiles_clip_range' {mark : ℕ → α} (hmono : Monotone mark) {lo hi : α} (hle : lo ≤ hi)
    {keep : ℕ → Bool}
    (hkeep : ∀ s, keep s = true → mark s ≤ hi ∧ lo ≤ mark (s + 1))
    (hskip : ∀ s, keep s = false → hi ≤ mark s ∨ mark (s + 1) ≤ lo) (k a : ℕ) :
    Tiles (min hi (max lo (mark a))) (min hi (max lo (mark (a + k))))
      (((List.range' a k).filter keep).map (clip mark lo hi)) := by
  induction k generalizing a with
  | zero => simpa using Tiles.nil _
  | succ k ih =>
    have hstep := hmono (Nat.le_succ a)
    have htail := ih (a + 1)
    rw [show a + 1 + k = a + (k + 1) by omega] at htail
    rw [List.range'_succ]
    cases hk : keep a with
    | true =>
      obtain ⟨hs, he⟩ := hkeep a hk
      have hstart : min hi (max lo (mark a)) = max (mark a) lo := by
        rw [max_comm, min_eq_right (max_le hs hle)]
      have hstop : min hi (max lo (mark (a + 1))) = min (mark (a + 1)) hi := by
        rw [max_eq_right he, min_comm]
      rw [List.filter_cons_of_pos hk, List.map_cons, hstart]
      rw [hstop] at htail
      exact Tiles.cons (max_le (le_min hstep hs) (le_min he hle)) htail
    | false =>
      have hsame : min hi (max lo (mark a)) = min hi (max lo (mark (a + 1))) := by
        rcases hskip a hk with h | h
        · rw [min_eq_left (h.trans (le_max_right _ _)),
            min_eq_left ((h.trans hstep).trans (le_max_right _ _))]
        · rw [max_eq_left (hstep.trans h), max_eq_left h]
      rw [List.filter_cons_of_neg (by simp [hk]), hsame]
      exact htail

/-- Cutting `[lo, hi)` at all the marks of a scale that reaches past both its
ends tiles the whole of it. -/
theorem tiles_clip {mark : ℕ → α} (hmono : Monotone mark) {lo hi : α} (hle : lo ≤ hi) {n : ℕ}
    (hfirst : mark 0 ≤ lo) (hlast : hi ≤ mark n) {keep : ℕ → Bool}
    (hkeep : ∀ s, keep s = true → mark s ≤ hi ∧ lo ≤ mark (s + 1))
    (hskip : ∀ s, keep s = false → hi ≤ mark s ∨ mark (s + 1) ≤ lo) :
    Tiles lo hi (((List.range n).filter keep).map (clip mark lo hi)) := by
  have h := tiles_clip_range' hmono hle hkeep hskip n 0
  rw [Nat.zero_add, max_eq_left hfirst, min_eq_right hle,
    min_eq_left (hlast.trans (le_max_right _ _)), ← List.range_eq_range'] at h
  exact h

/-- Some span of a tiling covers each point of the interval. -/
theorem Tiles.exists_mem {lo hi x : α} {spans : List (α × α)} (h : Tiles lo hi spans)
    (hlo : lo ≤ x) (hhi : x < hi) : ∃ span ∈ spans, span.1 ≤ x ∧ x < span.2 := by
  induction h with
  | nil => exact absurd hhi (not_lt.2 hlo)
  | @cons lo mid hi rest _ _ ih =>
    rcases lt_or_ge x mid with hx | hx
    · exact ⟨(lo, mid), List.mem_cons_self, hlo, hx⟩
    · obtain ⟨span, hspan, hcover⟩ := ih hx hhi
      exact ⟨span, List.mem_cons_of_mem _ hspan, hcover⟩

end Mstar.SpanTiling
