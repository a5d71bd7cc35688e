import Mathlib.Data.List.Basic

/-!
# Backtracking patterns

A pattern of sets, stars, alternatives and looks around, tried in the order a
backtracking matcher tries them. A search goes to the leftmost place that
matches, and searches in turn share a text without matching the empty text at
the place where the last match ended empty.
-/

namespace Mstar.Patterns

/-- Where a match stands: what is just behind, and what is left. -/
structure Cursor (α : Type*) where
  behind : Option α
  ahead : List α

/-- Patterns. -/
inductive Pattern (α : Type*)
  /-- One element of a set. -/
  | set (p : α → Bool)
  /-- As few elements of a set as will do. -/
  | lazyStar (p : α → Bool)
  /-- As many as will do. -/
  | greedyStar (p : α → Bool)
  | seq (a b : Pattern α)
  | alt (a b : Pattern α)
  /-- A match of the pattern is ahead. -/
  | lookahead (a : Pattern α)
  /-- An element of the set is just behind. -/
  | lookbehind (p : α → Bool)
  /-- The end of the text. -/
  | atEnd

/-- What is tried after a part of the pattern has matched. -/
abbrev Cont (α : Type*) := Cursor α → Option (Cursor α)

variable {α : Type*}

/-- No more first, then one more of the set. -/
def lazyStar (p : α → Bool) (k : Cont α) : Option α → List α → Option (Cursor α)
  | behind, [] => k ⟨behind, []⟩
  | behind, a :: rest =>
    (k ⟨behind, a :: rest⟩).or (if p a then lazyStar p k (some a) rest else none)

/-- One more of the set first, then no more. -/
def greedyStar (p : α → Bool) (k : Cont α) : Option α → List α → Option (Cursor α)
  | behind, [] => k ⟨behind, []⟩
  | behind, a :: rest =>
    (if p a then greedyStar p k (some a) rest else none).or (k ⟨behind, a :: rest⟩)

/-- Where the first match of the pattern, and of what comes after it, ends. -/
def Pattern.run : Pattern α → Cont α → Cursor α → Option (Cursor α)
  | .set p, k, c =>
    match c.ahead with
    | [] => none
    | a :: rest => if p a then k ⟨some a, rest⟩ else none
  | .lazyStar p, k, c => Patterns.lazyStar p k c.behind c.ahead
  | .greedyStar p, k, c => Patterns.greedyStar p k c.behind c.ahead
  | .seq a b, k, c => a.run (b.run k) c
  | .alt a b, k, c => (a.run k c).or (b.run k c)
  | .lookahead a, k, c => if (a.run some c).isSome then k c else none
  | .lookbehind p, k, c => if c.behind.any p then k c else none
  | .atEnd, k, c => if c.ahead.isEmpty then k c else none

/-- A match in a text. -/
structure Found (α : Type*) where
  /-- The text before the match. -/
  before : List α
  matched : List α
  after : Cursor α

/-- A match at this place, and not an empty one where it must advance. -/
def Pattern.matchHere (r : Pattern α) (must : Bool) (behind : Option α) (ahead : List α) :
    Option (Cursor α) :=
  r.run (fun c => if must && decide (c.ahead.length = ahead.length) then none else some c)
    ⟨behind, ahead⟩

/-- The leftmost match. Only the first place must advance. -/
def Pattern.find (r : Pattern α) : Bool → Option α → List α → Option (Found α)
  | must, behind, ahead =>
    match r.matchHere must behind ahead with
    | some c => some ⟨[], ahead.take (ahead.length - c.ahead.length), c⟩
    | none =>
      match ahead with
      | [] => none
      | a :: rest =>
        (r.find false (some a) rest).map fun f => { f with before := a :: f.before }

/-- What comes after a star of either kind has been run somewhere ahead. -/
theorem lazyStar_reaches {p : α → Bool} {k : Cont α} {behind : Option α} {ahead : List α}
    {d : Cursor α} (h : lazyStar p k behind ahead = some d) :
    ∃ c, c.ahead.length ≤ ahead.length ∧ k c = some d := by
  induction ahead generalizing behind with
  | nil => exact ⟨_, Nat.le_refl _, h⟩
  | cons a rest ih =>
    unfold lazyStar at h
    rw [Option.or_eq_some_iff] at h
    rcases h with h | ⟨-, h⟩
    · exact ⟨_, Nat.le_refl _, h⟩
    · split at h
      · obtain ⟨c, hle, hc⟩ := ih h
        exact ⟨c, Nat.le_succ_of_le hle, hc⟩
      · cases h

/-- What a repetition ends in is some later match. -/
theorem greedyStar_reaches {p : α → Bool} {k : Cont α} {behind : Option α} {ahead : List α}
    {d : Cursor α} (h : greedyStar p k behind ahead = some d) :
    ∃ c, c.ahead.length ≤ ahead.length ∧ k c = some d := by
  induction ahead generalizing behind with
  | nil => exact ⟨_, Nat.le_refl _, h⟩
  | cons a rest ih =>
    unfold greedyStar at h
    rw [Option.or_eq_some_iff] at h
    rcases h with h | ⟨-, h⟩
    · split at h
      · obtain ⟨c, hle, hc⟩ := ih h
        exact ⟨c, Nat.le_succ_of_le hle, hc⟩
      · cases h
    · exact ⟨_, Nat.le_refl _, h⟩

/-- A match never goes back. -/
theorem Pattern.run_reaches (r : Pattern α) {k : Cont α} {c d : Cursor α}
    (h : r.run k c = some d) : ∃ c', c'.ahead.length ≤ c.ahead.length ∧ k c' = some d := by
  induction r generalizing k c with
  | set p =>
    unfold run at h
    split at h
    · cases h
    · rename_i a rest hahead
      split at h
      · refine ⟨_, ?_, h⟩
        rw [hahead]
        exact Nat.le_succ _
      · cases h
  | lazyStar p => exact lazyStar_reaches h
  | greedyStar p => exact greedyStar_reaches h
  | seq a b iha ihb =>
    obtain ⟨c', hle, hc'⟩ := iha h
    obtain ⟨c'', hle', hc''⟩ := ihb hc'
    exact ⟨c'', Nat.le_trans hle' hle, hc''⟩
  | alt a b iha ihb =>
    unfold run at h
    rw [Option.or_eq_some_iff] at h
    rcases h with h | ⟨-, h⟩
    · exact iha h
    · exact ihb h
  | lookahead a =>
    unfold run at h
    split at h
    · exact ⟨c, Nat.le_refl _, h⟩
    · cases h
  | lookbehind p =>
    unfold run at h
    split at h
    · exact ⟨c, Nat.le_refl _, h⟩
    · cases h
  | atEnd =>
    unfold run at h
    split at h
    · exact ⟨c, Nat.le_refl _, h⟩
    · cases h

/-- A match at this place ends ahead of it, past it where it must advance. -/
theorem Pattern.matchHere_reaches {r : Pattern α} {must : Bool} {behind : Option α}
    {ahead : List α} {d : Cursor α} (h : r.matchHere must behind ahead = some d) :
    d.ahead.length ≤ ahead.length ∧ (must = true → d.ahead.length < ahead.length) := by
  obtain ⟨c, hle, hc⟩ := r.run_reaches h
  split at hc
  · cases hc
  · rename_i hstay
    obtain rfl := Option.some.inj hc
    refine ⟨hle, ?_⟩
    intro hmust
    rw [hmust, Bool.true_and, decide_eq_true_eq] at hstay
    exact Nat.lt_of_le_of_ne hle hstay

/-- A search leaves a part of the text, a smaller one where it must advance. -/
theorem Pattern.find_shorter {r : Pattern α} {must : Bool} {behind : Option α} {ahead : List α}
    {f : Found α} (h : r.find must behind ahead = some f) :
    f.after.ahead.length + f.before.length + f.matched.length = ahead.length ∧
      (must = true → f.after.ahead.length < ahead.length) := by
  induction ahead generalizing must behind f with
  | nil =>
    unfold find at h
    split at h
    · rename_i c hc
      have hreach := matchHere_reaches hc
      obtain rfl := Option.some.inj h
      dsimp only
      rw [List.length_take]
      refine ⟨?_, hreach.2⟩
      have hle := hreach.1
      simp only [List.length_nil] at hle ⊢
      omega
    · cases h
  | cons a rest ih =>
    unfold find at h
    split at h
    · rename_i c hc
      have hreach := matchHere_reaches hc
      obtain rfl := Option.some.inj h
      dsimp only
      rw [List.length_take]
      refine ⟨?_, hreach.2⟩
      have hle := hreach.1
      simp only [List.length_nil]
      omega
    · rw [Option.map_eq_some_iff] at h
      obtain ⟨g, hg, rfl⟩ := h
      obtain ⟨hlen, -⟩ := ih hg
      dsimp only
      simp only [List.length_cons]
      constructor
      · omega
      · intro _
        omega

/-- Searches in turn end: each leaves less text, or the same with the duty to
advance. -/
theorem Pattern.find_decreases {r : Pattern α} {must : Bool} {behind : Option α} {ahead : List α}
    {f : Found α} (h : r.find must behind ahead = some f) :
    2 * f.after.ahead.length + (if f.matched.isEmpty then 0 else 1) <
      2 * ahead.length + (if must then 0 else 1) := by
  obtain ⟨hlen, hmust⟩ := find_shorter h
  have hmatched : f.matched.isEmpty = false → 0 < f.matched.length := by
    intro hne
    rw [List.isEmpty_eq_false_iff] at hne
    exact List.length_pos_of_ne_nil hne
  cases hm : must with
  | true =>
    have hlt := hmust hm
    simp only [if_true]
    split <;> omega
  | false =>
    simp only [Bool.false_eq_true, if_false]
    cases he : f.matched.isEmpty with
    | true =>
      simp only [if_true]
      omega
    | false =>
      have hpos := hmatched he
      simp only [Bool.false_eq_true, if_false]
      omega

/-- The matches of searches in turn. -/
def Pattern.findAll (r : Pattern α) (must : Bool) (behind : Option α) (ahead : List α) :
    List (List α) :=
  match _ : r.find must behind ahead with
  | none => []
  | some f => f.matched :: r.findAll f.matched.isEmpty f.after.behind f.after.ahead
termination_by 2 * ahead.length + (if must then 0 else 1)
decreasing_by exact find_decreases ‹_›

/-- The text between the matches. -/
def Pattern.split (r : Pattern α) (must : Bool) (behind : Option α) (ahead : List α) :
    List (List α) :=
  match _ : r.find must behind ahead with
  | none => [ahead]
  | some f => f.before :: r.split f.matched.isEmpty f.after.behind f.after.ahead
termination_by 2 * ahead.length + (if must then 0 else 1)
decreasing_by exact find_decreases ‹_›

/-- The element behind a place, once some text has been passed. -/
def lastBehind (behind : Option α) (passed : List α) : Option α := passed.getLast?.or behind

/-- What is behind after one more letter. -/
theorem lastBehind_cons (behind : Option α) (a : α) (passed : List α) :
    lastBehind behind (a :: passed) = lastBehind (some a) passed := by
  unfold lastBehind
  cases passed with
  | nil => rfl
  | cons b passed =>
    rw [List.getLast?_cons_cons]
    cases h : (b :: passed).getLast? with
    | none => cases List.getLast?_eq_none_iff.1 h
    | some c => rfl

/-- A greedy star stops where its set does. -/
theorem greedyStar_stop {p : α → Bool} (k : Cont α) (behind : Option α) {ahead : List α}
    (h : ahead.head?.any p = false) : greedyStar p k behind ahead = k ⟨behind, ahead⟩ := by
  cases ahead with
  | nil => rfl
  | cons a rest =>
    have ha : p a = false := h
    unfold greedyStar
    rw [ha]
    rfl

/-- The longest run of a greedy star, where what comes after it matches there. -/
theorem greedyStar_longest {p : α → Bool} {k : Cont α} {behind : Option α} {ahead : List α}
    {d : Cursor α}
    (h : k ⟨lastBehind behind (ahead.takeWhile p), ahead.dropWhile p⟩ = some d) :
    greedyStar p k behind ahead = some d := by
  induction ahead generalizing behind with
  | nil => exact h
  | cons a rest ih =>
    cases ha : p a with
    | true =>
      rw [List.takeWhile_cons_of_pos ha, List.dropWhile_cons_of_pos ha, lastBehind_cons] at h
      unfold greedyStar
      rw [if_pos ha, ih h]
      rfl
    | false =>
      have hstop : (a :: rest).head?.any p = false := ha
      have hna : ¬p a = true := by
        rw [ha]
        exact Bool.false_ne_true
      rw [List.takeWhile_cons_of_neg hna, List.dropWhile_cons_of_neg hna] at h
      rw [greedyStar_stop k behind hstop]
      exact h

/-- The longest run of a greedy star, where nothing matches within the run. -/
theorem greedyStar_only {p : α → Bool} {k : Cont α}
    (hk : ∀ behind a rest, p a = true → k ⟨behind, a :: rest⟩ = none) (behind : Option α)
    (ahead : List α) : greedyStar p k behind ahead =
      k ⟨lastBehind behind (ahead.takeWhile p), ahead.dropWhile p⟩ := by
  induction ahead generalizing behind with
  | nil => rfl
  | cons a rest ih =>
    cases ha : p a with
    | true =>
      rw [List.takeWhile_cons_of_pos ha, List.dropWhile_cons_of_pos ha, lastBehind_cons]
      unfold greedyStar
      rw [if_pos ha, ih, hk behind a rest ha, Option.or_none]
    | false =>
      have hstop : (a :: rest).head?.any p = false := ha
      have hna : ¬p a = true := by
        rw [ha]
        exact Bool.false_ne_true
      rw [List.takeWhile_cons_of_neg hna, List.dropWhile_cons_of_neg hna,
        greedyStar_stop k behind hstop]
      rfl

namespace Pattern

variable {r : Pattern α} {must : Bool} {behind : Option α} {ahead rest : List α} {a : α}
  {c : Cursor α}

/-- A match here is found here. -/
theorem find_here (h : r.matchHere must behind ahead = some c) :
    r.find must behind ahead = some ⟨[], ahead.take (ahead.length - c.ahead.length), c⟩ := by
  unfold find
  rw [h]

/-- Else it is looked for one letter on. -/
theorem find_skip (h : r.matchHere must behind (a :: rest) = none) :
    r.find must behind (a :: rest) =
      (r.find false (some a) rest).map fun f => { f with before := a :: f.before } := by
  conv_lhs => unfold find
  rw [h]

/-- At the end there is none. -/
theorem find_end (h : r.matchHere must behind [] = none) : r.find must behind [] = none := by
  unfold find
  rw [h]

/-- Where none is found there are none. -/
theorem findAll_none (h : r.find must behind ahead = none) :
    r.findAll must behind ahead = [] := by
  rw [findAll.eq_def]
  split
  · rfl
  · rename_i f hf
    rw [h] at hf
    cases hf

/-- A match, and all those after it. -/
theorem findAll_some {f : Found α} (h : r.find must behind ahead = some f) :
    r.findAll must behind ahead =
      f.matched :: r.findAll f.matched.isEmpty f.after.behind f.after.ahead := by
  rw [findAll.eq_def]
  split
  · rename_i hf
    rw [h] at hf
    cases hf
  · rename_i g hg
    obtain rfl := Option.some.inj (h.symm.trans hg)
    rfl

/-- Where none is found the text is whole. -/
theorem split_none (h : r.find must behind ahead = none) : r.split must behind ahead = [ahead] := by
  rw [split.eq_def]
  split
  · rfl
  · rename_i f hf
    rw [h] at hf
    cases hf

/-- Else it is cut there, and what follows is split. -/
theorem split_some {f : Found α} (h : r.find must behind ahead = some f) :
    r.split must behind ahead =
      f.before :: r.split f.matched.isEmpty f.after.behind f.after.ahead := by
  rw [split.eq_def]
  split
  · rename_i hf
    rw [h] at hf
    cases hf
  · rename_i g hg
    obtain rfl := Option.some.inj (h.symm.trans hg)
    rfl

/-- Text before a match belongs to the piece that the match ends. -/
theorem split_skip (h : r.matchHere must behind (a :: rest) = none) :
    r.split must behind (a :: rest) = (r.split false (some a) rest).modifyHead (a :: ·) := by
  cases hf : r.find false (some a) rest with
  | none =>
    have hnone : r.find must behind (a :: rest) = none := by
      rw [find_skip h, hf]
      rfl
    rw [split_none hnone, split_none hf]
    rfl
  | some f =>
    have hsome : r.find must behind (a :: rest) = some { f with before := a :: f.before } := by
      rw [find_skip h, hf]
      rfl
    rw [split_some hsome, split_some hf]
    rfl

end Pattern

end Mstar.Patterns
