import Mathlib.Data.List.Basic
import Mathlib.Data.List.Nodup
import Mathlib.Data.Nat.Notation
import Mathlib.Data.List.Sort
import Mathlib.Tactic.Tauto

/-!
# Free lists

A region of cells is cut into pieces. How often a cell is covered is counted,
so that cutting a piece in two, joining two and moving one between lists are
all additions. First fit takes from the front of the first piece that is long
enough; a list of free pieces is tidy when its pieces are in order, none of
them empty and no two of them touch.
-/

namespace Mstar.FreeLists

/-- Cells one after the other. -/
structure Piece where
  offset : ℕ
  nbytes : ℕ
  deriving DecidableEq, Repr

namespace Piece

/-- The first cell behind a piece. -/
def stop (p : Piece) : ℕ := p.offset + p.nbytes

/-- A cell lies in a piece. -/
def Holds (p : Piece) (x : ℕ) : Prop := p.offset ≤ x ∧ x < p.stop

instance (p : Piece) (x : ℕ) : Decidable (p.Holds x) :=
  inferInstanceAs (Decidable (_ ∧ _))

/-- No cell lies in both pieces. -/
def Disjoint (p q : Piece) : Prop := ∀ x, ¬ (p.Holds x ∧ q.Holds x)

/-- Of two pieces that share nothing, neither of them empty, one ends before
the other starts. -/
theorem Disjoint.apart {p q : Piece} (h : p.Disjoint q) (hp : 0 < p.nbytes) (hq : 0 < q.nbytes) :
    p.stop ≤ q.offset ∨ q.stop ≤ p.offset := by
  have hleft := h p.offset
  have hright := h q.offset
  unfold Holds stop at hleft hright
  unfold stop
  omega

end Piece

/-- How many of some pieces a cell lies in. -/
def cover (l : List Piece) (x : ℕ) : ℕ := l.countP (fun p => p.Holds x)

/-- The pieces make up the cells below a bound, each cell in one of them. -/
def Partition (size : ℕ) (l : List Piece) : Prop :=
  ∀ x, cover l x = if x < size then 1 else 0

section Cover

variable {l m : List Piece} {p q : Piece} {x n : ℕ}

/-- No pieces cover nothing. -/
@[simp] theorem cover_nil : cover [] x = 0 := rfl

/-- One more piece covers its own. -/
theorem cover_cons : cover (p :: l) x = cover [p] x + cover l x := by
  unfold cover
  rw [List.countP_cons, List.countP_singleton, Nat.add_comm]

/-- Lists cover what each of them does. -/
@[simp] theorem cover_append : cover (l ++ m) x = cover l x + cover m x := List.countP_append

/-- A piece covers its addresses once. -/
theorem cover_singleton :
    cover [p] x = if p.offset ≤ x ∧ x < p.offset + p.nbytes then 1 else 0 := by
  have hin : decide (p.Holds x) = true ↔ p.offset ≤ x ∧ x < p.offset + p.nbytes :=
    decide_eq_true_iff
  unfold cover
  rw [List.countP_singleton]
  exact if_congr hin rfl rfl

/-- Rearranged pieces cover the same cells. -/
theorem cover_perm (h : l.Perm m) : cover l x = cover m x := h.countP_eq _

/-- A piece in two. -/
theorem cover_split (o a b : ℕ) :
    cover [⟨o, a + b⟩] x = cover [⟨o, a⟩] x + cover [⟨o + a, b⟩] x := by
  rw [cover_singleton, cover_singleton, cover_singleton]
  dsimp only
  split <;> split <;> split <;> omega

/-- An empty piece covers nothing. -/
theorem cover_empty (o : ℕ) : cover [⟨o, 0⟩] x = 0 := by
  rw [cover_singleton]
  dsimp only
  split <;> omega

/-- What a piece of the list holds is covered. -/
theorem one_le_cover (hp : p ∈ l) (hx : p.Holds x) : 1 ≤ cover l x := by
  have : 0 < l.countP (fun p => p.Holds x) := List.countP_pos_iff.2 ⟨p, hp, by simpa using hx⟩
  exact this

/-- A covered cell lies in a piece. -/
theorem exists_of_cover (h : 0 < cover l x) : ∃ p ∈ l, p.Holds x := by
  obtain ⟨p, hp, hx⟩ := List.countP_pos_iff.1 h
  exact ⟨p, hp, by simpa using hx⟩

/-- Pieces that cover no cell twice share nothing. -/
theorem pairwise_disjoint (h : ∀ x, cover l x ≤ 1) : l.Pairwise Piece.Disjoint := by
  induction l with
  | nil => exact List.Pairwise.nil
  | cons p l ih =>
    have htail : ∀ x, cover l x ≤ 1 := by
      intro x
      have := h x
      rw [cover_cons] at this
      omega
    refine List.pairwise_cons.2 ⟨?_, ih htail⟩
    rintro q hq x ⟨hpx, hqx⟩
    have hthere := one_le_cover hq hqx
    have hhere : 1 ≤ cover [p] x := one_le_cover List.mem_cons_self hpx
    have htwice := h x
    rw [cover_cons] at htwice
    omega

/-- Pieces that share nothing, none of them empty, start at different cells. -/
theorem nodup_offsets (h : l.Pairwise Piece.Disjoint) (hsolid : ∀ p ∈ l, 0 < p.nbytes) :
    (l.map Piece.offset).Nodup := by
  rw [List.Nodup, List.pairwise_map]
  refine List.Pairwise.imp_of_mem ?_ h
  intro p q hp hq hdisj heq
  have hside := hdisj.apart (hsolid p hp) (hsolid q hq)
  have := hsolid p hp
  have := hsolid q hq
  unfold Piece.stop at hside
  omega

/-- The piece that starts at a cell, and the pieces that start elsewhere. -/
theorem perm_cons_filter (h : (l.map Piece.offset).Nodup) (hp : p ∈ l) :
    l.Perm (p :: l.filter fun q => q.offset ≠ p.offset) := by
  induction l with
  | nil => cases hp
  | cons first l ih =>
    rw [List.map_cons, List.nodup_cons] at h
    rcases List.mem_cons.1 hp with rfl | hp
    · have hrest : l.filter (fun q => decide (q.offset ≠ p.offset)) = l := by
        rw [List.filter_eq_self]
        intro q hq
        have hne : q.offset ≠ p.offset := fun heq => h.1 (heq ▸ List.mem_map_of_mem hq)
        simpa using hne
      rw [List.filter_cons_of_neg (by simp), hrest]
    · have hne : first.offset ≠ p.offset := fun heq => h.1 (heq ▸ List.mem_map_of_mem hp)
      rw [List.filter_cons_of_pos (by simpa using hne)]
      exact ((ih h.2 hp).cons first).trans (List.Perm.swap _ _ _)

/-- A partition covers no cell twice. -/
theorem Partition.le_one (h : Partition n l) (x : ℕ) : cover l x ≤ 1 := by
  rw [h x]
  split <;> omega

/-- A piece of a partition that is not empty ends within the region. -/
theorem Partition.stop_le (h : Partition n l) (hp : p ∈ l) (hpos : 0 < p.nbytes) :
    p.stop ≤ n := by
  have hin : p.Holds (p.stop - 1) := by
    unfold Piece.Holds Piece.stop
    omega
  have hone := one_le_cover hp hin
  rw [h] at hone
  split at hone
  · omega
  · omega

end Cover

/-- In order, none of them empty, no two of them touching. -/
structure Tidy (l : List Piece) : Prop where
  apart : l.Pairwise fun p q => p.stop < q.offset
  solid : ∀ p ∈ l, 0 < p.nbytes

section Tidy

variable {l pre post : List Piece} {p q : Piece} {n : ℕ}

/-- Some of the pieces are tidy as well. -/
theorem Tidy.sublist {m : List Piece} (h : Tidy l) (hm : m.Sublist l) : Tidy m where
  apart := h.apart.sublist hm
  solid := fun q hq => h.solid q (hm.subset hq)

/-- The rest of a tidy list is tidy. -/
theorem Tidy.tail (h : Tidy (p :: l)) : Tidy l := h.sublist (List.sublist_cons_self _ _)

/-- Tidy pieces that make up a whole region are one piece. -/
theorem Tidy.whole (h : Tidy l) (hpart : Partition n l) (hn : 0 < n) : l = [⟨0, n⟩] := by
  have hzero : 0 < cover l 0 := by
    rw [hpart, if_pos hn]
    omega
  cases l with
  | nil => simp at hzero
  | cons p rest =>
    have hlater : ∀ q ∈ rest, p.stop < q.offset := (List.pairwise_cons.1 h.apart).1
    have hp : 0 < p.nbytes := h.solid p List.mem_cons_self
    have hstart : p.offset = 0 := by
      obtain ⟨q, hq, hin⟩ := exists_of_cover hzero
      have hbegin : q.offset ≤ 0 := hin.1
      rcases List.mem_cons.1 hq with rfl | hq
      · omega
      · have := hlater q hq
        omega
    have hend : p.stop = n := by
      have hle := hpart.stop_le List.mem_cons_self hp
      by_contra hne
      have hcovered : 0 < cover (p :: rest) p.stop := by
        rw [hpart, if_pos (by omega)]
        omega
      obtain ⟨q, hq, hin⟩ := exists_of_cover hcovered
      rcases List.mem_cons.1 hq with rfl | hq
      · have := hin.2
        omega
      · have := hlater q hq
        have := hin.1
        omega
    have hnone : rest = [] := by
      rw [List.eq_nil_iff_forall_not_mem]
      intro q hq
      have := hlater q hq
      have hpos := h.solid q (List.mem_cons_of_mem _ hq)
      have hle := hpart.stop_le (List.mem_cons_of_mem _ hq) hpos
      have hoff : q.stop = q.offset + q.nbytes := rfl
      omega
    subst hnone
    unfold Piece.stop at hend
    have hlen : p.nbytes = n := by omega
    cases p
    simp_all

end Tidy

/-- The first piece that is long enough gives up its front: the cells taken and
the pieces left. -/
def firstFit (size : ℕ) : List Piece → Option (Piece × List Piece)
  | [] => none
  | free :: rest =>
    if size ≤ free.nbytes then
      if free.nbytes = size then some (⟨free.offset, size⟩, rest)
      else some (⟨free.offset, size⟩, ⟨free.offset + size, free.nbytes - size⟩ :: rest)
    else (firstFit size rest).map fun found => (found.1, free :: found.2)

section FirstFit

variable {l rest : List Piece} {p : Piece} {size a : ℕ}

/-- Nothing is found only where every piece is too short. -/
theorem firstFit_eq_none : firstFit size l = none ↔ ∀ p ∈ l, p.nbytes < size := by
  induction l with
  | nil => simp [firstFit]
  | cons free l ih =>
    unfold firstFit
    split
    · next hfits =>
      constructor
      · intro h
        split at h <;> cases h
      · intro h
        have := h free List.mem_cons_self
        omega
    · next hshort =>
      rw [Option.map_eq_none_iff, ih, List.forall_mem_cons]
      constructor
      · intro h
        exact ⟨by omega, h⟩
      · intro h
        exact h.2

/-- What was taken and what is left: the front of one piece, and the pieces
around it untouched. -/
theorem firstFit_eq_some (h : firstFit size l = some (p, rest)) :
    ∃ pre free post, l = pre ++ free :: post ∧ size ≤ free.nbytes ∧ p = ⟨free.offset, size⟩ ∧
      ((free.nbytes = size ∧ rest = pre ++ post) ∨ (size < free.nbytes ∧
        rest = pre ++ ⟨free.offset + size, free.nbytes - size⟩ :: post)) := by
  induction l generalizing rest with
  | nil => cases h
  | cons free l ih =>
    unfold firstFit at h
    split at h
    · next hfits =>
      refine ⟨[], free, l, rfl, hfits, ?_⟩
      split at h
      · next hexact =>
        cases h
        exact ⟨rfl, .inl ⟨hexact, rfl⟩⟩
      · next hlonger =>
        cases h
        exact ⟨rfl, .inr ⟨by omega, rfl⟩⟩
    · next hshort =>
      obtain ⟨⟨p', rest'⟩, hfound, heq⟩ := Option.map_eq_some_iff.1 h
      cases heq
      obtain ⟨pre, f, post, rfl, hfits, hp, hleft⟩ := ih hfound
      refine ⟨free :: pre, f, post, rfl, hfits, hp, ?_⟩
      rcases hleft with ⟨hexact, rfl⟩ | ⟨hlonger, rfl⟩
      · exact .inl ⟨hexact, rfl⟩
      · exact .inr ⟨hlonger, rfl⟩

/-- What was taken has the size asked for. -/
theorem firstFit_nbytes (h : firstFit size l = some (p, rest)) : p.nbytes = size := by
  obtain ⟨pre, free, post, -, -, rfl, -⟩ := firstFit_eq_some h
  rfl

/-- The cells taken and the cells left are the cells there were. -/
theorem firstFit_cover (h : firstFit size l = some (p, rest)) (x : ℕ) :
    cover rest x + cover [p] x = cover l x := by
  obtain ⟨pre, free, post, rfl, hfits, rfl, hleft⟩ := firstFit_eq_some h
  have hcut : cover [free] x = cover [⟨free.offset, size⟩] x +
      cover [⟨free.offset + size, free.nbytes - size⟩] x := by
    rw [← cover_split, Nat.add_sub_cancel' hfits]
  rw [cover_append, cover_cons (l := post)]
  rcases hleft with ⟨hexact, rfl⟩ | ⟨-, rfl⟩
  · rw [hexact, Nat.sub_self, cover_empty] at hcut
    rw [cover_append]
    omega
  · rw [cover_append, cover_cons (l := post)]
    omega

/-- Cutting the front off a piece leaves a tidy list tidy. -/
theorem firstFit_tidy (h : firstFit size l = some (p, rest)) (ht : Tidy l) : Tidy rest := by
  obtain ⟨pre, free, post, rfl, hfits, rfl, hleft⟩ := firstFit_eq_some h
  have hsub : (pre ++ post).Sublist (pre ++ free :: post) :=
    List.Sublist.append (List.Sublist.refl _) (List.sublist_cons_self _ _)
  rcases hleft with ⟨-, rfl⟩ | ⟨hlonger, rfl⟩
  · exact ht.sublist hsub
  · have hstop : free.offset + size + (free.nbytes - size) = free.offset + free.nbytes := by omega
    have hapart := List.pairwise_append.1 ht.apart
    have hpost := List.pairwise_cons.1 hapart.2.1
    constructor
    · refine List.pairwise_append.2 ⟨hapart.1, List.pairwise_cons.2 ⟨?_, hpost.2⟩, ?_⟩
      · intro q hq
        have := hpost.1 q hq
        unfold Piece.stop at this ⊢
        dsimp only
        omega
      · intro q hq r hr
        rcases List.mem_cons.1 hr with rfl | hr
        · have := hapart.2.2 q hq free List.mem_cons_self
          dsimp only
          omega
        · exact hapart.2.2 q hq r (List.mem_cons_of_mem _ hr)
    · intro q hq
      rcases List.mem_append.1 hq with hq | hq
      · exact ht.solid q (List.mem_append_left _ hq)
      · rcases List.mem_cons.1 hq with rfl | hq
        · dsimp only
          omega
        · exact ht.solid q (List.mem_append_right _ (List.mem_cons_of_mem _ hq))

/-- Where every piece starts on a multiple and multiples are taken, what is
taken and what is left start on one. -/
theorem firstFit_aligned (h : firstFit size l = some (p, rest)) (hsize : a ∣ size)
    (hl : ∀ q ∈ l, a ∣ q.offset) : a ∣ p.offset ∧ ∀ q ∈ rest, a ∣ q.offset := by
  obtain ⟨pre, free, post, rfl, hfits, rfl, hleft⟩ := firstFit_eq_some h
  have hfree : a ∣ free.offset := hl free (by simp)
  constructor
  · exact hfree
  · intro q hq
    rcases hleft with ⟨-, rfl⟩ | ⟨-, rfl⟩
    · apply hl q
      simp only [List.mem_append, List.mem_cons] at hq ⊢
      tauto
    · simp only [List.mem_append, List.mem_cons] at hq
      rcases hq with hq | rfl | hq
      · exact hl q (by simp [hq])
      · exact Nat.dvd_add hfree hsize
      · exact hl q (by simp [hq])

end FirstFit

end Mstar.FreeLists
