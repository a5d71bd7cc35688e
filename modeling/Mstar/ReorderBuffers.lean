import Mathlib.Data.List.Perm.Basic
import Mathlib.Data.List.Nodup
import Mathlib.Data.List.Forall2

/-!
# Reorder buffers

Answers come in any order and leave in the order of their sequence numbers. A
buffer holds the answers that wait for an earlier one. Each sequence number
below the next one to be taken is either held, due, or left already, so an
answer put in its place lets go of a run of answers and leaves the buffer
waiting for one that is due.
-/

namespace Mstar.ReorderBuffers

variable {α : Type*}

/-- The sequence number to leave next, and what is held. -/
structure Buffer (α : Type*) where
  next : ℕ
  held : List (ℕ × α)

namespace Buffer

/-- A held answer taken out. -/
def drop (held : List (ℕ × α)) (i : ℕ) : List (ℕ × α) := held.eraseP fun e => e.1 = i

/-- What leaves while the next sequence number is held. -/
def release : ℕ → Buffer α → List α × Buffer α
  | 0, b => ([], b)
  | n + 1, b =>
    match b.held.lookup b.next with
    | none => ([], b)
    | some a =>
      let rest := release n ⟨b.next + 1, drop b.held b.next⟩
      (a :: rest.1, rest.2)

/-- An answer put in its place. -/
def put (b : Buffer α) (i : ℕ) (a : α) : List α × Buffer α :=
  release (b.held.length + 1) ⟨b.next, b.held ++ [(i, a)]⟩

/-- The sequence numbers from the next one to leave up to `stop` are held or
due, each once. -/
structure Waits (b : Buffer α) (due : List ℕ) (stop : ℕ) : Prop where
  le : b.next ≤ stop
  perm : (b.held.map Prod.fst ++ due).Perm (List.range' b.next (stop - b.next))

/-- What is held waits for another one. -/
def Settled (b : Buffer α) : Prop := b.next ∉ b.held.map Prod.fst

variable {b : Buffer α} {due : List ℕ} {stop i : ℕ} {a : α} {P : ℕ → α → Prop}

/-- What is looked up is held. -/
theorem mem_of_lookup {held : List (ℕ × α)} (h : held.lookup i = some a) :
    (i, a) ∈ held := by
  induction held with
  | nil => simp at h
  | cons e held ih =>
    rw [List.lookup_cons] at h
    by_cases he : i = e.1
    · subst he
      simp only [BEq.rfl, Option.some.injEq] at h
      subst h
      exact List.mem_cons_self
    · rw [beq_eq_false_iff_ne.2 he] at h
      exact List.mem_cons_of_mem _ (ih h)

/-- What is not found is not held. -/
theorem lookup_eq_none {held : List (ℕ × α)} :
    held.lookup i = none ↔ i ∉ held.map Prod.fst := by
  induction held with
  | nil => simp
  | cons e held ih =>
    rw [List.lookup_cons]
    by_cases he : i = e.1
    · subst he
      simp
    · rw [beq_eq_false_iff_ne.2 he, List.map_cons, List.mem_cons]
      simpa only [he, false_or] using ih

/-- Dropping takes one number out. -/
theorem map_drop (held : List (ℕ × α)) (i : ℕ) :
    (drop held i).map Prod.fst = (held.map Prod.fst).erase i := by
  unfold drop
  induction held with
  | nil => rfl
  | cons e held ih =>
    rw [List.map_cons, List.eraseP_cons]
    by_cases he : e.1 = i
    · simp [he]
    · rw [List.erase_cons_tail (by simpa using he)]
      simpa [he] using ih

/-- And one entry. -/
theorem length_drop {held : List (ℕ × α)} (h : i ∈ held.map Prod.fst) :
    (drop held i).length + 1 = held.length := by
  have hlen := List.length_erase_add_one h
  rwa [← map_drop, List.length_map, List.length_map] at hlen

/-- And adds none. -/
theorem mem_of_mem_drop {held : List (ℕ × α)} {e : ℕ × α} (h : e ∈ drop held i) : e ∈ held :=
  List.mem_of_mem_eraseP h

/-- One answer leaves. -/
theorem Waits.step (h : Waits b due stop) (hnext : b.next ∈ b.held.map Prod.fst) :
    Waits ⟨b.next + 1, drop b.held b.next⟩ due stop := by
  have hmem : b.next ∈ List.range' b.next (stop - b.next) :=
    h.perm.mem_iff.1 (List.mem_append_left _ hnext)
  rw [List.mem_range'_1] at hmem
  constructor
  · dsimp only
    omega
  · have hrange : List.range' b.next (stop - b.next) =
        b.next :: List.range' (b.next + 1) (stop - (b.next + 1)) := by
      rw [show stop - b.next = stop - (b.next + 1) + 1 by omega, List.range'_succ]
    have herase := h.perm.erase b.next
    rw [hrange, List.erase_cons_head, List.erase_append_left _ hnext, ← map_drop] at herase
    exact herase

/-- What leaves are the answers at the sequence numbers that follow, and what
stays waits for one that is due. -/
theorem release_spec (n : ℕ) (h : Waits b due stop) (hP : ∀ e ∈ b.held, P e.1 e.2)
    (hn : b.held.length ≤ n) :
    (release n b).2.next = b.next + (release n b).1.length ∧
      List.Forall₂ P (List.range' b.next (release n b).1.length) (release n b).1 ∧
      Waits (release n b).2 due stop ∧ Settled (release n b).2 ∧
      ∀ e ∈ (release n b).2.held, e ∈ b.held := by
  induction n generalizing b with
  | zero =>
    have hnil : b.held = [] := List.length_eq_zero_iff.1 (by omega)
    refine ⟨rfl, List.Forall₂.nil, h, ?_, fun e he => he⟩
    simp [Settled, release, hnil]
  | succ n ih =>
    unfold release
    cases hl : b.held.lookup b.next with
    | none => exact ⟨rfl, List.Forall₂.nil, h, lookup_eq_none.1 hl, fun e he => he⟩
    | some a =>
      have hmem := mem_of_lookup hl
      have hnext : b.next ∈ b.held.map Prod.fst := List.mem_map.2 ⟨_, hmem, rfl⟩
      have hlen := length_drop hnext
      obtain ⟨hstop, hout, hwaits, hsettled, hsub⟩ :=
        ih (h.step hnext) (fun e he => hP e (mem_of_mem_drop he)) (by dsimp only; omega)
      refine ⟨?_, ?_, hwaits, hsettled, fun e he => mem_of_mem_drop (hsub e he)⟩
      · rw [hstop]
        simp only [List.length_cons]
        omega
      · rw [List.length_cons, List.range'_succ]
        exact List.Forall₂.cons (hP _ hmem) hout

/-- An early result waits for those before it. -/
theorem Waits.put (h : Waits b due stop) (hi : i ∈ due) (a : α) :
    Waits ⟨b.next, b.held ++ [(i, a)]⟩ (due.erase i) stop := by
  constructor
  · exact h.le
  · refine List.Perm.trans ?_ h.perm
    rw [List.map_append, List.append_assoc]
    exact List.Perm.append_left _ (List.perm_cons_erase hi).symm

/-- An answer that is due takes its place. -/
theorem put_spec (h : Waits b due stop) (hP : ∀ e ∈ b.held, P e.1 e.2) (hi : i ∈ due)
    (ha : P i a) :
    (put b i a).2.next = b.next + (put b i a).1.length ∧
      List.Forall₂ P (List.range' b.next (put b i a).1.length) (put b i a).1 ∧
      Waits (put b i a).2 (due.erase i) stop ∧ Settled (put b i a).2 ∧
      ∀ e ∈ (put b i a).2.held, e ∈ b.held ∨ e = (i, a) := by
  have hall : ∀ e ∈ b.held ++ [(i, a)], P e.1 e.2 := by
    intro e he
    rcases List.mem_append.1 he with he | he
    · exact hP e he
    · rw [List.mem_singleton.1 he]
      exact ha
  obtain ⟨hnext, hout, hwaits, hsettled, hsub⟩ :=
    release_spec (b.held.length + 1) (h.put hi a) hall (by simp)
  refine ⟨hnext, hout, hwaits, hsettled, ?_⟩
  intro e he
  simpa using hsub e he

/-- A due sequence number is neither held nor left. -/
theorem Waits.of_due (h : Waits b due stop) (hi : i ∈ due) :
    b.next ≤ i ∧ i < stop ∧ i ∉ b.held.map Prod.fst := by
  have hmem := h.perm.mem_iff.1 (List.mem_append_right _ hi)
  rw [List.mem_range'_1] at hmem
  have hle := h.le
  have hnodup : (b.held.map Prod.fst ++ due).Nodup := h.perm.nodup_iff.2 List.nodup_range'
  refine ⟨hmem.1, by omega, ?_⟩
  intro hheld
  exact List.disjoint_of_nodup_append hnodup hheld hi

/-- One more sequence number is taken. -/
theorem Waits.take (h : Waits b due stop) : Waits b (due ++ [stop]) (stop + 1) := by
  have hle := h.le
  constructor
  · omega
  · rw [← List.append_assoc, show stop + 1 - b.next = stop - b.next + 1 by omega,
      List.range'_1_concat, show b.next + (stop - b.next) = stop by omega]
    exact h.perm.append_right _

/-- A buffer whose next sequence number has been taken waits for one that is
due. -/
theorem Waits.next_due (h : Waits b due stop) (hs : Settled b) (hlt : b.next < stop) :
    b.next ∈ due := by
  have hmem : b.next ∈ b.held.map Prod.fst ++ due := by
    refine h.perm.mem_iff.2 ?_
    rw [List.mem_range'_1]
    omega
  rcases List.mem_append.1 hmem with hheld | hdue
  · exact absurd hheld hs
  · exact hdue

/-- The order of what is due does not matter. -/
theorem Waits.congr {due' : List ℕ} (h : Waits b due stop) (hperm : due.Perm due') :
    Waits b due' stop :=
  ⟨h.le, (List.Perm.append_left _ hperm.symm).trans h.perm⟩

/-- A buffer nothing was ever taken from. -/
theorem waits_empty : Waits (⟨0, []⟩ : Buffer α) [] 0 := ⟨Nat.le_refl _, by simp⟩

end Buffer

end Mstar.ReorderBuffers
