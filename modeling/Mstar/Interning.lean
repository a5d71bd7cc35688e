import Mathlib.Data.List.Basic
import Mathlib.Logic.Function.Basic

/-!
# Interning

A table numbers the keys it is shown in the order it first sees them. It keeps
them in a list and, for each, its place in a dictionary; neither ever forgets.
-/

namespace Interning

/-- The keys seen so far, and where each is. -/
structure Interner (Key : Type) where
  names : List Key
  indexOf : Key → Option ℕ
  /-- The dictionary gives the places of the list. -/
  agree : ∀ key i, indexOf key = some i ↔ names[i]? = some key

namespace Interner

variable {Key : Type} [DecidableEq Key]

omit [DecidableEq Key] in
/-- Nothing seen. -/
def empty : Interner Key where
  names := []
  indexOf := fun _ => none
  agree := by simp

variable (t : Interner Key) (key : Key)

omit [DecidableEq Key] in
/-- A key that was not seen is not in the list. -/
theorem not_mem_of_none {t : Interner Key} {key : Key} (h : t.indexOf key = none) :
    key ∉ t.names := by
  intro hmem
  obtain ⟨i, hi⟩ := List.mem_iff_getElem?.1 hmem
  rw [(t.agree key i).2 hi] at h
  cases h

/-- A key not seen before goes to the end. -/
def push (h : t.indexOf key = none) : Interner Key where
  names := t.names ++ [key]
  indexOf := Function.update t.indexOf key (some t.names.length)
  agree := by
    intro other i
    by_cases hother : other = key
    · subst hother
      rw [Function.update_self, List.getElem?_append]
      constructor
      · intro heq
        cases heq
        simp
      · intro heq
        split at heq
        · have hmem := List.mem_of_getElem? heq
          exact absurd hmem (not_mem_of_none h)
        · rename_i hge
          have hlt : i - t.names.length < 1 := by
            by_contra hle
            rw [List.getElem?_eq_none (by simp; omega)] at heq
            cases heq
          congr 1
          omega
    · rw [Function.update_of_ne hother, t.agree, List.getElem?_append]
      split
      · rfl
      · rename_i hge
        rw [List.getElem?_eq_none (Nat.le_of_not_lt hge)]
        constructor
        · intro heq
          cases heq
        · intro heq
          have hmem := List.mem_of_getElem? heq
          exact absurd (List.mem_singleton.1 hmem) hother

/-- The number of a key, given it now if it has none. -/
def intern : ℕ × Interner Key :=
  match h : t.indexOf key with
  | some i => (i, t)
  | none => (t.names.length, t.push key h)

/-- Interning puts the key where it says, and moves no other. -/
theorem intern_spec : ∃ more, (t.intern key).2.names = t.names ++ more ∧
    (t.intern key).2.names[(t.intern key).1]? = some key := by
  unfold intern
  split
  · rename_i i h
    exact ⟨[], (List.append_nil _).symm, (t.agree key i).1 h⟩
  · refine ⟨[key], rfl, ?_⟩
    change (t.names ++ [key])[t.names.length]? = some key
    simp

/-- A key not seen before goes to the end. -/
theorem intern_new (h : t.indexOf key = none) :
    (t.intern key).1 = t.names.length ∧ (t.intern key).2.names = t.names ++ [key] := by
  unfold intern
  split
  · rename_i i hi
    rw [h] at hi
    cases hi
  · exact ⟨rfl, rfl⟩

omit [DecidableEq Key] in
/-- Numbers stand for different keys. -/
theorem get_injective (t : Interner Key) : Function.Injective t.names.get := by
  intro i j heq
  have hi := (t.agree (t.names.get i) i).2 (by simp)
  have hj := (t.agree (t.names.get j) j).2 (by simp)
  rw [heq] at hi
  exact Fin.ext (Option.some.inj (hi.symm.trans hj))

/-- A table of renamed keys numbers them the same. -/
structure Renames {Other : Type} (f : Key → Other) (t : Interner Key) (u : Interner Other) :
    Prop where
  names_eq : u.names = t.names.map f

omit [DecidableEq Key] in
/-- Tables of renamed keys know the same ones. -/
theorem Renames.indexOf {Other : Type} {f : Key → Other} (hf : Function.Injective f)
    {t : Interner Key} {u : Interner Other} (h : Renames f t u) (key : Key) :
    u.indexOf (f key) = t.indexOf key := by
  refine Option.ext fun i => ?_
  rw [u.agree, t.agree, h.names_eq, List.getElem?_map, Option.map_eq_some_iff]
  constructor
  · rintro ⟨other, hother, heq⟩
    rw [← hf heq]
    exact hother
  · exact fun hkey => ⟨key, hkey, rfl⟩

/-- Interning a key and its new name. -/
theorem Renames.intern {Other : Type} [DecidableEq Other] {f : Key → Other}
    (hf : Function.Injective f) {t : Interner Key} {u : Interner Other} (h : Renames f t u)
    (key : Key) : (u.intern (f key)).1 = (t.intern key).1 ∧
      Renames f (t.intern key).2 (u.intern (f key)).2 := by
  have hat := h.indexOf hf key
  unfold Interner.intern
  split <;> split
  · rename_i i hi j hj
    rw [hi, hj] at hat
    exact ⟨Option.some.inj hat, h⟩
  · rename_i i hi hj
    rw [hi, hj] at hat
    cases hat
  · rename_i hi j hj
    rw [hi, hj] at hat
    cases hat
  · refine ⟨?_, ⟨?_⟩⟩
    · change u.names.length = t.names.length
      rw [h.names_eq, List.length_map]
    · change u.names ++ [f key] = (t.names ++ [key]).map f
      rw [h.names_eq, List.map_append]
      rfl

end Interner

end Interning
