import Mathlib.Data.List.Count
import Mathlib.Logic.Function.Basic

/-!
# Counted references

A ledger counts the references to each key and forgets a key with its last
reference. A release that finds no reference left is put down apart, so that
a ledger nobody released twice shows none.
-/

namespace Mstar

/-- The references counted for each key. A key without one is forgotten. -/
structure RefLedger (α : Type) where
  /-- References to each key. -/
  count : α → ℕ
  /-- Releases that found no reference left. -/
  overdrawn : α → ℕ

namespace RefLedger

variable {α : Type}

/-- A ledger without a reference. -/
def empty : RefLedger α := ⟨fun _ => 0, fun _ => 0⟩

variable [DecidableEq α]

/-- A first or further reference to a key. -/
def store (l : RefLedger α) (a : α) : RefLedger α :=
  { l with count := Function.update l.count a (l.count a + 1) }

/-- More references to a key, if it is not forgotten. -/
def take (l : RefLedger α) (a : α) (n : ℕ) : RefLedger α :=
  if l.count a = 0 then l else { l with count := Function.update l.count a (l.count a + n) }

/-- Fewer references to a key. -/
def drop (l : RefLedger α) (a : α) (n : ℕ) : RefLedger α where
  count := Function.update l.count a (l.count a - n)
  overdrawn := Function.update l.overdrawn a (l.overdrawn a + (n - l.count a))

/-- One reference to each entry of a list. -/
def storeAll (l : RefLedger α) (as : List α) : RefLedger α := as.foldl store l

/-- One more reference to each entry of a list. -/
def takeAll (l : RefLedger α) (as : List α) : RefLedger α := as.foldl (fun l a => l.take a 1) l

/-- One reference less to each entry of a list. -/
def dropAll (l : RefLedger α) (as : List α) : RefLedger α := as.foldl (fun l a => l.drop a 1) l

variable (l : RefLedger α)

/-- Storing overdraws nothing. -/
@[simp] theorem store_overdrawn (a : α) : (l.store a).overdrawn = l.overdrawn := rfl

/-- A stored reference counts for its key. -/
theorem store_count (a b : α) : (l.store a).count b = l.count b + if a = b then 1 else 0 := by
  unfold store
  by_cases h : a = b
  · subst h
    simp
  · simp [Function.update_of_ne (Ne.symm h), h]

/-- Nor does taking. -/
@[simp] theorem take_overdrawn (a : α) (n : ℕ) : (l.take a n).overdrawn = l.overdrawn := by
  unfold take
  split <;> rfl

/-- Other keys are not taken. -/
theorem take_count_of_ne {a b : α} (h : b ≠ a) (n : ℕ) : (l.take a n).count b = l.count b := by
  unfold take
  split
  · rfl
  · simp [Function.update_of_ne h]

/-- A key that is not forgotten is taken. -/
theorem take_count_self {a : α} (h : 0 < l.count a) (n : ℕ) :
    (l.take a n).count a = l.count a + n := by
  unfold take
  rw [if_neg (by omega)]
  simp

/-- Dropping counts for its key. -/
theorem drop_count (a b : α) (n : ℕ) :
    (l.drop a n).count b = l.count b - if a = b then n else 0 := by
  unfold drop
  by_cases h : a = b
  · subst h
    simp
  · simp [Function.update_of_ne (Ne.symm h), h]

/-- A release that finds its reference is not put down. -/
theorem drop_overdrawn (a b : α) (n : ℕ) (h : a = b → n ≤ l.count b) :
    (l.drop a n).overdrawn b = l.overdrawn b := by
  unfold drop
  by_cases hab : a = b
  · subst hab
    have := h rfl
    simp only [Function.update_self]
    omega
  · simp [Function.update_of_ne (Ne.symm hab)]

/-- Nor does storing several. -/
@[simp] theorem storeAll_overdrawn (as : List α) : (l.storeAll as).overdrawn = l.overdrawn := by
  unfold storeAll
  induction as generalizing l with
  | nil => rfl
  | cons a as ih => rw [List.foldl_cons, ih, store_overdrawn]

/-- Every entry of the list is a reference. -/
theorem storeAll_count (as : List α) (b : α) : (l.storeAll as).count b = l.count b + as.count b := by
  unfold storeAll
  induction as generalizing l with
  | nil => rfl
  | cons a as ih =>
    rw [List.foldl_cons, ih, store_count, List.count_cons]
    simp only [beq_iff_eq]
    omega

/-- Nor does taking several. -/
@[simp] theorem takeAll_overdrawn (as : List α) : (l.takeAll as).overdrawn = l.overdrawn := by
  unfold takeAll
  induction as generalizing l with
  | nil => rfl
  | cons a as ih => rw [List.foldl_cons, ih, take_overdrawn]

/-- Every entry of the list is a further reference, if its key is not forgotten. -/
theorem takeAll_count (as : List α) (b : α) (h : b ∈ as → 0 < l.count b) :
    (l.takeAll as).count b = l.count b + as.count b := by
  unfold takeAll
  induction as generalizing l with
  | nil => rfl
  | cons a as ih =>
    rw [List.foldl_cons, List.count_cons]
    by_cases hab : b = a
    · subst hab
      have hpos := h List.mem_cons_self
      rw [ih _ fun _ => by rw [take_count_self _ hpos]; omega, take_count_self _ hpos]
      simp only [BEq.rfl, if_true]
      omega
    · have hne : ¬ (a == b) = true := by simpa using Ne.symm hab
      rw [ih _ fun hm => by rw [take_count_of_ne _ hab]; exact h (List.mem_cons_of_mem _ hm),
        take_count_of_ne _ hab, if_neg hne]
      omega

/-- Every entry of the list is a reference less. -/
theorem dropAll_count (as : List α) (b : α) : (l.dropAll as).count b = l.count b - as.count b := by
  unfold dropAll
  induction as generalizing l with
  | nil => rfl
  | cons a as ih =>
    rw [List.foldl_cons, ih, drop_count, List.count_cons]
    simp only [beq_iff_eq]
    omega

/-- Releases that all find their references are not put down. -/
theorem dropAll_overdrawn (as : List α) (b : α) (h : as.count b ≤ l.count b) :
    (l.dropAll as).overdrawn b = l.overdrawn b := by
  unfold dropAll
  induction as generalizing l with
  | nil => rfl
  | cons a as ih =>
    rw [List.count_cons] at h
    simp only [beq_iff_eq] at h
    rw [List.foldl_cons, ih, drop_overdrawn]
    · intro hab
      rw [if_pos hab] at h
      omega
    · rw [drop_count]
      omega

/-- Two ledgers that count one key alike. -/
def Agree (b : α) (l l' : RefLedger α) : Prop :=
  l'.count b = l.count b ∧ l'.overdrawn b = l.overdrawn b

omit [DecidableEq α] in
/-- One step that agrees after another. -/
theorem Agree.trans {b : α} {l l' l'' : RefLedger α} (h : Agree b l l') (h' : Agree b l' l'') :
    Agree b l l'' := ⟨h'.1.trans h.1, h'.2.trans h.2⟩

/-- A key's references brought from `held` to `wanted`. -/
def settle (l : RefLedger α) (a : α) (held wanted : ℕ) : RefLedger α :=
  if held < wanted then l.take a (wanted - held)
  else if wanted < held then l.drop a (held - wanted)
  else l

/-- Other keys are not settled. -/
theorem settle_agree {a b : α} (h : b ≠ a) (held wanted : ℕ) : Agree b l (l.settle a held wanted) := by
  unfold settle
  split
  · exact ⟨take_count_of_ne l h _, by rw [take_overdrawn]⟩
  · split
    · constructor
      · rw [drop_count, if_neg (Ne.symm h)]
        rfl
      · exact drop_overdrawn l a b _ fun hab => absurd hab.symm h
    · exact ⟨rfl, rfl⟩

/-- Settling exchanges the held references for the wanted ones. -/
theorem settle_count {a : α} {held : ℕ} (hpos : 0 < held) (h : held ≤ l.count a) (wanted : ℕ) :
    (l.settle a held wanted).count a + held = l.count a + wanted := by
  unfold settle
  split
  · rw [take_count_self l (by omega)]
    omega
  · split
    · rw [drop_count, if_pos rfl]
      omega
    · omega

/-- Settling finds the references it drops. -/
theorem settle_overdrawn {a : α} {held : ℕ} (h : held ≤ l.count a) (wanted : ℕ) :
    (l.settle a held wanted).overdrawn a = l.overdrawn a := by
  unfold settle
  split
  · rw [take_overdrawn]
  · split
    · exact drop_overdrawn l a a _ fun _ => by omega
    · rfl

end RefLedger

end Mstar
