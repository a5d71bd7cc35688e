import Mathlib.Algebra.Order.Ring.Int
import Mathlib.Data.List.Basic
import Mathlib.Data.Nat.Basic

/-!
# Encodings that end where they say

An encoder is delimited when two encodings followed by anything agree only if
the values agree and so does what follows. Concatenating delimited encodings
loses nothing, which is what lets a hash over a concatenation commit to every
part of it. Encoders may refuse a value, as a fixed width refuses an integer
that does not fit.
-/

namespace Mstar

section Delimited

variable {α β ε : Type} {f : α → Except ε (List β)}

/-- Two encodings followed by anything agree only if the values do, and so does
what follows. -/
def Delimited (f : α → Except ε (List β)) : Prop :=
  ∀ a b x y xs ys, f a = .ok x → f b = .ok y → x ++ xs = y ++ ys → a = b ∧ xs = ys

/-- An injective encoding of one fixed length is delimited. -/
theorem Delimited.of_length {w : ℕ} (hlen : ∀ a x, f a = .ok x → x.length = w)
    (hinj : ∀ a b x, f a = .ok x → f b = .ok x → a = b) : Delimited f := by
  intro a b x y xs ys hx hy happ
  have hlength : x.length = y.length := (hlen a x hx).trans (hlen b y hy).symm
  obtain ⟨rfl, hrest⟩ := List.append_inj happ hlength
  exact ⟨hinj a b x hx hy, hrest⟩

/-- An encoder that goes through a list goes through its head first. -/
theorem mapM_cons_ok {γ : Type} {f : α → Except ε γ} {a : α} {as : List α} {zs : List γ}
    (h : (a :: as).mapM f = .ok zs) :
    ∃ z rest, f a = .ok z ∧ as.mapM f = .ok rest ∧ zs = z :: rest := by
  rw [List.mapM_cons] at h
  cases hz : f a with
  | error e => simp [hz, bind, Except.bind] at h
  | ok z =>
    cases hrest : as.mapM f with
    | error e => simp [hz, hrest, bind, Except.bind] at h
    | ok rest =>
      refine ⟨z, rest, rfl, rfl, ?_⟩
      simpa [hz, hrest, bind, Except.bind, pure, Except.pure] using h.symm

/-- An encoder that refuses no entry of a list. -/
theorem mapM_ok {γ : Type} {f : α → Except ε γ} {g : α → γ} {as : List α}
    (h : ∀ a ∈ as, f a = .ok (g a)) : as.mapM f = .ok (as.map g) := by
  induction as with
  | nil => rfl
  | cons a as ih =>
    rw [List.mapM_cons, h a List.mem_cons_self, ih fun b hb => h b (List.mem_cons_of_mem _ hb)]
    rfl

/-- No elements, no results. -/
theorem mapM_nil_ok {γ : Type} {f : α → Except ε γ} {zs : List γ}
    (h : ([] : List α).mapM f = .ok zs) : zs = [] := by
  simpa [pure, Except.pure] using h.symm

/-- An encoder that never writes nothing writes nothing only for no values. -/
theorem eq_nil_of_flatten (hne : ∀ a, f a ≠ .ok []) {as : List α} {xs : List (List β)}
    (hxs : as.mapM f = .ok xs) (hflat : xs.flatten = []) : as = [] := by
  cases as with
  | nil => simp
  | cons a as =>
    obtain ⟨x, rest, hx, _, rfl⟩ := mapM_cons_ok hxs
    rw [List.flatten_cons, List.append_eq_nil_iff] at hflat
    exact absurd (hflat.1 ▸ hx) (hne a)

/-- Delimited encodings one after the other lose nothing. -/
theorem Delimited.mapM (h : Delimited f) (hne : ∀ a, f a ≠ .ok []) {as bs : List α}
    {xs ys : List (List β)} (hxs : as.mapM f = .ok xs) (hys : bs.mapM f = .ok ys)
    (hflat : xs.flatten = ys.flatten) : as = bs := by
  induction as generalizing bs xs ys with
  | nil =>
    rw [mapM_nil_ok hxs] at hflat
    exact (eq_nil_of_flatten hne hys hflat.symm).symm
  | cons a as ih =>
    cases bs with
    | nil =>
      rw [mapM_nil_ok hys] at hflat
      exact eq_nil_of_flatten hne hxs hflat
    | cons b bs =>
      obtain ⟨x, xs', hx, hxs', rfl⟩ := mapM_cons_ok hxs
      obtain ⟨y, ys', hy, hys', rfl⟩ := mapM_cons_ok hys
      rw [List.flatten_cons, List.flatten_cons] at hflat
      obtain ⟨rfl, hrest⟩ := h a b x y _ _ hx hy hflat
      rw [ih hxs' hys' hrest]

end Delimited

/-! ## Going through a list -/

/-- The `width` little-endian bytes of `n`. -/
def leBytes : ℕ → ℕ → List UInt8
  | 0, _ => []
  | width + 1, n => UInt8.ofNat n :: leBytes width (n / 256)

/-- A number has as many bytes as its width. -/
@[simp] theorem leBytes_length (width n : ℕ) : (leBytes width n).length = width := by
  induction width generalizing n with
  | zero => rfl
  | succ width ih =>
    unfold leBytes
    rw [List.length_cons, ih]

/-- Integers that fit are told apart by their bytes. -/
theorem leBytes_inj {width n m : ℕ} (hn : n < 256 ^ width) (hm : m < 256 ^ width)
    (h : leBytes width n = leBytes width m) : n = m := by
  induction width generalizing n m with
  | zero =>
    rw [Nat.pow_zero] at hn hm
    omega
  | succ width ih =>
    unfold leBytes at h
    rw [List.cons.injEq] at h
    have hlow : n % 256 = m % 256 := by
      have := congrArg UInt8.toNat h.1
      simpa using this
    rw [Nat.pow_succ] at hn hm
    have hhigh : n / 256 = m / 256 :=
      ih (Nat.div_lt_of_lt_mul (by omega)) (Nat.div_lt_of_lt_mul (by omega)) h.2
    omega

end Mstar
