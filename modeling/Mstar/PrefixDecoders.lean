import Mathlib.Data.List.Basic

/-!
# Decoders that read one item at a time

A decoder reads an item off the front of its input, or waits for more. What it
has read no later input changes, so it may be fed its input in any pieces, and
what it has put out is what every continuation puts out.
-/

namespace Mstar.PrefixDecoders

variable {β γ : Type*}

/-- One item off the front of the input, and how much of the input it takes. -/
structure Decoder (β γ : Type*) where
  read : List β → Option (γ × ℕ)
  pos : ∀ {bs g n}, read bs = some (g, n) → 0 < n
  le : ∀ {bs g n}, read bs = some (g, n) → n ≤ bs.length
  stable : ∀ {bs r} (more), read bs = some r → read (bs ++ more) = some r

namespace Decoder

/-- Items as long as there are any. -/
def drain (d : Decoder β γ) : ℕ → List β → List γ × List β
  | 0, bs => ([], bs)
  | fuel + 1, bs =>
    match d.read bs with
    | none => ([], bs)
    | some (g, n) =>
      let rest := drain d fuel (bs.drop n)
      (g :: rest.1, rest.2)

/-- Every item of the input, and what is left. -/
def run (d : Decoder β γ) (bs : List β) : List γ × List β := d.drain bs.length bs

/-- The items of an input that ends: what is left makes its own. -/
def whole (d : Decoder β γ) (finish : List β → List γ) (bs : List β) : List γ :=
  (d.run bs).1 ++ finish (d.run bs).2

/-- One piece more. -/
def feed (d : Decoder β γ) (s : List γ × List β) (piece : List β) : List γ × List β :=
  (s.1 ++ (d.run (s.2 ++ piece)).1, (d.run (s.2 ++ piece)).2)

variable {d : Decoder β γ} {bs : List β} {g : γ} {n : ℕ}

/-- More fuel than bytes makes no difference. -/
theorem drain_of_le {fuel fuel' : ℕ} (h : bs.length ≤ fuel) (h' : bs.length ≤ fuel') :
    d.drain fuel bs = d.drain fuel' bs := by
  induction fuel generalizing fuel' bs with
  | zero =>
    have hnil : bs = [] := List.length_eq_zero_iff.1 (by omega)
    subst hnil
    cases fuel' with
    | zero => rfl
    | succ fuel' =>
      have hnone : d.read [] = none := by
        cases hread : d.read [] with
        | none => rfl
        | some r =>
          obtain ⟨g, n⟩ := r
          have hpos := d.pos hread
          have hle := d.le hread
          simp only [List.length_nil] at hle
          omega
      simp [drain, hnone]
  | succ fuel ih =>
    cases fuel' with
    | zero =>
      have hnil : bs = [] := List.length_eq_zero_iff.1 (by omega)
      subst hnil
      cases hread : d.read [] with
      | none => simp [drain, hread]
      | some r =>
        obtain ⟨g, n⟩ := r
        have hpos := d.pos hread
        have hle := d.le hread
        simp only [List.length_nil] at hle
        omega
    | succ fuel' =>
      unfold drain
      cases hread : d.read bs with
      | none => rfl
      | some r =>
        obtain ⟨g, n⟩ := r
        have hpos := d.pos hread
        have hle := d.le hread
        have hrest : d.drain fuel (bs.drop n) = d.drain fuel' (bs.drop n) := by
          refine ih ?_ ?_
          · rw [List.length_drop]
            omega
          · rw [List.length_drop]
            omega
        dsimp only
        rw [hrest]

/-- What cannot be read is left. -/
theorem run_of_none (h : d.read bs = none) : d.run bs = ([], bs) := by
  unfold run
  cases hlen : bs.length with
  | zero => rfl
  | succ fuel => simp [drain, h]

/-- What can is read, and the rest after it. -/
theorem run_of_some (h : d.read bs = some (g, n)) :
    d.run bs = (g :: (d.run (bs.drop n)).1, (d.run (bs.drop n)).2) := by
  have hpos := d.pos h
  have hle := d.le h
  have hfuel : d.run bs = d.drain (bs.length - 1 + 1) bs :=
    drain_of_le (Nat.le_refl _) (by omega)
  have hrest : d.drain (bs.length - 1) (bs.drop n) = d.run (bs.drop n) := by
    refine drain_of_le ?_ (Nat.le_refl _)
    rw [List.length_drop]
    omega
  rw [hfuel]
  unfold drain
  rw [h]
  dsimp only
  rw [hrest]

/-- What is left waits for more. -/
theorem read_rest (d : Decoder β γ) (bs : List β) : d.read (d.run bs).2 = none := by
  induction hlen : bs.length using Nat.strongRecOn generalizing bs with
  | _ k ih =>
    cases hread : d.read bs with
    | none =>
      rw [run_of_none hread]
      exact hread
    | some r =>
      obtain ⟨g, n⟩ := r
      have hpos := d.pos hread
      have hle := d.le hread
      rw [run_of_some hread]
      refine ih (bs.drop n).length ?_ (bs.drop n) rfl
      rw [List.length_drop]
      omega

/-- An input read in two pieces. -/
theorem run_append (d : Decoder β γ) (x y : List β) :
    d.run (x ++ y) = ((d.run x).1 ++ (d.run ((d.run x).2 ++ y)).1,
      (d.run ((d.run x).2 ++ y)).2) := by
  induction hlen : x.length using Nat.strongRecOn generalizing x with
  | _ k ih =>
    cases hread : d.read x with
    | none =>
      rw [run_of_none hread]
      rfl
    | some r =>
      obtain ⟨g, n⟩ := r
      have hpos := d.pos hread
      have hle := d.le hread
      have hdrop : (x ++ y).drop n = x.drop n ++ y := List.drop_append_of_le_length hle
      have hlt : (x.drop n).length < k := by
        rw [List.length_drop]
        omega
      rw [run_of_some (d.stable y hread), run_of_some hread, hdrop,
        ih (x.drop n).length hlt (x.drop n) rfl]
      rfl

/-- Pieces fed in turn put out what the whole input does. -/
theorem feed_pieces (d : Decoder β γ) (pieces : List (List β)) (s : List γ × List β)
    (h : d.read s.2 = none) :
    pieces.foldl d.feed s =
      (s.1 ++ (d.run (s.2 ++ pieces.flatten)).1, (d.run (s.2 ++ pieces.flatten)).2) := by
  induction pieces generalizing s with
  | nil =>
    rw [List.flatten_nil, List.append_nil, run_of_none h, List.append_nil]
    rfl
  | cons piece pieces ih =>
    have hrest : d.read (d.feed s piece).2 = none := d.read_rest _
    rw [List.foldl_cons, ih _ hrest, List.flatten_cons, ← List.append_assoc,
      d.run_append (s.2 ++ piece)]
    unfold feed
    rw [List.append_assoc]

/-- Bytes that come later are read after the first. -/
theorem whole_append (d : Decoder β γ) (finish : List β → List γ) (x y : List β) :
    d.whole finish (x ++ y) = (d.run x).1 ++ d.whole finish ((d.run x).2 ++ y) := by
  unfold whole
  rw [d.run_append x y, List.append_assoc]

/-- What has been put out is the longest that every continuation begins with,
if an input that is left can go on to another item than the one its end makes. -/
theorem longest {finish : List β → List γ} (hnil : finish [] = [])
    (hsplit : ∀ rest, rest ≠ [] → d.read rest = none → ∃ g more g' n,
      finish rest = [g] ∧ d.read (rest ++ more) = some (g', n) ∧ g' ≠ g)
    (bs : List β) (s : List γ) :
    s <+: (d.run bs).1 ↔ ∀ more, s <+: d.whole finish (bs ++ more) := by
  constructor
  · intro hs more
    rw [whole_append]
    exact hs.trans (List.prefix_append _ _)
  · intro hs
    by_cases hrest : (d.run bs).2 = []
    · have hend := hs []
      unfold whole at hend
      rwa [List.append_nil, hrest, hnil, List.append_nil] at hend
    · obtain ⟨g, more, g', n, hfinish, hread, hne⟩ := hsplit _ hrest (d.read_rest bs)
      have hend := hs []
      have hmore := hs more
      rw [List.append_nil] at hend
      unfold whole at hend
      rw [hfinish] at hend
      rw [whole_append] at hmore
      unfold whole at hmore
      rw [run_of_some hread] at hmore
      rcases List.prefix_concat_iff.1 hend with heq | hprefix
      · rw [heq, List.prefix_append_right_inj] at hmore
        rw [List.cons_append, List.cons_prefix_cons] at hmore
        exact absurd hmore.1.symm hne
      · exact hprefix

end Decoder

end Mstar.PrefixDecoders
