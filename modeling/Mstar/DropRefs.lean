import Mstar.TensorOwners

/-!
# What a batched dereference does to one uuid

A batch may name a uuid several times, and what happens to it depends on its
own entries alone: its count runs down through them, and each time it stands
at zero or below while nobody persists it the uuid is collectable. The Rust
bookkeeper frees at the first such time what needs no teardown, and reports
anything else once for every such time.
-/

namespace Mstar.TensorBooks

/-- The numbers a batch takes from one uuid, in order. -/
def numbersOf (uuid : ℕ) (refs : List (ℕ × ℤ)) : List ℤ :=
  (refs.filter fun ref => ref.1 = uuid).map (·.2)

/-- A count once numbers are taken from it, wrapped around by `wrap`. -/
def finalCount (wrap : ℤ → ℤ) (count : ℤ) (numbers : List ℤ) : ℤ :=
  numbers.foldl (fun count n => wrap (count - n)) count

/-- How often a count stands at zero or below while numbers are taken from
it. -/
def lowTimes (wrap : ℤ → ℤ) : ℤ → List ℤ → ℕ
  | _, [] => 0
  | count, n :: numbers =>
    (if wrap (count - n) ≤ 0 then 1 else 0) + lowTimes wrap (wrap (count - n)) numbers

/-- No count on the way is outside the 64-bit range. -/
def Fits : ℤ → List ℤ → Prop
  | _, [] => True
  | count, n :: numbers =>
    (-2 ^ 63 ≤ count - n ∧ count - n < 2 ^ 63) ∧ Fits (count - n) numbers

variable {Rid T : Type}

/-- A number in the 64-bit range is not wrapped. -/
theorem i64_of_fits {n : ℤ} (hlow : -2 ^ 63 ≤ n) (hhigh : n < 2 ^ 63) : i64 n = n := by
  unfold i64 Int.bmod
  dsimp only
  split <;> omega

/-- Counts in range run down alike in both languages. -/
theorem Fits.final {count : ℤ} {numbers : List ℤ} (h : Fits count numbers) :
    finalCount i64 count numbers = finalCount id count numbers := by
  induction numbers generalizing count with
  | nil => rfl
  | cons n numbers ih =>
    have hwrap := i64_of_fits h.1.1 h.1.2
    change finalCount i64 (i64 (count - n)) numbers = finalCount id (count - n) numbers
    rw [hwrap]
    exact ih h.2

/-- Counts in range are low equally often in both languages. -/
theorem Fits.lowTimes {count : ℤ} {numbers : List ℤ} (h : Fits count numbers) :
    lowTimes i64 count numbers = lowTimes id count numbers := by
  induction numbers generalizing count with
  | nil => rfl
  | cons n numbers ih =>
    have hwrap := i64_of_fits h.1.1 h.1.2
    simp only [TensorBooks.lowTimes, hwrap, id]
    rw [ih h.2]

/-- The count a batch in range ends with is in range. -/
theorem Fits.final_range {count : ℤ} {numbers : List ℤ} (h : Fits count numbers)
    (hlow : -2 ^ 63 ≤ count) (hhigh : count < 2 ^ 63) :
    -2 ^ 63 ≤ finalCount id count numbers ∧ finalCount id count numbers < 2 ^ 63 := by
  induction numbers generalizing count with
  | nil => exact ⟨hlow, hhigh⟩
  | cons n numbers ih => exact ih h.2 h.1.1 h.1.2

/-- A batch's first entry is the uuid's. -/
theorem numbersOf_cons_self (uuid : ℕ) (n : ℤ) (refs : List (ℕ × ℤ)) :
    numbersOf uuid ((uuid, n) :: refs) = n :: numbersOf uuid refs := by
  simp [numbersOf]

/-- A batch's first entry is another uuid's. -/
theorem numbersOf_cons_ne {uuid other : ℕ} (h : other ≠ uuid) (n : ℤ) (refs : List (ℕ × ℤ)) :
    numbersOf uuid ((other, n) :: refs) = numbersOf uuid refs := by
  simp [numbersOf, h]

namespace Bookkeeping

variable [DecidableEq Rid] {uuid : ℕ}

/-- Whether a collectable uuid is freed in place by a batch that cleans up: its
tensor is held here, and nothing of it is left to tear down. -/
def freesInPlace (b : Bookkeeping Rid T) (uuid : ℕ) (e : ReferenceInfo) : Bool :=
  (b.stored uuid).isSome && !e.memRegistered && !e.teardown

/-- How often a batch finds a uuid collectable. -/
def hits (e : ReferenceInfo) (numbers : List ℤ) : ℕ :=
  if e.persist then 0 else lowTimes i64 e.refCount numbers

/-- Another uuid's entry changes nothing. -/
theorem dropOne_other (cleanup : Bool) (acc : Bookkeeping Rid T × Reported) {other : ℕ}
    (h : other ≠ uuid) (n : ℤ) :
    (dropOne cleanup acc (other, n)).1.refInfo uuid = acc.1.refInfo uuid ∧
      (dropOne cleanup acc (other, n)).1.stored uuid = acc.1.stored uuid ∧
      (dropOne cleanup acc (other, n)).2.uuids.count uuid = acc.2.uuids.count uuid := by
  have hne : uuid ≠ other := Ne.symm h
  have hlower : (acc.1.dereference other n).refInfo uuid = acc.1.refInfo uuid := by
    simp [dereference, onEntry, hne]
  have hkept : (acc.1.dereference other n).stored = acc.1.stored := rfl
  unfold dropOne
  cases acc.1.refInfo other with
  | none => exact ⟨rfl, rfl, rfl⟩
  | some e =>
    dsimp only
    split
    · exact ⟨hlower, rfl, rfl⟩
    · split
      · rename_i b' hsome
        split at hsome
        · have hb : b' = ((acc.1.dereference other n).takeStored other).2 := by rw [hsome]
          refine ⟨?_, ?_, rfl⟩
          · simp [forgetTensor, hne, hb, refInfo_takeStored, hlower]
          · simp [forgetTensor, hb, stored_takeStored, hne, hkept]
        · cases hsome
      · rename_i b' hnone
        have hb : b'.refInfo uuid = acc.1.refInfo uuid ∧ b'.stored uuid = acc.1.stored uuid := by
          split at hnone
          · have hb : b' = ((acc.1.dereference other n).takeStored other).2 := by rw [hnone]
            rw [hb, refInfo_takeStored, stored_takeStored]
            simp [hne, hlower, hkept]
          · cases hnone
            exact ⟨hlower, rfl⟩
        refine ⟨hb.1, hb.2, ?_⟩
        simp [List.count_append, Ne.symm hne]

/-- A batch does nothing to a uuid that is not tracked. -/
theorem foldl_dropOne_untracked (cleanup : Bool) {acc : Bookkeeping Rid T × Reported}
    (refs : List (ℕ × ℤ)) (h : acc.1.refInfo uuid = none) :
    (refs.foldl (dropOne cleanup) acc).1.refInfo uuid = none ∧
      (refs.foldl (dropOne cleanup) acc).1.stored uuid = acc.1.stored uuid ∧
      (refs.foldl (dropOne cleanup) acc).2.uuids.count uuid = acc.2.uuids.count uuid := by
  induction refs generalizing acc with
  | nil => exact ⟨h, rfl, rfl⟩
  | cons ref refs ih =>
    obtain ⟨other, n⟩ := ref
    rw [List.foldl_cons]
    by_cases hu : other = uuid
    · subst hu
      have hsame : dropOne cleanup acc (other, n) = acc := by
        simp only [dropOne, h]
      rw [hsame]
      exact ih h
    · obtain ⟨hinfo, hstored, hcount⟩ := dropOne_other cleanup acc hu n
      obtain ⟨hinfo', hstored', hcount'⟩ := ih (hinfo.trans h)
      exact ⟨hinfo', hstored'.trans hstored, hcount'.trans hcount⟩

/-- The uuid's own entry lowers its count, and more when that leaves it
collectable: it is freed in place, or reported. -/
theorem dropOne_self (cleanup : Bool) {acc : Bookkeeping Rid T × Reported} {e : ReferenceInfo}
    (h : acc.1.refInfo uuid = some e) (n : ℤ) :
    ((i64 (e.refCount - n) > 0 ∨ e.persist) →
      (dropOne cleanup acc (uuid, n)).1.refInfo uuid =
          some { e with refCount := i64 (e.refCount - n) } ∧
        (dropOne cleanup acc (uuid, n)).1.stored = acc.1.stored ∧
        (dropOne cleanup acc (uuid, n)).2 = acc.2) ∧
    (¬(i64 (e.refCount - n) > 0 ∨ e.persist) →
      (cleanup && acc.1.freesInPlace uuid e) = true →
      (dropOne cleanup acc (uuid, n)).1.refInfo uuid = none ∧
        (dropOne cleanup acc (uuid, n)).1.stored uuid = none ∧
        (dropOne cleanup acc (uuid, n)).2 = acc.2) ∧
    (¬(i64 (e.refCount - n) > 0 ∨ e.persist) →
      (cleanup && acc.1.freesInPlace uuid e) = false →
      (dropOne cleanup acc (uuid, n)).1.refInfo uuid =
          some { e with refCount := i64 (e.refCount - n) } ∧
        (dropOne cleanup acc (uuid, n)).1.stored uuid = acc.1.stored uuid ∧
        (dropOne cleanup acc (uuid, n)).2.uuids = acc.2.uuids ++ [uuid]) := by
  have hlower : (acc.1.dereference uuid n).refInfo uuid =
      some { e with refCount := i64 (e.refCount - n) } := by
    simp [dereference, onEntry, h]
  have hkept : (acc.1.dereference uuid n).stored = acc.1.stored := rfl
  refine ⟨fun hup => ?_, fun hlow hfree => ?_, fun hlow hkeep => ?_⟩
  · have hred : dropOne cleanup acc (uuid, n) = (acc.1.dereference uuid n, acc.2) := by
      simp only [dropOne, h, if_pos hup]
    rw [hred]
    exact ⟨hlower, rfl, rfl⟩
  · simp only [freesInPlace, Bool.and_eq_true, Bool.not_eq_true'] at hfree
    obtain ⟨hclean, ⟨hsome, hreg⟩, htear⟩ := hfree
    obtain ⟨s, hs⟩ := Option.isSome_iff_exists.1 hsome
    have htake := takeStored_fst (acc.1.dereference uuid n) uuid
    rw [hkept, hs] at htake
    simp only [dropOne, h, if_neg hlow, hclean, hreg, htear, Bool.not_false, Bool.and_self, if_true]
    split
    · rename_i b' htaken
      have hb : b' = ((acc.1.dereference uuid n).takeStored uuid).2 := by rw [htaken]
      refine ⟨?_, ?_, rfl⟩
      · simp [forgetTensor]
      · simp [forgetTensor, hb, stored_takeStored]
    · rename_i b' htaken
      rw [htaken] at htake
      cases htake
  · simp only [dropOne, h, if_neg hlow]
    split
    · -- nothing to take: the tensor is not held here
      rename_i b' htaken
      split at htaken
      · rename_i hclean
        have htake := takeStored_fst (acc.1.dereference uuid n) uuid
        rw [htaken, hkept] at htake
        simp only [Bool.and_eq_true, Bool.not_eq_true'] at hclean
        simp [freesInPlace, ← htake, hclean.1.1, hclean.1.2, hclean.2] at hkeep
      · cases htaken
    · rename_i b' htaken
      have hb : b'.refInfo uuid = some { e with refCount := i64 (e.refCount - n) } ∧
          b'.stored uuid = acc.1.stored uuid := by
        split at htaken
        · have hb : b' = ((acc.1.dereference uuid n).takeStored uuid).2 := by rw [htaken]
          have htake := takeStored_fst (acc.1.dereference uuid n) uuid
          rw [htaken, hkept] at htake
          constructor
          · rw [hb, refInfo_takeStored, hlower]
          · rw [hb, stored_takeStored, Function.update_self, ← htake]
        · cases htaken
          exact ⟨hlower, rfl⟩
      exact ⟨hb.1, hb.2, rfl⟩

/-- What the loop of a batch does to a tracked uuid. -/
theorem foldl_dropOne_tracked (cleanup : Bool) {acc : Bookkeeping Rid T × Reported}
    {e : ReferenceInfo} (refs : List (ℕ × ℤ)) (h : acc.1.refInfo uuid = some e) :
    (refs.foldl (dropOne cleanup) acc).1.refInfo uuid =
        (if (cleanup && acc.1.freesInPlace uuid e) = true ∧ 0 < hits e (numbersOf uuid refs) then
          none
        else some { e with refCount := finalCount i64 e.refCount (numbersOf uuid refs) }) ∧
      (refs.foldl (dropOne cleanup) acc).1.stored uuid =
        (if (cleanup && acc.1.freesInPlace uuid e) = true ∧ 0 < hits e (numbersOf uuid refs) then
          none
        else acc.1.stored uuid) ∧
      (refs.foldl (dropOne cleanup) acc).2.uuids.count uuid = acc.2.uuids.count uuid +
        if (cleanup && acc.1.freesInPlace uuid e) = true then 0
        else hits e (numbersOf uuid refs) := by
  induction refs generalizing acc e with
  | nil =>
    have hnone : hits e [] = 0 := by simp [hits, lowTimes]
    have hnil : numbersOf uuid [] = [] := rfl
    simp [hnil, hnone, h, finalCount]
  | cons ref refs ih =>
    obtain ⟨other, n⟩ := ref
    rw [List.foldl_cons]
    by_cases hu : other = uuid
    · subst hu
      obtain ⟨hup, hfreed, hreported⟩ := dropOne_self cleanup h n
      rw [numbersOf_cons_self]
      by_cases hstay : i64 (e.refCount - n) > 0 ∨ e.persist
      · obtain ⟨hinfo, hstored, hout⟩ := hup hstay
        have hsame : hits e (n :: numbersOf other refs) =
            hits { e with refCount := i64 (e.refCount - n) } (numbersOf other refs) := by
          unfold hits
          by_cases hp : e.persist = true
          · simp [hp]
          · have hpos := hstay.resolve_right hp
            simp [hp, lowTimes, not_le.2 hpos]
        have hrest := ih hinfo
        have hfree : (dropOne cleanup acc (other, n)).1.freesInPlace other
            { e with refCount := i64 (e.refCount - n) } = acc.1.freesInPlace other e := by
          simp only [freesInPlace, hstored]
        rw [hfree, hstored, hout] at hrest
        rw [hsame]
        exact hrest
      · have hhit : hits e (n :: numbersOf other refs) =
            hits { e with refCount := i64 (e.refCount - n) } (numbersOf other refs) + 1 := by
          push Not at hstay
          unfold hits
          simp [hstay.2, lowTimes, hstay.1]
          omega
        cases hfree : (cleanup && acc.1.freesInPlace other e) with
        | true =>
          obtain ⟨hinfo, hstored, hout⟩ := hfreed hstay hfree
          obtain ⟨hinfo', hstored', hcount'⟩ :=
            foldl_dropOne_untracked cleanup refs hinfo
          rw [hinfo', hstored', hcount', hstored, hout, hhit]
          simp
        | false =>
          obtain ⟨hinfo, hstored, hout⟩ := hreported hstay hfree
          have hrest := ih hinfo
          have hsame : (dropOne cleanup acc (other, n)).1.freesInPlace other
              { e with refCount := i64 (e.refCount - n) } = acc.1.freesInPlace other e := by
            simp only [freesInPlace, hstored]
          rw [hsame, hfree, hstored, hout] at hrest
          simp only [Bool.false_eq_true, false_and, if_false, List.count_append,
            List.count_singleton_self] at hrest ⊢
          refine ⟨?_, hrest.2.1, ?_⟩
          · rw [hrest.1]
            rfl
          · rw [hrest.2.2, hhit]
            omega
    · obtain ⟨hinfo, hstored, hcount⟩ := dropOne_other cleanup acc hu n
      have hrest := ih (hinfo.trans h)
      have hfree : (dropOne cleanup acc (other, n)).1.freesInPlace uuid e =
          acc.1.freesInPlace uuid e := by simp only [freesInPlace, hstored]
      rw [hfree, hstored, hcount] at hrest
      rw [numbersOf_cons_ne hu]
      exact hrest

omit [DecidableEq Rid] in
/-- Forgetting uuids one after the other. -/
theorem foldl_forgetTensor (b : Bookkeeping Rid T) (uuids : List ℕ) (uuid : ℕ) :
    (uuids.foldl forgetTensor b).refInfo uuid = (if uuid ∈ uuids then none else b.refInfo uuid) ∧
      (uuids.foldl forgetTensor b).stored = b.stored := by
  induction uuids generalizing b with
  | nil => simp
  | cons other uuids ih =>
    obtain ⟨hinfo, hstored⟩ := ih (b.forgetTensor other)
    rw [List.foldl_cons, hinfo, hstored]
    refine ⟨?_, rfl⟩
    by_cases hu : uuid = other
    · simp [hu, forgetTensor]
    · simp [hu, forgetTensor]

/-- A batch does nothing to a uuid that is not tracked. -/
theorem dropRefs_untracked {b : Bookkeeping Rid T} (refs : List (ℕ × ℤ)) (cleanup : Bool)
    (h : b.refInfo uuid = none) :
    (b.dropRefs refs cleanup).1.refInfo uuid = none ∧
      (b.dropRefs refs cleanup).1.stored uuid = b.stored uuid ∧
      (b.dropRefs refs cleanup).2.uuids.count uuid = 0 := by
  have hloop := foldl_dropOne_untracked cleanup refs
    (show (b, ({} : Reported)).1.refInfo uuid = none from h)
  unfold dropRefs
  dsimp only
  cases cleanup with
  | false => simpa using hloop
  | true =>
    obtain ⟨hinfo, hstored, hcount⟩ := hloop
    obtain ⟨hforgot, hkept⟩ := foldl_forgetTensor (refs.foldl (dropOne true) (b, {})).1
      (refs.foldl (dropOne true) (b, {})).2.uuids uuid
    simp only [if_true]
    rw [hforgot, hkept, hinfo, hstored, hcount]
    simp

/-- What a batch does to a tracked uuid: it is gone once it was collectable,
if the batch cleans up, and is freed in place or reported once for each
time. -/
theorem dropRefs_tracked {b : Bookkeeping Rid T} {e : ReferenceInfo} (refs : List (ℕ × ℤ))
    (cleanup : Bool) (h : b.refInfo uuid = some e) :
    (b.dropRefs refs cleanup).1.refInfo uuid =
        (if cleanup = true ∧ 0 < hits e (numbersOf uuid refs) then none
        else some { e with refCount := finalCount i64 e.refCount (numbersOf uuid refs) }) ∧
      (b.dropRefs refs cleanup).1.stored uuid =
        (if (cleanup && b.freesInPlace uuid e) = true ∧ 0 < hits e (numbersOf uuid refs) then none
        else b.stored uuid) ∧
      (b.dropRefs refs cleanup).2.uuids.count uuid =
        (if (cleanup && b.freesInPlace uuid e) = true then 0
        else hits e (numbersOf uuid refs)) := by
  have hloop := foldl_dropOne_tracked cleanup refs
    (show (b, ({} : Reported)).1.refInfo uuid = some e from h)
  unfold dropRefs
  dsimp only
  cases cleanup with
  | false => simpa using hloop
  | true =>
    obtain ⟨hinfo, hstored, hcount⟩ := hloop
    obtain ⟨hforgot, hkept⟩ := foldl_forgetTensor (refs.foldl (dropOne true) (b, {})).1
      (refs.foldl (dropOne true) (b, {})).2.uuids uuid
    simp only [if_true]
    rw [hforgot, hkept, hinfo, hstored]
    have hmem : 0 < (refs.foldl (dropOne true) (b, {})).2.uuids.count uuid ↔
        uuid ∈ (refs.foldl (dropOne true) (b, {})).2.uuids := List.count_pos_iff
    refine ⟨?_, rfl, by simpa using hcount⟩
    simp only [List.count_nil, Nat.zero_add] at hcount
    rw [hcount] at hmem
    by_cases hhit : 0 < hits e (numbersOf uuid refs)
    · cases hfree : b.freesInPlace uuid e with
      | true => simp [hhit]
      | false =>
        rw [hfree] at hmem
        simp only [Bool.and_false, Bool.false_eq_true, if_false] at hmem
        rw [if_pos (hmem.1 hhit)]
        simp [hhit]
    · have hnot : uuid ∉ (refs.foldl (dropOne true) (b, {})).2.uuids := by
        rw [← hmem]
        split <;> omega
      rw [if_neg hnot]
      simp [hhit]

omit [DecidableEq Rid] in
/-- Two bookkeepers with the same tables. -/
theorem ext_tables {b b' : Bookkeeping Rid T} (hinfo : b.refInfo = b'.refInfo)
    (hstored : b.stored = b'.stored) (howned : b.owned = b'.owned) : b = b' := by
  cases b
  cases b'
  simp only at hinfo hstored howned
  rw [hinfo, hstored, howned]

/-- The first entry of a batch may as well go in a batch of its own. -/
theorem dropRefs_cons {b : Bookkeeping Rid T} (h : b.Inverse) (ref : ℕ × ℤ)
    (refs : List (ℕ × ℤ)) (cleanup : Bool) :
    (b.dropRefs (ref :: refs) cleanup).1 =
      ((b.dropRefs [ref] cleanup).1.dropRefs refs cleanup).1 := by
  obtain ⟨other, n⟩ := ref
  have hone := h.dropRefs [(other, n)] cleanup
  have hat : ∀ uuid, (b.dropRefs ((other, n) :: refs) cleanup).1.refInfo uuid =
        ((b.dropRefs [(other, n)] cleanup).1.dropRefs refs cleanup).1.refInfo uuid ∧
      (b.dropRefs ((other, n) :: refs) cleanup).1.stored uuid =
        ((b.dropRefs [(other, n)] cleanup).1.dropRefs refs cleanup).1.stored uuid := by
    intro uuid
    cases hinfo : b.refInfo uuid with
    | none =>
      obtain ⟨hall, hallStored, _⟩ := dropRefs_untracked ((other, n) :: refs) cleanup hinfo
      obtain ⟨hfirst, hfirstStored, _⟩ := dropRefs_untracked [(other, n)] cleanup hinfo
      obtain ⟨hrest, hrestStored, _⟩ := dropRefs_untracked refs cleanup hfirst
      exact ⟨hall.trans hrest.symm, by rw [hallStored, hrestStored, hfirstStored]⟩
    | some e =>
      obtain ⟨hall, hallStored, _⟩ := dropRefs_tracked ((other, n) :: refs) cleanup hinfo
      obtain ⟨hfirst, hfirstStored, _⟩ := dropRefs_tracked [(other, n)] cleanup hinfo
      rw [hall, hallStored]
      by_cases hu : other = uuid
      · subst hu
        rw [numbersOf_cons_self] at hall hfirst hfirstStored ⊢
        have hnil : numbersOf other [] = [] := rfl
        rw [hnil] at hfirst hfirstStored
        by_cases hgone : cleanup = true ∧ 0 < hits e [n]
        · have hboth : 0 < hits e (n :: numbersOf other refs) := by
            have hfew := hgone.2
            unfold hits at hfew ⊢
            by_cases hp : e.persist = true
            · simp [hp] at hfew
            · simp only [if_neg hp, lowTimes] at hfew ⊢
              omega
          rw [if_pos hgone] at hfirst
          obtain ⟨hrest, hrestStored, _⟩ := dropRefs_untracked refs cleanup hfirst
          rw [hrest, hrestStored, hfirstStored]
          simp [hgone.1, hgone.2, hboth]
        · rw [if_neg hgone] at hfirst
          have hkept : (b.dropRefs [(other, n)] cleanup).1.stored other = b.stored other := by
            rw [hfirstStored, if_neg]
            intro hfree
            rw [Bool.and_eq_true] at hfree
            exact hgone ⟨hfree.1.1, hfree.2⟩
          obtain ⟨hrest, hrestStored, _⟩ := dropRefs_tracked refs cleanup hfirst
          have hsame : (b.dropRefs [(other, n)] cleanup).1.freesInPlace other
              { e with refCount := finalCount i64 e.refCount [n] } = b.freesInPlace other e := by
            simp only [freesInPlace, hkept]
          rw [hsame] at hrestStored
          rw [hrest, hrestStored, hkept]
          by_cases hclean : cleanup = true
          · have hhits : hits e (n :: numbersOf other refs) =
                hits { e with refCount := finalCount i64 e.refCount [n] }
                  (numbersOf other refs) := by
              have hnone : ¬0 < hits e [n] := fun hlow => hgone ⟨hclean, hlow⟩
              unfold hits at hnone ⊢
              by_cases hp : e.persist = true
              · simp [hp]
              · simp only [if_neg hp, lowTimes, finalCount, List.foldl_cons, List.foldl_nil]
                  at hnone ⊢
                omega
            rw [hhits]
            exact ⟨rfl, rfl⟩
          · rw [Bool.not_eq_true] at hclean
            subst hclean
            constructor
            · rfl
            · simp
      · rw [numbersOf_cons_ne hu] at hfirst hfirstStored ⊢
        have hnone : ¬0 < hits e (numbersOf uuid []) := by
          simp [hits, numbersOf, lowTimes]
        rw [if_neg fun hboth => hnone hboth.2] at hfirst hfirstStored
        obtain ⟨hrest, hrestStored, _⟩ := dropRefs_tracked refs cleanup hfirst
        have hsame : (b.dropRefs [(other, n)] cleanup).1.freesInPlace uuid e =
            b.freesInPlace uuid e := by simp only [freesInPlace, hfirstStored]
        have hcount : finalCount i64 e.refCount (numbersOf uuid []) = e.refCount := rfl
        rw [hcount] at hrest hrestStored
        rw [hrest, hrestStored]
        rw [hsame, hfirstStored]
        exact ⟨rfl, rfl⟩
  have hinfo := funext fun uuid => (hat uuid).1
  have hstored := funext fun uuid => (hat uuid).2
  exact ext_tables hinfo hstored
    ((h.dropRefs _ cleanup).owned_eq (hone.dropRefs _ cleanup) hstored)

/-- A batched dereference leaves the same state as its entries one by one. -/
theorem dropRefs_each {b : Bookkeeping Rid T} (h : b.Inverse) (refs : List (ℕ × ℤ))
    (cleanup : Bool) :
    (b.dropRefs refs cleanup).1 =
      refs.foldl (fun b ref => (b.dropRefs [ref] cleanup).1) b := by
  induction refs generalizing b with
  | nil => cases cleanup <;> rfl
  | cons ref refs ih =>
    rw [dropRefs_cons h, List.foldl_cons]
    exact ih (h.dropRefs [ref] cleanup)

end Bookkeeping

namespace PythonTensorBookkeeping

variable {p : PythonTensorBookkeeping} {uuid : ℕ}

/-- How often a batch finds a uuid collectable. -/
def hits (info : PyReferenceInfo) (numbers : List ℤ) : ℕ :=
  if info.persist then 0 else lowTimes id info.refCnt numbers

/-- Another uuid's entry changes nothing. -/
theorem dropOne_other (acc : PythonTensorBookkeeping × Reported) {other : ℕ} (h : other ≠ uuid)
    (n : ℤ) : (dropOne acc (other, n)).1.refInfo uuid = acc.1.refInfo uuid ∧
      (dropOne acc (other, n)).2.uuids.count uuid = acc.2.uuids.count uuid := by
  have hlower : (acc.1.dereference other n).refInfo uuid = acc.1.refInfo uuid := by
    simp [dereference, onEntry, Ne.symm h]
  unfold dropOne
  cases acc.1.refInfo other with
  | none => exact ⟨rfl, rfl⟩
  | some info =>
    dsimp only
    split
    · exact ⟨hlower, rfl⟩
    · refine ⟨hlower, ?_⟩
      simp [List.count_append, h]

/-- What the loop of a batch does to a uuid: its count runs down, and it is
reported each time it is collectable. -/
theorem foldl_dropOne (uuid : ℕ) (acc : PythonTensorBookkeeping × Reported)
    (refs : List (ℕ × ℤ)) :
    (refs.foldl dropOne acc).1.refInfo uuid = (acc.1.refInfo uuid).map (fun info =>
        { info with refCnt := finalCount id info.refCnt (numbersOf uuid refs) }) ∧
      (refs.foldl dropOne acc).2.uuids.count uuid = acc.2.uuids.count uuid +
        ((acc.1.refInfo uuid).map fun info => hits info (numbersOf uuid refs)).getD 0 := by
  induction refs generalizing acc with
  | nil =>
    have hnone : ∀ info, hits info (numbersOf uuid []) = 0 := by
      intro info
      simp [hits, numbersOf, lowTimes]
    simp only [hnone, List.foldl_nil]
    cases acc.1.refInfo uuid <;> simp [finalCount, numbersOf]
  | cons ref refs ih =>
    obtain ⟨other, n⟩ := ref
    rw [List.foldl_cons]
    obtain ⟨hrest, hcount⟩ := ih (dropOne acc (other, n))
    by_cases hu : other = uuid
    · subst hu
      rw [hrest, hcount, numbersOf_cons_self]
      cases hinfo : acc.1.refInfo other with
      | none => simp [dropOne, hinfo]
      | some info =>
        have hlower : (acc.1.dereference other n).refInfo other =
            some { info with refCnt := info.refCnt - n } := by
          simp [dereference, onEntry, hinfo]
        by_cases hstay : info.refCnt - n > 0 ∨ info.persist
        · have hred : dropOne acc (other, n) = (acc.1.dereference other n, acc.2) := by
            simp only [dropOne, hinfo, if_pos hstay]
          have hsame : hits info (n :: numbersOf other refs) =
              hits { info with refCnt := info.refCnt - n } (numbersOf other refs) := by
            unfold hits
            by_cases hp : info.persist = true
            · simp [hp]
            · have hpos := hstay.resolve_right hp
              have hlow : ¬info.refCnt - n ≤ 0 := not_le.2 hpos
              simp [hp, lowTimes, hlow]
          rw [hred, hlower, Option.map_some, Option.map_some, Option.map_some, Option.getD_some,
            Option.map_some, Option.getD_some, hsame]
          exact ⟨rfl, rfl⟩
        · have hred : dropOne acc (other, n) = (acc.1.dereference other n,
              ⟨acc.2.uuids ++ [other], acc.2.registered ++ [info.memRegistered]⟩) := by
            simp only [dropOne, hinfo, if_neg hstay]
          have hhit : hits info (n :: numbersOf other refs) =
              hits { info with refCnt := info.refCnt - n } (numbersOf other refs) + 1 := by
            push Not at hstay
            unfold hits
            simp [hstay.2, lowTimes, hstay.1]
            omega
          rw [hred]
          rw [hlower, Option.map_some, Option.map_some, Option.map_some, Option.getD_some,
            Option.map_some, Option.getD_some, hhit, List.count_append, List.count_singleton_self]
          exact ⟨rfl, by omega⟩
    · obtain ⟨hinfo, hsame⟩ := dropOne_other acc hu n
      rw [hrest, hcount, numbersOf_cons_ne hu, hinfo, hsame]
      exact ⟨rfl, rfl⟩

/-- Forgetting uuids one after the other. -/
theorem foldl_forgetTensor (p : PythonTensorBookkeeping) (uuids : List ℕ) (uuid : ℕ) :
    (uuids.foldl forgetTensor p).refInfo uuid =
      if uuid ∈ uuids then none else p.refInfo uuid := by
  induction uuids generalizing p with
  | nil => simp
  | cons other uuids ih =>
    rw [List.foldl_cons, ih]
    by_cases hu : uuid = other
    · simp [hu, forgetTensor]
    · simp [hu, forgetTensor]

end PythonTensorBookkeeping

end Mstar.TensorBooks
