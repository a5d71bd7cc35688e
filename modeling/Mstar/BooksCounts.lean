import Mstar.BooksAgree

/-!
# Counts in step

Increments and dereferences keep the two bookkeepers in agreement while the
counts stay in the 64-bit range. A batch is followed uuid by uuid: each ends
with the same count on both sides, and is gone from both or from neither.
-/

namespace Mstar.TensorBooks

variable {Rid T : Type} [DecidableEq Rid] {t : TensorStore Rid T} {b : Bookkeeping Rid T}

/-- What a call reports. -/
def reportOf : Except Refused Reported → Reported
  | .ok reported => reported
  | .error _ => {}

omit [DecidableEq Rid] in
/-- Counting fewer references, in range. -/
theorem Agrees.dereference (h : Agrees t b) {uuid : ℕ} {n : ℤ}
    (hrange : ∀ e, b.refInfo uuid = some e → InRange (e.refCount - n)) :
    Agrees { t with bookkeeping := t.bookkeeping.dereference uuid n } (b.dereference uuid n) := by
  have hwrap : ∀ e, b.refInfo uuid = some e → i64 (e.refCount - n) = e.refCount - n :=
    fun e he => i64_of_fits (hrange e he).1 (hrange e he).2
  refine h.onEntry uuid (fun e he => ?_) fun e he => ?_
  · simp [ReferenceInfo.seen, hwrap e he]
  · change InRange (i64 (e.refCount - n))
    rw [hwrap e he]
    exact hrange e he

/-- Increments in range: none of an untracked uuid is negative, and up to the
first that is refused no count leaves the 64-bit range. -/
def IncrementsFit : Bookkeeping Rid T → List (ℕ × ℤ) → Prop
  | _, [] => True
  | b, (uuid, n) :: refs =>
    (b.refInfo uuid = none → 0 ≤ n) ∧
      (0 ≤ n → (∀ e, b.refInfo uuid = some e → InRange (e.refCount + n)) ∧
        IncrementsFit (b.incrementRef uuid n).1 refs)

/-- Python's increment of a number that is not negative. -/
theorem PythonTensorBookkeeping.incrementRef_of_nonneg (p : PythonTensorBookkeeping) (uuid : ℕ)
    {n : ℤ} (hn : 0 ≤ n) :
    p.incrementRef uuid n =
      (p.onEntry uuid fun info => { info with refCnt := info.refCnt + n }, none) := by
  unfold incrementRef
  cases hinfo : p.refInfo uuid with
  | none =>
    have hsame : p.onEntry uuid (fun info => { info with refCnt := info.refCnt + n }) = p := by
      have hupdate := Function.update_eq_self uuid p.refInfo
      rw [hinfo] at hupdate
      simp only [onEntry, hinfo, Option.map_none, hupdate]
    rw [hsame]
  | some info => simp [not_lt.2 hn]

omit [DecidableEq Rid] in
/-- A batch of one increment in Rust. -/
theorem Bookkeeping.incrementEach_one (b : Bookkeeping Rid T) (uuid : ℕ) (n : ℤ) :
    b.incrementEach [(uuid, n)] = b.incrementRef uuid n := by
  unfold incrementEach
  generalize b.incrementRef uuid n = out
  obtain ⟨out, refused⟩ := out
  cases refused <;> rfl

/-- A batch of one increment in Python. -/
theorem PythonTensorBookkeeping.incrementEach_one (p : PythonTensorBookkeeping) (uuid : ℕ)
    (n : ℤ) : p.incrementEach [(uuid, n)] = p.incrementRef uuid n := by
  unfold incrementEach
  generalize p.incrementRef uuid n = out
  obtain ⟨out, refused⟩ := out
  cases refused <;> rfl

omit [DecidableEq Rid] in
/-- A batch of increments with parallel columns in Rust. -/
theorem Bookkeeping.incrementRefBatch_eq (b : Bookkeeping Rid T) {uuids : List ℕ}
    {counts : List ℤ} (hlength : uuids.length = counts.length) :
    b.incrementRefBatch uuids counts = b.incrementEach (uuids.zip counts) :=
  if_neg (not_not.2 hlength)

/-- A batch of increments with parallel columns in Python. -/
theorem PythonTensorBookkeeping.incrementRefBatch_eq (p : PythonTensorBookkeeping)
    {uuids : List ℕ} {counts : List ℤ} (hlength : uuids.length = counts.length) :
    p.incrementRefBatch uuids counts = p.incrementEach (uuids.zip counts) := by
  unfold incrementRefBatch
  rw [if_neg (not_not.2 hlength)]
  generalize p.incrementEach (uuids.zip counts) = out
  obtain ⟨out, refused⟩ := out
  cases refused <;> rfl

omit [DecidableEq Rid] in
/-- Counting more references, in range. -/
theorem Agrees.increments (h : Agrees t b) {refs : List (ℕ × ℤ)} (hfit : IncrementsFit b refs) :
    Agrees { t with bookkeeping := (t.bookkeeping.incrementEach refs).1 }
        (b.incrementEach refs).1 ∧
      (t.bookkeeping.incrementEach refs).2.isSome = (b.incrementEach refs).2.isSome := by
  induction refs generalizing t b with
  | nil => exact ⟨h, rfl⟩
  | cons ref refs ih =>
    obtain ⟨uuid, n⟩ := ref
    obtain ⟨hneg, hrest⟩ := hfit
    by_cases hn : n < 0
    · have htracked : ∃ e, b.refInfo uuid = some e := by
        cases hinfo : b.refInfo uuid with
        | none => exact absurd (hneg hinfo) (not_le.2 hn)
        | some e => exact ⟨e, rfl⟩
      obtain ⟨e, he⟩ := htracked
      have hpy : t.bookkeeping.refInfo uuid = some e.seen := by
        rw [h.records, he]
        rfl
      simp only [PythonTensorBookkeeping.incrementEach, PythonTensorBookkeeping.incrementRef, hpy,
        Bookkeeping.incrementEach, Bookkeeping.incrementRef, if_pos hn]
      exact ⟨h, rfl⟩
    · have hn' := not_lt.1 hn
      obtain ⟨hrange, htail⟩ := hrest hn'
      have hrust : b.incrementRef uuid n =
          (b.onEntry uuid fun e => { e with refCount := i64 (e.refCount + n) }, none) := by
        simp [Bookkeeping.incrementRef, hn]
      have hpy := t.bookkeeping.incrementRef_of_nonneg uuid hn'
      have hwrap : ∀ e, b.refInfo uuid = some e → i64 (e.refCount + n) = e.refCount + n :=
        fun e he => i64_of_fits (hrange e he).1 (hrange e he).2
      have hone : Agrees { t with bookkeeping := (t.bookkeeping.incrementRef uuid n).1 }
          (b.incrementRef uuid n).1 := by
        rw [hrust, hpy]
        refine h.onEntry uuid (fun e he => ?_) fun e he => ?_
        · simp [ReferenceInfo.seen, hwrap e he]
        · change InRange (i64 (e.refCount + n))
          rw [hwrap e he]
          exact hrange e he
      have hagain := ih hone htail
      simp only [PythonTensorBookkeeping.incrementEach, Bookkeeping.incrementEach]
      rw [hrust, hpy] at hagain ⊢
      exact hagain

namespace PythonTensorBookkeeping

variable {p : PythonTensorBookkeeping} {uuid : ℕ}

/-- A batch does nothing to a uuid that is not tracked. -/
theorem dropRefs_untracked (refs : List (ℕ × ℤ)) (cleanup : Bool) (h : p.refInfo uuid = none) :
    (p.dropRefs refs false cleanup).1.refInfo uuid = none ∧
      (reportOf (p.dropRefs refs false cleanup).2).uuids.count uuid = 0 := by
  obtain ⟨hinfo, hcount⟩ := foldl_dropOne uuid (p, {}) refs
  rw [h] at hinfo hcount
  unfold dropRefs
  refine ⟨?_, by simpa [reportOf] using hcount⟩
  cases cleanup with
  | false => simpa using hinfo
  | true =>
    simp only [Bool.false_eq_true, if_false, if_true]
    rw [foldl_forgetTensor, hinfo]
    simp

/-- What a batch does to a tracked uuid: it is gone once it was collectable,
if the batch cleans up, and is reported once for each time. -/
theorem dropRefs_tracked {info : PyReferenceInfo} (refs : List (ℕ × ℤ)) (cleanup : Bool)
    (h : p.refInfo uuid = some info) :
    (p.dropRefs refs false cleanup).1.refInfo uuid =
        (if cleanup = true ∧ 0 < hits info (numbersOf uuid refs) then none
        else some { info with refCnt := finalCount id info.refCnt (numbersOf uuid refs) }) ∧
      (reportOf (p.dropRefs refs false cleanup).2).uuids.count uuid =
        hits info (numbersOf uuid refs) := by
  obtain ⟨hinfo, hcount⟩ := foldl_dropOne uuid (p, {}) refs
  rw [h] at hinfo hcount
  simp only [Option.map_some, Option.getD_some, List.count_nil, Nat.zero_add] at hinfo hcount
  have hmem : 0 < (refs.foldl dropOne (p, {})).2.uuids.count uuid ↔
      uuid ∈ (refs.foldl dropOne (p, {})).2.uuids := List.count_pos_iff
  rw [hcount] at hmem
  unfold dropRefs
  refine ⟨?_, hcount⟩
  cases cleanup with
  | false => simpa using hinfo
  | true =>
    simp only [Bool.false_eq_true, if_false, if_true, true_and]
    rw [foldl_forgetTensor, hinfo]
    by_cases hhit : 0 < hits info (numbersOf uuid refs)
    · rw [if_pos (hmem.1 hhit), if_pos hhit]
    · rw [if_neg fun hin => hhit (hmem.2 hin), if_neg hhit]

end PythonTensorBookkeeping

/-- A batch of dereferences with parallel columns in Rust. -/
theorem Bookkeeping.dereferenceBatch_eq (b : Bookkeeping Rid T) {uuids : List ℕ}
    {counts : List ℤ} (hlength : uuids.length = counts.length) (cleanup : Bool) :
    b.dereferenceBatch uuids counts cleanup =
      ((b.dropRefs (uuids.zip counts) cleanup).1,
        .ok (b.dropRefs (uuids.zip counts) cleanup).2) :=
  if_neg (not_not.2 hlength)

/-- A batch of dereferences with parallel columns in Python. -/
theorem PythonTensorBookkeeping.dereferenceBatch_eq (p : PythonTensorBookkeeping)
    {uuids : List ℕ} {counts : List ℤ} (hlength : uuids.length = counts.length) (cleanup : Bool) :
    p.dereferenceBatch uuids counts cleanup = p.dropRefs (uuids.zip counts) false cleanup := by
  unfold dereferenceBatch
  rw [decide_eq_false (not_not.2 hlength)]

/-- The counts a batch runs through are in range. -/
def DropsFit (b : Bookkeeping Rid T) (refs : List (ℕ × ℤ)) : Prop :=
  ∀ uuid e, b.refInfo uuid = some e → Fits e.refCount (numbersOf uuid refs)

omit [DecidableEq Rid] in
/-- Both find a uuid collectable equally often. -/
theorem DropsFit.hits_eq {refs : List (ℕ × ℤ)} (h : DropsFit b refs) {uuid : ℕ}
    {e : ReferenceInfo} (he : b.refInfo uuid = some e) :
    PythonTensorBookkeeping.hits e.seen (numbersOf uuid refs) =
      Bookkeeping.hits e (numbersOf uuid refs) := by
  unfold PythonTensorBookkeeping.hits Bookkeeping.hits
  rw [(h uuid e he).lowTimes]
  rfl

omit [DecidableEq Rid] in
/-- What the Python store keeps of a batch. -/
theorem collected_ok (t : TensorStore Rid T) (refs : List (ℕ × ℤ)) (cleanup : Bool) (uuid : ℕ) :
    (t.collected cleanup (t.bookkeeping.dropRefs refs false cleanup)).1.bookkeeping =
        (t.bookkeeping.dropRefs refs false cleanup).1 ∧
      (uuid ∈ (t.collected cleanup (t.bookkeeping.dropRefs refs false cleanup)).1.forgotten ↔
        uuid ∈ t.forgotten ∨ cleanup = true ∧
          0 < (reportOf (t.bookkeeping.dropRefs refs false cleanup).2).uuids.count uuid) := by
  have hshape : ∃ out reported,
      t.bookkeeping.dropRefs refs false cleanup = (out, .ok reported) := ⟨_, _, rfl⟩
  obtain ⟨out, reported, hout⟩ := hshape
  rw [hout]
  refine ⟨rfl, ?_⟩
  cases cleanup with
  | false => simp [TensorStore.collected]
  | true => simp [TensorStore.collected, reportOf, List.count_pos_iff]

/-- References dropped in a batch. -/
theorem Agrees.dropRefs (h : Agrees t b) {refs : List (ℕ × ℤ)} (hfit : DropsFit b refs)
    (cleanup : Bool) :
    Agrees (t.collected cleanup (t.bookkeeping.dropRefs refs false cleanup)).1
      (b.dropRefs refs cleanup).1 := by
  have hbook := fun uuid => (collected_ok t refs cleanup uuid).1
  have hforgot := fun uuid => (collected_ok t refs cleanup uuid).2
  constructor
  · intro uuid
    rw [hbook uuid]
    cases hinfo : b.refInfo uuid with
    | none =>
      have hpy : t.bookkeeping.refInfo uuid = none := by
        rw [h.records, hinfo]
        rfl
      rw [(PythonTensorBookkeeping.dropRefs_untracked refs cleanup hpy).1,
        (Bookkeeping.dropRefs_untracked refs cleanup hinfo).1]
      rfl
    | some e =>
      have hpy : t.bookkeeping.refInfo uuid = some e.seen := by
        rw [h.records, hinfo]
        rfl
      rw [(PythonTensorBookkeeping.dropRefs_tracked refs cleanup hpy).1,
        (Bookkeeping.dropRefs_tracked refs cleanup hinfo).1, hfit.hits_eq hinfo]
      split
      · rfl
      · rw [Option.map_some, (hfit uuid e hinfo).final]
        rfl
  · intro uuid e he
    cases hinfo : b.refInfo uuid with
    | none =>
      rw [(Bookkeeping.dropRefs_untracked refs cleanup hinfo).1] at he
      cases he
    | some e₀ =>
      rw [(Bookkeeping.dropRefs_tracked refs cleanup hinfo).1] at he
      split at he
      · cases he
      · cases he
        have hold := h.range uuid e₀ hinfo
        rw [(hfit uuid e₀ hinfo).final]
        exact (hfit uuid e₀ hinfo).final_range hold.1 hold.2
  · exact h.inverse.dropRefs refs cleanup
  · exact h.owned.congr rfl rfl rfl
  · intro uuid s rid hs hrid
    have hold : b.stored uuid = some s := by
      cases hinfo : b.refInfo uuid with
      | none => rwa [(Bookkeeping.dropRefs_untracked refs cleanup hinfo).2.1] at hs
      | some e =>
        rw [(Bookkeeping.dropRefs_tracked refs cleanup hinfo).2.1] at hs
        split at hs
        · cases hs
        · exact hs
    exact h.both uuid s rid hold hrid
  · intro uuid hnot hsome
    rw [hforgot, not_or] at hnot
    have hold := h.kept uuid hnot.1 hsome
    cases hinfo : b.refInfo uuid with
    | none => rwa [(Bookkeeping.dropRefs_untracked refs cleanup hinfo).2.1]
    | some e =>
      have hpy : t.bookkeeping.refInfo uuid = some e.seen := by
        rw [h.records, hinfo]
        rfl
      have hquiet := hnot.2
      rw [(PythonTensorBookkeeping.dropRefs_tracked refs cleanup hpy).2, hfit.hits_eq hinfo]
        at hquiet
      rw [(Bookkeeping.dropRefs_tracked refs cleanup hinfo).2.1, if_neg]
      · exact hold
      · intro hfreed
        rw [Bool.and_eq_true] at hfreed
        exact hquiet ⟨hfreed.1.1, hfreed.2⟩
  · intro uuid hnot
    cases hinfo : b.refInfo uuid with
    | none => exact (Bookkeeping.dropRefs_untracked refs cleanup hinfo).1
    | some e =>
      have hpy : t.bookkeeping.refInfo uuid = some e.seen := by
        rw [h.records, hinfo]
        rfl
      obtain ⟨hrec, hstored, _⟩ := Bookkeeping.dropRefs_tracked refs cleanup hinfo
      have hcount := (PythonTensorBookkeeping.dropRefs_tracked refs cleanup hpy).2
      rw [hfit.hits_eq hinfo] at hcount
      rw [hrec]
      by_cases hgone : cleanup = true ∧ 0 < Bookkeeping.hits e (numbersOf uuid refs)
      · rw [if_pos hgone]
      · -- a tracked uuid had no teardown outstanding, and still has none
        have hs : Settled t b uuid := by
          by_contra hun
          rw [(h.untracked hun).2] at hinfo
          cases hinfo
        refine absurd ⟨?_, ?_⟩ hnot
        · rw [hforgot, hcount]
          exact not_or.2 ⟨hs.1, hgone⟩
        · rw [hstored, if_neg]
          · exact hs.2
          · intro hfreed
            rw [Bool.and_eq_true] at hfreed
            exact hgone ⟨hfreed.1.1, hfreed.2⟩

end Mstar.TensorBooks
