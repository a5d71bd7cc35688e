import Mathlib.Data.Finset.Sort
import Mstar.BookItems

/-!
# The Rust bookkeeper refines the Python reference

A call that cleans up takes down what it finds collectable: the tensor is
dropped in the call, or its uuid is reported for teardown and the tensor kept
until then. Each is reported once as long as a batch finds none of those it
reports collectable a second time. After any run of proper calls the two
bookkeepers agree, the ownership indexes are inverse, and the next proper call
is its items one by one, takes each uuid down once, and reports what Python
reports but for what it drops.
-/

namespace Mstar.TensorBooks

variable {Rid T : Type}

/-- A batch leaves some entry of an unpersisted uuid with a count at zero or
below. -/
def TakenToZero (b : Bookkeeping Rid T) (refs : List (ℕ × ℤ)) (uuid : ℕ) : Prop :=
  ∃ e, b.refInfo uuid = some e ∧ e.persist = false ∧
    0 < lowTimes id e.refCount (numbersOf uuid refs)

/-- The calls that take down what they find collectable. -/
def Call.CleansUp : Call Rid T → Prop
  | .dereferenceBatch _ _ cleanup | .dereferenceBatchUniform _ _ cleanup => cleanup = true
  | .releaseRequest _ _ => True
  | _ => False

/-- The uuids such a call takes down: those a batch takes to zero, and those of
a released request that are collectable or forced. -/
def TakesDown (b : Bookkeeping Rid T) : Call Rid T → ℕ → Prop
  | .dereferenceBatch uuids counts _, uuid => TakenToZero b (uuids.zip counts) uuid
  | .dereferenceBatchUniform uuids n _, uuid =>
    TakenToZero b (uuids.map fun u => (u, n)) uuid
  | .releaseRequest rid force, uuid =>
    (b.stored uuid).map (·.rid) = some rid ∧ (b.canGc uuid = true ∨ force = true)
  | _, _ => False

/-- The tensor was held before and is not held any more. -/
def DroppedIn (b b' : Bookkeeping Rid T) (uuid : ℕ) : Prop :=
  (b.stored uuid).isSome ∧ b'.stored uuid = none

/-- The record is gone, and the tensor was dropped and not reported, or
reported once and kept. -/
def GoneOnce (b b' : Bookkeeping Rid T) (reported : Reported) (uuid : ℕ) : Prop :=
  b'.refInfo uuid = none ∧
    (DroppedIn b b' uuid ∧ reported.uuids.count uuid = 0 ∨
      b'.stored uuid = b.stored uuid ∧ reported.uuids.count uuid = 1)

/-- The tensor was neither dropped nor reported. -/
def LeftAlone (b b' : Bookkeeping Rid T) (reported : Reported) (uuid : ℕ) : Prop :=
  b'.stored uuid = b.stored uuid ∧ reported.uuids.count uuid = 0

variable [DecidableEq Rid] {t : TensorStore Rid T} {b : Bookkeeping Rid T}

/-- A batch with cleanup takes each uuid down once. -/
theorem dropRefs_gone {refs : List (ℕ × ℤ)} (hproper : DropsProper b refs true) (uuid : ℕ) :
    (TakenToZero b refs uuid →
      GoneOnce b (b.dropRefs refs true).1 (b.dropRefs refs true).2 uuid) ∧
    (¬TakenToZero b refs uuid →
      LeftAlone b (b.dropRefs refs true).1 (b.dropRefs refs true).2 uuid) := by
  obtain ⟨hfit, honce⟩ := hproper
  cases hinfo : b.refInfo uuid with
  | none =>
    constructor
    · rintro ⟨e, he, _⟩
      rw [hinfo] at he
      cases he
    · intro _
      exact (Bookkeeping.dropRefs_untracked refs true hinfo).2
  | some e =>
    obtain ⟨hrec, hstored, hcount⟩ := Bookkeeping.dropRefs_tracked refs true hinfo
    have htaken : TakenToZero b refs uuid ↔ 0 < Bookkeeping.hits e (numbersOf uuid refs) := by
      unfold TakenToZero Bookkeeping.hits
      rw [(hfit uuid e hinfo).lowTimes, hinfo]
      cases hp : e.persist with
      | true => simp [hp]
      | false => simp [hp]
    rw [htaken]
    constructor
    · intro hhit
      rw [if_pos ⟨rfl, hhit⟩] at hrec
      refine ⟨hrec, ?_⟩
      cases hfree : b.freesInPlace uuid e with
      | true =>
        rw [if_pos ⟨by simp [hfree], hhit⟩] at hstored
        rw [if_pos (by simp [hfree])] at hcount
        unfold Bookkeeping.freesInPlace at hfree
        simp only [Bool.and_eq_true] at hfree
        exact Or.inl ⟨⟨hfree.1.1, hstored⟩, hcount⟩
      | false =>
        rw [if_neg (by simp [hfree])] at hstored hcount
        have hp : e.persist = false := by
          cases hp : e.persist with
          | false => rfl
          | true => simp [Bookkeeping.hits, hp] at hhit
        have hfew := honce rfl uuid e hinfo hp hfree
        rw [← (hfit uuid e hinfo).lowTimes] at hfew
        simp only [Bookkeeping.hits, hp, Bool.false_eq_true, if_false] at hhit hcount
        exact Or.inr ⟨hstored, by omega⟩
    · intro hnone
      rw [if_neg fun hboth => hnone hboth.2] at hstored
      refine ⟨hstored, ?_⟩
      rw [hcount]
      split <;> omega

/-- A release takes each uuid down once. -/
theorem releaseRequest_gone (h : b.Inverse) (order : SetOrder) (rid : Rid) (force : Bool)
    (uuid : ℕ) :
    (TakesDown b (.releaseRequest rid force) uuid →
      GoneOnce b (b.releaseRequest order rid force).1 (b.releaseRequest order rid force).2 uuid) ∧
    (¬TakesDown b (.releaseRequest rid force) uuid →
      LeftAlone b (b.releaseRequest order rid force).1
        (b.releaseRequest order rid force).2 uuid) := by
  have hview := b.view_releaseRequest h order rid force uuid
  have hreleased : Bookkeeping.released force (Bookkeeping.view (b, {}) uuid) =
      if (!b.canGc uuid && !force) = true then (b.refInfo uuid, b.stored uuid, 0)
      else if (b.isRegistered uuid || (b.refInfo uuid).any fun e => e.teardown) = true then
        (none, b.stored uuid, 1)
      else (none, none, 0) := rfl
  have hold : Bookkeeping.view (b, {}) uuid = (b.refInfo uuid, b.stored uuid, 0) := rfl
  rw [hreleased, hold] at hview
  unfold Bookkeeping.view at hview
  unfold TakesDown GoneOnce LeftAlone DroppedIn
  generalize b.releaseRequest order rid force = out at hview ⊢
  by_cases hmine : (b.stored uuid).map (·.rid) = some rid
  · rw [if_pos hmine] at hview
    by_cases hstay : (!b.canGc uuid && !force) = true
    · have hnone : ¬(b.canGc uuid = true ∨ force = true) := by
        intro hgo
        simp only [Bool.and_eq_true, Bool.not_eq_true'] at hstay
        rcases hgo with hgo | hgo
        · rw [hstay.1] at hgo
          cases hgo
        · rw [hstay.2] at hgo
          cases hgo
      rw [if_pos hstay] at hview
      simp only [Prod.mk.injEq] at hview
      exact ⟨fun htake => absurd htake.2 hnone, fun _ => hview.2⟩
    · have hgo : b.canGc uuid = true ∨ force = true := by
        simp only [Bool.and_eq_true, Bool.not_eq_true', not_and_or, Bool.not_eq_false] at hstay
        exact hstay
      rw [if_neg hstay] at hview
      refine ⟨fun _ => ?_, fun hnot => absurd ⟨hmine, hgo⟩ hnot⟩
      obtain ⟨s, hstored, _⟩ := Option.map_eq_some_iff.1 hmine
      split at hview
      · simp only [Prod.mk.injEq] at hview
        exact ⟨hview.1, Or.inr hview.2⟩
      · simp only [Prod.mk.injEq] at hview
        exact ⟨hview.1, Or.inl ⟨⟨by rw [hstored]; rfl, hview.2.1⟩, hview.2.2⟩⟩
  · rw [if_neg hmine] at hview
    simp only [Prod.mk.injEq] at hview
    exact ⟨fun htake => absurd htake.1 hmine, fun _ => hview.2⟩

/-- A proper call that cleans up takes each uuid down once. -/
theorem call_gone {owed : Set ℕ} (h : b.Inverse) (order : SetOrder) {c : Call Rid T}
    (hproper : Proper owed t b c)
    (hclean : c.CleansUp) (uuid : ℕ) :
    (TakesDown b c uuid →
      GoneOnce b (b.call order c).1 (reportOf (b.call order c).2) uuid) ∧
    (¬TakesDown b c uuid →
      LeftAlone b (b.call order c).1 (reportOf (b.call order c).2) uuid) := by
  cases c with
  | dereferenceBatch uuids counts cleanup =>
    obtain ⟨hlength, hdrops⟩ := hproper
    have hc : cleanup = true := hclean
    subst hc
    have hgone := dropRefs_gone hdrops uuid
    unfold Bookkeeping.call
    dsimp only
    rw [b.dereferenceBatch_eq hlength]
    exact hgone
  | dereferenceBatchUniform uuids n cleanup =>
    have hc : cleanup = true := hclean
    subst hc
    exact dropRefs_gone hproper uuid
  | releaseRequest rid force => exact releaseRequest_gone h order rid force uuid
  | _ => exact absurd hclean id

/-- A batch reports what Python reports, but for what it drops. -/
theorem Agrees.dropRefs_reports (h : Agrees t b) {refs : List (ℕ × ℤ)} (hfit : DropsFit b refs)
    (cleanup : Bool) (uuid : ℕ) :
    (b.dropRefs refs cleanup).2.uuids.count uuid =
        (reportOf (t.bookkeeping.dropRefs refs false cleanup).2).uuids.count uuid ∨
      (b.dropRefs refs cleanup).2.uuids.count uuid = 0 ∧
        DroppedIn b (b.dropRefs refs cleanup).1 uuid := by
  cases hinfo : b.refInfo uuid with
  | none =>
    have hpy : t.bookkeeping.refInfo uuid = none := by
      rw [h.records, hinfo]
      rfl
    rw [(Bookkeeping.dropRefs_untracked refs cleanup hinfo).2.2,
      (PythonTensorBookkeeping.dropRefs_untracked refs cleanup hpy).2]
    exact Or.inl rfl
  | some e =>
    have hpy : t.bookkeeping.refInfo uuid = some e.seen := by
      rw [h.records, hinfo]
      rfl
    obtain ⟨_, hstored, hcount⟩ := Bookkeeping.dropRefs_tracked refs cleanup hinfo
    rw [(PythonTensorBookkeeping.dropRefs_tracked refs cleanup hpy).2, hfit.hits_eq hinfo]
    by_cases hfree : (cleanup && b.freesInPlace uuid e) = true
    · rw [if_pos hfree] at hcount
      by_cases hhit : 0 < Bookkeeping.hits e (numbersOf uuid refs)
      · rw [if_pos ⟨hfree, hhit⟩] at hstored
        simp only [Bookkeeping.freesInPlace, Bool.and_eq_true] at hfree
        exact Or.inr ⟨hcount, hfree.2.1.1, hstored⟩
      · exact Or.inl (by omega)
    · rw [if_neg hfree] at hcount
      exact Or.inl hcount

/-- A proper call is refused by both or by neither. -/
theorem Agrees.answers {owed : Set ℕ} (h : Agrees t b) (rsOrder pyOrder : SetOrder) {c : Call Rid T}
    (hproper : Proper owed t b c) : (b.call rsOrder c).2.isOk = (t.call pyOrder c).2.isOk := by
  have hanswer : ∀ {refused refused' : Option Refused}, refused'.isSome = refused.isSome →
      (answer refused).isOk = (answer refused').isOk := by
    intro refused refused' hsame
    cases refused <;> cases refused' <;> first | rfl | cases hsame
  cases c with
  | putStoredBatch rids uuids tensors =>
    unfold TensorStore.call Bookkeeping.call TensorStore.putStoredBatch Bookkeeping.putStoredBatch
    by_cases hrids : rids.length = uuids.length
    · by_cases htensors : tensors.length = uuids.length
      · simp [hrids, htensors]
      · simp [hrids, htensors, Ne.symm htensors]
    · simp [hrids]
  | incrementRef uuid n =>
    have hone := (h.increments hproper).2
    rw [t.bookkeeping.incrementEach_one, b.incrementEach_one] at hone
    exact hanswer hone
  | incrementRefBatch uuids counts =>
    have hall := (h.increments hproper.2).2
    rw [← t.bookkeeping.incrementRefBatch_eq hproper.1, ← b.incrementRefBatch_eq hproper.1] at hall
    exact hanswer hall
  | incrementRefBatchUniform uuids n => exact hanswer (h.increments hproper).2
  | dereferenceBatch uuids counts cleanup =>
    unfold Bookkeeping.call TensorStore.call
    dsimp only
    rw [b.dereferenceBatch_eq hproper.1, t.bookkeeping.dereferenceBatch_eq hproper.1]
    rfl
  | _ => rfl

/-- A proper call reports what Python reports, but for what it drops. A release
is torn down in the call in Python. -/
theorem Agrees.reports {owed : Set ℕ} (h : Agrees t b) (rsOrder pyOrder : SetOrder) {c : Call Rid T}
    (hproper : Proper owed t b c) (hc : ∀ rid force, c ≠ .releaseRequest rid force) (uuid : ℕ) :
    (reportOf (b.call rsOrder c).2).uuids.count uuid =
        (reportOf (t.call pyOrder c).2).uuids.count uuid ∨
      (reportOf (b.call rsOrder c).2).uuids.count uuid = 0 ∧
        DroppedIn b (b.call rsOrder c).1 uuid := by
  have hanswer : ∀ refused, (reportOf (answer refused)).uuids.count uuid = 0 := by
    intro refused
    cases refused <;> rfl
  cases c with
  | putStoredBatch rids uuids tensors => exact Or.inl ((hanswer _).trans (hanswer _).symm)
  | incrementRef uuid n => exact Or.inl ((hanswer _).trans (hanswer _).symm)
  | incrementRefBatch uuids counts => exact Or.inl ((hanswer _).trans (hanswer _).symm)
  | incrementRefBatchUniform uuids n => exact Or.inl ((hanswer _).trans (hanswer _).symm)
  | dereferenceBatch uuids counts cleanup =>
    have hdrop := h.dropRefs_reports hproper.2.1 cleanup uuid
    unfold Bookkeeping.call TensorStore.call
    dsimp only
    rw [b.dereferenceBatch_eq hproper.1, t.bookkeeping.dereferenceBatch_eq hproper.1]
    exact hdrop
  | dereferenceBatchUniform uuids n cleanup =>
    exact h.dropRefs_reports (hproper : DropsProper _ _ _).1 cleanup uuid
  | releaseRequest rid force => exact absurd rfl (hc rid force)
  | _ => exact Or.inl rfl

end Mstar.TensorBooks

namespace Mstar.TensorBooks

variable {Rid T : Type} [DecidableEq Rid]

/-- What holds of two stores after the same calls, and of the next one. -/
structure Refines (rsOrder pyOrder : SetOrder) (owed : Set ℕ) (t : TensorStore Rid T)
    (b : Bookkeeping Rid T) : Prop where
  /-- The same uuids are tracked, with the same counts and flags. -/
  records : ∀ uuid, t.bookkeeping.refInfo uuid = (b.refInfo uuid).map ReferenceInfo.seen
  /-- The same uuids are collectable. -/
  collectable : ∀ uuid, t.bookkeeping.canGc uuid = b.canGc uuid
  /-- The same tensors are held for the same requests, but for those that await their
  `remove_tensor`. -/
  tensors : ∀ uuid ∉ owed, t.tensors uuid = (b.stored uuid).map (·.tensor) ∧
    t.uuidToRid uuid = (b.stored uuid).map (·.rid)
  /-- Only untracked uuids await it. -/
  tracked : ∀ uuid, (b.refInfo uuid).isSome → uuid ∉ owed
  /-- `remove_tensor` leaves neither a tensor nor an owner entry. -/
  removed : ∀ uuid, Removed (t.removeTensor uuid) (b.removeTensor uuid) uuid
  /-- The owners are inverse to the tensors, and no owner entry is empty. -/
  inverse : b.Inverse
  /-- A batched call leaves the state its items leave one by one. -/
  batched : ∀ c, Proper owed t b c → c.Parallel →
    (b.call rsOrder c).1 = b.callEach rsOrder c.items
  /-- What is taken down is dropped or reported once, never both. -/
  once : ∀ c, Proper owed t b c → c.CleansUp → ∀ uuid,
    (TakesDown b c uuid →
      GoneOnce b (b.call rsOrder c).1 (reportOf (b.call rsOrder c).2) uuid) ∧
    (¬TakesDown b c uuid →
      LeftAlone b (b.call rsOrder c).1 (reportOf (b.call rsOrder c).2) uuid)
  /-- The reports are the same, but for what Rust drops in the call. -/
  reports : ∀ c, Proper owed t b c → (∀ rid force, c ≠ .releaseRequest rid force) → ∀ uuid,
    (reportOf (b.call rsOrder c).2).uuids.count uuid =
        (reportOf (t.call pyOrder c).2).uuids.count uuid ∨
      (reportOf (b.call rsOrder c).2).uuids.count uuid = 0 ∧
        DroppedIn b (b.call rsOrder c).1 uuid
  /-- The same calls are refused. -/
  refused : ∀ c, Proper owed t b c → (b.call rsOrder c).2.isOk = (t.call pyOrder c).2.isOk

/-- The Rust bookkeeper refines the Python one over every run of proper
calls. -/
theorem books_refine {rsOrder pyOrder : SetOrder} {owed : Set ℕ} {t : TensorStore Rid T}
    {b : Bookkeeping Rid T} (h : Runs rsOrder pyOrder owed t b) :
    Refines rsOrder pyOrder owed t b := by
  obtain ⟨hagrees, hsettled⟩ := h.agrees
  constructor
  · exact hagrees.records
  · exact hagrees.canGc_eq
  · exact fun uuid hfree => hagrees.tensors_eq (hsettled uuid hfree)
  · intro uuid htracked howed
    rw [h.untracked_of_owed howed] at htracked
    cases htracked
  · exact hagrees.removed
  · exact hagrees.inverse
  · exact fun c _ hparallel => Bookkeeping.call_eq_items hagrees.inverse rsOrder hparallel
  · exact fun c hproper hclean => call_gone hagrees.inverse rsOrder hproper hclean
  · exact fun c hproper hc => hagrees.reports rsOrder pyOrder hproper hc
  · exact fun c hproper => hagrees.answers rsOrder pyOrder hproper

/-- Sets walked in ascending order. -/
def SetOrder.ascending : SetOrder where
  walk set := set.sort
  nodup set := set.sort_nodup _
  mem_walk set uuid := Finset.mem_sort _

/-- A tensor put for a request. -/
theorem runs_put :
    Runs SetOrder.ascending SetOrder.ascending
      (owedAfter ∅ (Bookkeeping.empty : Bookkeeping ℕ ℕ)
        (Bookkeeping.empty.call .ascending (.putStored 7 1 40)).1 (.putStored 7 1 40))
      ((TensorStore.empty : TensorStore ℕ ℕ).call .ascending (.putStored 7 1 40)).1
      ((Bookkeeping.empty : Bookkeeping ℕ ℕ).call .ascending (.putStored 7 1 40)).1 := by
  refine .call _ .start ⟨?_, ?_⟩
  · intro r hr
    cases hr
  · exact Finset.notMem_empty 1

/-- A tensor is put, and collectable on both sides. -/
theorem books_refine_put :
    ((TensorStore.empty : TensorStore ℕ ℕ).call .ascending (.putStored 7 1 40)).1.bookkeeping.canGc
        1 = true ∧
      ((Bookkeeping.empty : Bookkeeping ℕ ℕ).call .ascending (.putStored 7 1 40)).1.canGc 1 =
        true := by
  have hsame := (books_refine runs_put).collectable 1
  have hpy : ((TensorStore.empty : TensorStore ℕ ℕ).call .ascending
      (.putStored 7 1 40)).1.bookkeeping.canGc 1 = true := by decide
  exact ⟨hpy, hsame.symm.trans hpy⟩

/-- A registered tensor that a batch with cleanup names twice is reported for
teardown twice. -/
theorem registered_reported_twice :
    ∃ (owed : Set ℕ) (t : TensorStore ℕ ℕ) (b : Bookkeeping ℕ ℕ),
      Runs SetOrder.ascending SetOrder.ascending owed t b ∧
        TakesDown b (.dereferenceBatchUniform [1, 1] 1 true) 1 ∧
        (b.dereferenceBatchUniform [1, 1] 1 true).2 = ⟨[1, 1], [true, true]⟩ ∧
        ¬GoneOnce b (b.dereferenceBatchUniform [1, 1] 1 true).1
          (b.dereferenceBatchUniform [1, 1] 1 true).2 1 := by
  refine ⟨_, _, _, .call (.setMemRegistered 1 true) runs_put trivial, ?_, ?_, ?_⟩
  · exact ⟨⟨0, false, true, false⟩, rfl, rfl, by decide⟩
  · rfl
  · rintro ⟨_, ⟨_, hnone⟩ | ⟨_, hone⟩⟩
    · exact absurd hnone (by decide)
    · exact absurd hone (by decide)

end Mstar.TensorBooks
