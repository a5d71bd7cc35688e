import Mstar.BooksCounts

/-!
# Whole runs of the two bookkeepers

The same calls on both sides, one after the other. A call is proper when it
stays clear of what sets the two apart: a uuid put again before its teardown, a
tensor held again for another request, columns of different lengths, a negative
increment of a uuid nobody tracks, a count outside 64 bits, and a batch with
cleanup that finds a uuid it must report collectable more than once.
-/

namespace Mstar.TensorBooks

variable {Rid T : Type} [DecidableEq Rid] {t : TensorStore Rid T} {b : Bookkeeping Rid T}

/-- The entries a batch with cleanup reports are each collectable once at
most. -/
def ReportsOnce (b : Bookkeeping Rid T) (refs : List (ℕ × ℤ)) : Prop :=
  ∀ uuid e, b.refInfo uuid = some e → e.persist = false → b.freesInPlace uuid e = false →
    lowTimes id e.refCount (numbersOf uuid refs) ≤ 1

/-- The rows of a batched put: no other request answers for the tensor, and no
teardown is outstanding for it. -/
def RowsProper : TensorStore Rid T → List Rid → List ℕ → List T → Prop
  | t, rid :: rids, uuid :: uuids, tensor :: tensors =>
    t.OwnsAlone rid uuid ∧ uuid ∉ t.forgotten ∧
      RowsProper (t.putStored rid uuid tensor) rids uuids tensors
  | _, _, _, _ => True

/-- What a batched dereference may name. -/
def DropsProper (b : Bookkeeping Rid T) (refs : List (ℕ × ℤ)) (cleanup : Bool) : Prop :=
  DropsFit b refs ∧ (cleanup = true → ReportsOnce b refs)

/-- A call that stays clear of what sets the two apart, while the given uuids await their
`remove_tensor`. -/
def Proper (owed : Set ℕ) (t : TensorStore Rid T) (b : Bookkeeping Rid T) : Call Rid T → Prop
  | .putTensor uuid => uuid ∉ owed
  | .putStored rid uuid _ => t.OwnsAlone rid uuid ∧ uuid ∉ t.forgotten
  | .putTensorBatch uuids => ∀ uuid ∈ uuids, uuid ∉ owed
  | .putStoredBatch rids uuids tensors =>
    rids.length = uuids.length → tensors.length = uuids.length → RowsProper t rids uuids tensors
  | .own rid uuid _ => t.OwnsAlone rid uuid
  | .incrementRef uuid n => IncrementsFit b [(uuid, n)]
  | .incrementRefBatch uuids counts =>
    uuids.length = counts.length ∧ IncrementsFit b (uuids.zip counts)
  | .incrementRefBatchUniform uuids n => IncrementsFit b (uuids.map fun uuid => (uuid, n))
  | .dereference uuid n => ∀ e, b.refInfo uuid = some e → InRange (e.refCount - n)
  | .dereferenceBatch uuids counts cleanup =>
    uuids.length = counts.length ∧ DropsProper b (uuids.zip counts) cleanup
  | .dereferenceBatchUniform uuids n cleanup =>
    DropsProper b (uuids.map fun uuid => (uuid, n)) cleanup
  | .setPersist _ _ | .setMemRegistered _ _ | .markTeardown _ | .removeTensor _
  | .releaseRequest _ _ => True

/-- The uuids that await their `remove_tensor` after a call: some call dropped the record
and none has made one since, or removed the tensor. -/
def owedAfter (owed : Set ℕ) (b b' : Bookkeeping Rid T) (c : Call Rid T) : Set ℕ :=
  {uuid | c ≠ .removeTensor uuid ∧ b'.refInfo uuid = none ∧
    (uuid ∈ owed ∨ (b.refInfo uuid).isSome)}

/-- Two stores after the same proper calls, each walking its sets in an order of
its own, and the uuids that await their `remove_tensor`. -/
inductive Runs (rsOrder pyOrder : SetOrder) :
    Set ℕ → TensorStore Rid T → Bookkeeping Rid T → Prop
  | start : Runs rsOrder pyOrder ∅ .empty .empty
  | call {owed : Set ℕ} {t : TensorStore Rid T} {b : Bookkeeping Rid T} (c : Call Rid T)
    (hrun : Runs rsOrder pyOrder owed t b) (hproper : Proper owed t b c) :
    Runs rsOrder pyOrder (owedAfter owed b (b.call rsOrder c).1 c) (t.call pyOrder c).1
      (b.call rsOrder c).1

namespace TensorStore

/-- The rows of a batched put, each with its record. -/
def putRows : TensorStore Rid T → List Rid → List ℕ → List T → TensorStore Rid T
  | t, rid :: rids, uuid :: uuids, tensor :: tensors =>
    putRows (t.putStored rid uuid tensor) rids uuids tensors
  | t, _, _, _ => t

/-- A record made before the tensors are held. -/
theorem ownRows_putTensor (t : TensorStore Rid T) (uuid : ℕ) (rids : List Rid) (uuids : List ℕ)
    (tensors : List T) :
    (t.putTensor uuid).ownRows rids uuids tensors = (t.ownRows rids uuids tensors).putTensor uuid := by
  induction rids generalizing t uuids tensors with
  | nil => rfl
  | cons rid rids ih =>
    cases uuids with
    | nil => rfl
    | cons u uuids =>
      cases tensors with
      | nil => rfl
      | cons tensor tensors => exact ih (t.own rid u tensor) uuids tensors

/-- Every tensor and then every record is row by row. -/
theorem putStoredBatch_eq (t : TensorStore Rid T) {rids : List Rid} {uuids : List ℕ}
    {tensors : List T} (hrids : rids.length = uuids.length)
    (htensors : tensors.length = uuids.length) :
    (t.ownRows rids uuids tensors).putTensorBatch uuids = t.putRows rids uuids tensors := by
  induction rids generalizing t uuids tensors with
  | nil =>
    have hnone : uuids = [] := List.eq_nil_of_length_eq_zero hrids.symm
    subst hnone
    rfl
  | cons rid rids ih =>
    cases uuids with
    | nil => cases hrids
    | cons uuid uuids =>
      cases tensors with
      | nil => cases htensors
      | cons tensor tensors =>
        have hrest := ih (t.putStored rid uuid tensor) (Nat.succ.inj hrids)
          (Nat.succ.inj htensors)
        have hfirst := ownRows_putTensor (t.own rid uuid tensor) uuid rids uuids tensors
        change (((t.own rid uuid tensor).ownRows rids uuids tensors).putTensor uuid).putTensorBatch
          uuids = _
        rw [← hfirst]
        exact hrest

end TensorStore

/-- A tensor put with its record. -/
theorem Agrees.putStored (h : Agrees t b) {rid : Rid} {uuid : ℕ} (halone : t.OwnsAlone rid uuid)
    (hnot : uuid ∉ t.forgotten) (tensor : T) :
    Agrees (t.putStored rid uuid tensor) (b.putStored rid uuid tensor) := by
  have hown := h.own halone tensor
  have hs : Settled (t.own rid uuid tensor) (b.own rid uuid tensor) uuid := by
    refine ⟨hnot, fun _ => ?_⟩
    simp [TensorStore.own]
  exact hown.putTensor hs

/-- The rows of a batched put. -/
theorem Agrees.putRows (h : Agrees t b) {rids : List Rid} {uuids : List ℕ} {tensors : List T}
    (hproper : RowsProper t rids uuids tensors) :
    Agrees (t.putRows rids uuids tensors) (b.putRows rids uuids tensors) := by
  induction rids generalizing t b uuids tensors with
  | nil => exact h
  | cons rid rids ih =>
    cases uuids with
    | nil => exact h
    | cons uuid uuids =>
      cases tensors with
      | nil => exact h
      | cons tensor tensors =>
        obtain ⟨halone, hnot, hrest⟩ := hproper
        exact ih (h.putStored halone hnot tensor) hrest

omit [DecidableEq Rid] in
/-- Uuids tracked one after the other. -/
theorem Agrees.putTensorBatch (h : Agrees t b) {uuids : List ℕ}
    (hs : ∀ uuid ∈ uuids, Settled t b uuid) :
    Agrees (t.putTensorBatch uuids) (b.putTensorBatch uuids) := by
  induction uuids generalizing t b with
  | nil => exact h
  | cons uuid uuids ih =>
    exact ih (h.putTensor (hs uuid List.mem_cons_self)) fun u hu =>
      hs u (List.mem_cons_of_mem _ hu)

omit [DecidableEq Rid] in
/-- Marking uuids for teardown is nothing to Python. -/
theorem Agrees.markTeardown (h : Agrees t b) (uuids : List ℕ) :
    Agrees t (b.markTeardown uuids) := by
  have hnothing : ∀ uuid, { t with bookkeeping := t.bookkeeping.onEntry uuid id } = t := by
    intro uuid
    have hmap : (t.bookkeeping.refInfo uuid).map id = t.bookkeeping.refInfo uuid :=
      Option.map_id_apply
    unfold PythonTensorBookkeeping.onEntry
    rw [hmap, Function.update_eq_self]
  unfold Bookkeeping.markTeardown
  induction uuids generalizing b with
  | nil => exact h
  | cons uuid uuids ih =>
    have hone : Agrees { t with bookkeeping := t.bookkeeping.onEntry uuid id }
        (b.onEntry uuid fun e => { e with teardown := true }) :=
      h.onEntry uuid (fun _ _ => rfl) fun e he => h.range uuid e he
    rw [hnothing] at hone
    exact ih hone

/-- Columns of one length are put row by row in both, others in neither. -/
theorem putStoredBatch_cases (t : TensorStore Rid T) (b : Bookkeeping Rid T) (rids : List Rid)
    (uuids : List ℕ) (tensors : List T) :
    (rids.length = uuids.length ∧ tensors.length = uuids.length ∧
      t.putStoredBatch rids uuids tensors = (t.putRows rids uuids tensors, none) ∧
        b.putStoredBatch rids uuids tensors = (b.putRows rids uuids tensors, none)) ∨
    (t.putStoredBatch rids uuids tensors = (t, some .value) ∧
      b.putStoredBatch rids uuids tensors = (b, some .value)) := by
  unfold TensorStore.putStoredBatch Bookkeeping.putStoredBatch
  by_cases hrids : rids.length = uuids.length
  · by_cases htensors : tensors.length = uuids.length
    · refine Or.inl ⟨hrids, htensors, ?_, if_neg (by simp [hrids, htensors])⟩
      rw [if_neg (by simp [hrids, htensors]), t.putStoredBatch_eq hrids htensors]
    · exact Or.inr ⟨if_pos (Or.inr (Ne.symm htensors)), if_pos (Or.inr htensors)⟩
  · exact Or.inr ⟨if_pos (Or.inl hrids), if_pos (Or.inl hrids)⟩

/-- A proper call keeps the two in agreement. -/
theorem Agrees.call {owed : Set ℕ} (h : Agrees t b) (hsettled : ∀ uuid ∉ owed, Settled t b uuid)
    (rsOrder pyOrder : SetOrder) {c : Call Rid T} (hproper : Proper owed t b c) :
    Agrees (t.call pyOrder c).1 (b.call rsOrder c).1 := by
  cases c with
  | putTensor uuid => exact h.putTensor (hsettled uuid hproper)
  | putStored rid uuid tensor => exact h.putStored hproper.1 hproper.2 tensor
  | putTensorBatch uuids => exact h.putTensorBatch fun uuid hu => hsettled uuid (hproper uuid hu)
  | putStoredBatch rids uuids tensors =>
    unfold TensorStore.call Bookkeeping.call
    dsimp only
    rcases putStoredBatch_cases t b rids uuids tensors with
      ⟨hrids, htensors, ht, hb⟩ | ⟨ht, hb⟩
    · rw [ht, hb]
      exact h.putRows (hproper hrids htensors)
    · rw [ht, hb]
      exact h
  | own rid uuid tensor => exact h.own hproper tensor
  | incrementRef uuid n =>
    have hone := (h.increments hproper).1
    rw [t.bookkeeping.incrementEach_one, b.incrementEach_one] at hone
    exact hone
  | incrementRefBatch uuids counts =>
    have hall := (h.increments hproper.2).1
    rw [← t.bookkeeping.incrementRefBatch_eq hproper.1, ← b.incrementRefBatch_eq hproper.1] at hall
    exact hall
  | incrementRefBatchUniform uuids n => exact (h.increments hproper).1
  | dereference uuid n => exact h.dereference hproper
  | dereferenceBatch uuids counts cleanup =>
    obtain ⟨hlength, hfit, _⟩ := hproper
    have hdrop := h.dropRefs hfit cleanup
    rw [← t.bookkeeping.dereferenceBatch_eq hlength] at hdrop
    unfold Bookkeeping.call
    dsimp only
    rw [b.dereferenceBatch_eq hlength]
    exact hdrop
  | dereferenceBatchUniform uuids n cleanup => exact h.dropRefs hproper.1 cleanup
  | setPersist uuid persist =>
    exact h.onEntry uuid (fun _ _ => rfl) fun e he => h.range uuid e he
  | setMemRegistered uuid registered =>
    exact h.onEntry uuid (fun _ _ => rfl) fun e he => h.range uuid e he
  | markTeardown uuids => exact h.markTeardown uuids
  | removeTensor uuid => exact h.removeTensor uuid
  | releaseRequest rid force => exact h.releaseRequest rsOrder pyOrder rid force

section Settled

omit [DecidableEq Rid] in
/-- Where neither a tensor comes nor a report, nothing is outstanding that was not. -/
theorem Settled.of_same {t' : TensorStore Rid T} {b' : Bookkeeping Rid T} {uuid : ℕ}
    (h : Settled t b uuid) (hforgotten : uuid ∈ t'.forgotten → uuid ∈ t.forgotten)
    (hstored : b'.stored uuid = b.stored uuid) (htensor : t'.tensors uuid = t.tensors uuid) :
    Settled t' b' uuid := by
  refine ⟨fun hnow => h.1 (hforgotten hnow), ?_⟩
  rw [hstored, htensor]
  exact h.2

/-- Holding a tensor leaves nothing outstanding. -/
theorem Settled.own {uuid : ℕ} (h : Settled t b uuid) (rid : Rid) (u : ℕ) (tensor : T) :
    Settled (t.own rid u tensor) (b.own rid u tensor) uuid := by
  refine ⟨h.1, ?_⟩
  rw [stored_own]
  by_cases hu : uuid = u
  · subst hu
    simp [TensorStore.own]
  · simpa [TensorStore.own, hu] using h.2

/-- So do the rows of a batched put. -/
theorem Settled.putRows {uuid : ℕ} (h : Settled t b uuid) (rids : List Rid) (uuids : List ℕ)
    (tensors : List T) :
    Settled (t.putRows rids uuids tensors) (b.putRows rids uuids tensors) uuid := by
  induction rids generalizing t b uuids tensors with
  | nil => exact h
  | cons rid rids ih =>
    cases uuids with
    | nil => exact h
    | cons u uuids =>
      cases tensors with
      | nil => exact h
      | cons tensor tensors =>
        have hput : Settled (t.putStored rid u tensor) (b.putStored rid u tensor) uuid :=
          (h.own rid u tensor).of_same id rfl rfl
        exact ih hput uuids tensors

omit [DecidableEq Rid] in
/-- A fold holds the same tensors when each step does. -/
theorem stored_foldl {α : Type} (f : Bookkeeping Rid T → α → Bookkeeping Rid T)
    (hf : ∀ b a, (f b a).stored = b.stored) (b : Bookkeeping Rid T) (as : List α) :
    (as.foldl f b).stored = b.stored := by
  induction as generalizing b with
  | nil => rfl
  | cons a as ih => exact (ih (f b a)).trans (hf b a)

omit [DecidableEq Rid] in
/-- Increments hold the same tensors. -/
theorem stored_incrementEach (b : Bookkeeping Rid T) (refs : List (ℕ × ℤ)) :
    (b.incrementEach refs).1.stored = b.stored := by
  induction refs generalizing b with
  | nil => rfl
  | cons ref refs ih =>
    obtain ⟨uuid, n⟩ := ref
    unfold Bookkeeping.incrementEach Bookkeeping.incrementRef
    split
    next heq =>
      split at heq
      · cases heq
        rfl
      · cases heq
    next heq =>
      split at heq
      · cases heq
      · cases heq
        exact ih _

omit [DecidableEq Rid] in
/-- A batch puts no teardown of an untracked uuid off. -/
theorem Settled.dropRefs {uuid : ℕ} (h : Settled t b uuid) (hpy : t.bookkeeping.refInfo uuid = none)
    (hnone : b.refInfo uuid = none) [DecidableEq Rid] (refs : List (ℕ × ℤ)) (cleanup : Bool) :
    Settled (t.collected cleanup (t.bookkeeping.dropRefs refs false cleanup)).1
      (b.dropRefs refs cleanup).1 uuid := by
  refine h.of_same (fun hnow => ?_) (Bookkeeping.dropRefs_untracked refs cleanup hnone).2.1 rfl
  rcases (collected_ok t refs cleanup uuid).2.1 hnow with hbefore | ⟨_, hreported⟩
  · exact hbefore
  · rw [(PythonTensorBookkeeping.dropRefs_untracked refs cleanup hpy).2] at hreported
    exact absurd hreported (lt_irrefl 0)

/-- A removed tensor is held nowhere, and nobody answers for it. -/
structure Removed (t : TensorStore Rid T) (b : Bookkeeping Rid T) (uuid : ℕ) : Prop where
  /-- Rust holds no tensor. -/
  stored : b.stored uuid = none
  /-- No request's set has it. -/
  owned : ∀ rid, uuid ∉ b.owned.members rid
  /-- Python holds none. -/
  tensors : t.tensors uuid = none
  /-- Nor has it an owner there. -/
  uuidToRid : t.uuidToRid uuid = none
  /-- No request's set has it there. -/
  ridToUuids : ∀ rid, uuid ∉ t.ridToUuids.members rid
  /-- Its teardown is not outstanding. -/
  forgotten : uuid ∉ t.forgotten

/-- `remove_tensor` leaves neither the tensor nor an owner entry, on either side. -/
theorem Agrees.removed (h : Agrees t b) (uuid : ℕ) :
    Removed (t.removeTensor uuid) (b.removeTensor uuid) uuid := by
  have hstored : (b.removeTensor uuid).stored uuid = none := by
    rw [Bookkeeping.removeTensor_eq]
    split
    next =>
      have htaken : (b.takeStored uuid).2.stored uuid = none := by
        simp [Bookkeeping.stored_takeStored]
      exact htaken
    next hnone => simpa using hnone
  have hview := t.view_removeTensor uuid
  have hnone : t.tensors uuid = none → t.uuidToRid uuid = none := by
    intro htensor
    have hheld := h.owned.held uuid
    rw [htensor] at hheld
    simpa using hheld
  have hpy : (t.removeTensor uuid).tensors uuid = none ∧
      (t.removeTensor uuid).uuidToRid uuid = none ∧ uuid ∉ (t.removeTensor uuid).forgotten := by
    cases htensor : t.tensors uuid with
    | some tensor =>
      rw [htensor] at hview
      simp only [TensorStore.view, Option.isSome_some, if_true, Prod.mk.injEq] at hview
      exact ⟨hview.2.1, hview.2.2.1, of_decide_eq_false hview.2.2.2⟩
    | none =>
      rw [htensor] at hview
      simp only [TensorStore.view, Option.isSome_none, Bool.false_eq_true, if_false,
        Prod.mk.injEq] at hview
      exact ⟨hview.2.1, hview.2.2.1.trans (hnone htensor), of_decide_eq_false hview.2.2.2⟩
  have hagrees := h.removeTensor uuid
  constructor
  · exact hstored
  · intro rid hmem
    have hheld := (hagrees.inverse.mem rid uuid).1 hmem
    rw [hstored] at hheld
    cases hheld
  · exact hpy.1
  · exact hpy.2.1
  · intro rid hmem
    have hheld := (hagrees.owned.mem rid uuid).1 hmem
    rw [hpy.2.1] at hheld
    cases hheld
  · exact hpy.2.2

/-- The release of a request leaves no teardown of an untracked uuid outstanding. -/
theorem Agrees.settled_release (h : Agrees t b) {uuid : ℕ} (hs : Settled t b uuid)
    (hnone : b.refInfo uuid = none) (rsOrder pyOrder : SetOrder) (rid : Rid) (force : Bool) :
    Settled (t.releaseRequest pyOrder rid force) (b.releaseRequest rsOrder rid force).1 uuid := by
  have hpyNone : t.bookkeeping.refInfo uuid = none := by
    rw [h.records, hnone]
    rfl
  obtain ⟨htensor, howner⟩ := h.tensors_eq hs
  have hpy := t.view_releaseRequest h.owned pyOrder rid force uuid
  have hrs := b.view_releaseRequest h.inverse rsOrder rid force uuid
  have hkept : (t.releaseRequest pyOrder rid force).view uuid = t.view uuid →
      (b.releaseRequest rsOrder rid force).1.stored uuid = b.stored uuid →
      Settled (t.releaseRequest pyOrder rid force) (b.releaseRequest rsOrder rid force).1
        uuid := by
    intro hview hstored
    simp only [TensorStore.view, Prod.mk.injEq, decide_eq_decide] at hview
    exact hs.of_same hview.2.2.2.1 hstored hview.2.1
  have hstored : ∀ v, Bookkeeping.view (b.releaseRequest rsOrder rid force) uuid = v →
      (b.releaseRequest rsOrder rid force).1.stored uuid = v.2.1 := by
    intro v hv
    rw [← hv]
    rfl
  rw [howner] at hpy
  by_cases hmine : (b.stored uuid).map (·.rid) = some rid
  · rw [if_pos hmine] at hpy hrs
    obtain ⟨s, hheld, _⟩ := Option.map_eq_some_iff.1 hmine
    rw [hheld] at htensor
    have hdown : TensorStore.tornDown force (t.view uuid) =
        if (!force) = true then t.view uuid else (none, none, none, false) := by
      simp [TensorStore.tornDown, TensorStore.view, hpyNone, htensor]
    have hreleased : Bookkeeping.released force (Bookkeeping.view (b, {}) uuid) =
        if (!force) = true then Bookkeeping.view (b, {}) uuid else (none, none, 0) := by
      simp [Bookkeeping.released, Bookkeeping.view, hnone]
    rw [hdown] at hpy
    rw [hreleased] at hrs
    by_cases hstay : (!force) = true
    · rw [if_pos hstay] at hpy hrs
      exact hkept hpy (hstored _ hrs)
    · rw [if_neg hstay] at hpy hrs
      simp only [TensorStore.view, Prod.mk.injEq] at hpy
      refine ⟨of_decide_eq_false hpy.2.2.2, fun hsome => ?_⟩
      rw [hstored _ hrs] at hsome
      cases hsome
  · rw [if_neg hmine] at hpy hrs
    exact hkept hpy (hstored _ hrs)

/-- A call leaves no teardown of a uuid outstanding that is tracked on neither side of it,
and removing a tensor leaves none of its own. -/
theorem Agrees.settled_call {owed : Set ℕ} (h : Agrees t b) (rsOrder pyOrder : SetOrder)
    {c : Call Rid T} (hproper : Proper owed t b c) {uuid : ℕ} (hs : Settled t b uuid)
    (hnone : b.refInfo uuid = none) :
    Settled (t.call pyOrder c).1 (b.call rsOrder c).1 uuid := by
  have hpy : t.bookkeeping.refInfo uuid = none := by
    rw [h.records, hnone]
    rfl
  have hsame : ∀ {b' : Bookkeeping Rid T} (p : PythonTensorBookkeeping), b'.stored = b.stored →
      Settled { t with bookkeeping := p } b' uuid := fun p hstored =>
    hs.of_same id (congrFun hstored uuid) rfl
  cases c with
  | putTensor u => exact hsame _ rfl
  | putStored rid u tensor => exact (hs.own rid u tensor).of_same id rfl rfl
  | putTensorBatch uuids =>
    have hbatch : ∀ (s : TensorStore Rid T) (us : List ℕ), (s.putTensorBatch us).tensors =
        s.tensors ∧ (s.putTensorBatch us).forgotten = s.forgotten := by
      intro s us
      induction us generalizing s with
      | nil => exact ⟨rfl, rfl⟩
      | cons u us ih => exact ih (s.putTensor u)
    refine hs.of_same (fun hnow => (hbatch t uuids).2 ▸ hnow) ?_
      (congrFun (hbatch t uuids).1 uuid)
    exact congrFun (stored_foldl Bookkeeping.putTensor (fun _ _ => rfl) b uuids) uuid
  | putStoredBatch rids uuids tensors =>
    unfold TensorStore.call Bookkeeping.call
    dsimp only
    rcases putStoredBatch_cases t b rids uuids tensors with
      ⟨hrids, htensors, ht, hb⟩ | ⟨ht, hb⟩
    · rw [ht, hb]
      exact hs.putRows rids uuids tensors
    · rw [ht, hb]
      exact hs
  | own rid u tensor => exact hs.own rid u tensor
  | incrementRef u n =>
    refine hsame _ ?_
    have hone := stored_incrementEach b [(u, n)]
    rwa [b.incrementEach_one] at hone
  | incrementRefBatch uuids counts =>
    refine hsame _ ?_
    have hall := stored_incrementEach b (uuids.zip counts)
    rwa [← b.incrementRefBatch_eq hproper.1] at hall
  | incrementRefBatchUniform uuids n => exact hsame _ (stored_incrementEach b _)
  | dereference u n => exact hsame _ rfl
  | dereferenceBatch uuids counts cleanup =>
    have hdrop := hs.dropRefs hpy hnone (uuids.zip counts) cleanup
    rw [← t.bookkeeping.dereferenceBatch_eq hproper.1] at hdrop
    unfold Bookkeeping.call
    dsimp only
    rw [b.dereferenceBatch_eq hproper.1]
    exact hdrop
  | dereferenceBatchUniform uuids n cleanup => exact hs.dropRefs hpy hnone _ cleanup
  | setPersist u persist => exact hsame _ rfl
  | setMemRegistered u registered => exact hsame _ rfl
  | markTeardown uuids =>
    have hstored : (b.markTeardown uuids).stored = b.stored := stored_foldl
      (fun b u => b.onEntry u fun e => { e with teardown := true }) (fun _ _ => rfl) b uuids
    exact hs.of_same id (congrFun hstored uuid) rfl
  | removeTensor u =>
    by_cases hu : uuid = u
    · subst hu
      have hremoved := h.removed uuid
      refine ⟨hremoved.forgotten, fun hsome => ?_⟩
      have hgone : (b.call rsOrder (.removeTensor uuid)).1.stored uuid = none := hremoved.stored
      rw [hgone] at hsome
      cases hsome
    · have hview := t.view_removeTensor_other hu
      simp only [TensorStore.view, Prod.mk.injEq, decide_eq_decide] at hview
      refine hs.of_same hview.2.2.2.1 ?_ hview.2.1
      change (b.removeTensor u).stored uuid = b.stored uuid
      rw [Bookkeeping.removeTensor_eq]
      split
      · simp [Bookkeeping.forgetTensor, hu, Bookkeeping.stored_takeStored]
      · rfl
  | releaseRequest rid force => exact h.settled_release hs hnone rsOrder pyOrder rid force

end Settled

/-- The two agree after any run of proper calls, and only where a `remove_tensor` is
awaited a teardown is outstanding. -/
theorem Runs.agrees {rsOrder pyOrder : SetOrder} {owed : Set ℕ}
    (h : Runs rsOrder pyOrder owed t b) :
    Agrees t b ∧ ∀ uuid ∉ owed, Settled t b uuid := by
  induction h with
  | start => exact ⟨agrees_empty, fun uuid _ => ⟨Finset.notMem_empty uuid, fun h => by cases h⟩⟩
  | @call owed t b c _ hproper ih =>
    obtain ⟨hagrees, hsettled⟩ := ih
    have hnext := hagrees.call hsettled rsOrder pyOrder hproper
    refine ⟨hnext, fun uuid hfree => ?_⟩
    cases hafter : (b.call rsOrder c).1.refInfo uuid with
    | some e =>
      -- a tracked uuid has none outstanding
      by_contra hnot
      rw [(hnext.untracked hnot).2] at hafter
      cases hafter
    | none =>
      by_cases hremove : c = .removeTensor uuid
      · subst hremove
        have hremoved := hagrees.removed uuid
        refine ⟨hremoved.forgotten, fun hsome => ?_⟩
        have hgone : (b.call rsOrder (.removeTensor uuid)).1.stored uuid = none :=
          hremoved.stored
        rw [hgone] at hsome
        cases hsome
      · have hbefore : ¬(uuid ∈ owed ∨ (b.refInfo uuid).isSome) := fun hwhy =>
          hfree ⟨hremove, hafter, hwhy⟩
        rw [not_or, Option.not_isSome_iff_eq_none] at hbefore
        exact hagrees.settled_call rsOrder pyOrder hproper (hsettled uuid hbefore.1) hbefore.2

omit [DecidableEq Rid] in
/-- A uuid that awaits its `remove_tensor` has no record. -/
theorem Runs.untracked_of_owed [DecidableEq Rid] {rsOrder pyOrder : SetOrder} {owed : Set ℕ}
    (h : Runs rsOrder pyOrder owed t b) {uuid : ℕ} (howed : uuid ∈ owed) :
    b.refInfo uuid = none := by
  cases h with
  | start => cases howed
  | call c hrun hproper => exact howed.2.1

end Mstar.TensorBooks
