import Mstar.DropRefs

/-!
# The Python store's owners, and the walk of a release

The Python store keeps the request of every tensor apart from the tensors. The
two indexes stay inverse to one another as long as no uuid is held again for
another request. A release walks a request's uuids, and what it does to each
depends on that uuid alone.
-/

namespace Mstar.TensorBooks

/-- A walk whose steps each touch one uuid leaves there what its own step
makes of it. -/
theorem foldl_apart {S A : Type} {step : S → ℕ → S} {view : S → ℕ → A} {made : A → A}
    (hother : ∀ s u v, u ≠ v → view (step s v) u = view s u)
    (hself : ∀ s u, view (step s u) u = made (view s u)) {walk : List ℕ} (hnodup : walk.Nodup)
    (s : S) (u : ℕ) :
    view (walk.foldl step s) u = if u ∈ walk then made (view s u) else view s u := by
  induction walk generalizing s with
  | nil => simp
  | cons v walk ih =>
    have hapart := List.nodup_cons.1 hnodup
    rw [List.foldl_cons, ih hapart.2]
    by_cases hu : u = v
    · subst hu
      rw [if_neg hapart.1, if_pos List.mem_cons_self, hself]
    · rw [hother s u v hu]
      simp [hu]

variable {Rid T : Type} [DecidableEq Rid]

namespace TensorStore

variable {t : TensorStore Rid T}

/-- The two indexes of who answers for what are inverse to one another, and
cover the tensors. -/
structure Owned (t : TensorStore Rid T) : Prop where
  /-- A request's set has the uuids it answers for. -/
  mem : ∀ rid uuid, uuid ∈ t.ridToUuids.members rid ↔ t.uuidToRid uuid = some rid
  /-- Some request answers for every tensor. -/
  held : ∀ uuid, (t.uuidToRid uuid).isSome ↔ (t.tensors uuid).isSome

omit [DecidableEq Rid] in
/-- Nothing held. -/
theorem owned_empty : (empty : TensorStore Rid T).Owned := by
  constructor
  · intro rid uuid
    simp [empty, Owners.members]
  · intro uuid
    simp [empty]

omit [DecidableEq Rid] in
/-- Records do not matter. -/
theorem Owned.congr {t' : TensorStore Rid T} (h : t.Owned) (ho : t'.ridToUuids = t.ridToUuids)
    (hr : t'.uuidToRid = t.uuidToRid) (ht : t'.tensors = t.tensors) : t'.Owned := by
  constructor
  · intro rid uuid
    rw [ho, hr]
    exact h.mem rid uuid
  · intro uuid
    rw [hr, ht]
    exact h.held uuid

/-- No other request answers for the uuid. -/
def OwnsAlone (t : TensorStore Rid T) (rid : Rid) (uuid : ℕ) : Prop :=
  ∀ r, t.uuidToRid uuid = some r → r = rid

/-- Holding a tensor that no other request answers for. -/
theorem Owned.own (h : t.Owned) {rid : Rid} {uuid : ℕ} (halone : t.OwnsAlone rid uuid)
    (tensor : T) : (t.own rid uuid tensor).Owned := by
  constructor
  · intro r u
    simp only [TensorStore.own]
    rw [Owners.members_add]
    by_cases hu : u = uuid
    · subst hu
      by_cases hr : r = rid
      · simp [hr]
      · simp only [if_neg hr, Function.update_self, h.mem, Option.some.injEq]
        exact ⟨fun hold => absurd (halone r hold) hr, fun hnew => absurd hnew.symm hr⟩
    · by_cases hr : r = rid
      · subst hr
        simp [hu, h.mem]
      · simp [hu, hr, h.mem]
  · intro u
    by_cases hu : u = uuid
    · subst hu
      simp [TensorStore.own]
    · simpa [TensorStore.own, hu] using h.held u

/-- What the store has at one uuid, but for the sets of the requests. -/
def view (t : TensorStore Rid T) (uuid : ℕ) :
    Option PyReferenceInfo × Option T × Option Rid × Bool :=
  (t.bookkeeping.refInfo uuid, t.tensors uuid, t.uuidToRid uuid, decide (uuid ∈ t.forgotten))

/-- What removing a tensor leaves at its uuid. -/
theorem view_removeTensor (t : TensorStore Rid T) (uuid : ℕ) :
    (t.removeTensor uuid).view uuid =
      if (t.tensors uuid).isSome then
        (if uuid ∈ t.forgotten then t.bookkeeping.refInfo uuid else none, none, none, false)
      else (t.bookkeeping.refInfo uuid, none, t.uuidToRid uuid, false) := by
  unfold removeTensor view
  cases htensor : t.tensors uuid with
  | none => simp [htensor]
  | some tensor =>
    by_cases hforgotten : uuid ∈ t.forgotten
    · cases hrid : t.uuidToRid uuid <;> simp [htensor, hforgotten, hrid]
    · cases hrid : t.uuidToRid uuid <;>
        simp [htensor, hforgotten, hrid, PythonTensorBookkeeping.forgetTensor]

/-- Removing a tensor leaves every other uuid alone. -/
theorem view_removeTensor_other (t : TensorStore Rid T) {uuid u : ℕ} (hu : u ≠ uuid) :
    (t.removeTensor uuid).view u = t.view u := by
  unfold removeTensor view
  cases htensor : t.tensors uuid with
  | none => simp [htensor, hu]
  | some tensor =>
    by_cases hforgotten : uuid ∈ t.forgotten
    · cases hrid : t.uuidToRid uuid <;> simp [htensor, hforgotten, hrid, hu]
    · cases hrid : t.uuidToRid uuid <;>
        simp [htensor, hforgotten, hrid, hu, PythonTensorBookkeeping.forgetTensor]

/-- Removing a tensor keeps the indexes inverse. -/
theorem Owned.removeTensor (h : t.Owned) (uuid : ℕ) : (t.removeTensor uuid).Owned := by
  have hheld : ∀ u, ((t.removeTensor uuid).uuidToRid u).isSome ↔
      ((t.removeTensor uuid).tensors u).isSome := by
    intro u
    by_cases hu : u = uuid
    · subst hu
      have hview := view_removeTensor t u
      have hold := h.held u
      unfold view at hview
      cases htensor : t.tensors u with
      | none =>
        rw [htensor] at hview hold
        simp only [Option.isSome_none, Bool.false_eq_true, if_false, Prod.mk.injEq] at hview
        rw [hview.2.1, hview.2.2.1]
        exact hold
      | some tensor =>
        rw [htensor] at hview
        simp only [Option.isSome_some, if_true, Prod.mk.injEq] at hview
        rw [hview.2.1, hview.2.2.1]
        simp
    · have hview := view_removeTensor_other t hu
      unfold view at hview
      simp only [Prod.mk.injEq] at hview
      rw [hview.2.1, hview.2.2.1]
      exact h.held u
  refine ⟨?_, hheld⟩
  intro r u
  cases htensor : t.tensors uuid with
  | none => simpa only [TensorStore.removeTensor, htensor] using h.mem r u
  | some tensor =>
    obtain ⟨rid, hrid⟩ := Option.isSome_iff_exists.1 ((h.held uuid).2 (by rw [htensor]; rfl))
    have hout : u ∈ (t.ridToUuids.disown rid uuid).members r ↔
        Function.update t.uuidToRid uuid none u = some r := by
      rw [Owners.members_disown]
      by_cases hu : u = uuid
      · subst hu
        by_cases hr : r = rid
        · simp [hr]
        · simp [hr, h.mem, hrid, Ne.symm hr]
      · by_cases hr : r = rid
        · simp [hu, hr, h.mem]
        · simp [hu, hr, h.mem]
    by_cases hforgotten : uuid ∈ t.forgotten
    · simpa only [TensorStore.removeTensor, htensor, hforgotten, if_true, hrid] using hout
    · simpa only [TensorStore.removeTensor, htensor, hforgotten, if_false, hrid] using hout

/-- One uuid of a request torn down keeps the indexes inverse. -/
theorem Owned.releaseOne (h : t.Owned) (force : Bool) (uuid : ℕ) :
    (releaseOne force t uuid).Owned := by
  unfold TensorStore.releaseOne cleanupByUuid
  split
  · exact h
  · split
    · exact h
    · exact h.removeTensor uuid

/-- So does the teardown of a request. -/
theorem Owned.releaseRequest (h : t.Owned) (order : SetOrder) (rid : Rid) (force : Bool) :
    (t.releaseRequest order rid force).Owned := by
  unfold TensorStore.releaseRequest
  generalize order.walk ((t.ridToUuids rid).getD ∅) = walk
  induction walk generalizing t with
  | nil => exact h
  | cons uuid walk ih => exact ih (h.releaseOne force uuid)

/-- What tearing a uuid down makes of what the store has there. -/
def tornDown (force : Bool) :
    Option PyReferenceInfo × Option T × Option Rid × Bool →
      Option PyReferenceInfo × Option T × Option Rid × Bool
  | (info, tensor, rid, forgotten) =>
    if !(info.any fun info => decide (info.refCnt ≤ 0) && !info.persist) && !force then
      (info, tensor, rid, forgotten)
    else if tensor.isNone then (info, tensor, rid, forgotten)
    else (if forgotten then info else none, none, none, false)

/-- What the teardown of a request leaves at each uuid. -/
theorem view_releaseRequest (t : TensorStore Rid T) (h : t.Owned) (order : SetOrder) (rid : Rid)
    (force : Bool) (uuid : ℕ) :
    (t.releaseRequest order rid force).view uuid =
      if t.uuidToRid uuid = some rid then tornDown force (t.view uuid) else t.view uuid := by
  have hother : ∀ (s : TensorStore Rid T) (u v : ℕ), u ≠ v →
      (releaseOne force s v).view u = s.view u := by
    intro s u v huv
    unfold releaseOne cleanupByUuid
    split
    · rfl
    · split
      · rfl
      · exact view_removeTensor_other s huv
  have hself : ∀ (s : TensorStore Rid T) (u : ℕ),
      (releaseOne force s u).view u = tornDown force (s.view u) := by
    intro s u
    have hdown : tornDown force (s.view u) =
        if (!s.bookkeeping.canGc u && !force) = true then s.view u
        else if (s.tensors u).isNone = true then s.view u
        else (if decide (u ∈ s.forgotten) = true then s.bookkeeping.refInfo u else none,
          none, none, false) := rfl
    rw [hdown]
    unfold releaseOne cleanupByUuid
    split
    · rfl
    · cases htensor : s.tensors u with
      | none => rfl
      | some tensor =>
        have hremoved := view_removeTensor s u
        rw [htensor] at hremoved
        simpa using hremoved
  have hwalk := foldl_apart hother hself (order.nodup ((t.ridToUuids rid).getD ∅)) t uuid
  have hmem : uuid ∈ order.walk ((t.ridToUuids rid).getD ∅) ↔ t.uuidToRid uuid = some rid :=
    (order.mem_walk _ uuid).trans (h.mem rid uuid)
  unfold releaseRequest
  rw [hwalk]
  simp only [hmem]

end TensorStore

namespace Bookkeeping

/-- What the bookkeeper has at one uuid, and how often it has reported it. -/
def view (acc : Bookkeeping Rid T × Reported) (uuid : ℕ) :
    Option ReferenceInfo × Option (StoredTensor Rid T) × ℕ :=
  (acc.1.refInfo uuid, acc.1.stored uuid, acc.2.uuids.count uuid)

/-- What releasing a uuid makes of what the bookkeeper has there. -/
def released (force : Bool) :
    Option ReferenceInfo × Option (StoredTensor Rid T) × ℕ →
      Option ReferenceInfo × Option (StoredTensor Rid T) × ℕ
  | (info, stored, count) =>
    if !(info.any fun e => decide (e.refCount ≤ 0) && !e.persist) && !force then
      (info, stored, count)
    else if (info.any fun e => e.memRegistered) || (info.any fun e => e.teardown) then
      (none, stored, count + 1)
    else (none, none, count)

/-- What the release of a request leaves at each uuid. -/
theorem view_releaseRequest (b : Bookkeeping Rid T) (h : b.Inverse) (order : SetOrder) (rid : Rid)
    (force : Bool) (uuid : ℕ) :
    view (b.releaseRequest order rid force) uuid =
      if (b.stored uuid).map (·.rid) = some rid then released force (view (b, {}) uuid)
      else view (b, {}) uuid := by
  have hother : ∀ (acc : Bookkeeping Rid T × Reported) (u v : ℕ), u ≠ v →
      view (releaseOne force acc v) u = view acc u := by
    intro acc u v huv
    unfold releaseOne view
    dsimp only
    split
    · rfl
    · split
      · simp [forgetTensor, huv, List.count_append, Ne.symm huv]
      · rw [refInfo_takeStored, stored_takeStored]
        simp [forgetTensor, huv]
  have hself : ∀ (acc : Bookkeeping Rid T × Reported) (u : ℕ),
      view (releaseOne force acc u) u = released force (view acc u) := by
    intro acc u
    have hreleased : released force (view acc u) =
        if (!acc.1.canGc u && !force) = true then view acc u
        else if (acc.1.isRegistered u || (acc.1.refInfo u).any fun e => e.teardown) = true then
          (none, acc.1.stored u, acc.2.uuids.count u + 1)
        else (none, none, acc.2.uuids.count u) := rfl
    rw [hreleased]
    unfold releaseOne
    dsimp only
    split
    · rfl
    · split
      · simp [view, forgetTensor, List.count_append]
      · unfold view
        rw [refInfo_takeStored, stored_takeStored]
        simp [forgetTensor]
  have hwalk := foldl_apart hother hself (order.nodup ((b.owned rid).getD ∅)) (b, {}) uuid
  have hmem : uuid ∈ order.walk ((b.owned rid).getD ∅) ↔
      (b.stored uuid).map (·.rid) = some rid :=
    (order.mem_walk _ uuid).trans (h.mem rid uuid)
  unfold releaseRequest
  rw [hwalk]
  simp only [hmem]

end Bookkeeping

end Mstar.TensorBooks
