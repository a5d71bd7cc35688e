import Mathlib.Data.Finset.Insert
import Mathlib.Data.Finset.Erase
import Mstar.TensorBooks

/-!
# Tensors and their owners stay inverse

The bookkeeper keeps the request of every tensor it holds, and the set of
tensors of every request. Whatever is called, the one is the inverse of the
other, and no request is left with an empty set that the next holder of its
handle would inherit.
-/

namespace Mstar.TensorBooks

variable {Rid T : Type} [DecidableEq Rid]

namespace Owners

/-- The uuids a request answers for. -/
def members (owned : Owners Rid) (rid : Rid) : Finset ℕ := (owned rid).getD ∅

/-- No request has an empty set. -/
def Occupied (owned : Owners Rid) : Prop := ∀ rid, owned rid ≠ some ∅

variable {owned owned' : Owners Rid}

/-- The members once a uuid is added. -/
theorem members_add (owned : Owners Rid) (rid r : Rid) (uuid : ℕ) :
    (owned.add rid uuid).members r =
      if r = rid then insert uuid (owned.members rid) else owned.members r := by
  unfold members add
  by_cases hr : r = rid
  · subst hr
    simp
  · simp [hr]

/-- The members once a uuid is taken out. -/
theorem members_disown (owned : Owners Rid) (rid r : Rid) (uuid : ℕ) :
    (owned.disown rid uuid).members r =
      if r = rid then (owned.members rid).erase uuid else owned.members r := by
  unfold members disown
  cases hset : owned rid with
  | none =>
    by_cases hr : r = rid
    · subst hr
      simp [hset]
    · simp [hr]
  | some set =>
    by_cases hr : r = rid
    · subst hr
      by_cases hempty : set.erase uuid = ∅
      · simp [hempty]
      · simp [hempty]
    · simp [hr]

/-- Adding leaves no empty set. -/
theorem Occupied.add (h : owned.Occupied) (rid : Rid) (uuid : ℕ) :
    (owned.add rid uuid).Occupied := by
  intro r
  unfold Owners.add
  by_cases hr : r = rid
  · subst hr
    simp
  · simpa [hr] using h r

/-- Taking out leaves no empty set. -/
theorem Occupied.disown (h : owned.Occupied) (rid : Rid) (uuid : ℕ) :
    (owned.disown rid uuid).Occupied := by
  intro r
  unfold Owners.disown
  cases hset : owned rid with
  | none => exact h r
  | some set =>
    by_cases hr : r = rid
    · subst hr
      by_cases hempty : set.erase uuid = ∅
      · simp [hempty]
      · simp [hempty]
    · simpa [hr] using h r

omit [DecidableEq Rid] in
/-- Without empty sets the members say it all. -/
theorem Occupied.ext (h : owned.Occupied) (h' : owned'.Occupied)
    (hmem : ∀ r, owned.members r = owned'.members r) : owned = owned' := by
  funext r
  have hr := hmem r
  have hne := h r
  have hne' := h' r
  unfold members at hr
  cases hset : owned r with
  | none =>
    cases hset' : owned' r with
    | none => rfl
    | some set' =>
      rw [hset, hset'] at hr
      exact absurd (by rw [hset', ← show ∅ = set' from hr]) hne'
  | some set =>
    cases hset' : owned' r with
    | none =>
      rw [hset, hset'] at hr
      exact absurd (by rw [hset, show set = ∅ from hr]) hne
    | some set' =>
      rw [hset, hset'] at hr
      exact congrArg some hr

end Owners

namespace Bookkeeping

variable {b b' : Bookkeeping Rid T}

/-- The two indexes of who answers for what are inverse to one another. -/
structure Inverse (b : Bookkeeping Rid T) : Prop where
  /-- A request's set has the tensors held on its behalf. -/
  mem : ∀ rid uuid, uuid ∈ b.owned.members rid ↔ (b.stored uuid).map (·.rid) = some rid
  /-- No request has an empty set. -/
  occupied : b.owned.Occupied

omit [DecidableEq Rid] in
/-- Two bookkeepers that hold the same tensors agree on the owners. -/
theorem Inverse.owned_eq (h : b.Inverse) (h' : b'.Inverse) (hs : b.stored = b'.stored) :
    b.owned = b'.owned := by
  refine h.occupied.ext h'.occupied fun r => ?_
  ext uuid
  rw [h.mem, h'.mem, hs]

omit [DecidableEq Rid] in
/-- Records do not matter. -/
theorem Inverse.congr (h : b.Inverse) (hs : b'.stored = b.stored) (ho : b'.owned = b.owned) :
    b'.Inverse := by
  constructor
  · intro rid uuid
    rw [ho, hs]
    exact h.mem rid uuid
  · rw [ho]
    exact h.occupied

omit [DecidableEq Rid] in
/-- Nothing held. -/
theorem inverse_empty : (empty : Bookkeeping Rid T).Inverse := by
  constructor
  · intro rid uuid
    simp [empty, Owners.members]
  · intro rid
    simp [empty]

/-- Holding a tensor, for the request that held it before or another. -/
theorem Inverse.own (h : b.Inverse) (rid : Rid) (uuid : ℕ) (tensor : T) :
    (b.own rid uuid tensor).Inverse := by
  have hcleared : ∀ owned, owned = ((b.stored uuid).elim b.owned fun old =>
      if old.rid ≠ rid then b.owned.disown old.rid uuid else b.owned) → owned.Occupied ∧
        ∀ r u, u ∈ (owned.add rid uuid).members r ↔
          (if u = uuid then some rid else (b.stored u).map (·.rid)) = some r := by
    intro owned howned
    cases hold : b.stored uuid with
    | none =>
      rw [hold, Option.elim_none] at howned
      subst howned
      refine ⟨h.occupied, fun r u => ?_⟩
      rw [Owners.members_add]
      by_cases hu : u = uuid
      · subst hu
        by_cases hr : r = rid
        · simp [hr]
        · have hnot := h.mem r u
          rw [hold] at hnot
          simp [hr, Ne.symm hr, hnot]
      · by_cases hr : r = rid
        · subst hr
          simp [hu, h.mem]
        · simp [hu, hr, h.mem]
    | some old =>
      rw [hold, Option.elim_some] at howned
      by_cases hrid : old.rid ≠ rid
      · simp only [if_pos hrid] at howned
        subst howned
        refine ⟨h.occupied.disown old.rid uuid, fun r u => ?_⟩
        rw [Owners.members_add, Owners.members_disown, Owners.members_disown]
        by_cases hu : u = uuid
        · subst hu
          by_cases hr : r = rid
          · simp [hr]
          · by_cases hro : r = old.rid
            · simp [hro, hrid, Ne.symm hrid]
            · have hnot := h.mem r u
              rw [hold] at hnot
              simp [hr, hro, Ne.symm hr, hnot, Ne.symm hro]
        · by_cases hr : r = rid
          · subst hr
            simp [hu, Ne.symm hrid, h.mem]
          · by_cases hro : r = old.rid
            · simp [hu, hro, hrid, h.mem]
            · simp [hu, hr, hro, h.mem]
      · simp only [if_neg hrid] at howned
        subst howned
        rw [not_not] at hrid
        refine ⟨h.occupied, fun r u => ?_⟩
        rw [Owners.members_add]
        by_cases hu : u = uuid
        · subst hu
          by_cases hr : r = rid
          · simp [hr]
          · have hnot := h.mem r u
            rw [hold] at hnot
            simp [hr, Ne.symm hr, hnot, hrid]
        · by_cases hr : r = rid
          · subst hr
            simp [hu, h.mem]
          · simp [hu, hr, h.mem]
  obtain ⟨hoccupied, hmem⟩ := hcleared _ rfl
  have hown : (b.own rid uuid tensor).owned = ((b.stored uuid).elim b.owned fun old =>
      if old.rid ≠ rid then b.owned.disown old.rid uuid else b.owned).add rid uuid := by
    unfold Bookkeeping.own
    cases b.stored uuid <;> rfl
  constructor
  · intro r u
    rw [hown]
    refine (hmem r u).trans ?_
    unfold Bookkeeping.own
    by_cases hu : u = uuid
    · subst hu
      simp
    · simp [hu]
  · rw [hown]
    exact hoccupied.add rid uuid

/-- Taking a tensor out. -/
theorem Inverse.takeStored (h : b.Inverse) (uuid : ℕ) : (b.takeStored uuid).2.Inverse := by
  unfold Bookkeeping.takeStored
  cases hs : b.stored uuid with
  | none => exact h
  | some s =>
    constructor
    · intro r u
      dsimp only
      rw [Owners.members_disown]
      by_cases hu : u = uuid
      · subst hu
        by_cases hr : r = s.rid
        · simp [hr]
        · have hnot := h.mem r u
          rw [hs] at hnot
          simp [hr, hnot, Ne.symm hr]
      · by_cases hr : r = s.rid
        · simp [hu, hr, h.mem]
        · simp [hu, hr, h.mem]
    · exact h.occupied.disown s.rid uuid

/-- What a taking out leaves of the records. -/
theorem refInfo_takeStored (b : Bookkeeping Rid T) (uuid : ℕ) :
    (b.takeStored uuid).2.refInfo = b.refInfo := by
  unfold Bookkeeping.takeStored
  cases b.stored uuid <;> rfl

/-- What a taking out leaves of the tensors. -/
theorem stored_takeStored (b : Bookkeeping Rid T) (uuid : ℕ) :
    (b.takeStored uuid).2.stored = Function.update b.stored uuid none := by
  unfold Bookkeeping.takeStored
  cases hs : b.stored uuid with
  | none => simp [hs]
  | some s => rfl

/-- What is taken out is what was held. -/
theorem takeStored_fst (b : Bookkeeping Rid T) (uuid : ℕ) :
    (b.takeStored uuid).1 = b.stored uuid := by
  unfold Bookkeeping.takeStored
  cases b.stored uuid <;> rfl

/-- Removing is taking the tensor out, and the record with it. -/
theorem removeTensor_eq (b : Bookkeeping Rid T) (uuid : ℕ) :
    b.removeTensor uuid =
      if (b.stored uuid).isSome then (b.takeStored uuid).2.forgetTensor uuid else b := by
  unfold removeTensor Bookkeeping.takeStored
  cases b.stored uuid <;> rfl

omit [DecidableEq Rid] in
/-- A fold keeps the indexes inverse when each step does. -/
theorem inverse_foldl {α : Type} {f : Bookkeeping Rid T → α → Bookkeeping Rid T}
    (hf : ∀ b a, b.Inverse → (f b a).Inverse) (h : b.Inverse) (as : List α) :
    (as.foldl f b).Inverse := by
  induction as generalizing b with
  | nil => exact h
  | cons a as ih => exact ih (hf b a h)

/-- The rows of a batched put. -/
theorem Inverse.putRows (h : b.Inverse) (rids : List Rid) (uuids : List ℕ) (tensors : List T) :
    (b.putRows rids uuids tensors).Inverse := by
  induction rids generalizing b uuids tensors with
  | nil => exact h
  | cons rid rids ih =>
    cases uuids with
    | nil => exact h
    | cons uuid uuids =>
      cases tensors with
      | nil => exact h
      | cons tensor tensors =>
        have hput : (b.putTensor uuid).Inverse := h.congr rfl rfl
        exact ih (hput.own rid uuid tensor) uuids tensors

omit [DecidableEq Rid] in
/-- The loop of the batched increments. -/
theorem Inverse.incrementEach (h : b.Inverse) (refs : List (ℕ × ℤ)) :
    (b.incrementEach refs).1.Inverse := by
  induction refs generalizing b with
  | nil => exact h
  | cons ref refs ih =>
    unfold Bookkeeping.incrementEach Bookkeeping.incrementRef
    by_cases hneg : ref.2 < 0
    · rw [if_pos hneg]
      exact h
    · rw [if_neg hneg]
      exact ih (h.congr rfl rfl)

/-- One reference dropped in a batch. -/
theorem Inverse.dropOne {acc : Bookkeeping Rid T × Reported} (h : acc.1.Inverse) (cleanup : Bool)
    (ref : ℕ × ℤ) : (dropOne cleanup acc ref).1.Inverse := by
  have hlower : (acc.1.dereference ref.1 ref.2).Inverse := h.congr rfl rfl
  unfold Bookkeeping.dropOne
  cases acc.1.refInfo ref.1 with
  | none => exact h
  | some e =>
    dsimp only
    split
    · exact hlower
    · have htaken : (if cleanup && !e.memRegistered && !e.teardown then
          (acc.1.dereference ref.1 ref.2).takeStored ref.1
        else (none, acc.1.dereference ref.1 ref.2)).2.Inverse := by
        split
        · exact hlower.takeStored ref.1
        · exact hlower
      split
      · rename_i hsome
        rw [hsome] at htaken
        exact htaken.congr rfl rfl
      · rename_i hnone
        rw [hnone] at htaken
        exact htaken

/-- References dropped in a batch. -/
theorem Inverse.dropRefs (h : b.Inverse) (refs : List (ℕ × ℤ)) (cleanup : Bool) :
    (b.dropRefs refs cleanup).1.Inverse := by
  have hloop : ∀ acc : Bookkeeping Rid T × Reported, acc.1.Inverse →
      (refs.foldl (Bookkeeping.dropOne cleanup) acc).1.Inverse := by
    induction refs with
    | nil => exact fun acc hacc => hacc
    | cons ref refs ih => exact fun acc hacc => ih _ (hacc.dropOne cleanup ref)
  unfold Bookkeeping.dropRefs
  dsimp only
  cases cleanup with
  | false => exact hloop (b, {}) h
  | true =>
    have hforget : ∀ (b : Bookkeeping Rid T) uuid, b.Inverse → (b.forgetTensor uuid).Inverse :=
      fun _ _ hb => hb.congr rfl rfl
    exact inverse_foldl hforget (hloop (b, {}) h) _

/-- One uuid of a request released. -/
theorem Inverse.releaseOne {acc : Bookkeeping Rid T × Reported} (h : acc.1.Inverse) (force : Bool)
    (uuid : ℕ) : (releaseOne force acc uuid).1.Inverse := by
  have hforgot : (acc.1.forgetTensor uuid).Inverse := h.congr rfl rfl
  unfold Bookkeeping.releaseOne
  dsimp only
  split
  · exact h
  · split
    · exact hforgot
    · exact hforgot.takeStored uuid

/-- Every call keeps the two indexes inverse, a refused one too. -/
theorem Inverse.call (h : b.Inverse) (order : SetOrder) (c : Call Rid T) :
    (b.call order c).1.Inverse := by
  have hput : ∀ (b : Bookkeeping Rid T) uuid, b.Inverse → (b.putTensor uuid).Inverse :=
    fun _ _ hb => hb.congr rfl rfl
  cases c with
  | putTensor uuid => exact hput b uuid h
  | putStored rid uuid tensor => exact (hput b uuid h).own rid uuid tensor
  | putTensorBatch uuids => exact inverse_foldl hput h uuids
  | putStoredBatch rids uuids tensors =>
    unfold Bookkeeping.call putStoredBatch
    dsimp only
    split
    · exact h
    · exact h.putRows rids uuids tensors
  | own rid uuid tensor => exact h.own rid uuid tensor
  | incrementRef uuid n =>
    unfold Bookkeeping.call Bookkeeping.incrementRef
    dsimp only
    split
    · exact h
    · exact h.congr rfl rfl
  | incrementRefBatch uuids counts =>
    unfold Bookkeeping.call incrementRefBatch
    dsimp only
    split
    · exact h
    · exact h.incrementEach _
  | incrementRefBatchUniform uuids n => exact h.incrementEach _
  | dereference uuid n => exact h.congr rfl rfl
  | dereferenceBatch uuids counts cleanup =>
    unfold Bookkeeping.call dereferenceBatch
    dsimp only
    split
    · exact h
    · exact h.dropRefs _ cleanup
  | dereferenceBatchUniform uuids n cleanup => exact h.dropRefs _ cleanup
  | setPersist uuid persist => exact h.congr rfl rfl
  | setMemRegistered uuid registered => exact h.congr rfl rfl
  | markTeardown uuids =>
    have hmark : ∀ (b : Bookkeeping Rid T) uuid, b.Inverse →
        (b.onEntry uuid fun e => { e with teardown := true }).Inverse :=
      fun _ _ hb => hb.congr rfl rfl
    exact inverse_foldl hmark h uuids
  | removeTensor uuid =>
    unfold Bookkeeping.call
    dsimp only
    rw [removeTensor_eq]
    split
    · exact (h.takeStored uuid).congr rfl rfl
    · exact h
  | releaseRequest rid force =>
    have hloop : ∀ (uuids : List ℕ) (acc : Bookkeeping Rid T × Reported), acc.1.Inverse →
        (uuids.foldl (Bookkeeping.releaseOne force) acc).1.Inverse := by
      intro uuids
      induction uuids with
      | nil => exact fun acc hacc => hacc
      | cons uuid uuids ih => exact fun acc hacc => ih _ (hacc.releaseOne force uuid)
    exact hloop _ (b, {}) h

end Bookkeeping

end Mstar.TensorBooks
