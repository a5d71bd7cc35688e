import Mathlib.Tactic.NormNum
import Mstar.StoreOwners

/-!
# Where the two bookkeepers agree

The records of the two agree at every uuid. The tensors agree too, but for
uuids that still wait for their teardown: reported or freed by a batch that
cleaned up, or released with their request. Neither side has a record of
those, and one side may hold a tensor the other has let go of.
-/

namespace Mstar.TensorBooks

variable {Rid T : Type} [DecidableEq Rid]

/-- What Python keeps of a record. -/
def ReferenceInfo.seen (e : ReferenceInfo) : PyReferenceInfo :=
  ⟨e.refCount, e.persist, e.memRegistered⟩

/-- A count in the 64-bit range. -/
def InRange (n : ℤ) : Prop := -2 ^ 63 ≤ n ∧ n < 2 ^ 63

/-- No teardown of the uuid is outstanding on either side. -/
def Settled (t : TensorStore Rid T) (b : Bookkeeping Rid T) (uuid : ℕ) : Prop :=
  uuid ∉ t.forgotten ∧ ((b.stored uuid).isSome → (t.tensors uuid).isSome)

/-- What the two stores share. -/
structure Agrees (t : TensorStore Rid T) (b : Bookkeeping Rid T) : Prop where
  /-- The same uuids are tracked, with the same counts and flags. -/
  records : ∀ uuid, t.bookkeeping.refInfo uuid = (b.refInfo uuid).map ReferenceInfo.seen
  /-- The counts are in range. -/
  range : ∀ uuid e, b.refInfo uuid = some e → InRange e.refCount
  /-- Rust's two indexes are inverse to one another. -/
  inverse : b.Inverse
  /-- So are Python's. -/
  owned : t.Owned
  /-- A tensor both hold is the same, for the same request. -/
  both : ∀ uuid s rid, b.stored uuid = some s → t.uuidToRid uuid = some rid →
    s.rid = rid ∧ t.tensors uuid = some s.tensor
  /-- What Python holds and has not reported, Rust holds. -/
  kept : ∀ uuid, uuid ∉ t.forgotten → (t.tensors uuid).isSome → (b.stored uuid).isSome
  /-- With a teardown outstanding, neither has a record. -/
  awaiting : ∀ uuid, ¬Settled t b uuid → b.refInfo uuid = none

variable {t t' : TensorStore Rid T} {b b' : Bookkeeping Rid T}

omit [DecidableEq Rid] in
/-- What the two hold for a uuid with no teardown outstanding. -/
theorem Agrees.tensors_eq (h : Agrees t b) {uuid : ℕ} (hs : Settled t b uuid) :
    t.tensors uuid = (b.stored uuid).map (·.tensor) ∧
      t.uuidToRid uuid = (b.stored uuid).map (·.rid) := by
  have hheld := h.owned.held uuid
  cases hstored : b.stored uuid with
  | none =>
    have hnone : t.tensors uuid = none := by
      rw [← Option.not_isSome_iff_eq_none]
      intro hsome
      have hkept := h.kept uuid hs.1 hsome
      rw [hstored] at hkept
      cases hkept
    rw [hnone] at hheld
    have hrid : t.uuidToRid uuid = none := by simpa using hheld
    exact ⟨hnone, hrid⟩
  | some s =>
    obtain ⟨rid, hrid⟩ := Option.isSome_iff_exists.1 (hheld.2 (hs.2 (by rw [hstored]; rfl)))
    obtain ⟨hsame, htensor⟩ := h.both uuid s rid hstored hrid
    exact ⟨htensor, by rw [hrid, ← hsame]; rfl⟩

omit [DecidableEq Rid] in
/-- Both find the same uuids collectable. -/
theorem Agrees.canGc_eq (h : Agrees t b) (uuid : ℕ) :
    t.bookkeeping.canGc uuid = b.canGc uuid := by
  unfold PythonTensorBookkeeping.canGc Bookkeeping.canGc
  rw [h.records]
  cases b.refInfo uuid <;> rfl

omit [DecidableEq Rid] in
/-- Nothing tracked or held. -/
theorem agrees_empty : Agrees (TensorStore.empty : TensorStore Rid T) Bookkeeping.empty := by
  constructor
  · exact fun _ => rfl
  · intro uuid e he
    cases he
  · exact Bookkeeping.inverse_empty
  · exact TensorStore.owned_empty
  · intro uuid s rid hs
    cases hs
  · intro uuid _ hsome
    cases hsome
  · exact fun _ _ => rfl

omit [DecidableEq Rid] in
/-- Editing a record in the same way on both sides. -/
theorem Agrees.onEntry (h : Agrees t b) (uuid : ℕ) {edit : ReferenceInfo → ReferenceInfo}
    {edit' : PyReferenceInfo → PyReferenceInfo}
    (hsame : ∀ e, b.refInfo uuid = some e → (edit e).seen = edit' e.seen)
    (hrange : ∀ e, b.refInfo uuid = some e → InRange (edit e).refCount) :
    Agrees { t with bookkeeping := t.bookkeeping.onEntry uuid edit' } (b.onEntry uuid edit) := by
  constructor
  · intro u
    by_cases hu : u = uuid
    · subst hu
      simp only [PythonTensorBookkeeping.onEntry, Bookkeeping.onEntry, Function.update_self]
      rw [h.records]
      cases he : b.refInfo u with
      | none => rfl
      | some e => exact congrArg some (hsame e he).symm
    · simp [PythonTensorBookkeeping.onEntry, Bookkeeping.onEntry, hu, h.records]
  · intro u e he
    by_cases hu : u = uuid
    · subst hu
      simp only [Bookkeeping.onEntry, Function.update_self] at he
      obtain ⟨e₀, he₀, rfl⟩ := Option.map_eq_some_iff.1 he
      exact hrange e₀ he₀
    · simp only [Bookkeeping.onEntry, Function.update_of_ne hu] at he
      exact h.range u e he
  · exact h.inverse.congr rfl rfl
  · exact h.owned.congr rfl rfl rfl
  · exact h.both
  · exact h.kept
  · intro u hu
    have hnone := h.awaiting u hu
    by_cases huu : u = uuid
    · subst huu
      simp [Bookkeeping.onEntry, hnone]
    · simp [Bookkeeping.onEntry, huu, hnone]

omit [DecidableEq Rid] in
/-- Tracking a uuid with no teardown outstanding. -/
theorem Agrees.putTensor (h : Agrees t b) {uuid : ℕ} (hs : Settled t b uuid) :
    Agrees (t.putTensor uuid) (b.putTensor uuid) := by
  constructor
  · intro u
    by_cases hu : u = uuid
    · subst hu
      simp [TensorStore.putTensor, PythonTensorBookkeeping.putTensor, Bookkeeping.putTensor,
        ReferenceInfo.seen]
    · simp [TensorStore.putTensor, PythonTensorBookkeeping.putTensor, Bookkeeping.putTensor, hu,
        h.records]
  · intro u e he
    by_cases hu : u = uuid
    · subst hu
      simp only [Bookkeeping.putTensor, Function.update_self] at he
      cases he
      exact ⟨by norm_num, by norm_num⟩
    · simp only [Bookkeeping.putTensor, Function.update_of_ne hu] at he
      exact h.range u e he
  · exact h.inverse.congr rfl rfl
  · exact h.owned.congr rfl rfl rfl
  · exact h.both
  · exact h.kept
  · intro u hu
    have hne : u ≠ uuid := by
      rintro rfl
      exact hu hs
    have hnone := h.awaiting u hu
    simp [Bookkeeping.putTensor, hne, hnone]

/-- The tensors held once one more is. -/
theorem stored_own (b : Bookkeeping Rid T) (rid : Rid) (uuid : ℕ) (tensor : T) :
    (b.own rid uuid tensor).stored = Function.update b.stored uuid (some ⟨tensor, rid⟩) := rfl

/-- Holding a tensor that no other request answers for. -/
theorem Agrees.own (h : Agrees t b) {rid : Rid} {uuid : ℕ} (halone : t.OwnsAlone rid uuid)
    (tensor : T) : Agrees (t.own rid uuid tensor) (b.own rid uuid tensor) := by
  constructor
  · exact h.records
  · exact h.range
  · exact h.inverse.own rid uuid tensor
  · exact h.owned.own halone tensor
  · intro u s r hstored hr
    rw [stored_own] at hstored
    by_cases hu : u = uuid
    · subst hu
      simp only [TensorStore.own, Function.update_self] at hstored hr ⊢
      cases hstored
      cases hr
      exact ⟨rfl, rfl⟩
    · simp only [TensorStore.own, Function.update_of_ne hu] at hstored hr ⊢
      exact h.both u s r hstored hr
  · intro u hforgotten
    rw [stored_own]
    by_cases hu : u = uuid
    · subst hu
      simp
    · simpa [TensorStore.own, hu] using h.kept u hforgotten
  · intro u hu
    refine h.awaiting u fun hold => hu ⟨hold.1, ?_⟩
    rw [stored_own]
    by_cases huu : u = uuid
    · subst huu
      simp [TensorStore.own]
    · simpa [TensorStore.own, huu] using hold.2

omit [DecidableEq Rid] in
/-- A call that leaves each uuid as it was, or takes it from both. -/
theorem Agrees.leaves (h : Agrees t b) (hinverse : b'.Inverse) (howned : t'.Owned)
    (hat : ∀ uuid, (t'.view uuid = t.view uuid ∧ b'.refInfo uuid = b.refInfo uuid ∧
        b'.stored uuid = b.stored uuid) ∨
      (t'.bookkeeping.refInfo uuid = none ∧ t'.tensors uuid = none ∧ b'.refInfo uuid = none)) :
    Agrees t' b' := by
  have hsame : ∀ uuid, t'.view uuid = t.view uuid →
      t'.bookkeeping.refInfo uuid = t.bookkeeping.refInfo uuid ∧
        t'.tensors uuid = t.tensors uuid ∧ t'.uuidToRid uuid = t.uuidToRid uuid ∧
        (uuid ∈ t'.forgotten ↔ uuid ∈ t.forgotten) := by
    intro uuid hview
    simp only [TensorStore.view, Prod.mk.injEq, decide_eq_decide] at hview
    exact hview
  constructor
  · intro uuid
    rcases hat uuid with ⟨hview, hinfo, _⟩ | ⟨hpy, _, hrust⟩
    · rw [(hsame uuid hview).1, hinfo]
      exact h.records uuid
    · rw [hpy, hrust]
      rfl
  · intro uuid e he
    rcases hat uuid with ⟨_, hinfo, _⟩ | ⟨_, _, hrust⟩
    · exact h.range uuid e (hinfo ▸ he)
    · rw [hrust] at he
      cases he
  · exact hinverse
  · exact howned
  · intro uuid s rid hs hrid
    rcases hat uuid with ⟨hview, _, hstored⟩ | ⟨_, hgone, _⟩
    · obtain ⟨_, htensor, howner, _⟩ := hsame uuid hview
      rw [hstored] at hs
      rw [howner] at hrid
      rw [htensor]
      exact h.both uuid s rid hs hrid
    · have hheld := (howned.held uuid).1 (by rw [hrid]; rfl)
      rw [hgone] at hheld
      cases hheld
  · intro uuid hforgotten hsome
    rcases hat uuid with ⟨hview, _, hstored⟩ | ⟨_, hgone, _⟩
    · obtain ⟨_, htensor, _, hiff⟩ := hsame uuid hview
      rw [htensor] at hsome
      rw [hstored]
      exact h.kept uuid (fun hold => hforgotten (hiff.2 hold)) hsome
    · rw [hgone] at hsome
      cases hsome
  · intro uuid hnot
    rcases hat uuid with ⟨hview, hinfo, hstored⟩ | ⟨_, _, hrust⟩
    · obtain ⟨_, htensor, _, hiff⟩ := hsame uuid hview
      rw [hinfo]
      refine h.awaiting uuid fun hold => hnot ⟨fun hnew => hold.1 (hiff.1 hnew), ?_⟩
      rw [hstored, htensor]
      exact hold.2
    · exact hrust

omit [DecidableEq Rid] in
/-- Neither side has a record of a uuid that one holds and the other does
not. -/
theorem Agrees.untracked (h : Agrees t b) {uuid : ℕ}
    (hnot : ¬Settled t b uuid) : t.bookkeeping.refInfo uuid = none ∧ b.refInfo uuid = none := by
  have hnone := h.awaiting uuid hnot
  rw [h.records, hnone]
  exact ⟨rfl, rfl⟩

/-- Removing a tensor ends the teardown that was outstanding for it. -/
theorem Agrees.removeTensor (h : Agrees t b) (uuid : ℕ) :
    Agrees (t.removeTensor uuid) (b.removeTensor uuid) := by
  have hinverse : (b.removeTensor uuid).Inverse := by
    rw [Bookkeeping.removeTensor_eq]
    split
    · exact (h.inverse.takeStored uuid).congr rfl rfl
    · exact h.inverse
  refine h.leaves hinverse (h.owned.removeTensor uuid) fun u => ?_
  rw [Bookkeeping.removeTensor_eq]
  by_cases hu : u = uuid
  · subst hu
    have hview := t.view_removeTensor u
    have hgone : ∀ e, ¬Settled t b u ∨ (b.stored u).isSome = true →
        e = (if (b.stored u).isSome then (b.takeStored u).2.forgetTensor u else b).refInfo u →
        e = none := by
      intro e hwhy he
      rw [he]
      split
      · simp [Bookkeeping.forgetTensor]
      · rename_i hnot
        exact (h.untracked (hwhy.resolve_right hnot)).2
    cases htensor : t.tensors u with
    | some tensor =>
      rw [htensor] at hview
      simp only [TensorStore.view, Option.isSome_some, if_true, Prod.mk.injEq] at hview
      obtain ⟨hinfo, hnone, _, _⟩ := hview
      refine Or.inr ⟨?_, hnone, hgone _ ?_ rfl⟩
      · rw [hinfo]
        split
        · rename_i hforgotten
          exact (h.untracked fun hs => hs.1 hforgotten).1
        · rfl
      · by_cases hforgotten : u ∈ t.forgotten
        · exact Or.inl fun hs => hs.1 hforgotten
        · exact Or.inr (h.kept u hforgotten (by rw [htensor]; rfl))
    | none =>
      rw [htensor] at hview
      simp only [TensorStore.view, Option.isSome_none, Bool.false_eq_true, if_false,
        Prod.mk.injEq] at hview
      obtain ⟨hinfo, hnone, howner, hforgot⟩ := hview
      by_cases hs : Settled t b u
      · have hstored : (b.stored u).isSome = false := by
          cases hsome : (b.stored u).isSome with
          | false => rfl
          | true =>
            have hheld := hs.2 hsome
            rw [htensor] at hheld
            cases hheld
        refine Or.inl ⟨?_, ?_, ?_⟩
        · simp only [TensorStore.view, hinfo, hnone, howner, hforgot, htensor, hs.1, decide_false]
        · rw [hstored]
          rfl
        · rw [hstored]
          rfl
      · exact Or.inr ⟨hinfo.trans (h.untracked hs).1, hnone, hgone _ (Or.inl hs) rfl⟩
  · refine Or.inl ⟨t.view_removeTensor_other hu, ?_, ?_⟩
    · split
      · simp [Bookkeeping.forgetTensor, hu, Bookkeeping.refInfo_takeStored]
      · rfl
    · split
      · simp [Bookkeeping.forgetTensor, hu, Bookkeeping.stored_takeStored]
      · rfl

/-- The teardown of a request. -/
theorem Agrees.releaseRequest (h : Agrees t b) (rsOrder pyOrder : SetOrder) (rid : Rid)
    (force : Bool) :
    Agrees (t.releaseRequest pyOrder rid force) (b.releaseRequest rsOrder rid force).1 := by
  have hinverse : (b.releaseRequest rsOrder rid force).1.Inverse :=
    h.inverse.call rsOrder (.releaseRequest rid force)
  refine h.leaves hinverse (h.owned.releaseRequest pyOrder rid force) fun u => ?_
  have hpy := t.view_releaseRequest h.owned pyOrder rid force u
  have hrs := b.view_releaseRequest h.inverse rsOrder rid force u
  -- what Rust has at the uuid once it is known what the release makes of it
  have hkept : ∀ v, Bookkeeping.view (b.releaseRequest rsOrder rid force) u = v →
      (b.releaseRequest rsOrder rid force).1.refInfo u = v.1 ∧
        (b.releaseRequest rsOrder rid force).1.stored u = v.2.1 := by
    intro v hv
    rw [← hv]
    exact ⟨rfl, rfl⟩
  have hgone : ∀ v, (t.releaseRequest pyOrder rid force).view u = v →
      (t.releaseRequest pyOrder rid force).bookkeeping.refInfo u = v.1 ∧
        (t.releaseRequest pyOrder rid force).tensors u = v.2.1 := by
    intro v hv
    rw [← hv]
    exact ⟨rfl, rfl⟩
  by_cases hs : Settled t b u
  · obtain ⟨htensor, howner⟩ := h.tensors_eq hs
    rw [howner] at hpy
    by_cases hmine : (b.stored u).map (·.rid) = some rid
    · rw [if_pos hmine] at hpy hrs
      obtain ⟨s, hstored, _⟩ := Option.map_eq_some_iff.1 hmine
      rw [hstored] at htensor
      have hdown : TensorStore.tornDown force (t.view u) =
          if (!t.bookkeeping.canGc u && !force) = true then t.view u
          else if (t.tensors u).isNone = true then t.view u
          else (if decide (u ∈ t.forgotten) = true then t.bookkeeping.refInfo u else none,
            none, none, false) := rfl
      have hreleased : Bookkeeping.released force (Bookkeeping.view (b, {}) u) =
          if (!b.canGc u && !force) = true then Bookkeeping.view (b, {}) u
          else if (b.isRegistered u || (b.refInfo u).any fun e => e.teardown) = true then
            (none, b.stored u, 1)
          else (none, none, 0) := rfl
      rw [hdown, h.canGc_eq, htensor] at hpy
      rw [hreleased] at hrs
      by_cases hstay : (!b.canGc u && !force) = true
      · rw [if_pos hstay] at hpy hrs
        exact Or.inl ⟨hpy, hkept _ hrs⟩
      · rw [if_neg hstay] at hpy hrs
        refine Or.inr ⟨?_, (hgone _ hpy).2, ?_⟩
        · rw [(hgone _ hpy).1]
          simp [hs.1]
        · rw [(hkept _ hrs).1]
          split <;> rfl
    · rw [if_neg hmine] at hpy hrs
      exact Or.inl ⟨hpy, hkept _ hrs⟩
  · obtain ⟨hinfo, hinfo'⟩ := h.untracked hs
    have hdown : TensorStore.tornDown force (t.view u) =
        if (!force) = true then t.view u
        else if (t.tensors u).isNone = true then t.view u else (none, none, none, false) := by
      simp [TensorStore.tornDown, TensorStore.view, hinfo]
    have hreleased : Bookkeeping.released force (Bookkeeping.view (b, {}) u) =
        if (!force) = true then Bookkeeping.view (b, {}) u else (none, none, 0) := by
      simp [Bookkeeping.released, Bookkeeping.view, hinfo']
    rw [hdown] at hpy
    rw [hreleased] at hrs
    cases force with
    | false =>
      simp only [Bool.not_false, if_true, ite_self] at hpy hrs
      exact Or.inl ⟨hpy, hkept _ hrs⟩
    | true =>
      simp only [Bool.not_true, Bool.false_eq_true, if_false] at hpy hrs
      have hnone : (b.releaseRequest rsOrder rid true).1.refInfo u = none := by
        rw [(hkept _ hrs).1]
        split
        · rfl
        · exact hinfo'
      cases htensor : t.tensors u with
      | none =>
        rw [htensor] at hpy
        simp only [Option.isNone_none, if_true, ite_self] at hpy
        exact Or.inr ⟨(hgone _ hpy).1.trans hinfo, (hgone _ hpy).2.trans htensor, hnone⟩
      | some tensor =>
        rw [htensor] at hpy
        simp only [Option.isNone_some, Bool.false_eq_true, if_false] at hpy
        by_cases howner : t.uuidToRid u = some rid
        · rw [if_pos howner] at hpy
          exact Or.inr ⟨(hgone _ hpy).1, (hgone _ hpy).2, hnone⟩
        · rw [if_neg howner] at hpy
          -- a tensor both hold is held for the same request
          have hother : (b.stored u).map (·.rid) ≠ some rid := by
            intro hmine
            obtain ⟨s, hstored, hrid⟩ := Option.map_eq_some_iff.1 hmine
            obtain ⟨r, hr⟩ := Option.isSome_iff_exists.1
              ((h.owned.held u).2 (by rw [htensor]; rfl))
            rw [← hrid, (h.both u s r hstored hr).1] at howner
            exact howner hr
          rw [if_neg hother] at hrs
          exact Or.inl ⟨hpy, hkept _ hrs⟩

end Mstar.TensorBooks
