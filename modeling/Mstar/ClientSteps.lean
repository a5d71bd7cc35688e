import Mstar.ClientInvariants

/-!
# Steps of a call's client streams

The opening, an append that goes through and a route keep the ledger. An append is
stored and then held or sent, and a first route sends what was held and then the
ends; either way what a rank gets of a stream is what it is due.
-/

namespace Mstar.ClientStreams

variable {ν ρ κ π τ β : Type*} [DecidableEq ν]

/-- Where nothing of a stream is given, nothing of it is stored. -/
theorem carried_nil_of_given {uuid : ℕ} {items : List (ν × List τ)} {n : ν}
    (h : given items n = []) : carried (storeAll uuid items).1 n = [] := by
  rw [← tensors_carried uuid items n, List.map_eq_nil_iff] at h
  exact h

/-- Items of other streams give a stream nothing. -/
theorem given_nil {items : List (ν × List τ)} {n : ν} (h : ∀ p ∈ items, p.1 ≠ n) :
    given items n = [] := by
  unfold given
  rw [List.flatMap_eq_nil_iff]
  exact fun p hp => if_neg (h p hp)

omit [DecidableEq ν] in
/-- A stored stream is one that was given. -/
theorem name_storeAll {uuid : ℕ} {items : List (ν × List τ)} {s : ν × List (Info τ)}
    (hs : s ∈ (storeAll uuid items).1) : ∃ p ∈ items, p.1 = s.1 := by
  have hin := List.mem_map_of_mem (f := fun s : ν × List (Info τ) => (s.1, s.2.map Prod.snd)) hs
  rw [items_storeAll] at hin
  exact ⟨_, hin, rfl⟩

section Storing

variable {w : Worker ν ρ κ π τ β} {offers : List (Offer ν τ β)}

omit [DecidableEq ν] in
/-- Offers that are stored: fresh uuids, each with one reference. -/
theorem Fresh.stored (h : Fresh w offers) (items : List (ν × List τ)) (onLate : Option β) :
    Fresh (w.storeHeld items).1 (offers ++ takenIn onLate (storeAll w.nextUuid items).1) ∧
      (∀ u ∈ (infosOf (takenIn onLate (storeAll w.nextUuid items).1)).map Prod.fst,
        (w.storeHeld items).1.refs u = 1) ∧
      ∀ u ∈ (infosOf offers).map Prod.fst, (w.storeHeld items).1.refs u = w.refs u := by
  obtain ⟨k, hnext, huuids⟩ := uuids_storeAll w.nextUuid items
  have hfrom (u : ℕ) : u ∈ ((storeAll w.nextUuid items).1.flatMap Prod.snd).map Prod.fst ↔
      w.nextUuid ≤ u ∧ u < w.nextUuid + k := by
    rw [huuids, List.mem_range'_1]
  have hcount : (w.storeHeld items).1.nextUuid = w.nextUuid + k := hnext
  refine ⟨⟨?_, ?_, ?_⟩, ?_, ?_⟩
  · rw [infosOf_append, infosOf_takenIn, List.map_append, List.nodup_append']
    refine ⟨h.nodup, huuids ▸ List.nodup_range', ?_⟩
    intro u hold hnew
    have hless := h.below u hold
    have hmore := (hfrom u).1 hnew
    omega
  · intro u hu
    rw [infosOf_append, infosOf_takenIn, List.map_append, List.mem_append, hfrom] at hu
    rcases hu with hold | hnew
    · have hless := h.below u hold
      omega
    · omega
  · intro u hu
    have hout : (w.storeHeld items).1.refs u = w.refs u := by
      refine increment_other w.refs fun hnew => ?_
      have hmore := (hfrom u).1 hnew
      omega
    rw [hout]
    exact h.unborn u (by omega)
  · intro u hu
    rw [infosOf_takenIn] at hu
    have hone : (w.storeHeld items).1.refs u = w.refs u + 1 := increment_mem w.refs hu
    rw [hone, h.unborn u ((hfrom u).1 hu).1]
  · intro u hold
    refine increment_other w.refs fun hnew => ?_
    have hless := h.below u hold
    have hmore := (hfrom u).1 hnew
    omega

omit [DecidableEq ν] in
/-- Nothing to store. -/
theorem storeHeld_nil (w : Worker ν ρ κ π τ β) : w.storeHeld [] = (w, []) := by
  have hrefs : increment 1 ([] : List (Info τ)) w.refs = w.refs := by
    funext u
    exact increment_other w.refs (by simp)
  simp only [Worker.storeHeld, storeAll, List.flatMap_nil, hrefs]

end Storing

variable [DecidableEq ρ] {d : Deployment ν π τ} {w : Worker ν ρ κ π τ β} {b : Book ν ρ τ β}

omit [DecidableEq ρ] in
/-- A call that opens holds its first items. -/
theorem finishInput_ok {items : List (ν × List τ)} (ends : ν → Bool)
    (hok : (chargeStreamItems d (fun _ => 0) items).2 = true) :
    ∃ held : List (HeldItems ν τ β),
      w.finishInput d items ends = { (w.storeHeld items).1 with
        call := some ⟨none, held, fun _ => 0, ends,
          (chargeStreamItems d (fun _ => 0) items).1⟩ } ∧
      (held.flatMap fun h => takenIn h.onLate h.signals) =
        takenIn none (storeAll w.nextUuid items).1 := by
  unfold Worker.finishInput
  simp only [hok, if_true]
  cases items with
  | nil =>
    refine ⟨[], ?_, rfl⟩
    rw [storeHeld_nil]
    rfl
  | cons p items =>
    refine ⟨[⟨(w.storeHeld (p :: items)).2, none⟩], rfl, ?_⟩
    simp only [List.flatMap_cons, List.flatMap_nil, List.append_nil]
    rfl

omit [DecidableEq ρ] in
/-- No stream is charged before the call opens. -/
theorem charges_blank : Charges d (fun _ => 0) (Book.blank : Book ν ρ τ β).tensors := by
  constructor
  · intro n limits _
    exact (charge_nil limits).symm
  · intro n limits _
    exact Nat.zero_le _

/-- Everything of a stream that is due is what was stored for it. -/
theorem opening_inv {items : List (ν × List τ)} {ends : ν → Bool}
    (hends : ∀ n, ends n = true → n ∈ d.edges) (hsent : w.sent = [])
    (hborn : ∀ u, w.nextUuid ≤ u → w.refs u = 0) :
    Inv d (w.finishInput d items ends) (Book.opening d w.nextUuid items ends) := by
  have hfits : (chargeStreamItems d (fun _ => 0) items).2 =
      (Book.blank : Book ν ρ τ β).fits d items :=
    charge_iff_fits charges_blank items items (fun _ => rfl) fun _ hp _ => hp
  have hrun := (charges_blank (ρ := ρ) (β := β) (d := d)).run items
  have hnone : Fresh w ([] : List (Offer ν τ β)) :=
    ⟨List.nodup_nil, fun u hu => by simp [infosOf] at hu, hborn⟩
  unfold Book.opening
  rw [← hfits]
  cases hok : (chargeStreamItems d (fun _ => 0) items).2 with
  | true =>
    obtain ⟨held, hopen, hheld⟩ := finishInput_ok (w := w) ends hok
    obtain ⟨hfresh, hone, -⟩ := hnone.stored items none
    have hcharges : Charges d (chargeStreamItems d (fun _ => 0) items).1
        (fun n => given items n) := hrun.stands hok
    have htensors : (⟨takenIn none (storeAll w.nextUuid items).1, ends, fun _ => false, none⟩ :
        Book ν ρ τ β).tensors = fun n => given items n := by
      funext n
      unfold Book.tensors Book.accepted
      rw [acceptedOf_takenIn, tensors_carried]
    rw [if_pos rfl, hopen]
    constructor
    · intro r n
      show deliveries w.sent r n = _
      rw [hsent]
      rfl
    · exact ⟨hfresh.nodup, hfresh.below, hfresh.unborn⟩
    · intro _ o ho info hinfo
      exact hone info.1 (mem_uuids ho hinfo)
    · intro o ho hun
      obtain ⟨s, -, rfl⟩ := List.mem_map.1 ho
      rcases hun with hun | ⟨-, ranks, hranks, -⟩
      · cases hun
      · cases hranks
    · intro o ho hfate
      obtain ⟨s, -, rfl⟩ := List.mem_map.1 ho
      cases hfate
    · intro hno
      cases hno
    · rintro call hcall n limits hlimits
      obtain rfl := Option.some.inj hcall
      exact hcharges.within n limits hlimits
    · intro n limits hlimits
      rw [htensors]
      have hstands := hcharges.stands n limits hlimits
      have hwithin := hcharges.within n limits hlimits
      dsimp only at hstands ⊢
      omega
    · rintro call hcall -
      obtain rfl := Option.some.inj hcall
      refine ⟨fun n => (Bool.or_false _).symm, by rw [htensors]; exact hcharges, hends,
        Or.inl ⟨rfl, rfl, fun _ => rfl, fun _ => rfl, ?_⟩⟩
      dsimp only
      rw [hheld]
      symm
      rw [List.filter_eq_self]
      intro o ho
      obtain ⟨s, -, rfl⟩ := List.mem_map.1 ho
      rfl
  | false =>
    have hout : w.finishInput d items ends = { w with call := none, tornDown := true } := by
      unfold Worker.finishInput
      simp only [hok]
      rfl
    have hnothing (n : ν) : (⟨turnedAway none .failed items, fun _ => false, fun _ => false,
        none⟩ : Book ν ρ τ β).tensors n = [] := by
      unfold Book.tensors Book.accepted
      rw [acceptedOf_turnedAway rfl]
      rfl
    rw [if_neg (by simp), hout]
    constructor
    · intro r n
      show deliveries w.sent r n = _
      rw [hsent]
      rfl
    · refine ⟨?_, ?_, hborn⟩ <;> rw [infosOf_turnedAway rfl]
      · exact List.nodup_nil
      · intro u hu
        simp at hu
    · intro hno
      exact absurd rfl hno
    · intro o ho hun
      exact absurd hun (Book.not_unsent (Inv.mem_turnedAway ho).2.1)
    · intro _ _ _
      rfl
    · intro _
      rfl
    · intro call hcall
      cases hcall
    · intro n limits _
      rw [hnothing, charge_nil]
      exact Nat.zero_le _
    · intro call hcall
      cases hcall

end Mstar.ClientStreams
