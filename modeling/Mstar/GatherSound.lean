import Mathlib.Data.List.Nodup
import Mathlib.Tactic.Ring
import Mstar.GatherStore

/-!
# Every reference is accounted for

Each operation of the store keeps it sound: whoever has a share in a tensor
finds it held, and a tensor goes with its last share.
-/

namespace Mstar.Gather

variable {α : Type} {source : Uuid → List α} {s : Store α} {shares : List (Share α)}
  {uuid : Uuid} {tensor : List α} {info : TensorInfo}

/-- One more share counts for its tensor. -/
theorem shareCount_cons (uuid other : Uuid) (tensor : List α) (shares : List (Share α)) :
    shareCount ((uuid, tensor) :: shares) other =
      shareCount shares other + if uuid = other then 1 else 0 := by
  simp [shareCount, List.count_cons]

/-- And in the balance. -/
theorem balance_cons (uuid other : Uuid) (tensor : List α) (shares : List (Share α)) :
    s.balance ((uuid, tensor) :: shares) other =
      s.balance shares other + if uuid = other then 1 else 0 := by
  rw [Store.balance, Store.balance, shareCount_cons]
  push_cast
  ring

/-- A tensor is counted where it has a share. -/
theorem shareCount_pos : 0 < shareCount shares uuid ↔ ∃ tensor, (uuid, tensor) ∈ shares := by
  simp [shareCount, List.count_pos_iff]

/-- The order of shares does not matter. -/
theorem shareCount_perm {other : List (Share α)} (h : shares.Perm other) :
    shareCount shares uuid = shareCount other uuid :=
  (h.map _).count_eq _

/-- The order of the shares does not matter. -/
theorem Sound.perm {other : List (Share α)} (h : Sound source s shares)
    (hp : shares.Perm other) : Sound source s other := by
  have hcount : ∀ uuid, shareCount other uuid = shareCount shares uuid :=
    fun uuid => (shareCount_perm hp).symm
  have hbalance : ∀ uuid, s.balance other uuid = s.balance shares uuid := by
    intro uuid
    rw [Store.balance, Store.balance, hcount]
  exact { h with
    backed := fun share hshare => h.backed share (hp.mem_iff.2 hshare)
    fresh := fun n hn => { h.fresh n hn with shares := hcount _ ▸ (h.fresh n hn).shares }
    unique := fun uuid hu => hcount uuid ▸ h.unique uuid hu
    gone := fun uuid hu h0 => h.gone uuid hu (hcount uuid ▸ h0)
    enough := fun uuid held hh => hbalance uuid ▸ h.enough uuid held hh
    exact := fun uuid held hh ha => hbalance uuid ▸ h.exact uuid held hh ha }

/-- Whoever has a share finds the tensor held. -/
theorem Sound.held_of_share (h : Sound source s shares)
    (hshare : 0 < shareCount shares uuid) : ∃ held, s.held uuid = some held := by
  obtain ⟨tensor, hmem⟩ := shareCount_pos.1 hshare
  obtain ⟨held, hheld, -⟩ := h.backed _ hmem
  exact ⟨held, hheld⟩

/-- A transit reference is counted once, and only for what was handed on. -/
theorem Sound.transit_le (h : Sound source s shares) (uuid : Uuid) :
    s.transit.count uuid ≤ if uuid ∈ s.readFinished then 1 else 0 := by
  split
  next => exact List.nodup_iff_count_le_one.1 h.transitOnce uuid
  next hnot => exact (List.count_eq_zero.2 fun hmem => hnot (h.transitRead uuid hmem)).le

/-- Nothing is in transit under a uuid to come. -/
theorem Sound.transit_fresh (h : Sound source s shares) {n : ℕ} (hn : s.minted ≤ n) :
    s.transit.count (.own n) = 0 := by
  have hle := h.transit_le (.own n)
  rw [if_neg (h.fresh n hn).readFinished] at hle
  omega

/-- Letting go of a share keeps the rest backed: the tensor goes only with its
last share. -/
theorem Sound.release (h : Sound source s ((uuid, tensor) :: shares)) :
    Sound source (s.release uuid) shares := by
  have hcount : ∀ other, shareCount ((uuid, tensor) :: shares) other =
      shareCount shares other + if uuid = other then 1 else 0 :=
    fun other => shareCount_cons uuid other tensor shares
  have hself : shareCount ((uuid, tensor) :: shares) uuid = shareCount shares uuid + 1 := by
    rw [hcount, if_pos rfl]
  have hpos : 0 < shareCount ((uuid, tensor) :: shares) uuid := by omega
  obtain ⟨held, hheld⟩ := h.held_of_share hpos
  have hnew : (s.release uuid).held uuid =
      if held.refCnt - 1 ≤ 0 then none else some { held with refCnt := held.refCnt - 1 } := by
    rw [Store.release]
    simp [hheld]
  have hother : ∀ other, other ≠ uuid → (s.release uuid).held other = s.held other := by
    intro other hne
    rw [Store.release]
    simp [Function.update_of_ne hne]
  have henough := h.enough uuid held hheld
  have htransit := h.transit_le uuid
  have hlast : held.refCnt - 1 ≤ 0 → shareCount shares uuid = 0 := by
    intro hle
    rw [Store.balance, hself] at henough
    by_cases hu : uuid ∈ s.unfetched
    · have hone := h.unique uuid hu
      omega
    · rw [if_neg hu] at henough
      split at henough
      next hr =>
        rw [if_pos hr] at htransit
        omega
      next hr => omega
  have hshrink : ∀ other held', (s.release uuid).held other = some held' →
      ∃ old, s.held other = some old ∧ held'.tensor = old.tensor ∧ held'.slice = old.slice ∧
        held'.refCnt = old.refCnt - if uuid = other then 1 else 0 := by
    intro other held' hh
    by_cases hne : other = uuid
    · subst hne
      rw [hnew] at hh
      split at hh
      · simp at hh
      · obtain rfl := Option.some.inj hh
        exact ⟨held, hheld, rfl, rfl, by simp⟩
    · rw [hother other hne] at hh
      exact ⟨held', hh, rfl, rfl, by simp [Ne.symm hne]⟩
  have hbalance : ∀ other, (s.release uuid).balance shares other =
      s.balance ((uuid, tensor) :: shares) other - if uuid = other then 1 else 0 := by
    intro other
    have hsame : (s.release uuid).balance shares other = s.balance shares other := rfl
    rw [hsame, balance_cons]
    omega
  constructor
  · intro share hshare
    obtain ⟨old, hold, htensor⟩ := h.backed share (List.mem_cons_of_mem _ hshare)
    by_cases hne : share.1 = uuid
    · rw [hne] at hold ⊢
      obtain rfl := Option.some.inj (hheld.symm.trans hold)
      have hpos : 0 < shareCount shares uuid :=
        shareCount_pos.2 ⟨share.2, by rw [← hne]; exact hshare⟩
      rw [hnew, if_neg fun hle => by have h0 := hlast hle; omega]
      exact ⟨_, rfl, htensor⟩
    · rw [hother _ hne]
      exact ⟨old, hold, htensor⟩
  · intro n held' hh
    obtain ⟨old, hold, ht, hs, -⟩ := hshrink _ _ hh
    rw [ht, hs]
    exact h.peers n old hold
  · intro origin slice other held' hslice hh
    obtain ⟨old, hold, ht, -, -⟩ := hshrink _ _ hh
    rw [ht]
    exact h.slices origin slice other old hslice hold
  · exact h.sliceKind
  · intro n hn
    have hfresh := h.fresh n hn
    have hcn := hcount (.own n)
    rw [hfresh.shares] at hcn
    have hne : (.own n : Uuid) ≠ uuid := by
      intro heq
      rw [if_pos heq.symm] at hcn
      omega
    exact { hfresh with
      held := by rw [hother _ hne]; exact hfresh.held
      shares := by rw [if_neg (Ne.symm hne)] at hcn; omega }
  · exact h.unfetchedOwn
  · intro other hu
    have hone := h.unique other hu
    rw [hcount] at hone
    omega
  · intro other hu h0
    change other ∈ s.unfetched at hu
    by_cases hne : other = uuid
    · subst hne
      have hexact : held.refCnt ≤ 1 := by
        have hag : other ∉ s.again := fun hag => (h.againRead other hag).2 hu
        rw [h.exact other held hheld hag, Store.balance, hself, h0, if_pos hu]
        split
        next hr =>
          rw [if_pos hr] at htransit
          omega
        next hr =>
          rw [if_neg hr] at htransit
          omega
      rw [hnew, if_pos (by omega)]
    · rw [hother other hne]
      apply h.gone other hu
      rw [hcount, if_neg (Ne.symm hne), h0]
  · exact h.transitRead
  · exact h.transitOnce
  · exact h.againRead
  · exact h.againPeer
  · intro other held' hh
    obtain ⟨old, hold, -, -, hr⟩ := hshrink _ _ hh
    have hle := h.enough other old hold
    rw [hbalance, hr]
    omega
  · intro other held' hh ha
    obtain ⟨old, hold, -, -, hr⟩ := hshrink _ _ hh
    rw [hbalance, hr, h.exact other old hold ha]

/-- One more share in a fetched tensor takes one more reference. -/
theorem Sound.addRefs {held : Held α} (h : Sound source s shares)
    (hheld : s.held uuid = some held) (ht : held.tensor = tensor) (hu : uuid ∉ s.unfetched) :
    Sound source (s.addRefs uuid 1) ((uuid, tensor) :: shares) := by
  have hnew : (s.addRefs uuid 1).held uuid =
      some { held with refCnt := held.refCnt + 1 } := by
    rw [Store.addRefs]
    simp [hheld]
  have hother : ∀ other, other ≠ uuid → (s.addRefs uuid 1).held other = s.held other := by
    intro other hne
    rw [Store.addRefs]
    simp [Function.update_of_ne hne]
  have hgrow : ∀ other held', (s.addRefs uuid 1).held other = some held' →
      ∃ old, s.held other = some old ∧ held'.tensor = old.tensor ∧ held'.slice = old.slice ∧
        held'.refCnt = old.refCnt + if uuid = other then 1 else 0 := by
    intro other held' hh
    by_cases hne : other = uuid
    · subst hne
      obtain rfl := Option.some.inj (hnew.symm.trans hh)
      exact ⟨held, hheld, rfl, rfl, by simp⟩
    · rw [hother other hne] at hh
      exact ⟨held', hh, rfl, rfl, by simp [Ne.symm hne]⟩
  have hsame : ∀ other, (s.addRefs uuid 1).balance ((uuid, tensor) :: shares) other =
      s.balance shares other + if uuid = other then 1 else 0 :=
    fun other => balance_cons uuid other tensor shares
  constructor
  · intro share hshare
    rcases List.mem_cons.1 hshare with rfl | hold
    · exact ⟨_, hnew, ht⟩
    · obtain ⟨old, hh, htensor⟩ := h.backed share hold
      by_cases hne : share.1 = uuid
      · rw [hne] at hh ⊢
        obtain rfl := Option.some.inj (hheld.symm.trans hh)
        exact ⟨_, hnew, htensor⟩
      · rw [hother _ hne]
        exact ⟨old, hh, htensor⟩
  · intro n held' hh
    obtain ⟨old, hold, ht, hs, -⟩ := hgrow _ _ hh
    rw [ht, hs]
    exact h.peers n old hold
  · intro origin slice other held' hslice hh
    obtain ⟨old, hold, ht, -, -⟩ := hgrow _ _ hh
    rw [ht]
    exact h.slices origin slice other old hslice hold
  · exact h.sliceKind
  · intro n hn
    have hfresh := h.fresh n hn
    have hne : (.own n : Uuid) ≠ uuid := by
      intro heq
      rw [← heq, hfresh.held] at hheld
      simp at hheld
    exact { hfresh with
      held := by rw [hother _ hne]; exact hfresh.held
      shares := by rw [shareCount_cons, hfresh.shares, if_neg (Ne.symm hne)] }
  · exact h.unfetchedOwn
  · intro other ho
    have hne : uuid ≠ other := fun heq => hu (heq ▸ ho)
    rw [shareCount_cons, if_neg hne]
    exact h.unique other ho
  · intro other ho h0
    have hne : uuid ≠ other := fun heq => hu (heq ▸ ho)
    rw [shareCount_cons, if_neg hne] at h0
    rw [hother other (Ne.symm hne)]
    exact h.gone other ho h0
  · exact h.transitRead
  · exact h.transitOnce
  · exact h.againRead
  · exact h.againPeer
  · intro other held' hh
    obtain ⟨old, hold, -, -, hr⟩ := hgrow _ _ hh
    have hle := h.enough other old hold
    rw [hsame, hr]
    omega
  · intro other held' hh ha
    obtain ⟨old, hold, -, -, hr⟩ := hgrow _ _ hh
    rw [hsame, hr, h.exact other old hold ha]

/-- A tensor nobody holds has no share. -/
theorem Sound.shareCount_of_not_held (h : Sound source s shares)
    (hnone : s.held uuid = none) : shareCount shares uuid = 0 := by
  rw [← Nat.le_zero, ← Nat.not_lt]
  intro hpos
  obtain ⟨held, hheld⟩ := h.held_of_share hpos
  rw [hnone] at hheld
  simp at hheld

/-- What reading a tensor into the store takes: an entry of its own that
nobody holds, a peer's uuid or the next of this worker's. -/
structure Entry (source : Uuid → List α) (s : Store α) (uuid : Uuid) (tensor : List α)
    (slice : Slice) : Prop where
  /-- Nothing is held there. -/
  none : s.held uuid = none
  /-- Nothing is put there without a transit reference. -/
  fetched : uuid ∉ s.unfetched
  /-- A peer's uuid holds that peer's rows. -/
  peer : ∀ n, uuid = .peer n →
    tensor = ((source uuid).drop slice.start).take (slice.stop - slice.start)
  /-- A further slice's uuid holds that slice. -/
  slice : ∀ origin cut, s.sliceUuids origin cut = some uuid →
    tensor = ((source origin).drop cut.start).take (cut.stop - cut.start)
  /-- A uuid of this worker's is minted, and none of those to come. -/
  own : ∀ n, uuid = .own n → n < s.minted
  /-- Only a peer's uuid was handed on before. -/
  seen : uuid ∈ s.readFinished → ∃ n, uuid = .peer n

/-- A tensor read into the store has one share and a transit reference. -/
theorem Sound.fetchAt {slice : Slice} (h : Sound source s shares)
    (he : Entry source s uuid tensor slice) :
    Sound source { s.put uuid tensor slice 2 with
      again := if uuid ∈ s.readFinished then insert uuid s.again else s.again }
      ((uuid, tensor) :: shares) := by
  have hzero := h.shareCount_of_not_held he.none
  have hother : ∀ other, other ≠ uuid → (s.put uuid tensor slice 2).held other = s.held other := by
    intro other hne
    rw [Store.put]
    simp [Function.update_of_ne hne]
  have hnew : (s.put uuid tensor slice 2).held uuid = some ⟨tensor, slice, 2⟩ := by
    simp [Store.put]
  have htransit := h.transit_le uuid
  have hbal : ∀ other, Store.balance { s.put uuid tensor slice 2 with
      again := if uuid ∈ s.readFinished then insert uuid s.again else s.again }
      ((uuid, tensor) :: shares) other = s.balance shares other + if uuid = other then 1 else 0 :=
    fun other => balance_cons uuid other tensor shares
  constructor
  · intro share hshare
    dsimp only
    rcases List.mem_cons.1 hshare with rfl | hold
    · exact ⟨_, hnew, rfl⟩
    · have hne : share.1 ≠ uuid := by
        intro heq
        have hpos : 0 < shareCount shares uuid :=
          shareCount_pos.2 ⟨share.2, by rw [← heq]; exact hold⟩
        omega
      rw [hother _ hne]
      exact h.backed share hold
  · intro n held' hh
    dsimp only at hh
    by_cases hne : (.peer n : Uuid) = uuid
    · rw [hne, hnew] at hh
      obtain rfl := Option.some.inj hh
      rw [hne]
      exact he.peer n hne.symm
    · rw [hother _ hne] at hh
      exact h.peers n held' hh
  · intro origin cut other held' hslice hh
    dsimp only at hh
    by_cases hne : other = uuid
    · subst hne
      rw [hnew] at hh
      obtain rfl := Option.some.inj hh
      exact he.slice origin cut hslice
    · rw [hother _ hne] at hh
      exact h.slices origin cut other held' hslice hh
  · exact h.sliceKind
  · intro n hn
    have hfresh := h.fresh n hn
    have hne : (.own n : Uuid) ≠ uuid := by
      intro heq
      have hlt := he.own n heq.symm
      exact absurd hn (by change ¬ s.minted ≤ n; omega)
    exact { hfresh with
      held := by dsimp only; rw [hother _ hne]; exact hfresh.held
      shares := by rw [shareCount_cons, hfresh.shares, if_neg (Ne.symm hne)] }
  · exact h.unfetchedOwn
  · intro other ho
    have hne : uuid ≠ other := fun heq => he.fetched (heq ▸ ho)
    rw [shareCount_cons, if_neg hne]
    exact h.unique other ho
  · intro other ho h0
    have hne : uuid ≠ other := fun heq => he.fetched (heq ▸ ho)
    rw [shareCount_cons, if_neg hne] at h0
    dsimp only
    rw [hother other (Ne.symm hne)]
    exact h.gone other ho h0
  · exact h.transitRead
  · exact h.transitOnce
  · intro other ho
    dsimp only at ho
    split at ho
    next hr =>
      rcases Finset.mem_insert.1 ho with rfl | hold
      · exact ⟨hr, he.fetched⟩
      · exact h.againRead other hold
    next => exact h.againRead other ho
  · intro other ho
    dsimp only at ho
    split at ho
    next hr =>
      rcases Finset.mem_insert.1 ho with rfl | hold
      · exact he.seen hr
      · exact h.againPeer other hold
    next => exact h.againPeer other ho
  · intro other held' hh
    dsimp only at hh
    rw [hbal]
    by_cases hne : other = uuid
    · subst hne
      rw [hnew] at hh
      obtain rfl := Option.some.inj hh
      rw [Store.balance, hzero, if_neg he.fetched, if_pos rfl]
      split
      next hr =>
        rw [if_pos hr] at htransit
        dsimp only
        omega
      next hr =>
        rw [if_neg hr] at htransit
        dsimp only
        omega
    · rw [hother _ hne] at hh
      have hle := h.enough other held' hh
      rw [if_neg (Ne.symm hne)]
      omega
  · intro other held' hh ha
    dsimp only at hh ha
    rw [hbal]
    by_cases hne : other = uuid
    · subst hne
      rw [hnew] at hh
      obtain rfl := Option.some.inj hh
      split at ha
      next => exact absurd (Finset.mem_insert_self _ _) ha
      next hr =>
        rw [if_neg hr] at htransit
        rw [Store.balance, hzero, if_neg he.fetched, if_neg hr, if_pos rfl]
        dsimp only
        omega
    · rw [hother _ hne] at hh
      have hold : other ∉ s.again := by
        intro hmem
        apply ha
        split
        · exact Finset.mem_insert_of_mem hmem
        · exact hmem
      rw [if_neg (Ne.symm hne), h.exact other held' hh hold]
      omega

/-- A tensor put under a new uuid has one share, and no transit reference. -/
theorem Sound.putOwn {slice : Slice} (h : Sound source s shares) :
    Sound source { s.mint.put (.own s.minted) tensor slice 1 with
      unfetched := insert (.own s.minted) s.unfetched } ((.own s.minted, tensor) :: shares) := by
  have hnow := h.fresh s.minted le_rfl
  have hcount := h.transit_fresh le_rfl
  have hother : ∀ other, other ≠ .own s.minted →
      (s.mint.put (.own s.minted) tensor slice 1).held other = s.held other := by
    intro other hne
    rw [Store.put]
    simp [Function.update_of_ne hne, Store.mint]
  have hnew : (s.mint.put (.own s.minted) tensor slice 1).held (.own s.minted) =
      some ⟨tensor, slice, 1⟩ := by
    simp [Store.put]
  have hbal : ∀ other, Store.balance { s.mint.put (.own s.minted) tensor slice 1 with
      unfetched := insert (.own s.minted) s.unfetched }
      ((.own s.minted, tensor) :: shares) other =
        if other = .own s.minted then 1 else s.balance shares other := by
    intro other
    change (shareCount ((.own s.minted, tensor) :: shares) other : ℤ)
      + (if other ∈ insert (.own s.minted) s.unfetched then 0 else 1)
      - (if other ∈ s.readFinished then 1 else 0) + (s.transit.count other : ℤ) = _
    rw [shareCount_cons]
    by_cases hne : other = .own s.minted
    · subst hne
      rw [if_pos rfl, if_pos (Finset.mem_insert_self _ _), if_neg hnow.readFinished,
        if_pos rfl, hnow.shares, hcount]
      rfl
    · rw [if_neg (Ne.symm hne), if_neg hne, Store.balance]
      simp [Finset.mem_insert, hne]
  constructor
  · intro share hshare
    dsimp only
    rcases List.mem_cons.1 hshare with rfl | hold
    · exact ⟨_, hnew, rfl⟩
    · have hne : share.1 ≠ .own s.minted := by
        intro heq
        have hpos : 0 < shareCount shares (.own s.minted) :=
          shareCount_pos.2 ⟨share.2, by rw [← heq]; exact hold⟩
        have hzero := hnow.shares
        omega
      rw [hother _ hne]
      exact h.backed share hold
  · intro n held' hh
    dsimp only at hh
    rw [hother _ (by simp)] at hh
    exact h.peers n held' hh
  · intro origin cut other held' hslice hh
    dsimp only at hh
    have hne : other ≠ .own s.minted := fun heq => hnow.sliceUuids origin cut (heq ▸ hslice)
    rw [hother _ hne] at hh
    exact h.slices origin cut other held' hslice hh
  · intro origin cut other hslice
    have hne : other ≠ .own s.minted := fun heq => hnow.sliceUuids origin cut (heq ▸ hslice)
    obtain ⟨hu, hown⟩ := h.sliceKind origin cut other hslice
    exact ⟨by simp [hne, hu], hown⟩
  · intro n hn
    change s.minted + 1 ≤ n at hn
    have hfresh := h.fresh n (by omega)
    have hne : (.own n : Uuid) ≠ .own s.minted := by
      intro heq
      have hn' := Uuid.own.inj heq
      omega
    exact {
      held := by dsimp only; rw [hother _ hne]; exact hfresh.held
      readFinished := hfresh.readFinished
      sliceUuids := hfresh.sliceUuids
      unfetched := by simp [hne, hfresh.unfetched]
      shares := by rw [shareCount_cons, hfresh.shares, if_neg (Ne.symm hne)] }
  · intro other ho
    rcases Finset.mem_insert.1 ho with rfl | hold
    · exact ⟨_, rfl⟩
    · exact h.unfetchedOwn other hold
  · intro other ho
    rw [shareCount_cons]
    rcases Finset.mem_insert.1 ho with rfl | hold
    · rw [hnow.shares, if_pos rfl]
    · have hne : .own s.minted ≠ other := fun heq => hnow.unfetched (heq ▸ hold)
      rw [if_neg hne]
      exact h.unique other hold
  · intro other ho h0
    rw [shareCount_cons] at h0
    have hne : .own s.minted ≠ other := by
      intro heq
      rw [if_pos heq] at h0
      omega
    rw [if_neg hne] at h0
    dsimp only
    rw [hother other (Ne.symm hne)]
    rcases Finset.mem_insert.1 ho with heq | hold
    · exact absurd heq.symm hne
    · exact h.gone other hold h0
  · exact h.transitRead
  · exact h.transitOnce
  · intro other ho
    have hne : other ≠ .own s.minted :=
      fun heq => hnow.readFinished (heq ▸ (h.againRead other ho).1)
    obtain ⟨hr, hu⟩ := h.againRead other ho
    exact ⟨hr, by simp [hne, hu]⟩
  · exact h.againPeer
  · intro other held' hh
    dsimp only at hh
    rw [hbal]
    by_cases hne : other = .own s.minted
    · subst hne
      obtain rfl := Option.some.inj (hnew.symm.trans hh)
      simp
    · rw [hother _ hne] at hh
      rw [if_neg hne]
      exact h.enough other held' hh
  · intro other held' hh ha
    dsimp only at hh
    rw [hbal]
    by_cases hne : other = .own s.minted
    · subst hne
      obtain rfl := Option.some.inj (hnew.symm.trans hh)
      simp
    · rw [hother _ hne] at hh
      rw [if_neg hne]
      exact h.exact other held' hh ha

/-- Handing a tensor on turns its transit reference into one to drop. -/
theorem Sound.markRead (h : Sound source s shares) (hshare : 0 < shareCount shares uuid) :
    Sound source (s.markRead uuid) shares := by
  rw [Store.markRead]
  split
  next => exact h
  next hnot =>
    have hcount : s.transit.count uuid = 0 := by
      have hle := h.transit_le uuid
      rw [if_neg hnot] at hle
      omega
    have hbal : ∀ other, Store.balance { s with
        transit := s.transit ++ [uuid]
        readFinished := insert uuid s.readFinished } shares other = s.balance shares other := by
      intro other
      rw [Store.balance, Store.balance]
      dsimp only
      rw [List.count_append]
      by_cases hne : other = uuid
      · subst hne
        rw [if_pos (Finset.mem_insert_self _ _), if_neg hnot, hcount]
        simp
      · simp [Finset.mem_insert, hne, Ne.symm hne]
    exact { h with
      fresh := by
        intro n hn
        have hfresh := h.fresh n hn
        have hne : (.own n : Uuid) ≠ uuid := by
          intro heq
          have hzero := hfresh.shares
          rw [heq] at hzero
          omega
        exact { hfresh with readFinished := by simp [hne, hfresh.readFinished] }
      transitRead := by
        intro other ho
        rcases List.mem_append.1 ho with hold | hnew
        · exact Finset.mem_insert_of_mem (h.transitRead other hold)
        · obtain rfl := List.mem_singleton.1 hnew
          exact Finset.mem_insert_self _ _
      transitOnce := by
        rw [List.nodup_append]
        constructor
        · exact h.transitOnce
        · constructor
          · exact List.nodup_singleton _
          · intro a ha b hb heq
            obtain rfl := List.mem_singleton.1 hb
            exact hnot (h.transitRead b (heq ▸ ha))
      againRead := fun other ho =>
        ⟨Finset.mem_insert_of_mem (h.againRead other ho).1, (h.againRead other ho).2⟩
      enough := fun other held hh => by rw [hbal]; exact h.enough other held hh
      exact := fun other held hh ha => by rw [hbal]; exact h.exact other held hh ha }

/-- What dropping some references leaves: the same tensors, with fewer. -/
theorem foldl_addRefs (s : Store α) (uuids : List Uuid) :
    uuids.foldl (·.addRefs · (-1)) s = { s with
      held := fun uuid => (s.held uuid).map fun h =>
        { h with refCnt := h.refCnt - uuids.count uuid } } := by
  induction uuids generalizing s with
  | nil => simp
  | cons first uuids ih =>
    rw [List.foldl_cons, ih]
    simp only [Store.addRefs, Store.mk.injEq, and_true]
    funext other
    rw [List.count_cons]
    by_cases hne : other = first
    · subst hne
      cases s.held other with
      | none => simp
      | some held =>
        simp
        ring
    · simp [Function.update_of_ne hne, Ne.symm hne]

/-- Dropping the transit references settles the balance. -/
theorem Sound.dropTransit (h : Sound source s shares) : Sound source s.dropTransit shares := by
  have hheld : ∀ uuid held', s.dropTransit.held uuid = some held' →
      ∃ old, s.held uuid = some old ∧ held'.tensor = old.tensor ∧ held'.slice = old.slice ∧
        held'.refCnt = old.refCnt - s.transit.count uuid := by
    intro uuid held' hh
    rw [Store.dropTransit, foldl_addRefs] at hh
    obtain ⟨old, hold, rfl⟩ := Option.map_eq_some_iff.1 hh
    exact ⟨old, hold, rfl, rfl, rfl⟩
  have hkeep : ∀ uuid old, s.held uuid = some old →
      ∃ held', s.dropTransit.held uuid = some held' ∧ held'.tensor = old.tensor := by
    intro uuid old hold
    rw [Store.dropTransit, foldl_addRefs]
    dsimp only
    rw [hold]
    exact ⟨_, rfl, rfl⟩
  have hnone : ∀ uuid, s.held uuid = none → s.dropTransit.held uuid = none := by
    intro uuid hn
    rw [Store.dropTransit, foldl_addRefs]
    dsimp only
    rw [hn]
    rfl
  have hsame : s.dropTransit = { s with held := s.dropTransit.held, transit := [] } := by
    rw [Store.dropTransit, foldl_addRefs]
  have hbal : ∀ uuid, s.dropTransit.balance shares uuid =
      s.balance shares uuid - s.transit.count uuid := by
    intro uuid
    rw [hsame, Store.balance, Store.balance]
    simp
  constructor
  · intro share hshare
    obtain ⟨old, hold, ht⟩ := h.backed share hshare
    obtain ⟨held', hh, ht'⟩ := hkeep _ old hold
    exact ⟨held', hh, ht'.trans ht⟩
  · intro n held' hh
    obtain ⟨old, hold, ht, hs, -⟩ := hheld _ _ hh
    rw [ht, hs]
    exact h.peers n old hold
  · intro origin cut other held' hslice hh
    rw [hsame] at hslice
    obtain ⟨old, hold, ht, -, -⟩ := hheld _ _ hh
    rw [ht]
    exact h.slices origin cut other old hslice hold
  · rw [hsame]
    exact h.sliceKind
  · intro n hn
    rw [hsame] at hn ⊢
    have hfresh := h.fresh n hn
    exact { hfresh with held := hnone _ hfresh.held }
  · rw [hsame]
    exact h.unfetchedOwn
  · rw [hsame]
    exact h.unique
  · intro other ho h0
    rw [hsame] at ho
    exact hnone _ (h.gone other ho h0)
  · rw [hsame]
    simp
  · rw [hsame]
    exact List.nodup_nil
  · rw [hsame]
    exact h.againRead
  · rw [hsame]
    exact h.againPeer
  · intro other held' hh
    obtain ⟨old, hold, -, -, hr⟩ := hheld _ _ hh
    have hle := h.enough other old hold
    rw [hbal, hr]
    omega
  · intro other held' hh ha
    rw [hsame] at ha
    obtain ⟨old, hold, -, -, hr⟩ := hheld _ _ hh
    rw [hbal, hr, h.exact other old hold ha]

end Mstar.Gather
