import Mathlib.Tactic.Tauto
import Mstar.GatherReads
import Mstar.GatherSound

/-!
# Every step keeps the store sound

Starting a read takes a share for its edge, handing it on keeps the share
with the consumer, and holding it back for a gather lets it go.
-/

namespace Mstar.Gather

variable {α : Type} {source : Uuid → List α} {s : Store α} {shares : List (Share α)}
  {uuid : Uuid} {info : TensorInfo} {w : Receiver α} {edge : Edge}

/-- A descriptor comes from a peer under a uuid of that peer's. -/
def TensorInfo.Sent (info : TensorInfo) : Prop :=
  info.isOwn = false → ∃ n, info.uuid = .peer n

/-- Reading a descriptor's tensor does not fetch again what was handed on. -/
def TensorInfo.Kept (s : Store α) (info : TensorInfo) : Prop :=
  info.isOwn = false → info.uuid ∈ s.readFinished → (s.held info.uuid).isSome

/-- What starting one read does to the store. -/
structure ReadStep (source : Uuid → List α) (s : Store α) (shares : List (Share α))
    (info : TensorInfo) (s' : Store α) (info' : TensorInfo) : Prop where
  /-- The edge has a share in the tensor. -/
  sound : Sound source s' ((info'.uuid, info.rows source) :: shares)
  /-- What was held is held. -/
  keeps : ∀ uuid, (s.held uuid).isSome → (s'.held uuid).isSome
  /-- Nothing is handed on, -/
  readFinished : s'.readFinished = s.readFinished
  /-- and no transit reference is about to be dropped. -/
  transit : s'.transit = s.transit
  /-- Only the descriptor's tensor may be fetched again, if it was let go. -/
  again : ∀ uuid ∈ s'.again, uuid ∈ s.again ∨
    uuid = info.uuid ∧ ¬ info.Kept s
  /-- The descriptor names the same rank. -/
  rank : info'.sourceTpRank = info.sourceTpRank
  /-- It names the peer's tensor, or one of this worker's. -/
  uuid : info'.uuid = info.uuid ∧ info.isOwn = false ∨ ∃ n, info'.uuid = .own n
  /-- What was put without a transit reference stays so. -/
  unfetched : s.unfetched ⊆ s'.unfetched

/-- A further slice is given a new uuid and read there. -/
theorem repoint_step (h : Sound source s shares) :
    ReadStep source s shares info (s.repoint source info).1 (s.repoint source info).2 := by
  have hnow := h.fresh s.minted le_rfl
  let s₁ : Store α := { s.mint with
    sliceUuids := Function.update s.sliceUuids info.uuid
      (Function.update (s.sliceUuids info.uuid) info.slice (some (.own s.minted))) }
  have hslice : ∀ origin cut uuid, s₁.sliceUuids origin cut = some uuid →
      (origin = info.uuid ∧ cut = info.slice ∧ uuid = .own s.minted) ∨
        s.sliceUuids origin cut = some uuid := by
    intro origin cut uuid hs
    by_cases ho : origin = info.uuid
    · subst ho
      by_cases hc : cut = info.slice
      · subst hc
        have heq : s₁.sliceUuids info.uuid info.slice = some (.own s.minted) := by simp [s₁]
        exact .inl ⟨rfl, rfl, (Option.some.inj (heq.symm.trans hs)).symm⟩
      · refine .inr ?_
        simpa [s₁, Function.update_of_ne hc] using hs
    · refine .inr ?_
      simpa [s₁, Function.update_of_ne ho] using hs
  have hs₁ : Sound source s₁ shares := { h with
    slices := by
      intro origin cut uuid held hs hh
      rcases hslice origin cut uuid hs with ⟨-, -, rfl⟩ | hold
      · exact absurd (hnow.held.symm.trans hh) (by simp)
      · exact h.slices origin cut uuid held hold hh
    sliceKind := by
      intro origin cut uuid hs
      rcases hslice origin cut uuid hs with ⟨-, -, rfl⟩ | hold
      · exact ⟨hnow.unfetched, _, rfl⟩
      · exact h.sliceKind origin cut uuid hold
    fresh := by
      intro n hn
      change s.minted + 1 ≤ n at hn
      have hfresh := h.fresh n (by omega)
      exact { hfresh with
        sliceUuids := by
          intro origin cut hs
          rcases hslice origin cut _ hs with ⟨-, -, heq⟩ | hold
          · have hn' := Uuid.own.inj heq
            omega
          · exact hfresh.sliceUuids origin cut hold } }
  have hentry : Entry source s₁ (.own s.minted) (info.rows source) info.slice := {
    none := hnow.held
    fetched := hnow.unfetched
    peer := by simp
    slice := by
      intro origin cut hs
      rcases hslice origin cut _ hs with ⟨rfl, rfl, -⟩ | hold
      · rfl
      · exact absurd hold (hnow.sliceUuids origin cut)
    own := by
      intro n heq
      have hn' := Uuid.own.inj heq
      change n < s.minted + 1
      omega
    seen := fun hr => absurd hr hnow.readFinished }
  constructor
  · exact hs₁.fetchAt hentry
  · intro uuid hu
    change (Function.update s.held (.own s.minted) _ uuid).isSome
    by_cases hne : uuid = .own s.minted
    · subst hne
      simp
    · rw [Function.update_of_ne hne]
      exact hu
  · rfl
  · rfl
  · intro uuid hu
    change uuid ∈ (if .own s.minted ∈ s.readFinished then _ else s.again) at hu
    rw [if_neg hnow.readFinished] at hu
    exact .inl hu
  · rfl
  · exact .inr ⟨_, rfl⟩
  · exact fun _ hu => hu

/-- Starting a read gives the edge a share in the tensor its descriptor names. -/
theorem readInfo_step (h : Sound source s shares) (hsent : info.Sent) :
    ReadStep source s shares info (s.readInfo source info).1 (s.readInfo source info).2 := by
  rw [Store.readInfo]
  split
  next =>
    constructor
    · exact h.putOwn
    · intro uuid hu
      change (Function.update s.held (.own s.minted) _ uuid).isSome
      by_cases hne : uuid = .own s.minted
      · subst hne
        simp
      · rw [Function.update_of_ne hne]
        exact hu
    · rfl
    · rfl
    · exact fun uuid hu => .inl hu
    · rfl
    · exact .inr ⟨_, rfl⟩
    · exact Finset.subset_insert _ _
  next hown =>
    have hnot : info.isOwn = false := Bool.eq_false_iff.2 hown
    obtain ⟨n, hn⟩ := hsent hnot
    have hfetched : info.uuid ∉ s.unfetched := by
      intro hu
      obtain ⟨m, hm⟩ := h.unfetchedOwn _ hu
      rw [hn] at hm
      simp at hm
    have hadd : ∀ uuid (stored : Held α), s.held uuid = some stored →
        stored.tensor = info.rows source → uuid ∉ s.unfetched →
          (uuid = info.uuid ∨ ∃ n, uuid = .own n) →
            ReadStep source s shares info (s.addRefs uuid 1) { info with uuid := uuid } := by
      intro uuid stored hs ht hu hkind
      constructor
      · exact h.addRefs hs ht hu
      · intro other ho
        rw [Store.addRefs]
        by_cases hne : other = uuid
        · subst hne
          simp [hs]
        · simpa [Function.update_of_ne hne] using ho
      · rfl
      · rfl
      · exact fun other ho => .inl ho
      · rfl
      · rcases hkind with rfl | hown
        · exact .inl ⟨rfl, hnot⟩
        · exact .inr hown
      · exact fun _ ho => ho
    split
    next hnone =>
      constructor
      · apply h.fetchAt
        exact {
          none := hnone
          fetched := hfetched
          peer := fun _ _ => rfl
          slice := by
            intro origin cut hs
            obtain ⟨-, m, hm⟩ := h.sliceKind origin cut _ hs
            rw [hn] at hm
            simp at hm
          own := by
            intro m hm
            rw [hn] at hm
            simp at hm
          seen := fun _ => ⟨n, hn⟩ }
      · intro uuid hu
        change (Function.update s.held info.uuid _ uuid).isSome
        by_cases hne : uuid = info.uuid
        · subst hne
          simp
        · rw [Function.update_of_ne hne]
          exact hu
      · rfl
      · rfl
      · intro uuid hu
        change uuid ∈ (if info.uuid ∈ s.readFinished then insert info.uuid s.again
          else s.again) at hu
        split at hu
        next hr =>
          rcases Finset.mem_insert.1 hu with rfl | hold
          · refine .inr ⟨rfl, fun hkept => ?_⟩
            have hsome := hkept hnot hr
            rw [hnone] at hsome
            simp at hsome
          · exact .inl hold
        next => exact .inl hu
      · rfl
      · exact .inl ⟨rfl, hnot⟩
      · exact fun _ hu => hu
    next stored hstored =>
      split
      next hsame =>
        have hpeer := h.peers n stored (hn ▸ hstored)
        have ht : stored.tensor = info.rows source := by
          rw [hpeer, hsame, TensorInfo.rows, hn]
        exact hadd info.uuid stored hstored ht hfetched (.inl rfl)
      next =>
        split
        next => exact repoint_step h
        next uuid huuid =>
          split
          next hsome =>
            obtain ⟨old, hold⟩ := Option.isSome_iff_exists.1 hsome
            obtain ⟨hfetch, hkind⟩ := h.sliceKind _ _ _ huuid
            exact hadd uuid old hold (h.slices _ _ _ _ huuid hold) hfetch (.inr hkind)
          next => exact repoint_step h

/-- What starting an edge's reads does to the store. -/
structure ReadSteps (source : Uuid → List α) (s : Store α) (shares : List (Share α))
    (infos : List TensorInfo) (s' : Store α) (infos' : List TensorInfo) : Prop where
  /-- The edge has a share in each of its tensors. -/
  sound : Sound source s'
    ((infos'.map (·.uuid)).zip (infos.map (·.rows source)) ++ shares)
  /-- There are as many as before. -/
  length : infos'.length = infos.length
  /-- They name the same ranks. -/
  ranks : infos'.map (·.sourceTpRank) = infos.map (·.sourceTpRank)
  /-- Nothing is handed on, -/
  readFinished : s'.readFinished = s.readFinished
  /-- and no transit reference is about to be dropped. -/
  transit : s'.transit = s.transit
  /-- Only what was let go after it was handed on is fetched again. -/
  again : ∀ uuid ∈ s'.again, uuid ∈ s.again ∨
    ∃ info ∈ infos, uuid = info.uuid ∧ ¬ info.Kept s
  /-- Its tensors are peers', as they were sent, or this worker's. -/
  uuids : ∀ info' ∈ infos', (∃ info ∈ infos, info'.uuid = info.uuid ∧ info.isOwn = false) ∨
    ∃ n, info'.uuid = .own n
  /-- What was put without a transit reference stays so. -/
  unfetched : s.unfetched ⊆ s'.unfetched

/-- Reading descriptors is sound, and loses no tensor held. -/
theorem readInfos_steps {infos : List TensorInfo} (h : Sound source s shares)
    (hsent : ∀ info ∈ infos, info.Sent) :
    ReadSteps source s shares infos (s.readInfos source infos).1
      (s.readInfos source infos).2 ∧
      ∀ uuid, (s.held uuid).isSome → ((s.readInfos source infos).1.held uuid).isSome := by
  induction infos generalizing s shares with
  | nil =>
    exact ⟨⟨h, rfl, rfl, rfl, rfl, fun _ hu => .inl hu, by simp [Store.readInfos], fun _ hu => hu⟩,
      fun _ hu => hu⟩
  | cons info infos ih =>
    have hfirst := readInfo_step h (hsent info (by simp))
    obtain ⟨hrest, hkeeps⟩ := ih hfirst.sound fun i hi => hsent i (by simp [hi])
    rw [Store.readInfos]
    constructor
    · constructor
      · have hperm : (((s.readInfo source info).1.readInfos source infos).2.map (·.uuid)).zip
            (infos.map (·.rows source)) ++
              (((s.readInfo source info).2.uuid, info.rows source) :: shares) |>.Perm
            (((s.readInfo source info).2.uuid, info.rows source) ::
              ((((s.readInfo source info).1.readInfos source infos).2.map (·.uuid)).zip
                (infos.map (·.rows source)) ++ shares)) := List.perm_middle
        exact hrest.sound.perm hperm
      · simp [hrest.length]
      · simp [hrest.ranks, hfirst.rank]
      · exact hrest.readFinished.trans hfirst.readFinished
      · exact hrest.transit.trans hfirst.transit
      · intro uuid hu
        rcases hrest.again uuid hu with hmid | ⟨i, hi, rfl, hnot⟩
        · rcases hfirst.again uuid hmid with hold | ⟨rfl, hnot⟩
          · exact .inl hold
          · exact .inr ⟨info, by simp, rfl, hnot⟩
        · refine .inr ⟨i, by simp [hi], rfl, fun hkept => hnot ?_⟩
          intro ho hr
          exact hfirst.keeps _ (hkept ho (hfirst.readFinished ▸ hr))
      · intro info' hi
        rcases List.mem_cons.1 hi with rfl | hold
        · rcases hfirst.uuid with ⟨heq, hown⟩ | hown
          · exact .inl ⟨info, by simp, heq, hown⟩
          · exact .inr hown
        · rcases hrest.uuids info' hold with ⟨i, hmem, heq⟩ | hown
          · exact .inl ⟨i, by simp [hmem], heq⟩
          · exact .inr hown
      · exact fun u hu => hrest.unfetched (hfirst.unfetched hu)
    · exact fun uuid hu => hkeeps uuid (hfirst.keeps uuid hu)

/-- Handing tensors on that have shares keeps the store sound. -/
theorem markReads_sound {uuids : List Uuid} (h : Sound source s shares)
    (hshare : ∀ uuid ∈ uuids, 0 < shareCount shares uuid) :
    Sound source (uuids.foldl .markRead s) shares := by
  induction uuids generalizing s with
  | nil => exact h
  | cons uuid uuids ih =>
    rw [List.foldl_cons]
    exact ih (h.markRead (hshare uuid (by simp))) fun other ho => hshare other (by simp [ho])

/-- What marking leaves alone. -/
theorem markReads_same (uuids : List Uuid) (s : Store α) :
    (uuids.foldl .markRead s).again = s.again ∧
      (uuids.foldl .markRead s).unfetched = s.unfetched := by
  induction uuids generalizing s with
  | nil => exact ⟨rfl, rfl⟩
  | cons uuid uuids ih =>
    rw [List.foldl_cons, (ih _).1, (ih _).2, Store.markRead]
    split
    · exact ⟨rfl, rfl⟩
    · exact ⟨rfl, rfl⟩

/-- Everything marked is handed on, and what was stays so. -/
theorem mem_markReads {uuids : List Uuid} {uuid : Uuid} :
    uuid ∈ (uuids.foldl .markRead s).readFinished ↔ uuid ∈ uuids ∨ uuid ∈ s.readFinished := by
  induction uuids generalizing s with
  | nil => simp
  | cons first uuids ih =>
    have hone : uuid ∈ (s.markRead first).readFinished ↔
        uuid = first ∨ uuid ∈ s.readFinished := by
      rw [Store.markRead]
      split
      next hmem =>
        constructor
        · exact .inr
        · intro hor
          rcases hor with rfl | hold
          · exact hmem
          · exact hold
      next => simp
    rw [List.foldl_cons, ih, hone, List.mem_cons]
    tauto

/-- Only what was not handed on before gets a transit reference to drop. -/
theorem mem_markReads_transit {uuids : List Uuid} {uuid : Uuid}
    (h : uuid ∈ (uuids.foldl .markRead s).transit) :
    uuid ∈ s.transit ∨ uuid ∉ s.readFinished := by
  induction uuids generalizing s with
  | nil => exact .inl h
  | cons first uuids ih =>
    rw [List.foldl_cons] at h
    have hone := ih h
    rw [Store.markRead] at hone
    split at hone
    next => exact hone
    next hnot =>
      simp only [List.mem_append, List.mem_singleton, Finset.mem_insert, not_or] at hone
      rcases hone with (hold | rfl) | ⟨-, hnew⟩
      · exact .inl hold
      · exact .inr hnot
      · exact .inr hnew

/-- Letting go of an edge's shares keeps the others. -/
theorem releases_sound {uuids : List Uuid} {tensors : List (List α)}
    (h : Sound source s (uuids.zip tensors ++ shares)) (hl : uuids.length = tensors.length) :
    Sound source (uuids.foldl .release s) shares := by
  induction uuids generalizing s tensors with
  | nil =>
    have hnil : tensors = [] := List.eq_nil_of_length_eq_zero hl.symm
    simpa [hnil] using h
  | cons uuid uuids ih =>
    cases tensors with
    | nil => simp at hl
    | cons tensor tensors =>
      rw [List.foldl_cons]
      exact ih (Sound.release h) (by simpa using hl)

/-- What letting go leaves alone. -/
theorem releases_same (uuids : List Uuid) (s : Store α) :
    (uuids.foldl .release s).readFinished = s.readFinished ∧
      (uuids.foldl .release s).again = s.again ∧
        (uuids.foldl .release s).transit = s.transit ∧
          (uuids.foldl .release s).unfetched = s.unfetched := by
  induction uuids generalizing s with
  | nil => exact ⟨rfl, rfl, rfl, rfl⟩
  | cons uuid uuids ih => exact ih _

/-- What an edge's uuids hold is what its rank sent. -/
theorem contents_eq {uuids : List Uuid} {tensors : List (List α)}
    (h : ∀ share ∈ uuids.zip tensors, ∃ held, s.held share.1 = some held ∧
      held.tensor = share.2) (hl : uuids.length = tensors.length) :
    uuids.map (fun uuid => ((s.held uuid).map (·.tensor)).getD []) = tensors ∧
      (uuids.mapM fun uuid => (s.held uuid).map (·.tensor)) = some tensors := by
  induction uuids generalizing tensors with
  | nil =>
    have hnil : tensors = [] := List.eq_nil_of_length_eq_zero hl.symm
    simp [hnil]
  | cons uuid uuids ih =>
    cases tensors with
    | nil => simp at hl
    | cons tensor tensors =>
      obtain ⟨held, hheld, ht⟩ := h (uuid, tensor) (by simp)
      obtain ⟨hmap, hmapM⟩ := ih
        (fun share hs => h share (List.mem_cons_of_mem (uuid, tensor) hs)) (by simpa using hl)
      dsimp only at hheld ht
      constructor
      · rw [List.map_cons, hmap, hheld]
        simp [ht]
      · rw [List.mapM_cons, hmapM, hheld]
        simp [ht]

/-- The store is sound for the reads under way and the edges in use. -/
structure Receiver.Backed (source : Uuid → List α) (w : Receiver α) : Prop where
  /-- It backs and counts their shares. -/
  sound : Sound source w.store w.shares
  /-- A read has as many tensors as its rank sent, -/
  fits : ∀ read ∈ w.pending, read.edge.uuids.length = read.sent.length
  /-- and an edge in use as many as its consumer gets. -/
  usedFits : ∀ em ∈ w.inUse, em.edge.uuids.length = em.tensors.length

/-- A new receiver is backed. -/
theorem backed_start : (Receiver.start : Receiver α).Backed source := by
  have hzero : ∀ uuid, shareCount ([] : List (Share α)) uuid = 0 := fun _ => rfl
  constructor
  · constructor
    · simp [Receiver.start, Receiver.shares]
    · simp [Receiver.start, Store.empty]
    · simp [Receiver.start, Store.empty]
    · simp [Receiver.start, Store.empty]
    · intro n _
      exact ⟨rfl, by simp [Receiver.start, Store.empty], by simp [Receiver.start, Store.empty],
        by simp [Receiver.start, Store.empty], hzero _⟩
    · simp [Receiver.start, Store.empty]
    · simp [Receiver.start, Store.empty]
    · simp [Receiver.start, Store.empty]
    · simp [Receiver.start, Store.empty]
    · exact List.nodup_nil
    · simp [Receiver.start, Store.empty]
    · simp [Receiver.start, Store.empty]
    · simp [Receiver.start, Store.empty]
    · simp [Receiver.start, Store.empty]
  · simp [Receiver.start]
  · simp [Receiver.start]

/-- Starting an edge's reads adds its shares. -/
theorem startRead_backed (h : w.Backed source) (hsent : ∀ info ∈ edge.tensorInfo, info.Sent) :
    (w.startRead source edge).Backed source := by
  rw [Receiver.startRead]
  split
  next => exact h
  next =>
    obtain ⟨hsteps, -⟩ := readInfos_steps h.sound hsent
    constructor
    · apply hsteps.sound.perm
      simp only [Receiver.shares, Read.shares, Edge.uuids, List.flatMap_append,
        List.flatMap_cons, List.flatMap_nil, List.append_nil]
      rw [← List.append_assoc]
      exact (List.perm_append_comm).append_right _
    · intro read hread
      rcases List.mem_append.1 hread with hold | hnew
      · exact h.fits read hold
      · rw [List.mem_singleton.1 hnew]
        simp [Edge.uuids, hsteps.length]
    · exact h.usedFits

/-- The reads at hand are taken up. -/
theorem settle_backed (h : w.Backed source) : w.settle.Backed source :=
  ⟨h.sound.dropTransit, h.fits, h.usedFits⟩

/-- A consumer lets go of the shares of its edge. -/
theorem consume_backed (h : w.Backed source) (i : ℕ) : (w.consume i).Backed source := by
  rw [Receiver.consume]
  split
  next => exact h
  next em hem =>
    obtain ⟨hi, hget⟩ := List.getElem?_eq_some_iff.1 hem
    have hperm : w.inUse.Perm (em :: w.inUse.eraseIdx i) := by
      rw [← hget]
      exact (List.getElem_cons_eraseIdx_perm hi).symm
    have hmem : em ∈ w.inUse := hget ▸ List.getElem_mem hi
    have hsplit : w.shares.Perm (em.shares ++
        (w.pending.flatMap (·.shares) ++ (w.inUse.eraseIdx i).flatMap (·.shares))) := by
      rw [Receiver.shares]
      have hinUse := (hperm.flatMap_right (·.shares)).append_left (w.pending.flatMap (·.shares))
      rw [List.flatMap_cons] at hinUse
      apply hinUse.trans
      rw [← List.append_assoc, ← List.append_assoc]
      exact List.perm_append_comm.append_right _
    constructor
    · exact releases_sound (h.sound.perm hsplit) (h.usedFits em hmem)
    · exact h.fits
    · exact fun other ho => h.usedFits other (List.mem_of_mem_eraseIdx ho)

/-- A tensor of the shares is counted. -/
theorem shareCount_pos_of_mem_zip {uuids : List Uuid} {tensors : List (List α)}
    (hl : uuids.length = tensors.length) (hu : uuid ∈ uuids)
    (hsub : uuids.zip tensors ⊆ shares) : 0 < shareCount shares uuid := by
  obtain ⟨i, hi, rfl⟩ := List.mem_iff_getElem.1 hu
  apply shareCount_pos.2
  exact ⟨tensors[i], hsub (List.mem_iff_getElem.2 ⟨i, by simp [hi, ← hl], by simp⟩)⟩

/-- An edge handed on with tensors that the store backs keeps it sound. -/
theorem emit_backed (w : Receiver α) (edge : Edge) (parts : List (Read α))
    {tensors : List (List α)}
    (h : Sound source w.store (edge.uuids.zip tensors ++ w.shares))
    (hl : edge.uuids.length = tensors.length)
    (hf : ∀ read ∈ w.pending, read.edge.uuids.length = read.sent.length)
    (hu : ∀ em ∈ w.inUse, em.edge.uuids.length = em.tensors.length) :
    (w.emit edge parts).Backed source ∧
      (w.emit edge parts).emitted = w.emitted ++ [⟨edge, tensors, parts⟩] ∧
        (w.emit edge parts).inUse = w.inUse ++ [⟨edge, tensors, parts⟩] := by
  obtain ⟨hcontents, -⟩ := contents_eq
    (fun share hs => h.backed share (List.mem_append_left _ hs)) hl
  have hem : w.emit edge parts = { w with
      inUse := w.inUse ++ [⟨edge, tensors, parts⟩]
      emitted := w.emitted ++ [⟨edge, tensors, parts⟩] } := by
    rw [Receiver.emit, hcontents]
  rw [hem]
  constructor
  · constructor
    · have hshares : Receiver.shares { w with
          inUse := w.inUse ++ [⟨edge, tensors, parts⟩]
          emitted := w.emitted ++ [⟨edge, tensors, parts⟩] } =
            w.shares ++ edge.uuids.zip tensors := by
        simp [Receiver.shares, Emission.shares]
      rw [hshares]
      exact h.perm List.perm_append_comm
    · exact hf
    · intro em hem
      rcases List.mem_append.1 hem with hold | hnew
      · exact hu em hold
      · rw [List.mem_singleton.1 hnew]
        exact hl
  · exact ⟨rfl, rfl⟩

/-- Putting gathered tensors is sound; their uuids are new. -/
theorem putGathered_sound (tensors : List (List α)) (h : Sound source s shares) :
    Sound source (Receiver.putGathered s tensors).1
        (((Receiver.putGathered s tensors).2.map (·.uuid)).zip tensors ++ shares) ∧
      (Receiver.putGathered s tensors).2.length = tensors.length ∧
        ∀ info ∈ (Receiver.putGathered s tensors).2, info.uuid ∉ s.readFinished := by
  induction tensors generalizing s shares with
  | nil => exact ⟨h, rfl, by simp [Receiver.putGathered]⟩
  | cons tensor tensors ih =>
    have hfirst : Sound source (s.putGathered tensor) ((.own s.minted, tensor) :: shares) :=
      h.putOwn
    obtain ⟨hrest, hl, hnew⟩ := ih hfirst
    rw [Receiver.putGathered]
    constructor
    · exact hrest.perm List.perm_middle
    · constructor
      · simp [hl]
      · intro info hi
        rcases List.mem_cons.1 hi with rfl | hold
        · exact (h.fresh s.minted le_rfl).readFinished
        · exact hnew info hold

/-- The gathered tensors have no transit reference. -/
theorem putGathered_unfetched (tensors : List (List α)) (s : Store α) :
    s.unfetched ⊆ (Receiver.putGathered s tensors).1.unfetched ∧
      ∀ info ∈ (Receiver.putGathered s tensors).2,
        info.uuid ∈ (Receiver.putGathered s tensors).1.unfetched := by
  induction tensors generalizing s with
  | nil => simp [Receiver.putGathered]
  | cons tensor tensors ih =>
    obtain ⟨hsub, hmem⟩ := ih (s.putGathered tensor)
    have hfirst : insert (.own s.minted) s.unfetched ⊆
        (Receiver.putGathered (s.putGathered tensor) tensors).1.unfetched := hsub
    rw [Receiver.putGathered]
    constructor
    · exact fun uuid hu => hfirst (Finset.mem_insert_of_mem hu)
    · intro info hi
      rcases List.mem_cons.1 hi with rfl | hold
      · exact hfirst (Finset.mem_insert_self _ _)
      · exact hmem info hold

/-- It hands nothing on and fetches nothing. -/
theorem putGathered_same (tensors : List (List α)) (s : Store α) :
    (Receiver.putGathered s tensors).1.readFinished = s.readFinished ∧
      (Receiver.putGathered s tensors).1.again = s.again ∧
        (Receiver.putGathered s tensors).1.transit = s.transit := by
  induction tensors generalizing s with
  | nil => exact ⟨rfl, rfl, rfl⟩
  | cons tensor tensors ih => exact ih _

/-- A tensor that is held has references. -/
def Store.Positive (s : Store α) (uuid : Uuid) : Prop :=
  ∀ h, s.held uuid = some h → 0 < h.refCnt

/-- Putting another leaves a tensor referenced. -/
theorem Store.Positive.put (h : s.Positive uuid) (other : Uuid) (tensor : List α)
    (slice : Slice) {refs : ℤ} (hrefs : 0 < refs) :
    (s.put other tensor slice refs).Positive uuid := by
  intro held hh
  change Function.update s.held other _ uuid = some held at hh
  by_cases hne : uuid = other
  · subst hne
    rw [Function.update_self] at hh
    obtain rfl := Option.some.inj hh
    exact hrefs
  · rw [Function.update_of_ne hne] at hh
    exact h held hh

/-- So does fetching one. -/
theorem Store.Positive.fetch (h : s.Positive uuid) (other : Uuid) :
    (s.fetch source info other).Positive uuid :=
  h.put other _ _ (by omega)

/-- And adding a reference. -/
theorem Store.Positive.addRefs (h : s.Positive uuid) (other : Uuid) :
    (s.addRefs other 1).Positive uuid := by
  intro held hh
  change Function.update s.held other _ uuid = some held at hh
  by_cases hne : uuid = other
  · subst hne
    rw [Function.update_self] at hh
    obtain ⟨old, hold, rfl⟩ := Option.map_eq_some_iff.1 hh
    have hpos := h old hold
    dsimp only
    omega
  · rw [Function.update_of_ne hne] at hh
    exact h held hh

/-- Starting a read only adds references. -/
theorem Store.Positive.readInfo (h : s.Positive uuid) (info : TensorInfo) :
    (s.readInfo source info).1.Positive uuid := by
  have hrepoint : (s.repoint source info).1.Positive uuid := by
    apply Store.Positive.fetch
    exact h
  rw [Store.readInfo]
  split
  · exact h.put (.own s.minted) _ _ (by omega)
  · split
    · exact h.fetch _
    · split
      · exact h.addRefs _
      · split
        · exact hrepoint
        · split
          · exact h.addRefs _
          · exact hrepoint

/-- And reading descriptors. -/
theorem Store.Positive.readInfos (h : s.Positive uuid) (infos : List TensorInfo) :
    (s.readInfos source infos).1.Positive uuid := by
  induction infos generalizing s with
  | nil => exact h
  | cons info infos ih => exact ih (h.readInfo info)

/-- Marking tensors as read changes none. -/
theorem markReads_held (uuids : List Uuid) (s : Store α) :
    (uuids.foldl .markRead s).held = s.held := by
  induction uuids generalizing s with
  | nil => rfl
  | cons uuid uuids ih =>
    rw [List.foldl_cons, ih, Store.markRead]
    split
    · rfl
    · rfl

/-- Without a transit reference to drop, a tensor keeps its references. -/
theorem Store.Positive.dropTransit (h : s.Positive uuid) (hu : uuid ∉ s.transit) :
    s.dropTransit.Positive uuid := by
  intro held hh
  rw [Store.dropTransit, foldl_addRefs] at hh
  obtain ⟨old, hold, rfl⟩ := Option.map_eq_some_iff.1 hh
  have hpos := h old hold
  rw [List.count_eq_zero.2 hu]
  dsimp only
  omega

/-- A tensor goes with its last reference. -/
theorem positive_release (s : Store α) (uuid : Uuid) : (s.release uuid).Positive uuid := by
  intro held hh
  change Function.update s.held uuid _ uuid = some held at hh
  rw [Function.update_self] at hh
  obtain ⟨old, -, hif⟩ := Option.bind_eq_some_iff.1 hh
  split at hif
  next => simp at hif
  next hpos =>
    obtain rfl := Option.some.inj hif
    dsimp only
    omega

/-- A release of another leaves a tensor referenced. -/
theorem Store.Positive.release (h : s.Positive uuid) (other : Uuid) :
    (s.release other).Positive uuid := by
  by_cases hne : uuid = other
  · subst hne
    exact positive_release s uuid
  · intro held hh
    change Function.update s.held other _ uuid = some held at hh
    rw [Function.update_of_ne hne] at hh
    exact h held hh

/-- So do several. -/
theorem Store.Positive.releases (h : s.Positive uuid) (uuids : List Uuid) :
    (uuids.foldl .release s).Positive uuid := by
  induction uuids generalizing s with
  | nil => exact h
  | cons first uuids ih => exact ih (h.release first)

/-- What an edge lets go of is gone, or has references of other edges. -/
theorem positive_releases {uuids : List Uuid} (hu : uuid ∈ uuids) (s : Store α) :
    (uuids.foldl .release s).Positive uuid := by
  induction uuids generalizing s with
  | nil => simp at hu
  | cons first uuids ih =>
    rcases List.mem_cons.1 hu with rfl | hrest
    · exact (positive_release s uuid).releases uuids
    · exact ih hrest _

/-- And putting what was gathered. -/
theorem Store.Positive.putGathered (h : s.Positive uuid) (tensors : List (List α)) :
    (Receiver.putGathered s tensors).1.Positive uuid := by
  induction tensors generalizing s with
  | nil => exact h
  | cons tensor tensors ih =>
    exact ih (h.put (.own s.minted) tensor _ (by omega))

end Mstar.Gather
