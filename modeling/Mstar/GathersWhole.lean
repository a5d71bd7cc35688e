import Mstar.GatherRuns

/-!
# Whole gathers

Every run that keeps its gathers apart hands on one whole round after
another. Two nodes that gather the same signal, or a rank that brings its next
shards early, are enough for an edge with some of the shards, or for a raise.
-/

namespace Mstar.Gather

variable {α : Type} {source : Uuid → List α} {plan : Plan} {w w' : Receiver α}

/-- What the nodes of a run get of their gathering inputs. -/
structure GathersWhole (plan : Plan) (w : Receiver α) : Prop where
  /-- The edges handed on to an input are its rounds, one after another, each
  with the shards of all ranks put together in their order. -/
  whole : ∀ key, plan.Gathers key → ∀ i, ∀ em ∈ (w.emittedTo key)[i]?, Whole plan key i em
  /-- Each shard taken up is in one gather, or still held back. -/
  once : ∀ key, plan.Gathers key → w.taken.filter (·.edge.key = key) =
    (w.emittedTo key).flatMap (·.parts) ++ w.heldBack key
  /-- What is held back is of the round to come, and lacks a rank. -/
  lacking : ∀ key, plan.Gathers key →
    (∀ part ∈ w.heldBack key, part.edge.round = (w.emittedTo key).length) ∧
      ((w.heldBack key).map (·.edge.rank)).Nodup ∧
        ∃ rank ∈ plan.ranks key, rank ∉ (w.heldBack key).map (·.edge.rank)
  /-- A gathered tensor is held for its consumer alone. -/
  kept : ∀ em ∈ w.inUse, plan.Gathers em.edge.key → ∀ share ∈ em.shares,
    ∃ held, w.store.held share.1 = some held ∧ held.tensor = share.2 ∧ held.refCnt = 1
  /-- A shard of a gather has the references of other edges only, and is gone
  where there are none. -/
  letGo : ∀ em ∈ w.emitted, plan.Gathers em.edge.key → ∀ part ∈ em.parts,
    ∀ uuid ∈ part.edge.uuids,
      (∀ held, w.store.held uuid = some held → held.refCnt = shareCount w.shares uuid) ∧
        (shareCount w.shares uuid = 0 → w.store.held uuid = none)

/-- Dropping transit references leaves gathers alone. -/
theorem Inv.settle (h : Inv source plan w) : Inv source plan w.settle := by
  constructor
  · exact settle_backed h.backed
  · exact { h.ordered with }
  · exact { h.rounds with }
  · have hframe : w.settle.store.readFinished = w.store.readFinished ∧
        w.settle.store.again = w.store.again ∧ w.settle.store.unfetched = w.store.unfetched := by
      rw [Receiver.settle, Store.dropTransit, foldl_addRefs]
      exact ⟨rfl, rfl, rfl⟩
    obtain ⟨hread, hagain, hunf⟩ := hframe
    constructor
    · intro read hr hg uuid hu
      constructor
      · rw [hread]
        exact (h.counted.letGo read hr hg uuid hu).1
      · exact List.not_mem_nil
    · intro read hr hg uuid hu
      exact (h.counted.positive read hr hg uuid hu).dropTransit
        (h.counted.letGo read hr hg uuid hu).2
    · rw [hagain]
      exact h.counted.notAgain
    · rw [hread, hunf]
      exact h.counted.inUse

/-- So does a consumer that is done. -/
theorem Inv.consume (h : Inv source plan w) (i : ℕ) : Inv source plan (w.consume i) := by
  have hbacked := consume_backed h.backed i
  rw [Receiver.consume] at hbacked ⊢
  split
  next => exact h
  next em hem =>
    rw [hem] at hbacked
    obtain ⟨hread, hagain, htransit, hunf⟩ := releases_same em.edge.uuids w.store
    constructor
    · exact hbacked
    · exact { h.ordered with }
    · exact { h.rounds with }
    · constructor
      · intro read hr hg uuid hu
        dsimp only
        rw [hread, htransit]
        exact h.counted.letGo read hr hg uuid hu
      · intro read hr hg uuid hu
        exact (h.counted.positive read hr hg uuid hu).releases _
      · dsimp only
        rw [hagain]
        exact h.counted.notAgain
      · intro other ho hg uuid hu
        dsimp only
        rw [hread, hunf]
        exact h.counted.inUse other (List.mem_of_mem_eraseIdx ho) hg uuid hu

/-- One event keeps all of it, and does not raise. -/
theorem Inv.step {event : Event} (h : Inv source plan w) (hproper : Proper plan w event)
    (hapart : Apart plan w event) : ∃ w', w.step source event = some w' ∧ Inv source plan w' := by
  cases event with
  | arrive edge => exact ⟨_, rfl, h.arrive hproper hapart⟩
  | deliver => exact h.deliver hapart
  | settle => exact ⟨_, rfl, h.settle⟩
  | consume i => exact ⟨_, rfl, h.consume i⟩

/-- In a proper run nothing raises, and the invariant is kept. -/
theorem Inv.run {events : List Event} (h : Inv source plan w)
    (hproper : Along source (Proper plan) w events)
    (hapart : Along source (Apart plan) w events) :
    ∃ w', Receiver.run source w events = some w' ∧ Inv source plan w' := by
  induction events generalizing w with
  | nil => exact ⟨w, rfl, h⟩
  | cons event events ih =>
    obtain ⟨w', hstep, hnext⟩ := h.step hproper.1 hapart.1
    rw [Receiver.run, hstep, Option.bind_some]
    exact ih hnext (hproper.2 w' hstep) (hapart.2 w' hstep)

/-- A gathered tensor's only reference is its consumer's. -/
theorem Inv.kept (h : Inv source plan w) {em : Emission α} (hem : em ∈ w.inUse)
    (hg : plan.Gathers em.edge.key) {share : Share α} (hs : share ∈ em.shares) :
    ∃ held, w.store.held share.1 = some held ∧ held.tensor = share.2 ∧ held.refCnt = 1 := by
  have hshare : share ∈ w.shares :=
    List.mem_append_right _ (List.mem_flatMap.2 ⟨em, hem, hs⟩)
  obtain ⟨held, hheld, ht⟩ := h.backed.sound.backed share hshare
  have hu : share.1 ∈ em.edge.uuids := (List.of_mem_zip hs).1
  obtain ⟨hunf, hread⟩ := h.counted.inUse em hem hg share.1 hu
  have hagain : share.1 ∉ w.store.again :=
    fun hmem => (h.backed.sound.againRead _ hmem).2 hunf
  have htransit : share.1 ∉ w.store.transit :=
    fun hmem => hread (h.backed.sound.transitRead _ hmem)
  have hpos : 0 < shareCount w.shares share.1 := shareCount_pos.2 ⟨share.2, hshare⟩
  have hone := h.backed.sound.unique _ hunf
  have hexact := h.backed.sound.exact _ held hheld hagain
  rw [Store.balance, if_pos hunf, if_neg hread, List.count_eq_zero.2 htransit] at hexact
  exact ⟨held, hheld, ht, by omega⟩

/-- A shard that went into a gather has no reference of the gather's left. -/
theorem Inv.letGo (h : Inv source plan w) {part : Read α} (hpart : part ∈ w.taken)
    (hg : plan.Gathers part.edge.key) {uuid : Uuid} (hu : uuid ∈ part.edge.uuids) :
    (∀ held, w.store.held uuid = some held → held.refCnt = shareCount w.shares uuid) ∧
      (shareCount w.shares uuid = 0 → w.store.held uuid = none) := by
  obtain ⟨hread, htransit⟩ := h.counted.letGo part hpart hg uuid hu
  have hagain := h.counted.notAgain uuid ⟨part, List.mem_append_left _ hpart, hg, hu⟩
  have hpos := h.counted.positive part hpart hg uuid hu
  have hcount : ∀ held, w.store.held uuid = some held →
      held.refCnt ≤ shareCount w.shares uuid := by
    intro held hheld
    have hexact := h.backed.sound.exact _ held hheld hagain
    rw [Store.balance, if_pos hread, List.count_eq_zero.2 htransit] at hexact
    split at hexact
    · omega
    · omega
  have hfetched : uuid ∈ w.store.unfetched → ∀ held, w.store.held uuid ≠ some held := by
    intro hunf held hheld
    have hone := h.backed.sound.unique uuid hunf
    have hexact := h.backed.sound.exact _ held hheld hagain
    rw [Store.balance, if_pos hread, if_pos hunf, List.count_eq_zero.2 htransit] at hexact
    have := hpos held hheld
    omega
  constructor
  · intro held hheld
    have hexact := h.backed.sound.exact _ held hheld hagain
    rw [Store.balance, if_pos hread, List.count_eq_zero.2 htransit,
      if_neg fun hunf => hfetched hunf held hheld] at hexact
    omega
  · intro hzero
    cases hheld : w.store.held uuid with
    | none => rfl
    | some held =>
      have hle := hcount held hheld
      have hlt := hpos held hheld
      omega

/-- What the invariant says of the gathers. -/
theorem Inv.gathersWhole (h : Inv source plan w) : GathersWhole plan w := by
  constructor
  · exact h.rounds.whole
  · exact h.rounds.reads
  · intro key hg
    rw [Receiver.heldBack]
    cases hbuf : w.buffers key with
    | none =>
      constructor
      · simp
      · constructor
        · exact List.nodup_nil
        · have hcard : 1 < (plan.ranks key).card := hg
          obtain ⟨rank, hrank⟩ := Finset.card_pos.1 (by omega : 0 < (plan.ranks key).card)
          exact ⟨rank, hrank, List.not_mem_nil⟩
    | some buf =>
      obtain ⟨hwait, hmissing⟩ := h.rounds.waiting key hg buf hbuf
      have hnodup : (buf.parts.map (·.edge.rank)).Nodup := hwait.ranks ▸ hwait.nodup
      constructor
      · exact fun part hpart => (hwait.parts part hpart).2
      · constructor
        · exact hnodup
        · have hlt : buf.ranks.length < (plan.ranks key).card := by
            have hnot := of_decide_eq_false hmissing
            rw [hwait.fanin] at hnot
            omega
          rw [hwait.ranks, ← List.toFinset_card_of_nodup hnodup] at hlt
          obtain ⟨rank, hrank, hnot⟩ := Finset.exists_mem_notMem_of_card_lt_card hlt
          exact ⟨rank, hrank, fun hmem => hnot (List.mem_toFinset.2 hmem)⟩
  · exact fun em hem hg share hs => h.kept hem hg hs
  · intro em hem hg part hpart uuid hu
    have hemitted : em ∈ w.emittedTo em.edge.key := by
      rw [Receiver.emittedTo, List.mem_filter]
      exact ⟨hem, by simp⟩
    have hmem : part ∈ w.taken.filter (·.edge.key = em.edge.key) := by
      rw [h.rounds.reads _ hg]
      exact List.mem_append_left _ (List.mem_flatMap.2 ⟨em, hemitted, hpart⟩)
    obtain ⟨htaken, hkey⟩ := List.mem_filter.1 hmem
    have hkey : part.edge.key = em.edge.key := of_decide_eq_true hkey
    exact h.letGo htaken (hkey ▸ hg) hu

/-- Where every gathering edge brings a tensor that is new when it is taken
up, no tensor of a gather is fetched again, and no rank brings its next shards
before the gather is complete, nothing raises and every gather is whole. -/
theorem gathers_whole (source : Uuid → List α) (plan : Plan) (events : List Event)
    (hproper : Along source (Proper plan) .start events)
    (hapart : Along source (Apart plan) .start events) :
    ∃ w, Receiver.run source .start events = some w ∧ GathersWhole plan w := by
  obtain ⟨w, hrun, hinv⟩ := inv_start.run hproper hapart
  exact ⟨w, hrun, hinv.gathersWhole⟩

instance (info : TensorInfo) : Decidable info.Sent :=
  match h : info.uuid with
  | .peer n => .isTrue fun _ => ⟨n, h⟩
  | .own _ => decidable_of_iff (info.isOwn = true) (by rw [TensorInfo.Sent, h]; simp)

instance (s : Store α) (info : TensorInfo) : Decidable (info.Kept s) :=
  inferInstanceAs (Decidable (_ → _ → _))

instance (plan : Plan) (w : Receiver α) (uuid : Uuid) : Decidable (Gathered plan w uuid) :=
  inferInstanceAs (Decidable (∃ read ∈ w.taken ++ w.pending, _ ∧ _))

instance (plan : Plan) (w : Receiver α) (edge : Edge) : Decidable (Arrives plan w edge) :=
  decidable_of_iff
    ((∀ info ∈ edge.tensorInfo, info.Sent) ∧
      edge.totalFanin = (plan.ranks edge.key).card ∧
      (plan.Gathers edge.key → edge.rank ∈ plan.ranks edge.key) ∧
      (plan.Gathers edge.key → edge.tensorInfo.length = plan.tensors edge.key edge.round) ∧
      (plan.Gathers edge.key →
        edge.round = (w.taken ++ w.pending).countP (sameStream edge)))
    ⟨fun ⟨a, b, c, d, e⟩ => ⟨a, b, c, d, e⟩, fun h => ⟨h.1, h.2, h.3, h.4, h.5⟩⟩

instance (plan : Plan) (w : Receiver α) : ∀ event, Decidable (Proper plan w event)
  | .arrive edge => inferInstanceAs (Decidable (Arrives plan w edge))
  | .deliver => .isTrue trivial
  | .settle => .isTrue trivial
  | .consume _ => .isTrue trivial

instance (plan : Plan) (w : Receiver α) : ∀ event, Decidable (Apart plan w event)
  | .arrive _ => inferInstanceAs (Decidable (_ ∧ _))
  | .deliver => inferInstanceAs (Decidable (∀ read ∈ w.pending.head?, _ → _ ∧ _))
  | .settle => .isTrue trivial
  | .consume _ => .isTrue trivial

instance {P : Receiver α → Event → Prop} [∀ w event, Decidable (P w event)] :
    ∀ (w : Receiver α) (events : List Event), Decidable (Along source P w events)
  | _, [] => .isTrue trivial
  | w, event :: events =>
    have : ∀ w', Decidable (Along source P w' events) :=
      fun w' => instDecidableAlong w' events
    inferInstanceAs (Decidable (P w event ∧ ∀ w' ∈ w.step source event, Along source P w' events))

/-- Two ranks contribute a tensor each to every input. -/
def twoRanks : Plan := ⟨fun _ => {0, 1}, fun _ _ => 1⟩

/-- Each tensor of a rank holds its number twice. -/
def rows : Uuid → List ℕ
  | .peer n => [n, n]
  | .own _ => []

/-- A rank's edge with one tensor. -/
def shardOf (rank number nextNode round : ℕ) : Edge :=
  ⟨3, nextNode, 2, [⟨.peer number, ⟨0, 2⟩, rank, false⟩], round⟩

/-- The second rank's edge comes first. -/
def bothRanks : List Event :=
  [.arrive (shardOf 1 5 0 0), .arrive (shardOf 0 4 0 0), .deliver, .deliver, .settle,
    .consume 0]

/-- Both ranks' shards go on as whole tensors. -/
theorem gathers_whole_bothRanks :
    (∃ w, Receiver.run rows .start bothRanks = some w ∧ GathersWhole twoRanks w) ∧
      (Receiver.run rows .start bothRanks).map (fun w => w.emitted.map (·.tensors)) =
        some [[[4, 4, 5, 5]]] :=
  ⟨gathers_whole rows twoRanks bothRanks (by decide) (by decide), by decide⟩

/-- An edge handed on to a gathering input is made of one read a rank. -/
theorem GathersWhole.length_parts (h : GathersWhole plan w) {em : Emission α}
    (hem : em ∈ w.emitted) (hg : plan.Gathers em.edge.key) :
    em.parts.length = (plan.ranks em.edge.key).card := by
  have hmem : em ∈ w.emittedTo em.edge.key := by
    rw [Receiver.emittedTo, List.mem_filter]
    exact ⟨hem, by simp⟩
  obtain ⟨i, hi, hget⟩ := List.mem_iff_getElem.1 hmem
  have hwhole := h.whole _ hg i em (by
    rw [Option.mem_def, List.getElem?_eq_getElem hi, hget])
  rw [← Finset.length_sort (· ≤ ·), ← hwhole.ranks.length_eq, List.length_map]

/-- Two nodes gather the same signal. -/
def twoNodes : List Event :=
  [.arrive (shardOf 0 4 0 0), .arrive (shardOf 0 4 1 0), .arrive (shardOf 1 5 0 0),
    .arrive (shardOf 1 5 1 0), .deliver, .deliver, .deliver, .deliver]

/-- The first rank brings its next shards before the second rank brings any. -/
def runAhead : List Event :=
  [.arrive (shardOf 0 4 0 0), .arrive (shardOf 0 6 0 1), .arrive (shardOf 1 5 0 0), .deliver,
    .deliver, .deliver]

/-- The second node gets an edge a rank, each with that rank's rows alone; and
a rank that runs ahead makes the gather raise. -/
theorem gathers_torn :
    (Along rows (Proper twoRanks) .start twoNodes ∧
      (Receiver.run rows .start twoNodes).map (fun w => w.emitted.map (·.tensors)) =
          some [[[4, 4]], [[4, 4, 5, 5]], [[5, 5]]] ∧
        ¬ ∃ w, Receiver.run rows .start twoNodes = some w ∧ GathersWhole twoRanks w) ∧
      Along rows (Proper twoRanks) .start runAhead ∧
        Receiver.run rows .start runAhead = none := by
  constructor
  · constructor
    · decide
    · constructor
      · decide
      · intro ⟨w, hrun, hw⟩
        have hlengths : (Receiver.run rows .start twoNodes).map
            (fun w => w.emitted.map (·.parts.length)) = some [1, 2, 1] := by decide
        rw [hrun] at hlengths
        have hlist : w.emitted.map (·.parts.length) = [1, 2, 1] := Option.some.inj hlengths
        have hone : 1 ∈ w.emitted.map (·.parts.length) := by
          rw [hlist]
          exact List.mem_cons_self
        obtain ⟨em, hem, hlength⟩ := List.mem_map.1 hone
        have hcard : (twoRanks.ranks em.edge.key).card = 2 := rfl
        have htwo := hw.length_parts hem (by rw [Plan.Gathers, hcard]; omega)
        omega
  · constructor
    · decide
    · have hnone : (Receiver.run rows .start runAhead).isNone = true := by decide
      exact Option.isNone_iff_eq_none.1 hnone

end Mstar.Gather
