import Mstar.GatherRounds
import Mstar.Histories

/-!
# Gathers over whole runs

While no rank runs ahead of a gather and every gathering edge brings a tensor
that no earlier edge brought, each input gets exactly one edge per round, with
the shards of all ranks. A second consumer of the same tensors, or a rank that
runs ahead, breaks this.
-/

namespace Mstar.Gather

variable {α : Type}

/-- What happens next at the receiving worker. -/
inductive Event where
  /-- An edge comes in. -/
  | arrive (edge : Edge)
  /-- The oldest read has finished and is taken up. -/
  | deliver
  /-- No further read has finished. -/
  | settle
  /-- A consumer is done with an edge. -/
  | consume (i : ℕ)
  deriving DecidableEq, Repr

namespace Receiver

/-- What one event does. Nothing comes of it where it raises. -/
def step (source : Uuid → List α) (w : Receiver α) : Event → Option (Receiver α)
  | .arrive edge => some (w.startRead source edge)
  | .deliver => w.deliver
  | .settle => some w.settle
  | .consume i => some (w.consume i)

/-- What a run of events comes to. -/
def run (source : Uuid → List α) (w : Receiver α) : List Event → Option (Receiver α)
  | [] => some w
  | event :: events => (w.step source event).bind fun w' => run source w' events

/-- The reads whose shards are held back for an input. -/
def heldBack (w : Receiver α) (key : Key) : List (Read α) :=
  ((w.buffers key).map (·.parts)).getD []

/-- The edges handed on to an input. -/
def emittedTo (w : Receiver α) (key : Key) : List (Emission α) :=
  w.emitted.filter (·.edge.key = key)

end Receiver

/-- Two edges are of one rank's for one input. -/
def sameStream (edge : Edge) (read : Read α) : Bool :=
  decide (read.edge.key = edge.key) && decide (read.edge.rank = edge.rank)

/-- An edge that a source rank sends by the plan, after its earlier ones. -/
structure Arrives (plan : Plan) (w : Receiver α) (edge : Edge) : Prop where
  /-- A peer's tensors have the peer's uuids. -/
  sent : ∀ info ∈ edge.tensorInfo, info.Sent
  /-- It counts the ranks of its input. -/
  fanin : edge.totalFanin = (plan.ranks edge.key).card
  /-- It comes from one of them, -/
  rank : plan.Gathers edge.key → edge.rank ∈ plan.ranks edge.key
  /-- with the tensors of its round, -/
  tensors : plan.Gathers edge.key →
    edge.tensorInfo.length = plan.tensors edge.key edge.round
  /-- which is the next of its rank's. -/
  round : plan.Gathers edge.key →
    edge.round = (w.taken ++ w.pending).countP (sameStream edge)

/-- What an event of a run is. -/
def Proper (plan : Plan) (w : Receiver α) : Event → Prop
  | .arrive edge => Arrives plan w edge
  | _ => True

/-- A tensor of some gathering edge. -/
def Gathered (plan : Plan) (w : Receiver α) (uuid : Uuid) : Prop :=
  ∃ read ∈ w.taken ++ w.pending, plan.Gathers read.edge.key ∧ uuid ∈ read.edge.uuids

/-- A gathering edge brings a tensor, no tensor of a gather is fetched again,
some tensor of the edge is new when it is taken up, and no rank brings its
next shards before the gather is complete. -/
def Apart (plan : Plan) (w : Receiver α) : Event → Prop
  | .arrive edge =>
    (plan.Gathers edge.key → edge.tensorInfo ≠ [] ∧
      ∀ info ∈ edge.tensorInfo, info.Kept w.store ∧ info.uuid ∉ w.store.again) ∧
      ∀ info ∈ edge.tensorInfo, Gathered plan w info.uuid → info.Kept w.store
  | .deliver => ∀ read ∈ w.pending.head?, plan.Gathers read.edge.key →
      w.delivered read.edge = false ∧
        ∀ part ∈ w.heldBack read.edge.key, part.edge.rank ≠ read.edge.rank
  | _ => True

/-- Every event of a run satisfies this where it happens. -/
def Along (source : Uuid → List α) (P : Receiver α → Event → Prop) (w : Receiver α) :
    List Event → Prop
  | [] => True
  | event :: events => P w event ∧ ∀ w' ∈ w.step source event, Along source P w' events

/-- The reads come by the plan, each rank's in order. -/
structure Ordered (plan : Plan) (w : Receiver α) : Prop where
  /-- Each is planned. -/
  planned : ∀ read ∈ w.taken ++ w.pending, Planned plan read
  /-- Each is its rank's next. -/
  order : Always (fun before read => plan.Gathers read.edge.key →
    read.edge.round = before.countP (sameStream read.edge)) (w.taken ++ w.pending)

/-- The reads of an input make up whole rounds, and one that is under way. -/
structure Rounds (plan : Plan) (w : Receiver α) : Prop where
  /-- Every read taken up is in one round, in order. -/
  reads : ∀ key, plan.Gathers key → w.taken.filter (·.edge.key = key) =
    (w.emittedTo key).flatMap (·.parts) ++ w.heldBack key
  /-- Every edge handed on is a whole round, in order. -/
  whole : ∀ key, plan.Gathers key → ∀ i, ∀ em ∈ (w.emittedTo key)[i]?, Whole plan key i em
  /-- What is held back is the next round, and a rank is missing. -/
  waiting : ∀ key, plan.Gathers key → ∀ buf ∈ w.buffers key,
    Waiting plan key (w.emittedTo key).length buf ∧ buf.isDone = false
  /-- Other inputs hold nothing back. -/
  plain : ∀ key, ¬ plan.Gathers key → w.buffers key = none

/-- The references of gathered tensors and of their shards. -/
structure Counted (plan : Plan) (w : Receiver α) : Prop where
  /-- A shard that was taken up has no transit reference left. -/
  letGo : ∀ read ∈ w.taken, plan.Gathers read.edge.key → ∀ uuid ∈ read.edge.uuids,
    uuid ∈ w.store.readFinished ∧ uuid ∉ w.store.transit
  /-- It is gone, or has references of others. -/
  positive : ∀ read ∈ w.taken, plan.Gathers read.edge.key → ∀ uuid ∈ read.edge.uuids,
    w.store.Positive uuid
  /-- No shard was fetched again. -/
  notAgain : ∀ uuid, Gathered plan w uuid → uuid ∉ w.store.again
  /-- A gathered tensor never has a transit reference. -/
  inUse : ∀ em ∈ w.inUse, plan.Gathers em.edge.key → ∀ uuid ∈ em.edge.uuids,
    uuid ∈ w.store.unfetched ∧ uuid ∉ w.store.readFinished

/-- All of it, between two events. -/
structure Inv (source : Uuid → List α) (plan : Plan) (w : Receiver α) : Prop where
  /-- The store is sound. -/
  backed : w.Backed source
  /-- The reads come in order. -/
  ordered : Ordered plan w
  /-- They make up rounds. -/
  rounds : Rounds plan w
  /-- Their references are counted. -/
  counted : Counted plan w

variable {source : Uuid → List α} {plan : Plan} {w w' : Receiver α} {edge : Edge}
  {read : Read α} {rest : List (Read α)} {key : Key}

/-- A new receiver keeps the invariant. -/
theorem inv_start : Inv source plan (Receiver.start : Receiver α) := by
  constructor
  · exact backed_start
  · exact ⟨by simp [Receiver.start], always_nil⟩
  · exact ⟨fun _ _ => rfl, by simp [Receiver.start, Receiver.emittedTo],
      by simp [Receiver.start], fun _ _ => rfl⟩
  · exact ⟨by simp [Receiver.start], by simp [Receiver.start],
      by simp [Receiver.start, Store.empty], by simp [Receiver.start]⟩

/-- An edge that comes in is read after the others. -/
theorem Inv.arrive (h : Inv source plan w) (hp : Arrives plan w edge)
    (ha : Apart plan w (.arrive edge)) : Inv source plan (w.startRead source edge) := by
  have hbacked := startRead_backed h.backed hp.sent
  rw [Receiver.startRead] at hbacked ⊢
  split
  next => exact h
  next hne =>
    rw [if_neg hne] at hbacked
    obtain ⟨hsteps, -⟩ := readInfos_steps h.backed.sound hp.sent
    have hrank : Edge.rank { edge with
        tensorInfo := (w.store.readInfos source edge.tensorInfo).2 } = edge.rank := by
      have hhead : ((w.store.readInfos source edge.tensorInfo).2.map (·.sourceTpRank)).head? =
          (edge.tensorInfo.map (·.sourceTpRank)).head? := by rw [hsteps.ranks]
      rw [List.head?_map, List.head?_map] at hhead
      rw [Edge.rank, Edge.rank, hhead]
    have hmem : ∀ other : Read α, other ∈ w.taken ++ (w.pending ++
        [⟨{ edge with tensorInfo := (w.store.readInfos source edge.tensorInfo).2 },
          edge.tensorInfo.map (·.rows source)⟩]) → other ∈ w.taken ++ w.pending ∨
        other = ⟨{ edge with tensorInfo := (w.store.readInfos source edge.tensorInfo).2 },
          edge.tensorInfo.map (·.rows source)⟩ := by
      intro other ho
      rw [← List.append_assoc] at ho
      rcases List.mem_append.1 ho with hold | hnew
      · exact .inl hold
      · exact .inr (List.mem_singleton.1 hnew)
    constructor
    · exact hbacked
    · constructor
      · intro other ho
        rcases hmem other ho with hold | rfl
        · exact h.ordered.planned other hold
        · exact ⟨hp.fanin, fun hg => hrank ▸ hp.rank hg,
            fun hg => (List.length_map _).trans (hp.tensors hg)⟩
      · dsimp only
        rw [← List.append_assoc]
        apply h.ordered.order.append
        intro before entry after heq hg
        cases before with
        | nil =>
          obtain ⟨rfl, -⟩ := List.cons.inj heq
          have hround := hp.round hg
          have hstream : (sameStream { edge with
              tensorInfo := (w.store.readInfos source edge.tensorInfo).2 } :
                Read α → Bool) = sameStream edge := by
            funext other
            rw [sameStream, sameStream, hrank]
            rfl
          dsimp only
          rw [List.append_nil, hstream]
          exact hround
        | cons first before => simp at heq
    · exact { h.rounds with }
    · have hbase := h.counted
      constructor
      · intro other ho hg uuid hu
        dsimp only
        rw [hsteps.readFinished, hsteps.transit]
        exact hbase.letGo other ho hg uuid hu
      · intro other ho hg uuid hu
        exact (hbase.positive other ho hg uuid hu).readInfos _
      · rintro uuid ⟨other, ho, hg, hu⟩ hagain
        rcases hmem other ho with hold | rfl
        · have hgathered : Gathered plan w uuid := ⟨other, hold, hg, hu⟩
          rcases hsteps.again uuid hagain with hwas | ⟨info, hi, rfl, hnot⟩
          · exact hbase.notAgain uuid hgathered hwas
          · exact hnot (ha.2 info hi hgathered)
        · obtain ⟨-, hinfos⟩ := ha.1 hg
          obtain ⟨info', hi', rfl⟩ := List.mem_map.1 hu
          rcases hsteps.again _ hagain with hwas | ⟨info, hi, -, hnot⟩
          · rcases hsteps.uuids info' hi' with ⟨info, hi, heq, -⟩ | ⟨n, hn⟩
            · exact (hinfos info hi).2 (heq ▸ hwas)
            · obtain ⟨m, hm⟩ := h.backed.sound.againPeer _ hwas
              rw [hn] at hm
              simp at hm
          · exact hnot (hinfos info hi).1
      · intro em hem hg uuid hu
        obtain ⟨hunf, hread⟩ := hbase.inUse em hem hg uuid hu
        exact ⟨hsteps.unfetched hunf, by dsimp only; rw [hsteps.readFinished]; exact hread⟩

/-- The shards for an edge's input are those held back. -/
theorem bufferOf_parts {buf : BufferedShards α} (h : w.bufferOf edge = some buf) :
    buf.parts = w.heldBack edge.key := by
  rw [Receiver.bufferOf] at h
  rw [Receiver.heldBack]
  cases hb : w.buffers edge.key with
  | none =>
    rw [hb] at h
    dsimp only at h
    split at h
    · obtain rfl := Option.some.inj h
      rfl
    · simp at h
  | some old =>
    rw [hb] at h
    obtain rfl := Option.some.inj h
    rfl

/-- An edge gathers exactly if several ranks contribute to its input. -/
theorem Rounds.bufferOf_isSome (h : Rounds plan w) (hp : Planned plan read) :
    (w.bufferOf read.edge).isSome = true ↔ plan.Gathers read.edge.key := by
  rw [Receiver.bufferOf]
  constructor
  · intro hsome
    by_contra hnot
    rw [h.plain _ hnot] at hsome
    dsimp only at hsome
    have hle : ¬ 1 < (plan.ranks read.edge.key).card := hnot
    rw [hp.fanin, if_neg hle] at hsome
    simp at hsome
  · intro hg
    split
    · rfl
    · have hlt : 1 < (plan.ranks read.edge.key).card := hg
      rw [hp.fanin, if_pos hlt]
      rfl

/-- The shards an input holds back are of the round to come. -/
theorem Rounds.bufferOf_waiting {buf : BufferedShards α} (h : Rounds plan w)
    (hp : Planned plan read) (hg : plan.Gathers read.edge.key)
    (hb : w.bufferOf read.edge = some buf) :
    Waiting plan read.edge.key (w.emittedTo read.edge.key).length buf := by
  rw [Receiver.bufferOf] at hb
  cases hbuf : w.buffers read.edge.key with
  | none =>
    rw [hbuf] at hb
    dsimp only at hb
    have hlt : 1 < (plan.ranks read.edge.key).card := hg
    rw [hp.fanin, if_pos hlt] at hb
    obtain rfl := Option.some.inj hb
    exact .start
  | some old =>
    rw [hbuf] at hb
    obtain rfl := Option.some.inj hb
    exact (h.waiting _ hg old hbuf).1

/-- A read whose rank is not held back is of the round to come. -/
theorem Inv.round_eq (h : Inv source plan w) (hp : w.pending = read :: rest)
    (hg : plan.Gathers read.edge.key)
    (hnew : ∀ part ∈ w.heldBack read.edge.key, part.edge.rank ≠ read.edge.rank) :
    read.edge.round = (w.emittedTo read.edge.key).length := by
  have hplanned : Planned plan read := h.ordered.planned read (by simp [hp])
  have horder := h.ordered.order w.taken read rest (by rw [hp]) hg
  have hsplit : w.taken.countP (sameStream read.edge) =
      (w.taken.filter (·.edge.key = read.edge.key)).countP
        (fun other => decide (other.edge.rank = read.edge.rank)) := by
    rw [List.countP_filter]
    apply List.countP_congr
    intro other _
    simp [sameStream, and_comm]
  have hheld : (w.heldBack read.edge.key).countP
      (fun other => decide (other.edge.rank = read.edge.rank)) = 0 := by
    rw [List.countP_eq_zero]
    intro part hpart
    simpa using hnew part hpart
  have hones : (w.emittedTo read.edge.key).map (fun em => em.parts.countP
      (fun other => decide (other.edge.rank = read.edge.rank))) =
        (w.emittedTo read.edge.key).map fun _ => 1 := by
    apply List.map_congr_left
    intro em hem
    obtain ⟨i, hi, hget⟩ := List.mem_iff_getElem.1 hem
    have hwhole := h.rounds.whole _ hg i em (by rw [Option.mem_def, ← hget]; simp [hi])
    exact hwhole.count_rank (hplanned.rank hg)
  rw [horder, hsplit, h.rounds.reads _ hg, List.countP_append, hheld, List.countP_flatMap]
  simp only [Function.comp_def]
  rw [hones]
  simp

/-- The reads still make up the same history. -/
theorem Taken.history (ht : Taken w read rest w') (hp : w.pending = read :: rest) :
    w'.taken ++ w'.pending = w.taken ++ w.pending := by
  rw [ht.taken, ht.pending, hp, List.append_assoc]
  rfl

/-- Taking up the oldest keeps the order. -/
theorem Ordered.taken (h : Ordered plan w) (ht : Taken w read rest w')
    (hp : w.pending = read :: rest) : Ordered plan w' := by
  constructor
  · rw [ht.history hp]
    exact h.planned
  · rw [ht.history hp]
    exact h.order

/-- An input's reads after one more was taken up. -/
theorem Taken.filter (ht : Taken w read rest w') (key : Key) :
    w'.taken.filter (·.edge.key = key) = w.taken.filter (·.edge.key = key) ++
      if read.edge.key = key then [read] else [] := by
  rw [ht.taken, List.filter_append]
  by_cases hk : read.edge.key = key
  · simp [hk]
  · simp [hk]

/-- An input's edges after one more was handed on. -/
theorem emittedTo_append {em : Emission α} (he : w'.emitted = w.emitted ++ [em]) (key : Key) :
    w'.emittedTo key = w.emittedTo key ++ if em.edge.key = key then [em] else [] := by
  rw [Receiver.emittedTo, Receiver.emittedTo, he, List.filter_append]
  by_cases hk : em.edge.key = key
  · simp [hk]
  · simp [hk]

/-- A read handed on as it is gathers nothing. -/
theorem Inv.passed (h : Inv source plan w) (ht : Taken w read rest w') (hc : Passed w read w') (hn : ¬ plan.Gathers read.edge.key) :
    Rounds plan w' := by
  have hother : ∀ key, plan.Gathers key → read.edge.key ≠ key :=
    fun key hg heq => hn (heq ▸ hg)
  have hemitted : ∀ key, plan.Gathers key → w'.emittedTo key = w.emittedTo key := by
    intro key hg
    rw [emittedTo_append hc.emitted key, if_neg (hother key hg), List.append_nil]
  have hheld : ∀ key, w'.heldBack key = w.heldBack key := by
    intro key
    rw [Receiver.heldBack, Receiver.heldBack, hc.buffers]
  constructor
  · intro key hg
    rw [ht.filter key, if_neg (hother key hg), List.append_nil, hemitted key hg, hheld]
    exact h.rounds.reads key hg
  · intro key hg
    rw [hemitted key hg]
    exact h.rounds.whole key hg
  · intro key hg
    rw [hemitted key hg, hc.buffers]
    exact h.rounds.waiting key hg
  · intro key hg
    rw [hc.buffers]
    exact h.rounds.plain key hg

/-- A read held back joins the round under way. -/
theorem Inv.heldBack {buf : BufferedShards α} (h : Inv source plan w)
    (ht : Taken w read rest w') (hc : HeldBack w read buf w')
    (hg : plan.Gathers read.edge.key)
    (hwait : Waiting plan read.edge.key (w.emittedTo read.edge.key).length
      (buf.extend read read.sent)) : Rounds plan w' := by
  have hemitted : ∀ key, w'.emittedTo key = w.emittedTo key := by
    intro key
    rw [Receiver.emittedTo, Receiver.emittedTo, hc.emitted]
  have hother : ∀ key, key ≠ read.edge.key → w'.buffers key = w.buffers key := by
    intro key hne
    rw [hc.buffers, Function.update_of_ne hne]
  constructor
  · intro key hgk
    rw [ht.filter key, hemitted]
    by_cases hk : key = read.edge.key
    · subst hk
      rw [if_pos rfl, h.rounds.reads _ hgk, ← bufferOf_parts hc.bufferOf, Receiver.heldBack,
        hc.buffers, Function.update_self, List.append_assoc]
      rfl
    · rw [if_neg (Ne.symm hk), List.append_nil, h.rounds.reads key hgk, Receiver.heldBack,
        Receiver.heldBack, hother key hk]
  · intro key hgk
    rw [hemitted]
    exact h.rounds.whole key hgk
  · intro key hgk buf' hbuf
    rw [hemitted]
    by_cases hk : key = read.edge.key
    · subst hk
      rw [hc.buffers, Function.update_self] at hbuf
      obtain rfl := Option.some.inj hbuf
      exact ⟨hwait, hc.missing⟩
    · rw [hother key hk] at hbuf
      exact h.rounds.waiting key hgk buf' hbuf
  · intro key hgk
    rw [hother key fun heq => hgk (heq ▸ hg)]
    exact h.rounds.plain key hgk

/-- The last rank's read completes the round. -/
theorem Inv.completed {buf : BufferedShards α} {tensors : List (List α)} {em : Emission α}
    (h : Inv source plan w) (ht : Taken w read rest w')
    (hc : Completed w read buf tensors em w') (hg : plan.Gathers read.edge.key)
    (hround : read.edge.round = (w.emittedTo read.edge.key).length)
    (hwait : Waiting plan read.edge.key (w.emittedTo read.edge.key).length
      (buf.extend read read.sent)) : Rounds plan w' := by
  have hkey : em.edge.key = read.edge.key := by
    rw [hc.edge]
    rfl
  have hparts : em.parts = (buf.extend read read.sent).parts := hc.parts
  have hemitted : ∀ key, w'.emittedTo key = w.emittedTo key ++
      if read.edge.key = key then [em] else [] := by
    intro key
    rw [emittedTo_append hc.emitted key, hkey]
  have hother : ∀ key, key ≠ read.edge.key → w'.buffers key = w.buffers key := by
    intro key hne
    rw [hc.buffers, Function.update_of_ne hne]
  have hwhole : Whole plan read.edge.key (w.emittedTo read.edge.key).length em := by
    constructor
    · rw [hparts]
      exact hwait.ranks_perm hc.done
    · rw [hparts]
      exact hwait.parts
    · rw [hc.edge]
      exact hround
    · rw [hc.tensors, hparts]
      exact Option.some.inj (hc.consolidate.symm.trans (hwait.consolidate hc.done hg))
  constructor
  · intro key hgk
    rw [ht.filter key, hemitted]
    by_cases hk : key = read.edge.key
    · subst hk
      rw [if_pos rfl, if_pos rfl, h.rounds.reads _ hgk, ← bufferOf_parts hc.bufferOf,
        Receiver.heldBack, hc.buffers, Function.update_self, List.flatMap_append,
        List.flatMap_cons, hc.parts]
      simp
    · rw [if_neg (Ne.symm hk), if_neg (Ne.symm hk), List.append_nil, List.append_nil,
        h.rounds.reads key hgk, Receiver.heldBack, Receiver.heldBack, hother key hk]
  · intro key hgk i em' hem
    rw [hemitted] at hem
    by_cases hk : read.edge.key = key
    · subst hk
      rw [if_pos rfl] at hem
      rcases Nat.lt_trichotomy i (w.emittedTo read.edge.key).length with hlt | heq | hgt
      · rw [List.getElem?_append_left hlt] at hem
        exact h.rounds.whole _ hgk i em' hem
      · subst heq
        rw [List.getElem?_concat_length] at hem
        obtain rfl := Option.some.inj hem
        exact hwhole
      · rw [List.getElem?_eq_none (by simp; omega)] at hem
        simp at hem
    · rw [if_neg hk, List.append_nil] at hem
      exact h.rounds.whole key hgk i em' hem
  · intro key hgk buf' hbuf
    by_cases hk : key = read.edge.key
    · subst hk
      rw [hc.buffers, Function.update_self] at hbuf
      simp at hbuf
    · rw [hother key hk] at hbuf
      rw [hemitted, if_neg (Ne.symm hk), List.append_nil]
      exact h.rounds.waiting key hgk buf' hbuf
  · intro key hgk
    rw [hother key fun heq => hgk (heq ▸ hg)]
    exact h.rounds.plain key hgk

/-- A tensor with no transit reference of its own has a single share. -/
theorem Inv.not_shared (h : Inv source plan w) (hp : w.pending = read :: rest)
    {em : Emission α} (hem : em ∈ w.inUse) {uuid : Uuid} (hu : uuid ∈ em.edge.uuids)
    (hunf : uuid ∈ w.store.unfetched) : uuid ∉ read.edge.uuids := by
  intro hread
  have hone := h.backed.sound.unique uuid hunf
  have hpos₁ : 0 < shareCount (w.pending.flatMap (·.shares)) uuid := by
    apply shareCount_pos_of_mem_zip (h.backed.fits read (by simp [hp])) hread
    intro share hs
    exact List.mem_flatMap.2 ⟨read, by simp [hp], hs⟩
  have hpos₂ : 0 < shareCount (w.inUse.flatMap (·.shares)) uuid := by
    apply shareCount_pos_of_mem_zip (h.backed.usedFits em hem) hu
    intro share hs
    exact List.mem_flatMap.2 ⟨em, hem, hs⟩
  have hsum : shareCount w.shares uuid = shareCount (w.pending.flatMap (·.shares)) uuid +
      shareCount (w.inUse.flatMap (·.shares)) uuid := by
    simp [shareCount, Receiver.shares]
  omega

/-- Taking up a read leaves no reference behind that it should not. -/
theorem Inv.count (h : Inv source plan w) (hp : w.pending = read :: rest)
    (ht : Taken w read rest w')
    (hlast : plan.Gathers read.edge.key → w'.store.transit = [] ∧
      ∀ uuid ∈ read.edge.uuids, w'.store.Positive uuid)
    (huse : ∀ em ∈ w'.inUse, plan.Gathers em.edge.key → em ∈ w.inUse ∨
      ∀ uuid ∈ em.edge.uuids, uuid ∈ w'.store.unfetched ∧ uuid ∉ w'.store.readFinished) :
    Counted plan w' := by
  constructor
  · intro other ho hg uuid hu
    rw [ht.taken] at ho
    rcases List.mem_append.1 ho with hold | hnew
    · obtain ⟨hread, htransit⟩ := h.counted.letGo other hold hg uuid hu
      constructor
      · exact (ht.readFinished uuid).2 (.inr hread)
      · intro hmem
        rcases ht.transit uuid hmem with hwas | hnot
        · exact htransit hwas
        · exact hnot hread
    · rw [List.mem_singleton.1 hnew] at hg hu
      constructor
      · exact (ht.readFinished uuid).2 (.inl hu)
      · rw [(hlast hg).1]
        exact List.not_mem_nil
  · intro other ho hg uuid hu
    rw [ht.taken] at ho
    rcases List.mem_append.1 ho with hold | hnew
    · obtain ⟨hread, htransit⟩ := h.counted.letGo other hold hg uuid hu
      exact ht.positive uuid hread htransit (h.counted.positive other hold hg uuid hu)
    · rw [List.mem_singleton.1 hnew] at hg hu
      exact (hlast hg).2 uuid hu
  · intro uuid ⟨other, ho, hg, hu⟩
    rw [ht.history hp] at ho
    rw [ht.again]
    exact h.counted.notAgain uuid ⟨other, ho, hg, hu⟩
  · intro em hem hg uuid hu
    rcases huse em hem hg with hold | hnew
    · obtain ⟨hunf, hread⟩ := h.counted.inUse em hold hg uuid hu
      constructor
      · exact ht.unfetched hunf
      · rw [ht.readFinished]
        intro hor
        rcases hor with hin | hwas
        · exact h.not_shared hp hold hu hunf hin
        · exact hread hwas
    · exact hnew uuid hu

/-- Taking up a read keeps all of it, and never raises. -/
theorem Inv.deliver (h : Inv source plan w) (ha : Apart plan w .deliver) :
    ∃ w', w.deliver = some w' ∧ Inv source plan w' := by
  cases hp : w.pending with
  | nil => exact ⟨w, by rw [Receiver.deliver, hp], h⟩
  | cons read rest =>
    have hplanned : Planned plan read := h.ordered.planned read (by simp [hp])
    have happ := ha read (by rw [hp]; rfl)
    have hextend : ∀ buf, w.bufferOf read.edge = some buf → plan.Gathers read.edge.key →
        read.edge.round = (w.emittedTo read.edge.key).length ∧
          Waiting plan read.edge.key (w.emittedTo read.edge.key).length
            (buf.extend read read.sent) := by
      intro buf hbuf hg
      have hround := h.round_eq hp hg (happ hg).2
      have hwait := h.rounds.bufferOf_waiting hplanned hg hbuf
      refine ⟨hround, hwait.extend rfl hround (hplanned.rank hg) ?_ ?_⟩
      · rw [← hround]
        exact hplanned.sent hg
      · rw [bufferOf_parts hbuf]
        exact (happ hg).2
    have hgathers : ∀ buf, w.bufferOf read.edge = some buf → plan.Gathers read.edge.key := by
      intro buf hbuf
      exact (h.rounds.bufferOf_isSome hplanned).1 (by rw [hbuf]; rfl)
    rcases deliver_cases h.backed hp with ⟨w', hw, hb, ht, hc⟩ | ⟨buf, w', hw, hb, ht, hl, hc⟩ |
      ⟨buf, tensors, em, w', hw, hb, ht, hl, hc⟩ | ⟨buf, -, -, hbuf, hdone, hnone⟩
    · have hn : ¬ plan.Gathers read.edge.key := by
        intro hg
        rcases hc.why with hdel | hnone
        · rw [(happ hg).1] at hdel
          simp at hdel
        · have hsome := (h.rounds.bufferOf_isSome hplanned).2 hg
          rw [hnone] at hsome
          simp at hsome
      refine ⟨w', hw, ⟨hb, h.ordered.taken ht hp, h.passed ht hc hn, ?_⟩⟩
      apply h.count hp ht fun hg => absurd hg hn
      intro em hem hg
      rw [hc.inUse] at hem
      rcases List.mem_append.1 hem with hold | hnew
      · exact .inl hold
      · rw [List.mem_singleton.1 hnew] at hg
        exact absurd hg hn
    · have hg := hgathers buf hc.bufferOf
      refine ⟨w', hw, ⟨hb, h.ordered.taken ht hp,
        h.heldBack ht hc hg (hextend buf hc.bufferOf hg).2, ?_⟩⟩
      apply h.count hp ht fun _ => ⟨hl, hc.letGo⟩
      intro em hem _
      rw [hc.inUse] at hem
      exact .inl hem
    · have hg := hgathers buf hc.bufferOf
      obtain ⟨hround, hwait⟩ := hextend buf hc.bufferOf hg
      refine ⟨w', hw, ⟨hb, h.ordered.taken ht hp, h.completed ht hc hg hround hwait, ?_⟩⟩
      apply h.count hp ht fun _ => ⟨hl, hc.letGo⟩
      intro other hem _
      rw [hc.inUse] at hem
      rcases List.mem_append.1 hem with hold | hnew
      · exact .inl hold
      · rw [List.mem_singleton.1 hnew]
        exact .inr hc.unfetched
    · have hg := hgathers buf hbuf
      have hsome := (hextend buf hbuf hg).2.consolidate hdone hg
      rw [hnone] at hsome
      simp at hsome

end Mstar.Gather
