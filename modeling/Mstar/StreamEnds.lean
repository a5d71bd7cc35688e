import Mathlib.Algebra.Order.Ring.Int
import Mstar.StreamDelivery
import Mathlib.Logic.Relation

/-!
# Streams end

Once everything that the producer counted has arrived, a consumer that keeps popping
empties the buffer, and a stream that does not go on after its producer closes with
one final chunk. A chunk that leaves the stream where it is uses up patience.
-/

namespace Mstar

namespace StreamBuffer

variable {Id Walk Item : Type} {b : StreamBuffer Id Walk Item} {walks : List Walk}

/-- What is left to pop: items, and chunks that may leave the stream where it is. -/
def left (b : StreamBuffer Id Walk Item) : ℕ := b.buffer.length + b.policy.patience b.policyState

/-- A leading run that is not the whole buffer has items. -/
theorem Shaped.walkRunLen_pos (h : Shaped b walks) (hlt : b.walkRunLen < b.buffer.length) :
    0 < b.walkRunLen := by
  unfold walkRunLen at hlt ⊢
  cases hruns : b.walkRuns with
  | nil =>
    rw [hruns] at hlt
    exact (Nat.lt_irrefl _ hlt).elim
  | cons run rest => exact h.positive run (hruns ▸ List.mem_cons_self)

/-- A cut that takes items, or uses up patience, leaves less. -/
theorem left_afterCut {shown stride : ℕ} (hne : b.buffer ≠ [])
    (hprogress : 0 < stride ∨
      b.policy.patience (b.policy.registerChunk b.policyState) < b.policy.patience b.policyState) :
    (b.afterCut shown stride).left < b.left := by
  have hpatience := ChunkPolicy.patience_registerChunk b.policy b.policyState
  have hlength := List.length_pos_iff.2 hne
  unfold left
  change (b.buffer.drop stride).length + b.policy.patience (b.policy.registerChunk b.policyState) < _
  rw [List.length_drop]
  omega

/-- Where the policy has a window there is a chunk to cut. -/
theorem cut_some {window : ℕ} (hw : b.policy.windowSize b.policyState = some window) :
    ∃ shown stride, b.cut window = some (shown, stride) := by
  have hready : ∀ n, ∃ ready, b.policy.isReady b.policyState n = some ready := by
    intro n
    rw [ChunkPolicy.isReady_eq, hw]
    exact ⟨_, rfl⟩
  obtain ⟨size, hsize, -⟩ := ChunkPolicy.stride_le_window hw
  have hrun : ∃ flushed, b.flushesRun = some flushed := by
    unfold flushesRun
    obtain ⟨ready, hready⟩ := hready b.walkRunLen
    rw [hready]
    split <;> exact ⟨_, rfl⟩
  have hend : ∃ flushed, b.flushesEnd = some flushed := by
    unfold flushesEnd
    obtain ⟨ready, hready⟩ := hready b.buffer.length
    rw [hready]
    split <;> exact ⟨_, rfl⟩
  obtain ⟨flushed, hrun⟩ := hrun
  obtain ⟨ended, hend⟩ := hend
  unfold cut
  cases flushed with
  | true => exact ⟨_, _, by rw [hrun]; rfl⟩
  | false =>
    cases ended with
    | true => exact ⟨_, _, by rw [hrun, hend]; rfl⟩
    | false => exact ⟨_, _, by rw [hrun, hend, hsize]; rfl⟩

/-- A chunk of what is buffered leaves less. -/
theorem takeChunk_left (hshape : Shaped b walks) (hsteady : b.policy.Steady) (hne : b.buffer ≠ []) :
    ∃ chunk b', b.takeChunk = some (chunk, b') ∧ b'.left < b.left := by
  obtain ⟨window, hw, hpos⟩ := hsteady.window b.policyState
  obtain ⟨shown, stride, hcut⟩ := cut_some hw
  refine ⟨b.chunkOf shown stride, b.afterCut shown stride, ?_, left_afterCut hne ?_⟩
  · unfold takeChunk
    rw [hw]
    dsimp only [Option.bind_eq_bind, Option.bind_some]
    rw [hcut]
    rfl
  · rcases cut_cases hcut with ⟨hrun, -, rfl⟩ | ⟨-, -, -, rfl⟩ | ⟨-, -, -, hsize⟩
    · exact Or.inl (hshape.walkRunLen_pos (flushesRun_true hrun))
    · exact Or.inl (List.length_pos_iff.2 hne)
    · exact hsteady.advance hsize

/-- The chunk after the last item is an empty one that ends the stream. -/
theorem takeChunk_final (hsteady : b.policy.Steady) (hnil : b.buffer = [])
    (hread : b.producerDoneAndAllRead = true) (hstops : b.policy.continueAfterProducerDone = false) :
    ∃ chunk b', b.takeChunk = some (chunk, b') ∧ b'.finalChunkEmitted = true := by
  obtain ⟨window, hw, hpos⟩ := hsteady.window b.policyState
  obtain ⟨shown, stride, hcut⟩ := cut_some hw
  refine ⟨b.chunkOf shown stride, b.afterCut shown stride, ?_, ?_⟩
  · unfold takeChunk
    rw [hw]
    dsimp only [Option.bind_eq_bind, Option.bind_some]
    rw [hcut]
    rfl
  · change (b.finalChunkEmitted || (b.advance stride).ends) = true
    have hends : (b.advance stride).ends = true := by
      unfold ends
      rw [Bool.and_eq_true, Bool.and_eq_true, Bool.not_eq_true', List.isEmpty_iff]
      refine ⟨⟨hread, ?_⟩, hstops⟩
      change b.buffer.drop stride = []
      rw [hnil, List.drop_nil]
    rw [hends, Bool.or_true]

/-- A chunk leaves the waiting edges alone. -/
theorem waitingGraphEdges_takeChunk {b' : StreamBuffer Id Walk Item} {chunk : StreamChunk Item}
    (h : b.takeChunk = some (chunk, b')) : b'.waitingGraphEdges = b.waitingGraphEdges := by
  unfold takeChunk at h
  cases hw : b.policy.windowSize b.policyState with
  | none => simp [hw] at h
  | some window =>
    cases hcut : b.cut window with
    | none => simp [hw, hcut] at h
    | some sizes =>
      simp only [hw, hcut, Option.bind_eq_bind, Option.bind_some] at h
      cases h
      rfl

/-- A buffer with items left, and nothing to come, offers a chunk. -/
theorem offers_of_ne_nil [DecidableEq Walk] (consumerWalk : Walk)
    (hread : b.producerDoneAndAllRead = true)
    (hne : b.buffer ≠ []) : b.offers consumerWalk = some true := by
  have hempty : b.buffer.isEmpty = false := by
    cases hbuffer : b.buffer with
    | nil => exact absurd hbuffer hne
    | cons item rest => rfl
  unfold offers
  rw [hread, hempty]
  split
  · rfl
  · rw [if_neg (by simp)]
    split <;> rfl

/-- Where all was read and no chunk is offered, nothing is buffered, and a stream that does not
go on has had its final chunk. -/
theorem empty_of_not_offers [DecidableEq Walk] {consumerWalk : Walk}
    (hread : b.producerDoneAndAllRead = true) (h : b.offers consumerWalk = some false) :
    b.buffer = [] ∧
      (b.policy.continueAfterProducerDone = false → b.finalChunkEmitted = true) := by
  have hnil : b.buffer = [] := by
    by_contra hne
    rw [offers_of_ne_nil consumerWalk hread hne] at h
    cases h
  refine ⟨hnil, ?_⟩
  intro hstops
  unfold offers at h
  rw [hread, hstops, hnil] at h
  cases hemitted : b.finalChunkEmitted with
  | true => rfl
  | false =>
    rw [hemitted] at h
    cases h

end StreamBuffer

namespace StreamRun

open StreamBuffer

variable {Id Walk Item : Type} [DecidableEq Id] [DecidableEq Walk] {join : List Item → Item}
  {serial : Bool} {policy : ChunkPolicy Walk} {joinDim : Option ℕ} {walkTagged : Bool}
  {w w' : StreamRun Id Walk Item} {moved : List (StreamEntry Id × Walk)}
  {items : List (Item × Walk)} {consumerWalk : Walk}

/-- A consumer polls, and takes every chunk that is ready. -/
inductive Consumes (join : List Item → Item) (consumerWalk : Walk) :
    StreamRun Id Walk Item → StreamRun Id Walk Item → Prop where
  /-- A poll. -/
  | poll (w : StreamRun Id Walk Item) :
      Consumes join consumerWalk w { w with stream := w.stream.updateBuffer join }
  /-- A ready chunk is popped and accepted. -/
  | take (w : StreamRun Id Walk Item) (chunk : StreamChunk Item) (stream : StreamBuffer Id Walk Item)
      (ready : w.stream.hasChunkReady join consumerWalk = some true)
      (popped : w.stream.popChunk join = some (chunk, stream)) :
      Consumes join consumerWalk w { w with
        stream := stream, chunks := w.chunks ++ [chunk], accepted := w.accepted ++ [edgeOf chunk] }

/-- No edge waits or is handed out. -/
def Settled (w : StreamRun Id Walk Item) : Prop :=
  w.outstanding = [] ∧ w.stream.waitingGraphEdges = []

/-- What a consumer does is what a run does. -/
theorem Consumes.reaches (h : Consumes join consumerWalk w w')
    (hreaches : Reaches join serial policy joinDim walkTagged w) (hsettled : Settled w) :
    Reaches join serial policy joinDim walkTagged w' ∧ Settled w' := by
  have hwaiting : (w.stream.updateBuffer join).waitingGraphEdges = w.stream.waitingGraphEdges := by
    rw [updateBuffer_frame]
  cases h with
  | poll => exact ⟨hreaches.step (Step.poll w), hsettled.1, hwaiting.trans hsettled.2⟩
  | take chunk stream ready popped =>
    have hpop := hreaches.step
      (Step.pop w consumerWalk chunk stream (fun _ => ⟨hsettled.2, hsettled.1⟩) ready popped)
    have hingest := hpop.step (Step.ingest _ (edgeOf chunk) [] [] (by
      dsimp only
      rw [hsettled.1]))
    have heq : w.outstanding = [] ++ [] := hsettled.1
    rw [← heq] at hingest
    exact ⟨hingest, hsettled.1, (waitingGraphEdges_takeChunk popped).trans (hwaiting.trans hsettled.2)⟩

/-- A consumer that keeps popping empties the buffer and closes the stream. -/
theorem drains (consumerWalk : Walk) (hreaches : Reaches join serial policy joinDim walkTagged w) (hsettled : Settled w)
    (hsteady : policy.Steady) (hread : w.stream.producerDoneAndAllRead = true) :
    ∃ w', Relation.ReflTransGen (Consumes join consumerWalk) w w' ∧
      Reaches join serial policy joinDim walkTagged w' ∧ w'.stream.buffer = [] ∧
      w'.stream.tensorIdsInOrder = [] ∧ w'.registered = w.registered ∧ w'.arrived = w.arrived ∧
      (policy.continueAfterProducerDone = false → w'.stream.finalChunkEmitted = true) := by
  -- on what is left: every chunk before the buffer is empty leaves less
  induction hn : w.stream.left using Nat.strong_induction_on generalizing w with
  | h n ih =>
    obtain ⟨moved, items, hinv⟩ := Inv.of_reaches hreaches
    obtain ⟨-, -, hpending⟩ := hinv.pending_nil hread
    have hupdate : w.stream.updateBuffer join = w.stream := updateBuffer_of_nil hpending
    have hsteady' : w.stream.policy.Steady := hinv.policy_eq ▸ hsteady
    by_cases hnil : w.stream.buffer = []
    · by_cases hgo : policy.continueAfterProducerDone = false ∧ w.stream.finalChunkEmitted = false
      · obtain ⟨hstops, hnot⟩ := hgo
        have hstops' : w.stream.policy.continueAfterProducerDone = false := hinv.policy_eq ▸ hstops
        obtain ⟨chunk, stream, htake, hemitted⟩ := takeChunk_final hsteady' hnil hread hstops'
        have hready : w.stream.hasChunkReady join consumerWalk = some true := by
          unfold hasChunkReady
          rw [hupdate]
          unfold offers
          rw [hread, hstops', hnot, hnil]
          rfl
        have hconsume : Consumes join consumerWalk w _ :=
          Consumes.take w chunk stream hready (by
            unfold popChunk
            rw [hupdate]
            exact htake)
        obtain ⟨hreaches', hsettled'⟩ := hconsume.reaches hreaches hsettled
        obtain ⟨moved', items', hinv'⟩ := Inv.of_reaches hreaches'
        have hfinished := hinv'.ending.finished hemitted
        exact ⟨_, .single hconsume, hreaches', hfinished.buffer, hfinished.pending, rfl, rfl,
          fun _ => hemitted⟩
      · refine ⟨w, .refl, hreaches, hnil, hpending, rfl, rfl, ?_⟩
        intro hstops
        cases hemitted : w.stream.finalChunkEmitted with
        | true => rfl
        | false => exact absurd ⟨hstops, hemitted⟩ hgo
    · obtain ⟨chunk, stream, htake, hless⟩ := takeChunk_left hinv.tracks.shaped hsteady' hnil
      have hoffers := offers_of_ne_nil consumerWalk hread hnil
      obtain ⟨stride, hpop⟩ := takeChunk_popped hinv.tracks.shaped hoffers htake
      have hconsume : Consumes join consumerWalk w _ :=
        Consumes.take w chunk stream (by
          unfold hasChunkReady
          rw [hupdate]
          exact hoffers) (by
          unfold popChunk
          rw [hupdate]
          exact htake)
      obtain ⟨hreaches', hsettled'⟩ := hconsume.reaches hreaches hsettled
      have hread' : stream.producerDoneAndAllRead = true := by
        rw [hpop.after]
        exact hread
      obtain ⟨w', hrun, hrest⟩ := ih stream.left (hn ▸ hless) hreaches' hsettled' hread' rfl
      exact ⟨w', hrun.head hconsume, hrest⟩

/-- What a run has delivered: every chunk is at its place, the new items of the chunks are
the registered ones in order, and a stream that ends does so once, with all of them. -/
structure DeliversOnce (join : List Item → Item) (serial : Bool) (policy : ChunkPolicy Walk)
    (walkTagged : Bool) (w : StreamRun Id Walk Item) : Prop where
  /-- The new items of the chunks are the registered ones past the lead, each once, in order. -/
  fresh : w.chunks.flatMap StreamChunk.fresh <+: ((w.inOrder join).map Prod.fst).drop w.lead
  /-- The released items are the registered ones, each once, in order. -/
  released : w.chunks.flatMap StreamChunk.released <+: (w.inOrder join).map Prod.fst
  /-- Each chunk is what its offset, its length and its context say, of one walk. -/
  described : ∀ early chunk late, w.chunks = early ++ chunk :: late →
    Described walkTagged (w.inOrder join) w.lead early chunk
  /-- Every chunk's edge is accepted, handed out or waiting to be popped again. -/
  edges : (w.accepted ++ (w.outstanding ++ w.stream.waitingGraphEdges)).Perm (w.chunks.map edgeOf)
  /-- Where no edge is popped while another is handed out, they stay in order. -/
  inSequence : serial = true →
    w.accepted ++ (w.outstanding ++ w.stream.waitingGraphEdges) = w.chunks.map edgeOf
  /-- A final chunk is the last. It was popped with all that was counted registered, arrived
  and handed out, and no chunk is ready afterwards. -/
  final : ∀ early chunk late, w.chunks = early ++ chunk :: late → chunk.isFinal = true →
    late = [] ∧ policy.continueAfterProducerDone = false ∧ AllRead join w ∧ Complete join w ∧
      ∀ consumerWalk, w.stream.hasChunkReady join consumerWalk = some false
  /-- With all that was counted there and no chunk ready, all was delivered, and a stream that
  does not go on after its producer has its final chunk. -/
  drained : AllRead join w → ∀ consumerWalk,
    w.stream.hasChunkReady join consumerWalk = some false → Complete join w ∧
      (policy.continueAfterProducerDone = false →
        ∃ early chunk, w.chunks = early ++ [chunk] ∧ chunk.isFinal = true)
  /-- A consumer that takes what is ready gets there. -/
  ends : AllRead join w → Settled w → policy.Steady → ∀ consumerWalk,
    ∃ w', Relation.ReflTransGen (Consumes join consumerWalk) w w' ∧ Complete join w' ∧
      (policy.continueAfterProducerDone = false →
        ∃ early chunk, w'.chunks = early ++ [chunk] ∧ chunk.isFinal = true)

/-- In every run of a stream, whatever its policy, its items are delivered exactly once, in
the order they were registered. -/
theorem delivers_once (h : Reaches join serial policy joinDim walkTagged w) :
    DeliversOnce join serial policy walkTagged w := by
  obtain ⟨moved₀, items₀, hinv₀⟩ := Inv.of_reaches h
  obtain ⟨moved, items, hinv, heq⟩ := hinv₀.update
  have hupdated : AllRead join w →
      (w.stream.updateBuffer join).tensorIdsInOrder = [] ∧
        (w.stream.updateBuffer join).producerDoneAndAllRead = true := by
    intro hread
    have hread' : AllRead join { w with stream := w.stream.updateBuffer join } := by
      constructor
      · dsimp only
        rw [updateBuffer_frame]
        exact hread.done
      · dsimp only
        rw [updateBuffer_frame]
        exact hread.registered
      · exact hread.arrived
    have hpending := hinv.pending_of_allRead hread' heq
    refine ⟨hpending, hinv.allRead hread'.done ?_ hpending⟩
    rw [hinv.tracks.counted, hread'.registered]
  constructor
  case fresh =>
    have hfresh := hinv.handed.fresh
    rw [heq]
    change w.chunks.flatMap StreamChunk.fresh = _ at hfresh
    rw [hfresh]
    exact (List.take_prefix _ _).drop w.lead
  case released =>
    have hreleased := hinv.handed.released
    rw [heq]
    change w.chunks.flatMap StreamChunk.released = _ at hreleased
    rw [hreleased]
    exact List.take_prefix _ _
  case described =>
    intro early chunk late hsplit
    rw [heq]
    exact hinv.tagged_eq ▸ hinv.handed.described early chunk late hsplit
  case edges => exact hinv₀.edges.perm
  case inSequence => exact hinv₀.edges.order
  case final =>
    intro early chunk late hsplit hfinal
    obtain ⟨hemitted, hlate⟩ := hinv₀.emitted_of_final hsplit hfinal
    have hfinished := hinv₀.ending.finished hemitted
    refine ⟨hlate, ?_, hinv₀.allRead_of_emitted hemitted,
      hinv₀.complete hfinished.pending hfinished.buffer, ?_⟩
    · rw [← hinv₀.policy_eq]
      exact hfinished.stops
    · intro consumerWalk
      unfold hasChunkReady
      rw [updateBuffer_of_nil hfinished.pending]
      exact hinv₀.offers_of_emitted hemitted consumerWalk
  case drained =>
    intro hread consumerWalk hready
    obtain ⟨hpending, hallRead⟩ := hupdated hread
    obtain ⟨hnil, hemitted⟩ := empty_of_not_offers hallRead hready
    have hcomplete := hinv.complete hpending hnil
    refine ⟨⟨hcomplete.fresh, hcomplete.released⟩, ?_⟩
    intro hstops
    obtain ⟨early, chunk, hsplit, hfinal, -⟩ := hinv.ending.ended (hemitted (hinv.policy_eq ▸ hstops))
    exact ⟨early, chunk, hsplit, hfinal⟩
  case ends =>
    intro hread hsettled hsteady consumerWalk
    obtain ⟨-, hallRead⟩ := hupdated hread
    have hpoll : Consumes join consumerWalk w _ := Consumes.poll w
    obtain ⟨hreaches, hsettled'⟩ := hpoll.reaches h hsettled
    obtain ⟨w', hrun, hreaches', hnil, hpending, -, -, hemitted⟩ :=
      drains consumerWalk hreaches hsettled' hsteady hallRead
    obtain ⟨moved', items', hinv'⟩ := Inv.of_reaches hreaches'
    refine ⟨w', hrun.head hpoll, hinv'.complete hpending hnil, ?_⟩
    intro hstops
    obtain ⟨early, chunk, hsplit, hfinal, -⟩ := hinv'.ending.ended (hemitted hstops)
    exact ⟨early, chunk, hsplit, hfinal⟩

/-- Two items that arrive out of order, a refused edge, and the producer's end between them. -/
theorem delivers_once_window :
    ∃ w : StreamRun ℕ Unit ℕ,
      Reaches List.sum true (.slidingWindow 2 1 (by decide) (by decide)) none false w ∧
      w.chunks.flatMap StreamChunk.fresh = [10, 11] ∧
      w.chunks.map (fun chunk => (chunk.startOffset, chunk.contextItems, chunk.numItems, chunk.isFinal)) =
        [(0, 0, 2, false), (1, 1, 1, true)] ∧
      DeliversOnce List.sum true (.slidingWindow 2 1 (by decide) (by decide)) false w := by
  have started : Reaches List.sum true (.slidingWindow 2 1 (by decide) (by decide)) none false
    (start _ _ _ : StreamRun ℕ Unit ℕ) := Reaches.start
  have registered := started.step (Step.preReadRegister _ 0 () (by decide) (by decide))
  have both := registered.step (Step.preReadRegister _ 1 () (by decide) (by decide))
  have arrived := (both.step (Step.put _ 1 11 rfl)).step (Step.put _ 0 10 rfl)
  have popped := arrived.step (Step.pop _ () _ _ (fun _ => ⟨rfl, rfl⟩) rfl rfl)
  have done := popped.step (Step.signalDone _ 2 (by decide) (by decide))
  have refused := done.step (Step.refuse _ _ [] [] rfl)
  have again := refused.step (Step.popWaiting _ _ _ (fun _ => rfl) rfl)
  have ingested := again.step (Step.ingest _ _ [] [] rfl)
  have ended := ingested.step (Step.pop _ () _ _ (fun _ => ⟨rfl, rfl⟩) rfl rfl)
  exact ⟨_, ended, rfl, rfl, delivers_once ended⟩

end StreamRun

end Mstar
