import Mstar.PassAdvances

/-!
# Passes over whole runs

A run in which every report comes while its pass is counted advances every
partition once per pass, and declares the request complete with everything
its ranks reported. A rank that runs ahead of another breaks this.
-/

namespace Mstar.Passes

variable {cfg : Config} {w : World} {δ : Delivery} {rank : Rank}

/-- Where the chunks of every rank are. -/
structure Ledger (w : World) : Prop where
  /-- A chunk is counted, on its way, or waits for the next report. -/
  emitted : w.phase = .running → ∀ rank, w.emitted rank = countedChunks w.heard rank ++
    (w.inFlight rank).flatMap (·.body.outputSignalNames) ++ w.pending rank
  /-- Reports are on the way of the rank that sent them. -/
  own : ∀ rank, ∀ δ ∈ w.inFlight rank, δ.sender = rank
  /-- A report takes along all that its rank had put out. -/
  soFar : w.phase = .running → ∀ rank, Always (fun before δ => δ.soFar ≤
    (countedChunks w.heard rank ++ (before ++ [δ]).flatMap (·.body.outputSignalNames)).length)
    (w.inFlight rank)
  /-- What a rank had put out when it sent a report is counted with the report. -/
  told : ∀ δ ∈ w.heard, δ.soFar ≤ (countedChunks w.heard δ.sender).length
  /-- A rank's chunks are counted in order. -/
  counted : ∀ rank, countedChunks w.heard rank <+: w.emitted rank

/-- A rank's chunks, with one more report. -/
theorem countedChunks_append (heard : List Delivery) (δ : Delivery) (rank : Rank) :
    countedChunks (heard ++ [δ]) rank = countedChunks heard rank ++
      if δ.sender = rank then δ.body.outputSignalNames else [] := by
  rw [countedChunks, countedChunks, List.filter_append, List.flatMap_append]
  by_cases h : δ.sender = rank
  · simp [h]
  · simp [h]

/-- The start keeps the ledger. -/
theorem Ledger.start : Ledger (World.start cfg) := by
  constructor
  · exact fun _ _ => rfl
  · simp [World.start]
  · exact fun _ _ => always_nil
  · simp [World.start]
  · exact fun _ => List.nil_prefix

/-- A chunk put out waits for the next report. -/
theorem Ledger.emit (h : Ledger w) (name : SignalName) :
    Ledger (w.step cfg (.emit rank name)) := by
  constructor
  · intro hr other
    have hold := h.emitted hr other
    dsimp only [World.step]
    by_cases ho : other = rank
    · subst ho
      simp [hold]
    · simp [Function.update_of_ne ho, hold]
  · exact h.own
  · exact h.soFar
  · exact h.told
  · intro other
    have hold := h.counted other
    dsimp only [World.step]
    by_cases ho : other = rank
    · subst ho
      rw [Function.update_self]
      exact hold.trans (List.prefix_append _ _)
    · rw [Function.update_of_ne ho]
      exact hold

/-- A report sent takes the waiting chunks along. -/
theorem Ledger.send (h : Ledger w) (pass : ℕ) (body : WorkerGraphsDone) :
    Ledger (w.send rank pass body) := by
  constructor
  · intro hr other
    have hold := h.emitted hr other
    dsimp only [World.send]
    by_cases ho : other = rank
    · subst ho
      simp [hold]
    · simp [Function.update_of_ne ho, hold]
  · intro other δ hδ
    dsimp only [World.send] at hδ
    by_cases ho : other = rank
    · subst ho
      rw [Function.update_self] at hδ
      rcases List.mem_append.1 hδ with hold | hnew
      · exact h.own other δ hold
      · obtain rfl := List.mem_singleton.1 hnew
        rfl
    · rw [Function.update_of_ne ho] at hδ
      exact h.own other δ hδ
  · intro hr other
    dsimp only [World.send]
    by_cases ho : other = rank
    · subst ho
      rw [Function.update_self]
      apply (h.soFar hr other).append
      intro before entry after heq
      obtain ⟨rfl, rfl⟩ : before = [] ∧ entry = _ := by
        cases before with
        | nil => exact ⟨rfl, (List.cons.inj heq).1.symm⟩
        | cons first before => simp at heq
      rw [h.emitted hr other]
      simp
    · rw [Function.update_of_ne ho]
      exact h.soFar hr other
  · exact h.told
  · exact h.counted

/-- A request that is no longer served lets its reports pass. -/
theorem Ledger.pass {rest : List Delivery} (h : Ledger w) (phase : Phase)
    (hq : w.inFlight rank = δ :: rest) (hphase : phase ≠ .running) :
    Ledger { w with inFlight := Function.update w.inFlight rank rest, phase := phase } := by
  constructor
  · exact fun hr => absurd hr hphase
  · intro other ε hε
    dsimp only at hε
    by_cases ho : other = rank
    · subst ho
      rw [Function.update_self] at hε
      exact h.own other ε (hq ▸ List.mem_cons_of_mem _ hε)
    · rw [Function.update_of_ne ho] at hε
      exact h.own other ε hε
  · exact fun hr => absurd hr hphase
  · exact h.told
  · exact h.counted

/-- A report applied has its chunks counted. -/
theorem Ledger.apply {rest : List Delivery} {request : RequestData} {queue : List PartitionName}
    (h : Ledger w) (hrun : w.phase = .running) (hq : w.inFlight rank = δ :: rest) :
    Ledger { w with
      request := request
      donePartitionForwards := queue
      inFlight := Function.update w.inFlight rank rest
      heard := w.heard ++ [δ] } := by
  have hsender : δ.sender = rank := h.own rank δ (hq ▸ List.mem_cons_self)
  have hemitted : ∀ other, w.emitted other = countedChunks (w.heard ++ [δ]) other ++
      (Function.update w.inFlight rank rest other).flatMap (·.body.outputSignalNames) ++
        w.pending other := by
    intro other
    rw [h.emitted hrun other, countedChunks_append]
    by_cases ho : other = rank
    · subst ho
      simp [hq, hsender]
    · have hne : δ.sender ≠ other := fun heq => ho (heq.symm.trans hsender)
      simp [Function.update_of_ne ho, hne]
  constructor
  · exact fun _ => hemitted
  · intro other ε hε
    dsimp only at hε
    by_cases ho : other = rank
    · subst ho
      rw [Function.update_self] at hε
      exact h.own other ε (hq ▸ List.mem_cons_of_mem _ hε)
    · rw [Function.update_of_ne ho] at hε
      exact h.own other ε hε
  · intro _ other before ε after heq
    dsimp only at heq
    dsimp only
    rw [countedChunks_append]
    by_cases ho : other = rank
    · subst ho
      rw [Function.update_self] at heq
      have hold := h.soFar hrun other (δ :: before) ε after (by rw [hq, heq]; rfl)
      rw [if_pos hsender]
      simp only [List.cons_append, List.flatMap_cons, List.append_assoc] at hold ⊢
      exact hold
    · have hne : δ.sender ≠ other := fun heq => ho (heq.symm.trans hsender)
      rw [Function.update_of_ne ho] at heq
      rw [if_neg hne, List.append_nil]
      exact h.soFar hrun other before ε after heq
  · intro ε hε
    dsimp only at hε ⊢
    rcases List.mem_append.1 hε with hold | hnew
    · have hle := h.told ε hold
      rw [countedChunks_append, List.length_append]
      omega
    · obtain rfl := List.mem_singleton.1 hnew
      have hle := h.soFar hrun rank [] ε rest hq
      rw [countedChunks_append, if_pos rfl, hsender]
      simpa using hle
  · intro other
    dsimp only
    rw [hemitted other, List.append_assoc]
    exact List.prefix_append _ _

/-- Taking a rank's oldest report keeps the ledger. -/
theorem Ledger.hear (h : Ledger w) : Ledger (w.hear cfg rank) := by
  rw [World.hear]
  split
  next => exact h
  next δ rest hq =>
    rw [World.take]
    dsimp only
    split
    next hrun =>
      split
      next => exact h.pass .failed hq (by simp)
      next => exact h.apply hrun hq
    next hnot => exact h.pass w.phase hq fun hr => hnot hr

/-- The reports and chunks of every rank are where they were. -/
structure SameReports (w w' : World) : Prop where
  /-- The same reports were applied. -/
  heard : w'.heard = w.heard
  /-- The same are on their way. -/
  inFlight : w'.inFlight = w.inFlight
  /-- The same chunks wait. -/
  pending : w'.pending = w.pending
  /-- The same were put out. -/
  emitted : w'.emitted = w.emitted
  /-- A request that is served was served before. -/
  running : w'.phase = .running → w.phase = .running

/-- So does what reports nothing. -/
theorem Ledger.same {w' : World} (h : Ledger w) (hs : SameReports w w') : Ledger w' := by
  constructor
  · intro hr
    rw [hs.heard, hs.inFlight, hs.pending, hs.emitted]
    exact h.emitted (hs.running hr)
  · rw [hs.inFlight]
    exact h.own
  · intro hr
    rw [hs.heard, hs.inFlight]
    exact h.soFar (hs.running hr)
  · rw [hs.heard]
    exact h.told
  · rw [hs.heard, hs.emitted]
    exact h.counted

/-- Nothing done reports nothing. -/
theorem SameReports.refl (w : World) : SameReports w w := ⟨rfl, rfl, rfl, rfl, id⟩

/-- Nor do two steps that report nothing. -/
theorem SameReports.trans {u v : World} (h : SameReports u v) (h' : SameReports v w) :
    SameReports u w :=
  ⟨h'.heard.trans h.heard, h'.inFlight.trans h.inFlight, h'.pending.trans h.pending,
    h'.emitted.trans h.emitted, h.running ∘ h'.running⟩

/-- Starting the next pass reports nothing. -/
theorem next_same (w : World) : SameReports w (w.next cfg) := by
  rw [World.next]
  split
  next => exact .refl w
  next =>
    rw [World.advance]
    dsimp only
    split
    next hrun =>
      split
      next => exact ⟨rfl, rfl, rfl, rfl, fun hr => by cases hr⟩
      next => exact ⟨rfl, rfl, rfl, rfl, fun _ => hrun⟩
    next => exact ⟨rfl, rfl, rfl, rfl, id⟩

/-- Nor does starting several. -/
theorem iterate_next_same (n : ℕ) : SameReports w ((World.next cfg)^[n] w) := by
  induction n with
  | zero => exact .refl w
  | succ n ih =>
    rw [Function.iterate_succ_apply']
    exact ih.trans (next_same _)

/-- Nor does finishing. -/
theorem finish_same (w : World) : SameReports w w.finish := by
  rw [World.finish]
  split
  next hrun => exact ⟨rfl, rfl, rfl, rfl, fun _ => hrun⟩
  next => exact ⟨rfl, rfl, rfl, rfl, id⟩

/-- Starting a pass keeps the invariant. -/
theorem Inv.next (h : Inv cfg w) : Inv cfg (w.next cfg) := by
  rw [World.next]
  split
  next => exact h
  next name rest hq => exact h.advance hq

/-- So does starting all that are due. -/
theorem Inv.drain (h : Inv cfg w) : Inv cfg (w.drain cfg) := by
  have hiter : ∀ n, Inv cfg ((World.next cfg)^[n] w) := by
    intro n
    induction n with
    | zero => exact h
    | succ n ih =>
      rw [Function.iterate_succ_apply']
      exact ih.next
  exact hiter _

/-- A turn's end declares the request complete only when it is. -/
theorem Inv.finish (h : Inv cfg w) : Inv cfg w.finish := by
  rw [World.finish]
  split
  next hrun =>
    cases hc : w.completed with
    | false =>
      exact {
        h with
        completed := fun _ hr => nomatch hr
        complete := fun hr => nomatch hr
        failed := fun hr => nomatch hr
        tallied := fun _ => h.tallied hrun
        queued := fun _ => h.queued hrun }
    | true =>
      exact {
        h with
        completed := fun _ hr => nomatch hr
        complete := fun _ => h.completed hrun hc
        failed := fun hr => nomatch hr
        tallied := fun hr => nomatch hr
        queued := fun hr => nomatch hr }
  next => exact { h with completed := fun _ hr => nomatch hr }

/-- What holds between two events. -/
structure Kept (cfg : Config) (w : World) : Prop where
  /-- The passes are counted as they should. -/
  inv : Inv cfg w
  /-- The chunks are where they should be. -/
  ledger : Ledger w

/-- The reports an event brings are in order and come in time. -/
theorem Kept.step (h : Kept cfg w) (event : Event) (hp : Hears (Proper cfg) w event)
    (ht : Hears Timely w event) : Kept cfg (w.step cfg event) := by
  cases event with
  | emit rank name => exact ⟨{ h.inv with }, h.ledger.emit name⟩
  | report rank pass body => exact ⟨{ h.inv with }, h.ledger.send pass body⟩
  | hear rank =>
    constructor
    · rw [World.step, World.hear]
      split
      next => exact h.inv
      next δ rest hq =>
        have hhead : δ ∈ (w.inFlight rank).head? := by rw [hq]; rfl
        have hinv : Inv cfg { w with inFlight := Function.update w.inFlight rank rest } :=
          { h.inv with }
        have hprop : w.phase = .running → Proper cfg
            { w with inFlight := Function.update w.inFlight rank rest } δ :=
          fun hr => { hp hr δ hhead with }
        exact hinv.take hprop fun hr => ht hr δ hhead
    · exact h.ledger.hear
  | turn =>
    exact ⟨h.inv.drain.finish, h.ledger.same ((iterate_next_same _).trans (finish_same _))⟩

/-- A run with one more event. -/
theorem run_append (events : List Event) (event : Event) :
    World.run cfg (events ++ [event]) = (World.run cfg events).step cfg event := by
  rw [World.run, World.run, List.foldl_append]
  rfl

/-- What held of every report holds of the last. -/
theorem HearsIn.last {P : World → Delivery → Prop} {events : List Event} {event : Event}
    (h : HearsIn cfg P (events ++ [event])) :
    HearsIn cfg P events ∧ Hears P (World.run cfg events) event :=
  ⟨Always.of_append h, h events event [] rfl⟩

/-- In a proper and timely run the ledger is kept. -/
theorem kept (events : List Event) (hp : HearsIn cfg (Proper cfg) events)
    (ht : HearsIn cfg Timely events) : Kept cfg (World.run cfg events) := by
  induction events using List.reverseRecOn with
  | nil => exact ⟨Inv.start, Ledger.start⟩
  | append_singleton events event ih =>
    rw [run_append]
    exact (ih hp.last.1 ht.last.1).step event hp.last.2 ht.last.2

/-- Every worker graph has ranks, each once. -/
def Deployed (cfg : Config) : Prop :=
  ∀ wg, ∀ workers ∈ cfg.workerGraphToWorkers.lookup wg, workers ≠ [] ∧ workers.Nodup

/-- A partition advances once per pass, and the request ends after the last
pass of every partition. -/
structure PassesCounted (cfg : Config) (w : World) : Prop where
  /-- Every partition was advanced once from each of its passes, in order. -/
  once : ∀ name, passesOf w.advances name =
    List.range' 1 (w.request.partitionStates name).fwdPassNumber
  /-- Every rank had reported the pass by then. -/
  whole : ∀ a ∈ w.advances,
    AllReported cfg (w.heard.take a.heardBefore) a.partition a.pass a.walk
  /-- The count of a running partition is that of the reports of its pass. -/
  own : w.phase = .running → ∀ name ∈ cfg.partitionNames,
    (w.request.partitionStates name).isDone = false →
      ∀ wg, (w.request.partitionStates name).wgRankCompletions wg = w.heard.countP
        (·.counts name ((w.request.partitionStates name).fwdPassNumber + 1) wg)
  /-- A partition all of whose ranks have reported waits for this turn's end. -/
  prompt : w.phase = .running → ∀ name ∈ cfg.partitionNames,
    (w.request.partitionStates name).isDone = false →
      (∃ δ ∈ w.heard, δ.isOf name ((w.request.partitionStates name).fwdPassNumber + 1)) →
        AllReported cfg w.heard name ((w.request.partitionStates name).fwdPassNumber + 1)
          (w.request.partitionStates name).graphWalk → name ∈ w.donePartitionForwards
  /-- A complete request has ended every partition that took part, after all
  ranks had reported its last pass. -/
  complete : w.phase = .complete → ∀ name ∈ cfg.partitionNames,
    (w.request.partitionStates name).isDone = true ∧
      ((cfg.initial name).requestDone = true ∨ ∃ a ∈ w.advances, a.partition = name ∧
        a.pass = (w.request.partitionStates name).fwdPassNumber ∧
          AllReported cfg w.heard name a.pass a.walk)
  /-- Only a model that raises fails the request. -/
  failed : w.phase = .failed → ∃ n, cfg.forward n = none
  /-- The chunks of all reports applied are counted. -/
  chunks : ∀ n, w.request.outputChunkCounts n =
    (w.heard.flatMap (·.body.outputSignalNames)).count n
  /-- They are what their rank put out first, -/
  counted : ∀ rank, countedChunks w.heard rank <+: w.emitted rank
  /-- at least until it sent the last of them. -/
  told : ∀ δ ∈ w.heard, δ.soFar ≤ (countedChunks w.heard δ.sender).length

/-- A partition all of whose ranks have reported is in the queue. -/
theorem Inv.prompt (h : Inv cfg w) (hd : Deployed cfg) (hrun : w.phase = .running)
    {name : PartitionName} (hname : name ∈ cfg.partitionNames)
    (hnot : (w.request.partitionStates name).isDone = false)
    (hsome : ∃ δ ∈ w.heard,
      δ.isOf name ((w.request.partitionStates name).fwdPassNumber + 1))
    (hall : AllReported cfg w.heard name
      ((w.request.partitionStates name).fwdPassNumber + 1)
      (w.request.partitionStates name).graphWalk) : name ∈ w.donePartitionForwards := by
  have htally := h.tallied hrun name hname hnot
  apply (h.queued hrun name hname hnot).iff.2
  constructor
  · intro wg hwg
    rw [htally.waits] at hwg
    have hkey : wg ∈ cfg.workerGraphToWorkers := by
      rw [Config.workerGraphsOf, List.mem_toFinset, List.mem_filter] at hwg
      exact hwg.1
    obtain ⟨workers, hw⟩ := Option.isSome_iff_exists.1 (AList.lookup_isSome.2 hkey)
    obtain ⟨hne, hnodup⟩ := hd wg workers hw
    exact htally.complete_of_reported hw hnodup hne (hall wg hwg workers hw)
  · exact hsome

/-- The last pass of an ended partition was reported by all its ranks. -/
theorem Inv.last (h : Inv cfg w) {name : PartitionName}
    (hd : (w.request.partitionStates name).isDone = true) :
    (cfg.initial name).requestDone = true ∨ ∃ a ∈ w.advances, a.partition = name ∧
      a.pass = (w.request.partitionStates name).fwdPassNumber ∧
        AllReported cfg w.heard name a.pass a.walk := by
  rcases h.ended name hd with hinitial | hpos
  · exact .inl hinitial
  · have hmem : (w.request.partitionStates name).fwdPassNumber ∈ passesOf w.advances name := by
      rw [h.once name, List.mem_range'_1]
      omega
    rw [passesOf, List.mem_map] at hmem
    obtain ⟨a, ha, hpass⟩ := hmem
    rw [List.mem_filter] at ha
    have hname : a.partition = name := of_decide_eq_true ha.2
    have hreported := (h.whole a ha.1).mono (List.take_subset _ _)
    exact .inr ⟨a, ha.1, hname, hpass, hname ▸ hreported⟩

/-- While every report comes in time, every partition advances once per pass
and the request ends after its last. -/
theorem passes_counted (events : List Event) (hd : Deployed cfg)
    (hp : HearsIn cfg (Proper cfg) events) (ht : HearsIn cfg Timely events) :
    PassesCounted cfg (World.run cfg events) := by
  have hkept := kept events hp ht
  exact {
    once := hkept.inv.once
    whole := hkept.inv.whole
    own := fun hr name hn hnd => (hkept.inv.tallied hr name hn hnd).tallied
    prompt := fun hr _ hn hnd => hkept.inv.prompt hd hr hn hnd
    complete := fun hc name hn =>
      have hall := allDone_iff.1 (hkept.inv.complete hc) name hn
      ⟨hall, hkept.inv.last hall⟩
    failed := hkept.inv.failed
    chunks := hkept.inv.chunks
    counted := hkept.ledger.counted
    told := hkept.ledger.told }

set_option synthInstance.maxSize 400 in
instance (w : World) (δ : Delivery) : Decidable (Proper cfg w δ) :=
  decidable_of_iff
    (δ.body.partitionName ∈ cfg.partitionNames ∧ δ.body.workerGraphIds ≠ [] ∧
      δ.body.workerGraphIds.Nodup ∧
      (∀ wg ∈ δ.body.workerGraphIds,
        ∃ workers ∈ cfg.workerGraphToWorkers.lookup wg, δ.sender ∈ workers) ∧
      (∀ wg ∈ δ.body.workerGraphIds, wg ∈ cfg.workerGraphsOf
        (followWalk cfg (w.request.partitionStates δ.body.partitionName) δ.body).graphWalk) ∧
      (∀ ε ∈ w.heard, ε.isOf δ.body.partitionName δ.pass →
        ε.body.graphWalk = δ.body.graphWalk) ∧
      ∀ ε ∈ w.heard, ε.sender = δ.sender → ε.body.partitionName = δ.body.partitionName →
        ε.pass < δ.pass ∨
          ε.pass = δ.pass ∧ ∀ wg ∈ ε.body.workerGraphIds, wg ∉ δ.body.workerGraphIds)
    ⟨fun ⟨h₁, h₂, h₃, h₄, h₅, h₆, h₇⟩ => ⟨h₁, h₂, h₃, h₄, h₅, h₆, h₇⟩,
      fun ⟨h₁, h₂, h₃, h₄, h₅, h₆, h₇⟩ => ⟨h₁, h₂, h₃, h₄, h₅, h₆, h₇⟩⟩

instance (w : World) (δ : Delivery) : Decidable (Timely w δ) :=
  inferInstanceAs (Decidable (_ → _))

instance {P : World → Delivery → Prop} [∀ w δ, Decidable (P w δ)] (w : World) :
    ∀ event : Event, Decidable (Hears P w event)
  | .emit _ _ | .report _ _ _ | .turn => .isTrue trivial
  | .hear rank => inferInstanceAs (Decidable (w.phase = .running → ∀ δ ∈ (w.inFlight rank).head?,
      P w δ))

/-- What every report that reaches the request from here on satisfies. -/
def HearsFrom (cfg : Config) (P : World → Delivery → Prop) (w : World) : List Event → Prop
  | [] => True
  | event :: events => Hears P w event ∧ HearsFrom cfg P (w.step cfg event) events

instance {P : World → Delivery → Prop} [∀ w δ, Decidable (P w δ)] :
    ∀ (w : World) (events : List Event), Decidable (HearsFrom cfg P w events)
  | _, [] => .isTrue trivial
  | w, event :: events =>
    have : Decidable (HearsFrom cfg P (w.step cfg event) events) :=
      instDecidableHearsFrom (w.step cfg event) events
    inferInstanceAs (Decidable (Hears P w event ∧ HearsFrom cfg P (w.step cfg event) events))

/-- Checking a run from its start checks it at every point. -/
theorem HearsFrom.hearsIn {P : World → Delivery → Prop} {events : List Event}
    (h : HearsFrom cfg P (World.start cfg) events) : HearsIn cfg P events := by
  have hgen : ∀ (events : List Event) (w : World), HearsFrom cfg P w events →
      Always (fun before event => Hears P (before.foldl (World.step cfg) w) event) events := by
    intro events
    induction events with
    | nil => exact fun _ _ => always_nil
    | cons first events ih =>
      intro w ⟨hfirst, hrest⟩ before event after heq
      cases before with
      | nil =>
        obtain ⟨rfl, -⟩ := List.cons.inj heq
        exact hfirst
      | cons own before =>
        obtain ⟨rfl, htail⟩ := List.cons.inj heq
        exact ih _ hrest before event after htail
  exact hgen events _ h

/-- A partition that feeds on a stream, with one worker graph on two ranks and
a model that ends it after two passes. -/
def twoRanks : Config :=
  ⟨[0], AList.singleton 0 [0, 1], fun _ => [0], [], [], [0], [], 100, fun _ => ⟨0, false, []⟩,
    fun calls => some ⟨0, decide (1 ≤ calls), []⟩⟩

/-- A report of the worker graph of `twoRanks`. -/
def twoRanksDone (partitionDone : Bool) : WorkerGraphsDone :=
  ⟨0, [0], true, [], [], partitionDone, none, [], []⟩

/-- Both ranks report both passes, the second pass after the first turn. -/
def inStep : List Event :=
  [.emit 0 5, .report 0 1 (twoRanksDone false), .hear 0, .emit 1 5,
    .report 1 1 (twoRanksDone false), .hear 1, .turn,
    .report 0 2 (twoRanksDone true), .report 1 2 (twoRanksDone true), .hear 1, .hear 0, .turn]

/-- The two ranks are deployed. -/
theorem twoRanks_deployed : Deployed twoRanks := by
  intro wg workers hw
  have hmem : (⟨wg, workers⟩ : Sigma fun _ => _) ∈ [⟨0, [0, 1]⟩] := AList.mem_lookup_iff.1 hw
  obtain ⟨rfl, rfl⟩ : wg = 0 ∧ workers = [0, 1] := by simpa using hmem
  decide

/-- In step, both chunks are counted and the request is complete after two
passes. -/
theorem passes_counted_inStep : PassesCounted twoRanks (World.run twoRanks inStep) ∧
    (World.run twoRanks inStep).phase = .complete ∧
      (World.run twoRanks inStep).request.outputChunkCounts 5 = 2 :=
  ⟨passes_counted inStep twoRanks_deployed (HearsFrom.hearsIn (by decide))
    (HearsFrom.hearsIn (by decide)), by decide, by decide⟩

/-- The first rank reports both passes before the second rank reports any. -/
def runAhead : List Event :=
  [.emit 1 5, .report 0 1 (twoRanksDone false), .report 0 2 (twoRanksDone true), .hear 0,
    .hear 0, .turn, .report 1 1 (twoRanksDone false)]

/-- The request is declared complete, and its passes are counted, before the
second rank has reported anything; the chunk it put out is lost. -/
theorem runAhead_miscounted : Deployed twoRanks ∧
    HearsIn twoRanks (Proper twoRanks) runAhead ∧
      (World.run twoRanks runAhead).phase = .complete ∧
        (World.run twoRanks runAhead).request.outputChunkCounts 5 = 0 ∧
          ¬ PassesCounted twoRanks (World.run twoRanks runAhead) := by
  constructor
  · exact twoRanks_deployed
  · constructor
    · exact HearsFrom.hearsIn (by decide)
    · constructor
      · decide
      · constructor
        · decide
        · intro h
          have ha : ⟨0, 1, 0, 2⟩ ∈ (World.run twoRanks runAhead).advances := by decide
          have hw := h.whole _ ha 0 (by decide) [0, 1] (by decide) 1 (by decide)
          revert hw
          decide

end Mstar.Passes
