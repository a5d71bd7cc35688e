import Mstar.PassSteps

/-!
# The count of the running pass

While reports only come for the pass that is counted, the counts are exactly
those of that pass, and a partition is queued once, when its last rank has
reported.
-/

namespace Mstar.Passes

/-- The reports that were applied are each in order. -/
structure InTurn (cfg : Config) (heard : List Delivery) : Prop where
  /-- Each names some worker graph. -/
  names : ∀ δ ∈ heard, δ.body.workerGraphIds ≠ []
  /-- Each names a worker graph once. -/
  nodup : ∀ δ ∈ heard, δ.body.workerGraphIds.Nodup
  /-- Each is sent by a rank of the worker graphs it names. -/
  placed : ∀ δ ∈ heard, ∀ wg ∈ δ.body.workerGraphIds,
    ∃ workers ∈ cfg.workerGraphToWorkers.lookup wg, δ.sender ∈ workers
  /-- No rank reports a worker graph twice in a pass. -/
  distinct : heard.Pairwise fun ε δ => ε.sender = δ.sender →
    ε.body.partitionName = δ.body.partitionName → ε.pass = δ.pass →
      List.Disjoint ε.body.workerGraphIds δ.body.workerGraphIds

/-- A partition's counts are those of the pass it runs. -/
structure Tallied (cfg : Config) (heard : List Delivery) (name : PartitionName)
    (ps : PartitionState) : Prop where
  /-- It waits for the worker graphs of its walk. -/
  waits : ps.currentWorkerGraphIds = cfg.workerGraphsOf ps.graphWalk
  /-- The complete ones are those with enough reports. -/
  full : Full cfg ps
  /-- The reports of this pass are counted, and no others. -/
  tallied : ∀ wg, ps.wgRankCompletions wg =
    heard.countP (·.counts name (ps.fwdPassNumber + 1) wg)
  /-- No later pass was reported. -/
  within : ∀ δ ∈ heard, δ.body.partitionName = name → δ.pass ≤ ps.fwdPassNumber + 1
  /-- The reports of this pass name what it waits for. -/
  ofWalk : ∀ δ ∈ heard, δ.isOf name (ps.fwdPassNumber + 1) →
    ∀ wg ∈ δ.body.workerGraphIds, wg ∈ ps.currentWorkerGraphIds
  /-- Where the stream moves the walk, it is the one the reports name. -/
  followed : name ∈ cfg.producerTriggeredPartitions → ∀ δ ∈ heard,
    δ.isOf name (ps.fwdPassNumber + 1) → ∀ walk ∈ δ.body.graphWalk, ps.graphWalk = walk

/-- The pass of a partition is complete: something was reported, and nothing is
left to wait for. -/
def Complete (heard : List Delivery) (name : PartitionName) (ps : PartitionState) : Prop :=
  ps.currentWorkerGraphIds ⊆ ps.completedWorkerGraphIds ∧
    ∃ δ ∈ heard, δ.isOf name (ps.fwdPassNumber + 1)

/-- A partition is in the queue when its pass is complete, and once. -/
structure Queued (heard : List Delivery) (queue : List PartitionName) (name : PartitionName)
    (ps : PartitionState) : Prop where
  /-- It is in the queue exactly if its pass is complete. -/
  iff : name ∈ queue ↔ Complete heard name ps
  /-- It is there once. -/
  once : queue.count name ≤ 1

variable {cfg : Config} {heard : List Delivery} {queue : List PartitionName}
  {name : PartitionName} {ps ps' : PartitionState} {pass : ℕ} {wg : WorkerGraphId}
  {workers : List Rank} {δ : Delivery}

/-- The ranks counted for a worker graph in a pass. -/
def countedRanks (heard : List Delivery) (name : PartitionName) (pass : ℕ)
    (wg : WorkerGraphId) : List Rank :=
  (heard.filter (·.counts name pass wg)).map (·.sender)

/-- A rank for each report that counts. -/
theorem length_countedRanks :
    (countedRanks heard name pass wg).length = heard.countP (·.counts name pass wg) := by
  rw [countedRanks, List.length_map, List.countP_eq_length_filter]

/-- It is counted when it reported. -/
theorem mem_countedRanks {rank : Rank} : rank ∈ countedRanks heard name pass wg ↔
    ∃ δ ∈ heard, δ.sender = rank ∧ δ.counts name pass wg := by
  simp only [countedRanks, List.mem_map, List.mem_filter, decide_eq_true_eq]
  constructor
  · rintro ⟨δ, ⟨hδ, hc⟩, hs⟩
    exact ⟨δ, hδ, hs, hc⟩
  · rintro ⟨δ, hδ, hs, hc⟩
    exact ⟨δ, ⟨hδ, hc⟩, hs⟩

/-- No rank is counted twice for a worker graph in a pass. -/
theorem InTurn.nodup_countedRanks (h : InTurn cfg heard) :
    (countedRanks heard name pass wg).Nodup := by
  rw [countedRanks, List.Nodup, List.pairwise_map]
  have hfilter := h.distinct.filter (·.counts name pass wg)
  apply hfilter.imp_of_mem
  intro ε δ hε hδ hdis hsame
  have hcε : ε.counts name pass wg := of_decide_eq_true (List.mem_filter.1 hε).2
  have hcδ : δ.counts name pass wg := of_decide_eq_true (List.mem_filter.1 hδ).2
  have hdisjoint := hdis hsame (hcε.1.1.trans hcδ.1.1.symm) (hcε.1.2.trans hcδ.1.2.symm)
  exact hdisjoint hcε.2 hcδ.2

/-- Only ranks of a worker graph are counted for it. -/
theorem InTurn.countedRanks_subset (h : InTurn cfg heard)
    (hw : cfg.workerGraphToWorkers.lookup wg = some workers) :
    countedRanks heard name pass wg ⊆ workers := by
  intro rank hrank
  obtain ⟨δ, hδ, rfl, hc⟩ := mem_countedRanks.1 hrank
  obtain ⟨own, hown, hmem⟩ := h.placed δ hδ wg hc.2
  obtain rfl : workers = own := by simpa [hw] using hown
  exact hmem

/-- As many reports as ranks are reports of all ranks. -/
theorem InTurn.all_counted (h : InTurn cfg heard)
    (hw : cfg.workerGraphToWorkers.lookup wg = some workers)
    (hl : workers.length ≤ heard.countP (·.counts name pass wg)) :
    workers ⊆ countedRanks heard name pass wg := by
  have hnodup : (countedRanks heard name pass wg).Nodup := h.nodup_countedRanks
  have hsub := hnodup.subperm (h.countedRanks_subset hw)
  exact (hsub.perm_of_length_le (length_countedRanks ▸ hl)).symm.subset

/-- The complete worker graphs are those all of whose ranks reported the pass. -/
theorem Tallied.reported (h : Tallied cfg heard name ps) (ht : InTurn cfg heard)
    (hc : ps.currentWorkerGraphIds ⊆ ps.completedWorkerGraphIds) :
    AllReported cfg heard name (ps.fwdPassNumber + 1) ps.graphWalk := by
  intro wg hwg workers hw rank hrank
  rw [← h.waits] at hwg
  obtain ⟨own, hown, -, hle⟩ := (h.full wg).1 (hc hwg)
  obtain rfl : workers = own := Option.some.inj ((Option.mem_def.1 hw).symm.trans hown)
  rw [h.tallied] at hle
  exact mem_countedRanks.1 (ht.all_counted hw hle hrank)

/-- Where all ranks have reported a worker graph, it is complete. -/
theorem Tallied.complete_of_reported (h : Tallied cfg heard name ps)
    (hw : cfg.workerGraphToWorkers.lookup wg = some workers) (hn : workers.Nodup)
    (hne : workers ≠ [])
    (hr : ∀ rank ∈ workers, ∃ δ ∈ heard, δ.sender = rank ∧
      δ.counts name (ps.fwdPassNumber + 1) wg) : wg ∈ ps.completedWorkerGraphIds := by
  have hsub : workers ⊆ countedRanks heard name (ps.fwdPassNumber + 1) wg :=
    fun rank hrank => mem_countedRanks.2 (hr rank hrank)
  have hle := (hn.subperm hsub).length_le
  rw [length_countedRanks, ← h.tallied] at hle
  have hpos := List.length_pos_of_ne_nil hne
  exact (h.full wg).2 ⟨workers, hw, by omega, hle⟩

/-- A report of the pass is new to some worker graph, so the pass was not
complete before it. -/
theorem Tallied.not_complete (h : Tallied cfg heard name ps) (ht : InTurn cfg heard)
    (hof : δ.isOf name (ps.fwdPassNumber + 1)) (hne : δ.body.workerGraphIds ≠ [])
    (hplaced : ∀ wg ∈ δ.body.workerGraphIds,
      ∃ workers ∈ cfg.workerGraphToWorkers.lookup wg, δ.sender ∈ workers)
    (hwalk : ∀ wg ∈ δ.body.workerGraphIds, wg ∈ cfg.workerGraphsOf ps.graphWalk)
    (horder : ∀ ε ∈ heard, ε.sender = δ.sender →
      ε.body.partitionName = δ.body.partitionName →
        ε.pass < δ.pass ∨
          ε.pass = δ.pass ∧ List.Disjoint ε.body.workerGraphIds δ.body.workerGraphIds) :
    ¬ ps.currentWorkerGraphIds ⊆ ps.completedWorkerGraphIds := by
  intro hc
  obtain ⟨wg, hwg⟩ := List.exists_mem_of_ne_nil _ hne
  obtain ⟨workers, hw, hsender⟩ := hplaced wg hwg
  obtain ⟨ε, hε, hs, hcounts⟩ := h.reported ht hc wg (hwalk wg hwg) workers hw _ hsender
  rcases horder ε hε hs (hcounts.1.1.trans hof.1.symm) with hlt | ⟨-, hdis⟩
  · have heq := hcounts.1.2
    rw [hof.2] at hlt
    omega
  · exact hdis hcounts.2 hwg

/-- Once a report of the pass was applied, a further one leaves the walk. -/
theorem Tallied.walk_kept (h : Tallied cfg heard δ.body.partitionName ps)
    (hsame : ∀ ε ∈ heard, ε.isOf δ.body.partitionName (ps.fwdPassNumber + 1) →
      ε.body.graphWalk = δ.body.graphWalk)
    (hex : ∃ ε ∈ heard, ε.isOf δ.body.partitionName (ps.fwdPassNumber + 1)) :
    followWalk cfg ps δ.body = ps := by
  obtain ⟨ε, hε, hof⟩ := hex
  cases hp : decide (δ.body.partitionName ∈ cfg.producerTriggeredPartitions) with
  | false => exact followWalk_of_not_mem (of_decide_eq_false hp)
  | true =>
    cases hw : δ.body.graphWalk with
    | none => exact followWalk_of_none hw
    | some walk =>
      have hεw : walk ∈ ε.body.graphWalk := by rw [hsame ε hε hof, hw]; rfl
      have hps := h.followed (of_decide_eq_true hp) ε hε hof walk hεw
      exact followWalk_of_eq (hps ▸ hw)

/-- A report of another partition leaves the count. -/
theorem Tallied.of_other (h : Tallied cfg heard name ps) (hδ : δ.body.partitionName ≠ name) :
    Tallied cfg (heard ++ [δ]) name ps := by
  have hnot : ∀ k, ¬ δ.isOf name k := fun k hk => hδ hk.1
  constructor
  · exact h.waits
  · exact h.full
  · intro wg
    have hzero : [δ].countP (·.counts name (ps.fwdPassNumber + 1) wg) = 0 := by
      simp [Delivery.counts, hnot]
    rw [List.countP_append, hzero, Nat.add_zero]
    exact h.tallied wg
  · intro ε hε hname
    rcases List.mem_append.1 hε with hold | hnew
    · exact h.within ε hold hname
    · obtain rfl := List.mem_singleton.1 hnew
      exact absurd hname hδ
  · intro ε hε hof
    rcases List.mem_append.1 hε with hold | hnew
    · exact h.ofWalk ε hold hof
    · obtain rfl := List.mem_singleton.1 hnew
      exact absurd hof (hnot _)
  · intro hp ε hε hof
    rcases List.mem_append.1 hε with hold | hnew
    · exact h.followed hp ε hold hof
    · obtain rfl := List.mem_singleton.1 hnew
      exact absurd hof (hnot _)

/-- A worker graph named once is counted once, and otherwise not at all. -/
theorem count_eq_countP {pass : ℕ} (hn : δ.body.workerGraphIds.Nodup)
    (hof : δ.isOf name pass) (wg : WorkerGraphId) :
    δ.body.workerGraphIds.count wg = [δ].countP (·.counts name pass wg) := by
  rw [List.Nodup.count hn]
  simp [Delivery.counts, hof, List.countP_cons]

/-- A report of the pass being counted is counted, and the count stays that of
the pass. -/
theorem Tallied.hear {req req' : RequestData} {done : List PartitionName}
    (h : Tallied cfg heard δ.body.partitionName (req.partitionStates δ.body.partitionName))
    (hh : Heard cfg req δ.body req' done) (hn : δ.body.workerGraphIds.Nodup)
    (hpass : δ.pass = (req.partitionStates δ.body.partitionName).fwdPassNumber + 1)
    (hwalk : ∀ wg ∈ δ.body.workerGraphIds, wg ∈ cfg.workerGraphsOf
      (followWalk cfg (req.partitionStates δ.body.partitionName) δ.body).graphWalk)
    (hsame : ∀ ε ∈ heard, ε.isOf δ.body.partitionName δ.pass →
      ε.body.graphWalk = δ.body.graphWalk) :
    Tallied cfg (heard ++ [δ]) δ.body.partitionName
      (req'.partitionStates δ.body.partitionName) := by
  have hof : δ.isOf δ.body.partitionName
      ((req.partitionStates δ.body.partitionName).fwdPassNumber + 1) := ⟨rfl, hpass⟩
  rw [hpass] at hsame
  have hwaits := hh.waits h.waits
  constructor
  · exact hwaits
  · exact hh.full h.full
  · intro wg
    rw [hh.completions, hh.pass, List.countP_append, h.tallied wg, count_eq_countP hn hof]
  · intro ε hε hname
    rw [hh.pass]
    rcases List.mem_append.1 hε with hold | hnew
    · exact h.within ε hold hname
    · obtain rfl := List.mem_singleton.1 hnew
      exact hpass.le
  · intro ε hε hofε wg hwg
    rw [hh.pass] at hofε
    rw [hwaits, hh.walk]
    rcases List.mem_append.1 hε with hold | hnew
    · rw [h.walk_kept hsame ⟨ε, hold, hofε⟩, ← h.waits]
      exact h.ofWalk ε hold hofε wg hwg
    · obtain rfl := List.mem_singleton.1 hnew
      exact hwalk wg hwg
  · intro hp ε hε hofε walk hw
    rw [hh.pass] at hofε
    rw [hh.walk]
    have hδw : δ.body.graphWalk = some walk := by
      rcases List.mem_append.1 hε with hold | hnew
      · rw [← hsame ε hold hofε]
        exact hw
      · obtain rfl := List.mem_singleton.1 hnew
        exact hw
    exact followWalk_graphWalk hp hδw

/-- A pass that is reported now was not complete before. -/
theorem Tallied.incomplete {w : World}
    (h : Tallied cfg w.heard δ.body.partitionName
      (w.request.partitionStates δ.body.partitionName)) (ht : InTurn cfg w.heard)
    (hp : Proper cfg w δ)
    (hpass : δ.pass = (w.request.partitionStates δ.body.partitionName).fwdPassNumber + 1) :
    ¬ Complete w.heard δ.body.partitionName
      (w.request.partitionStates δ.body.partitionName) := by
  intro ⟨hc, hex⟩
  have hkept := h.walk_kept (hpass ▸ hp.sameWalk) hex
  have hwalk := hp.ofWalk
  rw [hkept] at hwalk
  exact h.not_complete ht ⟨rfl, hpass⟩ hp.names hp.placed hwalk hp.inOrder hc

/-- The report that completes a pass queues the partition, and no other does. -/
theorem Queued.hear {req req' : RequestData} {done : List PartitionName}
    (h : Queued heard queue δ.body.partitionName (req.partitionStates δ.body.partitionName))
    (hh : Heard cfg req δ.body req' done)
    (hpass : δ.pass = (req.partitionStates δ.body.partitionName).fwdPassNumber + 1)
    (hnot : ¬ Complete heard δ.body.partitionName
      (req.partitionStates δ.body.partitionName)) :
    Queued (heard ++ [δ]) (queue ++ done) δ.body.partitionName
      (req'.partitionStates δ.body.partitionName) := by
  have hnotin : δ.body.partitionName ∉ queue := h.iff.not.2 hnot
  have hcount := List.count_eq_zero.2 hnotin
  have hof : ∃ ε ∈ heard ++ [δ], ε.isOf δ.body.partitionName
      ((req'.partitionStates δ.body.partitionName).fwdPassNumber + 1) :=
    ⟨δ, by simp, rfl, by rw [hh.pass]; exact hpass⟩
  rw [hh.queued]
  split
  next hc =>
    constructor
    · simp only [List.mem_append, List.mem_singleton, or_true, true_iff]
      exact ⟨hc, hof⟩
    · simp [hcount]
  next hc =>
    constructor
    · rw [List.append_nil]
      exact iff_of_false hnotin fun hcomplete => hc hcomplete.1
    · simp [hcount]

/-- A report of another partition neither completes a pass nor undoes it. -/
theorem complete_append_other (hδ : δ.body.partitionName ≠ name) :
    Complete (heard ++ [δ]) name ps ↔ Complete heard name ps := by
  have hnot : ¬ δ.isOf name (ps.fwdPassNumber + 1) := fun hof => hδ hof.1
  simp [Complete, or_and_right, exists_or, hnot]

/-- Queueing other partitions leaves the partition where it is. -/
theorem Queued.of_other {done : List PartitionName} (h : Queued heard queue name ps)
    (hδ : δ.body.partitionName ≠ name) (hdone : name ∉ done) :
    Queued (heard ++ [δ]) (queue ++ done) name ps := by
  constructor
  · rw [List.mem_append, or_iff_left hdone, complete_append_other hδ]
    exact h.iff
  · rw [List.count_append, List.count_eq_zero.2 hdone]
    exact h.once

/-- Working off another entry leaves the partition where it is. -/
theorem Queued.tail {other : PartitionName} (h : Queued heard (other :: queue) name ps)
    (hne : name ≠ other) : Queued heard queue name ps := by
  constructor
  · rw [← h.iff, List.mem_cons, or_iff_right hne]
  · have honce := h.once
    rwa [List.count_cons_of_ne (Ne.symm hne)] at honce

/-- A partition that starts its next pass is out of the queue. -/
theorem Queued.fresh (hwithin : ∀ δ ∈ heard, δ.body.partitionName = name →
    δ.pass ≤ ps.fwdPassNumber) (hq : name ∉ queue) : Queued heard queue name ps := by
  constructor
  · apply iff_of_false hq
    intro ⟨_, δ, hδ, hof⟩
    have hle := hwithin δ hδ hof.1
    rw [hof.2] at hle
    omega
  · rw [List.count_eq_zero.2 hq]
    omega

/-- A partition's first pass starts with nothing counted, as every later one
does. -/
theorem Tallied.fresh {walk : WalkName} {number tokens : ℕ} {isDone reported : Bool}
    (hwithin : ∀ δ ∈ heard, δ.body.partitionName = name → δ.pass ≤ number) :
    Tallied cfg heard name ⟨walk, number, isDone, ∅, cfg.workerGraphsOf walk, fun _ => 0,
      reported, tokens⟩ := by
  have hnone : ∀ δ ∈ heard, ¬ δ.isOf name (number + 1) := by
    intro δ hδ hof
    have hle := hwithin δ hδ hof.1
    rw [hof.2] at hle
    omega
  constructor
  · rfl
  · intro wg
    simp
  · intro wg
    rw [eq_comm, List.countP_eq_zero]
    intro δ hδ
    simp [Delivery.counts, hnone δ hδ]
  · intro δ hδ hname
    exact (hwithin δ hδ hname).trans (Nat.le_succ _)
  · exact fun δ hδ hof => absurd hof (hnone δ hδ)
  · exact fun _ δ hδ hof => absurd hof (hnone δ hδ)

/-- Reports stay in order when one more is. -/
theorem InTurn.hear {w : World} (h : InTurn cfg w.heard) (hp : Proper cfg w δ) :
    InTurn cfg (w.heard ++ [δ]) := by
  constructor
  · simpa [or_imp, forall_and] using ⟨h.names, hp.names⟩
  · simpa [or_imp, forall_and] using ⟨h.nodup, hp.nodup⟩
  · intro ε hε
    rcases List.mem_append.1 hε with hold | hnew
    · exact h.placed ε hold
    · obtain rfl := List.mem_singleton.1 hnew
      exact hp.placed
  · rw [List.pairwise_append]
    constructor
    · exact h.distinct
    · constructor
      · exact List.pairwise_singleton _ _
      · intro ε hε δ' hδ' hs hn hpass
        obtain rfl := List.mem_singleton.1 hδ'
        rcases hp.inOrder ε hε hs hn with hlt | ⟨-, hdis⟩
        · omega
        · exact hdis

end Mstar.Passes
