import Mstar.PassReports

/-!
# What one report and one advance change

A report touches the count of its own partition and the tallies of the whole
request; an advance puts its own partition at the start of the next pass.
-/

namespace Mstar.Passes

variable {cfg : Config} {ps ps' : PartitionState} {req req' : RequestData}
  {body : WorkerGraphsDone} {name : PartitionName}

/-- The complete worker graphs are those that had as many reports as ranks. -/
def Full (cfg : Config) (ps : PartitionState) : Prop :=
  ∀ wg, wg ∈ ps.completedWorkerGraphIds ↔ ∃ workers ∈ cfg.workerGraphToWorkers.lookup wg,
    0 < ps.wgRankCompletions wg ∧ workers.length ≤ ps.wgRankCompletions wg

/-- Chunks are counted by name. -/
theorem countChunks_apply (counts : SignalName → ℕ) (names : List SignalName) (n : SignalName) :
    countChunks counts names n = counts n + names.count n := by
  induction names generalizing counts with
  | nil => simp [countChunks]
  | cons name names ih =>
    have hrest := ih (Function.update counts name (counts name + 1))
    rw [countChunks] at hrest
    rw [countChunks, List.foldl_cons, hrest, List.count_cons]
    by_cases h : n = name
    · subst h
      simp
      omega
    · simp [Function.update_of_ne h, Ne.symm h]

/-- What counting a report leaves of a partition. -/
structure Counted (cfg : Config) (ps : PartitionState) (wgs : List WorkerGraphId)
    (ps' : PartitionState) : Prop where
  /-- Only the counts change. -/
  same : ps' = { ps with
    completedWorkerGraphIds := ps'.completedWorkerGraphIds
    wgRankCompletions := ps'.wgRankCompletions }
  /-- Every worker graph named is counted as often as it is named. -/
  completions : ∀ wg, ps'.wgRankCompletions wg = ps.wgRankCompletions wg + wgs.count wg
  /-- The complete ones stay those with enough reports. -/
  full : Full cfg ps → Full cfg ps'

/-- One worker graph's completion is counted. -/
theorem countCompletion_counted {wg : WorkerGraphId}
    (h : countCompletion cfg ps wg = some ps') : Counted cfg ps [wg] ps' := by
  rw [countCompletion, Option.map_eq_some_iff] at h
  obtain ⟨workers, hw, rfl⟩ := h
  constructor
  · rfl
  · intro g
    by_cases hg : g = wg
    · subst hg
      simp
    · simp [Function.update_of_ne hg, Ne.symm hg]
  · intro hfull g
    by_cases hg : g = wg
    · subst hg
      have hold := hfull g
      simp only [Option.mem_def, hw, Option.some.injEq, exists_eq_left'] at hold
      simp only [Option.mem_def, hw, Option.some.injEq, exists_eq_left', Function.update_self]
      split
      next hle => simp [hle]
      next hlt =>
        rw [hold]
        omega
    · have hins : (g ∈ if workers.length ≤ ps.wgRankCompletions wg + 1 then
          insert wg ps.completedWorkerGraphIds else ps.completedWorkerGraphIds) ↔
          g ∈ ps.completedWorkerGraphIds := by
        split
        · simp [hg]
        · exact Iff.rfl
      dsimp only
      rw [hins, Function.update_of_ne hg]
      exact hfull g

/-- So are several. -/
theorem countCompletions_counted {wgs : List WorkerGraphId}
    (h : countCompletions cfg ps wgs = some ps') : Counted cfg ps wgs ps' := by
  induction wgs generalizing ps with
  | nil =>
    obtain rfl : ps = ps' := by simpa [countCompletions] using h
    exact ⟨rfl, by simp, id⟩
  | cons wg wgs ih =>
    rw [countCompletions, List.foldlM_cons] at h
    obtain ⟨mid, hmid, hrest⟩ := Option.bind_eq_some_iff.1 h
    have hfirst := countCompletion_counted hmid
    have hlast := ih hrest
    constructor
    · rw [hlast.same, hfirst.same]
    · intro g
      have h₁ := hlast.completions g
      have h₂ := hfirst.completions g
      rw [List.count_cons, List.count_nil] at h₂
      rw [List.count_cons]
      omega
    · exact hlast.full ∘ hfirst.full

/-- Following a walk changes the walk and what to wait for. -/
theorem followWalk_same (cfg : Config) (ps : PartitionState) (body : WorkerGraphsDone) :
    followWalk cfg ps body = { ps with
      graphWalk := (followWalk cfg ps body).graphWalk
      currentWorkerGraphIds := (followWalk cfg ps body).currentWorkerGraphIds } := by
  rw [followWalk]
  split
  · split
    · rfl
    · split
      · rfl
      · rfl
  · rfl

/-- What to wait for stays that of the walk. -/
theorem followWalk_waits (h : ps.currentWorkerGraphIds = cfg.workerGraphsOf ps.graphWalk) :
    (followWalk cfg ps body).currentWorkerGraphIds =
      cfg.workerGraphsOf (followWalk cfg ps body).graphWalk := by
  rw [followWalk]
  split
  · split
    · exact h
    · split
      · rfl
      · exact h
  · exact h

/-- A partition whose walk the stream does not drive keeps it. -/
theorem followWalk_of_not_mem (h : body.partitionName ∉ cfg.producerTriggeredPartitions) :
    followWalk cfg ps body = ps := by
  rw [followWalk, if_neg h]

/-- A report without a walk leaves the walk. -/
theorem followWalk_of_none (h : body.graphWalk = none) : followWalk cfg ps body = ps := by
  rw [followWalk, h]
  simp

/-- A report with the partition's own walk leaves it. -/
theorem followWalk_of_eq (h : body.graphWalk = some ps.graphWalk) :
    followWalk cfg ps body = ps := by
  rw [followWalk, h]
  simp

/-- The partition follows to the walk the report names. -/
theorem followWalk_graphWalk {walk : WalkName}
    (hp : body.partitionName ∈ cfg.producerTriggeredPartitions)
    (h : body.graphWalk = some walk) : (followWalk cfg ps body).graphWalk = walk := by
  rw [followWalk, if_pos hp, h]
  dsimp only
  split
  next => rfl
  next heq => exact (not_not.1 heq).symm

/-- The walk a report leads to depends on the partition's walk alone. -/
theorem followWalk_congr (h : ps.graphWalk = ps'.graphWalk) :
    (followWalk cfg ps body).graphWalk = (followWalk cfg ps' body).graphWalk := by
  cases hp : decide (body.partitionName ∈ cfg.producerTriggeredPartitions) with
  | false =>
    have hn := of_decide_eq_false hp
    rw [followWalk_of_not_mem hn, followWalk_of_not_mem hn, h]
  | true =>
    cases hw : body.graphWalk with
    | none => rw [followWalk_of_none hw, followWalk_of_none hw, h]
    | some walk =>
      rw [followWalk_graphWalk (of_decide_eq_true hp) hw,
        followWalk_graphWalk (of_decide_eq_true hp) hw]

/-- What applying a report of a known partition leaves. -/
structure Heard (cfg : Config) (req : RequestData) (body : WorkerGraphsDone)
    (req' : RequestData) (done : List PartitionName) : Prop where
  /-- The other partitions are left alone. -/
  others : ∀ other, other ≠ body.partitionName →
    req'.partitionStates other = req.partitionStates other
  /-- The pass stays. -/
  pass : (req'.partitionStates body.partitionName).fwdPassNumber =
    (req.partitionStates body.partitionName).fwdPassNumber
  /-- The partition does not end by it. -/
  isDone : (req'.partitionStates body.partitionName).isDone =
    (req.partitionStates body.partitionName).isDone
  /-- It is in the walk the report leads to. -/
  walk : (req'.partitionStates body.partitionName).graphWalk =
    (followWalk cfg (req.partitionStates body.partitionName) body).graphWalk
  /-- It waits for that walk's worker graphs. -/
  waits : (req.partitionStates body.partitionName).currentWorkerGraphIds =
      cfg.workerGraphsOf (req.partitionStates body.partitionName).graphWalk →
    (req'.partitionStates body.partitionName).currentWorkerGraphIds =
      cfg.workerGraphsOf (req'.partitionStates body.partitionName).graphWalk
  /-- The report is counted for the worker graphs it names. -/
  completions : ∀ wg, (req'.partitionStates body.partitionName).wgRankCompletions wg =
    (req.partitionStates body.partitionName).wgRankCompletions wg + body.workerGraphIds.count wg
  /-- The complete ones stay those with enough reports. -/
  full : Full cfg (req.partitionStates body.partitionName) →
    Full cfg (req'.partitionStates body.partitionName)
  /-- The partition is queued if nothing is left to wait for. -/
  queued : done = if (req'.partitionStates body.partitionName).currentWorkerGraphIds ⊆
      (req'.partitionStates body.partitionName).completedWorkerGraphIds
    then [body.partitionName] else []
  /-- Its chunks are counted. -/
  chunks : req'.outputChunkCounts = countChunks req.outputChunkCounts body.outputSignalNames

/-- No partition ends by a report. -/
theorem Heard.isDone_eq {done : List PartitionName} (h : Heard cfg req body req' done)
    (other : PartitionName) :
    (req'.partitionStates other).isDone = (req.partitionStates other).isDone := by
  by_cases ho : other = body.partitionName
  · rw [ho, h.isDone]
  · rw [h.others other ho]

/-- No partition is advanced by a report. -/
theorem Heard.pass_eq {done : List PartitionName} (h : Heard cfg req body req' done)
    (other : PartitionName) :
    (req'.partitionStates other).fwdPassNumber = (req.partitionStates other).fwdPassNumber := by
  by_cases ho : other = body.partitionName
  · rw [ho, h.pass]
  · rw [h.others other ho]

/-- Only the partition of the report is queued. -/
theorem Heard.eq_of_queued {done : List PartitionName} (h : Heard cfg req body req' done)
    {other : PartitionName} (ho : other ∈ done) : other = body.partitionName := by
  rw [h.queued] at ho
  split at ho
  · exact List.mem_singleton.1 ho
  · simp at ho

/-- The partition's state as a report finds it, its tallies apart. -/
theorem latched_state (req : RequestData) (body : WorkerGraphsDone) :
    ∃ reported tokens,
      (((req.countSent body).latchDone body).countReplicated body).partitionStates =
        Function.update req.partitionStates body.partitionName
          { req.partitionStates body.partitionName with
            workerReportedDone := reported, numOutputTokens := tokens } := by
  rw [RequestData.countReplicated]
  split
  · exact ⟨_, _, by
      simp [RequestData.latchDone, RequestData.countSent, RequestData.setState]; rfl⟩
  · exact ⟨_, _, rfl⟩

/-- What is replicated counts no chunk twice. -/
theorem countReplicated_chunks (req : RequestData) (body : WorkerGraphsDone) :
    (req.countReplicated body).outputChunkCounts = req.outputChunkCounts := by
  rw [RequestData.countReplicated]
  split
  · rfl
  · rfl

/-- A processed report is heard. -/
theorem processWorkerGraphsDone_heard {done : List PartitionName}
    (hknown : body.partitionName ∈ cfg.partitionNames)
    (h : req.processWorkerGraphsDone cfg body = some (req', done)) :
    Heard cfg req body req' done := by
  rw [RequestData.processWorkerGraphsDone] at h
  dsimp only at h
  rw [if_neg (not_not.2 hknown), Option.map_eq_some_iff] at h
  obtain ⟨ps, hps, heq⟩ := h
  obtain ⟨rfl, rfl⟩ := Prod.mk.inj heq
  obtain ⟨reported, tokens, hstate⟩ := latched_state req body
  rw [hstate, Function.update_self] at hps
  have hcount := countCompletions_counted hps
  have hfollow := followWalk_same cfg { req.partitionStates body.partitionName with
    workerReportedDone := reported, numOutputTokens := tokens } body
  have hsame := hcount.same
  rw [hfollow] at hsame
  have hself : ∀ r : RequestData, (r.setState body.partitionName ps).partitionStates
      body.partitionName = ps := fun r => Function.update_self _ _ _
  constructor
  · intro other hother
    rw [RequestData.setState, hstate]
    simp [Function.update_of_ne hother]
  · rw [hself, hsame]
  · rw [hself, hsame]
  · rw [hself, hsame]
    exact followWalk_congr rfl
  · intro hwaits
    rw [hself, hsame]
    exact followWalk_waits hwaits
  · intro wg
    rw [hself, hcount.completions wg, hfollow]
  · intro hfull
    rw [hself]
    apply hcount.full
    rw [hfollow]
    exact hfull
  · rw [hself]
  · change (((req.countSent body).latchDone body).countReplicated body).outputChunkCounts = _
    rw [countReplicated_chunks]
    rfl

/-- A report whose worker graphs all have ranks raises nothing. -/
theorem processWorkerGraphsDone_isSome
    (h : ∀ wg ∈ body.workerGraphIds, (cfg.workerGraphToWorkers.lookup wg).isSome) :
    (req.processWorkerGraphsDone cfg body).isSome := by
  have hcounts : ∀ (wgs : List WorkerGraphId) (ps : PartitionState),
      (∀ wg ∈ wgs, (cfg.workerGraphToWorkers.lookup wg).isSome) →
        (countCompletions cfg ps wgs).isSome := by
    intro wgs
    induction wgs with
    | nil => simp [countCompletions]
    | cons wg wgs ih =>
      intro ps hall
      obtain ⟨workers, hworkers⟩ := Option.isSome_iff_exists.1 (hall wg (by simp))
      rw [countCompletions, List.foldlM_cons, countCompletion, hworkers]
      exact ih _ fun g hg => hall g (by simp [hg])
  rw [RequestData.processWorkerGraphsDone]
  dsimp only
  split
  · rfl
  · rw [Option.isSome_map]
    exact hcounts _ _ h

/-- What advancing a partition that has not ended leaves. -/
structure Advanced (cfg : Config) (req : RequestData) (name : PartitionName)
    (req' : RequestData) : Prop where
  /-- The partition starts over in its next pass. -/
  state : ∃ walk isDone tokens, req'.partitionStates = Function.update req.partitionStates name
    ⟨walk, (req.partitionStates name).fwdPassNumber + 1, isDone, ∅, cfg.workerGraphsOf walk,
      fun _ => 0, false, tokens⟩
  /-- Nothing else is counted. -/
  chunks : req'.outputChunkCounts = req.outputChunkCounts

/-- A pass done advances its partition. -/
theorem processDoneForward_advanced {allDone : Bool}
    (hdone : (req.partitionStates name).isDone = false)
    (h : req.processDoneForward cfg name = some (req', allDone)) :
    Advanced cfg req name req' ∧ allDone = req'.allDone cfg := by
  rw [RequestData.processDoneForward] at h
  dsimp only at h
  rw [hdone, if_neg (by simp), Option.map_eq_some_iff] at h
  obtain ⟨fwd, -, heq⟩ := h
  obtain ⟨rfl, rfl⟩ := Prod.mk.inj heq
  refine ⟨?_, rfl⟩
  split
  · constructor
    · exact ⟨_, _, _, by
        simp [RequestData.resetPass, RequestData.endPartition, RequestData.setState]; rfl⟩
    · rfl
  · rw [RequestData.sendPartitionInputs]
    split
    · constructor
      · exact ⟨_, _, _, by simp [RequestData.resetPass, RequestData.setState]; rfl⟩
      · rfl
    · constructor
      · exact ⟨_, _, _, by simp [RequestData.resetPass, RequestData.setState]; rfl⟩
      · rfl

/-- A partition that has ended is left alone. -/
theorem processDoneForward_done (hdone : (req.partitionStates name).isDone = true) :
    req.processDoneForward cfg name = some (req, req.allDone cfg) := by
  rw [RequestData.processDoneForward]
  dsimp only
  rw [if_pos hdone]

/-- Only the model raises. -/
theorem processDoneForward_none (h : req.processDoneForward cfg name = none) :
    ∃ n, cfg.forward n = none := by
  rw [RequestData.processDoneForward] at h
  dsimp only at h
  split at h
  · simp at h
  · exact ⟨_, Option.map_eq_none_iff.1 h⟩

end Mstar.Passes
