import Mstar.PassTallies

/-!
# A partition advances once per pass

Where every report comes while its pass is counted, a partition is advanced
once per pass and after all its ranks, and a request that is declared complete
has counted all that they put out. A rank that runs ahead is counted for the
ranks it has left behind.
-/

namespace Mstar.Passes

/-- The passes a partition was advanced from. -/
def passesOf (advances : List Advance) (name : PartitionName) : List ℕ :=
  (advances.filter (·.partition = name)).map (·.pass)

/-- What holds of a request and its advances at any time. -/
structure Inv (cfg : Config) (w : World) : Prop where
  /-- The reports applied are in order. -/
  inTurn : InTurn cfg w.heard
  /-- Every partition was advanced once from each of its passes, in order. -/
  once : ∀ name, passesOf w.advances name =
    List.range' 1 (w.request.partitionStates name).fwdPassNumber
  /-- Every advance came after all reports of its pass. -/
  whole : ∀ a ∈ w.advances,
    AllReported cfg (w.heard.take a.heardBefore) a.partition a.pass a.walk
  /-- No advance came after reports still to come. -/
  bounded : ∀ a ∈ w.advances, a.heardBefore ≤ w.heard.length
  /-- A partition that ended did not run at all, or was advanced. -/
  ended : ∀ name, (w.request.partitionStates name).isDone = true →
    (cfg.initial name).requestDone = true ∨ 0 < (w.request.partitionStates name).fwdPassNumber
  /-- The chunks counted are those the reports name. -/
  chunks : ∀ n, w.request.outputChunkCounts n =
    (w.heard.flatMap (·.body.outputSignalNames)).count n
  /-- Only partitions of the model are queued. -/
  queue : ∀ name ∈ w.donePartitionForwards, name ∈ cfg.partitionNames
  /-- A turn that ended the last partition ended all of them. -/
  completed : w.phase = .running → w.completed = true → w.request.allDone cfg = true
  /-- A complete request has no partition left. -/
  complete : w.phase = .complete → w.request.allDone cfg = true
  /-- Only the model fails it. -/
  failed : w.phase = .failed → ∃ n, cfg.forward n = none
  /-- The counts are those of the running passes. -/
  tallied : w.phase = .running → ∀ name ∈ cfg.partitionNames,
    (w.request.partitionStates name).isDone = false →
      Tallied cfg w.heard name (w.request.partitionStates name)
  /-- The queue holds the complete ones. -/
  queued : w.phase = .running → ∀ name ∈ cfg.partitionNames,
    (w.request.partitionStates name).isDone = false →
      Queued w.heard w.donePartitionForwards name (w.request.partitionStates name)

variable {cfg : Config} {w : World} {δ : Delivery} {name : PartitionName}

/-- All is done when every partition is. -/
theorem allDone_iff {req : RequestData} : req.allDone cfg = true ↔
    ∀ name ∈ cfg.partitionNames, (req.partitionStates name).isDone = true := by
  rw [RequestData.allDone, List.all_eq_true]

/-- Nothing was reported of a request that was just registered. -/
theorem Inv.start : Inv cfg (World.start cfg) := by
  constructor
  · constructor
    · simp [World.start]
    · simp [World.start]
    · simp [World.start]
    · exact List.Pairwise.nil
  · exact fun _ => rfl
  · simp [World.start]
  · simp [World.start]
  · exact fun _ hd => .inl hd
  · exact fun _ => rfl
  · simp [World.start]
  · simp [World.start]
  · simp [World.start]
  · simp [World.start]
  · exact fun _ _ _ _ => Tallied.fresh (by simp [World.start])
  · intro _ name _ _
    constructor
    · simp [World.start, Complete]
    · simp [World.start]

/-- More reports keep a pass reported. -/
theorem AllReported.mono {heard more : List Delivery} {pass : ℕ} {walk : WalkName}
    (h : AllReported cfg heard name pass walk) (hsub : heard ⊆ more) :
    AllReported cfg more name pass walk := by
  intro wg hwg workers hw rank hrank
  obtain ⟨ε, hε, hc⟩ := h wg hwg workers hw rank hrank
  exact ⟨ε, hsub hε, hc⟩

/-- One report keeps the invariant. -/
theorem Inv.take (h : Inv cfg w) (hp : w.phase = .running → Proper cfg w δ)
    (ht : w.phase = .running → Timely w δ) : Inv cfg (w.take cfg δ) := by
  rw [World.take]
  split
  next hrun =>
    have hprop := hp hrun
    have htime := ht hrun
    have hsome : (w.request.processWorkerGraphsDone cfg δ.body).isSome := by
      apply processWorkerGraphsDone_isSome
      intro wg hwg
      obtain ⟨workers, hw, -⟩ := hprop.placed wg hwg
      rw [Option.mem_def.1 hw]
      rfl
    split
    next hnone => rw [hnone] at hsome; simp at hsome
    next request done heq =>
      have hh := processWorkerGraphsDone_heard hprop.known heq
      have hall : request.allDone cfg = w.request.allDone cfg := by
        simp only [RequestData.allDone, hh.isDone_eq]
      constructor
      · exact h.inTurn.hear hprop
      · intro other
        rw [h.once other, hh.pass_eq]
      · intro a ha
        rw [List.take_append_of_le_length (h.bounded a ha)]
        exact h.whole a ha
      · intro a ha
        exact (h.bounded a ha).trans (by simp)
      · intro other hd
        rw [hh.pass_eq]
        exact h.ended other (hh.isDone_eq other ▸ hd)
      · intro n
        rw [hh.chunks, countChunks_apply, h.chunks n]
        simp
      · intro other ho
        rcases List.mem_append.1 ho with hold | hnew
        · exact h.queue other hold
        · rw [hh.eq_of_queued hnew]
          exact hprop.known
      · intro hr hc
        rw [hall]
        exact h.completed hr hc
      · intro hc
        rw [hall]
        exact h.complete hc
      · exact h.failed
      · intro _ other ho hd
        rw [hh.isDone_eq] at hd
        by_cases hown : other = δ.body.partitionName
        · subst hown
          exact (h.tallied hrun _ ho hd).hear hh hprop.nodup (htime hd) hprop.ofWalk
            hprop.sameWalk
        · rw [hh.others other hown]
          exact (h.tallied hrun other ho hd).of_other (Ne.symm hown)
      · intro _ other ho hd
        rw [hh.isDone_eq] at hd
        have hold := h.queued hrun other ho hd
        by_cases hown : other = δ.body.partitionName
        · subst hown
          exact hold.hear hh (htime hd)
            ((h.tallied hrun _ ho hd).incomplete h.inTurn hprop (htime hd))
        · have hnotnew : other ∉ done := fun hmem => hown (hh.eq_of_queued hmem)
          dsimp only
          rw [hh.others other hown]
          exact hold.of_other (Ne.symm hown) hnotnew
  next => exact h

/-- The head of a queue holds each of its partitions once. -/
theorem not_mem_of_count {rest : List PartitionName}
    (h : (name :: rest).count name ≤ 1) : name ∉ rest := by
  rw [List.count_cons_self] at h
  exact List.count_eq_zero.1 (by omega)

/-- A partition's passes, with one more advance. -/
theorem passesOf_append (advances : List Advance) (a : Advance) :
    passesOf (advances ++ [a]) name =
      passesOf advances name ++ if a.partition = name then [a.pass] else [] := by
  rw [passesOf, passesOf, List.filter_append, List.map_append]
  by_cases h : a.partition = name
  · simp [h]
  · simp [h]

/-- A request that is not running only gets its queue emptied. -/
theorem Inv.drop {rest : List PartitionName} (h : Inv cfg w)
    (hq : w.donePartitionForwards = name :: rest) (hphase : w.phase ≠ .running) :
    Inv cfg { w with donePartitionForwards := rest } :=
  { h with
    queue := fun other ho => h.queue other (hq ▸ List.mem_cons_of_mem _ ho)
    queued := fun hr => absurd hr hphase }

/-- The model raises, and the request fails. -/
theorem Inv.fail {rest : List PartitionName} (h : Inv cfg w)
    (hq : w.donePartitionForwards = name :: rest) (hn : ∃ n, cfg.forward n = none) :
    Inv cfg { w with donePartitionForwards := rest, phase := .failed } :=
  { h with
    queue := fun other ho => h.queue other (hq ▸ List.mem_cons_of_mem _ ho)
    completed := fun hr => nomatch hr
    complete := fun hr => nomatch hr
    failed := fun _ => hn
    tallied := fun hr => nomatch hr
    queued := fun hr => nomatch hr }

/-- An entry whose partition has ended changes nothing. -/
theorem Inv.skip {rest : List PartitionName} (h : Inv cfg w)
    (hq : w.donePartitionForwards = name :: rest) (hrun : w.phase = .running)
    (hd : (w.request.partitionStates name).isDone = true) :
    Inv cfg { w with
      donePartitionForwards := rest
      completed := w.completed || w.request.allDone cfg
      phase := .running } :=
  { h with
    queue := fun other ho => h.queue other (hq ▸ List.mem_cons_of_mem _ ho)
    completed := by
      intro _ hc
      rcases Bool.or_eq_true_iff.1 hc with hold | hnew
      · exact h.completed hrun hold
      · exact hnew
    complete := fun hr => nomatch hr
    failed := fun hr => nomatch hr
    tallied := fun _ => h.tallied hrun
    queued := by
      intro _ other ho hod
      have hne : other ≠ name := by
        intro heq
        rw [heq, hd] at hod
        simp at hod
      exact (hq ▸ h.queued hrun other ho hod).tail hne }

/-- A partition whose pass is complete is advanced to its next. -/
theorem Inv.proceed {rest : List PartitionName} {request : RequestData} (h : Inv cfg w)
    (hq : w.donePartitionForwards = name :: rest) (hrun : w.phase = .running)
    (hd : (w.request.partitionStates name).isDone = false)
    (ha : Advanced cfg w.request name request) :
    Inv cfg { w with
      request := request
      donePartitionForwards := rest
      completed := w.completed || request.allDone cfg
      advances := w.advances ++ w.advanceOf name
      phase := .running } := by
  obtain ⟨⟨walk, isDone, tokens, hstates⟩, hchunks⟩ := ha
  have hknown : name ∈ cfg.partitionNames := h.queue name (hq ▸ List.mem_cons_self)
  have htally := h.tallied hrun name hknown hd
  have hqueued := h.queued hrun name hknown hd
  have hadv : w.advanceOf name = [⟨name, (w.request.partitionStates name).fwdPassNumber + 1,
      (w.request.partitionStates name).graphWalk, w.heard.length⟩] := by
    rw [World.advanceOf]
    simp [hd]
  have hself : request.partitionStates name = ⟨walk,
      (w.request.partitionStates name).fwdPassNumber + 1, isDone, ∅,
      cfg.workerGraphsOf walk, fun _ => 0, false, tokens⟩ := by
    rw [hstates, Function.update_self]
  have hother : ∀ other, other ≠ name →
      request.partitionStates other = w.request.partitionStates other := by
    intro other hne
    rw [hstates, Function.update_of_ne hne]
  have hcomplete : Complete w.heard name (w.request.partitionStates name) :=
    hqueued.iff.1 (hq ▸ List.mem_cons_self)
  constructor
  · exact h.inTurn
  · intro other
    dsimp only
    rw [hadv, passesOf_append, h.once]
    by_cases hne : other = name
    · subst hne
      rw [hself, if_pos rfl, List.range'_1_concat, Nat.add_comm 1]
    · rw [hother other hne, if_neg (Ne.symm hne), List.append_nil]
  · intro a hmem
    dsimp only at hmem ⊢
    rw [hadv] at hmem
    rcases List.mem_append.1 hmem with hold | hnew
    · exact h.whole a hold
    · obtain rfl := List.mem_singleton.1 hnew
      dsimp only
      rw [List.take_length]
      exact htally.reported h.inTurn hcomplete.1
  · intro a hmem
    dsimp only at hmem ⊢
    rw [hadv] at hmem
    rcases List.mem_append.1 hmem with hold | hnew
    · exact h.bounded a hold
    · obtain rfl := List.mem_singleton.1 hnew
      exact le_rfl
  · intro other hod
    by_cases hne : other = name
    · subst hne
      dsimp only
      rw [hself]
      exact .inr (Nat.succ_pos _)
    · dsimp only at hod ⊢
      rw [hother other hne] at hod ⊢
      exact h.ended other hod
  · intro n
    dsimp only
    rw [hchunks]
    exact h.chunks n
  · exact fun other ho => h.queue other (hq ▸ List.mem_cons_of_mem _ ho)
  · intro _ hc
    dsimp only at hc ⊢
    rcases Bool.or_eq_true_iff.1 hc with hold | hnew
    · have hall := (allDone_iff.1 (h.completed hrun hold)) name hknown
      rw [hd] at hall
      simp at hall
    · exact hnew
  · exact fun hr => nomatch hr
  · exact fun hr => nomatch hr
  · intro _ other ho hod
    by_cases hne : other = name
    · subst hne
      dsimp only
      rw [hself]
      exact Tallied.fresh htally.within
    · dsimp only at hod ⊢
      rw [hother other hne] at hod ⊢
      exact h.tallied hrun other ho hod
  · intro _ other ho hod
    by_cases hne : other = name
    · subst hne
      dsimp only
      rw [hself]
      exact Queued.fresh htally.within (not_mem_of_count (hq ▸ hqueued.once))
    · dsimp only at hod ⊢
      rw [hother other hne] at hod ⊢
      exact (hq ▸ h.queued hrun other ho hod).tail hne

/-- Working off one entry of the queue keeps the invariant. -/
theorem Inv.advance {rest : List PartitionName} (h : Inv cfg w)
    (hq : w.donePartitionForwards = name :: rest) :
    Inv cfg (World.advance cfg { w with donePartitionForwards := rest } name) := by
  rw [World.advance]
  dsimp only
  split
  next hrun =>
    split
    next hnone => exact h.fail hq (processDoneForward_none hnone)
    next request allDone heq =>
      cases hd : (w.request.partitionStates name).isDone with
      | true =>
        rw [processDoneForward_done hd] at heq
        obtain ⟨rfl, rfl⟩ := Prod.mk.inj (Option.some.inj heq)
        have hskip := h.skip hq hrun hd
        have hadv : World.advanceOf { w with donePartitionForwards := rest } name = [] := by
          rw [World.advanceOf]
          simp [hd]
        rw [hadv, List.append_nil]
        exact hrun ▸ hskip
      | false =>
        obtain ⟨hadv, rfl⟩ := processDoneForward_advanced hd heq
        exact hrun ▸ h.proceed hq hrun hd hadv
  next hnot => exact h.drop hq fun hr => hnot hr

end Mstar.Passes
