import Mstar.ArenaColumns

/-!
# The row passes of both arenas

The Rust arena resolves a step's rows to stream ids first, the Python one to cache
objects. Where the caller's streams hold the same pages in both, every pass marks,
counts and reads the same rows.
-/

namespace Mstar.PageArena

variable {Index Writes Rid Label Ref Handle : Type}

/-- A row of the Python arena as the Rust arena resolves it. -/
def toRow (sid : Handle → ℕ) (caches : Caches Rid Label Ref Handle) :
    Option (Option Ref) → RustArena.Row Ref
  | none => .pad
  | some none => .missing
  | some (some cs) => .stream (sid (caches.objects cs).pageIndices) cs

/-- The caller's streams, by its handle, hold the same pages in both arenas. -/
def SamePages (a : ArenaCore) (b : PythonArena Index Writes) (sid sid' : Handle → ℕ)
    (handle : Handle) : Prop :=
  ∃ pages, a.streams[sid handle]? = some pages ∧ b.streams (sid' handle) = some pages

section Resolved

variable [DecidableEq Rid] [DecidableEq Label]

/-- Both resolve the same rows. -/
theorem resolveRows_eq (sid : Handle → ℕ) (caches : Caches Rid Label Ref Handle)
    (real : Option (List Rid)) (sink : List (Rid × Label)) (segments : List (Segment Rid Label)) :
    RustArena.resolveRows sid caches real sink segments =
      (PythonArena.rows caches real sink segments).map (toRow sid caches) := by
  unfold RustArena.resolveRows PythonArena.rows
  rw [List.map_map]
  apply List.map_congr_left
  intro seg _
  dsimp only [Function.comp_apply]
  split
  next => rfl
  next =>
    cases caches.streams seg.requestId seg.label with
    | none => rfl
    | some cs => rfl

/-- Each resolved row with its span. -/
theorem zip_spans_eq (sid : Handle → ℕ) (caches : Caches Rid Label Ref Handle)
    (real : Option (List Rid)) (sink : List (Rid × Label)) (segments : List (Segment Rid Label)) :
    (RustArena.resolveRows sid caches real sink segments).zip (segments.map Segment.span) =
      (segments.zip (PythonArena.rows caches real sink segments)).map fun (seg, cs) =>
        (toRow sid caches cs, seg.span) := by
  rw [resolveRows_eq]
  unfold PythonArena.rows
  induction segments with
  | nil => rfl
  | cons seg segments ih =>
    simp only [List.map_cons, List.zip_cons_cons]
    rw [ih]

end Resolved

variable [DecidableEq Ref]

/-- The rows that have a cache have pages the arenas agree on. -/
def RowsHeld (a : ArenaCore) (b : PythonArena Index Writes) (sid sid' : Handle → ℕ)
    (caches : Caches Rid Label Ref Handle) (rows : List (Option (Option Ref))) : Prop :=
  ∀ cs, some (some cs) ∈ rows → SamePages a b sid sid' (caches.objects cs).pageIndices

omit [DecidableEq Ref] in
/-- Whether a row fits is read off the same pages. -/
theorem fits_eq {a : RustArena Index Writes} {b : PythonArena Index Writes} {sid sid' : Handle → ℕ}
    {caches : Caches Rid Label Ref Handle} {pageSize span : ℕ} {cs : Ref}
    (h : SamePages a.core b sid sid' (caches.objects cs).pageIndices) :
    RustArena.fits a caches pageSize (sid (caches.objects cs).pageIndices) cs span =
      .ok (decide (span = 0 ∨ (¬ (caches.objects cs).offloaded ∧
        (caches.objects cs).storedLen + span ≤
          ((b.streams (sid' (caches.objects cs).pageIndices)).getD []).length * pageSize))) := by
  obtain ⟨pages, ha, hb⟩ := h
  unfold RustArena.fits
  split
  next hspan => simp [hspan]
  next hspan =>
    unfold ArenaCore.pages
    rw [ha, hb]
    simp [hspan]

omit [DecidableEq Ref] in
/-- Both admit them alike. -/
theorem admitRows_eq {a : RustArena Index Writes} {b : PythonArena Index Writes}
    {sid sid' : Handle → ℕ} {caches : Caches Rid Label Ref Handle} {pageSize i : ℕ}
    {rows : List (Segment Rid Label × Option (Option Ref))} {marked : List Ref} {slow : List ℕ}
    (h : RowsHeld a.core b sid sid' caches (rows.map Prod.snd)) :
    RustArena.admitRows a caches pageSize i
        (rows.map fun (seg, cs) => (toRow sid caches cs, seg.span)) marked slow =
      .ok (PythonArena.admitRows b sid' caches pageSize i rows marked slow) := by
  induction rows generalizing i marked slow with
  | nil => rfl
  | cons row rows ih =>
    obtain ⟨seg, cs⟩ := row
    have hrest : RowsHeld a.core b sid sid' caches (rows.map Prod.snd) := by
      intro cs hcs
      exact h cs (by simp only [List.map_cons, List.mem_cons, hcs, or_true])
    rw [List.map_cons]
    rcases cs with _ | _ | cs
    · exact ih hrest
    · dsimp only [toRow]
      unfold RustArena.admitRows PythonArena.admitRows
      dsimp only
      split
      next => exact ih hrest
      next => exact ih hrest
    · dsimp only [toRow]
      unfold RustArena.admitRows PythonArena.admitRows
      rw [fits_eq (h cs (by simp))]
      split
      next heq => cases heq
      next heq =>
        rw [Except.ok.injEq, decide_eq_true_eq] at heq
        dsimp only
        rw [if_pos heq]
        exact ih hrest
      next heq =>
        rw [Except.ok.injEq, decide_eq_false_iff_not] at heq
        dsimp only
        rw [if_neg heq]
        exact ih hrest

/-- Both mark the same ones in flight. -/
theorem setRowsInFlight_eq {sid : Handle → ℕ} {caches₀ : Caches Rid Label Ref Handle}
    {inFlight : Bool} {rows : List (Option (Option Ref))} {caches : Caches Rid Label Ref Handle} :
    RustArena.setRowsInFlight inFlight (rows.map (toRow sid caches₀)) caches =
      PythonArena.setRowsInFlight inFlight rows caches := by
  induction rows generalizing caches with
  | nil => rfl
  | cons cs rows ih =>
    rw [List.map_cons]
    rcases cs with _ | _ | cs
    · exact ih
    · exact ih
    · exact ih

/-- Both commit them alike. -/
theorem commitRows_eq {sid : Handle → ℕ} {caches₀ : Caches Rid Label Ref Handle} {keep : Bool}
    {i : ℕ} {rows : List (Segment Rid Label × Option (Option Ref))} {slow : List ℕ}
    {caches : Caches Rid Label Ref Handle} :
    RustArena.commitRows keep i
        (rows.map fun (seg, cs) => (toRow sid caches₀ cs, seg.span)) slow caches =
      PythonArena.commitRows keep i rows slow caches := by
  induction rows generalizing i slow caches with
  | nil => rfl
  | cons row rows ih =>
    obtain ⟨seg, cs⟩ := row
    rw [List.map_cons]
    rcases cs with _ | _ | cs
    · exact ih
    · exact ih
    · change RustArena.commitRows keep i
        ((RustArena.Row.stream (sid (caches₀.objects cs).pageIndices) cs, seg.span) :: rows.map _)
          slow caches = _
      unfold RustArena.commitRows PythonArena.commitRows
      dsimp only
      by_cases hwrites : keep = true ∧ 0 < seg.span
      · have hkeeps : (keep && decide (0 < seg.span)) = true := by
          rw [hwrites.1, decide_eq_true hwrites.2]
          rfl
        rw [hkeeps, Bool.true_and, if_pos rfl, if_pos hwrites]
        by_cases hoff : (caches.objects cs).offloaded = true
        · rw [if_pos hoff, if_pos ⟨hwrites.1, hwrites.2, hoff⟩]
          exact ih
        · rw [if_neg hoff, if_neg fun h => hoff h.2.2]
          exact ih
      · have hkeeps : (keep && decide (0 < seg.span)) = false := by
          rw [Bool.and_eq_false_iff]
          by_cases hkeep : keep = true
          · right
            exact decide_eq_false fun hspan => hwrites ⟨hkeep, hspan⟩
          · left
            exact Bool.eq_false_iff.2 hkeep
        rw [hkeeps, Bool.false_and, if_neg (by decide), if_neg (by decide),
          if_neg fun h => hwrites ⟨h.1, h.2.1⟩, if_neg hwrites]
        exact ih

/-- The longest of the rows on the sink. -/
def longestOn (sinkSid : ℕ) (start : ℕ) (spans sids : List ℕ) : ℕ :=
  (((spans.zip sids).filter (·.2 = sinkSid)).map Prod.fst).foldl max start

omit [DecidableEq Ref] in
/-- A plan reads the same lengths and generations, of streams that hold the same
pages, and the same longest row on the sink, or misses the same row's stream. -/
theorem planReads_eq {a : ArenaCore} {b : PythonArena Index Writes} {sid sid' : Handle → ℕ}
    {caches : Caches Rid Label Ref Handle} {onSink : Handle} {i : ℕ}
    {rows : List (Segment Rid Label × Option (Option Ref))}
    (hsink : SamePages a b sid sid' onSink)
    (h : RowsHeld a b sid sid' caches (rows.map Prod.snd))
    (hapart : ∀ cs, some (some cs) ∈ rows.map Prod.snd →
      sid' (caches.objects cs).pageIndices ≠ sid' onSink)
    (sids lens gens : List ℕ) (maxSink : ℕ) :
    (∃ e, PythonArena.planReads sid' caches (sid' onSink) i rows = .error e ∧
      RustArena.planReads caches (sid onSink) i
        (rows.map fun (seg, cs) => (toRow sid caches cs, seg.span)) sids lens gens maxSink =
          .error e) ∨
    ∃ more more' moreLens moreGens held,
      PythonArena.planReads sid' caches (sid' onSink) i rows = .ok (more', moreLens, moreGens) ∧
      RustArena.planReads caches (sid onSink) i
        (rows.map fun (seg, cs) => (toRow sid caches cs, seg.span)) sids lens gens maxSink =
          .ok (sids ++ more, lens ++ moreLens, gens ++ moreGens,
            longestOn (sid' onSink) maxSink (rows.map fun row => row.1.span) more') ∧
      List.Forall₂ (fun sid pages => a.streams[sid]? = some pages) more held ∧
      List.Forall₂ (fun sid pages => b.streams sid = some pages) more' held ∧
      held.length = rows.length := by
  induction rows generalizing i sids lens gens maxSink with
  | nil =>
    refine .inr ⟨[], [], [], [], [], rfl, ?_, .nil, .nil, rfl⟩
    simp [RustArena.planReads, longestOn]
  | cons row rows ih =>
    obtain ⟨seg, cs⟩ := row
    have hrest : RowsHeld a b sid sid' caches (rows.map Prod.snd) := by
      intro cs hcs
      exact h cs (by simp only [List.map_cons, List.mem_cons, hcs, or_true])
    have hapart' : ∀ cs, some (some cs) ∈ rows.map Prod.snd →
        sid' (caches.objects cs).pageIndices ≠ sid' onSink := by
      intro cs hcs
      exact hapart cs (by simp only [List.map_cons, List.mem_cons, hcs, or_true])
    rcases cs with _ | _ | cs
    · obtain ⟨pages, ha, hb⟩ := hsink
      rcases ih hrest hapart' (i := i + 1) (sids ++ [sid onSink]) (lens ++ [seg.span]) (gens ++ [0])
        (max maxSink seg.span) with
        ⟨e, hpython, hrust⟩ | ⟨more, more', moreLens, moreGens, held, hpython, hrust, hmore, hmore', hlength⟩
      · left
        refine ⟨e, ?_, hrust⟩
        unfold PythonArena.planReads
        dsimp only
        rw [hpython]
        rfl
      · right
        refine ⟨sid onSink :: more, sid' onSink :: more', seg.span :: moreLens, 0 :: moreGens,
          pages :: held, ?_, ?_, .cons ha hmore, .cons hb hmore', by simp [hlength]⟩
        · unfold PythonArena.planReads
          dsimp only
          rw [hpython]
          rfl
        · refine hrust.trans ?_
          simp [longestOn]
    · left
      exact ⟨_, rfl, rfl⟩
    · obtain ⟨pages, ha, hb⟩ := h cs (by simp)
      have hne := hapart cs (by simp)
      rcases ih hrest hapart' (i := i + 1) (sids ++ [sid (caches.objects cs).pageIndices])
        (lens ++ [(caches.objects cs).storedLen + seg.span])
        (gens ++ [(caches.objects cs).generation]) maxSink with
        ⟨e, hpython, hrust⟩ | ⟨more, more', moreLens, moreGens, held, hpython, hrust, hmore, hmore', hlength⟩
      · left
        refine ⟨e, ?_, hrust⟩
        unfold PythonArena.planReads
        dsimp only
        rw [hpython]
        rfl
      · right
        refine ⟨sid (caches.objects cs).pageIndices :: more,
          sid' (caches.objects cs).pageIndices :: more',
          ((caches.objects cs).storedLen + seg.span) :: moreLens,
          (caches.objects cs).generation :: moreGens, pages :: held, ?_, ?_, .cons ha hmore,
          .cons hb hmore', by simp [hlength]⟩
        · unfold PythonArena.planReads
          dsimp only
          rw [hpython]
          rfl
        · refine hrust.trans ?_
          simp [longestOn, hne]

end Mstar.PageArena
