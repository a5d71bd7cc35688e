import Mstar.BoundedPlaces

/-!
# What a bounded slot retains

A request's steps read from its slot what its stream retains, whatever they
wrote before: every entry of the sink and of the window lies at its place, and
what a step writes covers none that is still needed.
-/

namespace Mstar.BoundedKV

variable {α : Type}

/-- A request: the tokens committed, its slot, and the keys it wrote, in stream
order. -/
structure Request (α : Type) where
  written : ℤ
  cells : Cells α
  stream : List α

/-- A step of a request: the written tokens it declares, the tokens it writes,
and its fresh keys, padding behind them. -/
structure Step (α : Type) where
  declared : ℤ
  span : ℕ
  keys : List α

namespace Request

/-- A request that wrote nothing, in a slot that holds what others left there. -/
def new (cells : Cells α) : Request α := ⟨0, cells, []⟩

/-- Whether a step is admitted: its source is of a length the slots take and the
tokens it declares are those committed. -/
def admits (r : Request α) (c : BoundedKVConfig) (sourceLen : ℤ) (step : Step α) : Bool :=
  decide (c.minSourceLen ≤ sourceLen ∧ sourceLen ≤ c.maxSourceLen) &&
    decide (step.declared = r.written)

/-- A step's keys in the order in which they join the stream. -/
def joining (c : BoundedKVConfig) (step : Step α) : List α :=
  if c.reverseStepOrder then (step.keys.take step.span).reverse else step.keys.take step.span

/-- The stream entry that a token of a step becomes. -/
def entryOf (c : BoundedKVConfig) (n span token : ℤ) : ℤ :=
  if c.reverseStepOrder then n + span - 1 - token else n + token

/-- The layout of a request's next step. -/
def layout (r : Request α) (c : BoundedKVConfig) (res : Resolved) (sourceLen span : ℤ) : RowLayout :=
  rowLayout sourceLen r.written span (res.retentionFor c sourceLen) res.sinkCapacity
    c.reverseStepOrder

/-- A step planned, attended and committed. One that is not admitted, or that
writes more tokens than it has keys, is not run. -/
def run (r : Request α) (c : BoundedKVConfig) (res : Resolved) (sourceLen : ℤ) (step : Step α) :
    Request α :=
  if r.admits c sourceLen step ∧ step.span ≤ step.keys.length then
    ⟨if step.span = 0 then r.written else step.declared + step.span,
      store (rowLayout sourceLen step.declared step.span (res.retentionFor c sourceLen)
          res.sinkCapacity c.reverseStepOrder) c.reverseStepOrder
        (entryOf c (sourceLen + step.declared) step.span) step.keys r.cells,
      r.stream ++ joining c step⟩
  else r

/-- The key of a stream entry: the source's, else one that was written. -/
def keyAt (r : Request α) (sourceLen : ℤ) (source : ℤ → α) (i : ℤ) : Option α :=
  if i < sourceLen then some (source i) else r.stream[(i - sourceLen).toNat]?

end Request

/-- A policy and a source length that a config's slots have room for. -/
structure Fits (policy : SinkWindow) (sourceLen : ℤ) (res : Resolved) : Prop where
  source : 0 ≤ sourceLen
  sink : 0 ≤ policy.sink
  window : 0 ≤ policy.window
  sinkRoom : policy.sink - sourceLen ≤ res.sinkCapacity
  windowRoom : policy.window ≤ res.windowCapacity
  sinkPos : 0 ≤ res.sinkCapacity

section Config

variable {c : BoundedKVConfig} {res : Resolved} {queryWindow : Option ℤ} {n : ℤ}
  {policies : List SinkWindow} {sizes out : ℤ × ℤ × ℤ}

/-- Accepted policies ask for nothing negative, and the sizes worked out are
enough for each of them and for those before. -/
theorem resolve_bounds (h : BoundedKVConfig.resolve queryWindow n policies sizes = .ok out) :
    sizes.1 ≤ out.1 ∧ sizes.2.1 ≤ out.2.1 ∧ ∀ (i : ℕ) (p : SinkWindow), policies[i]? = some p →
      0 ≤ p.sink ∧ 0 ≤ p.window ∧ p.sink - (n + i) ≤ out.1 ∧ p.window ≤ out.2.1 := by
  induction policies generalizing n sizes with
  | nil =>
    cases h
    refine ⟨Int.le_refl _, Int.le_refl _, ?_⟩
    intro i p hp
    cases hp
  | cons policy policies ih =>
    obtain ⟨sink, window, retained⟩ := sizes
    unfold BoundedKVConfig.resolve at h
    split at h
    · cases h
    · next hpos =>
      split at h
      · cases h
      · obtain ⟨hsink, hwindow, hrest⟩ := ih h
        dsimp only at hsink hwindow ⊢
        refine ⟨by omega, by omega, ?_⟩
        intro i p hp
        cases i with
        | zero =>
          cases hp
          refine ⟨by omega, by omega, ?_, by omega⟩
          change policy.sink - (n + 0) ≤ out.1
          omega
        | succ i =>
          obtain ⟨h1, h2, h3, h4⟩ := hrest i p hp
          refine ⟨h1, h2, ?_, h4⟩
          push_cast
          omega

/-- The slots of an accepted config have room for every source length it takes. -/
theorem fits_of_postInit (h : c.postInit = .ok res) {sourceLen : ℤ}
    (hmin : c.minSourceLen ≤ sourceLen) (hmax : sourceLen ≤ c.maxSourceLen) :
    Fits (res.retentionFor c sourceLen) sourceLen res ∧
      res.retentionFor c sourceLen = c.retention sourceLen := by
  unfold BoundedKVConfig.postInit at h
  split at h
  · cases h
  · split at h
    · cases h
    · next hrange =>
      split at h
      · cases h
      · cases hresolve : BoundedKVConfig.resolve c.queryWindow c.minSourceLen c.policies (0, 0, 0) with
        | error e =>
          rw [hresolve] at h
          cases h
        | ok sizes =>
          rw [hresolve] at h
          cases h
          obtain ⟨hsink, -, hall⟩ := resolve_bounds hresolve
          have hat : c.policies[(sourceLen - c.minSourceLen).toNat]? =
              some (c.retention sourceLen) := by
            unfold BoundedKVConfig.policies
            rw [List.getElem?_map, List.getElem?_range (by omega), Option.map_some]
            congr 2
            omega
          have hpolicy : (c.policies.getD (sourceLen - c.minSourceLen).toNat ⟨0, 0, false⟩) =
              c.retention sourceLen := by
            rw [List.getD_eq_getElem?_getD, hat]
            rfl
          obtain ⟨h1, h2, h3, h4⟩ := hall _ _ hat
          constructor
          · change Fits (c.policies.getD (sourceLen - c.minSourceLen).toNat ⟨0, 0, false⟩) sourceLen _
            rw [hpolicy]
            exact ⟨by omega, h1, h2, by dsimp only; omega, h4, hsink⟩
          · exact hpolicy

end Config

section Cells

variable {β V : Type} {pos : β → ℤ} {val : β → V} {l : List β} {cells : ℤ → V} {p : ℤ}

/-- Cells that are not written stay as they are. -/
theorem foldl_update_of_not_mem (h : ∀ b ∈ l, pos b ≠ p) :
    l.foldl (fun cells b => Function.update cells (pos b) (val b)) cells p = cells p := by
  induction l generalizing cells with
  | nil => rfl
  | cons b l ih =>
    rw [List.foldl_cons, ih fun b hb => h b (List.mem_cons_of_mem _ hb),
      Function.update_of_ne (h b List.mem_cons_self).symm]

/-- A cell that one write goes to holds what it wrote. -/
theorem foldl_update_of_mem {b : β} (hl : (l.map pos).Nodup) (hb : b ∈ l) :
    l.foldl (fun cells b => Function.update cells (pos b) (val b)) cells (pos b) = val b := by
  induction l generalizing cells with
  | nil => cases hb
  | cons first l ih =>
    rw [List.map_cons, List.nodup_cons] at hl
    rw [List.foldl_cons]
    rcases List.mem_cons.1 hb with rfl | hb
    · have hlater : ∀ d ∈ l, pos d ≠ pos b := fun d hd heq => hl.1 (heq ▸ List.mem_map_of_mem hd)
      rw [foldl_update_of_not_mem hlater, Function.update_self]
    · exact ih hl.2 hb

end Cells

/-- What is kept in a slot from step to step: every entry of the sink and of the
window that was written lies at its place. -/
structure Request.Inv (r : Request α) (policy : SinkWindow) (sourceLen : ℤ) (source : ℤ → α)
    (res : Resolved) : Prop where
  written : r.written = r.stream.length
  cells : ∀ i, sourceLen ≤ i → i < sourceLen + r.written →
    (i < policy.sink ∨ sourceLen + r.written - policy.window ≤ i) →
    r.cells (place policy sourceLen res.sinkCapacity i) =
      (r.keyAt sourceLen source i).map fun key => (i, key)

section Runs

variable {c : BoundedKVConfig} {res : Resolved} {policy : SinkWindow} {sourceLen : ℤ}
  {source : ℤ → α} {r : Request α}

/-- A request that wrote nothing. -/
theorem Request.inv_new (cells : Cells α) :
    (Request.new cells).Inv policy sourceLen source res where
  written := rfl
  cells := by
    intro i hlow hhigh
    change i < sourceLen + 0 at hhigh
    omega

/-- The places a step writes are different. -/
theorem nodup_places (hfits : Fits policy sourceLen res) (n span : ℤ) :
    ((kept n span policy).map (place policy sourceLen res.sinkCapacity)).Nodup := by
  refine List.Nodup.map_on ?_ nodup_kept
  intro i hi j hj heq
  rw [mem_kept] at hi hj
  rcases lt_trichotomy i j with hlt | rfl | hgt
  · exact absurd heq (place_ne (n := n + span) hfits.window hfits.sinkRoom hi.2.2 hlt hj.2.1)
  · rfl
  · exact absurd heq.symm (place_ne (n := n + span) hfits.window hfits.sinkRoom hj.2.2 hgt hi.2.1)

/-- A token's entry is the entry whose token it is. -/
theorem entryOf_freshOf (n span i : ℤ) :
    Request.entryOf c n span (freshOf n span c.reverseStepOrder i) = i := by
  unfold Request.entryOf freshOf
  cases c.reverseStepOrder
  · simp
  · simp

/-- The key that joins the stream as an entry is the token the layout takes for it. -/
theorem joining_getElem? {step : Step α} {n i : ℤ} (hspan : step.span ≤ step.keys.length)
    (hlow : n ≤ i) (hhigh : i < n + step.span) :
    (Request.joining c step)[(i - n).toNat]? =
      step.keys[(freshOf n step.span c.reverseStepOrder i).toNat]? := by
  have hlt : (i - n).toNat < step.span := by omega
  have hlength : (step.keys.take step.span).length = step.span := by
    rw [List.length_take]
    omega
  unfold Request.joining freshOf
  cases c.reverseStepOrder with
  | false => 
    rw [if_neg Bool.false_ne_true, if_neg Bool.false_ne_true, List.getElem?_take_of_lt hlt]
  | true =>
    rw [if_pos rfl, if_pos rfl, List.getElem?_reverse (by omega), hlength,
      List.getElem?_take_of_lt (by omega)]
    congr 1
    omega

/-- What a step stores: each kept entry's token, at its place. -/
theorem store_eq {written span sinkCapacity : ℤ} {reverse : Bool} {entry : ℤ → ℤ}
    {keys : List α} {cells : Cells α} (hwindow : 0 ≤ policy.window) :
    store (rowLayout sourceLen written span policy sinkCapacity reverse) reverse entry keys cells =
      (kept (sourceLen + written) span policy).foldl (fun cells i =>
        Function.update cells (place policy sourceLen sinkCapacity i)
          ((keys[(freshOf (sourceLen + written) span reverse i).toNat]?).map fun key =>
            (entry (freshOf (sourceLen + written) span reverse i), key))) cells := by
  unfold store
  rw [placed_eq hwindow, List.foldl_map]

/-- A step keeps every entry that the sink or the window still needs. -/
theorem Request.Inv.run (h : r.Inv (res.retentionFor c sourceLen) sourceLen source res)
    (hfits : Fits (res.retentionFor c sourceLen) sourceLen res) (step : Step α) :
    (r.run c res sourceLen step).Inv (res.retentionFor c sourceLen) sourceLen source res := by
  generalize hpolicy : res.retentionFor c sourceLen = policy at h hfits
  unfold Request.run
  split
  · next hrun =>
    have hdeclared : step.declared = r.written := by
      have hadmitted := hrun.1
      unfold Request.admits at hadmitted
      simpa using (Bool.and_eq_true_iff.1 hadmitted).2
    have hwritten : (if step.span = 0 then r.written else step.declared + step.span) =
        r.written + step.span := by
      split
      · next hzero => omega
      · omega
    have hlength : (Request.joining c step).length = step.span := by
      unfold Request.joining
      split
      · rw [List.length_reverse, List.length_take]
        exact Nat.min_eq_left hrun.2
      · rw [List.length_take]
        exact Nat.min_eq_left hrun.2
    have hnew := h.written
    rw [hwritten, hdeclared, hpolicy]
    constructor
    · change r.written + step.span = ((r.stream ++ Request.joining c step).length : ℤ)
      rw [List.length_append, hlength, h.written]
      push_cast
      rfl
    · intro i hlow hhigh hkeep
      change i < sourceLen + (r.written + step.span) at hhigh
      change _ ∨ sourceLen + (r.written + step.span) - policy.window ≤ i at hkeep
      dsimp only
      rw [store_eq hfits.window]
      rcases Int.lt_or_le i (sourceLen + r.written) with hold | hfresh
      · -- written by an earlier step: nothing goes to its place
        have hother : ∀ j ∈ kept (sourceLen + r.written) step.span policy,
            place policy sourceLen res.sinkCapacity j ≠ place policy sourceLen res.sinkCapacity i := by
          intro j hj
          rw [mem_kept] at hj
          exact (place_ne (n := sourceLen + (r.written + step.span)) hfits.window hfits.sinkRoom
            hkeep (by omega) (by omega)).symm
        rw [foldl_update_of_not_mem hother, h.cells i hlow hold (by omega)]
        unfold Request.keyAt
        dsimp only
        rw [if_neg (by omega), if_neg (by omega), List.getElem?_append_left (by omega)]
      · have hmem : i ∈ kept (sourceLen + r.written) step.span policy := by
          rw [mem_kept]
          omega
        rw [foldl_update_of_mem (nodup_places hfits _ _) hmem, entryOf_freshOf,
          ← joining_getElem? hrun.2 hfresh (by omega)]
        unfold Request.keyAt
        dsimp only
        rw [if_neg (by omega), List.getElem?_append_right (by omega)]
        congr 2
        omega
  · exact h

/-- What a request's next step reads and writes is what its stream retains. -/
structure Request.Retains (r : Request α) (c : BoundedKVConfig) (res : Resolved) (sourceLen : ℤ)
    (source : ℤ → α) (span : ℕ) : Prop where
  /-- Every token committed is in the stream. -/
  committed : r.written = r.stream.length
  /-- The reads name the retained entries, each once and in order, and find the
  key of each where its last write went. -/
  reads : gather source r.cells (r.layout c res sourceLen span) =
    (retained (sourceLen + r.written) span (res.retentionFor c sourceLen)).map fun i =>
      (r.keyAt sourceLen source i).map fun key => (i, key)
  known : ∀ i ∈ retained (sourceLen + r.written) span (res.retentionFor c sourceLen),
    (r.keyAt sourceLen source i).isSome
  /-- The entries that must be retained afterwards are written, each once. -/
  kept : ∀ i, i ∈ ((r.layout c res sourceLen span).placed c.reverseStepOrder).map (fun put =>
      Request.entryOf c (sourceLen + r.written) span put.1) ↔
    sourceLen + r.written ≤ i ∧ i < sourceLen + r.written + span ∧
      (i < (res.retentionFor c sourceLen).sink ∨
        sourceLen + r.written + span - (res.retentionFor c sourceLen).window ≤ i)
  once : (((r.layout c res sourceLen span).placed c.reverseStepOrder).map fun put =>
    Request.entryOf c (sourceLen + r.written) span put.1).Nodup
  /-- No position is written twice. -/
  apart : (((r.layout c res sourceLen span).placed c.reverseStepOrder).map Prod.snd).Nodup
  /-- No position of the sink's entries so far is written. -/
  sinkKept : ∀ put ∈ (r.layout c res sourceLen span).placed c.reverseStepOrder,
    put.2 ∉ interval 0 (min (res.retentionFor c sourceLen).sink (sourceLen + r.written) - sourceLen)
  fresh : ∀ put ∈ (r.layout c res sourceLen span).placed c.reverseStepOrder,
    0 ≤ put.1 ∧ put.1 < span
  inSlot : ∀ put ∈ (r.layout c res sourceLen span).placed c.reverseStepOrder,
    0 ≤ put.2 ∧ put.2 < res.slotTokens
  readsIn : ∀ range ∈ (r.layout c res sourceLen span).reads.zip READ_FROM_SOURCE,
    ∀ p ∈ interval range.1.1 range.1.2, 0 ≤ p ∧ p < if range.2 then sourceLen else res.slotTokens
  /-- The table has room for the ranges. -/
  table : (r.layout c res sourceLen span).reads.length = NUM_READS ∧
    (r.layout c res sourceLen span).writes.length = NUM_WRITES ∧
    ∀ slot source, (flattenRow slot (r.layout c res sourceLen span) source).length = ROW_INTS

/-- Ring ranges lie in the ring. -/
theorem ringRanges_in {first count window start k : ℤ} (hwindow : 0 ≤ window)
    (hcount : count ≤ window) (h : (start, k) ∈ ringRanges first count window) (p : ℤ) :
    start ≤ p → p < start + k → 0 ≤ p ∧ p < window := by
  rcases Int.lt_or_eq_of_le hwindow with hw | hw
  · rcases ringRanges_cases first hw hcount with
      ⟨-, hranges⟩ | ⟨-, s, hs, hfits, hranges, -⟩ | ⟨s, head, hs, hhead, hrest, hwrap, hranges, -⟩
    · rw [hranges] at h
      cases h
    · rw [hranges, List.mem_singleton, Prod.mk.injEq] at h
      omega
    · rw [hranges, List.mem_cons, List.mem_singleton, Prod.mk.injEq, Prod.mk.injEq] at h
      omega
  · unfold ringRanges at h
    rw [if_pos (by omega)] at h
    cases h

/-- The ranges that are read lie in the source or in the slot. -/
theorem reads_in {written span : ℤ} {reverse : Bool} (hfits : Fits policy sourceLen res)
    (hspan : 0 ≤ span) :
    ∀ range ∈ (rowLayout sourceLen written span policy res.sinkCapacity reverse).reads.zip
      READ_FROM_SOURCE, ∀ p ∈ interval range.1.1 range.1.2,
        0 ≤ p ∧ p < if range.2 then sourceLen else res.slotTokens := by
  have hlo := le_windowFrom (sourceLen + written) policy hspan
  have hunfold : (rowLayout sourceLen written span policy res.sinkCapacity reverse).reads.zip
      READ_FROM_SOURCE =
      ((0, min policy.sink sourceLen), true) ::
      ((0, max 0 (min policy.sink (sourceLen + written) - sourceLen)), false) ::
      ((windowFrom (sourceLen + written) span policy,
        max 0 (sourceLen - windowFrom (sourceLen + written) span policy)), true) ::
      (ringReads res.sinkCapacity (ringRanges
          (max (windowFrom (sourceLen + written) span policy) sourceLen - policy.sink)
          (sourceLen + written - max (windowFrom (sourceLen + written) span policy) sourceLen)
          policy.window)).zip [false, false] := rfl
  rw [hunfold]
  generalize windowFrom (sourceLen + written) span policy = lo at hlo
  have hsource := hfits.source
  have hsink := hfits.sink
  have hroom := hfits.sinkRoom
  have hpos := hfits.sinkPos
  have hwindow := hfits.window
  have hwindowRoom := hfits.windowRoom
  intro range hrange p hp
  unfold Resolved.slotTokens
  rw [List.mem_cons, List.mem_cons, List.mem_cons] at hrange
  rcases hrange with rfl | rfl | rfl | hring
  · rw [mem_interval] at hp
    rw [if_pos rfl]
    dsimp only at hp
    omega
  · rw [mem_interval] at hp
    rw [if_neg Bool.false_ne_true]
    dsimp only at hp
    omega
  · rw [mem_interval] at hp
    rw [if_pos rfl]
    dsimp only at hp
    omega
  · obtain ⟨⟨start, count⟩, flag⟩ := range
    obtain ⟨hmem, hflag⟩ := List.of_mem_zip hring
    have hslot : flag = false := by simpa using hflag
    rw [hslot, if_neg Bool.false_ne_true]
    rw [mem_interval] at hp
    dsimp only at hp
    unfold ringReads at hmem
    rcases List.mem_append.1 hmem with hused | hunused
    · obtain ⟨⟨s, k⟩, hs, heq⟩ := List.mem_map.1 hused
      cases heq
      have hin := ringRanges_in hwindow (by omega) hs (p - res.sinkCapacity)
      omega
    · cases List.eq_of_mem_replicate hunused
      omega

/-- A ring has at most two ranges. -/
theorem length_ringRanges (first count window : ℤ) :
    (ringRanges first count window).length ≤ 2 := by
  unfold ringRanges
  split
  · exact Nat.zero_le _
  · dsimp only
    split
    · exact Nat.le_refl _
    · exact Nat.le_succ _

/-- One write for each. -/
theorem length_ringWrites (fresh : ℤ → ℤ) (ring first : ℤ) (ranges : List (ℤ × ℤ)) :
    (ringWrites fresh ring first ranges).length = ranges.length := by
  induction ranges generalizing first with
  | nil => rfl
  | cons range ranges ih =>
    unfold ringWrites
    rw [List.length_cons, ih, List.length_cons]

/-- A row has five ranges to read. -/
theorem length_rowReads (written span sinkCapacity : ℤ) :
    (rowReads sourceLen written span policy sinkCapacity).length = NUM_READS := by
  have htwo := length_ringRanges (max (windowFrom (sourceLen + written) span policy) sourceLen -
    policy.sink) (sourceLen + written - max (windowFrom (sourceLen + written) span policy) sourceLen)
    policy.window
  unfold rowReads NUM_READS
  dsimp only
  rw [List.length_append, List.length_append, List.length_map, List.length_replicate]
  simp only [List.length_cons, List.length_nil]
  omega

/-- It has three ranges to write. -/
theorem length_writes (written span sinkCapacity : ℤ) (reverse : Bool) :
    (rowLayout sourceLen written span policy sinkCapacity reverse).writes.length = NUM_WRITES := by
  have hthree : (usedWrites sourceLen written span policy sinkCapacity reverse).length ≤ 3 := by
    unfold usedWrites
    dsimp only
    rw [List.length_append]
    refine Nat.add_le_add (?_ : _ ≤ 1) (?_ : _ ≤ 2)
    · split
      · exact Nat.le_refl _
      · exact Nat.zero_le _
    · split
      · rw [length_ringWrites]
        exact length_ringRanges _ _ _
      · exact Nat.zero_le _
  unfold rowLayout NUM_WRITES
  dsimp only
  rw [List.length_append, List.length_replicate]
  omega

/-- A row of the table has a place for every range. -/
theorem length_flattenRow {slot src : ℤ} {layout : RowLayout}
    (hreads : layout.reads.length = NUM_READS) (hwrites : layout.writes.length = NUM_WRITES) :
    (flattenRow slot layout src).length = ROW_INTS := by
  have hpairs : ∀ l : List (ℤ × ℤ), (l.flatMap fun r => [r.1, r.2]).length = 2 * l.length := by
    intro l
    induction l with
    | nil => rfl
    | cons r l ih =>
      rw [List.flatMap_cons, List.length_append, ih, List.length_cons]
      simp only [List.length_cons, List.length_nil]
      omega
  have htriples : ∀ l : List (ℤ × ℤ × ℤ),
      (l.flatMap fun w => [w.1, w.2.1, w.2.2]).length = 3 * l.length := by
    intro l
    induction l with
    | nil => rfl
    | cons w l ih =>
      rw [List.flatMap_cons, List.length_append, ih, List.length_cons]
      simp only [List.length_cons, List.length_nil]
      omega
  unfold flattenRow
  rw [List.length_append, List.length_append, hpairs, htriples, hreads, hwrites]
  rfl

/-- What is kept from step to step is what the next one needs. -/
theorem Request.Inv.retains (h : r.Inv (res.retentionFor c sourceLen) sourceLen source res)
    (hfits : Fits (res.retentionFor c sourceLen) sourceLen res) (span : ℕ) :
    r.Retains c res sourceLen source span := by
  have hwritten : 0 ≤ r.written := by
    rw [h.written]
    omega
  have hplaced : (r.layout c res sourceLen span).placed c.reverseStepOrder =
      (kept (sourceLen + r.written) span (res.retentionFor c sourceLen)).map fun i =>
        (freshOf (sourceLen + r.written) span c.reverseStepOrder i,
          place (res.retentionFor c sourceLen) sourceLen res.sinkCapacity i) :=
    placed_eq hfits.window
  have hentries : ((r.layout c res sourceLen span).placed c.reverseStepOrder).map (fun put =>
      Request.entryOf c (sourceLen + r.written) span put.1) =
      kept (sourceLen + r.written) span (res.retentionFor c sourceLen) := by
    rw [hplaced, List.map_map]
    conv_rhs => rw [← List.map_id (kept _ _ _)]
    apply List.map_congr_left
    intro i _
    exact entryOf_freshOf _ _ i
  constructor
  · exact h.written
  · refine gather_eq hfits.source hwritten (by omega) hfits.sink hfits.window ?_ h.cells
    intro i _ hi
    unfold Request.keyAt
    rw [if_pos hi]
    rfl
  · intro i hi
    unfold retained at hi
    rw [List.mem_append, mem_interval, mem_interval] at hi
    unfold Request.keyAt
    split
    · rfl
    · next hlate =>
      have hlength := h.written
      rw [List.getElem?_eq_getElem (by omega)]
      rfl
  · intro i
    rw [hentries, mem_kept]
  · rw [hentries]
    exact nodup_kept
  · rw [hplaced, List.map_map]
    exact nodup_places hfits _ _
  · intro put hput hin
    rw [hplaced] at hput
    obtain ⟨i, hi, rfl⟩ := List.mem_map.1 hput
    rw [mem_kept] at hi
    rw [mem_interval] at hin
    have hroom := hfits.sinkRoom
    dsimp only at hin
    unfold place at hin
    split at hin
    · omega
    · have hlow := Int.emod_nonneg (i - (res.retentionFor c sourceLen).sink)
        (by omega : (res.retentionFor c sourceLen).window ≠ 0)
      omega
  · intro put hput
    rw [hplaced] at hput
    obtain ⟨i, hi, rfl⟩ := List.mem_map.1 hput
    rw [mem_kept] at hi
    dsimp only
    unfold freshOf
    split <;> omega
  · intro put hput
    rw [hplaced] at hput
    obtain ⟨i, hi, rfl⟩ := List.mem_map.1 hput
    rw [mem_kept] at hi
    exact place_mem (n := sourceLen + r.written + span) hfits.window hfits.sinkRoom
      hfits.windowRoom hfits.sinkPos (by omega) hi.2.2 hi.2.1
  · exact reads_in hfits (by omega)
  · exact ⟨length_rowReads _ _ _, length_writes _ _ _ _,
      fun _ _ => length_flattenRow (length_rowReads _ _ _) (length_writes _ _ _ _)⟩

/-- Whatever a request wrote, in steps of any lengths, its next step reads what
the stream retains and writes what it will. -/
theorem sink_and_window_retained (h : c.postInit = .ok res) (hmin : c.minSourceLen ≤ sourceLen)
    (hmax : sourceLen ≤ c.maxSourceLen) (source : ℤ → α) (cells : Cells α)
    (steps : List (Step α)) (span : ℕ) :
    (steps.foldl (fun r step => r.run c res sourceLen step) (Request.new cells)).Retains
      c res sourceLen source span := by
  have hfits := (fits_of_postInit h hmin hmax).1
  have hrun : ∀ (steps : List (Step α)) (r : Request α),
      r.Inv (res.retentionFor c sourceLen) sourceLen source res →
      (steps.foldl (fun r step => r.run c res sourceLen step) r).Inv
        (res.retentionFor c sourceLen) sourceLen source res := by
    intro steps
    induction steps with
    | nil => exact fun r hr => hr
    | cons step steps ih => exact fun r hr => ih _ (hr.run hfits step)
  exact (hrun steps _ (Request.inv_new cells)).retains hfits span

end Runs

/-- A policy of two and three entries over a source of one, two steps, the second
longer than the window, and what a third reads: the source's entry and the
sink's from it, the last three from the ring. -/
theorem sink_and_window_retained_two :
    let c : BoundedKVConfig := ⟨1, fun _ => ⟨2, 3, false⟩, 1, 0, false, none⟩
    let res : Resolved := ⟨[⟨2, 3, false⟩, ⟨2, 3, false⟩], 2, 3, 5⟩
    let r := ([⟨0, 2, [10, 11]⟩, ⟨2, 4, [12, 13, 14, 15]⟩] : List (Step ℕ)).foldl
      (fun r step => r.run c res 1 step) (Request.new fun _ => none)
    r.Retains c res 1 (fun _ => 9) 1 ∧
      gather (fun _ => 9) r.cells (r.layout c res 1 1) =
        [some (0, 9), some (1, 10), some (4, 13), some (5, 14), some (6, 15)] :=
  ⟨sink_and_window_retained (by rfl) (by decide) (by decide) _ _ _ _, by decide⟩

end Mstar.BoundedKV
