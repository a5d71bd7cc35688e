import Mathlib.Data.List.Nodup
import Mstar.BoundedLayout

/-!
# Where stream entries lie

The ranges of a layout are the places of consecutive stream entries: the sink
from the slot's start, the window's ring behind it. What a step writes are the
places of the entries it must keep, what it reads those of the entries retained.
-/

namespace Mstar.BoundedKV

section Interval

variable {a b c i : ℤ}

/-- The numbers of an interval. -/
@[simp] theorem mem_interval : i ∈ interval a c ↔ a ≤ i ∧ i < a + c := by
  unfold interval
  rw [List.mem_map]
  constructor
  · rintro ⟨j, hj, rfl⟩
    rw [List.mem_range] at hj
    omega
  · intro h
    refine ⟨(i - a).toNat, ?_, by omega⟩
    rw [List.mem_range]
    omega

/-- An interval of no length. -/
theorem interval_of_nonpos (h : c ≤ 0) : interval a c = [] := by
  unfold interval
  have hzero : c.toNat = 0 := by omega
  rw [hzero]
  rfl

/-- An interval shifted by a map. -/
theorem map_interval {β : Type} {f : ℤ → β} {g : ℤ → β}
    (h : ∀ j, 0 ≤ j → j < c → f (a + j) = g (b + j)) :
    (interval a c).map f = (interval b c).map g := by
  unfold interval
  rw [List.map_map, List.map_map]
  apply List.map_congr_left
  intro j hj
  rw [List.mem_range] at hj
  exact h j (by omega) (by omega)

/-- An interval in two. -/
theorem interval_append (hb : 0 ≤ b) (hc : 0 ≤ c) :
    interval a (b + c) = interval a b ++ interval (a + b) c := by
  have hlength : (b + c).toNat = b.toNat + c.toNat := by omega
  unfold interval
  rw [hlength, List.range_add, List.map_append, List.map_map]
  congr 1
  apply List.map_congr_left
  intro j _
  change a + ((b.toNat + j : ℕ) : ℤ) = a + b + j
  omega

/-- An interval cut in two. -/
theorem interval_cut (a : ℤ) (hb : 0 ≤ b) (hbc : b ≤ c) :
    interval a c = interval a b ++ interval (a + b) (c - b) := by
  rw [← interval_append hb (by omega)]
  congr 1
  omega

/-- None of them twice. -/
theorem nodup_interval : (interval a c).Nodup := by
  have hinj : Function.Injective fun j : ℕ => a + (j : ℤ) := by
    intro j k h
    dsimp only at h
    omega
  exact List.nodup_range.map hinj

end Interval

/-- The ranges of consecutive ring entries: none, one, or two when they wrap. -/
theorem ringRanges_cases (first : ℤ) {count window : ℤ} (hw : 0 < window)
    (hcount : count ≤ window) :
    (count ≤ 0 ∧ ringRanges first count window = []) ∨
    (0 < count ∧ ∃ start, 0 ≤ start ∧ start + count ≤ window ∧
      ringRanges first count window = [(start, count)] ∧
      ∀ j, 0 ≤ j → j < count → (first + j) % window = start + j) ∨
    ∃ start head, 0 ≤ start ∧ 0 < head ∧ head < count ∧ start + head = window ∧
      ringRanges first count window = [(start, head), (0, count - head)] ∧
      (∀ j, 0 ≤ j → j < head → (first + j) % window = start + j) ∧
      ∀ j, 0 ≤ j → j < count - head → (first + head + j) % window = j := by
  have hstart : 0 ≤ first % window := Int.emod_nonneg _ (by omega)
  have hlt : first % window < window := Int.emod_lt_of_pos _ hw
  have hshift : ∀ j, (first + j) % window = (first % window + j) % window := by
    intro j
    rw [Int.emod_add_emod]
  unfold ringRanges
  split
  · next hnone => exact .inl ⟨hnone, rfl⟩
  · next hsome =>
    right
    dsimp only
    split
    · next hwrap =>
      have hhead : min count (window - first % window) = window - first % window := by omega
      rw [hhead]
      refine .inr ⟨first % window, window - first % window, hstart, by omega, by omega, by omega,
        rfl, ?_, ?_⟩
      · intro j hj hjlt
        rw [hshift, Int.emod_eq_of_lt (by omega) (by omega)]
      · intro j hj hjlt
        have hturn : first + (window - first % window) + j =
            first + (window - first % window + j) := by omega
        have hwhole : first % window + (window - first % window + j) = j + window := by omega
        rw [hturn, hshift, hwhole, Int.add_emod_right, Int.emod_eq_of_lt hj (by omega)]
    · next hfits =>
      have hhead : min count (window - first % window) = count := by omega
      rw [hhead]
      refine .inl ⟨by omega, first % window, hstart, by omega, rfl, ?_⟩
      intro j hj hjlt
      rw [hshift, Int.emod_eq_of_lt (by omega) (by omega)]

/-- The tokens of consecutive entries, in the stream's order or against it. -/
theorem freshOf_add (n span : ℤ) (reverse : Bool) (i j : ℤ) :
    freshOf n span reverse (i + j) =
      if reverse then freshOf n span reverse i - j else freshOf n span reverse i + j := by
  unfold freshOf
  cases reverse
  · simp
    omega
  · simp
    omega

/-- What a write puts where: its entries' tokens at consecutive positions. -/
theorem tokenRange_eq (n span : ℤ) (reverse : Bool) (first start count : ℤ) :
    tokenRange reverse (freshOf n span reverse first, start, count) =
      (interval first count).map fun i => (freshOf n span reverse i, start + (i - first)) := by
  unfold tokenRange
  apply map_interval
  intro j _ _
  rw [freshOf_add]
  have hoff : first + j - first = j := by omega
  rw [hoff, Int.zero_add]

/-- Where a stream entry that the slot keeps lies in it. -/
def place (policy : SinkWindow) (sourceLen sinkCapacity i : ℤ) : ℤ :=
  if i < policy.sink then i - sourceLen else sinkCapacity + (i - policy.sink) % policy.window

/-- The entries of a step that are kept: those of the sink, and the last ones. -/
def kept (n span : ℤ) (policy : SinkWindow) : List ℤ :=
  interval n (min policy.sink (n + span) - n) ++
    interval (max (max policy.sink n) (n + span - policy.window))
      (n + span - max (max policy.sink n) (n + span - policy.window))

section Writes

variable {sourceLen written span sinkCapacity : ℤ} {policy : SinkWindow} {reverse : Bool}

/-- The ring writes put each entry of the window at its place. -/
theorem ringWrites_placed {first count ring : ℤ} {n : ℤ} (hw : 0 < policy.window)
    (hcount : count ≤ policy.window) (hsink : policy.sink ≤ first) :
    (ringWrites (freshOf n span reverse) ring first
      (ringRanges (first - policy.sink) count policy.window)).flatMap (tokenRange reverse) =
    (interval first count).map fun i =>
      (freshOf n span reverse i, place policy sourceLen ring i) := by
  have hplace : ∀ i, first ≤ i →
      place policy sourceLen ring i = ring + (i - policy.sink) % policy.window := by
    intro i hi
    unfold place
    rw [if_neg (by omega)]
  rcases ringRanges_cases (first - policy.sink) hw hcount with
    ⟨hnone, hranges⟩ | ⟨hsome, start, hstart, hfits, hranges, hpos⟩ |
    ⟨start, head, hstart, hhead, hrest, hwrap, hranges, hbefore, hbehind⟩
  · rw [hranges, interval_of_nonpos hnone]
    rfl
  · rw [hranges]
    simp only [ringWrites, List.flatMap_cons, List.flatMap_nil, List.append_nil]
    rw [tokenRange_eq]
    apply List.map_congr_left
    intro i hi
    rw [mem_interval] at hi
    have hat := hpos (i - first) (by omega) (by omega)
    have hsame : first - policy.sink + (i - first) = i - policy.sink := by omega
    rw [hplace i hi.1, ← hsame, hat]
    congr 1
    omega
  · rw [hranges]
    simp only [ringWrites, List.flatMap_cons, List.flatMap_nil, List.append_nil]
    have hcut := interval_cut first (by omega : 0 ≤ head) (by omega : head ≤ count)
    rw [tokenRange_eq, tokenRange_eq, hcut, List.map_append]
    congr 1
    · apply List.map_congr_left
      intro i hi
      rw [mem_interval] at hi
      have hat := hbefore (i - first) (by omega) (by omega)
      have hsame : first - policy.sink + (i - first) = i - policy.sink := by omega
      rw [hplace i hi.1, ← hsame, hat]
      congr 1
      omega
    · apply List.map_congr_left
      intro i hi
      rw [mem_interval] at hi
      have hat := hbehind (i - (first + head)) (by omega) (by omega)
      have hsame : first - policy.sink + head + (i - (first + head)) = i - policy.sink := by omega
      rw [hplace i (by omega), ← hsame, hat]
      congr 1
      omega

/-- Unused rows of the table put nothing anywhere. -/
theorem flatMap_unused (k : ℕ) :
    (List.replicate k ((0, 0, 0) : ℤ × ℤ × ℤ)).flatMap (tokenRange reverse) = [] := by
  rw [List.flatMap_eq_nil_iff]
  intro w hw
  rw [List.eq_of_mem_replicate hw]
  rfl

/-- What a step writes: each entry it keeps, at its place. -/
theorem placed_eq (hwindow : 0 ≤ policy.window) :
    (rowLayout sourceLen written span policy sinkCapacity reverse).placed reverse =
      (kept (sourceLen + written) span policy).map fun i =>
        (freshOf (sourceLen + written) span reverse i, place policy sourceLen sinkCapacity i) := by
  have hsink : (if sourceLen + written < min policy.sink (sourceLen + written + span) then
      [(freshOf (sourceLen + written) span reverse (sourceLen + written),
        sourceLen + written - sourceLen,
        min policy.sink (sourceLen + written + span) - (sourceLen + written))]
      else []).flatMap (tokenRange reverse) =
      (interval (sourceLen + written)
        (min policy.sink (sourceLen + written + span) - (sourceLen + written))).map fun i =>
        (freshOf (sourceLen + written) span reverse i, place policy sourceLen sinkCapacity i) := by
    split
    · next hnew =>
      rw [List.flatMap_singleton, tokenRange_eq]
      apply List.map_congr_left
      intro i hi
      rw [mem_interval] at hi
      have hin : i < policy.sink := by omega
      unfold place
      rw [if_pos hin]
      congr 1
      omega
    · next hold =>
      rw [interval_of_nonpos (by omega)]
      rfl
  unfold RowLayout.placed rowLayout usedWrites kept
  dsimp only
  rw [List.flatMap_append, List.flatMap_append, hsink, flatMap_unused, List.append_nil,
    List.map_append]
  congr 1
  split
  · next hw =>
    apply ringWrites_placed hw
    · omega
    · omega
  · next hw =>
    rw [interval_of_nonpos (by omega)]
    rfl

/-- The entries a step keeps are those that join the sink or are among the last. -/
theorem mem_kept {n i : ℤ} : i ∈ kept n span policy ↔
    n ≤ i ∧ i < n + span ∧ (i < policy.sink ∨ n + span - policy.window ≤ i) := by
  unfold kept
  rw [List.mem_append, mem_interval, mem_interval]
  omega

/-- Each of them once. -/
theorem nodup_kept {n : ℤ} : (kept n span policy).Nodup := by
  unfold kept
  rw [List.nodup_append]
  refine ⟨nodup_interval, nodup_interval, ?_⟩
  intro i hi j hj
  rw [mem_interval] at hi hj
  omega

/-- Two kept entries of a stream lie in different places. -/
theorem place_ne {n i j : ℤ} (hwindow : 0 ≤ policy.window)
    (hcap : policy.sink - sourceLen ≤ sinkCapacity) (hi : i < policy.sink ∨ n - policy.window ≤ i)
    (hij : i < j) (hj : j < n) :
    place policy sourceLen sinkCapacity i ≠ place policy sourceLen sinkCapacity j := by
  unfold place
  by_cases his : i < policy.sink
  · rw [if_pos his]
    by_cases hjs : j < policy.sink
    · rw [if_pos hjs]
      omega
    · have hring : 0 ≤ (j - policy.sink) % policy.window := by
        rcases Int.lt_or_eq_of_le hwindow with hw | hw
        · exact Int.emod_nonneg _ (by omega)
        · rw [← hw, Int.emod_zero]
          omega
      rw [if_neg hjs]
      omega
  · have hw : 0 < policy.window := by omega
    rw [if_neg his, if_neg (by omega)]
    intro heq
    have hsame : (j - policy.sink) % policy.window = (i - policy.sink) % policy.window := by omega
    have hturn := Int.emod_eq_emod_iff_emod_sub_eq_zero.1 hsame
    have hdiff : j - policy.sink - (i - policy.sink) = j - i := by omega
    rw [hdiff, Int.emod_eq_of_lt (by omega) (by omega)] at hturn
    omega

/-- A kept entry lies in the slot. -/
theorem place_mem {n i windowCapacity : ℤ} (hwindow : 0 ≤ policy.window)
    (hcap : policy.sink - sourceLen ≤ sinkCapacity) (hcap' : policy.window ≤ windowCapacity)
    (hsinkCap : 0 ≤ sinkCapacity) (hsource : sourceLen ≤ i)
    (hi : i < policy.sink ∨ n - policy.window ≤ i) (hn : i < n) :
    0 ≤ place policy sourceLen sinkCapacity i ∧
      place policy sourceLen sinkCapacity i < sinkCapacity + windowCapacity := by
  unfold place
  split
  · omega
  · have hw : 0 < policy.window := by omega
    have hlow := Int.emod_nonneg (i - policy.sink) (by omega : policy.window ≠ 0)
    have hhigh := Int.emod_lt_of_pos (i - policy.sink) hw
    omega

end Writes

/-- How far a step looks back: the window, less the step's own tokens if the
window counts them. -/
def lookBack (span : ℤ) (policy : SinkWindow) : ℤ :=
  if policy.windowIncludesStep then policy.window - span else policy.window

/-- The entries that a step reads: the first ones, then the last ones. -/
def retained (n span : ℤ) (policy : SinkWindow) : List ℤ :=
  interval 0 (min policy.sink n) ++
    interval (max policy.sink (n - lookBack span policy))
      (n - max policy.sink (n - lookBack span policy))

section Reads

variable {sourceLen written span sinkCapacity : ℤ} {policy : SinkWindow}
  {α : Type} {source : ℤ → α} {cells : Cells α}

/-- What is read from the source. -/
theorem readRange_source {start count : ℤ} :
    readRange source cells ((start, count), true) =
      (interval start count).map fun p => some (p, source p) := rfl

/-- And from the slot. -/
theorem readRange_slot {start count : ℤ} :
    readRange source cells ((start, count), false) = (interval start count).map cells := rfl

/-- Ranges of the ring in the slot. -/
def ringReads (sinkCapacity : ℤ) (wrapped : List (ℤ × ℤ)) : List (ℤ × ℤ) :=
  wrapped.map (fun r => (sinkCapacity + r.1, r.2)) ++ List.replicate (2 - wrapped.length) (0, 0)

/-- What the two ranges of the ring, used or not, are read as. -/
theorem ring_gathered (sourceLen : ℤ) {first count : ℤ} (hwindow : 0 ≤ policy.window)
    (hcount : count ≤ policy.window) (hsink : policy.sink ≤ first) :
    ((ringReads sinkCapacity (ringRanges (first - policy.sink) count policy.window)).zip
      [false, false]).flatMap (readRange source cells) =
    (interval first count).map fun i => cells (place policy sourceLen sinkCapacity i) := by
  have hplace : ∀ i, first ≤ i → place policy sourceLen sinkCapacity i =
      sinkCapacity + (i - policy.sink) % policy.window := by
    intro i hi
    unfold place
    rw [if_neg (by omega)]
  have hnothing : count ≤ 0 → ((ringReads sinkCapacity []).zip [false, false]).flatMap
      (readRange source cells) =
      (interval first count).map fun i => cells (place policy sourceLen sinkCapacity i) := by
    intro hnone
    rw [interval_of_nonpos hnone]
    rfl
  rcases Int.lt_or_eq_of_le hwindow with hw | hw
  · rcases ringRanges_cases (first - policy.sink) hw hcount with
      ⟨hnone, hranges⟩ | ⟨hsome, start, hstart, hfits, hranges, hpos⟩ |
      ⟨start, head, hstart, hhead, hrest, hwrap, hranges, hbefore, hbehind⟩
    · rw [hranges, hnothing hnone]
    · rw [hranges]
      change readRange source cells ((sinkCapacity + start, count), false) ++
        (readRange source cells ((0, 0), false) ++ []) = _
      rw [readRange_slot, readRange_slot, interval_of_nonpos (Int.le_refl 0), List.map_nil,
        List.append_nil, List.append_nil]
      apply map_interval
      intro j hj hjlt
      have hat := hpos j hj hjlt
      have hsame : first - policy.sink + j = first + j - policy.sink := by omega
      rw [hplace (first + j) (by omega), ← hsame, hat]
      congr 1
      omega
    · rw [hranges]
      change readRange source cells ((sinkCapacity + start, head), false) ++
        (readRange source cells ((sinkCapacity + 0, count - head), false) ++ []) = _
      have hcut := interval_cut first (by omega : 0 ≤ head) (by omega : head ≤ count)
      rw [readRange_slot, readRange_slot, List.append_nil, hcut, List.map_append]
      congr 1
      · apply map_interval
        intro j hj hjlt
        have hat := hbefore j hj hjlt
        have hsame : first - policy.sink + j = first + j - policy.sink := by omega
        rw [hplace (first + j) (by omega), ← hsame, hat]
        congr 1
        omega
      · apply map_interval
        intro j hj hjlt
        have hat := hbehind j hj hjlt
        have hsame : first - policy.sink + head + j = first + head + j - policy.sink := by omega
        rw [hplace (first + head + j) (by omega), ← hsame, hat]
        congr 1
        omega
  · have hnone : count ≤ 0 := by omega
    have hranges : ringRanges (first - policy.sink) count policy.window = [] := by
      unfold ringRanges
      rw [if_pos hnone]
    rw [hranges, hnothing hnone]

/-- The window that a step reads is after the sink, and at most the window itself back. -/
theorem le_windowFrom (n : ℤ) {span : ℤ} (policy : SinkWindow) (hspan : 0 ≤ span) :
    policy.sink ≤ windowFrom n span policy ∧ n - policy.window ≤ windowFrom n span policy := by
  unfold windowFrom
  split <;> omega

/-- The ranges of a row read the retained entries, each once and in order, when
those written lie at their places. -/
theorem gather_eq {reverse : Bool} {entryAt : ℤ → Option (ℤ × α)} (hsource : 0 ≤ sourceLen)
    (hwritten : 0 ≤ written) (hspan : 0 ≤ span) (hsink : 0 ≤ policy.sink)
    (hwindow : 0 ≤ policy.window)
    (hgiven : ∀ i, 0 ≤ i → i < sourceLen → entryAt i = some (i, source i))
    (hcells : ∀ i, sourceLen ≤ i → i < sourceLen + written →
      (i < policy.sink ∨ sourceLen + written - policy.window ≤ i) →
      cells (place policy sourceLen sinkCapacity i) = entryAt i) :
    gather source cells (rowLayout sourceLen written span policy sinkCapacity reverse) =
      (retained (sourceLen + written) span policy).map entryAt := by
  have hlo := le_windowFrom (sourceLen + written) policy hspan
  have hunfold : gather source cells
      (rowLayout sourceLen written span policy sinkCapacity reverse) =
      readRange source cells ((0, min policy.sink sourceLen), true) ++
      (readRange source cells
        ((0, max 0 (min policy.sink (sourceLen + written) - sourceLen)), false) ++
      (readRange source cells ((windowFrom (sourceLen + written) span policy,
        max 0 (sourceLen - windowFrom (sourceLen + written) span policy)), true) ++
      ((ringReads sinkCapacity (ringRanges
          (max (windowFrom (sourceLen + written) span policy) sourceLen - policy.sink)
          (sourceLen + written - max (windowFrom (sourceLen + written) span policy) sourceLen)
          policy.window)).zip [false, false]).flatMap (readRange source cells))) := rfl
  change _ = List.map entryAt (interval 0 (min policy.sink (sourceLen + written)) ++
    interval (windowFrom (sourceLen + written) span policy)
      (sourceLen + written - windowFrom (sourceLen + written) span policy))
  generalize windowFrom (sourceLen + written) span policy = lo at hlo hunfold ⊢
  have hfirst : interval 0 (min policy.sink (sourceLen + written)) =
      interval 0 (min policy.sink sourceLen) ++
        interval sourceLen (max 0 (min policy.sink (sourceLen + written) - sourceLen)) := by
    rcases Int.le_total policy.sink sourceLen with hle | hle
    · have hrest : max 0 (min policy.sink (sourceLen + written) - sourceLen) ≤ 0 := by omega
      rw [interval_of_nonpos hrest, List.append_nil]
      congr 1
      omega
    · have hcut : min policy.sink (sourceLen + written) =
          sourceLen + max 0 (min policy.sink (sourceLen + written) - sourceLen) := by omega
      have hall : min policy.sink sourceLen = sourceLen := by omega
      have hstart : (0 : ℤ) + sourceLen = sourceLen := Int.zero_add _
      conv_lhs => rw [hcut, interval_append hsource (by omega), hstart]
      rw [hall]
  have hlast : interval lo (sourceLen + written - lo) =
      interval lo (max 0 (sourceLen - lo)) ++
        interval (max lo sourceLen) (sourceLen + written - max lo sourceLen) := by
    rcases Int.le_total sourceLen lo with hle | hle
    · have hnone : max 0 (sourceLen - lo) ≤ 0 := by omega
      have hall : max lo sourceLen = lo := by omega
      rw [interval_of_nonpos hnone, hall]
      rfl
    · have hcut : sourceLen + written - lo = max 0 (sourceLen - lo) + written := by omega
      have hall : max lo sourceLen = lo + max 0 (sourceLen - lo) := by omega
      have hrest : sourceLen + written - max lo sourceLen = written := by omega
      rw [hrest, hall, hcut, interval_append (by omega) hwritten]
  rw [hunfold, ring_gathered sourceLen hwindow (by omega) (by omega),
    readRange_source, readRange_slot, readRange_source, hfirst, hlast, List.map_append,
    List.map_append, List.append_assoc]
  congr 1
  · apply List.map_congr_left
    intro i hi
    rw [mem_interval] at hi
    exact (hgiven i hi.1 (by omega)).symm
  · congr 1
    · apply map_interval
      intro j hj hjlt
      rw [← hcells (sourceLen + j) (by omega) (by omega) (.inl (by omega))]
      unfold place
      rw [if_pos (by omega)]
      congr 1
      omega
    · rw [List.map_append]
      congr 1
      · apply List.map_congr_left
        intro i hi
        rw [mem_interval] at hi
        exact (hgiven i (by omega) (by omega)).symm
      · apply List.map_congr_left
        intro i hi
        rw [mem_interval] at hi
        exact hcells i (by omega) (by omega) (.inr (by omega))

end Reads

end Mstar.BoundedKV
