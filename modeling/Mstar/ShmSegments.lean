import Mstar.ShmRanges

/-!
# Growing by segments

Every segment keeps its own books, so a range of the arena is a segment and a
range in it. Growing adds a segment sized to what is asked for, and what fails
to grow leaves the segments as they were.
-/

namespace Mstar.Shm

open FreeLists
open Allocator (Granted)

namespace SegmentedShmArena

variable {s s' : SegmentedShmArena} {segs segs' : List ShmArena} {n i off now : ℕ}
  {backing : Backing}

/-- What `reserveIn` found: the first segment with room, and no other changed. -/
theorem reserveIn_eq_some (h : reserveIn n segs = some (i, off, segs')) :
    ∃ pre seg post a, segs = pre ++ seg :: post ∧ pre.length = i ∧
      seg.alloc.alloc n = (some off, a) ∧ segs' = pre ++ { seg with alloc := a } :: post := by
  induction segs generalizing i segs' with
  | nil => cases h
  | cons seg segs ih =>
    unfold reserveIn ShmArena.reserve at h
    cases halloc : seg.alloc.alloc n with
    | mk found a =>
      rw [halloc] at h
      cases found with
      | some o =>
        cases h
        exact ⟨[], seg, segs, a, rfl, rfl, halloc, rfl⟩
      | none =>
        dsimp only at h
        obtain ⟨⟨j, o, rest⟩, hfound, heq⟩ := Option.map_eq_some_iff.1 h
        cases heq
        obtain ⟨pre, t, post, b, rfl, rfl, ht, rfl⟩ := ih hfound
        exact ⟨seg :: pre, t, post, b, rfl, rfl, ht, rfl⟩

/-- Nothing was found: no segment has room. -/
theorem reserveIn_eq_none : reserveIn n segs = none ↔
    ∀ seg ∈ segs, (seg.alloc.alloc n).1 = none := by
  induction segs with
  | nil => simp [reserveIn]
  | cons seg segs ih =>
    unfold reserveIn ShmArena.reserve
    rw [List.forall_mem_cons]
    cases halloc : seg.alloc.alloc n with
    | mk found a =>
      cases found with
      | some o => simp
      | none =>
        dsimp only
        rw [Option.map_eq_none_iff, ih]
        simp

/-- The blocks live in a segment. -/
def liveAt (s : SegmentedShmArena) (i : ℕ) : List Piece :=
  ((s.segments[i]?).map fun seg => seg.alloc.live).getD []

/-- A segment is added: none has room, more are allowed, no failed growth stands
in the way, and the file is made. -/
def Grows (s : SegmentedShmArena) (n now : ℕ) (backing : Backing) : Prop :=
  (∀ seg ∈ s.segments, (seg.alloc.alloc n).1 = none) ∧ s.segments.length < s.maxSegments ∧
    s.notRetried (s.growthSize n) now = none ∧
    ∃ seg, ShmArena.create (s.shmPath (s.segmentName s.segments.length)) (s.growthSize n) backing =
      .ok seg

/-- Every segment is sound. -/
def Sound (s : SegmentedShmArena) : Prop := ∀ seg ∈ s.segments, seg.alloc.Sound seg.len

/-- What is asked of an arena; sizes are machine words. -/
inductive Op where
  | reserve (nbytes : UInt64) (now : ℕ) (backing : Backing)
  | free (segment offset : ℕ)
  deriving DecidableEq

/-- The arena after a call. -/
def after (s : SegmentedShmArena) : Op → SegmentedShmArena
  | .reserve nbytes now backing => (s.reserve nbytes.toNat now backing).2
  | .free segment offset => (s.free segment offset).2

/-- A reserve is answered as it should be. What is granted lies in one segment
and shares nothing with what is live there; an error leaves every segment as it
was, and none of them had room; a segment just added has room. -/
def ReserveAnswered (s : SegmentedShmArena) (n now : ℕ) (backing : Backing) : Prop :=
  (match s.reserve n now backing with
    | (.ok (i, off), s') => Granted (s.liveAt i) (s'.liveAt i) n off ∧
        ∀ j ≠ i, s'.segments[j]? = s.segments[j]?
    | (.error _, s') => s'.segments = s.segments ∧
        ∀ seg ∈ s.segments, ∀ p ∈ seg.alloc.free, p.nbytes < alignedSize n) ∧
  (s.Grows n now backing → (s.reserve n now backing).1 = .ok (s.segments.length, 0))

/-- A free is answered as it should be. -/
def FreeAnswered (s : SegmentedShmArena) (segment offset : ℕ) : Prop :=
  match s.free segment offset with
  | (true, s') => (∃ p ∈ s.liveAt segment, p.offset = offset) ∧
      (∀ p ∈ s'.liveAt segment, p.offset ≠ offset) ∧
      ∀ j ≠ segment, s'.segments[j]? = s.segments[j]?
  | (false, s') => s' = s ∧ ∀ p ∈ s.liveAt segment, p.offset ≠ offset

/-- A call is answered as it should be. -/
def Answered (s : SegmentedShmArena) : Op → Prop
  | .reserve nbytes now backing => s.ReserveAnswered nbytes.toNat now backing
  | .free segment offset => s.FreeAnswered segment offset

/-- Every state passed is sound and every call answered as it should be. -/
def Serves (s : SegmentedShmArena) : List Op → Prop
  | [] => s.Sound
  | op :: ops => s.Sound ∧ s.Answered op ∧ (s.after op).Serves ops

/-- A size that wraps meets no free block and no new segment. -/
def Fits (s : SegmentedShmArena) : Op → Prop
  | .reserve nbytes now backing => Rounds nbytes.toNat ∨
      ((∀ seg ∈ s.segments, seg.alloc.free = []) ∧ ¬ s.Grows nbytes.toNat now backing)
  | .free _ _ => True

/-- So it is at every call. -/
def AllFit (s : SegmentedShmArena) : List Op → Prop
  | [] => True
  | op :: ops => s.Fits op ∧ (s.after op).AllFit ops

/-- The books of an arena: those of its segments. -/
structure Inv (s : SegmentedShmArena) : Prop where
  pos : 0 < s.segmentSize
  books : ∀ seg ∈ s.segments, seg.alloc.Inv seg.len

/-- The books are sound. -/
theorem Inv.sound (h : s.Inv) : s.Sound := fun seg hseg => (h.books seg hseg).sound

/-- A segment that was created is one free block. -/
theorem create_eq_ok {path : String} {size : ℕ} {seg : ShmArena}
    (h : ShmArena.create path size backing = .ok seg) :
    seg = ⟨size, Allocator.new size⟩ ∧ 0 < size := by
  unfold ShmArena.create at h
  split at h
  · cases h
  · next hsize =>
    cases backing <;> cases h
    exact ⟨rfl, by omega⟩

/-- A new segment has room, at its start, for what it was sized for. -/
theorem alloc_new {size : ℕ} (h : alignUp (max n 1) ≤ size) :
    ∃ a, (Allocator.new size).alloc n = (some 0, a) := by
  rcases Allocator.alloc_cases (Allocator.new size) n with ⟨block, rest, hfit, hblock⟩ | ⟨hfit, -⟩
  · have hzero : block.offset = 0 := by
      obtain ⟨pre, free, post, hsplit, -, rfl, -⟩ := firstFit_eq_some hfit
      have hmem : free ∈ [(⟨0, size⟩ : Piece)] := by
        change free ∈ (Allocator.new size).free
        rw [hsplit]
        simp
      rw [List.mem_singleton.1 hmem]
    rw [hblock, hzero]
    exact ⟨_, rfl⟩
  · have hshort := firstFit_eq_none.1 hfit ⟨0, size⟩ List.mem_cons_self
    dsimp only at hshort
    omega

/-- What `reserve` does: a range of a segment there is, a range of a new one, or
an error that leaves the segments as they were. -/
theorem reserve_cases (s : SegmentedShmArena) (n now : ℕ) (backing : Backing) :
    (∃ pre seg post off a, s.segments = pre ++ seg :: post ∧
      seg.alloc.alloc n = (some off, a) ∧ s.reserve n now backing =
        (.ok (pre.length, off), { s with segments := pre ++ { seg with alloc := a } :: post })) ∨
    (s.Grows n now backing ∧ ∃ failed a,
      (Allocator.new (s.growthSize n)).alloc n = (some 0, a) ∧
      s.reserve n now backing = (.ok (s.segments.length, 0),
        { s with failedGrowth := failed, segments := s.segments ++ [⟨s.growthSize n, a⟩] })) ∨
    ((∀ seg ∈ s.segments, (seg.alloc.alloc n).1 = none) ∧ ¬ s.Grows n now backing ∧
      ∃ e failed, s.reserve n now backing = (.error e, { s with failedGrowth := failed })) := by
  unfold reserve
  cases hin : reserveIn n s.segments with
  | some found =>
    obtain ⟨i, off, segs⟩ := found
    obtain ⟨pre, seg, post, a, hsegs, rfl, halloc, rfl⟩ := reserveIn_eq_some hin
    exact .inl ⟨pre, seg, post, off, a, hsegs, halloc, rfl⟩
  | none =>
    right
    have hnone := reserveIn_eq_none.1 hin
    dsimp only
    split
    · next hfull =>
      have hnot : ¬ s.Grows n now backing := fun h => by
        have := h.2.1
        omega
      exact .inr ⟨hnone, hnot, _, s.failedGrowth, rfl⟩
    · next hmore =>
      cases hretry : s.notRetried (s.growthSize n) now with
      | some f =>
        have hnot : ¬ s.Grows n now backing := fun h => by
          have := h.2.2.1
          rw [hretry] at this
          cases this
        exact .inr ⟨hnone, hnot, _, s.failedGrowth, rfl⟩
      | none =>
        dsimp only
        cases hcreate : ShmArena.create (s.shmPath (s.segmentName s.segments.length))
            (s.growthSize n) backing with
        | error e =>
          have hnot : ¬ s.Grows n now backing := by
            rintro ⟨-, -, -, seg, hseg⟩
            rw [hcreate] at hseg
            cases hseg
          right
          cases e with
          | noSpace path size source =>
            exact ⟨hnone, hnot, _, some ⟨s.growthSize n, now, source⟩, rfl⟩
          | zeroSize => exact ⟨hnone, hnot, _, s.failedGrowth, rfl⟩
          | full need free total => exact ⟨hnone, hnot, _, s.failedGrowth, rfl⟩
          | lowSpace path size free => exact ⟨hnone, hnot, _, s.failedGrowth, rfl⟩
          | io path source => exact ⟨hnone, hnot, _, s.failedGrowth, rfl⟩
        | ok seg =>
          left
          have hseg : seg = ⟨s.growthSize n, Allocator.new (s.growthSize n)⟩ := (create_eq_ok hcreate).1
          have hroom : alignUp (max n 1) ≤ s.growthSize n := Nat.le_max_right _ _
          obtain ⟨a, hfresh⟩ := alloc_new hroom
          refine ⟨⟨hnone, by omega, hretry, seg, hcreate⟩, ?_⟩
          subst hseg
          refine ⟨s.failedGrowth.filter fun f => s.growthSize n < f.size, a, hfresh, ?_⟩
          unfold ShmArena.reserve
          dsimp only
          rw [hfresh]

/-- The blocks live in a segment among others. -/
theorem liveAt_append {pre post : List ShmArena} {seg : ShmArena}
    (h : s.segments = pre ++ seg :: post) : s.liveAt pre.length = seg.alloc.live := by
  unfold liveAt
  rw [h, List.getElem?_append_right (Nat.le_refl _), Nat.sub_self]
  rfl

/-- Nothing is live behind the last segment. -/
theorem liveAt_length : s.liveAt s.segments.length = [] := by
  unfold liveAt
  rw [List.getElem?_eq_none (Nat.le_refl _)]
  rfl

/-- What is live in a segment just added. -/
theorem liveAt_added (failed : Option FailedGrowth) (seg : ShmArena) :
    ({ s with failedGrowth := failed, segments := s.segments ++ [seg] } :
      SegmentedShmArena).liveAt s.segments.length = seg.alloc.live := by
  unfold liveAt
  dsimp only
  rw [List.getElem?_concat_length]
  rfl

/-- Replacing one segment leaves the others. -/
theorem getElem?_replaced {pre post : List ShmArena} {seg seg' : ShmArena} {j : ℕ}
    (hj : j ≠ pre.length) : (pre ++ seg' :: post)[j]? = (pre ++ seg :: post)[j]? := by
  rcases Nat.lt_or_gt_of_ne hj with hlt | hgt
  · rw [List.getElem?_append_left hlt, List.getElem?_append_left hlt]
  · obtain ⟨k, rfl⟩ : ∃ k, j = pre.length + (k + 1) := ⟨j - pre.length - 1, by omega⟩
    rw [List.getElem?_append_right (Nat.le_add_right _ _),
      List.getElem?_append_right (Nat.le_add_right _ _), Nat.add_sub_cancel_left,
      List.getElem?_cons_succ, List.getElem?_cons_succ]

/-- Books with one segment's replaced by books that are kept. -/
theorem Inv.replaced {pre post : List ShmArena} {seg : ShmArena} {a : Allocator} (h : s.Inv)
    (hsegs : s.segments = pre ++ seg :: post) (ha : a.Inv seg.len) :
    ({ s with segments := pre ++ { seg with alloc := a } :: post } : SegmentedShmArena).Inv where
  pos := h.pos
  books := by
    intro t ht
    rcases List.mem_append.1 ht with ht | ht
    · exact h.books t (hsegs ▸ List.mem_append_left _ ht)
    · rcases List.mem_cons.1 ht with rfl | ht
      · exact ha
      · exact h.books t (hsegs ▸ List.mem_append_right _ (List.mem_cons_of_mem _ ht))

/-- A reserve whose size does not wrap keeps the books and is answered as it
should be. -/
theorem Inv.reserve (h : s.Inv)
    (hn : Rounds n ∨ ((∀ seg ∈ s.segments, seg.alloc.free = []) ∧ ¬ s.Grows n now backing)) :
    (s.reserve n now backing).2.Inv ∧ s.ReserveAnswered n now backing := by
  unfold ReserveAnswered
  rcases reserve_cases s n now backing with
    ⟨pre, seg, post, off, a, hsegs, halloc, heq⟩ | ⟨hgrows, failed, a, hfresh, heq⟩ |
    ⟨hnone, hnot, e, failed, heq⟩
  · have hseg : seg ∈ s.segments := hsegs ▸ by simp
    have hnogrow : ¬ s.Grows n now backing := fun hg => by
      have := hg.1 seg hseg
      rw [halloc] at this
      cases this
    have hrounds : Rounds n := by
      rcases hn with hn | ⟨hfree, -⟩
      · exact hn
      · rcases Allocator.alloc_cases seg.alloc n with ⟨block, rest, hfit, -⟩ | ⟨-, hrefused⟩
        · rw [hfree seg hseg] at hfit
          cases hfit
        · rw [hrefused] at halloc
          cases halloc
    obtain ⟨hinv, hgranted⟩ := (h.books seg hseg).alloc hrounds halloc
    rw [heq]
    refine ⟨h.replaced hsegs hinv, ⟨?_, ?_⟩, fun hg => absurd hg hnogrow⟩
    · rw [liveAt_append hsegs, liveAt_append (s := { s with segments := _ }) rfl]
      exact hgranted
    · intro j hj
      rw [hsegs]
      exact getElem?_replaced hj
  · have hrounds : Rounds n := by
      rcases hn with hn | ⟨-, hnogrow⟩
      · exact hn
      · exact absurd hgrows hnogrow
    have hpos : 0 < s.growthSize n := Nat.lt_of_lt_of_le h.pos (Nat.le_max_left _ _)
    obtain ⟨hinv, hgranted⟩ := (Allocator.inv_new hpos).alloc hrounds hfresh
    rw [heq]
    refine ⟨⟨h.pos, ?_⟩, ⟨?_, ?_⟩, fun _ => rfl⟩
    · intro t ht
      rcases List.mem_append.1 ht with ht | ht
      · exact h.books t ht
      · rw [List.mem_singleton.1 ht]
        exact hinv
    · rw [liveAt_length, liveAt_added]
      exact hgranted
    · intro j hj
      rcases Nat.lt_or_gt_of_ne hj with hlt | hgt
      · exact List.getElem?_append_left hlt
      · rw [List.getElem?_eq_none (by rw [List.length_append, List.length_singleton]; omega),
          List.getElem?_eq_none (by omega)]
  · rw [heq]
    refine ⟨⟨h.pos, h.books⟩, ⟨rfl, ?_⟩, fun hg => absurd hg hnot⟩
    intro seg hseg
    apply Allocator.alloc_refused _ (hnone seg hseg)
    rcases hn with hn | ⟨hfree, -⟩
    · exact .inl hn
    · exact .inr (hfree seg hseg)

/-- A reserve whose size wraps is answered with a range too short, unless
nothing is free and no segment is added. -/
theorem not_reserveAnswered (hn : ¬ Rounds n) (hlt : n < USIZE)
    (hnot : ¬ ((∀ seg ∈ s.segments, seg.alloc.free = []) ∧ ¬ s.Grows n now backing)) :
    ¬ s.ReserveAnswered n now backing := by
  unfold ReserveAnswered
  rcases reserve_cases s n now backing with
    ⟨pre, seg, post, off, a, hsegs, halloc, heq⟩ | ⟨hgrows, failed, a, hfresh, heq⟩ |
    ⟨hnone, hnogrow, e, failed, heq⟩
  · rw [heq]
    rintro ⟨⟨hgranted, -⟩, -⟩
    rw [liveAt_append hsegs, liveAt_append (s := { s with segments := _ }) rfl] at hgranted
    exact Allocator.not_granted hn hlt halloc hgranted
  · rw [heq]
    rintro ⟨⟨hgranted, -⟩, -⟩
    rw [liveAt_length, liveAt_added] at hgranted
    exact Allocator.not_granted hn hlt hfresh hgranted
  · refine absurd ⟨?_, hnogrow⟩ hnot
    intro seg hseg
    by_contra hfree
    obtain ⟨off, rest, halloc⟩ := Allocator.alloc_wrapped hn hlt hfree
    have := hnone seg hseg
    rw [halloc] at this
    cases this

/-- A free keeps the books and is answered as it should be. -/
theorem Inv.free (h : s.Inv) (segment offset : ℕ) :
    (s.free segment offset).2.Inv ∧ s.FreeAnswered segment offset := by
  unfold FreeAnswered SegmentedShmArena.free
  cases hat : s.segments[segment]? with
  | none =>
    refine ⟨h, rfl, ?_⟩
    unfold liveAt
    rw [hat]
    intro p hp
    cases hp
  | some seg =>
    obtain ⟨hlt, hseg⟩ := List.getElem?_eq_some_iff.1 hat
    obtain ⟨pre, post, hsegs, rfl⟩ : ∃ pre post, s.segments = pre ++ seg :: post ∧
        pre.length = segment := by
      refine ⟨s.segments.take segment, s.segments.drop (segment + 1), ?_, ?_⟩
      · rw [← hseg, ← List.drop_eq_getElem_cons, List.take_append_drop]
      · rw [List.length_take]
        omega
    have hmem : seg ∈ s.segments := hsegs ▸ by simp
    have hinv := (h.books seg hmem).dealloc offset
    unfold ShmArena.free
    dsimp only
    rw [hsegs, List.set_append_right _ _ (Nat.le_refl _), Nat.sub_self, List.set_cons_zero]
    refine ⟨h.replaced hsegs hinv, ?_⟩
    rcases Allocator.dealloc_cases seg.alloc offset with
      ⟨block, hblock, hoff, hfreed⟩ | ⟨hunknown, hsame⟩
    · rw [hfreed]
      dsimp only
      rw [liveAt_append hsegs, liveAt_append (s := { s with segments := _ }) rfl]
      refine ⟨⟨block, hblock, hoff⟩, ?_, ?_⟩
      · intro p hp
        simpa using (List.mem_filter.1 hp).2
      · intro j hj
        exact getElem?_replaced hj
    · rw [hsame]
      dsimp only
      rw [liveAt_append hsegs]
      refine ⟨?_, hunknown⟩
      rw [← hsegs]

/-- One call that fits, from books that are kept. -/
theorem Inv.after {op : Op} (h : s.Inv) (hfits : s.Fits op) :
    (s.after op).Inv ∧ s.Answered op := by
  cases op with
  | reserve nbytes now backing => exact h.reserve hfits
  | free segment offset => exact h.free segment offset

/-- From books that are kept every call is answered as it should be exactly if
every call fits. -/
theorem Inv.serves (h : s.Inv) (ops : List Op) : s.Serves ops ↔ s.AllFit ops := by
  induction ops generalizing s with
  | nil => exact ⟨fun _ => trivial, fun _ => h.sound⟩
  | cons op ops ih =>
    constructor
    · rintro ⟨-, hanswered, hrest⟩
      have hfits : s.Fits op := by
        cases op with
        | reserve nbytes now backing =>
          by_contra hnot
          exact not_reserveAnswered (fun hn => hnot (.inl hn)) nbytes.toNat_lt
            (fun hfree => hnot (.inr hfree)) hanswered
        | free segment offset => trivial
      exact ⟨hfits, (ih (h.after hfits).1).1 hrest⟩
    · rintro ⟨hfits, hrest⟩
      obtain ⟨hinv, hanswered⟩ := h.after hfits
      exact ⟨h.sound, hanswered, (ih hinv).2 hrest⟩

/-- A new arena has its books in order. -/
theorem inv_create {base : String} {segmentSize maxSegments : ℕ} {devShm : Bool}
    (h : create base segmentSize maxSegments devShm backing = .ok s) : s.Inv := by
  unfold create at h
  split at h
  · cases h
  · next hsizes =>
    dsimp only at h
    split at h
    · cases h
    · next first hcreate =>
      cases h
      obtain ⟨rfl, hpos⟩ := create_eq_ok hcreate
      refine ⟨hpos, ?_⟩
      intro seg hseg
      rw [List.mem_singleton.1 hseg]
      exact Allocator.inv_new hpos

end SegmentedShmArena

/-- A segment, and an arena that grows by segments, hand out ranges that share
nothing: in every sequence of reserves and frees the free blocks are in order
and make up the segment with the live ones, what is granted is aligned and long
enough, and what is refused has no room. They do exactly if every size that
wraps when it is rounded up meets no free block and no new segment. -/
theorem ranges_disjoint (path : String) (size : ℕ) (base : String)
    (segmentSize maxSegments : ℕ) (devShm : Bool) (backing : Backing) :
    (∀ seg, ShmArena.create path size backing = .ok seg → ∀ ops,
      seg.alloc.Serves seg.len ops ↔ seg.alloc.AllFit ops) ∧
    ∀ s, SegmentedShmArena.create base segmentSize maxSegments devShm backing = .ok s →
      ∀ ops, s.Serves ops ↔ s.AllFit ops := by
  constructor
  · intro seg h ops
    obtain ⟨rfl, hpos⟩ := SegmentedShmArena.create_eq_ok h
    exact (Allocator.inv_new hpos).serves ops
  · intro s h ops
    exact (SegmentedShmArena.inv_create h).serves ops

/-- A segment of 1024 bytes, and an arena of such segments. -/
theorem ranges_disjoint_kib :
    ((Allocator.new 1024).Serves 1024 [.reserve 200, .reserve 200, .free 0, .free 0, .free 256] ↔
      (Allocator.new 1024).AllFit [.reserve 200, .reserve 200, .free 0, .free 0, .free 256]) ∧
    ((⟨"a", 1024, 2, [⟨1024, Allocator.new 1024⟩], none, true⟩ : SegmentedShmArena).Serves
        [.reserve 900 0 .mapped, .reserve 900 0 .mapped] ↔
      (⟨"a", 1024, 2, [⟨1024, Allocator.new 1024⟩], none, true⟩ : SegmentedShmArena).AllFit
        [.reserve 900 0 .mapped, .reserve 900 0 .mapped]) :=
  ⟨(ranges_disjoint "/dev/shm/a" 1024 "a" 1024 2 true .mapped).1
      ⟨1024, Allocator.new 1024⟩ rfl _,
    (ranges_disjoint "/dev/shm/a" 1024 "a" 1024 2 true .mapped).2 _ rfl _⟩

/-- The last word rounds up to nothing: the reserve is granted a block of no
bytes at an offset that the next one is granted as well, and a free by the first
holder frees the second's. -/
theorem last_word_wraps :
    ¬ (Allocator.new 1024).Serves 1024 [.reserve 18446744073709551615] ∧
    (Allocator.new 1024).alloc 18446744073709551615 = (some 0, ⟨[⟨0, 1024⟩], [⟨0, 0⟩]⟩) ∧
    (Allocator.alloc ⟨[⟨0, 1024⟩], [⟨0, 0⟩]⟩ 256) = (some 0, ⟨[⟨256, 768⟩], [⟨0, 256⟩]⟩) ∧
    (Allocator.dealloc ⟨[⟨256, 768⟩], [⟨0, 256⟩]⟩ 0) = (true, ⟨[⟨0, 1024⟩], []⟩) := by
  refine ⟨?_, by decide, by decide, by decide⟩
  rw [(Allocator.inv_new (by decide : 0 < 1024)).serves]
  rintro ⟨hfits, -⟩
  have hnot : ¬ (Rounds (18446744073709551615 : UInt64).toNat ∨
      (Allocator.new 1024).free = []) := by decide
  exact hnot hfits

end Mstar.Shm
