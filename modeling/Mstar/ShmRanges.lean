import Mstar.ShmArena

/-!
# What the arena hands out

An allocator's free and live blocks make up its segment, under every sequence
of reserves and frees whose sizes can be rounded up in a machine word. Above
that a reserve is given a block of no bytes.
-/

namespace Mstar.Shm

open FreeLists

/-- The size of a block for some bytes, without a bound on it. -/
def alignedSize (n : ℕ) : ℕ := (max n 1 + 255) / 256 * 256

/-- A size can be rounded up in a machine word. -/
def Rounds (n : ℕ) : Prop := n ≤ USIZE - ALIGN

instance (n : ℕ) : Decidable (Rounds n) := inferInstanceAs (Decidable (_ ≤ _))

/-- Then rounding up does not wrap. -/
theorem alignUp_of_rounds {n : ℕ} (h : Rounds n) : alignUp (max n 1) = alignedSize n := by
  unfold Rounds USIZE ALIGN at h
  unfold alignUp alignedSize ALIGN USIZE
  split <;> omega

/-- Otherwise it wraps to nothing. -/
theorem alignUp_of_not_rounds {n : ℕ} (h : ¬ Rounds n) (hn : n < USIZE) :
    alignUp (max n 1) = 0 := by
  unfold Rounds USIZE ALIGN at h
  unfold USIZE at hn
  unfold alignUp ALIGN USIZE
  split <;> omega

/-- It is a multiple of the line size either way. -/
theorem dvd_alignUp (n : ℕ) : 256 ∣ alignUp n := by
  unfold alignUp ALIGN USIZE
  omega

/-- A block for some bytes holds them. -/
theorem le_alignedSize (n : ℕ) : n ≤ alignedSize n := by
  unfold alignedSize
  omega

namespace Allocator

variable {a a' : Allocator} {n off size : ℕ} {p : Piece}

/-- What an allocator owes to those it serves. -/
structure Sound (a : Allocator) (size : ℕ) : Prop where
  /-- Free blocks are in order, none of them empty and no two adjacent. -/
  tidy : Tidy a.free
  /-- Every byte is in one block, free or live, and no other byte in any. -/
  parts : Partition size (a.free ++ a.live)
  disjoint : a.live.Pairwise Piece.Disjoint
  /-- With everything freed one block covers the segment. -/
  whole : a.live = [] → a.free = [⟨0, size⟩]

/-- The books of an allocator. -/
structure Inv (a : Allocator) (size : ℕ) : Prop where
  pos : 0 < size
  tidy : Tidy a.free
  solid : ∀ p ∈ a.live, 0 < p.nbytes
  parts : Partition size (a.free ++ a.live)
  freeAligned : ∀ p ∈ a.free, 256 ∣ p.offset
  aligned : ∀ p ∈ a.live, 256 ∣ p.offset

/-- An allocator whose books are kept owes nothing. -/
theorem Inv.sound (h : a.Inv size) : a.Sound size where
  tidy := h.tidy
  parts := h.parts
  disjoint := by
    have hall := pairwise_disjoint fun x => h.parts.le_one x
    exact (List.pairwise_append.1 hall).2.1
  whole := by
    intro hlive
    have hpart := h.parts
    rw [hlive, List.append_nil] at hpart
    exact h.tidy.whole hpart h.pos

/-- The books of a new segment. -/
theorem inv_new (h : 0 < size) : (new size).Inv size where
  pos := h
  tidy := ⟨List.pairwise_singleton _ _, by simpa [new] using h⟩
  solid := by
    intro p hp
    cases hp
  parts := by
    intro x
    change cover [⟨0, size⟩] x = if x < size then 1 else 0
    rw [cover_singleton]
    exact if_congr (by dsimp only; omega) rfl rfl
  freeAligned := by
    intro p hp
    rw [List.mem_singleton.1 hp]
    exact Nat.dvd_zero 256
  aligned := by
    intro p hp
    cases hp

/-- What `alloc` does: a block off the free ones, or nothing. -/
theorem alloc_cases (a : Allocator) (n : ℕ) :
    (∃ block rest, firstFit (alignUp (max n 1)) a.free = some (block, rest) ∧
      a.alloc n = (some block.offset,
        ⟨rest, block :: a.live.filter fun p => p.offset ≠ block.offset⟩)) ∨
    (firstFit (alignUp (max n 1)) a.free = none ∧ a.alloc n = (none, a)) := by
  unfold alloc
  cases hfit : firstFit (alignUp (max n 1)) a.free with
  | none => exact .inr ⟨rfl, rfl⟩
  | some found => exact .inl ⟨found.1, found.2, rfl, rfl⟩

/-- A range was granted: it is live, aligned, long enough and shares nothing
with what was live. -/
def Granted (live live' : List Piece) (n off : ℕ) : Prop :=
  ∃ block ∈ live', block.offset = off ∧ n ≤ block.nbytes ∧ 256 ∣ off ∧
    ∀ p ∈ live, p.Disjoint block

/-- Nothing else is live at the start of a block taken. -/
theorem Inv.filter_live {rest : List Piece} (h : a.Inv size)
    (hfit : firstFit n a.free = some (p, rest)) (hn : 0 < n) :
    (∀ q ∈ a.live, q.Disjoint p) ∧ a.live.filter (fun q => q.offset ≠ p.offset) = a.live := by
  have hp : p.nbytes = n := firstFit_nbytes hfit
  have hdisj : ∀ q ∈ a.live, q.Disjoint p := by
    rintro q hq x ⟨hqx, hpx⟩
    have hone := one_le_cover hq hqx
    have hthis : 1 ≤ cover [p] x := one_le_cover List.mem_cons_self hpx
    have hcover := firstFit_cover hfit x
    have hpart := h.parts.le_one x
    rw [cover_append] at hpart
    omega
  constructor
  · exact hdisj
  · rw [List.filter_eq_self]
    intro q hq
    have hside := (hdisj q hq).apart (h.solid q hq) (by omega)
    have hqpos := h.solid q hq
    have hne : q.offset ≠ p.offset := by
      unfold Piece.stop at hside
      omega
    simpa using hne

/-- A reserve whose size does not wrap keeps the books, and what it grants is
well granted. -/
theorem Inv.alloc (h : a.Inv size) (hn : Rounds n) (halloc : a.alloc n = (some off, a')) :
    a'.Inv size ∧ Granted a.live a'.live n off := by
  rcases alloc_cases a n with ⟨block, rest, hfit, hblock⟩ | ⟨-, hnone⟩
  · rw [hblock] at halloc
    cases halloc
    have hsize : alignUp (max n 1) = alignedSize n := alignUp_of_rounds hn
    have hpos : 0 < alignUp (max n 1) := by
      rw [hsize]
      unfold alignedSize
      omega
    have hbytes := firstFit_nbytes hfit
    have haligned := firstFit_aligned hfit (dvd_alignUp _) h.freeAligned
    obtain ⟨hdisj, hfilter⟩ := h.filter_live hfit hpos
    constructor
    · rw [hfilter]
      constructor
      · exact h.pos
      · exact firstFit_tidy hfit h.tidy
      · intro p hp
        rcases List.mem_cons.1 hp with rfl | hp
        · omega
        · exact h.solid p hp
      · intro x
        have hcover := firstFit_cover hfit x
        have hpart := h.parts x
        rw [cover_append] at hpart
        change cover (rest ++ block :: a.live) x = _
        rw [cover_append, cover_cons (l := a.live)]
        omega
      · exact haligned.2
      · intro p hp
        rcases List.mem_cons.1 hp with rfl | hp
        · exact haligned.1
        · exact h.aligned p hp
    · refine ⟨block, List.mem_cons_self, rfl, ?_, haligned.1, hdisj⟩
      rw [hbytes, hsize]
      exact le_alignedSize n
  · rw [hnone] at halloc
    cases halloc

/-- A reserve is refused only if no free block holds the aligned size. -/
theorem alloc_refused (hn : Rounds n ∨ a.free = []) (halloc : (a.alloc n).1 = none) :
    ∀ p ∈ a.free, p.nbytes < alignedSize n := by
  rcases hn with hn | hfree
  · rcases alloc_cases a n with ⟨block, rest, -, hblock⟩ | ⟨hfit, -⟩
    · rw [hblock] at halloc
      cases halloc
    · rw [← alignUp_of_rounds hn]
      exact firstFit_eq_none.1 hfit
  · rw [hfree]
    intro p hp
    cases hp

/-- A reserve whose size wraps takes a block of no bytes, if any is free. -/
theorem alloc_wrapped (hn : ¬ Rounds n) (hlt : n < USIZE) (hfree : a.free ≠ []) :
    ∃ off rest, a.alloc n =
      (some off, ⟨rest, ⟨off, 0⟩ :: a.live.filter fun p => p.offset ≠ off⟩) := by
  have hzero := alignUp_of_not_rounds hn hlt
  rcases alloc_cases a n with ⟨block, rest, hfit, hblock⟩ | ⟨hfit, -⟩
  · have hbytes : block.nbytes = 0 := (firstFit_nbytes hfit).trans hzero
    have hempty : block = ⟨block.offset, 0⟩ := by
      rw [← hbytes]
    refine ⟨block.offset, rest, ?_⟩
    rw [hblock, ← hempty]
  · rw [hzero, firstFit_eq_none] at hfit
    cases hl : a.free with
    | nil => exact absurd hl hfree
    | cons p free =>
      have := hfit p (hl ▸ List.mem_cons_self)
      omega

/-- A block taken by a reserve whose size wraps does not hold the bytes asked for. -/
theorem not_granted (hn : ¬ Rounds n) (hlt : n < USIZE) (halloc : a.alloc n = (some off, a')) :
    ¬ Granted a.live a'.live n off := by
  have hfree : a.free ≠ [] := by
    intro hfree
    rcases alloc_cases a n with ⟨block, rest, hfit, -⟩ | ⟨-, hnone⟩
    · rw [hfree] at hfit
      cases hfit
    · rw [hnone] at halloc
      cases halloc
  obtain ⟨o, rest, hwrapped⟩ := alloc_wrapped hn hlt hfree
  rw [hwrapped] at halloc
  cases halloc
  rintro ⟨block, hblock, hoff, hbytes, -⟩
  rcases List.mem_cons.1 hblock with rfl | hblock
  · unfold Rounds USIZE ALIGN at hn
    dsimp only at hbytes
    omega
  · have hne := (List.mem_filter.1 hblock).2
    simp [hoff] at hne

/-- What `dealloc` does: the block at an offset moves to the free ones, or nothing. -/
theorem dealloc_cases (a : Allocator) (off : ℕ) :
    (∃ block ∈ a.live, block.offset = off ∧ a.dealloc off = (true,
      ⟨coalesce ((a.free ++ [block]).insertionSort fun p q => p.offset ≤ q.offset),
        a.live.filter fun p => p.offset ≠ off⟩)) ∨
    ((∀ p ∈ a.live, p.offset ≠ off) ∧ a.dealloc off = (false, a)) := by
  unfold dealloc
  cases hfind : a.live.find? fun p => p.offset = off with
  | none =>
    refine .inr ⟨?_, rfl⟩
    simpa using hfind
  | some block =>
    have hoff := List.find?_some hfind
    exact .inl ⟨block, List.mem_of_find?_eq_some hfind, by simpa using hoff, rfl⟩

/-- A free keeps the books. -/
theorem Inv.dealloc (h : a.Inv size) (off : ℕ) : (a.dealloc off).2.Inv size := by
  rcases dealloc_cases a off with ⟨block, hblock, rfl, hfreed⟩ | ⟨-, hsame⟩
  · rw [hfreed]
    dsimp only
    have hall := pairwise_disjoint fun x => h.parts.le_one x
    have hlive := (List.pairwise_append.1 hall).2.1
    have hmoved := perm_cons_filter (nodup_offsets hlive h.solid) hblock
    have hsub := List.filter_sublist (l := a.live) (p := fun p => p.offset ≠ block.offset)
    have hbacked : (a.free ++ [block]).Pairwise Piece.Disjoint := by
      have hone := List.Sublist.append (List.Sublist.refl a.free) (List.singleton_sublist.2 hblock)
      exact hall.sublist hone
    have hsolid : ∀ p ∈ a.free ++ [block], 0 < p.nbytes := by
      intro p hp
      rcases List.mem_append.1 hp with hp | hp
      · exact h.tidy.solid p hp
      · rw [List.mem_singleton.1 hp]
        exact h.solid block hblock
    have hsort := List.perm_insertionSort (fun p q : Piece => p.offset ≤ q.offset)
      (a.free ++ [block])
    constructor
    · exact h.pos
    · exact coalesce_sorted hbacked hsolid
    · exact fun p hp => h.solid p (hsub.subset hp)
    · intro x
      have hpart := h.parts x
      have hperm := cover_perm (x := x) hmoved
      rw [cover_append, hperm, cover_cons (l := a.live.filter _)] at hpart
      rw [cover_append, coalesce_cover, cover_perm hsort, cover_append]
      dsimp only
      omega
    · apply coalesce_aligned
      intro p hp
      rcases List.mem_append.1 (hsort.mem_iff.1 hp) with hp | hp
      · exact h.freeAligned p hp
      · rw [List.mem_singleton.1 hp]
        exact h.aligned block hblock
    · exact fun p hp => h.aligned p (hsub.subset hp)
  · rw [hsame]
    exact h

/-- What is asked of an allocator; sizes are machine words. -/
inductive Op where
  | reserve (nbytes : UInt64)
  | free (offset : ℕ)
  deriving DecidableEq

/-- The allocator after a call. -/
def after (a : Allocator) : Op → Allocator
  | .reserve nbytes => (a.alloc nbytes.toNat).2
  | .free offset => (a.dealloc offset).2

/-- A call is answered as it should be: what is granted is well granted, a
refusal has a reason, and an offset is freed once. -/
def Answered (a : Allocator) : Op → Prop
  | .reserve nbytes =>
    match a.alloc nbytes.toNat with
    | (some off, a') => Granted a.live a'.live nbytes.toNat off
    | (none, a') => a' = a ∧ ∀ p ∈ a.free, p.nbytes < alignedSize nbytes.toNat
  | .free offset =>
    match a.dealloc offset with
    | (true, a') => (∃ p ∈ a.live, p.offset = offset) ∧ ∀ p ∈ a'.live, p.offset ≠ offset
    | (false, a') => a' = a ∧ ∀ p ∈ a.live, p.offset ≠ offset

/-- Every state passed is sound and every call answered as it should be. -/
def Serves (a : Allocator) (size : ℕ) : List Op → Prop
  | [] => a.Sound size
  | op :: ops => a.Sound size ∧ a.Answered op ∧ (a.after op).Serves size ops

/-- A size that wraps meets no free block. -/
def Fits (a : Allocator) : Op → Prop
  | .reserve nbytes => Rounds nbytes.toNat ∨ a.free = []
  | .free _ => True

/-- So it is at every call. -/
def AllFit (a : Allocator) : List Op → Prop
  | [] => True
  | op :: ops => a.Fits op ∧ (a.after op).AllFit ops

/-- One call from sound books, answered as it should be. -/
theorem Inv.after {op : Op} (h : a.Inv size) (hfits : a.Fits op) :
    (a.after op).Inv size ∧ a.Answered op := by
  cases op with
  | reserve nbytes =>
    change (a.alloc nbytes.toNat).2.Inv size ∧ a.Answered (.reserve nbytes)
    unfold Answered
    dsimp only
    cases halloc : a.alloc nbytes.toNat with
    | mk found a' =>
      cases found with
      | some off =>
        rcases hfits with hn | hfree
        · exact h.alloc hn halloc
        · rcases alloc_cases a nbytes.toNat with ⟨block, rest, hfit, -⟩ | ⟨-, hnone⟩
          · rw [hfree] at hfit
            cases hfit
          · rw [hnone] at halloc
            cases halloc
      | none =>
        have hrefused := alloc_refused hfits (congrArg Prod.fst halloc)
        rcases alloc_cases a nbytes.toNat with ⟨block, rest, -, hblock⟩ | ⟨-, hnone⟩
        · rw [hblock] at halloc
          cases halloc
        · rw [hnone] at halloc
          cases halloc
          exact ⟨h, rfl, hrefused⟩
  | free offset =>
    refine ⟨h.dealloc offset, ?_⟩
    unfold Answered
    dsimp only
    rcases dealloc_cases a offset with ⟨block, hblock, hoff, hfreed⟩ | ⟨hnot, hsame⟩
    · rw [hfreed]
      dsimp only
      refine ⟨⟨block, hblock, hoff⟩, ?_⟩
      intro p hp
      simpa using (List.mem_filter.1 hp).2
    · rw [hsame]
      exact ⟨rfl, hnot⟩

/-- A call that does not fit is answered with a block too short. -/
theorem not_answered {op : Op} (hfits : ¬ a.Fits op) : ¬ a.Answered op := by
  cases op with
  | reserve nbytes =>
    have hn : ¬ Rounds nbytes.toNat := fun h => hfits (.inl h)
    obtain ⟨off, rest, halloc⟩ := alloc_wrapped hn nbytes.toNat_lt fun h => hfits (.inr h)
    have hshort := not_granted hn nbytes.toNat_lt halloc
    unfold Answered
    dsimp only
    rw [halloc]
    exact hshort
  | free offset => exact absurd trivial hfits

/-- From sound books every call is answered as it should be exactly if every
call fits. -/
theorem Inv.serves (h : a.Inv size) (ops : List Op) : a.Serves size ops ↔ a.AllFit ops := by
  induction ops generalizing a with
  | nil => exact ⟨fun _ => trivial, fun _ => h.sound⟩
  | cons op ops ih =>
    constructor
    · rintro ⟨-, hanswered, hrest⟩
      have hfits : a.Fits op := by
        by_contra hnot
        exact not_answered hnot hanswered
      exact ⟨hfits, (ih (h.after hfits).1).1 hrest⟩
    · rintro ⟨hfits, hrest⟩
      obtain ⟨hinv, hanswered⟩ := h.after hfits
      exact ⟨h.sound, hanswered, (ih hinv).2 hrest⟩

end Allocator

end Mstar.Shm
