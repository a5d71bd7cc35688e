import Mstar.Coalescing
import Mathlib.Algebra.Order.Ring.Int
import Mathlib.Data.Int.Notation

/-!
# The host pool

Host memory is allocated once and handed out first fit in slices that start on
a multiple of eight. A slice given back joins the free pieces on both sides of
it. Slices of no bytes are handed out too, and one of them may come back while
no free piece touches it.
-/

namespace Mstar

open FreeLists

/-- Where a slice starts and how long it is. -/
abbrev HostSlice := Piece

/-- The memory's size and its free pieces. -/
structure HostPool where
  nbytes : ℕ
  free : List HostSlice
  deriving DecidableEq, Repr

namespace HostPool

/-- The multiple on which slices start. -/
def ALIGN : ℤ := 8

/-- What `take` rounds a number of bytes up to. -/
def sizeOf (nbytes : ℕ) : ℕ := (-Int.fdiv (-nbytes) ALIGN * ALIGN).toNat

/-- One free piece at first. -/
def new (nbytes : ℕ) : HostPool := ⟨nbytes, [⟨0, nbytes⟩]⟩

/-- A slice off the front of the first free piece that holds it. -/
def take (pool : HostPool) (nbytes : ℕ) : Option HostSlice × HostPool :=
  match firstFit (sizeOf nbytes) pool.free with
  | some (piece, rest) => (some piece, { pool with free := rest })
  | none => (none, pool)

/-- The free piece at a place goes if it starts where a slice ends; the end of
both. -/
def joinRight (free : List HostSlice) (i stop : ℕ) : ℕ × List HostSlice :=
  match free[i]? with
  | some next => if next.offset = stop then (stop + next.nbytes, free.eraseIdx i) else (stop, free)
  | none => (stop, free)

/-- The free piece before a place goes if it ends where a slice starts, and the
slice comes in with it. -/
def insertJoined (free : List HostSlice) (i start stop : ℕ) : List HostSlice :=
  let left : ℕ × ℕ × List HostSlice :=
    match i with
    | 0 => (0, start, free)
    | j + 1 =>
      match free[j]? with
      | some last =>
        if last.offset + last.nbytes = start then (j, last.offset, free.eraseIdx j)
        else (j + 1, start, free)
      | none => (j + 1, start, free)
  left.2.2.insertIdx left.1 ⟨left.2.1, stop - left.2.1⟩

/-- A slice goes back in its place, with the free pieces it touches. -/
def give (pool : HostPool) (piece : HostSlice) : HostPool :=
  let i := bisect pool.free piece
  let right := joinRight pool.free i (piece.offset + piece.nbytes)
  { pool with free := insertJoined right.2 i piece.offset right.1 }

/-- The size is the least multiple of eight that holds the bytes. -/
theorem sizeOf_eq (nbytes : ℕ) : sizeOf nbytes = (nbytes + 7) / 8 * 8 := by
  unfold sizeOf ALIGN
  rw [Int.fdiv_eq_ediv_of_nonneg _ (by omega)]
  omega

/-- It is a multiple of eight. -/
theorem dvd_sizeOf (nbytes : ℕ) : 8 ∣ sizeOf nbytes := by
  rw [sizeOf_eq]
  exact Nat.dvd_mul_left _ _

section Give

variable {pool : HostPool} {piece : HostSlice} {pre post : List HostSlice} {start n stop : ℕ}

/-- What stands behind a prefix. -/
theorem getElem?_behind : (pre ++ post)[pre.length]? = post.head? := by
  rw [List.getElem?_append_right (Nat.le_refl _), Nat.sub_self, List.head?_eq_getElem?]

/-- Erasing it. -/
theorem eraseIdx_behind : (pre ++ piece :: post).eraseIdx pre.length = pre ++ post := by
  rw [List.eraseIdx_append_of_length_le (Nat.le_refl _), Nat.sub_self, List.eraseIdx_cons_zero]

/-- Putting a piece there. -/
theorem insertIdx_behind : (pre ++ post).insertIdx pre.length piece = pre ++ piece :: post := by
  induction pre with
  | nil => rfl
  | cons p pre ih =>
    rw [List.cons_append, List.length_cons, List.insertIdx_succ_cons, ih, List.cons_append]

/-- The check on the left joins as a sweep would. -/
theorem insertJoined_behind :
    insertJoined (pre ++ post) pre.length start (start + n) =
      mergeStep pre ⟨start, n⟩ ++ post := by
  unfold insertJoined
  rcases List.eq_nil_or_concat pre with rfl | ⟨pre, last, rfl⟩
  · simp
  · rw [List.concat_eq_append, List.length_append, List.length_singleton, mergeStep_concat]
    dsimp only
    rw [List.append_assoc, List.singleton_append, getElem?_behind]
    dsimp only [List.head?_cons]
    by_cases htouch : last.offset + last.nbytes = start
    · have hlength : start + n - last.offset = last.nbytes + n := by omega
      rw [if_pos htouch, if_pos htouch]
      dsimp only
      rw [eraseIdx_behind, insertIdx_behind, hlength, List.append_assoc]
      rfl
    · have hlength : start + n - start = n := by omega
      have hplace : (pre ++ [last]).length = pre.length + 1 := by simp
      rw [if_neg htouch, if_neg htouch]
      dsimp only
      rw [hlength, ← hplace, List.append_cons, insertIdx_behind]
      simp

/-- The two checks join what a sweep over all the pieces would join. -/
theorem give_eq_coalesce (ht : Tidy (pre ++ post)) (hfree : pool.free = pre ++ post)
    (hi : bisect pool.free piece = pre.length) :
    (pool.give piece).free = coalesce (pre ++ piece :: post) := by
  rw [coalesce_insert ht]
  unfold give joinRight
  dsimp only
  rw [hi, hfree, getElem?_behind]
  cases post with
  | nil =>
    change insertJoined (pre ++ []) pre.length piece.offset (piece.offset + piece.nbytes) = _
    rw [insertJoined_behind, joinBetween_nil, List.append_nil]
  | cons q post =>
    dsimp only [List.head?_cons]
    rw [joinBetween_cons, eraseIdx_behind]
    unfold Piece.stop
    by_cases htouch : q.offset = piece.offset + piece.nbytes
    · rw [if_pos htouch, if_pos htouch.symm, Nat.add_assoc]
      exact insertJoined_behind
    · rw [if_neg htouch, if_neg (fun h => htouch h.symm)]
      exact insertJoined_behind

end Give

/-- The pool and the slices taken and not given back, in the order of the takes. -/
structure Use where
  pool : HostPool
  held : List HostSlice
  deriving DecidableEq, Repr

/-- What is asked of a pool. -/
inductive Call where
  | take (nbytes : ℕ)
  | give (piece : HostSlice)
  deriving DecidableEq, Repr

/-- One call. Only a slice that is held can be given back. -/
def Use.call (s : Use) : Call → Option Use
  | .take nbytes =>
    match s.pool.take nbytes with
    | (some piece, pool) => some ⟨pool, s.held ++ [piece]⟩
    | (none, pool) => some ⟨pool, s.held⟩
  | .give piece =>
    if piece ∈ s.held then some ⟨s.pool.give piece, s.held.erase piece⟩ else none

/-- The states that a sequence of calls goes through, the first included, as far
as its calls are ones that can be made. -/
def Use.states (s : Use) : List Call → List Use
  | [] => [s]
  | c :: calls =>
    s :: match s.call c with
      | some s' => s'.states calls
      | none => []

/-- A pool nothing was taken from. -/
def Use.new (nbytes : ℕ) : Use := ⟨HostPool.new nbytes, []⟩

/-- A slice of no bytes comes back while a free piece starts or ends at its
offset. -/
def Use.Abuts (s : Use) : Call → Prop
  | .take _ => True
  | .give piece => 0 < piece.nbytes ∨
      ∃ free ∈ s.pool.free, free.offset = piece.offset ∨ free.stop = piece.offset

/-- So does every such slice, in a sequence of calls. -/
def Use.AllAbut (s : Use) : List Call → Prop
  | [] => True
  | c :: calls =>
    match s.call c with
    | some s' => s.Abuts c ∧ s'.AllAbut calls
    | none => True

/-- What a pool owes to those who use it. -/
structure Use.Conserved (s : Use) : Prop where
  /-- Free pieces are in order, none of them empty and no two adjacent. -/
  tidy : Tidy s.pool.free
  /-- Every byte is in one piece, free or taken, and no other byte in any. -/
  parts : Partition s.pool.nbytes (s.pool.free ++ s.held)
  disjoint : s.held.Pairwise Piece.Disjoint
  aligned : ∀ piece ∈ s.held, 8 ∣ piece.offset
  /-- Only a size that no free piece holds is refused. -/
  fails : ∀ nbytes, (s.pool.take nbytes).1 = none →
    ∀ free ∈ s.pool.free, free.nbytes < sizeOf nbytes
  /-- With everything given back the memory is one piece again. -/
  whole : s.held = [] → s.pool.free = [⟨0, s.pool.nbytes⟩]

/-- What holds of a pool whatever comes back, as long as empty slices come back
where a free piece touches them. -/
structure Use.Inv (s : Use) : Prop where
  tidy : Tidy s.pool.free
  parts : Partition s.pool.nbytes (s.pool.free ++ s.held)
  freeAligned : ∀ piece ∈ s.pool.free, 8 ∣ piece.offset
  aligned : ∀ piece ∈ s.held, 8 ∣ piece.offset

section Steps

variable {s s' : Use} {piece : HostSlice} {nbytes : ℕ}

/-- What `take` does: a slice off the free pieces, or nothing. -/
theorem take_cases (pool : HostPool) (nbytes : ℕ) :
    (∃ piece rest, firstFit (sizeOf nbytes) pool.free = some (piece, rest) ∧
      pool.take nbytes = (some piece, { pool with free := rest })) ∨
    (firstFit (sizeOf nbytes) pool.free = none ∧ pool.take nbytes = (none, pool)) := by
  unfold take
  cases hfit : firstFit (sizeOf nbytes) pool.free with
  | none => exact .inr ⟨rfl, rfl⟩
  | some found => exact .inl ⟨found.1, found.2, rfl, rfl⟩

/-- A take keeps the books of the pool. -/
theorem Use.Inv.take (h : s.Inv) (hcall : s.call (.take nbytes) = some s') : s'.Inv := by
  unfold Use.call at hcall
  dsimp only at hcall
  rcases take_cases s.pool nbytes with ⟨piece, rest, hfit, htake⟩ | ⟨-, htake⟩
  · rw [htake] at hcall
    cases hcall
    have haligned := firstFit_aligned hfit (dvd_sizeOf nbytes) h.freeAligned
    constructor
    · exact firstFit_tidy hfit h.tidy
    · intro x
      have hcover := firstFit_cover hfit x
      have hpart := h.parts x
      rw [cover_append] at hpart
      rw [cover_append, cover_append]
      dsimp only
      omega
    · exact haligned.2
    · intro q hq
      rcases List.mem_append.1 hq with hq | hq
      · exact h.aligned q hq
      · rw [List.mem_singleton.1 hq]
        exact haligned.1
  · rw [htake] at hcall
    cases hcall
    exact h

/-- A slice that is held shares nothing with the free pieces. -/
theorem Use.Inv.apart (h : s.Inv) (hpiece : piece ∈ s.held) :
    ∀ q ∈ s.pool.free, q.Disjoint piece := by
  have hall := pairwise_disjoint fun x => h.parts.le_one x
  exact fun q hq => (List.pairwise_append.1 hall).2.2 q hq piece hpiece

/-- Giving back a slice moves its cells to the free pieces. -/
theorem Use.Inv.give (h : s.Inv) (hcall : s.call (.give piece) = some s')
    (habuts : s.Abuts (.give piece)) : s'.Inv := by
  unfold Use.call at hcall
  dsimp only at hcall
  split at hcall
  · next hheld =>
    cases hcall
    obtain ⟨pre, post, hfree, hi, hpre, hpost⟩ := bisect_split (p := piece) h.tidy
    have htidy : Tidy (pre ++ post) := hfree ▸ h.tidy
    have hgive := give_eq_coalesce htidy hfree hi
    have hcover : ∀ x, cover (s.pool.give piece).free x = cover s.pool.free x + cover [piece] x := by
      intro x
      rw [hgive, coalesce_cover, hfree, cover_append, cover_append, cover_cons (l := post)]
      omega
    have hmem : ∀ q ∈ s.held.erase piece, q ∈ s.held := fun q hq => List.mem_of_mem_erase hq
    constructor
    · change Tidy (s.pool.give piece).free
      rw [hgive]
      rcases habuts with hpos | htouch
      · exact coalesce_between htidy hpre hpost (hfree ▸ h.apart hheld) hpos
      · rcases Nat.eq_zero_or_pos piece.nbytes with hzero | hpos
        · have hempty : piece = ⟨piece.offset, 0⟩ := by
            rw [← hzero]
          rw [hfree, touches_iff htidy hpre hpost hzero] at htouch
          rw [hempty, coalesce_insert_empty htidy htouch]
          exact htidy
        · exact coalesce_between htidy hpre hpost (hfree ▸ h.apart hheld) hpos
    · intro x
      have hperm := cover_perm (x := x) (List.perm_cons_erase hheld)
      have hpart := h.parts x
      rw [cover_append, hperm, cover_cons (l := s.held.erase piece)] at hpart
      change cover ((s.pool.give piece).free ++ s.held.erase piece) x =
        if x < s.pool.nbytes then 1 else 0
      rw [cover_append, hcover]
      omega
    · intro q hq
      dsimp only at hq
      rw [hgive] at hq
      refine coalesce_aligned ?_ q hq
      intro r hr
      rcases List.mem_append.1 hr with hr | hr
      · exact h.freeAligned r (hfree ▸ List.mem_append_left _ hr)
      · rcases List.mem_cons.1 hr with rfl | hr
        · exact h.aligned r hheld
        · exact h.freeAligned r (hfree ▸ List.mem_append_right _ hr)
    · exact fun q hq => h.aligned q (hmem q hq)
  · cases hcall

/-- Given back where no free piece touches it, an empty slice stays an empty free
piece. -/
theorem Use.Inv.not_tidy (h : s.Inv) (hcall : s.call (.give piece) = some s')
    (hnot : ¬ s.Abuts (.give piece)) : ¬ Tidy s'.pool.free := by
  unfold Use.call at hcall
  dsimp only at hcall
  split at hcall
  · cases hcall
    obtain ⟨pre, post, hfree, hi, hpre, hpost⟩ := bisect_split (p := piece) h.tidy
    have htidy : Tidy (pre ++ post) := hfree ▸ h.tidy
    have hzero : piece.nbytes = 0 := by
      by_contra hpos
      exact hnot (.inl (by omega))
    have hgap : ¬ ((∃ q ∈ pre.getLast?, q.stop = piece.offset) ∨
        ∃ q ∈ post.head?, q.offset = piece.offset) := by
      rw [← touches_iff htidy hpre hpost hzero, ← hfree]
      exact fun htouch => hnot (.inr htouch)
    intro ht
    change Tidy (s.pool.give piece).free at ht
    rw [give_eq_coalesce htidy hfree hi] at ht
    have hmem : piece ∈ coalesce (pre ++ piece :: post) := by
      apply mem_coalesce_insert htidy
      · exact fun q hq hstop => hgap (.inl ⟨q, hq, hstop⟩)
      · intro q hq hstart
        have hstop : piece.stop = piece.offset := by
          unfold Piece.stop
          omega
        exact hgap (.inr ⟨q, hq, hstart.trans hstop⟩)
    have := ht.solid piece hmem
    omega
  · cases hcall

/-- The size of the memory never changes. -/
theorem Use.call_nbytes {c : Call} (hcall : s.call c = some s') :
    s'.pool.nbytes = s.pool.nbytes := by
  unfold Use.call at hcall
  cases c with
  | take nbytes =>
    dsimp only at hcall
    rcases take_cases s.pool nbytes with ⟨piece, rest, -, htake⟩ | ⟨-, htake⟩
    · rw [htake] at hcall
      cases hcall
      rfl
    · rw [htake] at hcall
      cases hcall
      rfl
  | give piece =>
    dsimp only at hcall
    split at hcall
    · cases hcall
      rfl
    · cases hcall

/-- A call keeps the books if what it gives back touches a free piece or is not
empty. -/
theorem Use.Inv.call {c : Call} (h : s.Inv) (hcall : s.call c = some s') (habuts : s.Abuts c) :
    s'.Inv := by
  cases c with
  | take nbytes => exact h.take hcall
  | give piece => exact h.give hcall habuts

/-- A pool whose books are kept owes nothing. -/
theorem Use.Inv.conserved (h : s.Inv) (hpos : 0 < s.pool.nbytes) : s.Conserved where
  tidy := h.tidy
  parts := h.parts
  disjoint := by
    have hall := pairwise_disjoint fun x => h.parts.le_one x
    exact (List.pairwise_append.1 hall).2.1
  aligned := h.aligned
  fails := by
    intro nbytes hnone
    rcases take_cases s.pool nbytes with ⟨piece, rest, -, htake⟩ | ⟨hfit, -⟩
    · rw [htake] at hnone
      cases hnone
    · exact firstFit_eq_none.1 hfit
  whole := by
    intro hheld
    have hpart := h.parts
    rw [hheld, List.append_nil] at hpart
    exact h.tidy.whole hpart hpos

/-- A pool nothing was taken from has its books in order if it has a byte. -/
theorem Use.inv_new (h : 0 < nbytes) : (Use.new nbytes).Inv where
  tidy := ⟨List.pairwise_singleton _ _, by simpa [Use.new, HostPool.new] using h⟩
  parts := by
    intro x
    change cover [⟨0, nbytes⟩] x = if x < nbytes then 1 else 0
    rw [cover_singleton]
    exact if_congr (by dsimp only; omega) rfl rfl
  freeAligned := by
    intro piece hpiece
    rw [List.mem_singleton.1 hpiece]
    exact Nat.dvd_zero 8
  aligned := by
    intro piece hpiece
    cases hpiece

/-- From a pool in order, every state passed is in order exactly if every empty
slice comes back where a free piece touches it. -/
theorem Use.Inv.states (h : s.Inv) (hpos : 0 < s.pool.nbytes) (calls : List Call) :
    (∀ t ∈ s.states calls, t.Conserved) ↔ s.AllAbut calls := by
  induction calls generalizing s with
  | nil =>
    constructor
    · exact fun _ => trivial
    · intro _ t ht
      rw [List.mem_singleton.1 ht]
      exact h.conserved hpos
  | cons c calls ih =>
    unfold Use.states Use.AllAbut
    cases hcall : s.call c with
    | none =>
      constructor
      · exact fun _ => trivial
      · intro _ t ht
        rw [List.mem_singleton.1 ht]
        exact h.conserved hpos
    | some s' =>
      have hsame := Use.call_nbytes hcall
      dsimp only
      rw [List.forall_mem_cons]
      constructor
      · rintro ⟨-, hrest⟩
        have hfirst : s' ∈ s'.states calls := by
          cases calls <;> exact List.mem_cons_self
        have habuts : s.Abuts c := by
          cases c with
          | take nbytes => trivial
          | give piece =>
            by_contra hnot
            exact h.not_tidy hcall hnot (hrest s' hfirst).tidy
        exact ⟨habuts, (ih (h.call hcall habuts) (hsame ▸ hpos)).1 hrest⟩
      · rintro ⟨habuts, hrest⟩
        exact ⟨h.conserved hpos, (ih (h.call hcall habuts) (hsame ▸ hpos)).2 hrest⟩

end Steps

/-- In every sequence of takes and of gives of slices that are held, the pool's
free list stays in order, its free pieces and the slices taken make up the
memory, and all of it given back is one piece again: exactly if the pool has a
byte and no slice of no bytes comes back where no free piece touches it. -/
theorem pool_conserved (nbytes : ℕ) (calls : List Call) :
    (∀ s ∈ (Use.new nbytes).states calls, s.Conserved) ↔
      0 < nbytes ∧ (Use.new nbytes).AllAbut calls := by
  have hfirst : Use.new nbytes ∈ (Use.new nbytes).states calls := by
    cases calls <;> exact List.mem_cons_self
  constructor
  · intro h
    have hpos : 0 < nbytes := (h _ hfirst).tidy.solid ⟨0, nbytes⟩ List.mem_cons_self
    exact ⟨hpos, ((Use.inv_new hpos).states hpos calls).1 h⟩
  · rintro ⟨hpos, habut⟩
    exact ((Use.inv_new hpos).states hpos calls).2 habut

/-- A slice of no bytes that comes back inside a free piece stays in the free
list: with everything given back the memory is two pieces, and two takes later
they are out of order. -/
theorem empty_slice_kept :
    ¬ (∀ calls, ∀ s ∈ (Use.new 64).states calls, s.Conserved) ∧
    (Use.new 64).states [.take 16, .take 0, .give ⟨0, 16⟩, .give ⟨16, 0⟩, .take 16, .take 8] =
      [⟨⟨64, [⟨0, 64⟩]⟩, []⟩, ⟨⟨64, [⟨16, 48⟩]⟩, [⟨0, 16⟩]⟩,
        ⟨⟨64, [⟨16, 48⟩]⟩, [⟨0, 16⟩, ⟨16, 0⟩]⟩, ⟨⟨64, [⟨0, 64⟩]⟩, [⟨16, 0⟩]⟩,
        ⟨⟨64, [⟨0, 64⟩, ⟨16, 0⟩]⟩, []⟩, ⟨⟨64, [⟨16, 48⟩, ⟨16, 0⟩]⟩, [⟨0, 16⟩]⟩,
        ⟨⟨64, [⟨24, 40⟩, ⟨16, 0⟩]⟩, [⟨0, 16⟩, ⟨16, 8⟩]⟩] := by
  constructor
  · intro h
    have hafter : (⟨⟨64, [⟨0, 64⟩, ⟨16, 0⟩]⟩, []⟩ : Use) ∈
        (Use.new 64).states [.take 16, .take 0, .give ⟨0, 16⟩, .give ⟨16, 0⟩] := by decide
    have hwhole := (h _ _ hafter).whole rfl
    cases hwhole
  · decide

end HostPool

end Mstar
