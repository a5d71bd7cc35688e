import Mstar.RustArena
import Mstar.PythonArena

/-!
# Owners and seals in both arenas

Acquiring, retaining, releasing and sealing pages of the pool move both arenas
the same way: the same free list in the same order, the same owners and seals,
and the same callbacks with the same counts, also where a page is refused.
-/

namespace Mstar.PageArena

variable {Index Writes : Type} {a : RustArena Index Writes}
  {b : PythonArena Index Writes}

/-- Both arenas refused, alike, or neither did. -/
def OutcomeAlike : Option Raised → Option Raised → Prop
  | none, none => True
  | some e, some e' => e.Alike e'
  | _, _ => False

/-- The two arenas keep the same books. -/
structure SamePool (a : RustArena Index Writes) (b : PythonArena Index Writes) : Prop where
  /-- The same pages are free, in the same order. -/
  free : a.core.free = b.free
  /-- Pages have the same owners. -/
  owners : a.core.owners = b.numOwners
  /-- The same pages are sealed. -/
  sealed : a.core.sealed = b.sealed
  /-- The index is in one state. -/
  index : a.index = b.index
  /-- So is the host's queue. -/
  writes : a.writes = b.writes
  /-- A page has an owner count and a seal. -/
  length : b.sealed.length = b.numOwners.length
  /-- Free pages are pages of the pool. -/
  inPool : ∀ page ∈ b.free, 0 ≤ page ∧ page.toNat < b.numOwners.length

/-- The streams are as they were. -/
structure StreamsKept (a a' : RustArena Index Writes) (b b' : PythonArena Index Writes) : Prop where
  streams : a'.core.streams = a.core.streams
  freeSids : a'.core.freeSids = a.core.freeSids
  dropped : a'.dropped = a.dropped
  python : b'.streams = b.streams
  nextSid : b'.nextSid = b.nextSid

/-- Nothing done keeps the streams. -/
theorem StreamsKept.refl (a : RustArena Index Writes) (b : PythonArena Index Writes) :
    StreamsKept a a b b := ⟨rfl, rfl, rfl, rfl, rfl⟩

/-- So do two steps that each do. -/
theorem StreamsKept.trans {a a' a'' : RustArena Index Writes} {b b' b'' : PythonArena Index Writes}
    (h : StreamsKept a a' b b') (h' : StreamsKept a' a'' b' b'') : StreamsKept a a'' b b'' where
  streams := h'.streams.trans h.streams
  freeSids := h'.freeSids.trans h.freeSids
  dropped := h'.dropped.trans h.dropped
  python := h'.python.trans h.python
  nextSid := h'.nextSid.trans h.nextSid

/-- What a call does to both arenas. -/
structure Moved (a : RustArena Index Writes) (b : PythonArena Index Writes)
    (out : Option Raised × RustArena Index Writes) (out' : Option Raised × PythonArena Index Writes) :
    Prop where
  /-- Both refuse or neither does. -/
  outcome : OutcomeAlike out.1 out'.1
  /-- They keep the same books, also when they refuse. -/
  pool : SamePool out.2 out'.2
  /-- The streams stay. -/
  kept : StreamsKept a out.2 b out'.2

/-- A move after a step that keeps the streams. -/
theorem Moved.after {a a' : RustArena Index Writes} {b b' : PythonArena Index Writes}
    {out : Option Raised × RustArena Index Writes} {out' : Option Raised × PythonArena Index Writes}
    (h : Moved a' b' out out') (hkept : StreamsKept a a' b b') : Moved a b out out' :=
  ⟨h.outcome, h.pool, hkept.trans h.kept⟩

/-- The place of a page that is not negative. -/
theorem place_eq {length : ℕ} {page : ℤ} (hpage : 0 ≤ page) :
    place length page = if page.toNat < length then some page.toNat else none := by
  unfold place
  rw [if_pos hpage]

/-- A page is in range in both pools or in neither. -/
theorem SamePool.slot_eq (h : SamePool a b) {page : ℤ} (hpage : 0 ≤ page) :
    a.core.slot page = if page.toNat < b.numOwners.length then .ok page.toNat
      else .error (.outOfRange page) := by
  unfold ArenaCore.slot
  rw [h.owners]
  by_cases hlt : page.toNat < b.numOwners.length
  · rw [if_neg (by omega), if_pos hlt]
  · rw [if_pos (by omega), if_neg hlt]

/-- What was set is read. -/
theorem getD_set_self {xs : List ℕ} {i x : ℕ} (h : i < xs.length) : (xs.set i x).getD i 0 = x := by
  rw [List.getD_eq_getElem?_getD, List.getElem?_set_self h, Option.getD_some]

/-- A page out of range raises an `IndexError`. -/
theorem alike_outOfRange (page : ℤ) :
    (ArenaError.outOfRange page).raised.Alike ⟨.indexError, none⟩ := by
  constructor
  · rfl
  · intro _ _ _ hnone
    cases hnone

/-- An error is like itself. -/
theorem Raised.Alike.refl (e : Raised) : e.Alike e := by
  constructor
  · rfl
  · intro text text' htext htext'
    rw [htext, Option.some.injEq] at htext'
    exact htext'

/-- Both acquire the same pages. -/
theorem acquire_same (h : SamePool a b) (n : ℕ) :
    (a.acquire n).1 = (b.acquire n).1 ∧ SamePool (a.acquire n).2 (b.acquire n).2 ∧
      StreamsKept a (a.acquire n).2 b (b.acquire n).2 := by
  unfold RustArena.acquire ArenaCore.acquire PythonArena.acquire
  rw [h.free]
  split
  next => exact ⟨rfl, h, StreamsKept.refl a b⟩
  next hfew =>
    dsimp only
    have hpages : ∀ page ∈ b.free.take n, 0 ≤ page := by
      intro page hpage
      exact (h.inPool page (List.mem_of_mem_take hpage)).1
    -- setting each page's owners one by one, in both
    have hset : ∀ (pages : List ℤ) (b' : PythonArena Index Writes), (∀ page ∈ pages, 0 ≤ page) →
        pages.foldl (fun b page => b.setOwners page 1) b' =
          { b' with
            numOwners := pages.foldl (fun owners page => owners.set page.toNat 1) b'.numOwners } := by
      intro pages
      induction pages with
      | nil => exact fun _ _ => rfl
      | cons page pages ih =>
        intro b' hnonneg
        have hone : b'.setOwners page 1 =
            { b' with numOwners := b'.numOwners.set page.toNat 1 } := by
          unfold PythonArena.setOwners
          rw [place_eq (hnonneg page List.mem_cons_self)]
          split
          next hnone =>
            have hge : b'.numOwners.length ≤ page.toNat := by
              by_contra hlt
              rw [if_pos (by omega)] at hnone
              cases hnone
            rw [List.set_eq_of_length_le hge]
          next i hsome =>
            split at hsome
            next =>
              cases hsome
              rfl
            next => cases hsome
        rw [List.foldl_cons, hone, ih _ fun page hmem => hnonneg page (List.mem_cons_of_mem _ hmem)]
        rfl
    rw [hset _ _ hpages]
    have hlength : ∀ (pages : List ℤ) (owners : List ℕ),
        (pages.foldl (fun owners page => owners.set page.toNat 1) owners).length =
          owners.length := by
      intro pages
      induction pages with
      | nil => exact fun _ => rfl
      | cons page pages ih =>
        intro owners
        rw [List.foldl_cons, ih, List.length_set]
    refine ⟨rfl, ?_, ⟨rfl, rfl, rfl, rfl, rfl⟩⟩
    constructor
    · rfl
    · dsimp only
      rw [h.owners]
    · exact h.sealed
    · exact h.index
    · exact h.writes
    · dsimp only
      rw [hlength]
      exact h.length
    · intro page hpage
      dsimp only
      rw [hlength]
      exact h.inPool page (List.mem_of_mem_drop hpage)

/-- The books with one page's owners set in both. -/
theorem SamePool.setOwners (h : SamePool a b) (i owners : ℕ) :
    SamePool { a with core := { a.core with owners := a.core.owners.set i owners } }
      { b with numOwners := b.numOwners.set i owners } := by
  refine ⟨h.free, ?_, h.sealed, h.index, h.writes, ?_, ?_⟩
  · dsimp only
    rw [h.owners]
  · dsimp only
    rw [List.length_set]
    exact h.length
  · intro page hpage
    dsimp only
    rw [List.length_set]
    exact h.inPool page hpage

/-- The books with the index in another state in both. -/
theorem SamePool.setIndex (h : SamePool a b) (index : Option Index) :
    SamePool { a with index := index } { b with index := index } :=
  ⟨h.free, h.owners, h.sealed, rfl, h.writes, h.length, h.inPool⟩

/-- Retained pages are counted alike while the counts stay in u32. -/
theorem retain_same (cb : Callbacks Index Writes) {pages : List ℤ} (h : SamePool a b)
    (hpages : ∀ page ∈ pages, 0 ≤ page)
    (hcounts : ∀ owners ∈ b.numOwners, owners + pages.length < 4294967296) :
    Moved a b (RustArena.retain cb pages a) (PythonArena.retain cb pages b) := by
  induction pages generalizing a b with
  | nil => exact ⟨trivial, h, StreamsKept.refl a b⟩
  | cons page pages ih =>
    have hrest : ∀ page ∈ pages, 0 ≤ page := fun page hmem => hpages page (List.mem_cons_of_mem _ hmem)
    have hpage := hpages page List.mem_cons_self
    rw [List.length_cons] at hcounts
    unfold RustArena.retain PythonArena.retain ArenaCore.retain
    rw [place_eq hpage, h.slot_eq hpage]
    by_cases hlt : page.toNat < b.numOwners.length
    · have hold : b.numOwners.getD page.toNat 0 ∈ b.numOwners := by
        rw [List.getD_eq_getElem?_getD, List.getElem?_eq_getElem hlt, Option.getD_some]
        exact List.getElem_mem hlt
      have hcount := hcounts _ hold
      have hmod : (b.numOwners.getD page.toNat 0 + 1) % 4294967296 =
          b.numOwners.getD page.toNat 0 + 1 := Nat.mod_eq_of_lt (by omega)
      have hcounts' : ∀ owners ∈ b.numOwners.set page.toNat (b.numOwners.getD page.toNat 0 + 1),
          owners + pages.length < 4294967296 := by
        intro owners howners
        cases List.mem_or_eq_of_mem_set howners with
        | inl hmem =>
          have := hcounts owners hmem
          omega
        | inr heq => omega
      rw [if_pos hlt, if_pos hlt]
      have hset := h.setOwners page.toNat (b.numOwners.getD page.toNat 0 + 1)
      simp only [h.owners, h.index] at hset
      simp only [Except.map, h.owners, hmod, getD_set_self hlt, h.index]
      cases hindex : b.index with
      | none =>
        rw [hindex] at hset
        cases b.numOwners.getD page.toNat 0 + 1 == 2 with
        | false => exact (ih hset hrest hcounts').after ⟨rfl, rfl, rfl, rfl, rfl⟩
        | true => exact (ih hset hrest hcounts').after ⟨rfl, rfl, rfl, rfl, rfl⟩
      | some index =>
        rw [hindex] at hset
        cases b.numOwners.getD page.toNat 0 + 1 == 2 with
        | false => exact (ih hset hrest hcounts').after ⟨rfl, rfl, rfl, rfl, rfl⟩
        | true =>
          dsimp only
          rw [if_pos rfl]
          cases cb.setShared index _ page true with
          | mk out index =>
            have hheard := hset.setIndex (some index)
            cases out with
            | none => exact (ih hheard hrest hcounts').after ⟨rfl, rfl, rfl, rfl, rfl⟩
            | some e => exact ⟨Raised.Alike.refl e, hheard, ⟨rfl, rfl, rfl, rfl, rfl⟩⟩
    · rw [if_neg hlt, if_neg hlt]
      exact ⟨alike_outOfRange page, h, StreamsKept.refl a b⟩

/-- Both seal alike. -/
theorem sealPages_same {pages : List ℤ} (h : SamePool a b) (hpages : ∀ page ∈ pages, 0 ≤ page) :
    Moved a b (RustArena.sealPages pages a) (PythonArena.sealPages pages b) := by
  induction pages generalizing a b with
  | nil => exact ⟨trivial, h, StreamsKept.refl a b⟩
  | cons page pages ih =>
    have hrest : ∀ page ∈ pages, 0 ≤ page := fun page hmem => hpages page (List.mem_cons_of_mem _ hmem)
    have hpage := hpages page List.mem_cons_self
    unfold RustArena.sealPages PythonArena.sealPages ArenaCore.sealPage
    rw [place_eq hpage, h.slot_eq hpage, h.length]
    by_cases hlt : page.toNat < b.numOwners.length
    · rw [if_pos hlt, if_pos hlt]
      have hseal : SamePool
          { a with core := { a.core with sealed := a.core.sealed.set page.toNat true } }
          { b with sealed := b.sealed.set page.toNat true } := by
        refine ⟨h.free, h.owners, ?_, h.index, h.writes, ?_, h.inPool⟩
        · dsimp only
          rw [h.sealed]
        · dsimp only
          rw [List.length_set]
          exact h.length
      exact (ih hseal hrest).after ⟨rfl, rfl, rfl, rfl, rfl⟩
    · rw [if_neg hlt, if_neg hlt]
      exact ⟨alike_outOfRange page, h, StreamsKept.refl a b⟩

/-- A page left to one owner is told to the index and the host's queue alike. -/
theorem unshared_same (cb : Callbacks Index Writes) (h : SamePool a b) (page : ℤ) :
    Moved a b (RustArena.unshared cb a page) (PythonArena.unshared cb b page) := by
  unfold RustArena.unshared PythonArena.unshared
  rw [h.index, h.owners, h.writes]
  cases b.index with
  | none => exact ⟨trivial, h, StreamsKept.refl a b⟩
  | some index =>
    dsimp only
    cases cb.setShared index b.numOwners page false with
    | mk out index =>
      cases out with
      | some e =>
        refine ⟨Raised.Alike.refl e, ?_, ⟨rfl, rfl, rfl, rfl, rfl⟩⟩
        exact ⟨h.free, h.owners, h.sealed, rfl, rfl, h.length, h.inPool⟩
      | none =>
        cases b.writes with
        | none =>
          refine ⟨trivial, ?_, ⟨rfl, rfl, rfl, rfl, rfl⟩⟩
          exact ⟨h.free, h.owners, h.sealed, rfl, rfl, h.length, h.inPool⟩
        | some writes =>
          dsimp only
          refine ⟨?_, ?_, ⟨rfl, rfl, rfl, rfl, rfl⟩⟩
          · cases (cb.queueKey index writes page).1 with
            | none => exact trivial
            | some e => exact Raised.Alike.refl e
          · exact ⟨h.free, h.owners, h.sealed, rfl, rfl, h.length, h.inPool⟩

/-- Telling the index changes no owner count. -/
theorem unshared_numOwners (cb : Callbacks Index Writes) (b : PythonArena Index Writes) (page : ℤ) :
    (PythonArena.unshared cb b page).2.numOwners = b.numOwners := by
  unfold PythonArena.unshared
  cases b.index with
  | none => rfl
  | some index =>
    dsimp only
    cases cb.setShared index b.numOwners page false with
    | mk out index =>
      cases out with
      | some e => rfl
      | none =>
        cases b.writes with
        | none => rfl
        | some writes => rfl

/-- A page that has owners released by one of them. -/
theorem core_release (h : SamePool a b) {page : ℤ} (hpage : 0 ≤ page)
    (hlt : page.toNat < b.numOwners.length) {left : ℕ}
    (howners : b.numOwners.getD page.toNat 0 = left + 1) :
    a.core.release page = .ok (
      if left = 0 then
        (.freed,
          { a.core with
            owners := b.numOwners.set page.toNat left
            sealed := a.core.sealed.set page.toNat false })
      else
        (if left = 1 then .unshared else .held,
          { a.core with owners := b.numOwners.set page.toNat left })) := by
  unfold ArenaCore.release
  rw [h.slot_eq hpage, if_pos hlt, h.owners]
  dsimp only
  rw [if_neg (by omega), getD_set_self hlt, howners, Nat.add_sub_cancel]
  match left with
  | 0 => rfl
  | 1 => rfl
  | left + 2 => rfl

/-- Both release alike. -/
theorem release_same (cb : Callbacks Index Writes) {pages freed : List ℤ} (h : SamePool a b)
    (hpages : ∀ page ∈ pages, 0 ≤ page)
    (hfreed : ∀ page ∈ freed, 0 ≤ page ∧ page.toNat < b.numOwners.length) :
    Moved a b (RustArena.release cb pages freed a) (PythonArena.release cb pages freed b) := by
  induction pages generalizing a b freed with
  | nil =>
    unfold RustArena.release PythonArena.release
    refine ⟨trivial, ?_, ⟨rfl, rfl, rfl, rfl, rfl⟩⟩
    refine ⟨?_, h.owners, h.sealed, h.index, h.writes, h.length, ?_⟩
    · dsimp only
      rw [h.free]
    · intro page hpage
      rcases List.mem_append.1 hpage with hpage | hpage
      · exact h.inPool page hpage
      · exact hfreed page hpage
  | cons page pages ih =>
    have hrest : ∀ page ∈ pages, 0 ≤ page := fun page hmem => hpages page (List.mem_cons_of_mem _ hmem)
    have hpage := hpages page List.mem_cons_self
    unfold RustArena.release PythonArena.release
    rw [place_eq hpage]
    by_cases hlt : page.toNat < b.numOwners.length
    · rw [if_pos hlt]
      have hin : ∀ (x : ℕ) (freed : List ℤ),
          (∀ page ∈ freed, 0 ≤ page ∧ page.toNat < b.numOwners.length) →
          ∀ page' ∈ freed, 0 ≤ page' ∧ page'.toNat < (b.numOwners.set page.toNat x).length := by
        intro x freed hfreed page' hmem
        rw [List.length_set]
        exact hfreed page' hmem
      cases howners : b.numOwners.getD page.toNat 0 with
      | zero =>
        have hcore : a.core.release page = .error (.noOwner page) := by
          unfold ArenaCore.release
          rw [h.slot_eq hpage, if_pos hlt, h.owners]
          dsimp only
          rw [if_pos howners]
        rw [hcore]
        dsimp only
        rw [if_pos howners]
        exact ⟨Raised.Alike.refl _, h, StreamsKept.refl a b⟩
      | succ left =>
        have hset := h.setOwners page.toNat left
        rw [h.owners] at hset
        rw [core_release h hpage hlt howners]
        dsimp only
        rw [howners, Nat.add_sub_cancel, if_neg (Nat.succ_ne_zero left)]
        match left with
        | 0 =>
          have hseal : SamePool
              { a with
                core :=
                  { a.core with
                    owners := b.numOwners.set page.toNat 0
                    sealed := a.core.sealed.set page.toNat false } }
              { b with
                numOwners := b.numOwners.set page.toNat 0
                sealed := b.sealed.set page.toNat false } := by
            refine ⟨hset.free, hset.owners, ?_, hset.index, hset.writes, ?_, hset.inPool⟩
            · dsimp only
              rw [h.sealed]
            · dsimp only
              rw [List.length_set]
              exact hset.length
          have hfreed' : ∀ page' ∈ freed ++ [page],
              0 ≤ page' ∧ page'.toNat < b.numOwners.length := by
            intro page' hmem
            rcases List.mem_append.1 hmem with hmem | hmem
            · exact hfreed page' hmem
            · rw [List.mem_singleton.1 hmem]
              exact ⟨hpage, hlt⟩
          have hrun := (ih hseal hrest (hin 0 _ hfreed')).after
            (a := a) (b := b) ⟨rfl, rfl, rfl, rfl, rfl⟩
          rw [if_pos rfl, if_pos rfl, place_eq hpage, h.length, if_pos hlt]
          exact hrun
        | 1 =>
          have htold := unshared_same cb hset page
          have howners := unshared_numOwners cb
            { b with numOwners := b.numOwners.set page.toNat 1 } page
          rw [if_neg (by decide), if_pos rfl, if_neg (by decide), if_pos rfl]
          revert htold howners
          generalize hrust : RustArena.unshared cb _ page = told
          generalize PythonArena.unshared cb _ page = told'
          intro htold howners
          obtain ⟨out, a'⟩ := told
          obtain ⟨out', b'⟩ := told'
          have hkept : StreamsKept a a' b b' :=
            ⟨htold.kept.streams, htold.kept.freeSids, htold.kept.dropped, htold.kept.python,
              htold.kept.nextSid⟩
          dsimp only
          rw [hrust]
          cases out with
          | none =>
            cases out' with
            | none =>
              have hfreed' : ∀ page ∈ freed, 0 ≤ page ∧ page.toNat < b'.numOwners.length := by
                dsimp only at howners
                rw [howners]
                exact hin 1 freed hfreed
              exact (ih htold.pool hrest hfreed').after hkept
            | some e' => exact htold.outcome.elim
          | some e =>
            cases out' with
            | none => exact htold.outcome.elim
            | some e' => exact ⟨htold.outcome, htold.pool, hkept⟩
        | left + 2 =>
          rw [if_neg (by omega), if_neg (by omega), if_neg (by omega), if_neg (by omega)]
          exact (ih hset hrest (hin _ _ hfreed)).after ⟨rfl, rfl, rfl, rfl, rfl⟩
    · have hcore : a.core.release page = .error (.outOfRange page) := by
        unfold ArenaCore.release
        rw [h.slot_eq hpage, if_neg hlt]
      rw [if_neg hlt, hcore]
      exact ⟨alike_outOfRange page, h, StreamsKept.refl a b⟩

end Mstar.PageArena
