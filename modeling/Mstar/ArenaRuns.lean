import Mstar.ArenaRefinement

/-!
# Runs of both arenas

Both arenas, driven by one caller from a fresh pool, answer alike in every call
and keep the same books, also after calls they refuse.
-/

namespace Mstar.PageArena

variable {Index Writes Rid Label Ref Handle : Type} {cb : Callbacks Index Writes}
  {w : World (RustArena Index Writes) Rid Label Ref Handle}
  {v : World (PythonArena Index Writes) Rid Label Ref Handle}

/-- The caller sees the same in both, and the streams are apart. -/
structure Paired (w : World (RustArena Index Writes) Rid Label Ref Handle)
    (v : World (PythonArena Index Writes) Rid Label Ref Handle) : Prop where
  same : Same w v
  apart : Apart w v

/-- A call that leaves the streams alone. -/
theorem Paired.moved (h : Paired w v) {a : RustArena Index Writes} {b : PythonArena Index Writes}
    (hpool : SamePool a b) (hkept : StreamsKept w.arena a v.arena b) :
    Paired { w with arena := a } { v with arena := b } := by
  constructor
  · refine ⟨hpool, h.same.caches, h.same.held, ?_⟩
    intro handle sid sid' hsid hsid'
    dsimp only
    rw [hkept.streams, hkept.python]
    exact h.same.pages handle sid sid' hsid hsid'
  · refine ⟨h.apart.rust, h.apart.python, ?_, ?_, ?_, ?_⟩
    · dsimp only
      rw [hkept.freeSids, hkept.dropped, hkept.streams]
      exact h.apart.spare
    · dsimp only
      rw [hkept.freeSids, hkept.dropped]
      exact h.apart.once
    · dsimp only
      rw [hkept.freeSids, hkept.streams]
      exact h.apart.emptied
    · dsimp only
      rw [hkept.nextSid]
      exact h.apart.below

/-- A call that changes the caller's caches alone. -/
theorem Paired.setCaches (h : Paired w v) (caches : Caches Rid Label Ref Handle) :
    Paired { w with caches := caches } { v with caches := caches } :=
  ⟨⟨h.same.pool, rfl, h.same.held, h.same.pages⟩,
    ⟨h.apart.rust, h.apart.python, h.apart.spare, h.apart.once, h.apart.emptied, h.apart.below⟩⟩

/-- A stream the caller holds, in both arenas. -/
theorem Same.sids (h : Same w v) {handle : Handle} (hheld : v.sid handle ≠ none) :
    ∃ sid sid', w.sid handle = some sid ∧ v.sid handle = some sid' ∧ w.sidOf handle = sid ∧
      v.sidOf handle = sid' := by
  obtain ⟨sid', hsid'⟩ := Option.ne_none_iff_exists'.1 hheld
  obtain ⟨sid, hsid⟩ := Option.ne_none_iff_exists'.1 (mt (h.held handle).1 hheld)
  refine ⟨sid, sid', hsid, hsid', ?_, ?_⟩
  · unfold World.sidOf
    rw [hsid, Option.getD_some]
  · unfold World.sidOf
    rw [hsid', Option.getD_some]

/-- A stream's pages are the same in both. -/
theorem Same.samePages (h : Same w v) {handle : Handle} (hheld : v.sid handle ≠ none) :
    SamePages w.arena.core v.arena w.sidOf v.sidOf handle := by
  obtain ⟨sid, sid', hsid, hsid', heq, heq'⟩ := h.sids hheld
  obtain ⟨pages, hrust, hpython⟩ := h.pages handle sid sid' hsid hsid'
  exact ⟨pages, by rw [heq, hrust], by rw [heq', hpython]⟩

/-- A call names the same pages in both. -/
theorem Same.pages_eq (h : Same w v) {pages : Pages Handle}
    (hheld : ∀ handle, pages = .stream handle → v.sid handle ≠ none) :
    rustPages w pages = pythonPages v pages := by
  cases pages with
  | list pages => rfl
  | stream handle =>
    obtain ⟨pages, hrust, hpython⟩ := h.samePages (hheld handle rfl)
    unfold rustPages pythonPages
    dsimp only
    rw [List.getD_eq_getElem?_getD, hrust, hpython]

/-- Streams dropped one after the other: their ids are spare and have no pages. -/
theorem foldl_dropStream {core : ArenaCore} {sids : List ℕ}
    (hsids : ∀ sid ∈ sids, sid < core.streams.length) :
    ∃ streams, sids.foldl ArenaCore.dropStream core =
        { core with streams := streams, freeSids := core.freeSids ++ sids } ∧
      streams.length = core.streams.length ∧ (∀ sid ∉ sids, streams[sid]? = core.streams[sid]?) ∧
      ∀ sid ∈ sids, streams[sid]? = some [] := by
  induction sids generalizing core with
  | nil => exact ⟨core.streams, by simp, rfl, fun _ _ => rfl, by simp⟩
  | cons sid sids ih =>
    have hsid := hsids sid List.mem_cons_self
    have hdrop : core.dropStream sid =
        { core with
          streams := core.streams.set sid []
          freeSids := core.freeSids ++ [sid] } := by
      unfold ArenaCore.dropStream
      rw [if_pos hsid]
    have hsids' : ∀ sid' ∈ sids, sid' < (core.dropStream sid).streams.length := by
      intro sid' hmem
      rw [hdrop]
      dsimp only
      rw [List.length_set]
      exact hsids sid' (List.mem_cons_of_mem _ hmem)
    obtain ⟨streams, heq, hlength, hrest, hempty⟩ := ih hsids'
    rw [hdrop] at heq hlength hrest
    dsimp only at heq hlength hrest
    rw [List.length_set] at hlength
    refine ⟨streams, ?_, hlength, ?_, ?_⟩
    · rw [List.foldl_cons, hdrop, heq, List.append_assoc]
      rfl
    · intro sid' hnot
      rw [List.mem_cons, not_or] at hnot
      rw [hrest sid' hnot.2, List.getElem?_set_ne (Ne.symm hnot.1)]
    · intro sid' hmem
      by_cases hlater : sid' ∈ sids
      · exact hempty sid' hlater
      · have heq : sid' = sid := (List.mem_cons.1 hmem).resolve_right hlater
        rw [hrest sid' hlater, heq, List.getElem?_set_self hsid]

/-- What a new stream does to the Rust arena: it gets a spare id or the next one,
and the ids left spare are of streams without pages. -/
structure Opened (a : RustArena Index Writes) (sid : ℕ) (b : RustArena Index Writes) : Prop where
  /-- The books are not touched. -/
  pool : b.core.free = a.core.free ∧ b.core.owners = a.core.owners ∧
    b.core.sealed = a.core.sealed ∧ b.index = a.index ∧ b.writes = a.writes
  /-- The id was spare or is the next one. -/
  spare : sid ∈ a.core.freeSids ++ a.dropped ∨ sid = a.core.streams.length
  /-- The new stream is empty. -/
  empty : b.core.streams[sid]? = some []
  /-- The others have their pages. -/
  others : ∀ sid' ∉ a.core.freeSids ++ a.dropped, sid' < a.core.streams.length →
    b.core.streams[sid']? = a.core.streams[sid']?
  /-- Nothing is left to drop. -/
  dropped : b.dropped = []
  /-- The ids left spare were so before. -/
  left : ∀ sid' ∈ b.core.freeSids, sid' ∈ a.core.freeSids ++ a.dropped ∧ sid' ≠ sid ∧
    sid' < b.core.streams.length ∧ b.core.streams[sid']? = some []
  /-- Each once. -/
  once : b.core.freeSids.Nodup

/-- A new stream is empty and no other's. -/
theorem newStream_opened {a : RustArena Index Writes}
    (hlt : ∀ sid ∈ a.core.freeSids ++ a.dropped, sid < a.core.streams.length)
    (honce : (a.core.freeSids ++ a.dropped).Nodup)
    (hempty : ∀ sid ∈ a.core.freeSids, a.core.streams[sid]? = some []) :
    Opened a a.newStream.1 a.newStream.2 := by
  have hdropped : ∀ sid ∈ a.dropped, sid < a.core.streams.length :=
    fun sid hmem => hlt sid (List.mem_append_right _ hmem)
  obtain ⟨streams, heq, hlength, hrest, hgone⟩ := foldl_dropStream hdropped
  have hspare : ∀ sid ∈ a.core.freeSids ++ a.dropped, streams[sid]? = some [] := by
    intro sid hmem
    by_cases hlate : sid ∈ a.dropped
    · exact hgone sid hlate
    · rw [hrest sid hlate]
      exact hempty sid ((List.mem_append.1 hmem).resolve_right hlate)
  have hothers : ∀ sid ∉ a.core.freeSids ++ a.dropped, streams[sid]? = a.core.streams[sid]? := by
    intro sid hnot
    exact hrest sid fun hmem => hnot (List.mem_append_right _ hmem)
  unfold RustArena.newStream
  rw [heq]
  unfold ArenaCore.newStream
  cases hlast : (a.core.freeSids ++ a.dropped).getLast? with
  | none =>
    have hnil : a.core.freeSids ++ a.dropped = [] := List.getLast?_eq_none_iff.1 hlast
    simp only [hlast]
    refine ⟨⟨rfl, rfl, rfl, rfl, rfl⟩, .inr hlength, ?_, ?_, rfl, ?_, ?_⟩
    · simp
    · intro sid' hnot hsid'
      dsimp only
      rw [List.getElem?_append_left (by omega)]
      exact hothers sid' hnot
    · intro sid' hmem
      dsimp only at hmem
      rw [hnil] at hmem
      cases hmem
    · dsimp only
      rw [hnil]
      exact List.nodup_nil
  | some sid =>
    have hsid : sid ∈ a.core.freeSids ++ a.dropped := List.mem_of_getLast? hlast
    have hsplit : (a.core.freeSids ++ a.dropped).dropLast ++ [sid] = a.core.freeSids ++ a.dropped :=
      List.dropLast_append_getLast? sid hlast
    have honce' := honce
    rw [← hsplit, List.nodup_append] at honce'
    simp only [hlast]
    refine ⟨⟨rfl, rfl, rfl, rfl, rfl⟩, .inl hsid, hspare sid hsid, ?_, rfl, ?_, honce'.1⟩
    · intro sid' hnot _
      exact hothers sid' hnot
    · intro sid' hmem
      have hmem' : sid' ∈ a.core.freeSids ++ a.dropped := List.dropLast_subset _ hmem
      refine ⟨hmem', ?_, ?_, hspare sid' hmem'⟩
      · exact honce'.2.2 sid' hmem sid (by simp)
      · dsimp only
        rw [hlength]
        exact hlt sid' hmem'

variable [DecidableEq Handle]

/-- After one handle lets go of its id, the others have theirs. -/
theorem sid_dropped {sids : Handle → Option ℕ} {handle other : Handle} {sid : ℕ}
    (h : Function.update sids handle none other = some sid) :
    other ≠ handle ∧ sids other = some sid := by
  by_cases heq : other = handle
  · subst heq
    simp at h
  · rw [Function.update_of_ne heq] at h
    exact ⟨heq, h⟩

/-- After one handle gets an id, the others have theirs. -/
theorem sid_added {sids : Handle → Option ℕ} {handle other : Handle} {new sid : ℕ}
    (h : Function.update sids handle (some new) other = some sid) :
    other = handle ∧ new = sid ∨ other ≠ handle ∧ sids other = some sid := by
  by_cases heq : other = handle
  · subst heq
    rw [Function.update_self, Option.some.injEq] at h
    exact Or.inl ⟨rfl, h⟩
  · rw [Function.update_of_ne heq] at h
    exact Or.inr ⟨heq, h⟩

/-- Ids that are one handle's each stay so when one more handle gets an id that
is nobody's. -/
theorem one_handle_added {sids : Handle → Option ℕ} {handle : Handle} {new : ℕ}
    (hone : ∀ handle handle' sid, sids handle = some sid → sids handle' = some sid →
      handle = handle') (hnew : ∀ handle sid, sids handle = some sid → sid ≠ new)
    (other other' : Handle) (sid : ℕ)
    (h : Function.update sids handle (some new) other = some sid)
    (h' : Function.update sids handle (some new) other' = some sid) : other = other' := by
  rcases sid_added h with ⟨rfl, rfl⟩ | ⟨-, hsid⟩
  · rcases sid_added h' with ⟨rfl, -⟩ | ⟨-, hsid'⟩
    · rfl
    · exact absurd rfl (hnew other' new hsid')
  · rcases sid_added h' with ⟨rfl, rfl⟩ | ⟨-, hsid'⟩
    · exact absurd rfl (hnew other new hsid)
    · exact hone other other' sid hsid hsid'

/-- And when one lets go of its own. -/
theorem one_handle_dropped {sids : Handle → Option ℕ} {handle : Handle}
    (hone : ∀ handle handle' sid, sids handle = some sid → sids handle' = some sid →
      handle = handle') (other other' : Handle) (sid : ℕ)
    (h : Function.update sids handle none other = some sid)
    (h' : Function.update sids handle none other' = some sid) : other = other' :=
  hone other other' sid (sid_dropped h).2 (sid_dropped h').2

omit [DecidableEq Handle] in
/-- Whatever leaves the books alone leaves the pools the same. -/
theorem SamePool.of_books {a b : RustArena Index Writes} {c : PythonArena Index Writes}
    (h : SamePool a c)
    (hbooks : b.core.free = a.core.free ∧ b.core.owners = a.core.owners ∧
      b.core.sealed = a.core.sealed ∧ b.index = a.index ∧ b.writes = a.writes) :
    SamePool b c where
  free := hbooks.1.trans h.free
  owners := hbooks.2.1.trans h.owners
  sealed := hbooks.2.2.1.trans h.sealed
  index := hbooks.2.2.2.1.trans h.index
  writes := hbooks.2.2.2.2.trans h.writes
  length := h.length
  inPool := h.inPool

/-- A new stream is empty in both, under ids no other stream has. -/
theorem Paired.newStream (h : Paired w v) {handle : Handle} (hnew : v.sid handle = none) :
    Paired
      { w with
        arena := w.arena.newStream.2
        sid := Function.update w.sid handle (some w.arena.newStream.1) }
      { v with
        arena := v.arena.newStream.2
        sid := Function.update v.sid handle (some v.arena.newStream.1) } := by
  have hopen := newStream_opened (fun sid hmem => (h.apart.spare sid hmem).1) h.apart.once
    h.apart.emptied
  have hothers : ∀ handle' sid, w.sid handle' = some sid →
      sid ∉ w.arena.core.freeSids ++ w.arena.dropped ∧ sid < w.arena.core.streams.length := by
    intro handle' sid hsid
    constructor
    · intro hmem
      exact (h.apart.spare sid hmem).2 handle' hsid
    · obtain ⟨sid', hsid'⟩ := Option.ne_none_iff_exists'.1
        (mt (h.same.held handle').2 (by rw [hsid]; exact Option.some_ne_none sid))
      obtain ⟨pages, hpages, -⟩ := h.same.pages handle' sid sid' hsid hsid'
      exact (List.getElem?_eq_some_iff.1 hpages).1
  generalize w.arena.newStream.2 = b at hopen
  generalize w.arena.newStream.1 = new at hopen
  have hfresh : ∀ handle' sid, w.sid handle' = some sid → sid ≠ new := by
    rintro handle' sid hsid rfl
    obtain ⟨hnot, hlt⟩ := hothers handle' sid hsid
    rcases hopen.spare with hmem | hnext
    · exact hnot hmem
    · omega
  constructor
  · refine ⟨?_, h.same.caches, ?_, ?_⟩
    · have hpool := h.same.pool.of_books hopen.pool
      exact ⟨hpool.free, hpool.owners, hpool.sealed, hpool.index, hpool.writes, hpool.length,
        hpool.inPool⟩
    · intro handle'
      by_cases heq : handle' = handle
      · subst heq
        simp
      · simp only [Function.update_of_ne heq]
        exact h.same.held handle'
    · intro handle' sid sid' hsid hsid'
      by_cases heq : handle' = handle
      · subst heq
        simp only [Function.update_self, Option.some.injEq] at hsid hsid'
        subst hsid
        subst hsid'
        exact ⟨[], hopen.empty, Function.update_self ..⟩
      · simp only [Function.update_of_ne heq] at hsid hsid'
        obtain ⟨pages, hrust, hpython⟩ := h.same.pages handle' sid sid' hsid hsid'
        obtain ⟨hnot, hlt⟩ := hothers handle' sid hsid
        refine ⟨pages, ?_, ?_⟩
        · dsimp only
          rw [hopen.others sid hnot hlt, hrust]
        · have hbelow := h.apart.below handle' sid' hsid'
          unfold PythonArena.newStream
          dsimp only
          rw [Function.update_of_ne (by omega), hpython]
  · constructor
    · exact one_handle_added h.apart.rust hfresh
    · exact one_handle_added h.apart.python fun handle' sid hsid =>
        (h.apart.below handle' sid hsid).ne
    · intro sid hmem
      dsimp only at hmem ⊢
      rw [hopen.dropped, List.append_nil] at hmem
      obtain ⟨hspare, hne, hlt, -⟩ := hopen.left sid hmem
      refine ⟨hlt, fun handle' hsid => ?_⟩
      rcases sid_added hsid with ⟨-, rfl⟩ | ⟨-, hsid⟩
      · exact hne rfl
      · exact (h.apart.spare sid hspare).2 handle' hsid
    · dsimp only
      rw [hopen.dropped, List.append_nil]
      exact hopen.once
    · intro sid hmem
      exact (hopen.left sid hmem).2.2.2
    · intro handle' sid hsid
      unfold PythonArena.newStream at hsid ⊢
      dsimp only at hsid ⊢
      rcases sid_added hsid with ⟨-, rfl⟩ | ⟨-, hsid⟩
      · omega
      · have hbelow := h.apart.below handle' sid hsid
        omega

/-- What a dropped stream does to the Rust arena: its id is spare, one way or the
other, and only it loses its pages. -/
structure Closed (a : RustArena Index Writes) (sid : ℕ) (b : RustArena Index Writes) : Prop where
  /-- The books are not touched. -/
  pool : b.core.free = a.core.free ∧ b.core.owners = a.core.owners ∧
    b.core.sealed = a.core.sealed ∧ b.index = a.index ∧ b.writes = a.writes
  /-- No id is given up. -/
  length : b.core.streams.length = a.core.streams.length
  /-- The others have their pages. -/
  others : ∀ other, other ≠ sid → b.core.streams[other]? = a.core.streams[other]?
  /-- The id is spare. -/
  spare : (b.core.freeSids ++ b.dropped).Perm (sid :: (a.core.freeSids ++ a.dropped))
  /-- The ids that are spare now have no pages. -/
  emptied : ∀ other ∈ b.core.freeSids, b.core.streams[other]? = some []

omit [DecidableEq Handle] in
/-- A stream is dropped at once, or put aside while the arena is locked. -/
theorem dropStream_closed {a : RustArena Index Writes} {sid : ℕ}
    (hlt : sid < a.core.streams.length)
    (hempty : ∀ other ∈ a.core.freeSids, a.core.streams[other]? = some []) (locked : Bool) :
    Closed a sid (a.dropStream sid locked) := by
  unfold RustArena.dropStream
  cases locked with
  | true =>
    refine ⟨⟨rfl, rfl, rfl, rfl, rfl⟩, rfl, fun _ _ => rfl, ?_, hempty⟩
    change (a.core.freeSids ++ (a.dropped ++ [sid])).Perm _
    rw [← List.append_assoc]
    exact List.perm_append_comm
  | false =>
    have hcore : a.core.dropStream sid = { a.core with
        streams := a.core.streams.set sid []
        freeSids := a.core.freeSids ++ [sid] } := by
      unfold ArenaCore.dropStream
      rw [if_pos hlt]
    rw [if_neg (by decide), hcore]
    refine ⟨⟨rfl, rfl, rfl, rfl, rfl⟩, by rw [List.length_set], ?_, ?_, ?_⟩
    · intro other hne
      dsimp only
      rw [List.getElem?_set_ne (Ne.symm hne)]
    · dsimp only
      rw [List.append_assoc, List.singleton_append]
      exact List.perm_middle
    · intro other hmem
      dsimp only at hmem ⊢
      by_cases hother : other = sid
      · rw [hother, List.getElem?_set_self hlt]
      · rw [List.getElem?_set_ne (Ne.symm hother)]
        have hmem' : other ∈ a.core.freeSids := by simpa [hother] using hmem
        exact hempty other hmem'

/-- A dropped stream's id is spare in Rust, now or once the arena is not locked. -/
theorem Paired.dropStream (h : Paired w v) {handle : Handle} (hheld : v.sid handle ≠ none)
    (locked : Bool) :
    Paired
      { w with
        arena := w.arena.dropStream (w.sidOf handle) locked
        sid := Function.update w.sid handle none }
      { v with
        arena := v.arena.dropStream (v.sidOf handle)
        sid := Function.update v.sid handle none } := by
  obtain ⟨sid, sid', hsid, hsid', heq, heq'⟩ := h.same.sids hheld
  obtain ⟨pages, hrust, -⟩ := h.same.pages handle sid sid' hsid hsid'
  have hlt : sid < w.arena.core.streams.length := (List.getElem?_eq_some_iff.1 hrust).1
  have hnot : sid ∉ w.arena.core.freeSids ++ w.arena.dropped :=
    fun hmem => (h.apart.spare sid hmem).2 handle hsid
  have hclosed := dropStream_closed hlt h.apart.emptied locked
  rw [heq, heq']
  generalize w.arena.dropStream sid locked = b at hclosed
  constructor
  · refine ⟨?_, h.same.caches, ?_, ?_⟩
    · have hpool := h.same.pool.of_books hclosed.pool
      exact ⟨hpool.free, hpool.owners, hpool.sealed, hpool.index, hpool.writes, hpool.length,
        hpool.inPool⟩
    · intro other
      by_cases hother : other = handle
      · subst hother
        simp
      · simp only [Function.update_of_ne hother]
        exact h.same.held other
    · intro other s s' hs hs'
      obtain ⟨hother, hs⟩ := sid_dropped hs
      have hold' := (sid_dropped hs').2
      obtain ⟨pages, hrust, hpython⟩ := h.same.pages other s s' hs hold'
      have hne : s ≠ sid := by
        rintro rfl
        exact hother (h.apart.rust other handle s hs hsid)
      have hne' : s' ≠ sid' := by
        rintro rfl
        exact hother (h.apart.python other handle s' hold' hsid')
      refine ⟨pages, ?_, ?_⟩
      · dsimp only
        rw [hclosed.others s hne, hrust]
      · unfold PythonArena.dropStream
        dsimp only
        rw [Function.update_of_ne hne', hpython]
  · constructor
    · exact one_handle_dropped h.apart.rust
    · exact one_handle_dropped h.apart.python
    · intro s hmem
      dsimp only at hmem ⊢
      rw [hclosed.length]
      rcases List.mem_cons.1 (hclosed.spare.mem_iff.1 hmem) with rfl | hmem
      · refine ⟨hlt, fun other hs => ?_⟩
        obtain ⟨hother, hs⟩ := sid_dropped hs
        exact hother (h.apart.rust other handle s hs hsid)
      · exact ⟨(h.apart.spare s hmem).1, fun other hs =>
          (h.apart.spare s hmem).2 other (sid_dropped hs).2⟩
    · exact hclosed.spare.nodup_iff.2 (List.nodup_cons.2 ⟨hnot, h.apart.once⟩)
    · exact hclosed.emptied
    · exact fun other s hs => h.apart.below other s (sid_dropped hs).2

omit [DecidableEq Handle] in
/-- A stream's pages set in both. -/
theorem Paired.assign (h : Paired w v) {handle : Handle} (hheld : v.sid handle ≠ none)
    (pages : List ℤ) :
    Paired { w with arena := w.arena.assign (w.sidOf handle) pages }
      { v with arena := v.arena.assign (v.sidOf handle) pages } := by
  obtain ⟨sid, sid', hsid, hsid', heq, heq'⟩ := h.same.sids hheld
  obtain ⟨old, hrust, hpython⟩ := h.same.pages handle sid sid' hsid hsid'
  have hlt : sid < w.arena.core.streams.length := (List.getElem?_eq_some_iff.1 hrust).1
  have hpool := h.same.pool
  rw [heq, heq']
  unfold RustArena.assign PythonArena.assign
  constructor
  · refine ⟨⟨hpool.free, hpool.owners, hpool.sealed, hpool.index, hpool.writes, hpool.length,
      hpool.inPool⟩, h.same.caches, h.same.held, ?_⟩
    intro other s s' hs hs'
    dsimp only
    by_cases hother : other = handle
    · subst hother
      have hs : w.sid other = some s := hs
      have hs' : v.sid other = some s' := hs'
      rw [hsid, Option.some.injEq] at hs
      rw [hsid', Option.some.injEq] at hs'
      subst hs
      subst hs'
      refine ⟨pages, List.getElem?_set_self hlt, ?_⟩
      rw [Function.update_self, hpython]
      rfl
    · have hne : s ≠ sid := by
        rintro rfl
        exact hother (h.apart.rust other handle s hs hsid)
      have hne' : s' ≠ sid' := by
        rintro rfl
        exact hother (h.apart.python other handle s' hs' hsid')
      rw [List.getElem?_set_ne (Ne.symm hne), Function.update_of_ne hne']
      exact h.same.pages other s s' hs hs'
  · refine ⟨h.apart.rust, h.apart.python, ?_, h.apart.once, ?_, h.apart.below⟩
    · intro s hmem
      dsimp only
      rw [List.length_set]
      exact h.apart.spare s hmem
    · intro s hmem
      have hne : s ≠ sid := by
        rintro rfl
        exact (h.apart.spare s (List.mem_append_left _ hmem)).2 handle hsid
      dsimp only
      rw [List.getElem?_set_ne (Ne.symm hne)]
      exact h.apart.emptied s hmem

omit [DecidableEq Handle] in
/-- Outcomes alike are answers alike. -/
theorem alike_answerOf {out out' : Option Raised} (h : OutcomeAlike out out') :
    (answerOf out : Answer Ref).Alike (answerOf out') := by
  cases out with
  | none =>
    cases out' with
    | none => exact .same _
    | some e' => exact h.elim
  | some e =>
    cases out' with
    | none => exact h.elim
    | some e' => exact .raised h

omit [DecidableEq Handle] in
/-- The streams of some handles hold the same pages in both. -/
theorem Same.forall₂ (h : Same w v) {handles : List Handle}
    (hheld : ∀ handle ∈ handles, v.sid handle ≠ none) :
    ∃ held, List.Forall₂ (fun sid pages => w.arena.core.streams[sid]? = some pages)
        (handles.map w.sidOf) held ∧
      List.Forall₂ (fun sid pages => v.arena.streams sid = some pages) (handles.map v.sidOf) held ∧
      held.length = handles.length := by
  induction handles with
  | nil => exact ⟨[], .nil, .nil, rfl⟩
  | cons handle handles ih =>
    obtain ⟨held, hrust, hpython, hlength⟩ :=
      ih fun handle hmem => hheld handle (List.mem_cons_of_mem _ hmem)
    obtain ⟨pages, hpages, hpages'⟩ := h.samePages (hheld handle List.mem_cons_self)
    exact ⟨pages :: held, .cons hpages hrust, .cons hpages' hpython, by simp [hlength]⟩

variable [DecidableEq Rid] [DecidableEq Label] [DecidableEq Ref]

omit [DecidableEq Handle] [DecidableEq Rid] [DecidableEq Label] [DecidableEq Ref] in
/-- The rows of live streams are held in both. -/
theorem Same.rowsHeld (h : Same w v) {rows : List (Option (Option Ref))} (hlive : RowsLive v rows) :
    RowsHeld w.arena.core v.arena w.sidOf v.sidOf v.caches rows :=
  fun cs hcs => h.samePages (hlive cs hcs)

omit [DecidableEq Handle] [DecidableEq Ref] in
/-- Pairing the rows with their segments loses none. -/
theorem snd_zip_rows (caches : Caches Rid Label Ref Handle) (real : Option (List Rid))
    (sink : List (Rid × Label)) (segments : List (Segment Rid Label)) :
    (segments.zip (PythonArena.rows caches real sink segments)).map Prod.snd =
      PythonArena.rows caches real sink segments := by
  have hlength : (PythonArena.rows caches real sink segments).length = segments.length := by
    unfold PythonArena.rows
    exact List.length_map ..
  exact List.map_snd_zip (Nat.le_of_eq hlength)

omit [DecidableEq Handle] [DecidableEq Rid] [DecidableEq Label] [DecidableEq Ref] in
/-- The pages of streams that are there. -/
theorem streams_eq_held {sids : List ℕ} {held : List (List ℤ)}
    (h : List.Forall₂ (fun sid pages => v.arena.streams sid = some pages) sids held) :
    (sids.map fun sid => (v.arena.streams sid).getD []) = held := by
  induction h with
  | nil => rfl
  | cons hone _ ih =>
    rw [List.map_cons, hone, ih]
    rfl

omit [DecidableEq Handle] [DecidableEq Ref] in
/-- Both plan the same columns over a step's rows. -/
theorem planRows_alike (h : Same w v) (hapart : Apart w v) {segments : List (Segment Rid Label)}
    {real : Option (List Rid)} {sink : List (Rid × Label)} {onSink : Handle} {pageSize : ℕ}
    (hsize : 0 < pageSize) (hone : segments ≠ []) (hsink : v.sid onSink ≠ none)
    (hlive : RowsLive v (PythonArena.rows v.caches real sink segments))
    (hne : ∀ cs, some (some cs) ∈ PythonArena.rows v.caches real sink segments →
      (v.caches.objects cs).pageIndices ≠ onSink)
    (hplan : ∀ sids lens gens, PythonArena.planReads v.sidOf v.caches (v.sidOf onSink) 0
        (segments.zip (PythonArena.rows v.caches real sink segments)) = .ok (sids, lens, gens) →
      Plannable v sids lens (segments.map Segment.span) pageSize) :
    (w.arena.planRows w.sidOf w.caches segments real sink (w.sidOf onSink) pageSize).Alike
      (v.arena.planRows v.sidOf v.caches segments real sink (v.sidOf onSink) pageSize) := by
  unfold RustArena.planRows PythonArena.planRows
  rw [h.caches]
  dsimp only
  rw [zip_spans_eq]
  have hsnd := snd_zip_rows v.caches real sink segments
  have hheld := h.rowsHeld hlive
  have hids : ∀ cs, some (some cs) ∈ PythonArena.rows v.caches real sink segments →
      v.sidOf (v.caches.objects cs).pageIndices ≠ v.sidOf onSink := by
    intro cs hcs heq
    obtain ⟨-, sid, -, hsid, -, hcsid⟩ := h.sids (hlive cs hcs)
    obtain ⟨-, sid', -, hsid', -, hsinkid⟩ := h.sids hsink
    rw [hcsid, hsinkid] at heq
    subst heq
    exact hne cs hcs (hapart.python _ _ _ hsid hsid')
  rw [← hsnd] at hheld hids
  rcases planReads_eq (h.samePages hsink) hheld hids (i := 0) [] [] [] 0 with
    ⟨e, hpython, hrust⟩ | ⟨more, more', lens, gens, held, hpython, hrust, hmore, hmore', hlength⟩
  · rw [hpython, hrust]
    exact .same _
  · rw [hpython, hrust]
    simp only [List.nil_append]
    have hzip : (segments.zip (PythonArena.rows v.caches real sink segments)).length =
        segments.length := by
      unfold PythonArena.rows
      rw [List.length_zip, List.length_map, Nat.min_self]
    have hheldne : held ≠ [] := by
      rw [← List.length_pos_iff, hlength, hzip, List.length_pos_iff]
      exact hone
    obtain ⟨hfits, hround⟩ := hplan _ _ _ hpython
    rw [streams_eq_held hmore'] at hfits
    have hcols := planColumns_alike hsize hheldne hmore hmore' hfits hround
    have hspans : (segments.zip (PythonArena.rows v.caches real sink segments)).map
        (fun row => row.1.span) = segments.map Segment.span := by
      have hfst : (segments.zip (PythonArena.rows v.caches real sink segments)).map Prod.fst =
          segments := by
        have hlength : (PythonArena.rows v.caches real sink segments).length =
            segments.length := by
          unfold PythonArena.rows
          exact List.length_map ..
        exact List.map_fst_zip (Nat.le_of_eq hlength.symm)
      conv_rhs => rw [← hfst, List.map_map]
      rfl
    have hdecide : decide (0 < segments.length) = !(segments.map Segment.span).isEmpty := by
      cases segments with
      | nil => exact absurd rfl hone
      | cons seg segments => simp
    rw [hspans, hdecide]
    revert hcols
    cases w.arena.core.planColumns more lens (segments.map Segment.span) pageSize with
    | error e =>
      cases v.arena.planColumns more' lens (segments.map Segment.span) pageSize with
      | error e' => exact fun hcols => .raised hcols
      | ok cols => exact fun hcols => hcols.elim
    | ok cols =>
      cases v.arena.planColumns more' lens (segments.map Segment.span) pageSize with
      | error e' => exact fun hcols => hcols.elim
      | ok cols' =>
        obtain ⟨out, total, allHavePages⟩ := cols'
        rintro ⟨rfl, rfl, rfl⟩
        exact .same _

/-- One call of both arenas. -/
theorem step_paired (h : Paired w v) (op : Op Index Writes Rid Label Ref Handle)
    (hop : Enabled v op) :
    Paired (rustStep cb w op).2 (pythonStep cb v op).2 ∧
      (rustStep cb w op).1.Alike (pythonStep cb v op).1 := by
  cases op with
  | acquire n =>
    obtain ⟨heq, hpool, hkept⟩ := acquire_same h.same.pool n
    refine ⟨h.moved hpool hkept, ?_⟩
    unfold rustStep pythonStep
    dsimp only
    rw [heq]
    exact .same _
  | retain pages =>
    have hmoved := retain_same cb h.same.pool hop.1.1 hop.2
    unfold rustStep pythonStep
    dsimp only
    rw [h.same.pages_eq hop.1.2]
    exact ⟨h.moved hmoved.pool hmoved.kept, alike_answerOf hmoved.outcome⟩
  | release pages =>
    have hmoved := release_same cb h.same.pool hop.1 (List.forall_mem_nil _)
    unfold rustStep pythonStep
    dsimp only
    rw [h.same.pages_eq hop.2]
    exact ⟨h.moved hmoved.pool hmoved.kept, alike_answerOf hmoved.outcome⟩
  | sealPages pages =>
    have hmoved := sealPages_same h.same.pool hop.1
    unfold rustStep pythonStep
    dsimp only
    rw [h.same.pages_eq hop.2]
    exact ⟨h.moved hmoved.pool hmoved.kept, alike_answerOf hmoved.outcome⟩
  | newStream handle => exact ⟨h.newStream hop, .same _⟩
  | dropStream handle locked => exact ⟨h.dropStream hop locked, .same _⟩
  | assign handle pages => exact ⟨h.assign hop pages, .same _⟩
  | admitRows segments real sink pageSize =>
    refine ⟨h, ?_⟩
    unfold rustStep pythonStep
    dsimp only
    rw [h.same.caches]
    have hheld := h.same.rowsHeld hop
    rw [← snd_zip_rows v.caches real sink segments] at hheld
    rw [zip_spans_eq, admitRows_eq hheld]
    exact .same _
  | setInFlight marked inFlight =>
    refine ⟨?_, .same _⟩
    unfold rustStep pythonStep
    dsimp only
    rw [h.same.caches]
    exact h.setCaches _
  | setRowsInFlight segments real sink inFlight =>
    refine ⟨?_, .same _⟩
    unfold rustStep pythonStep
    dsimp only
    rw [h.same.caches, resolveRows_eq, setRowsInFlight_eq]
    exact h.setCaches _
  | commitRows segments real sink keep =>
    unfold rustStep pythonStep
    dsimp only
    rw [h.same.caches, zip_spans_eq, commitRows_eq]
    exact ⟨h.setCaches _, .same _⟩
  | planColumns handles lens spans pageSize =>
    obtain ⟨hsize, hone, hheld, hfits, hround⟩ := hop
    refine ⟨h, ?_⟩
    unfold rustStep pythonStep
    dsimp only
    obtain ⟨held, hrust, hpython, hlength⟩ := h.same.forall₂ hheld
    have hheldne : held ≠ [] := by
      rw [← List.length_pos_iff, hlength, List.length_pos_iff]
      exact hone
    rw [streams_eq_held hpython] at hfits
    have hcols := planColumns_alike hsize hheldne hrust hpython hfits hround
    revert hcols
    cases w.arena.core.planColumns (handles.map w.sidOf) lens spans pageSize with
    | error e =>
      cases v.arena.planColumns (handles.map v.sidOf) lens spans pageSize with
      | error e' => exact fun hcols => .raised hcols
      | ok cols => exact fun hcols => hcols.elim
    | ok cols =>
      cases v.arena.planColumns (handles.map v.sidOf) lens spans pageSize with
      | error e' => exact fun hcols => hcols.elim
      | ok cols' =>
        obtain ⟨out, total, allHavePages⟩ := cols'
        rintro ⟨rfl, rfl, rfl⟩
        exact .same _
  | planRows segments real sink onSink pageSize =>
    obtain ⟨hsize, hone, hsink, hlive, hne, hplan⟩ := hop
    exact ⟨h, planRows_alike h.same h.apart hsize hone hsink hlive hne hplan⟩
  | setCaches caches => exact ⟨h.setCaches caches, .same _⟩
  | setIndex index writes =>
    have hpool := h.same.pool
    refine ⟨h.moved ?_ ⟨rfl, rfl, rfl, rfl, rfl⟩, .same _⟩
    exact ⟨hpool.free, hpool.owners, hpool.sealed, rfl, rfl, hpool.length, hpool.inPool⟩

omit [DecidableEq Handle] [DecidableEq Rid] [DecidableEq Label] [DecidableEq Ref] in
/-- Fresh arenas are paired. -/
theorem fresh_paired {maxNumPages : ℕ} (hmax : maxNumPages < 2147483648) (index : Option Index) (writes : Option Writes)
    (caches : Caches Rid Label Ref Handle) :
    Paired (World.mk (RustArena.new maxNumPages index writes) caches fun _ => none)
      (World.mk (PythonArena.new maxNumPages index writes) caches fun _ => none) := by
  have hfree : (ArenaCore.new maxNumPages).free = (List.range maxNumPages).map Int.ofNat := by
    unfold ArenaCore.new
    rw [asI32_of_isI32 (by unfold IsI32; omega), Int.toNat_natCast]
  constructor
  · refine ⟨⟨hfree, rfl, rfl, rfl, rfl, ?_, ?_⟩, rfl, fun _ => Iff.rfl, ?_⟩
    · simp [PythonArena.new]
    · intro page hpage
      simp only [PythonArena.new, List.mem_map, List.mem_range] at hpage
      obtain ⟨i, hi, rfl⟩ := hpage
      simp only [PythonArena.new, List.length_replicate]
      constructor
      · exact Int.natCast_nonneg i
      · exact hi
    · intro handle sid sid' hsid
      cases hsid
  · constructor
    · intro handle handle' sid hsid
      cases hsid
    · intro handle handle' sid hsid
      cases hsid
    · simp [RustArena.new, ArenaCore.new]
    · exact List.nodup_nil
    · simp [RustArena.new, ArenaCore.new]
    · intro handle sid hsid
      cases hsid

/-- Both arenas driven by one caller, from fresh pools of one size. -/
inductive Runs (cb : Callbacks Index Writes) :
    World (RustArena Index Writes) Rid Label Ref Handle →
      World (PythonArena Index Writes) Rid Label Ref Handle → Prop
  /-- Nothing was called yet. -/
  | fresh (maxNumPages : ℕ) (hmax : maxNumPages < 2147483648) (index : Option Index)
      (writes : Option Writes) (caches : Caches Rid Label Ref Handle) :
      Runs cb ⟨RustArena.new maxNumPages index writes, caches, fun _ => none⟩
        ⟨PythonArena.new maxNumPages index writes, caches, fun _ => none⟩
  /-- One call more. -/
  | call {w : World (RustArena Index Writes) Rid Label Ref Handle}
      {v : World (PythonArena Index Writes) Rid Label Ref Handle} (h : Runs cb w v)
      (op : Op Index Writes Rid Label Ref Handle) (hop : Enabled v op) :
      Runs cb (rustStep cb w op).2 (pythonStep cb v op).2

/-- So are they after every run. -/
theorem Runs.paired (h : Runs cb w v) : Paired w v := by
  induction h with
  | fresh maxNumPages hmax index writes caches => exact fresh_paired hmax index writes caches
  | call h op hop ih => exact (step_paired ih op hop).1

/-- A call that moves one page after the other. -/
def Op.PageByPage : Op Index Writes Rid Label Ref Handle → Prop
  | .retain _ | .release _ | .sealPages _ => True
  | _ => False

/-- A call was refused: it raised, or had no pages to give. -/
def Answer.Refused : Answer Ref → Prop
  | .raised _ => True
  | .pages none => True
  | _ => False

/-- A refused call, unless it moves page by page, changes neither arena. -/
theorem refused_unchanged (h : Paired w v) {op : Op Index Writes Rid Label Ref Handle}
    (hop : Enabled v op) (hrefused : (rustStep cb w op).1.Refused) :
    op.PageByPage ∨ (rustStep cb w op).2 = w ∧ (pythonStep cb v op).2 = v := by
  cases op with
  | acquire n =>
    right
    have hfree := h.same.pool.free
    by_cases hfew : v.arena.free.length < n
    · unfold rustStep pythonStep RustArena.acquire ArenaCore.acquire PythonArena.acquire
      dsimp only
      rw [hfree, if_pos hfew, if_pos hfew]
      exact ⟨rfl, rfl⟩
    · unfold rustStep RustArena.acquire ArenaCore.acquire at hrefused
      dsimp only at hrefused
      rw [hfree, if_neg hfew] at hrefused
      exact hrefused.elim
  | retain pages => exact .inl trivial
  | release pages => exact .inl trivial
  | sealPages pages => exact .inl trivial
  | newStream handle => exact hrefused.elim
  | dropStream handle locked => exact hrefused.elim
  | assign handle pages => exact hrefused.elim
  | admitRows segments real sink pageSize => exact .inr ⟨rfl, rfl⟩
  | setInFlight marked inFlight => exact hrefused.elim
  | setRowsInFlight segments real sink inFlight => exact hrefused.elim
  | commitRows segments real sink keep => exact hrefused.elim
  | planColumns handles lens spans pageSize => exact .inr ⟨rfl, rfl⟩
  | planRows segments real sink onSink pageSize => exact .inr ⟨rfl, rfl⟩
  | setCaches caches => exact hrefused.elim
  | setIndex index writes => exact hrefused.elim

/-- After any calls by one caller, both arenas keep the same books, and its next
call is answered alike by both, leaves both with the same books, and changes
neither if it is refused and does not move page by page. -/
theorem rust_refines_python (h : Runs cb w v) :
    Same w v ∧ ∀ op : Op Index Writes Rid Label Ref Handle, Enabled v op →
      (rustStep cb w op).1.Alike (pythonStep cb v op).1 ∧
      Same (rustStep cb w op).2 (pythonStep cb v op).2 ∧
      ((rustStep cb w op).1.Refused →
        op.PageByPage ∨ (rustStep cb w op).2 = w ∧ (pythonStep cb v op).2 = v) := by
  refine ⟨h.paired.same, ?_⟩
  intro op hop
  obtain ⟨hpaired, halike⟩ := step_paired h.paired op hop
  exact ⟨halike, hpaired.same, refused_unchanged h.paired hop⟩

/-- Callbacks that do nothing. -/
def silent : Callbacks Unit Unit where
  setShared index _ _ _ := (none, index)
  queueKey _ writes _ := (none, writes)

/-- No request has a cache yet. -/
def noCaches : Caches Unit Unit Unit Unit where
  streams _ _ := none
  objects _ := ⟨(), 0, 0, false, false⟩

/-- A page acquired and released twice in one call: refused by both. -/
theorem rust_refines_python_twice :
    ∃ w v, Runs silent (w : World (RustArena Unit Unit) Unit Unit Unit Unit) v ∧
      w.arena.core.owners = [1] ∧
      (rustStep silent w (.release (.list [0, 0]))).1.Alike
        (pythonStep silent v (.release (.list [0, 0]))).1 := by
  have hfresh : Runs silent ⟨RustArena.new 1 none none, noCaches, fun _ => none⟩
      ⟨PythonArena.new 1 none none, noCaches, fun _ => none⟩ := .fresh 1 (by decide) none none noCaches
  have hrun := hfresh.call (.acquire 1) trivial
  refine ⟨_, _, hrun, by decide, ?_⟩
  refine ((rust_refines_python hrun).2 (.release (.list [0, 0])) ⟨?_, ?_⟩).1
  · intro page hpage
    simp only [pythonPages, List.mem_cons, List.not_mem_nil, or_false, or_self] at hpage
    omega
  · intro handle hhandle
    cases hhandle

/-- One request with one cache, whose pages are the only stream. -/
def oneCache : Caches Unit Unit Unit Unit where
  streams _ _ := some ()
  objects _ := ⟨(), 0, 0, false, false⟩

/-- Where the arenas part ways or a refused call is not undone. A page released
twice in one call is refused by both with the page neither owned nor free. Page
-1 is outside the pool for one and the last page for the other. A stream that is
not in the arena is refused with another exception, and a page size of zero and a
plan without rows are refused by one of them alone, and so is a length past int32.
A row whose own stream is the sink's counts as a row on the sink in one of them. -/
theorem arenas_part_ways :
    let rust := ((RustArena.new 1 none none : RustArena Unit Unit).acquire 1).2
    let python := ((PythonArena.new 1 none none : PythonArena Unit Unit).acquire 1).2
    ((RustArena.release silent [0, 0] [] rust).1 ≠ none ∧
      (PythonArena.release silent [0, 0] [] python).1 ≠ none ∧
      rust.core.owners = [1] ∧ python.numOwners = [1] ∧
      (RustArena.release silent [0, 0] [] rust).2.core.owners = [0] ∧
      (RustArena.release silent [0, 0] [] rust).2.core.free = [] ∧
      (PythonArena.release silent [0, 0] [] python).2.numOwners = [0] ∧
      (PythonArena.release silent [0, 0] [] python).2.free = []) ∧
    ((RustArena.retain silent [-1] rust).1 ≠ none ∧
      (PythonArena.retain silent [-1] python).1 = none ∧
      (PythonArena.retain silent [-1] python).2.numOwners = [2]) ∧
    ((∃ text, rust.core.planColumns [7] [1] [1] 4 = .error ⟨.valueError, text⟩) ∧
      python.planColumns [7] [1] [1] 4 = .error ⟨.keyError, none⟩) ∧
    ((∃ text, rust.newStream.2.core.planColumns [0] [0] [0] 0 = .error ⟨.valueError, text⟩) ∧
      ∃ cols, python.newStream.2.planColumns [0] [0] [0] 0 = .ok cols) ∧
    ((∃ cols, rust.core.planColumns [] [] [] 4 = .ok cols) ∧
      python.planColumns [] [] [] 4 = .error ⟨.typeError, none⟩) ∧
    ((∃ cols, rust.newStream.2.core.planColumns [0] [2147483648] [1] 4 = .ok cols) ∧
      python.newStream.2.planColumns [0] [2147483648] [1] 4 = .error ⟨.overflowError, none⟩) ∧
    ((∃ out total pages lensGens decode,
        rust.newStream.2.planRows (fun _ => 0) oneCache [⟨(), (), 3⟩] none [] 0 4 =
          .plan out total pages lensGens 0 decode) ∧
      ∃ out total pages lensGens decode,
        python.newStream.2.planRows (fun _ => 0) oneCache [⟨(), (), 3⟩] none [] 0 4 =
          .plan out total pages lensGens 3 decode) := by
  refine ⟨⟨by decide, by decide, rfl, rfl, rfl, rfl, rfl, rfl⟩, ⟨by decide, rfl, rfl⟩,
    ⟨⟨_, rfl⟩, rfl⟩, ⟨⟨_, rfl⟩, _, rfl⟩, ⟨⟨_, rfl⟩, rfl⟩, ⟨⟨_, rfl⟩, rfl⟩, ⟨_, _, _, _, _, rfl⟩, _, _, _, _, _, rfl⟩

end Mstar.PageArena
