import Mstar.ArenaPages
import Mstar.ArenaRows

/-!
# The Rust arena refines the Python one

A caller makes the same calls of both arenas. Its streams have other ids in each,
a dropped stream's id is used again in Rust and never in Python, but whatever it
calls, both answer alike and keep the same books.
-/

namespace Mstar.PageArena

/-- An arena with what its caller keeps: its caches, and the stream objects it
holds, with their ids. -/
structure World (Arena Rid Label Ref Handle : Type) where
  arena : Arena
  caches : Caches Rid Label Ref Handle
  sid : Handle → Option ℕ

/-- The pages a call names: a list of them, or a stream's. -/
inductive Pages (Handle : Type) where
  | list (pages : List ℤ)
  | stream (handle : Handle)

/-- What a caller can do: calls of the arena, and changes to its own caches, the
index and the host's queue between them. -/
inductive Op (Index Writes Rid Label Ref Handle : Type) where
  | acquire (n : ℕ)
  | retain (pages : Pages Handle)
  | release (pages : Pages Handle)
  | sealPages (pages : Pages Handle)
  | newStream (handle : Handle)
  | dropStream (handle : Handle) (locked : Bool)
  | assign (handle : Handle) (pages : List ℤ)
  | admitRows (segments : List (Segment Rid Label)) (real : Option (List Rid))
    (sink : List (Rid × Label)) (pageSize : ℕ)
  | setInFlight (marked : List Ref) (inFlight : Bool)
  | setRowsInFlight (segments : List (Segment Rid Label)) (real : Option (List Rid))
    (sink : List (Rid × Label)) (inFlight : Bool)
  | commitRows (segments : List (Segment Rid Label)) (real : Option (List Rid))
    (sink : List (Rid × Label)) (keep : Bool)
  | planColumns (handles : List Handle) (lens spans : List ℕ) (pageSize : ℕ)
  | planRows (segments : List (Segment Rid Label)) (real : Option (List Rid))
    (sink : List (Rid × Label)) (onSink : Handle) (pageSize : ℕ)
  | setCaches (caches : Caches Rid Label Ref Handle)
  | setIndex (index : Option Index) (writes : Option Writes)

/-- The answer of a call that returns nothing. -/
def answerOf {Ref : Type} : Option Raised → Answer Ref
  | none => .done
  | some e => .raised e

section Steps

variable {Index Writes Rid Label Ref Handle Arena : Type} [DecidableEq Rid] [DecidableEq Label]
  [DecidableEq Ref] [DecidableEq Handle] (cb : Callbacks Index Writes)

/-- The id of a stream the caller holds. -/
def World.sidOf (w : World Arena Rid Label Ref Handle) (handle : Handle) : ℕ :=
  (w.sid handle).getD 0

/-- The pages a call of the Rust arena names. -/
def rustPages (w : World (RustArena Index Writes) Rid Label Ref Handle) : Pages Handle → List ℤ
  | .list pages => pages
  | .stream handle => w.arena.core.streams.getD (w.sidOf handle) []

/-- The pages a call of the Python arena names. -/
def pythonPages (v : World (PythonArena Index Writes) Rid Label Ref Handle) :
    Pages Handle → List ℤ
  | .list pages => pages
  | .stream handle => (v.arena.streams (v.sidOf handle)).getD []

/-- A call of the Rust arena. -/
def rustStep (w : World (RustArena Index Writes) Rid Label Ref Handle) :
    Op Index Writes Rid Label Ref Handle →
      Answer Ref × World (RustArena Index Writes) Rid Label Ref Handle
  | .acquire n => (.pages (w.arena.acquire n).1, { w with arena := (w.arena.acquire n).2 })
  | .retain pages =>
    let out := RustArena.retain cb (rustPages w pages) w.arena
    (answerOf out.1, { w with arena := out.2 })
  | .release pages =>
    let out := RustArena.release cb (rustPages w pages) [] w.arena
    (answerOf out.1, { w with arena := out.2 })
  | .sealPages pages =>
    let out := RustArena.sealPages (rustPages w pages) w.arena
    (answerOf out.1, { w with arena := out.2 })
  | .newStream handle =>
    (.done,
      { w with
        arena := w.arena.newStream.2
        sid := Function.update w.sid handle (some w.arena.newStream.1) })
  | .dropStream handle locked =>
    (.done,
      { w with
        arena := w.arena.dropStream (w.sidOf handle) locked
        sid := Function.update w.sid handle none })
  | .assign handle pages => (.done, { w with arena := w.arena.assign (w.sidOf handle) pages })
  | .admitRows segments real sink pageSize =>
    (match w.arena.admitRows w.caches pageSize 0
        ((RustArena.resolveRows w.sidOf w.caches real sink segments).zip
          (segments.map Segment.span)) [] [] with
      | .error e => .raised e
      | .ok (marked, slow) => .rows marked slow, w)
  | .setInFlight marked inFlight =>
    (.done, { w with caches := marked.foldl (fun caches => caches.setInFlight inFlight) w.caches })
  | .setRowsInFlight segments real sink inFlight =>
    (.done,
      { w with
        caches := RustArena.setRowsInFlight inFlight
          (RustArena.resolveRows w.sidOf w.caches real sink segments) w.caches })
  | .commitRows segments real sink keep =>
    let out := RustArena.commitRows keep 0
      ((RustArena.resolveRows w.sidOf w.caches real sink segments).zip
        (segments.map Segment.span)) [] w.caches
    (.slow out.1, { w with caches := out.2 })
  | .planColumns handles lens spans pageSize =>
    (match w.arena.core.planColumns (handles.map w.sidOf) lens spans pageSize with
      | .error e => .raised e
      | .ok cols => .columns cols.out cols.total cols.allHavePages, w)
  | .planRows segments real sink onSink pageSize =>
    (w.arena.planRows w.sidOf w.caches segments real sink (w.sidOf onSink) pageSize, w)
  | .setCaches caches => (.done, { w with caches := caches })
  | .setIndex index writes =>
    (.done, { w with arena := { w.arena with index := index, writes := writes } })

/-- A call of the Python arena. -/
def pythonStep (v : World (PythonArena Index Writes) Rid Label Ref Handle) :
    Op Index Writes Rid Label Ref Handle →
      Answer Ref × World (PythonArena Index Writes) Rid Label Ref Handle
  | .acquire n => (.pages (v.arena.acquire n).1, { v with arena := (v.arena.acquire n).2 })
  | .retain pages =>
    let out := PythonArena.retain cb (pythonPages v pages) v.arena
    (answerOf out.1, { v with arena := out.2 })
  | .release pages =>
    let out := PythonArena.release cb (pythonPages v pages) [] v.arena
    (answerOf out.1, { v with arena := out.2 })
  | .sealPages pages =>
    let out := PythonArena.sealPages (pythonPages v pages) v.arena
    (answerOf out.1, { v with arena := out.2 })
  | .newStream handle =>
    (.done,
      { v with
        arena := v.arena.newStream.2
        sid := Function.update v.sid handle (some v.arena.newStream.1) })
  | .dropStream handle _ =>
    (.done,
      { v with
        arena := v.arena.dropStream (v.sidOf handle)
        sid := Function.update v.sid handle none })
  | .assign handle pages => (.done, { v with arena := v.arena.assign (v.sidOf handle) pages })
  | .admitRows segments real sink pageSize =>
    let out := v.arena.admitRows v.sidOf v.caches pageSize 0
      (segments.zip (PythonArena.rows v.caches real sink segments)) [] []
    (.rows out.1 out.2, v)
  | .setInFlight marked inFlight =>
    (.done, { v with caches := marked.foldl (fun caches => caches.setInFlight inFlight) v.caches })
  | .setRowsInFlight segments real sink inFlight =>
    (.done,
      { v with
        caches := PythonArena.setRowsInFlight inFlight
          (PythonArena.rows v.caches real sink segments) v.caches })
  | .commitRows segments real sink keep =>
    let out := PythonArena.commitRows keep 0
      (segments.zip (PythonArena.rows v.caches real sink segments)) [] v.caches
    (.slow out.1, { v with caches := out.2 })
  | .planColumns handles lens spans pageSize =>
    (match v.arena.planColumns (handles.map v.sidOf) lens spans pageSize with
      | .error e => .raised e
      | .ok (out, total, allHavePages) => .columns out total allHavePages, v)
  | .planRows segments real sink onSink pageSize =>
    (v.arena.planRows v.sidOf v.caches segments real sink (v.sidOf onSink) pageSize, v)
  | .setCaches caches => (.done, { v with caches := caches })
  | .setIndex index writes =>
    (.done, { v with arena := { v.arena with index := index, writes := writes } })

/-- The streams of a step's rows are held by the caller. -/
def RowsLive (v : World (PythonArena Index Writes) Rid Label Ref Handle)
    (rows : List (Option (Option Ref))) : Prop :=
  ∀ cs, some (some cs) ∈ rows → v.sid (v.caches.objects cs).pageIndices ≠ none

/-- A plan whose numbers its int32 arrays hold, those on the way to the page counts
included. -/
def Plannable (v : World (PythonArena Index Writes) Rid Label Ref Handle) (sids lens spans : List ℕ)
    (pageSize : ℕ) : Prop :=
  ColumnsFit pageSize (sids.map fun sid => (v.arena.streams sid).getD []) lens spans ∧
    ∀ len ∈ lens, len + pageSize ≤ 2147483648

/-- The pages a call names are not negative, the streams it names are held by the
caller, the owners it counts stay in u32, and its plans are of some rows and fit in
int32. -/
def Enabled (v : World (PythonArena Index Writes) Rid Label Ref Handle) :
    Op Index Writes Rid Label Ref Handle → Prop
  | .retain pages =>
    ((∀ page ∈ pythonPages v pages, 0 ≤ page) ∧
      ∀ handle, pages = .stream handle → v.sid handle ≠ none) ∧
      ∀ owners ∈ v.arena.numOwners, owners + (pythonPages v pages).length < 4294967296
  | .release pages | .sealPages pages =>
    (∀ page ∈ pythonPages v pages, 0 ≤ page) ∧
      ∀ handle, pages = .stream handle → v.sid handle ≠ none
  | .newStream handle => v.sid handle = none
  | .dropStream handle _ => v.sid handle ≠ none
  | .assign handle _ => v.sid handle ≠ none
  | .admitRows segments real sink _ =>
    RowsLive v (PythonArena.rows v.caches real sink segments)
  | .planColumns handles lens spans pageSize =>
    0 < pageSize ∧ handles ≠ [] ∧ (∀ handle ∈ handles, v.sid handle ≠ none) ∧
      Plannable v (handles.map v.sidOf) lens spans pageSize
  | .planRows segments real sink onSink pageSize =>
    0 < pageSize ∧ segments ≠ [] ∧ v.sid onSink ≠ none ∧
      RowsLive v (PythonArena.rows v.caches real sink segments) ∧
      (∀ cs, some (some cs) ∈ PythonArena.rows v.caches real sink segments →
        (v.caches.objects cs).pageIndices ≠ onSink) ∧
      ∀ sids lens gens, PythonArena.planReads v.sidOf v.caches (v.sidOf onSink) 0
          (segments.zip (PythonArena.rows v.caches real sink segments)) = .ok (sids, lens, gens) →
        Plannable v sids lens (segments.map Segment.span) pageSize
  | _ => True

end Steps

/-- The caller sees the same in both: the same books and caches, and the same
pages in each stream it holds. -/
structure Same {Index Writes Rid Label Ref Handle : Type}
    (w : World (RustArena Index Writes) Rid Label Ref Handle)
    (v : World (PythonArena Index Writes) Rid Label Ref Handle) : Prop where
  /-- The same free list, owners, seals and index. -/
  pool : SamePool w.arena v.arena
  /-- The same caches. -/
  caches : w.caches = v.caches
  /-- The same streams are held. -/
  held : ∀ handle, w.sid handle = none ↔ v.sid handle = none
  /-- A stream's pages are the same. -/
  pages : ∀ handle sid sid', w.sid handle = some sid → v.sid handle = some sid' →
    ∃ pages, w.arena.core.streams[sid]? = some pages ∧ v.arena.streams sid' = some pages

/-- What keeps the streams of both arenas apart. -/
structure Apart {Index Writes Rid Label Ref Handle : Type}
    (w : World (RustArena Index Writes) Rid Label Ref Handle)
    (v : World (PythonArena Index Writes) Rid Label Ref Handle) : Prop where
  /-- A Rust id is one stream's. -/
  rust : ∀ handle handle' sid, w.sid handle = some sid → w.sid handle' = some sid →
    handle = handle'
  /-- A Python id is one stream's. -/
  python : ∀ handle handle' sid, v.sid handle = some sid → v.sid handle' = some sid →
    handle = handle'
  /-- A spare id is no stream's. -/
  spare : ∀ sid ∈ w.arena.core.freeSids ++ w.arena.dropped,
    sid < w.arena.core.streams.length ∧ ∀ handle, w.sid handle ≠ some sid
  /-- A spare id is spare once. -/
  once : (w.arena.core.freeSids ++ w.arena.dropped).Nodup
  /-- A spare id has no pages. -/
  emptied : ∀ sid ∈ w.arena.core.freeSids, w.arena.core.streams[sid]? = some []
  /-- A stream's id is below the next. -/
  below : ∀ handle sid, v.sid handle = some sid → sid < v.arena.nextSid

end Mstar.PageArena
