import Mathlib.Logic.Function.Basic
import Mathlib.Data.List.Basic
import Mathlib.Data.Int.Notation

/-!
# Calls of the page arena

What a caller of the page arena holds and gives it, and what it gets back, the
same for both arenas: its streams and the rows of a step, the callbacks into the
prefix index, and the answers.
-/

namespace Mstar.PageArena

/-- The classes of the exceptions an arena raises. -/
inductive ErrorKind where
  | assertionError
  | indexError
  | keyError
  | overflowError
  | typeError
  | valueError
  deriving DecidableEq

/-- An exception, with its text where the source gives one. -/
structure Raised where
  /-- Its class. -/
  kind : ErrorKind
  /-- Its text. -/
  text : Option String := none
  deriving DecidableEq

/-- Two exceptions of one class that do not say different things. -/
def Raised.Alike (e e' : Raised) : Prop :=
  e.kind = e'.kind ∧ ∀ text text', e.text = some text → e'.text = some text' → text = text'

/-- A number in the 32 bits of a plan array. -/
def asI32 (x : ℤ) : ℤ := x.bmod 4294967296

/-- What lies in the range of an int32. -/
def IsI32 (x : ℤ) : Prop := -2147483648 ≤ x ∧ x < 2147483648

instance (x : ℤ) : Decidable (IsI32 x) := inferInstanceAs (Decidable (_ ∧ _))

/-- An `i32` is its own wrapping. -/
theorem asI32_of_isI32 {x : ℤ} (h : IsI32 x) : asI32 x = x := by
  unfold IsI32 at h
  unfold asI32
  apply Int.bmod_eq_of_le
  · omega
  · omega

/-- So is a list of them. -/
theorem map_asI32 {xs : List ℤ} (h : ∀ x ∈ xs, IsI32 x) : xs.map asI32 = xs := by
  rw [List.map_congr_left fun x hx => asI32_of_isI32 (h x hx), List.map_id']

/-- What the arena calls when a page gains or loses its second owner. A callback
reads the owner counts as they are then, and may raise. -/
structure Callbacks (Index Writes : Type) where
  /-- `index.set_shared(page, shared)`. -/
  setShared : Index → List ℕ → ℤ → Bool → Option Raised × Index
  /-- `writes.queue(index.key_of(page))`. -/
  queueKey : Index → Writes → ℤ → Option Raised × Writes

/-- A step's row: the request and the label of its stream, and how many tokens it
adds. -/
structure Segment (Rid Label : Type) where
  requestId : Rid
  label : Label
  span : ℕ

/-- A request's cache under one label. Its pages are a stream of the arena, held
by the caller. -/
structure CacheStream (Handle : Type) where
  /-- The stream with its pages. -/
  pageIndices : Handle
  /-- The tokens stored. -/
  storedLen : ℕ
  /-- Moves whenever the cache is written. -/
  generation : ℕ
  /-- Its pages are on the host. -/
  offloaded : Bool
  /-- A step is reading or writing it. -/
  stepInFlight : Bool

/-- What the caller keeps: the caches of each request by label, and each cache. -/
structure Caches (Rid Label Ref Handle : Type) where
  /-- `KVManager._streams`. -/
  streams : Rid → Label → Option Ref
  /-- The cache objects. -/
  objects : Ref → CacheStream Handle

section Rows

variable {Rid Label Ref Handle : Type} [DecidableEq Rid] [DecidableEq Label] [DecidableEq Ref]

/-- A padding row of a replay, or one on the sink page. -/
def isPad (real : Option (List Rid)) (sink : List (Rid × Label)) (seg : Segment Rid Label) : Bool :=
  (real.any fun real => seg.requestId ∉ real) || (seg.requestId, seg.label) ∈ sink

/-- One cache's flag set. -/
def Caches.setInFlight (caches : Caches Rid Label Ref Handle) (inFlight : Bool) (ref : Ref) :
    Caches Rid Label Ref Handle :=
  { caches with
    objects := Function.update caches.objects ref
      { caches.objects ref with stepInFlight := inFlight } }

/-- One cache's tokens counted after a step, its generation moved. -/
def Caches.store (caches : Caches Rid Label Ref Handle) (span : ℕ) (ref : Ref) :
    Caches Rid Label Ref Handle :=
  { caches with
    objects := Function.update caches.objects ref
      { caches.objects ref with
        storedLen := (caches.objects ref).storedLen + span
        generation := (caches.objects ref).generation + 1 } }

end Rows

/-- What a call returns. -/
inductive Answer (Ref : Type) where
  /-- Nothing. -/
  | done
  /-- The pages acquired, or none when fewer are free. -/
  | pages (pages : Option (List ℤ))
  /-- The rows to mark in flight, and the indices of the rows the manager reserves for. -/
  | rows (marked : List Ref) (slow : List ℕ)
  /-- The indices of the rows the manager commits. -/
  | slow (slow : List ℕ)
  /-- A plan label's columns, one after the other, and whether each row has a page. -/
  | columns (out : List ℤ) (total : ℤ) (allHavePages : Bool)
  /-- The same, with the rows' lengths and generations, the longest row on the
  sink and whether every row appends one token. -/
  | plan (out : List ℤ) (total : ℤ) (allHavePages : Bool) (lensGens : List ℕ) (maxSink : ℕ)
    (decode : Bool)
  /-- An exception. -/
  | raised (e : Raised)

/-- The same answer, or exceptions that are alike. -/
inductive Answer.Alike {Ref : Type} : Answer Ref → Answer Ref → Prop
  | same (a : Answer Ref) : Alike a a
  | raised {e e' : Raised} (h : e.Alike e') : Alike (.raised e) (.raised e')

end Mstar.PageArena
