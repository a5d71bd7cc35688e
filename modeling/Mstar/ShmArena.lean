import Mathlib.Algebra.Order.Ring.Int
import Mstar.Coalescing

/-!
# The shared-memory arena

A producer's segment is handed out first fit in blocks of a multiple of 256
bytes, and the arena grows by a segment when none has room. Rounding a size up
wraps for the last sizes of the machine word.
-/

namespace Mstar.Shm

open FreeLists

/-- The line size to which offsets are aligned. -/
def ALIGN : ℕ := 256

/-- How many values a machine word has. -/
def USIZE : ℕ := 2 ^ 64

/-- `n.div_ceil(ALIGN) * ALIGN` in machine words. -/
def alignUp (n : ℕ) : ℕ := (n / ALIGN + if 0 < n % ALIGN then 1 else 0) * ALIGN % USIZE

/-- Free blocks by offset, and the live ones by the offset that names them. -/
structure Allocator where
  free : List Piece
  live : List Piece
  deriving DecidableEq, Repr

namespace Allocator

/-- One free block at first. -/
def new (size : ℕ) : Allocator := ⟨[⟨0, size⟩], []⟩

/-- The offset of a block for some bytes, if a free one holds them. -/
def alloc (a : Allocator) (n : ℕ) : Option ℕ × Allocator :=
  match firstFit (alignUp (max n 1)) a.free with
  | some (block, rest) =>
    (some block.offset, ⟨rest, block :: a.live.filter fun p => p.offset ≠ block.offset⟩)
  | none => (none, a)

/-- The block at an offset is free again; nothing happens if none is live there. -/
def dealloc (a : Allocator) (off : ℕ) : Bool × Allocator :=
  match a.live.find? fun p => p.offset = off with
  | none => (false, a)
  | some block =>
    (true, ⟨coalesce ((a.free ++ [block]).insertionSort fun p q => p.offset ≤ q.offset),
      a.live.filter fun p => p.offset ≠ off⟩)

/-- The free bytes. -/
def bytesFree (a : Allocator) : ℕ := (a.free.map Piece.nbytes).sum

end Allocator

/-- Why no range is handed out. -/
inductive ShmError where
  | zeroSize
  | full (need free total : ℕ)
  | lowSpace (path : String) (size free : ℕ)
  | noSpace (path : String) (size : ℕ) (source : String)
  | io (path : String) (source : String)
  deriving DecidableEq, Repr

/-- What the filesystem answers when a file is to be created, filled and mapped. -/
inductive Backing where
  | mapped
  | lowSpace (free : ℕ)
  | noSpace (source : String)
  | io (source : String)
  deriving DecidableEq, Repr

/-- A mapped segment. -/
structure ShmArena where
  len : ℕ
  alloc : Allocator
  deriving DecidableEq, Repr

namespace ShmArena

/-- A new segment, if it has a byte and the filesystem backs it. -/
def create (path : String) (size : ℕ) (backing : Backing) : Except ShmError ShmArena :=
  if size = 0 then .error .zeroSize
  else
    match backing with
    | .mapped => .ok ⟨size, Allocator.new size⟩
    | .lowSpace free => .error (.lowSpace path size free)
    | .noSpace source => .error (.noSpace path size source)
    | .io source => .error (.io path source)

/-- A range of the segment. -/
def reserve (seg : ShmArena) (nbytes : ℕ) : Except ShmError ℕ × ShmArena :=
  match seg.alloc.alloc nbytes with
  | (some off, a) => (.ok off, { seg with alloc := a })
  | (none, a) => (.error (.full nbytes a.bytesFree seg.len), { seg with alloc := a })

/-- A range of the segment goes back. -/
def free (seg : ShmArena) (off : ℕ) : Bool × ShmArena :=
  let (known, a) := seg.alloc.dealloc off
  (known, { seg with alloc := a })

end ShmArena

/-- How long a growth that ran out of space is not tried again, in nanoseconds. -/
def GROWTH_RETRY_AFTER : ℕ := 1000000000

/-- A growth that ran out of space: its size, when, and what was said. -/
structure FailedGrowth where
  size : ℕ
  failedAt : ℕ
  reason : String
  deriving DecidableEq, Repr

/-- An arena that grows by segments. -/
structure SegmentedShmArena where
  base : String
  segmentSize : ℕ
  maxSegments : ℕ
  segments : List ShmArena
  failedGrowth : Option FailedGrowth
  /-- Whether the machine has `/dev/shm`. -/
  devShm : Bool
  deriving DecidableEq, Repr

namespace SegmentedShmArena

/-- Where a segment's file lies. -/
def shmPath (s : SegmentedShmArena) (name : String) : String :=
  if s.devShm then "/dev/shm/" ++ name else "/tmp/" ++ name

/-- The name of a segment. -/
def segmentName (s : SegmentedShmArena) (i : ℕ) : String := s.base ++ ".seg" ++ toString i

/-- A range of the first segment that has room. -/
def reserveIn (nbytes : ℕ) : List ShmArena → Option (ℕ × ℕ × List ShmArena)
  | [] => none
  | seg :: segments =>
    match seg.reserve nbytes with
    | (.ok off, seg) => some (0, off, seg :: segments)
    | (.error _, _) =>
      (reserveIn nbytes segments).map fun found => (found.1 + 1, found.2.1, seg :: found.2.2)

/-- The size of the segment that would be added for some bytes. -/
def growthSize (s : SegmentedShmArena) (nbytes : ℕ) : ℕ :=
  max s.segmentSize (alignUp (max nbytes 1))

/-- The failed growth that keeps one of this size from being tried. -/
def notRetried (s : SegmentedShmArena) (size now : ℕ) : Option FailedGrowth :=
  s.failedGrowth.filter fun f => f.size ≤ size ∧ now - f.failedAt < GROWTH_RETRY_AFTER

/-- A range of a segment there is, else of a new one. -/
def reserve (s : SegmentedShmArena) (nbytes now : ℕ) (backing : Backing) :
    Except ShmError (ℕ × ℕ) × SegmentedShmArena :=
  match reserveIn nbytes s.segments with
  | some (i, off, segments) => (.ok (i, off), { s with segments := segments })
  | none =>
    if s.maxSegments ≤ s.segments.length then
      (.error (.full nbytes (s.segments.map fun seg => seg.alloc.bytesFree).sum
        (s.segments.map ShmArena.len).sum), s)
    else
      let idx := s.segments.length
      let size := s.growthSize nbytes
      let path := s.shmPath (s.segmentName idx)
      match s.notRetried size now with
      | some f => (.error (.noSpace path size (f.reason ++ "; not retried for 1s")), s)
      | none =>
        match ShmArena.create path size backing with
        | .error (.noSpace file need source) =>
          (.error (.noSpace file need source), { s with failedGrowth := some ⟨size, now, source⟩ })
        | .error e => (.error e, s)
        | .ok seg =>
          let s := { s with failedGrowth := s.failedGrowth.filter fun f => size < f.size }
          match seg.reserve nbytes with
          | (.ok off, seg) => (.ok (idx, off), { s with segments := s.segments ++ [seg] })
          -- the segment is dropped with the error
          | (.error e, _) => (.error e, s)

/-- A range goes back; nothing happens if there is no such segment or range. -/
def free (s : SegmentedShmArena) (segment offset : ℕ) : Bool × SegmentedShmArena :=
  match s.segments[segment]? with
  | none => (false, s)
  | some seg =>
    let (known, seg) := seg.free offset
    (known, { s with segments := s.segments.set segment seg })

/-- A new arena, with its first segment. -/
def create (base : String) (segmentSize maxSegments : ℕ) (devShm : Bool) (backing : Backing) :
    Except ShmError SegmentedShmArena :=
  if segmentSize = 0 ∨ maxSegments = 0 then .error .zeroSize
  else
    let s : SegmentedShmArena := ⟨base, segmentSize, maxSegments, [], none, devShm⟩
    match ShmArena.create (s.shmPath (s.segmentName 0)) segmentSize backing with
    | .error e => .error e
    | .ok first => .ok { s with segments := [first] }

end SegmentedShmArena

end Mstar.Shm
