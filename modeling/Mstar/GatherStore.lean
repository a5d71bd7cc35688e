import Mathlib.Algebra.Order.Ring.Int
import Mathlib.Data.Finset.Basic
import Mathlib.Data.Int.Notation
import Mathlib.Data.List.Basic
import Mathlib.Data.Nat.Notation
import Mathlib.Logic.Function.Basic

/-!
# Tensors a worker reads

A worker keeps every tensor it reads under a uuid with a count of references:
one for the time until the read is handed on, and one for every edge that
brought it. A peer's tensor may come in several slices under one uuid, and a
slice other than the first gets a uuid of this worker's own.
-/

namespace Mstar.Gather

/-- The uuid of a tensor. Every process mints its own. -/
inductive Uuid where
  /-- Minted by another process. -/
  | peer (number : ℕ)
  /-- Minted by this worker. -/
  | own (number : ℕ)
  deriving DecidableEq, Repr

/-- The rows of a producer's tensor that a descriptor names, which its offset,
bytes and dims stand for. -/
structure Slice where
  /-- The first row. -/
  start : ℕ
  /-- One past the last row. -/
  stop : ℕ
  deriving DecidableEq, Repr

/-- A tensor's descriptor. -/
structure TensorInfo where
  /-- The uuid it is held under. -/
  uuid : Uuid
  /-- The rows. -/
  slice : Slice
  /-- The rank that cut them. -/
  sourceTpRank : ℕ
  /-- This worker produced the tensor. -/
  isOwn : Bool
  deriving DecidableEq, Repr

variable {α : Type}

/-- A tensor in the store. -/
structure Held (α : Type) where
  /-- Its rows. -/
  tensor : List α
  /-- The slice it was put under. -/
  slice : Slice
  /-- Its references. -/
  refCnt : ℤ

/-- The rows a descriptor names, of the tensors the producers hold. -/
def TensorInfo.rows (source : Uuid → List α) (info : TensorInfo) : List α :=
  ((source info.uuid).drop info.slice.start).take (info.slice.stop - info.slice.start)

/-- What a worker keeps of one request's reads. -/
structure Store (α : Type) where
  /-- The tensors, by uuid. -/
  held : Uuid → Option (Held α)
  /-- How many uuids this worker has minted. -/
  minted : ℕ
  /-- The uuid a further slice of a tensor was given. -/
  sliceUuids : Uuid → Slice → Option Uuid
  /-- The uuids that were handed on. -/
  readFinished : Finset Uuid
  /-- Those whose transit reference is about to be dropped. -/
  transit : List Uuid
  /-- Tensors put without a transit reference; only recorded. -/
  unfetched : Finset Uuid
  /-- Tensors fetched again after they were handed on; only recorded. -/
  again : Finset Uuid

namespace Store

/-- A store that holds nothing. -/
def empty : Store α := ⟨fun _ => none, 0, fun _ _ => none, ∅, [], ∅, ∅⟩

/-- Put a tensor under a uuid, with so many references. -/
def put (s : Store α) (uuid : Uuid) (tensor : List α) (slice : Slice) (refs : ℤ) : Store α :=
  { s with held := Function.update s.held uuid (some ⟨tensor, slice, refs⟩) }

/-- Add to a tensor's references, if it is held. -/
def addRefs (s : Store α) (uuid : Uuid) (n : ℤ) : Store α :=
  { s with
    held := Function.update s.held uuid
      ((s.held uuid).map fun h => { h with refCnt := h.refCnt + n }) }

/-- Drop one reference, and the tensor with its last. -/
def release (s : Store α) (uuid : Uuid) : Store α :=
  { s with
    held := Function.update s.held uuid
      ((s.held uuid).bind fun h =>
        if h.refCnt - 1 ≤ 0 then none else some { h with refCnt := h.refCnt - 1 }) }

/-- Mint a uuid. -/
def mint (s : Store α) : Store α := { s with minted := s.minted + 1 }

/-- Read a peer's rows into a new entry, with a reference for the transit and
one for the edge. -/
def fetch (source : Uuid → List α) (s : Store α) (info : TensorInfo) (uuid : Uuid) : Store α :=
  { s.put uuid (info.rows source) info.slice 2 with
    again := if uuid ∈ s.readFinished then insert uuid s.again else s.again }

/-- Cut the slice out of a tensor this worker produced, under a new uuid. -/
def sliceExisting (source : Uuid → List α) (s : Store α) (info : TensorInfo) :
    Store α × TensorInfo :=
  ({ s.mint.put (.own s.minted) (info.rows source) info.slice 1 with
      unfetched := insert (.own s.minted) s.unfetched },
    { info with uuid := .own s.minted })

/-- Give a further slice of a tensor a new uuid, and read it there. -/
def repoint (source : Uuid → List α) (s : Store α) (info : TensorInfo) : Store α × TensorInfo :=
  let s' : Store α := { s.mint with
    sliceUuids := Function.update s.sliceUuids info.uuid
      (Function.update (s.sliceUuids info.uuid) info.slice (some (.own s.minted))) }
  (s'.fetch source info (.own s.minted), { info with uuid := .own s.minted })

/-- Start reading one tensor. A slice that was read before is taken from the
store, with one more reference. -/
def readInfo (source : Uuid → List α) (s : Store α) (info : TensorInfo) :
    Store α × TensorInfo :=
  if info.isOwn then s.sliceExisting source info
  else
    match s.held info.uuid with
    | none => (s.fetch source info info.uuid, info)
    | some stored =>
      if stored.slice = info.slice then (s.addRefs info.uuid 1, info)
      else
        match s.sliceUuids info.uuid info.slice with
        | none => s.repoint source info
        | some uuid =>
          if (s.held uuid).isSome then (s.addRefs uuid 1, { info with uuid := uuid })
          else s.repoint source info

/-- Start reading the tensors of an edge. -/
def readInfos (source : Uuid → List α) (s : Store α) :
    List TensorInfo → Store α × List TensorInfo
  | [] => (s, [])
  | info :: infos =>
    let first := s.readInfo source info
    let rest := readInfos source first.1 infos
    (rest.1, first.2 :: rest.2)

/-- Note one tensor as handed on. A first read holds a transit reference. -/
def markRead (s : Store α) (uuid : Uuid) : Store α :=
  if uuid ∈ s.readFinished then s
  else { s with
    transit := s.transit ++ [uuid]
    readFinished := insert uuid s.readFinished }

/-- Drop the transit references of the tensors handed on. -/
def dropTransit (s : Store α) : Store α :=
  { s.transit.foldl (·.addRefs · (-1)) s with transit := [] }

/-- Put a gathered tensor under a new uuid, with a reference for its consumer. -/
def putGathered (s : Store α) (tensor : List α) : Store α :=
  { s.mint.put (.own s.minted) tensor ⟨0, tensor.length⟩ 1 with
    unfetched := insert (.own s.minted) s.unfetched }

end Store

/-- One edge's share in a tensor: the uuid, and the rows it should hold. -/
abbrev Share (α : Type) := Uuid × List α

/-- How many shares there are in a tensor. -/
def shareCount (shares : List (Share α)) (uuid : Uuid) : ℕ :=
  (shares.map (·.1)).count uuid

/-- The references a tensor should have: its shares, and the transit
reference of a fetched one until it is dropped. -/
def Store.balance (s : Store α) (shares : List (Share α)) (uuid : Uuid) : ℤ :=
  (shareCount shares uuid : ℤ) + (if uuid ∈ s.unfetched then 0 else 1)
    - (if uuid ∈ s.readFinished then 1 else 0) + (s.transit.count uuid : ℤ)

/-- The uuid has not been minted. -/
structure Store.Unminted (s : Store α) (shares : List (Share α)) (uuid : Uuid) : Prop where
  /-- Nothing is held under it. -/
  held : s.held uuid = none
  /-- Nothing was handed on under it. -/
  readFinished : uuid ∉ s.readFinished
  /-- No slice was given it. -/
  sliceUuids : ∀ origin slice, s.sliceUuids origin slice ≠ some uuid
  /-- Nothing was put under it. -/
  unfetched : uuid ∉ s.unfetched
  /-- No edge has a share in it. -/
  shares : shareCount shares uuid = 0

/-- The store backs every share, and counts them. -/
structure Sound (source : Uuid → List α) (s : Store α) (shares : List (Share α)) : Prop where
  /-- Every share's tensor is held, with the rows it should hold. -/
  backed : ∀ share ∈ shares, ∃ h, s.held share.1 = some h ∧ h.tensor = share.2
  /-- A peer's tensor holds the rows of the slice it was put under. -/
  peers : ∀ n h, s.held (.peer n) = some h →
    h.tensor = ((source (.peer n)).drop h.slice.start).take (h.slice.stop - h.slice.start)
  /-- A further slice holds its rows. -/
  slices : ∀ origin slice uuid h, s.sliceUuids origin slice = some uuid →
    s.held uuid = some h →
      h.tensor = ((source origin).drop slice.start).take (slice.stop - slice.start)
  /-- A further slice has a uuid of this worker's, and is fetched. -/
  sliceKind : ∀ origin slice uuid, s.sliceUuids origin slice = some uuid →
    uuid ∉ s.unfetched ∧ ∃ n, uuid = .own n
  /-- Uuids to come are not in use. -/
  fresh : ∀ n, s.minted ≤ n → s.Unminted shares (.own n)
  /-- What is put without a transit reference has a uuid of this worker's. -/
  unfetchedOwn : ∀ uuid ∈ s.unfetched, ∃ n, uuid = .own n
  /-- It has one share at most, -/
  unique : ∀ uuid ∈ s.unfetched, shareCount shares uuid ≤ 1
  /-- and is gone with it. -/
  gone : ∀ uuid ∈ s.unfetched, shareCount shares uuid = 0 → s.held uuid = none
  /-- A transit reference is dropped once the tensor is handed on, -/
  transitRead : ∀ uuid ∈ s.transit, uuid ∈ s.readFinished
  /-- and once. -/
  transitOnce : s.transit.Nodup
  /-- Only what was fetched and handed on is fetched again, -/
  againRead : ∀ uuid ∈ s.again, uuid ∈ s.readFinished ∧ uuid ∉ s.unfetched
  /-- and from a peer. -/
  againPeer : ∀ uuid ∈ s.again, ∃ n, uuid = .peer n
  /-- No reference is missing, -/
  enough : ∀ uuid h, s.held uuid = some h → s.balance shares uuid ≤ h.refCnt
  /-- and none is left over, fetching again apart. -/
  exact : ∀ uuid h, s.held uuid = some h → uuid ∉ s.again → h.refCnt = s.balance shares uuid

end Mstar.Gather
