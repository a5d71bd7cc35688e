import Mathlib.Algebra.Order.Ring.Int
import Mathlib.Data.Finset.Basic
import Mathlib.Data.Int.Notation
import Mathlib.Logic.Function.Basic

/-!
# The two tensor bookkeepers

A store of tensors keeps a count of references and three flags for every uuid,
the tensor itself, and which request answers for it. The Rust bookkeeper keeps
all of it and frees in place what needs no teardown of the transport; the
Python store, which it is checked against, reports everything it took to zero
and keeps the tensors until they are removed one by one. Descriptors and host
copies are left out.
-/

namespace Mstar.TensorBooks

/-- Why a call raises. -/
inductive Refused where
  /-- `ValueError`. -/
  | value
  /-- A failed `assert`. -/
  | assertion
  deriving DecidableEq, Repr

/-- A 64-bit count that wraps around. -/
def i64 (n : ℤ) : ℤ := n.bmod (2 ^ 64)

/-- What a batched dereference or a release reports for teardown: the uuids,
and whether each one's memory is registered. -/
structure Reported where
  /-- The uuids. -/
  uuids : List ℕ := []
  /-- Their `mem_registered` flags. -/
  registered : List Bool := []
  deriving DecidableEq, Repr

variable {Rid T : Type} [DecidableEq Rid]

/-- Which uuids each request answers for. -/
abbrev Owners (Rid : Type) := Rid → Option (Finset ℕ)

namespace Owners

/-- Add a uuid to a request's set, making the set if there is none. -/
def add (owned : Owners Rid) (rid : Rid) (uuid : ℕ) : Owners Rid :=
  Function.update owned rid (some (insert uuid ((owned rid).getD ∅)))

/-- Take a uuid out of a request's set. The set goes with its last uuid. -/
def disown (owned : Owners Rid) (rid : Rid) (uuid : ℕ) : Owners Rid :=
  match owned rid with
  | none => owned
  | some set => Function.update owned rid (if set.erase uuid = ∅ then none else some (set.erase uuid))

end Owners

/-- An order in which a set of uuids is walked. Neither language promises one. -/
structure SetOrder where
  /-- The uuids, in the order met. -/
  walk : Finset ℕ → List ℕ
  /-- Each is met once. -/
  nodup : ∀ set, (walk set).Nodup
  /-- Those of the set are met, and no other. -/
  mem_walk : ∀ set uuid, uuid ∈ walk set ↔ uuid ∈ set

/-- The state the Rust bookkeeper keeps for a uuid. -/
structure ReferenceInfo where
  /-- `ref_count`, a signed 64-bit count. -/
  refCount : ℤ := 0
  /-- The conductor still needs the tensor. -/
  persist : Bool := false
  /-- The memory is registered for remote reads. -/
  memRegistered : Bool := false
  /-- Python keeps state of its own for the uuid. -/
  teardown : Bool := false
  deriving DecidableEq, Repr

/-- One tensor the Rust bookkeeper holds. -/
structure StoredTensor (Rid T : Type) where
  /-- The object. -/
  tensor : T
  /-- The request that answers for it. -/
  rid : Rid

/-- The Rust bookkeeper. -/
structure Bookkeeping (Rid T : Type) where
  /-- The records. -/
  refInfo : ℕ → Option ReferenceInfo
  /-- The tensors. -/
  stored : ℕ → Option (StoredTensor Rid T)
  /-- Which uuids each request answers for. -/
  owned : Owners Rid

namespace Bookkeeping

/-- Nothing tracked or held. -/
def empty : Bookkeeping Rid T := ⟨fun _ => none, fun _ => none, fun _ => none⟩

/-- Edit the record of a uuid, if it is tracked. -/
def onEntry (b : Bookkeeping Rid T) (uuid : ℕ) (edit : ReferenceInfo → ReferenceInfo) :
    Bookkeeping Rid T :=
  { b with refInfo := Function.update b.refInfo uuid ((b.refInfo uuid).map edit) }

/-- Start tracking a uuid, afresh if it is tracked already. -/
def putTensor (b : Bookkeeping Rid T) (uuid : ℕ) : Bookkeeping Rid T :=
  { b with refInfo := Function.update b.refInfo uuid (some {}) }

/-- Drop the record. -/
def forgetTensor (b : Bookkeeping Rid T) (uuid : ℕ) : Bookkeeping Rid T :=
  { b with refInfo := Function.update b.refInfo uuid none }

/-- Hold a tensor for a uuid on behalf of a request. -/
def own (b : Bookkeeping Rid T) (rid : Rid) (uuid : ℕ) (tensor : T) : Bookkeeping Rid T :=
  let owned := match b.stored uuid with
    | some old => if old.rid ≠ rid then b.owned.disown old.rid uuid else b.owned
    | none => b.owned
  { b with
    stored := Function.update b.stored uuid (some ⟨tensor, rid⟩)
    owned := owned.add rid uuid }

/-- `put_stored`: the record and the tensor. -/
def putStored (b : Bookkeeping Rid T) (rid : Rid) (uuid : ℕ) (tensor : T) : Bookkeeping Rid T :=
  (b.putTensor uuid).own rid uuid tensor

/-- `put_tensor_batch` without tensors. -/
def putTensorBatch (b : Bookkeeping Rid T) (uuids : List ℕ) : Bookkeeping Rid T :=
  uuids.foldl putTensor b

/-- The rows of `put_tensor_batch` with tensors. -/
def putRows : Bookkeeping Rid T → List Rid → List ℕ → List T → Bookkeeping Rid T
  | b, rid :: rids, uuid :: uuids, tensor :: tensors =>
    putRows (b.putStored rid uuid tensor) rids uuids tensors
  | b, _, _, _ => b

/-- `put_tensor_batch` with tensors. The columns are checked before anything
is written. -/
def putStoredBatch (b : Bookkeeping Rid T) (rids : List Rid) (uuids : List ℕ) (tensors : List T) :
    Bookkeeping Rid T × Option Refused :=
  if rids.length ≠ uuids.length ∨ tensors.length ≠ uuids.length then (b, some .value)
  else (b.putRows rids uuids tensors, none)

/-- Take a tensor and its ownership out. -/
def takeStored (b : Bookkeeping Rid T) (uuid : ℕ) :
    Option (StoredTensor Rid T) × Bookkeeping Rid T :=
  match b.stored uuid with
  | none => (none, b)
  | some s => (some s, { b with
      stored := Function.update b.stored uuid none
      owned := b.owned.disown s.rid uuid })

/-- Drop the tensor and the record together. Nothing happens when no tensor is
held. -/
def removeTensor (b : Bookkeeping Rid T) (uuid : ℕ) : Bookkeeping Rid T :=
  match b.takeStored uuid with
  | (none, b) => b
  | (some _, b) => b.forgetTensor uuid

/-- The uuids whose collection Python must hear about. -/
def markTeardown (b : Bookkeeping Rid T) (uuids : List ℕ) : Bookkeeping Rid T :=
  uuids.foldl (fun b uuid => b.onEntry uuid fun e => { e with teardown := true }) b

/-- Count more references. A negative number is refused before the record is
looked up. -/
def incrementRef (b : Bookkeeping Rid T) (uuid : ℕ) (n : ℤ) : Bookkeeping Rid T × Option Refused :=
  if n < 0 then (b, some .value)
  else (b.onEntry uuid fun e => { e with refCount := i64 (e.refCount + n) }, none)

/-- The loop of the batched increments, up to the first refusal. -/
def incrementEach : Bookkeeping Rid T → List (ℕ × ℤ) → Bookkeeping Rid T × Option Refused
  | b, [] => (b, none)
  | b, (uuid, n) :: refs => match b.incrementRef uuid n with
    | (b, some refused) => (b, some refused)
    | (b, none) => b.incrementEach refs

/-- `increment_ref_batch`. -/
def incrementRefBatch (b : Bookkeeping Rid T) (uuids : List ℕ) (counts : List ℤ) :
    Bookkeeping Rid T × Option Refused :=
  if uuids.length ≠ counts.length then (b, some .value)
  else b.incrementEach (uuids.zip counts)

/-- `increment_ref_batch_uniform`. -/
def incrementRefBatchUniform (b : Bookkeeping Rid T) (uuids : List ℕ) (n : ℤ) :
    Bookkeeping Rid T × Option Refused :=
  b.incrementEach (uuids.map fun uuid => (uuid, n))

/-- Count fewer references. A negative number counts more. -/
def dereference (b : Bookkeeping Rid T) (uuid : ℕ) (n : ℤ) : Bookkeeping Rid T :=
  b.onEntry uuid fun e => { e with refCount := i64 (e.refCount - n) }

/-- One reference dropped in a batch. With `cleanup`, a collectable tensor
held here that needs no teardown is freed at once, record and all; any other
collectable uuid is reported. -/
def dropOne (cleanup : Bool) (acc : Bookkeeping Rid T × Reported) (ref : ℕ × ℤ) :
    Bookkeeping Rid T × Reported :=
  match acc.1.refInfo ref.1 with
  | none => acc
  | some e =>
    let refCount := i64 (e.refCount - ref.2)
    let b := acc.1.dereference ref.1 ref.2
    if refCount > 0 ∨ e.persist then (b, acc.2)
    else
      match (if cleanup && !e.memRegistered && !e.teardown then b.takeStored ref.1 else (none, b)) with
      | (some _, b) => (b.forgetTensor ref.1, acc.2)
      | (none, b) => (b, ⟨acc.2.uuids ++ [ref.1], acc.2.registered ++ [e.memRegistered]⟩)

/-- `drop_refs`: the shared half of the batched dereferences. With `cleanup`
the records of the uuids reported go once the loop is done. -/
def dropRefs (b : Bookkeeping Rid T) (refs : List (ℕ × ℤ)) (cleanup : Bool) :
    Bookkeeping Rid T × Reported :=
  let out := refs.foldl (dropOne cleanup) (b, {})
  (if cleanup then out.2.uuids.foldl forgetTensor out.1 else out.1, out.2)

/-- `dereference_batch`. -/
def dereferenceBatch (b : Bookkeeping Rid T) (uuids : List ℕ) (counts : List ℤ) (cleanup : Bool) :
    Bookkeeping Rid T × Except Refused Reported :=
  if uuids.length ≠ counts.length then (b, .error .value)
  else
    let out := b.dropRefs (uuids.zip counts) cleanup
    (out.1, .ok out.2)

/-- `dereference_batch_uniform`. -/
def dereferenceBatchUniform (b : Bookkeeping Rid T) (uuids : List ℕ) (n : ℤ) (cleanup : Bool) :
    Bookkeeping Rid T × Reported := b.dropRefs (uuids.map fun uuid => (uuid, n)) cleanup

/-- Set or lift the conductor's hold. -/
def setPersist (b : Bookkeeping Rid T) (uuid : ℕ) (persist : Bool) : Bookkeeping Rid T :=
  b.onEntry uuid fun e => { e with persist := persist }

/-- Note whether the memory is registered. -/
def setMemRegistered (b : Bookkeeping Rid T) (uuid : ℕ) (registered : Bool) : Bookkeeping Rid T :=
  b.onEntry uuid fun e => { e with memRegistered := registered }

/-- Whether a uuid's memory is registered. -/
def isRegistered (b : Bookkeeping Rid T) (uuid : ℕ) : Bool :=
  (b.refInfo uuid).any fun e => e.memRegistered

/-- No references left and not being persisted for the conductor. -/
def canGc (b : Bookkeeping Rid T) (uuid : ℕ) : Bool :=
  (b.refInfo uuid).any fun e => decide (e.refCount ≤ 0) && !e.persist

/-- One uuid of a request released: kept when it is still needed and nothing
forces it, else forgotten, and dropped or reported. -/
def releaseOne (force : Bool) (acc : Bookkeeping Rid T × Reported) (uuid : ℕ) :
    Bookkeeping Rid T × Reported :=
  if !acc.1.canGc uuid && !force then acc
  else
    let registered := acc.1.isRegistered uuid
    let teardown := (acc.1.refInfo uuid).any fun e => e.teardown
    let b := acc.1.forgetTensor uuid
    if registered || teardown then
      (b, ⟨acc.2.uuids ++ [uuid], acc.2.registered ++ [registered]⟩)
    else ((b.takeStored uuid).2, acc.2)

/-- `release_request`: every uuid the request owns, in the order of the set. -/
def releaseRequest (b : Bookkeeping Rid T) (order : SetOrder) (rid : Rid) (force : Bool) :
    Bookkeeping Rid T × Reported :=
  (order.walk ((b.owned rid).getD ∅)).foldl (releaseOne force) (b, {})

end Bookkeeping

/-- The state the Python bookkeeper keeps for a uuid. -/
structure PyReferenceInfo where
  /-- `ref_cnt`. -/
  refCnt : ℤ := 0
  /-- The conductor still needs the tensor. -/
  persist : Bool := false
  /-- The memory is registered for remote reads. -/
  memRegistered : Bool := false
  deriving DecidableEq, Repr

/-- `PythonTensorBookkeeping`. -/
structure PythonTensorBookkeeping where
  /-- The records. -/
  refInfo : ℕ → Option PyReferenceInfo

namespace PythonTensorBookkeeping

/-- Edit the record of a uuid, if it is tracked. -/
def onEntry (p : PythonTensorBookkeeping) (uuid : ℕ) (edit : PyReferenceInfo → PyReferenceInfo) :
    PythonTensorBookkeeping := ⟨Function.update p.refInfo uuid ((p.refInfo uuid).map edit)⟩

/-- Start tracking a uuid. -/
def putTensor (p : PythonTensorBookkeeping) (uuid : ℕ) : PythonTensorBookkeeping :=
  ⟨Function.update p.refInfo uuid (some {})⟩

/-- Drop the record. -/
def forgetTensor (p : PythonTensorBookkeeping) (uuid : ℕ) : PythonTensorBookkeeping :=
  ⟨Function.update p.refInfo uuid none⟩

/-- Count more references. A negative number fails the assertion, once the
record is found. -/
def incrementRef (p : PythonTensorBookkeeping) (uuid : ℕ) (n : ℤ) :
    PythonTensorBookkeeping × Option Refused :=
  match p.refInfo uuid with
  | none => (p, none)
  | some _ =>
    if n < 0 then (p, some .assertion)
    else (p.onEntry uuid fun info => { info with refCnt := info.refCnt + n }, none)

/-- The loop of the batched increments, up to the first refusal. -/
def incrementEach : PythonTensorBookkeeping → List (ℕ × ℤ) →
    PythonTensorBookkeeping × Option Refused
  | p, [] => (p, none)
  | p, (uuid, n) :: refs => match p.incrementRef uuid n with
    | (p, some refused) => (p, some refused)
    | (p, none) => p.incrementEach refs

/-- `increment_ref_batch`. A strict `zip` finds out at its end that the lists
differ in length. -/
def incrementRefBatch (p : PythonTensorBookkeeping) (uuids : List ℕ) (counts : List ℤ) :
    PythonTensorBookkeeping × Option Refused :=
  match p.incrementEach (uuids.zip counts) with
  | (p, some refused) => (p, some refused)
  | (p, none) => (p, if uuids.length ≠ counts.length then some .value else none)

/-- `increment_ref_batch_uniform`. -/
def incrementRefBatchUniform (p : PythonTensorBookkeeping) (uuids : List ℕ) (n : ℤ) :
    PythonTensorBookkeeping × Option Refused := p.incrementEach (uuids.map fun uuid => (uuid, n))

/-- Count fewer references. -/
def dereference (p : PythonTensorBookkeeping) (uuid : ℕ) (n : ℤ) : PythonTensorBookkeeping :=
  p.onEntry uuid fun info => { info with refCnt := info.refCnt - n }

/-- One reference dropped in a batch. -/
def dropOne (acc : PythonTensorBookkeeping × Reported) (ref : ℕ × ℤ) :
    PythonTensorBookkeeping × Reported :=
  match acc.1.refInfo ref.1 with
  | none => acc
  | some info =>
    let refCnt := info.refCnt - ref.2
    let p := acc.1.dereference ref.1 ref.2
    if refCnt > 0 ∨ info.persist then (p, acc.2)
    else (p, ⟨acc.2.uuids ++ [ref.1], acc.2.registered ++ [info.memRegistered]⟩)

/-- `_drop_refs` over the pairs of a strict `zip`, which raises at its end
when `short`. -/
def dropRefs (p : PythonTensorBookkeeping) (refs : List (ℕ × ℤ)) (short cleanup : Bool) :
    PythonTensorBookkeeping × Except Refused Reported :=
  let out := refs.foldl dropOne (p, {})
  if short then (out.1, .error .value)
  else (if cleanup then out.2.uuids.foldl forgetTensor out.1 else out.1, .ok out.2)

/-- `dereference_batch`. -/
def dereferenceBatch (p : PythonTensorBookkeeping) (uuids : List ℕ) (counts : List ℤ)
    (cleanup : Bool) : PythonTensorBookkeeping × Except Refused Reported :=
  p.dropRefs (uuids.zip counts) (decide (uuids.length ≠ counts.length)) cleanup

/-- `dereference_batch_uniform`. -/
def dereferenceBatchUniform (p : PythonTensorBookkeeping) (uuids : List ℕ) (n : ℤ)
    (cleanup : Bool) : PythonTensorBookkeeping × Except Refused Reported :=
  p.dropRefs (uuids.map fun uuid => (uuid, n)) false cleanup

/-- Set or lift the conductor's hold. -/
def setPersist (p : PythonTensorBookkeeping) (uuid : ℕ) (persist : Bool) :
    PythonTensorBookkeeping := p.onEntry uuid fun info => { info with persist := persist }

/-- Note whether the memory is registered. -/
def setMemRegistered (p : PythonTensorBookkeeping) (uuid : ℕ) (registered : Bool) :
    PythonTensorBookkeeping := p.onEntry uuid fun info => { info with memRegistered := registered }

/-- Whether a uuid's memory is registered. -/
def isRegistered (p : PythonTensorBookkeeping) (uuid : ℕ) : Bool :=
  (p.refInfo uuid).any fun info => info.memRegistered

/-- No references left and not being persisted for the conductor. -/
def canGc (p : PythonTensorBookkeeping) (uuid : ℕ) : Bool :=
  (p.refInfo uuid).any fun info => decide (info.refCnt ≤ 0) && !info.persist

end PythonTensorBookkeeping

/-- The Python store over the Python bookkeeper. -/
structure TensorStore (Rid T : Type) where
  /-- The reference state. -/
  bookkeeping : PythonTensorBookkeeping
  /-- The tensors. -/
  tensors : ℕ → Option T
  /-- Which uuids each request answers for. -/
  ridToUuids : Owners Rid
  /-- The request that answers for each uuid. -/
  uuidToRid : ℕ → Option Rid
  /-- Uuids a batched dereference dropped from the bookkeeper already. -/
  forgotten : Finset ℕ

namespace TensorStore

/-- Nothing tracked or held. -/
def empty : TensorStore Rid T :=
  ⟨⟨fun _ => none⟩, fun _ => none, fun _ => none, fun _ => none, ∅⟩

/-- `put_tensor` of the bookkeeper alone. -/
def putTensor (t : TensorStore Rid T) (uuid : ℕ) : TensorStore Rid T :=
  { t with bookkeeping := t.bookkeeping.putTensor uuid }

/-- `_own` for one tensor. -/
def own (t : TensorStore Rid T) (rid : Rid) (uuid : ℕ) (tensor : T) : TensorStore Rid T :=
  { t with
    tensors := Function.update t.tensors uuid (some tensor)
    ridToUuids := t.ridToUuids.add rid uuid
    uuidToRid := Function.update t.uuidToRid uuid (some rid) }

/-- `put_tensor`: the tensor and the record. -/
def putStored (t : TensorStore Rid T) (rid : Rid) (uuid : ℕ) (tensor : T) : TensorStore Rid T :=
  (t.own rid uuid tensor).putTensor uuid

/-- `put_tensor_batch` of the bookkeeper alone. -/
def putTensorBatch (t : TensorStore Rid T) (uuids : List ℕ) : TensorStore Rid T :=
  uuids.foldl putTensor t

/-- The rows of `_own`. -/
def ownRows : TensorStore Rid T → List Rid → List ℕ → List T → TensorStore Rid T
  | t, rid :: rids, uuid :: uuids, tensor :: tensors =>
    ownRows (t.own rid uuid tensor) rids uuids tensors
  | t, _, _, _ => t

/-- `put_tensor_batch_multi`: every tensor, then every record. -/
def putStoredBatch (t : TensorStore Rid T) (rids : List Rid) (uuids : List ℕ) (tensors : List T) :
    TensorStore Rid T × Option Refused :=
  if rids.length ≠ uuids.length ∨ uuids.length ≠ tensors.length then (t, some .value)
  else ((t.ownRows rids uuids tensors).putTensorBatch uuids, none)

/-- `remove_tensor`: the tensor, its ownership, and the record unless a batched
dereference dropped it already. -/
def removeTensor (t : TensorStore Rid T) (uuid : ℕ) : TensorStore Rid T :=
  let forgotten := uuid ∈ t.forgotten
  let t := { t with forgotten := t.forgotten.erase uuid }
  match t.tensors uuid with
  | none => t
  | some _ =>
    let t := { t with tensors := Function.update t.tensors uuid none }
    let t := if forgotten then t else { t with bookkeeping := t.bookkeeping.forgetTensor uuid }
    match t.uuidToRid uuid with
    | none => t
    | some rid => { t with
        uuidToRid := Function.update t.uuidToRid uuid none
        ridToUuids := t.ridToUuids.disown rid uuid }

/-- `_collected`: with `cleanup` the uuids reported are gone from the
bookkeeper. -/
def collected (t : TensorStore Rid T) (cleanup : Bool)
    (out : PythonTensorBookkeeping × Except Refused Reported) :
    TensorStore Rid T × Except Refused Reported :=
  match out.2 with
  | .error refused => ({ t with bookkeeping := out.1 }, .error refused)
  | .ok reported =>
    ({ t with
        bookkeeping := out.1
        forgotten := if cleanup then t.forgotten ∪ reported.uuids.toFinset else t.forgotten },
      .ok reported)

/-- `_cleanup_by_uuid`: a tensor that is still there is removed. -/
def cleanupByUuid (t : TensorStore Rid T) (uuid : ℕ) : TensorStore Rid T :=
  if (t.tensors uuid).isNone then t else t.removeTensor uuid

/-- One uuid of a request torn down: kept when it is still needed and nothing
forces it, else cleaned up. -/
def releaseOne (force : Bool) (t : TensorStore Rid T) (uuid : ℕ) : TensorStore Rid T :=
  if !t.bookkeeping.canGc uuid && !force then t else t.cleanupByUuid uuid

/-- The teardown of a request's tensors, in the order of the set. -/
def releaseRequest (t : TensorStore Rid T) (order : SetOrder) (rid : Rid) (force : Bool) :
    TensorStore Rid T :=
  (order.walk ((t.ridToUuids rid).getD ∅)).foldl (releaseOne force) t

end TensorStore

/-- A call on either store. -/
inductive Call (Rid T : Type)
  | putTensor (uuid : ℕ)
  | putStored (rid : Rid) (uuid : ℕ) (tensor : T)
  | putTensorBatch (uuids : List ℕ)
  | putStoredBatch (rids : List Rid) (uuids : List ℕ) (tensors : List T)
  | own (rid : Rid) (uuid : ℕ) (tensor : T)
  | incrementRef (uuid : ℕ) (n : ℤ)
  | incrementRefBatch (uuids : List ℕ) (counts : List ℤ)
  | incrementRefBatchUniform (uuids : List ℕ) (n : ℤ)
  | dereference (uuid : ℕ) (n : ℤ)
  | dereferenceBatch (uuids : List ℕ) (counts : List ℤ) (cleanup : Bool)
  | dereferenceBatchUniform (uuids : List ℕ) (n : ℤ) (cleanup : Bool)
  | setPersist (uuid : ℕ) (persist : Bool)
  | setMemRegistered (uuid : ℕ) (registered : Bool)
  | markTeardown (uuids : List ℕ)
  | removeTensor (uuid : ℕ)
  | releaseRequest (rid : Rid) (force : Bool)

/-- What a call that reports nothing answers. -/
def answer : Option Refused → Except Refused Reported
  | none => .ok {}
  | some refused => .error refused

/-- A call on the Rust bookkeeper. -/
def Bookkeeping.call (order : SetOrder) (b : Bookkeeping Rid T) :
    Call Rid T → Bookkeeping Rid T × Except Refused Reported
  | .putTensor uuid => (b.putTensor uuid, .ok {})
  | .putStored rid uuid tensor => (b.putStored rid uuid tensor, .ok {})
  | .putTensorBatch uuids => (b.putTensorBatch uuids, .ok {})
  | .putStoredBatch rids uuids tensors =>
    ((b.putStoredBatch rids uuids tensors).1, answer (b.putStoredBatch rids uuids tensors).2)
  | .own rid uuid tensor => (b.own rid uuid tensor, .ok {})
  | .incrementRef uuid n => ((b.incrementRef uuid n).1, answer (b.incrementRef uuid n).2)
  | .incrementRefBatch uuids counts =>
    ((b.incrementRefBatch uuids counts).1, answer (b.incrementRefBatch uuids counts).2)
  | .incrementRefBatchUniform uuids n =>
    ((b.incrementRefBatchUniform uuids n).1, answer (b.incrementRefBatchUniform uuids n).2)
  | .dereference uuid n => (b.dereference uuid n, .ok {})
  | .dereferenceBatch uuids counts cleanup => b.dereferenceBatch uuids counts cleanup
  | .dereferenceBatchUniform uuids n cleanup =>
    ((b.dereferenceBatchUniform uuids n cleanup).1,
      .ok (b.dereferenceBatchUniform uuids n cleanup).2)
  | .setPersist uuid persist => (b.setPersist uuid persist, .ok {})
  | .setMemRegistered uuid registered => (b.setMemRegistered uuid registered, .ok {})
  | .markTeardown uuids => (b.markTeardown uuids, .ok {})
  | .removeTensor uuid => (b.removeTensor uuid, .ok {})
  | .releaseRequest rid force =>
    ((b.releaseRequest order rid force).1, .ok (b.releaseRequest order rid force).2)

/-- The same call on the Python store. Its teardown of a request reports
nothing: each tensor is torn down in the call. -/
def TensorStore.call (order : SetOrder) (t : TensorStore Rid T) :
    Call Rid T → TensorStore Rid T × Except Refused Reported
  | .putTensor uuid => (t.putTensor uuid, .ok {})
  | .putStored rid uuid tensor => (t.putStored rid uuid tensor, .ok {})
  | .putTensorBatch uuids => (t.putTensorBatch uuids, .ok {})
  | .putStoredBatch rids uuids tensors =>
    ((t.putStoredBatch rids uuids tensors).1, answer (t.putStoredBatch rids uuids tensors).2)
  | .own rid uuid tensor => (t.own rid uuid tensor, .ok {})
  | .incrementRef uuid n =>
    ({ t with bookkeeping := (t.bookkeeping.incrementRef uuid n).1 },
      answer (t.bookkeeping.incrementRef uuid n).2)
  | .incrementRefBatch uuids counts =>
    ({ t with bookkeeping := (t.bookkeeping.incrementRefBatch uuids counts).1 },
      answer (t.bookkeeping.incrementRefBatch uuids counts).2)
  | .incrementRefBatchUniform uuids n =>
    ({ t with bookkeeping := (t.bookkeeping.incrementRefBatchUniform uuids n).1 },
      answer (t.bookkeeping.incrementRefBatchUniform uuids n).2)
  | .dereference uuid n => ({ t with bookkeeping := t.bookkeeping.dereference uuid n }, .ok {})
  | .dereferenceBatch uuids counts cleanup =>
    t.collected cleanup (t.bookkeeping.dereferenceBatch uuids counts cleanup)
  | .dereferenceBatchUniform uuids n cleanup =>
    t.collected cleanup (t.bookkeeping.dereferenceBatchUniform uuids n cleanup)
  | .setPersist uuid persist =>
    ({ t with bookkeeping := t.bookkeeping.setPersist uuid persist }, .ok {})
  | .setMemRegistered uuid registered =>
    ({ t with bookkeeping := t.bookkeeping.setMemRegistered uuid registered }, .ok {})
  | .markTeardown _ => (t, .ok {})
  | .removeTensor uuid => (t.removeTensor uuid, .ok {})
  | .releaseRequest rid force => (t.releaseRequest order rid force, .ok {})

end Mstar.TensorBooks
