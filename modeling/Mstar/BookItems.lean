import Mstar.BookCalls

/-!
# A batched call is its items one by one

Whatever state the bookkeeper is in, a batched call leaves the state that its
items leave when they are called one after the other, up to the first that is
refused. With cleanup an item is a batch of one.
-/

namespace Mstar.TensorBooks

variable {Rid T : Type}

/-- One entry of a batched dereference as a call of its own. -/
def dropItem (cleanup : Bool) (ref : ℕ × ℤ) : Call Rid T :=
  if cleanup then .dereferenceBatchUniform [ref.1] ref.2 true else .dereference ref.1 ref.2

/-- The calls a batched call stands for. -/
def Call.items : Call Rid T → List (Call Rid T)
  | .putTensorBatch uuids => uuids.map .putTensor
  | .putStoredBatch rids uuids tensors =>
    (rids.zip (uuids.zip tensors)).map fun row => .putStored row.1 row.2.1 row.2.2
  | .incrementRefBatch uuids counts =>
    (uuids.zip counts).map fun ref => .incrementRef ref.1 ref.2
  | .incrementRefBatchUniform uuids n => uuids.map fun uuid => .incrementRef uuid n
  | .dereferenceBatch uuids counts cleanup => (uuids.zip counts).map (dropItem cleanup)
  | .dereferenceBatchUniform uuids n cleanup => uuids.map fun uuid => dropItem cleanup (uuid, n)
  | .markTeardown uuids => uuids.map fun uuid => .markTeardown [uuid]
  | c => [c]

/-- The columns of a call are of one length. -/
def Call.Parallel : Call Rid T → Prop
  | .putStoredBatch rids uuids tensors =>
    rids.length = uuids.length ∧ tensors.length = uuids.length
  | .incrementRefBatch uuids counts => uuids.length = counts.length
  | .dereferenceBatch uuids counts _ => uuids.length = counts.length
  | _ => True

namespace Bookkeeping

variable [DecidableEq Rid] {b : Bookkeeping Rid T} {order : SetOrder}

/-- Calls one after the other, up to the first that is refused. -/
def callEach (order : SetOrder) : Bookkeeping Rid T → List (Call Rid T) → Bookkeeping Rid T
  | b, [] => b
  | b, c :: calls => match b.call order c with
    | (b, .ok _) => b.callEach order calls
    | (b, .error _) => b

/-- A call that is accepted, and those after it. -/
theorem callEach_cons {c : Call Rid T} {reported : Reported} (h : (b.call order c).2 = .ok reported)
    (calls : List (Call Rid T)) :
    b.callEach order (c :: calls) = (b.call order c).1.callEach order calls := by
  unfold callEach
  generalize b.call order c = out at h ⊢
  obtain ⟨out, answer⟩ := out
  simp only at h
  subst h
  cases calls <;> rfl

/-- One call. -/
theorem callEach_one (b : Bookkeeping Rid T) (order : SetOrder) (c : Call Rid T) :
    b.callEach order [c] = (b.call order c).1 := by
  unfold callEach
  generalize b.call order c = out
  obtain ⟨out, answer⟩ := out
  cases answer <;> rfl

/-- Calls that are all accepted. -/
theorem callEach_map {A : Type} (order : SetOrder) (make : A → Call Rid T)
    (step : Bookkeeping Rid T → A → Bookkeeping Rid T)
    (hmake : ∀ (b : Bookkeeping Rid T) a, ∃ reported,
      b.call order (make a) = (step b a, .ok reported))
    (b : Bookkeeping Rid T) (as : List A) :
    b.callEach order (as.map make) = as.foldl step b := by
  induction as generalizing b with
  | nil => rfl
  | cons a as ih =>
    obtain ⟨reported, hcall⟩ := hmake b a
    have hok : (b.call order (make a)).2 = .ok reported := by rw [hcall]
    rw [List.map_cons, callEach_cons hok, hcall]
    exact ih (step b a)

/-- The rows of a batched put. -/
theorem putRows_eq (b : Bookkeeping Rid T) (rids : List Rid) (uuids : List ℕ) (tensors : List T) :
    b.putRows rids uuids tensors = (rids.zip (uuids.zip tensors)).foldl
      (fun b row => b.putStored row.1 row.2.1 row.2.2) b := by
  induction rids generalizing b uuids tensors with
  | nil => rfl
  | cons rid rids ih =>
    cases uuids with
    | nil => rfl
    | cons uuid uuids =>
      cases tensors with
      | nil => rfl
      | cons tensor tensors => exact ih (b.putStored rid uuid tensor) uuids tensors

/-- The increments of a batch, up to the first that is refused. -/
theorem incrementEach_eq (b : Bookkeeping Rid T) (order : SetOrder) (refs : List (ℕ × ℤ)) :
    (b.incrementEach refs).1 =
      b.callEach order (refs.map fun ref => .incrementRef ref.1 ref.2) := by
  induction refs generalizing b with
  | nil => rfl
  | cons ref refs ih =>
    have hcall : b.call order (.incrementRef ref.1 ref.2) =
        ((b.incrementRef ref.1 ref.2).1, answer (b.incrementRef ref.1 ref.2).2) := rfl
    rw [List.map_cons]
    unfold incrementEach callEach
    rw [hcall]
    generalize b.incrementRef ref.1 ref.2 = out
    obtain ⟨out, refused⟩ := out
    cases refused with
    | none => exact ih out
    | some refused => rfl

/-- A batch of one without cleanup is a dereference. -/
theorem dropRefs_one (b : Bookkeeping Rid T) (ref : ℕ × ℤ) :
    (b.dropRefs [ref] false).1 = b.dereference ref.1 ref.2 := by
  obtain ⟨uuid, n⟩ := ref
  change (dropOne false (b, {}) (uuid, n)).1 = b.dereference uuid n
  unfold dropOne
  dsimp only
  cases hinfo : b.refInfo uuid with
  | none =>
    have hsame := Function.update_eq_self uuid b.refInfo
    rw [hinfo] at hsame
    simp only [dereference, onEntry, hinfo, Option.map_none, hsame]
  | some e =>
    dsimp only
    split <;> rfl

/-- The entries of a batched dereference. -/
theorem dropRefs_items (h : b.Inverse) (order : SetOrder) (refs : List (ℕ × ℤ)) (cleanup : Bool) :
    (b.dropRefs refs cleanup).1 = b.callEach order (refs.map (dropItem cleanup)) := by
  rw [dropRefs_each h]
  cases cleanup with
  | false =>
    rw [callEach_map order (dropItem false) fun b ref => (b.dropRefs [ref] false).1]
    intro b ref
    exact ⟨{}, by rw [dropRefs_one]; rfl⟩
  | true =>
    rw [callEach_map order (dropItem true) fun b ref => (b.dropRefs [ref] true).1]
    exact fun b ref => ⟨(b.dropRefs [ref] true).2, rfl⟩

/-- A batched call leaves the same state as its items one by one. -/
theorem call_eq_items (h : b.Inverse) (order : SetOrder) {c : Call Rid T} (hp : c.Parallel) :
    (b.call order c).1 = b.callEach order c.items := by
  cases c with
  | putTensorBatch uuids =>
    exact (callEach_map order _ putTensor (fun _ _ => ⟨{}, rfl⟩) b uuids).symm
  | putStoredBatch rids uuids tensors =>
    have hrows : b.putStoredBatch rids uuids tensors = (b.putRows rids uuids tensors, none) :=
      if_neg (not_or.2 ⟨not_not.2 hp.1, not_not.2 hp.2⟩)
    have heach := callEach_map order
      (fun row : Rid × ℕ × T => Call.putStored row.1 row.2.1 row.2.2)
      (fun b row => b.putStored row.1 row.2.1 row.2.2) (fun _ _ => ⟨{}, rfl⟩) b
      (rids.zip (uuids.zip tensors))
    change (b.putStoredBatch rids uuids tensors).1 = _
    rw [hrows, putRows_eq]
    exact heach.symm
  | incrementRefBatch uuids counts =>
    change (b.incrementRefBatch uuids counts).1 = _
    rw [b.incrementRefBatch_eq hp]
    exact b.incrementEach_eq order _
  | incrementRefBatchUniform uuids n =>
    have heach := b.incrementEach_eq order (uuids.map fun uuid => (uuid, n))
    rw [List.map_map] at heach
    exact heach
  | dereferenceBatch uuids counts cleanup =>
    change (b.dereferenceBatch uuids counts cleanup).1 = _
    rw [b.dereferenceBatch_eq hp]
    exact dropRefs_items h order _ cleanup
  | dereferenceBatchUniform uuids n cleanup =>
    have heach := dropRefs_items h order (uuids.map fun uuid => (uuid, n)) cleanup
    rw [List.map_map] at heach
    exact heach
  | markTeardown uuids =>
    exact (callEach_map order _ (fun b uuid => b.onEntry uuid fun e => { e with teardown := true })
      (fun _ _ => ⟨{}, rfl⟩) b uuids).symm
  | putTensor uuid => exact (b.callEach_one order _).symm
  | putStored rid uuid tensor => exact (b.callEach_one order _).symm
  | own rid uuid tensor => exact (b.callEach_one order _).symm
  | incrementRef uuid n => exact (b.callEach_one order _).symm
  | dereference uuid n => exact (b.callEach_one order _).symm
  | setPersist uuid persist => exact (b.callEach_one order _).symm
  | setMemRegistered uuid registered => exact (b.callEach_one order _).symm
  | removeTensor uuid => exact (b.callEach_one order _).symm
  | releaseRequest rid force => exact (b.callEach_one order _).symm

end Bookkeeping

end Mstar.TensorBooks
