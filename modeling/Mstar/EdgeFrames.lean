import Mathlib.Algebra.Order.Ring.Int
import Mathlib.Data.List.Forall2
import Mstar.Interning

/-!
# Frames of streamed edges

A step's streamed tensors go to a peer worker as one frame of columns. A
builder takes the edges of the requests row by row, and refuses a row whose
descriptors differ in what the frame says once for all of them. The reader
turns the frame back into rows and the rows into descriptors, and gets what was
taken.
-/

namespace Mstar.EdgeFrames

open Interning

/-- `TensorPointerInfo`. `Name` is how names are written, `Dtype` how dtypes
are. -/
structure TensorPointerInfo (Name Dtype : Type) where
  dims : List ℕ
  dtype : Dtype
  nbytes : ℕ
  address : ℕ
  stride : List ℤ
  uuid : ℕ
  sourceSessionId : Name
  sourceEntity : Name
  offset : ℕ
  sourceTpSize : ℕ
  sourceTpRank : ℕ
  shmSegment : Option Name
  shmOffset : ℕ
  sourceNodeName : Option Name
  sourceGraphWalk : Option Name

/-- What a frame says once: session, entity, node and tensor-parallel rank. -/
abbrev SharedFields (Name : Type) := Name × Name × Option Name × ℕ × ℕ

/-- The fields of a descriptor that its frame has. -/
def TensorPointerInfo.shared {Name Dtype : Type} (info : TensorPointerInfo Name Dtype) :
    SharedFields Name :=
  (info.sourceSessionId, info.sourceEntity, info.sourceNodeName, info.sourceTpSize,
    info.sourceTpRank)

/-- An edge with its tensors. -/
structure GraphEdge (Name Dtype : Type) where
  nextNode : String
  name : String
  tensorInfo : List (TensorPointerInfo Name Dtype)

/-- `EdgeItems`. An index of -1 is for no name. -/
structure EdgeItems where
  partitionName : String
  sourceSessionId : String
  sourceEntity : String
  tpSize : ℕ
  tpRank : ℕ
  sourceNodeName : Option String
  names : List String
  requestIds : List String
  signalIdx : List ℕ
  nextNodeIdx : List ℕ
  walkIdx : List ℤ
  numItems : List ℕ
  uuids : List ℕ
  addresses : List ℕ
  nbytes : List ℕ
  offsets : List ℕ
  ndims : List ℕ
  dimsFlat : List ℕ
  strideFlat : List ℤ
  dtypeIdx : List ℕ
  dtypeNames : List String
  shmSegmentIdx : List ℤ
  shmOffsets : List ℕ

/-- The columns of a frame that grow with its rows. -/
structure Columns where
  requestIds : List String := []
  signalIdx : List ℕ := []
  nextNodeIdx : List ℕ := []
  walkIdx : List ℤ := []
  numItems : List ℕ := []
  uuids : List ℕ := []
  addresses : List ℕ := []
  nbytes : List ℕ := []
  offsets : List ℕ := []
  ndims : List ℕ := []
  dimsFlat : List ℕ := []
  strideFlat : List ℤ := []
  dtypeIdx : List ℕ := []
  shmSegmentIdx : List ℤ := []
  shmOffsets : List ℕ := []

/-- `EdgeItemsBuilder`, with the frame's columns and names. The fields that the
frame shares are those of the first row taken. -/
structure Builder (Name Dtype : Type) where
  partition : String
  shared : Option (SharedFields Name)
  names : Interner String
  dtypes : Interner Dtype
  columns : Columns

variable {Name Dtype : Type} [DecidableEq Name] [DecidableEq Dtype]

namespace Builder

omit [DecidableEq Name] [DecidableEq Dtype] in
/-- A builder that has taken no row. -/
def new (partition : String) : Builder Name Dtype :=
  ⟨partition, none, Interner.empty, Interner.empty, {}⟩

/-- The number of a name that may be none. -/
def optionalName (names : Interner String) : Option String → ℤ × Interner String
  | none => (-1, names)
  | some name => ((names.intern name).1, (names.intern name).2)

/-- One item's entry in each of its columns. -/
def addItem (write : Name → String) (b : Builder Name Dtype)
    (info : TensorPointerInfo Name Dtype) : Builder Name Dtype :=
  let dtype := b.dtypes.intern info.dtype
  let segment := optionalName b.names (info.shmSegment.map write)
  { b with
    names := segment.2
    dtypes := dtype.2
    columns := { b.columns with
      uuids := b.columns.uuids ++ [info.uuid]
      addresses := b.columns.addresses ++ [info.address]
      nbytes := b.columns.nbytes ++ [info.nbytes]
      offsets := b.columns.offsets ++ [info.offset]
      ndims := b.columns.ndims ++ [info.dims.length]
      dimsFlat := b.columns.dimsFlat ++ info.dims
      strideFlat := b.columns.strideFlat ++ info.stride
      dtypeIdx := b.columns.dtypeIdx ++ [dtype.1]
      shmSegmentIdx := b.columns.shmSegmentIdx ++ [segment.1]
      shmOffsets := b.columns.shmOffsets ++ [info.shmOffset] } }

/-- A row's entry in each of the columns of rows. -/
def addRow (write : Name → String) (b : Builder Name Dtype) (requestId : String)
    (edge : GraphEdge Name Dtype) (walk : Option Name) : Builder Name Dtype :=
  let signal := b.names.intern edge.name
  let nextNode := signal.2.intern edge.nextNode
  let walkAt := optionalName nextNode.2 (walk.map write)
  { b with
    names := walkAt.2
    columns := { b.columns with
      requestIds := b.columns.requestIds ++ [requestId]
      signalIdx := b.columns.signalIdx ++ [signal.1]
      nextNodeIdx := b.columns.nextNodeIdx ++ [nextNode.1]
      walkIdx := b.columns.walkIdx ++ [walkAt.1]
      numItems := b.columns.numItems ++ [edge.tensorInfo.length] } }

/-- `EdgeItemsBuilder.try_add`, where names and dtypes are written as they are
kept. -/
def tryAdd (write : Name → String) (b : Builder Name Dtype) (requestId : String)
    (edge : GraphEdge Name Dtype) : Bool × Builder Name Dtype :=
  match edge.tensorInfo with
  | [] => (false, b)
  | first :: _ =>
    if edge.tensorInfo.any fun info =>
        info.shared ≠ first.shared || info.sourceGraphWalk ≠ first.sourceGraphWalk then
      (false, b)
    else if b.shared.any fun shared => shared ≠ first.shared then (false, b)
    else
      (true, edge.tensorInfo.foldl (addItem write)
        (addRow write { b with shared := some first.shared } requestId edge
          first.sourceGraphWalk))

/-- The same in the graph runtime, which looks at the frame's fields first. -/
def tryAddInterned (write : Name → String) (b : Builder Name Dtype) (requestId : String)
    (edge : GraphEdge Name Dtype) : Bool × Builder Name Dtype :=
  match edge.tensorInfo with
  | [] => (false, b)
  | first :: _ =>
    if b.shared.any fun shared => shared ≠ first.shared then (false, b)
    else if edge.tensorInfo.any fun info =>
        info.shared ≠ first.shared || info.sourceGraphWalk ≠ first.sourceGraphWalk then
      (false, b)
    else
      (true, edge.tensorInfo.foldl (addItem write)
        (addRow write { b with shared := some first.shared } requestId edge
          first.sourceGraphWalk))

omit [DecidableEq Name] [DecidableEq Dtype] in
/-- The frame of the rows taken, with the fields they share. -/
def frame (write : Name → String) (writeDtype : Dtype → String) (b : Builder Name Dtype)
    (shared : SharedFields Name) : EdgeItems where
  partitionName := b.partition
  sourceSessionId := write shared.1
  sourceEntity := write shared.2.1
  tpSize := shared.2.2.2.1
  tpRank := shared.2.2.2.2
  sourceNodeName := shared.2.2.1.map write
  names := b.names.names
  requestIds := b.columns.requestIds
  signalIdx := b.columns.signalIdx
  nextNodeIdx := b.columns.nextNodeIdx
  walkIdx := b.columns.walkIdx
  numItems := b.columns.numItems
  uuids := b.columns.uuids
  addresses := b.columns.addresses
  nbytes := b.columns.nbytes
  offsets := b.columns.offsets
  ndims := b.columns.ndims
  dimsFlat := b.columns.dimsFlat
  strideFlat := b.columns.strideFlat
  dtypeIdx := b.columns.dtypeIdx
  dtypeNames := b.dtypes.names.map writeDtype
  shmSegmentIdx := b.columns.shmSegmentIdx
  shmOffsets := b.columns.shmOffsets

/-- `build`: the frame, once a row was taken. -/
def build (write : Name → String) (writeDtype : Dtype → String) (b : Builder Name Dtype) :
    Option EdgeItems :=
  b.shared.map (b.frame write writeDtype)

end Builder

/-- One row of a frame: its items are `count` from `start` on, and their
dimensions begin at `dimStart`. -/
structure StreamRow where
  index : ℕ
  requestId : String
  signal : String
  nextNode : String
  start : ℕ
  count : ℕ
  dimStart : ℕ

/-- `InputSignals`, as far as a row makes it up. -/
structure InputSignals (Dtype : Type) where
  requestId : String
  inputs : List (GraphEdge String Dtype)
  partitionName : String

/-- A stretch of a list. -/
def slice {α : Type} (xs : List α) (start count : ℕ) : List α := (xs.drop start).take count

/-- The rows from one on, where its items and their dimensions begin. -/
def rowsFrom (names : List String) (ndims : List ℕ) :
    ℕ → ℕ → ℕ → List (String × ℕ × ℕ × ℕ) → Option (List StreamRow)
  | _, _, _, [] => some []
  | index, start, dimStart, (requestId, s, n, count) :: columns => do
    let signal ← names[s]?
    let nextNode ← names[n]?
    let rows ← rowsFrom names ndims (index + 1) (start + count)
      (dimStart + (slice ndims start count).sum) columns
    return ⟨index, requestId, signal, nextNode, start, count, dimStart⟩ :: rows

/-- `rows`: none where the columns are not equally long. -/
def rows (frame : EdgeItems) : Option (List StreamRow) :=
  if frame.signalIdx.length = frame.requestIds.length ∧
      frame.nextNodeIdx.length = frame.requestIds.length ∧
      frame.numItems.length = frame.requestIds.length then
    rowsFrom frame.names frame.ndims 0 0 0 (frame.requestIds.zip
      (frame.signalIdx.zip (frame.nextNodeIdx.zip frame.numItems)))
  else none

/-- A name by its index, where a negative one stands for none. -/
def nameAt (names : List String) (i : ℤ) : Option (Option String) :=
  if i < 0 then some none else names[i.toNat]?.map some

/-- The `k`-th item's descriptor, whose `nd` dimensions begin at `dimAt`. -/
def infoAt (frame : EdgeItems) (dtypes : List Dtype) (walk : Option String) (k dimAt nd : ℕ) :
    Option (TensorPointerInfo String Dtype) := do
  let seg ← frame.shmSegmentIdx[k]?
  let segment ← nameAt frame.names seg
  let dtypeAt ← frame.dtypeIdx[k]?
  let dtype ← dtypes[dtypeAt]?
  let nbytes ← frame.nbytes[k]?
  let address ← frame.addresses[k]?
  let uuid ← frame.uuids[k]?
  let offset ← frame.offsets[k]?
  let shmOffset ← frame.shmOffsets[k]?
  return {
    dims := slice frame.dimsFlat dimAt nd
    dtype := dtype
    nbytes := nbytes
    address := address
    stride := slice frame.strideFlat dimAt nd
    uuid := uuid
    sourceSessionId := frame.sourceSessionId
    sourceEntity := frame.sourceEntity
    offset := offset
    sourceTpSize := frame.tpSize
    sourceTpRank := frame.tpRank
    shmSegment := segment
    shmOffset := shmOffset
    sourceNodeName := frame.sourceNodeName
    sourceGraphWalk := walk }

/-- The descriptors of some items from the `k`-th on. -/
def infosFrom (frame : EdgeItems) (dtypes : List Dtype) (walk : Option String) :
    ℕ → ℕ → ℕ → Option (List (TensorPointerInfo String Dtype))
  | 0, _, _ => some []
  | count + 1, k, dimAt => do
    let nd ← frame.ndims[k]?
    let info ← infoAt frame dtypes walk k dimAt nd
    let infos ← infosFrom frame dtypes walk count (k + 1) (dimAt + nd)
    return info :: infos

/-- `row_infos`. -/
def rowInfos (frame : EdgeItems) (dtypes : List Dtype) (row : StreamRow) :
    Option (List (TensorPointerInfo String Dtype)) := do
  let walkIdx ← frame.walkIdx[row.index]?
  let walk ← nameAt frame.names walkIdx
  infosFrom frame dtypes walk row.count row.start row.dimStart

/-- `row_input_signals`. -/
def rowInputSignals (frame : EdgeItems) (dtypes : List Dtype) (row : StreamRow) :
    Option (InputSignals Dtype) := do
  let infos ← rowInfos frame dtypes row
  return ⟨row.requestId, [⟨row.nextNode, row.signal, infos⟩], frame.partitionName⟩

/-- Every row of a frame, with the dtypes by their names. -/
def readAll (fromName : String → Dtype) (frame : EdgeItems) :
    Option (List (InputSignals Dtype)) := do
  let found ← rows frame
  found.mapM (rowInputSignals frame (frame.dtypeNames.map fromName))

/-- A descriptor with its names and its dtype renamed. -/
def TensorPointerInfo.rename {Name Dtype Name' Dtype' : Type} (f : Name → Name')
    (g : Dtype → Dtype') (info : TensorPointerInfo Name Dtype) :
    TensorPointerInfo Name' Dtype' where
  dims := info.dims
  dtype := g info.dtype
  nbytes := info.nbytes
  address := info.address
  stride := info.stride
  uuid := info.uuid
  sourceSessionId := f info.sourceSessionId
  sourceEntity := f info.sourceEntity
  offset := info.offset
  sourceTpSize := info.sourceTpSize
  sourceTpRank := info.sourceTpRank
  shmSegment := info.shmSegment.map f
  shmOffset := info.shmOffset
  sourceNodeName := info.sourceNodeName.map f
  sourceGraphWalk := info.sourceGraphWalk.map f

/-- An edge with its descriptors renamed. -/
def GraphEdge.rename {Name Dtype Name' Dtype' : Type} (f : Name → Name') (g : Dtype → Dtype')
    (edge : GraphEdge Name Dtype) : GraphEdge Name' Dtype' :=
  ⟨edge.nextNode, edge.name, edge.tensorInfo.map (TensorPointerInfo.rename f g)⟩

/-- What an edge's descriptors share with one another, where they do. -/
def GraphEdge.uniform {Name Dtype : Type} [DecidableEq Name] (edge : GraphEdge Name Dtype) :
    Option (SharedFields Name) :=
  match edge.tensorInfo with
  | [] => none
  | first :: _ =>
    if edge.tensorInfo.any fun info =>
        info.shared ≠ first.shared || info.sourceGraphWalk ≠ first.sourceGraphWalk then
      none
    else some first.shared

/-- The walk of an edge's first descriptor. -/
def GraphEdge.walk {Name Dtype : Type} (edge : GraphEdge Name Dtype) : Option Name :=
  edge.tensorInfo.head?.bind (·.sourceGraphWalk)

/-- An edge offered for a request. -/
abbrev Offer (Name Dtype : Type) := String × GraphEdge Name Dtype

/-- The rows of a run that belong in one frame: those with the fields of the
first whose descriptors agree. -/
def belonging (offers : List (Offer Name Dtype)) : List (Offer Name Dtype) :=
  offers.filter fun row => row.2.uniform.isSome ∧
    row.2.uniform = (offers.filterMap (·.2.uniform)).head?

/-- A builder after a run of rows offered, and those it took. -/
def offerAll (tryAdd : Builder Name Dtype → String → GraphEdge Name Dtype →
      Bool × Builder Name Dtype) (b : Builder Name Dtype) :
    List (Offer Name Dtype) → List (Offer Name Dtype) × Builder Name Dtype
  | [] => ([], b)
  | row :: more =>
    let next := tryAdd b row.1 row.2
    let rest := offerAll tryAdd next.2 more
    (if next.1 then row :: rest.1 else rest.1, rest.2)

section Numbering

/-- A place keeps its entry as a list grows. -/
theorem getElem?_grown {α : Type} {xs ys : List α} (h : xs <+: ys) {i : ℕ} {x : α}
    (hx : xs[i]? = some x) : ys[i]? = some x := by
  obtain ⟨more, rfl⟩ := h
  rw [List.getElem?_append_left (List.getElem?_eq_some_iff.1 hx).1]
  exact hx

/-- So does an index that may be none. -/
theorem nameAt_grown {xs ys : List String} (h : xs <+: ys) {i : ℤ} {name : Option String}
    (hname : nameAt xs i = some name) : nameAt ys i = some name := by
  unfold nameAt at hname ⊢
  split at hname
  · rename_i hneg
    rw [if_pos hneg, hname]
  · rename_i hneg
    obtain ⟨text, htext, rfl⟩ := Option.map_eq_some_iff.1 hname
    rw [if_neg hneg, getElem?_grown h htext]
    rfl

/-- An index that is a number. -/
theorem nameAt_natCast (names : List String) (i : ℕ) :
    nameAt names i = names[i]?.map some := by
  unfold nameAt
  rw [if_neg (by omega), Int.toNat_natCast]

/-- Interning adds to the list at most. -/
theorem intern_grows {Key : Type} [DecidableEq Key] (t : Interner Key) (key : Key) :
    t.names <+: (t.intern key).2.names := by
  obtain ⟨more, hmore, -⟩ := t.intern_spec key
  exact ⟨more, hmore.symm⟩

/-- The number of a key finds it. -/
theorem intern_found {Key : Type} [DecidableEq Key] (t : Interner Key) (key : Key) :
    (t.intern key).2.names[(t.intern key).1]? = some key := by
  obtain ⟨more, -, hfound⟩ := t.intern_spec key
  exact hfound

/-- Numbering a name that may be none adds to the list at most. -/
theorem optionalName_grows (names : Interner String) (name : Option String) :
    names.names <+: (Builder.optionalName names name).2.names := by
  cases name with
  | none => exact List.prefix_refl _
  | some name => exact intern_grows names name

/-- The number of a name that may be none finds it. -/
theorem optionalName_found (names : Interner String) (name : Option String) :
    nameAt (Builder.optionalName names name).2.names
      (Builder.optionalName names name).1 = some name := by
  cases name with
  | none => rfl
  | some name =>
    exact (nameAt_natCast _ _).trans (congrArg _ (intern_found names name))

end Numbering

section Columns

/-- The columns of items hold some items, with names and dtypes by number. -/
structure ItemsHold (write : Name → String) (names : List String) (dtypes : List Dtype)
    (c : Columns) (items : List (TensorPointerInfo Name Dtype)) : Prop where
  uuids : c.uuids = items.map (·.uuid)
  addresses : c.addresses = items.map (·.address)
  nbytes : c.nbytes = items.map (·.nbytes)
  offsets : c.offsets = items.map (·.offset)
  ndims : c.ndims = items.map (·.dims.length)
  dimsFlat : c.dimsFlat = items.flatMap (·.dims)
  strideFlat : c.strideFlat = items.flatMap (·.stride)
  dtypeIdx : List.Forall₂ (fun i info => dtypes[i]? = some info.dtype) c.dtypeIdx items
  shmSegmentIdx : List.Forall₂ (fun i info => nameAt names i = some (info.shmSegment.map write))
    c.shmSegmentIdx items
  shmOffsets : c.shmOffsets = items.map (·.shmOffset)

/-- The columns of rows hold some rows, with names by number. -/
structure RowsHold (write : Name → String) (names : List String) (c : Columns)
    (taken : List (Offer Name Dtype)) : Prop where
  requestIds : c.requestIds = taken.map (·.1)
  signalIdx : List.Forall₂ (fun i row => names[i]? = some row.2.name) c.signalIdx taken
  nextNodeIdx : List.Forall₂ (fun i row => names[i]? = some row.2.nextNode) c.nextNodeIdx taken
  walkIdx : List.Forall₂ (fun i row => nameAt names i = some (row.2.walk.map write))
    c.walkIdx taken
  numItems : c.numItems = taken.map (·.2.tensorInfo.length)

/-- The items of some rows, in their order. -/
def itemsOf (taken : List (Offer Name Dtype)) : List (TensorPointerInfo Name Dtype) :=
  taken.flatMap (·.2.tensorInfo)

/-- What a builder that took some rows holds of them. -/
structure Holds (write : Name → String) (b : Builder Name Dtype)
    (taken : List (Offer Name Dtype)) : Prop where
  rows : RowsHold write b.names.names b.columns taken
  items : ItemsHold write b.names.names b.dtypes.names b.columns (itemsOf taken)
  /-- Every row taken has the frame's fields. -/
  uniform : ∀ row ∈ taken, row.2.uniform = b.shared
  /-- The frame has its fields from a row. -/
  opened : b.shared = none ↔ taken = []

omit [DecidableEq Name] [DecidableEq Dtype] in
/-- Rows are held as names are added and the columns of items grow. -/
theorem RowsHold.grown {write : Name → String} {names names' : List String} {c c' : Columns}
    {taken : List (Offer Name Dtype)} (h : RowsHold write names c taken)
    (hnames : names <+: names')
    (hc : (c'.requestIds, c'.signalIdx, c'.nextNodeIdx, c'.walkIdx, c'.numItems) =
      (c.requestIds, c.signalIdx, c.nextNodeIdx, c.walkIdx, c.numItems)) :
    RowsHold write names' c' taken := by
  simp only [Prod.mk.injEq] at hc
  obtain ⟨hids, hsignal, hnext, hwalk, hnum⟩ := hc
  exact {
    requestIds := hids.trans h.requestIds
    signalIdx := by
      rw [hsignal]
      exact h.signalIdx.imp fun _ _ hi => getElem?_grown hnames hi
    nextNodeIdx := by
      rw [hnext]
      exact h.nextNodeIdx.imp fun _ _ hi => getElem?_grown hnames hi
    walkIdx := by
      rw [hwalk]
      exact h.walkIdx.imp fun _ _ hi => nameAt_grown hnames hi
    numItems := hnum.trans h.numItems }

omit [DecidableEq Name] in
/-- An item added is held with those before it. -/
theorem ItemsHold.addItem {write : Name → String} {b : Builder Name Dtype}
    {items : List (TensorPointerInfo Name Dtype)}
    (h : ItemsHold write b.names.names b.dtypes.names b.columns items)
    (info : TensorPointerInfo Name Dtype) :
    ItemsHold write (b.addItem write info).names.names (b.addItem write info).dtypes.names
      (b.addItem write info).columns (items ++ [info]) where
  uuids := by simp [Builder.addItem, h.uuids]
  addresses := by simp [Builder.addItem, h.addresses]
  nbytes := by simp [Builder.addItem, h.nbytes]
  offsets := by simp [Builder.addItem, h.offsets]
  ndims := by simp [Builder.addItem, h.ndims]
  dimsFlat := by simp [Builder.addItem, h.dimsFlat]
  strideFlat := by simp [Builder.addItem, h.strideFlat]
  dtypeIdx := by
    refine List.rel_append (h.dtypeIdx.imp fun _ _ hi => ?_) (.cons ?_ .nil)
    · exact getElem?_grown (intern_grows b.dtypes info.dtype) hi
    · exact intern_found b.dtypes info.dtype
  shmSegmentIdx := by
    refine List.rel_append (h.shmSegmentIdx.imp fun _ _ hi => ?_) (.cons ?_ .nil)
    · exact nameAt_grown (optionalName_grows b.names _) hi
    · exact optionalName_found b.names _
  shmOffsets := by simp [Builder.addItem, h.shmOffsets]

omit [DecidableEq Name] [DecidableEq Dtype] in
/-- A row added is held with those before it. -/
theorem RowsHold.addRow {write : Name → String} {b : Builder Name Dtype}
    {taken : List (Offer Name Dtype)} (h : RowsHold write b.names.names b.columns taken)
    (row : Offer Name Dtype) :
    RowsHold write (b.addRow write row.1 row.2 row.2.walk).names.names
      (b.addRow write row.1 row.2 row.2.walk).columns (taken ++ [row]) := by
  have hsignal := intern_grows b.names row.2.name
  have hnext := intern_grows (b.names.intern row.2.name).2 row.2.nextNode
  have hwalk := optionalName_grows
    ((b.names.intern row.2.name).2.intern row.2.nextNode).2 (row.2.walk.map write)
  have hlater := hnext.trans hwalk
  have hall := hsignal.trans hlater
  exact {
    requestIds := by simp [Builder.addRow, h.requestIds]
    signalIdx := by
      refine List.rel_append (h.signalIdx.imp fun _ _ hi => ?_) (.cons ?_ .nil)
      · exact getElem?_grown hall hi
      · exact getElem?_grown hlater (intern_found b.names row.2.name)
    nextNodeIdx := by
      refine List.rel_append (h.nextNodeIdx.imp fun _ _ hi => ?_) (.cons ?_ .nil)
      · exact getElem?_grown hall hi
      · exact getElem?_grown hwalk (intern_found _ row.2.nextNode)
    walkIdx := by
      refine List.rel_append (h.walkIdx.imp fun _ _ hi => ?_) (.cons ?_ .nil)
      · exact nameAt_grown hall hi
      · exact optionalName_found _ _
    numItems := by simp [Builder.addRow, h.numItems] }

end Columns

section Taking

variable (write : Name → String)

omit [DecidableEq Name] in
/-- Items added leave the frame's fields and its partition. -/
theorem addItems_fixed (infos : List (TensorPointerInfo Name Dtype)) (b : Builder Name Dtype) :
    (infos.foldl (Builder.addItem write) b).shared = b.shared ∧
      (infos.foldl (Builder.addItem write) b).partition = b.partition := by
  induction infos generalizing b with
  | nil => exact ⟨rfl, rfl⟩
  | cons info infos ih => exact ih _

omit [DecidableEq Name] in
/-- Items added: the rows before are held, and the items after those before. -/
theorem addItems_holds (infos : List (TensorPointerInfo Name Dtype)) (b : Builder Name Dtype)
    {taken : List (Offer Name Dtype)} {items : List (TensorPointerInfo Name Dtype)}
    (hrows : RowsHold write b.names.names b.columns taken)
    (hitems : ItemsHold write b.names.names b.dtypes.names b.columns items) :
    RowsHold write (infos.foldl (Builder.addItem write) b).names.names
      (infos.foldl (Builder.addItem write) b).columns taken ∧
      ItemsHold write (infos.foldl (Builder.addItem write) b).names.names
        (infos.foldl (Builder.addItem write) b).dtypes.names
        (infos.foldl (Builder.addItem write) b).columns (items ++ infos) := by
  induction infos generalizing b items with
  | nil => exact ⟨hrows, (List.append_nil items).symm ▸ hitems⟩
  | cons info infos ih =>
    have hrows' : RowsHold write (b.addItem write info).names.names
        (b.addItem write info).columns taken :=
      hrows.grown (optionalName_grows b.names _) rfl
    obtain ⟨hheld, hmore⟩ := ih (b.addItem write info) hrows' (hitems.addItem info)
    rw [List.append_assoc] at hmore
    exact ⟨hheld, hmore⟩

omit [DecidableEq Dtype] in
/-- An edge whose descriptors agree has a first one, and they all have its
fields and its walk. -/
theorem GraphEdge.uniform_spec {edge : GraphEdge Name Dtype} {shared : SharedFields Name}
    (h : edge.uniform = some shared) :
    ∃ first more, edge.tensorInfo = first :: more ∧ shared = first.shared ∧
      edge.walk = first.sourceGraphWalk ∧
      ∀ info ∈ edge.tensorInfo, info.shared = shared ∧ info.sourceGraphWalk = edge.walk := by
  unfold GraphEdge.uniform at h
  split at h
  · cases h
  · rename_i first more hinfos
    split at h
    · cases h
    · rename_i hsame
      cases h
      have hwalk : edge.walk = first.sourceGraphWalk := by
        simp [GraphEdge.walk, hinfos]
      refine ⟨first, more, hinfos, rfl, hwalk, fun info hinfo => ?_⟩
      rw [hwalk]
      simp only [List.any_eq_true, not_exists, not_and, Bool.or_eq_true, decide_eq_true_eq,
        not_or, not_not] at hsame
      exact hsame info hinfo

omit [DecidableEq Dtype] in
/-- A builder takes a row exactly when its descriptors agree and the frame is
new or has their fields; else nothing changes. -/
theorem tryAdd_eq (b : Builder Name Dtype) (requestId : String) (edge : GraphEdge Name Dtype)
    [DecidableEq Dtype] :
    b.tryAdd write requestId edge =
      if edge.uniform.isSome ∧ (b.shared = none ∨ b.shared = edge.uniform) then
        (true, edge.tensorInfo.foldl (Builder.addItem write)
          (Builder.addRow write { b with shared := edge.uniform } requestId edge edge.walk))
      else (false, b) := by
  unfold Builder.tryAdd GraphEdge.uniform GraphEdge.walk
  split
  · rfl
  · rename_i first more hinfos
    simp only [hinfos, List.head?_cons, Option.bind_some]
    by_cases hsame : ((first :: more).any fun info =>
        info.shared ≠ first.shared || info.sourceGraphWalk ≠ first.sourceGraphWalk) = true
    · rw [if_pos hsame, if_pos hsame, if_neg (by simp)]
    · rw [if_neg hsame, if_neg hsame]
      cases hshared : b.shared with
      | none => rw [if_neg (by simp), if_pos (by simp)]
      | some shared =>
        by_cases heq : shared = first.shared
        · rw [if_neg (by simp [heq]), if_pos (by simp [heq])]
        · rw [if_pos (by simp [heq]), if_neg (by simp [heq])]

omit [DecidableEq Dtype] in
/-- A row that a builder takes is held, and fixes the fields of a new frame. -/
theorem Holds.take [DecidableEq Dtype] {b : Builder Name Dtype}
    {taken : List (Offer Name Dtype)} (h : Holds write b taken) (row : Offer Name Dtype)
    (hrow : row.2.uniform.isSome ∧ (b.shared = none ∨ b.shared = row.2.uniform)) :
    Holds write (row.2.tensorInfo.foldl (Builder.addItem write)
      (Builder.addRow write { b with shared := row.2.uniform } row.1 row.2 row.2.walk))
      (taken ++ [row]) := by
  let opened : Builder Name Dtype := { b with shared := row.2.uniform }
  have hrows : RowsHold write opened.names.names opened.columns taken := h.rows
  have hadded := hrows.addRow row
  -- A row's entries leave the items as they were.
  have hitems : ItemsHold write (opened.addRow write row.1 row.2 row.2.walk).names.names
      (opened.addRow write row.1 row.2 row.2.walk).dtypes.names
      (opened.addRow write row.1 row.2 row.2.walk).columns (itemsOf taken) := by
    have hnames := ((intern_grows b.names row.2.name).trans (intern_grows _ row.2.nextNode)).trans
      (optionalName_grows _ (row.2.walk.map write))
    exact { h.items with
      shmSegmentIdx := h.items.shmSegmentIdx.imp fun _ _ hi => nameAt_grown hnames hi }
  obtain ⟨hheld, hmore⟩ := addItems_holds write row.2.tensorInfo _ hadded hitems
  have hfields : (row.2.tensorInfo.foldl (Builder.addItem write)
      (opened.addRow write row.1 row.2 row.2.walk)).shared = row.2.uniform :=
    (addItems_fixed write _ _).1
  constructor
  · exact hheld
  · rw [itemsOf, List.flatMap_append]
    simpa [itemsOf] using hmore
  · intro other hother
    rw [hfields]
    rcases List.mem_append.1 hother with hbefore | hnew
    · have hsame := h.uniform other hbefore
      rcases hrow.2 with hnone | hsome
      · rw [h.opened.1 hnone] at hbefore
        cases hbefore
      · exact hsame.trans hsome
    · rw [List.mem_singleton.1 hnew]
  · rw [hfields]
    constructor
    · intro hnone
      rw [hnone] at hrow
      cases hrow.1
    · intro hempty
      simp at hempty

/-- Rows offered leave the partition. -/
theorem offerAll_partition (offers : List (Offer Name Dtype)) (b : Builder Name Dtype) :
    (offerAll (Builder.tryAdd write) b offers).2.partition = b.partition := by
  induction offers generalizing b with
  | nil => rfl
  | cons row offers ih =>
    simp only [offerAll, tryAdd_eq]
    split
    · exact (ih _).trans (addItems_fixed write _ _).2
    · exact ih b

/-- A run of rows offered: the builder holds what it held and what it took. -/
theorem offerAll_holds (offers : List (Offer Name Dtype)) (b : Builder Name Dtype)
    {taken : List (Offer Name Dtype)} (h : Holds write b taken) :
    Holds write (offerAll (Builder.tryAdd write) b offers).2
      (taken ++ (offerAll (Builder.tryAdd write) b offers).1) := by
  induction offers generalizing b taken with
  | nil =>
    rw [offerAll, List.append_nil]
    exact h
  | cons row offers ih =>
    simp only [offerAll, tryAdd_eq]
    split
    · rename_i hrow
      have htaken := ih _ (h.take write row hrow)
      rw [List.append_assoc] at htaken
      exact htaken
    · exact ih b h

/-- A run takes the rows that have the frame's fields, or those of the first row
that can open it. -/
theorem offerAll_taken (offers : List (Offer Name Dtype)) (b : Builder Name Dtype) :
    (offerAll (Builder.tryAdd write) b offers).1 = offers.filter fun row =>
      row.2.uniform.isSome ∧
        row.2.uniform = b.shared.or (offers.filterMap (·.2.uniform)).head? := by
  induction offers generalizing b with
  | nil => rfl
  | cons row offers ih =>
    simp only [offerAll, tryAdd_eq]
    cases hrow : row.2.uniform with
    | none => simp [hrow, ih]
    | some shared =>
      cases hshared : b.shared with
      | none => simp [hrow, ih, addItems_fixed, Builder.addRow]
      | some found =>
        by_cases hsame : found = shared
        · simp [hrow, ih, addItems_fixed, Builder.addRow, hsame]
        · have hother : ¬ shared = found := fun heq => hsame heq.symm
          simp [hrow, ih, hshared, hsame, hother]

end Taking

section Reading

/-- A stretch of a list is where it was put. -/
theorem slice_append {α : Type} (before xs later : List α) :
    slice (before ++ xs ++ later) before.length xs.length = xs := by
  rw [slice, List.append_assoc, List.drop_left, List.take_left]

/-- Related lists are related place by place. -/
theorem forall₂_getElem? {α β : Type} {R : α → β → Prop} {xs : List α} {ys : List β}
    (h : List.Forall₂ R xs ys) {k : ℕ} {y : β} (hy : ys[k]? = some y) :
    ∃ x, xs[k]? = some x ∧ R x y := by
  induction h generalizing k with
  | nil => cases hy
  | cons hxy _ ih =>
    cases k with
    | zero =>
      cases hy
      exact ⟨_, rfl, hxy⟩
    | succ k => exact ih hy

/-- The entry after some others. -/
theorem getElem?_append_cons {α : Type} (before : List α) (x : α) (later : List α) :
    (before ++ x :: later)[before.length]? = some x := by
  rw [List.getElem?_append_right (Nat.le_refl _), Nat.sub_self]
  rfl

variable {write : Name → String} (writeDtype : Dtype → String) (fromName : String → Dtype)
  {b : Builder Name Dtype} {items : List (TensorPointerInfo Name Dtype)}

omit [DecidableEq Name] [DecidableEq Dtype] in
/-- Strides take as much room as dimensions. -/
theorem stride_length (items : List (TensorPointerInfo Name Dtype))
    (h : ∀ info ∈ items, info.stride.length = info.dims.length) :
    (items.flatMap (·.stride)).length = (items.flatMap (·.dims)).length := by
  induction items with
  | nil => rfl
  | cons info items ih =>
    rw [List.flatMap_cons, List.flatMap_cons, List.length_append, List.length_append,
      ih fun other hother => h other (List.mem_cons_of_mem _ hother),
      h info List.mem_cons_self]

omit [DecidableEq Name] [DecidableEq Dtype] in
/-- An item held is read back, where its strides take as much room as its
dimensions. -/
theorem infoAt_eq (h : ItemsHold write b.names.names b.dtypes.names b.columns items)
    {before later : List (TensorPointerInfo Name Dtype)} {info : TensorPointerInfo Name Dtype}
    (hitems : items = before ++ info :: later)
    (hstride : ∀ other ∈ items, other.stride.length = other.dims.length) :
    infoAt (b.frame write writeDtype info.shared) ((b.dtypes.names.map writeDtype).map fromName)
      (info.sourceGraphWalk.map write) before.length (before.flatMap (·.dims)).length
      info.dims.length = some (info.rename write (fromName ∘ writeDtype)) := by
  have hat : items[before.length]? = some info := by
    rw [hitems]
    exact getElem?_append_cons before info later
  obtain ⟨seg, hseg, hsegment⟩ := forall₂_getElem? h.shmSegmentIdx hat
  obtain ⟨dtypeAt, hdtypeAt, hdtype⟩ := forall₂_getElem? h.dtypeIdx hat
  have hdims : slice b.columns.dimsFlat (before.flatMap (·.dims)).length info.dims.length =
      info.dims := by
    rw [h.dimsFlat, hitems, List.flatMap_append, List.flatMap_cons, ← List.append_assoc]
    exact slice_append _ _ _
  have hstrides : slice b.columns.strideFlat (before.flatMap (·.dims)).length
      info.dims.length = info.stride := by
    have hbefore := stride_length before fun other hother =>
      hstride other (hitems ▸ List.mem_append_left _ hother)
    rw [h.strideFlat, hitems, List.flatMap_append, List.flatMap_cons, ← List.append_assoc,
      ← hbefore, ← hstride info (hitems ▸ by simp)]
    exact slice_append _ _ _
  simp only [infoAt, Builder.frame, hseg, hsegment, hdtypeAt, List.getElem?_map, hdtype,
    h.nbytes, h.addresses, h.uuids, h.offsets, h.shmOffsets, hat, Option.map_some, hdims, hstrides,
    Option.bind_eq_bind, Option.bind_some]
  rfl

omit [DecidableEq Name] [DecidableEq Dtype] in
/-- Items held one after another are read back in their order. -/
theorem infosFrom_eq (h : ItemsHold write b.names.names b.dtypes.names b.columns items)
    (hstride : ∀ other ∈ items, other.stride.length = other.dims.length)
    {shared : SharedFields Name} {walk : Option Name}
    (infos : List (TensorPointerInfo Name Dtype))
    (hsame : ∀ info ∈ infos, info.shared = shared ∧ info.sourceGraphWalk = walk)
    (before later : List (TensorPointerInfo Name Dtype))
    (hitems : items = before ++ (infos ++ later)) :
    infosFrom (b.frame write writeDtype shared) ((b.dtypes.names.map writeDtype).map fromName)
      (walk.map write) infos.length before.length (before.flatMap (·.dims)).length =
      some (infos.map (TensorPointerInfo.rename write (fromName ∘ writeDtype))) := by
  induction infos generalizing before with
  | nil => rfl
  | cons info infos ih =>
    have hat : items[before.length]? = some info := by
      rw [hitems]
      exact getElem?_append_cons before info (infos ++ later)
    have hnd : (b.frame write writeDtype shared).ndims[before.length]? =
        some info.dims.length := by
      change b.columns.ndims[before.length]? = _
      rw [h.ndims, List.getElem?_map, hat]
      rfl
    obtain ⟨hshared, hwalk⟩ := hsame info List.mem_cons_self
    have hinfo := infoAt_eq writeDtype fromName h hitems hstride
    rw [hshared, hwalk] at hinfo
    have hmore := ih (fun other hother => hsame other (List.mem_cons_of_mem _ hother))
      (before ++ [info]) (by rw [hitems]; simp)
    rw [List.length_append, List.flatMap_append, List.length_append] at hmore
    simp only [List.flatMap_cons, List.flatMap_nil, List.append_nil, List.length_cons,
      List.length_nil, Nat.zero_add] at hmore
    simp only [List.length_cons, infosFrom, hnd, hinfo, hmore, Option.bind_eq_bind,
      Option.bind_some]
    rfl

omit [DecidableEq Name] [DecidableEq Dtype] in
/-- The lengths of the items of some rows. -/
theorem itemsOf_length (taken : List (Offer Name Dtype)) (row : Offer Name Dtype) :
    (itemsOf (taken ++ [row])).length = (itemsOf taken).length + row.2.tensorInfo.length := by
  simp [itemsOf]

/-- A row's entries in the columns of rows. -/
def RowAt (names : List String) (entry : String × ℕ × ℕ × ℕ) (row : Offer Name Dtype) : Prop :=
  entry.1 = row.1 ∧ names[entry.2.1]? = some row.2.name ∧
    names[entry.2.2.1]? = some row.2.nextNode ∧ entry.2.2.2 = row.2.tensorInfo.length

/-- Lists related to one are related together. -/
theorem forall₂_zip_left {α β γ : Type} {R : α → γ → Prop} {S : β → γ → Prop} {xs : List α}
    {ys : List β} {zs : List γ} (hx : List.Forall₂ R xs zs) (hy : List.Forall₂ S ys zs) :
    List.Forall₂ (fun p z => R p.1 z ∧ S p.2 z) (xs.zip ys) zs := by
  induction hx generalizing ys with
  | nil =>
    cases hy
    exact .nil
  | cons hxz _ ih =>
    cases hy with
    | cons hyz hrest => exact .cons ⟨hxz, hyz⟩ (ih hrest)

omit [DecidableEq Name] [DecidableEq Dtype] in
/-- The columns of rows, read together. -/
theorem RowsHold.entries {names : List String} {c : Columns} {taken : List (Offer Name Dtype)}
    (h : RowsHold write names c taken) :
    List.Forall₂ (RowAt names)
      (c.requestIds.zip (c.signalIdx.zip (c.nextNodeIdx.zip c.numItems))) taken := by
  have hids : List.Forall₂ (fun (x : String) (row : Offer Name Dtype) => x = row.1)
      c.requestIds taken := by
    rw [h.requestIds, List.forall₂_map_left_iff]
    exact List.forall₂_same.2 fun _ _ => rfl
  have hnums : List.Forall₂ (fun (x : ℕ) (row : Offer Name Dtype) =>
      x = row.2.tensorInfo.length) c.numItems taken := by
    rw [h.numItems, List.forall₂_map_left_iff]
    exact List.forall₂_same.2 fun _ _ => rfl
  exact forall₂_zip_left hids (forall₂_zip_left h.signalIdx
    (forall₂_zip_left h.nextNodeIdx hnums))

/-- A row as the message that would carry it by itself. -/
def asSignals (write : Name → String) (dtypeOf : Dtype → Dtype) (partition : String)
    (row : Offer Name Dtype) : InputSignals Dtype :=
  ⟨row.1, [row.2.rename write dtypeOf], partition⟩

omit [DecidableEq Dtype] in
/-- A row held is read back. -/
theorem rowInputSignals_eq {taken before later : List (Offer Name Dtype)}
    {row : Offer Name Dtype} {shared : SharedFields Name} (h : Holds write b taken)
    (htaken : taken = before ++ row :: later) (hshared : b.shared = some shared)
    (hstride : ∀ info ∈ itemsOf taken, info.stride.length = info.dims.length) :
    rowInputSignals (b.frame write writeDtype shared) ((b.dtypes.names.map writeDtype).map fromName)
      ⟨before.length, row.1, row.2.name, row.2.nextNode, (itemsOf before).length,
        row.2.tensorInfo.length, ((itemsOf before).flatMap (·.dims)).length⟩ =
      some (asSignals write (fromName ∘ writeDtype) b.partition row) := by
  have hat : taken[before.length]? = some row := by
    rw [htaken]
    exact getElem?_append_cons before row later
  obtain ⟨walkAt, hwalkAt, hwalk⟩ := forall₂_getElem? h.rows.walkIdx hat
  have huniform := h.uniform row (List.mem_of_getElem? hat)
  rw [hshared] at huniform
  obtain ⟨first, more, -, -, -, hsame⟩ := GraphEdge.uniform_spec huniform
  have hitems : itemsOf taken = itemsOf before ++ (row.2.tensorInfo ++ itemsOf later) := by
    rw [htaken]
    simp [itemsOf]
  have hinfos := infosFrom_eq writeDtype fromName h.items hstride row.2.tensorInfo hsame
    (itemsOf before) (itemsOf later) hitems
  have hwalkAt' : (b.frame write writeDtype shared).walkIdx[before.length]? = some walkAt :=
    hwalkAt
  have hwalk' : nameAt (b.frame write writeDtype shared).names walkAt =
      some (row.2.walk.map write) := hwalk
  simp only [rowInputSignals, rowInfos, hwalkAt', hwalk', hinfos, Option.bind_eq_bind,
    Option.bind_some]
  rfl

omit [DecidableEq Dtype] in
/-- The rows held from one on are found one after another, and each is read
back. -/
theorem rowsFrom_eq {taken : List (Offer Name Dtype)} {shared : SharedFields Name}
    (h : Holds write b taken) (hshared : b.shared = some shared)
    (hstride : ∀ info ∈ itemsOf taken, info.stride.length = info.dims.length)
    (later : List (Offer Name Dtype)) (entries : List (String × ℕ × ℕ × ℕ))
    (hentries : List.Forall₂ (RowAt b.names.names) entries later)
    (before : List (Offer Name Dtype)) (htaken : taken = before ++ later) :
    ∃ found, rowsFrom b.names.names b.columns.ndims before.length (itemsOf before).length
        ((itemsOf before).flatMap (·.dims)).length entries = some found ∧
      found.mapM (rowInputSignals (b.frame write writeDtype shared)
        ((b.dtypes.names.map writeDtype).map fromName)) =
        some (later.map (asSignals write (fromName ∘ writeDtype) b.partition)) := by
  induction hentries generalizing before with
  | nil => exact ⟨[], rfl, rfl⟩
  | cons hrow hrest ih =>
    rename_i entry row entries later
    obtain ⟨hid, hsignal, hnext, hcount⟩ := hrow
    obtain ⟨found, hfound, hread⟩ := ih (before ++ [row]) (by rw [htaken]; simp)
    have hsum : (slice b.columns.ndims (itemsOf before).length
        row.2.tensorInfo.length).sum = (row.2.tensorInfo.flatMap (·.dims)).length := by
      have hndims : b.columns.ndims = (itemsOf before).map (·.dims.length) ++
          row.2.tensorInfo.map (·.dims.length) ++ (itemsOf later).map (·.dims.length) := by
        rw [h.items.ndims, htaken]
        simp [itemsOf]
      have hslice := slice_append ((itemsOf before).map (·.dims.length))
        (row.2.tensorInfo.map (·.dims.length)) ((itemsOf later).map (·.dims.length))
      rw [← hndims, List.length_map, List.length_map] at hslice
      rw [hslice, List.length_flatMap]
    have hdims : ((itemsOf (before ++ [row])).flatMap (·.dims)).length =
        ((itemsOf before).flatMap (·.dims)).length +
          (row.2.tensorInfo.flatMap (·.dims)).length := by
      simp [itemsOf]
    rw [List.length_append, itemsOf_length, hdims] at hfound
    have hsignals := rowInputSignals_eq writeDtype fromName h htaken hshared hstride
    refine ⟨⟨before.length, row.1, row.2.name, row.2.nextNode, (itemsOf before).length,
      row.2.tensorInfo.length, ((itemsOf before).flatMap (·.dims)).length⟩ :: found, ?_, ?_⟩
    · obtain ⟨requestId, s, n, count⟩ := entry
      cases hid
      cases hcount
      simp only [List.length_cons, List.length_nil, Nat.zero_add] at hfound
      simp only [rowsFrom, hsignal, hnext, hsum, hfound, Option.bind_eq_bind, Option.bind_some]
      rfl
    · rw [List.mapM_cons, hsignals, hread]
      rfl

omit [DecidableEq Dtype] in
/-- The frame of the rows held is read back whole. -/
theorem readAll_eq {taken : List (Offer Name Dtype)} {frame : EdgeItems}
    (h : Holds write b taken)
    (hstride : ∀ info ∈ itemsOf taken, info.stride.length = info.dims.length)
    (hframe : b.build write writeDtype = some frame) :
    readAll fromName frame =
      some (taken.map (asSignals write (fromName ∘ writeDtype) b.partition)) := by
  obtain ⟨shared, hshared, rfl⟩ := Option.map_eq_some_iff.1 hframe
  obtain ⟨found, hfound, hread⟩ := rowsFrom_eq writeDtype fromName h hshared hstride taken _
    h.rows.entries [] rfl
  have hlengths : b.columns.signalIdx.length = b.columns.requestIds.length ∧
      b.columns.nextNodeIdx.length = b.columns.requestIds.length ∧
      b.columns.numItems.length = b.columns.requestIds.length := by
    rw [h.rows.signalIdx.length_eq, h.rows.nextNodeIdx.length_eq, h.rows.numItems,
      h.rows.requestIds]
    simp
  have hrows : rows (b.frame write writeDtype shared) = some found :=
    (if_pos hlengths).trans hfound
  rw [readAll, hrows]
  exact hread

end Reading

omit [DecidableEq Dtype] in
/-- A builder that has taken no row holds none. -/
theorem new_holds [DecidableEq Dtype] (write : Name → String) (partition : String) :
    Holds write (Builder.new partition : Builder Name Dtype) [] where
  rows := ⟨rfl, .nil, .nil, .nil, rfl⟩
  items := ⟨rfl, rfl, rfl, rfl, rfl, rfl, rfl, .nil, .nil, rfl⟩
  uniform := by simp
  opened := by simp [Builder.new]

/-- Whatever rows a new builder is offered, its frame has those that belong
together, and is read back as their messages; there is none where none does. -/
theorem frame_reads_back (write : Name → String) (writeDtype : Dtype → String)
    (fromName : String → Dtype) (partition : String) (offers : List (Offer Name Dtype))
    (hstride : ∀ row ∈ offers, ∀ info ∈ row.2.tensorInfo,
      info.stride.length = info.dims.length) :
    (offerAll (Builder.tryAdd write) (.new partition) offers).1 = belonging offers ∧
      ((offerAll (Builder.tryAdd write) (.new partition) offers).2.build write
        writeDtype).map (readAll fromName) =
      if belonging offers = [] then none
      else some (some ((belonging offers).map
        (asSignals write (fromName ∘ writeDtype) partition))) := by
  have htaken : (offerAll (Builder.tryAdd write) (.new partition) offers).1 =
      belonging offers := by
    rw [offerAll_taken]
    rfl
  have hholds := offerAll_holds write offers _ (new_holds write partition)
  rw [List.nil_append, htaken] at hholds
  refine ⟨htaken, ?_⟩
  have hbelong : ∀ info ∈ itemsOf (belonging offers), info.stride.length = info.dims.length := by
    intro info hinfo
    obtain ⟨row, hrow, hmem⟩ := List.mem_flatMap.1 hinfo
    exact hstride row (List.mem_of_mem_filter hrow) info hmem
  split
  · rename_i hnone
    rw [Builder.build, hholds.opened.2 hnone]
    rfl
  · rename_i hsome
    obtain ⟨shared, hshared⟩ := Option.ne_none_iff_exists'.1
      (mt hholds.opened.1 hsome)
    have hframe : (offerAll (Builder.tryAdd write) (.new partition) offers).2.build write
        writeDtype = some (Builder.frame write writeDtype
          (offerAll (Builder.tryAdd write) (.new partition) offers).2 shared) := by
      rw [Builder.build, hshared]
      rfl
    rw [hframe, Option.map_some, readAll_eq writeDtype fromName hholds hbelong hframe,
      offerAll_partition]
    rfl

/-- A descriptor of a tensor that some session holds. -/
def sampleInfo (session : String) (uuid : ℕ) : TensorPointerInfo String String where
  dims := [1, 2]
  dtype := "bfloat16"
  nbytes := 4
  address := 0
  stride := [2, 1]
  uuid := uuid
  sourceSessionId := session
  sourceEntity := "worker_0"
  offset := 0
  sourceTpSize := 1
  sourceTpRank := 0
  shmSegment := none
  shmOffset := 0
  sourceNodeName := none
  sourceGraphWalk := some "decode"

/-- Rows without tensors, of one session and of another. -/
def sampleOffers : List (Offer String String) :=
  [("first", ⟨"vocoder", "codes", []⟩),
    ("second", ⟨"vocoder", "codes", [sampleInfo "here" 1, sampleInfo "here" 2]⟩),
    ("third", ⟨"vocoder", "codes", [sampleInfo "there" 3]⟩),
    ("fourth", ⟨"vocoder", "codes", [sampleInfo "here" 4]⟩)]

/-- Of those the second and the fourth go in one frame, and come back. -/
theorem frame_reads_back_sample : (belonging sampleOffers).map (·.1) = ["second", "fourth"] ∧
    ((offerAll (Builder.tryAdd id) (.new "talker") sampleOffers).2.build id id).map
      (readAll id) =
      some (some ((belonging sampleOffers).map (asSignals id (id ∘ id) "talker"))) := by
  have hids : (belonging sampleOffers).map (·.1) = ["second", "fourth"] := by decide
  refine ⟨hids, ?_⟩
  have hread := (frame_reads_back id id id "talker" sampleOffers (by
    simp [sampleOffers, sampleInfo])).2
  rw [if_neg] at hread
  · exact hread
  · intro hnone
    rw [hnone] at hids
    cases hids

section Interned

variable {Dtype' : Type} [DecidableEq Dtype'] (f : Name → String) (g : Dtype → Dtype')

omit [DecidableEq Dtype] in
/-- The two orders of the checks refuse the same rows. -/
theorem tryAddInterned_eq [DecidableEq Dtype] (b : Builder Name Dtype) (requestId : String)
    (edge : GraphEdge Name Dtype) :
    b.tryAddInterned f requestId edge = b.tryAdd f requestId edge := by
  unfold Builder.tryAddInterned Builder.tryAdd
  split
  · rfl
  · split
    · rw [ite_self]
    · rfl

/-- The frame's fields renamed. -/
def renameShared (f : Name → String) (shared : SharedFields Name) : SharedFields String :=
  (f shared.1, f shared.2.1, shared.2.2.1.map f, shared.2.2.2)

/-- An offer renamed. -/
def renameOffer (f : Name → String) (g : Dtype → Dtype') (row : Offer Name Dtype) :
    Offer String Dtype' :=
  (row.1, row.2.rename f g)

omit [DecidableEq Name] in
/-- Renaming apart keeps the frame's fields apart. -/
theorem renameShared_injective {f : Name → String} (hf : Function.Injective f) :
    Function.Injective (renameShared f) := by
  intro left right h
  simp only [renameShared, Prod.mk.injEq] at h
  obtain ⟨hsession, hentity, hnode, hsizes⟩ := h
  exact Prod.ext (hf hsession) (Prod.ext (hf hentity)
    (Prod.ext (Option.map_injective hf hnode) hsizes))

omit [DecidableEq Dtype] [DecidableEq Dtype'] in
/-- Renamed descriptors agree where the descriptors do. -/
theorem uniform_rename {f : Name → String} (hf : Function.Injective f)
    (edge : GraphEdge Name Dtype) :
    (edge.rename f g).uniform = edge.uniform.map (renameShared f) := by
  unfold GraphEdge.uniform GraphEdge.rename
  cases edge.tensorInfo with
  | nil => rfl
  | cons first more =>
    have hsame : ∀ info : TensorPointerInfo Name Dtype,
        ((info.rename f g).shared = (first.rename f g).shared ↔ info.shared = first.shared) ∧
        ((info.rename f g).sourceGraphWalk = (first.rename f g).sourceGraphWalk ↔
          info.sourceGraphWalk = first.sourceGraphWalk) := fun info =>
      ⟨(renameShared_injective hf).eq_iff (a := info.shared) (b := first.shared),
        (Option.map_injective hf).eq_iff⟩
    have hany : ((first :: more).map (TensorPointerInfo.rename f g)).any (fun info =>
        info.shared ≠ (first.rename f g).shared ||
          info.sourceGraphWalk ≠ (first.rename f g).sourceGraphWalk) =
        (first :: more).any (fun info =>
          info.shared ≠ first.shared || info.sourceGraphWalk ≠ first.sourceGraphWalk) := by
      rw [List.any_map]
      congr 1
      funext info
      simp only [Function.comp_apply, ne_eq, (hsame info).1, (hsame info).2]
    simp only [List.map_cons] at hany ⊢
    rw [hany]
    split
    · rfl
    · rfl

/-- A builder of texts does as a builder of symbols. -/
structure Matches (g : Dtype → Dtype') (f : Name → String) (b : Builder Name Dtype)
    (b' : Builder String Dtype') : Prop where
  partition : b'.partition = b.partition
  shared : b'.shared = b.shared.map (renameShared f)
  names : b'.names = b.names
  columns : b'.columns = b.columns
  dtypes : Interner.Renames g b.dtypes b'.dtypes

variable {f g}

omit [DecidableEq Name] in
/-- An item added on both sides. -/
theorem Matches.addItem (hg : Function.Injective g) {b : Builder Name Dtype}
    {b' : Builder String Dtype'} (h : Matches g f b b') (info : TensorPointerInfo Name Dtype) :
    Matches g f (b.addItem f info) (b'.addItem id (info.rename f g)) := by
  obtain ⟨hnumber, hdtypes⟩ := h.dtypes.intern hg info.dtype
  have hsegment : (info.rename f g).shmSegment.map id = info.shmSegment.map f := by
    rw [Option.map_id]
    rfl
  constructor
  · exact h.partition
  · exact h.shared
  · simp only [Builder.addItem, hsegment, h.names]
  · simp only [Builder.addItem, hsegment, h.names, h.columns]
    simp only [TensorPointerInfo.rename, hnumber]
  · exact hdtypes

omit [DecidableEq Name] in
/-- Items added on both sides. -/
theorem Matches.addItems (hg : Function.Injective g) (infos : List (TensorPointerInfo Name Dtype))
    {b : Builder Name Dtype} {b' : Builder String Dtype'} (h : Matches g f b b') :
    Matches g f (infos.foldl (Builder.addItem f) b)
      ((infos.map (TensorPointerInfo.rename f g)).foldl (Builder.addItem id) b') := by
  induction infos generalizing b b' with
  | nil => exact h
  | cons info infos ih => exact ih (h.addItem hg info)

/-- A row offered to both: both take it or neither does. -/
theorem Matches.tryAdd (hf : Function.Injective f) (hg : Function.Injective g)
    {b : Builder Name Dtype} {b' : Builder String Dtype'} (h : Matches g f b b')
    (requestId : String) (edge : GraphEdge Name Dtype) :
    (b'.tryAdd id requestId (edge.rename f g)).1 = (b.tryAdd f requestId edge).1 ∧
      Matches g f (b.tryAdd f requestId edge).2
        (b'.tryAdd id requestId (edge.rename f g)).2 := by
  have hboth : ((edge.rename f g).uniform.isSome ∧
        (b'.shared = none ∨ b'.shared = (edge.rename f g).uniform)) ↔
      (edge.uniform.isSome ∧ (b.shared = none ∨ b.shared = edge.uniform)) := by
    rw [h.shared, uniform_rename g hf, Option.isSome_map, Option.map_eq_none_iff,
      (Option.map_injective (renameShared_injective hf)).eq_iff]
  have hwalk : (edge.rename f g).walk.map id = edge.walk.map f := by
    rw [Option.map_id]
    unfold GraphEdge.walk GraphEdge.rename
    cases edge.tensorInfo with
    | nil => rfl
    | cons first more => rfl
  rw [tryAdd_eq, tryAdd_eq]
  by_cases htake : edge.uniform.isSome ∧ (b.shared = none ∨ b.shared = edge.uniform)
  · rw [if_pos htake, if_pos (hboth.2 htake)]
    refine ⟨rfl, Matches.addItems hg edge.tensorInfo ?_⟩
    constructor
    · exact h.partition
    · exact uniform_rename g hf edge
    · simp only [Builder.addRow, hwalk, h.names]
      rfl
    · simp only [Builder.addRow, hwalk, h.names, h.columns]
      simp only [GraphEdge.rename, List.length_map]
    · exact h.dtypes
  · rw [if_neg htake, if_neg (mt hboth.1 htake)]
    exact ⟨rfl, h⟩

/-- A run of rows offered to both. -/
theorem Matches.offerAll (hf : Function.Injective f) (hg : Function.Injective g)
    (offers : List (Offer Name Dtype)) {b : Builder Name Dtype} {b' : Builder String Dtype'}
    (h : Matches g f b b') :
    (EdgeFrames.offerAll (Builder.tryAdd id) b' (offers.map (renameOffer f g))).1 =
        (EdgeFrames.offerAll (Builder.tryAddInterned f) b offers).1.map (renameOffer f g) ∧
      Matches g f (EdgeFrames.offerAll (Builder.tryAddInterned f) b offers).2
        (EdgeFrames.offerAll (Builder.tryAdd id) b' (offers.map (renameOffer f g))).2 := by
  induction offers generalizing b b' with
  | nil => exact ⟨rfl, h⟩
  | cons row offers ih =>
    have hstep : (b'.tryAdd id (renameOffer f g row).1 (renameOffer f g row).2).1 =
          (b.tryAdd f row.1 row.2).1 ∧
        Matches g f (b.tryAdd f row.1 row.2).2
          (b'.tryAdd id (renameOffer f g row).1 (renameOffer f g row).2).2 :=
      h.tryAdd hf hg row.1 row.2
    obtain ⟨htaken, hafter⟩ := ih hstep.2
    simp only [List.map_cons, EdgeFrames.offerAll, tryAddInterned_eq]
    refine ⟨?_, hafter⟩
    rw [htaken, hstep.1]
    split
    · rfl
    · rfl

omit [DecidableEq Name] [DecidableEq Dtype] [DecidableEq Dtype'] in
/-- What both hold makes one frame. -/
theorem Matches.build {b : Builder Name Dtype} {b' : Builder String Dtype'}
    (h : Matches g f b b') (writeDtype : Dtype' → String) :
    b'.build id writeDtype = b.build f (writeDtype ∘ g) := by
  rw [Builder.build, Builder.build, h.shared, Option.map_map]
  congr 1
  funext shared
  simp only [Function.comp_apply, Builder.frame, renameShared, h.partition, h.names, h.columns,
    h.dtypes.names_eq, List.map_map, Option.map_map, id_eq]
  rfl

/-- The graph runtime builds frames of symbols. Offered the same rows as a
builder of texts, it takes the same ones and builds the same frame. -/
theorem interned_frames_agree (symbols : Interner String) (hg : Function.Injective g)
    (writeDtype : Dtype' → String) (partition : String)
    (offers : List (Offer (Fin symbols.names.length) Dtype)) :
    (offerAll (Builder.tryAdd id) (.new partition)
          (offers.map (renameOffer symbols.names.get g))).1 =
        (offerAll (Builder.tryAddInterned symbols.names.get) (.new partition) offers).1.map
          (renameOffer symbols.names.get g) ∧
      (offerAll (Builder.tryAdd id) (.new partition)
          (offers.map (renameOffer symbols.names.get g))).2.build id writeDtype =
        (offerAll (Builder.tryAddInterned symbols.names.get) (.new partition) offers).2.build
          symbols.names.get (writeDtype ∘ g) := by
  have hnew : Matches g symbols.names.get (Builder.new partition) (Builder.new partition) :=
    ⟨rfl, rfl, rfl, rfl, ⟨rfl⟩⟩
  obtain ⟨htaken, hafter⟩ := hnew.offerAll symbols.get_injective hg offers
  exact ⟨htaken, hafter.build writeDtype⟩

/-- A table of two texts. -/
def sampleSymbols : Interner String := ((Interner.empty.intern "here").2.intern "worker_0").2

/-- It has both. -/
theorem one_lt_sampleSymbols : 1 < sampleSymbols.names.length := by decide

/-- The symbol of the first text. -/
def sampleHere : Fin sampleSymbols.names.length := ⟨0, Nat.lt_of_succ_lt one_lt_sampleSymbols⟩

/-- The symbol of the second text. -/
def sampleWorker : Fin sampleSymbols.names.length := ⟨1, one_lt_sampleSymbols⟩

/-- A tensor of the second text's entity, in a session. -/
def sampleSymbolInfo (session : Fin sampleSymbols.names.length) (wide : Bool) (uuid : ℕ) :
    TensorPointerInfo (Fin sampleSymbols.names.length) Bool :=
  ⟨[2], wide, 4, 0, [1], uuid, session, sampleWorker, 0, 1, 0, none, 0, some sampleWorker, none⟩

/-- Two rows of one session and different dtypes, and between them a row of
another session whose descriptors disagree. -/
def sampleSymbolOffers : List (Offer (Fin sampleSymbols.names.length) Bool) :=
  [("first", ⟨"vocoder", "codes", [sampleSymbolInfo sampleHere true 1]⟩),
    ("second", ⟨"vocoder", "codes", [sampleSymbolInfo sampleWorker true 2,
      sampleSymbolInfo sampleHere true 3]⟩),
    ("third", ⟨"vocoder", "codes", [sampleSymbolInfo sampleHere false 4]⟩)]

/-- The row between is refused for the frame's session here and for its own
descriptors there. The others make one frame either way. -/
theorem interned_frames_agree_sample :
    (offerAll (Builder.tryAddInterned sampleSymbols.names.get) (.new "talker")
        sampleSymbolOffers).1.map (·.1) = ["first", "third"] ∧
      (offerAll (Builder.tryAdd id) (.new "talker")
          (sampleSymbolOffers.map (renameOffer sampleSymbols.names.get not))).1 =
        (offerAll (Builder.tryAddInterned sampleSymbols.names.get) (.new "talker")
          sampleSymbolOffers).1.map (renameOffer sampleSymbols.names.get not) ∧
      (offerAll (Builder.tryAdd id) (.new "talker")
          (sampleSymbolOffers.map (renameOffer sampleSymbols.names.get not))).2.build id
          (fun wide => if wide then "float32" else "bfloat16") =
        (offerAll (Builder.tryAddInterned sampleSymbols.names.get) (.new "talker")
          sampleSymbolOffers).2.build sampleSymbols.names.get
          ((fun wide => if wide then "float32" else "bfloat16") ∘ not) := by
  have hnot : Function.Injective not := fun left right h => by
    cases left <;> cases right <;> simp at h ⊢
  exact ⟨by decide, interned_frames_agree sampleSymbols hnot _ "talker" sampleSymbolOffers⟩

end Interned

end Mstar.EdgeFrames
