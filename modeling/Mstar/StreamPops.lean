import Mstar.StreamBuffers

/-!
# What a pop and an update do

A chunk that is popped where one is ready starts at the front of the buffer and stays
within its leading run, in each of the three ways to cut. Updating a buffer moves the
longest run of entries that arrived, in the order they were registered.
-/

namespace Mstar

namespace StreamBuffer

variable {Id Walk Item : Type} {b b' : StreamBuffer Id Walk Item} {chunk : StreamChunk Item}
  {walks : List Walk} {window shown stride : ℕ}

/-- The runs of a buffer are the walks of its items. -/
structure Shaped (b : StreamBuffer Id Walk Item) (walks : List Walk) : Prop where
  /-- There is a walk for every buffered item. -/
  length : walks.length = b.buffer.length
  /-- A buffer whose items carry no walk has no runs. -/
  untagged : b.walkTagged = false → b.walkRuns = []
  /-- The runs spell the walks. -/
  tagged : b.walkTagged = true → spread b.walkRuns = walks
  positive : Positive b.walkRuns

namespace Shaped

/-- The leading run is buffered. -/
theorem walkRunLen_le (h : Shaped b walks) : b.walkRunLen ≤ b.buffer.length := by
  unfold walkRunLen
  cases hruns : b.walkRuns with
  | nil => exact Nat.le_refl _
  | cons run rest =>
    have htagged : b.walkTagged = true := by
      cases htag : b.walkTagged with
      | true => rfl
      | false =>
        have hnil := h.untagged htag
        rw [hruns] at hnil
        cases hnil
    have hspread := h.tagged htagged
    rw [hruns, spread_cons] at hspread
    rw [← h.length, ← hspread]
    simp

/-- The items of the leading run have one walk. -/
theorem leading_run (h : Shaped b walks) (htagged : b.walkTagged = true) :
    (walks = [] ∧ b.walkRunLen = 0) ∨
      ∃ walk, ∀ other ∈ walks.take b.walkRunLen, other = walk := by
  have hspread := h.tagged htagged
  unfold walkRunLen
  cases hruns : b.walkRuns with
  | nil =>
    left
    rw [hruns] at hspread
    have hnil : walks = [] := hspread.symm
    constructor
    · exact hnil
    · dsimp only
      rw [← h.length, hnil]
      rfl
  | cons run rest =>
    right
    refine ⟨run.1, ?_⟩
    intro other hother
    rw [hruns, spread_cons] at hspread
    rw [← hspread, List.take_append_of_le_length (by simp), List.take_of_length_le (by simp)] at hother
    exact List.eq_of_mem_replicate hother

/-- A stride within the leading run takes as many walks off the front. -/
theorem advance (h : Shaped b walks) (hstride : stride ≤ b.walkRunLen) :
    Shaped (b.advance stride) (walks.drop stride) := by
  constructor
  · change (walks.drop stride).length = (b.buffer.drop stride).length
    rw [List.length_drop, List.length_drop, h.length]
  · intro huntagged
    change advanceRuns stride b.walkRuns = []
    rw [h.untagged huntagged]
    rfl
  · intro htagged
    have hspread := h.tagged htagged
    change spread (advanceRuns stride b.walkRuns) = _
    cases hruns : b.walkRuns with
    | nil =>
      rw [hruns] at hspread
      rw [← hspread]
      simp [advanceRuns]
    | cons run rest =>
      have hle : stride ≤ run.2 := by
        unfold walkRunLen at hstride
        rw [hruns] at hstride
        exact hstride
      rw [← hspread, hruns]
      exact spread_advanceRuns hle
  · exact positive_advanceRuns h.positive

end Shaped

/-- The rest of a walk is flushed only where a later walk's item is buffered. -/
theorem flushesRun_true (h : b.flushesRun = some true) : b.walkRunLen < b.buffer.length := by
  unfold flushesRun at h
  split at h
  next hlt => exact hlt
  next => cases h

/-- No flush of a walk: the leading run is the buffer, or it has a whole window. -/
theorem flushesRun_false (hw : b.policy.windowSize b.policyState = some window)
    (h : b.flushesRun = some false) :
    b.buffer.length ≤ b.walkRunLen ∨ window ≤ b.walkRunLen := by
  unfold flushesRun at h
  split at h
  next =>
    right
    rw [ChunkPolicy.isReady_eq, hw] at h
    simpa using h
  next hge => exact Or.inl (Nat.le_of_not_lt hge)

/-- The rest of a stream is flushed once all was read and less than a window is left. -/
theorem flushesEnd_true (hw : b.policy.windowSize b.policyState = some window)
    (h : b.flushesEnd = some true) :
    b.producerDoneAndAllRead = true ∧ b.buffer.length < window := by
  unfold flushesEnd at h
  split at h
  next hread =>
    rw [ChunkPolicy.isReady_eq, hw] at h
    exact ⟨hread, by simpa using h⟩
  next => cases h

/-- No flush of the end: something may still come, or there is a whole window. -/
theorem flushesEnd_false (hw : b.policy.windowSize b.policyState = some window)
    (h : b.flushesEnd = some false) :
    b.producerDoneAndAllRead = false ∨ window ≤ b.buffer.length := by
  unfold flushesEnd at h
  split at h
  next =>
    right
    rw [ChunkPolicy.isReady_eq, hw] at h
    simpa using h
  next hread => exact Or.inl (Bool.eq_false_iff.2 hread)

/-- The three ways to cut a chunk. -/
theorem cut_cases (h : b.cut window = some (shown, stride)) :
    (b.flushesRun = some true ∧ shown = b.walkRunLen ∧ stride = b.walkRunLen) ∨
    (b.flushesRun = some false ∧ b.flushesEnd = some true ∧
      shown = b.buffer.length ∧ stride = b.buffer.length) ∨
    (b.flushesRun = some false ∧ b.flushesEnd = some false ∧ shown = window ∧
      b.policy.nextChunkSize b.policyState = some stride) := by
  unfold cut at h
  cases hrun : b.flushesRun with
  | none => simp [hrun] at h
  | some flushed =>
    cases flushed with
    | true =>
      simp only [hrun, Option.bind_eq_bind, Option.bind_some, if_true] at h
      cases h
      exact Or.inl ⟨rfl, rfl, rfl⟩
    | false =>
      cases hend : b.flushesEnd with
      | none => simp [hrun, hend] at h
      | some flushed =>
        cases flushed with
        | true =>
          simp only [hrun, hend, Option.bind_eq_bind, Option.bind_some, Bool.false_eq_true, if_false,
            if_true] at h
          cases h
          exact Or.inr (Or.inl ⟨rfl, rfl, rfl, rfl⟩)
        | false =>
          simp only [hrun, hend, Option.bind_eq_bind, Option.bind_some, Bool.false_eq_true,
            if_false] at h
          cases hsize : b.policy.nextChunkSize b.policyState with
          | none => simp [hsize] at h
          | some size =>
            rw [hsize] at h
            cases h
            exact Or.inr (Or.inr ⟨rfl, rfl, rfl, rfl⟩)

section Offers

variable [DecidableEq Walk] {consumerWalk : Walk}

/-- A buffer that offers a chunk it need not flush has a whole window in its leading run. -/
theorem window_le_of_offers (hshape : Shaped b walks) (hoffers : b.offers consumerWalk = some true)
    (hw : b.policy.windowSize b.policyState = some window)
    (hrun : b.flushesRun = some false) (hend : b.flushesEnd = some false) :
    window ≤ b.walkRunLen := by
  rcases flushesRun_false hw hrun with hall | hle
  · have heq := Nat.le_antisymm hshape.walkRunLen_le hall
    rw [heq]
    rcases flushesEnd_false hw hend with hmore | hle
    · unfold offers at hoffers
      rw [if_neg (by omega), hmore] at hoffers
      exact (ChunkPolicy.isReady_iff hw).1 hoffers
    · exact hle
  · exact hle

/-- A cut where a chunk is offered stays within the leading run. -/
theorem cut_le (hshape : Shaped b walks) (hoffers : b.offers consumerWalk = some true)
    (hw : b.policy.windowSize b.policyState = some window) (hcut : b.cut window = some (shown, stride)) :
    stride ≤ shown ∧ shown ≤ b.walkRunLen := by
  rcases cut_cases hcut with ⟨-, rfl, rfl⟩ | ⟨hrun, hend, rfl, rfl⟩ | ⟨hrun, hend, rfl, hsize⟩
  · exact ⟨Nat.le_refl _, Nat.le_refl _⟩
  · obtain ⟨-, hlt⟩ := flushesEnd_true hw hend
    refine ⟨Nat.le_refl _, ?_⟩
    rcases flushesRun_false hw hrun with hall | hle
    · exact hall
    · omega
  · obtain ⟨size, hsize', hle⟩ := ChunkPolicy.stride_le_window hw
    have heq : stride = size := Option.some.inj (hsize.symm.trans hsize')
    constructor
    · exact heq ▸ hle
    · exact window_le_of_offers hshape hoffers hw hrun hend

/-- What a popped chunk shows and releases. -/
theorem takeChunk_popped (hshape : Shaped b walks) (hoffers : b.offers consumerWalk = some true)
    (htake : b.takeChunk = some (chunk, b')) : ∃ stride, Popped b chunk b' stride := by
  unfold takeChunk at htake
  cases hw : b.policy.windowSize b.policyState with
  | none => simp [hw] at htake
  | some window =>
    cases hcut : b.cut window with
    | none => simp [hw, hcut] at htake
    | some sizes =>
      obtain ⟨shown, stride⟩ := sizes
      obtain ⟨hstride, hshown⟩ := cut_le hshape hoffers hw hcut
      have hlength : (b.buffer.take shown).length = shown := by
        rw [List.length_take]
        exact Nat.min_eq_left (Nat.le_trans hshown hshape.walkRunLen_le)
      simp only [hw, hcut, Option.bind_eq_bind, Option.bind_some] at htake
      cases htake
      have hnum : (b.chunkOf shown stride).numItems = shown := hlength
      refine ⟨stride, ?_⟩
      constructor
      · rw [hnum]
        rfl
      · rw [hnum]
        exact Nat.le_trans hshown hshape.walkRunLen_le
      · rw [hnum]
        exact hshown
      · rw [hnum]
        exact hstride
      · rfl
      · rfl
      · rfl
      · rfl
      · rfl
      · rw [hnum]

end Offers

section Update

variable {join : List Item → Item} {arrived : Id → Option Item}
  {pending : List (StreamEntry Id × Walk)}

/-- The tensors of entries. -/
def idsOf (entries : List (StreamEntry Id × Walk)) : List Id := entries.flatMap fun entry => entry.1.ids

/-- No entries. -/
@[simp] theorem idsOf_nil : idsOf ([] : List (StreamEntry Id × Walk)) = [] := rfl

/-- One more entry's ids. -/
@[simp] theorem idsOf_cons (entry : StreamEntry Id × Walk) (rest : List (StreamEntry Id × Walk)) :
    idsOf (entry :: rest) = entry.1.ids ++ idsOf rest := rfl

/-- The ids of entries one after another. -/
@[simp] theorem idsOf_append (entries others : List (StreamEntry Id × Walk)) :
    idsOf (entries ++ others) = idsOf entries ++ idsOf others := List.flatMap_append

/-- The items of entries, with their walks, up to the first entry that has not arrived. -/
def arrivedItems (join : List Item → Item) (arrived : Id → Option Item) :
    List (StreamEntry Id × Walk) → List (Item × Walk)
  | [] => []
  | (entry, walk) :: rest =>
      match entry.item join arrived with
      | none => []
      | some item => (item, walk) :: arrivedItems join arrived rest

/-- What moving the entries that arrived does to a buffer. -/
structure MovedTo (join : List Item → Item) (arrived : Id → Option Item)
    (pending : List (StreamEntry Id × Walk)) (b b' : StreamBuffer Id Walk Item) (count : ℕ) : Prop where
  /-- The first entries move: as many as have items. -/
  items : (arrivedItems join arrived pending).length = count
  count_le : count ≤ pending.length
  /-- The next one has not arrived. -/
  stops : arrivedItems join arrived (pending.drop count) = []
  entries : b'.tensorIdsInOrder = pending.drop count
  buffer : b'.buffer = b.buffer ++ (arrivedItems join arrived pending).map Prod.fst
  writes : b'.numBufferWrites = b.numBufferWrites + (idsOf (pending.take count)).length
  /-- What has not moved is still held. -/
  held : ∀ id, id ∉ idsOf (pending.take count) → b'.idToTensor id = b.idToTensor id
  shaped : ∀ walks, Shaped b walks →
    Shaped b' (walks ++ (arrivedItems join arrived pending).map Prod.snd)

/-- What has arrived depends on the entries' own tensors. -/
theorem arrivedItems_congr {arrived' : Id → Option Item} {entries : List (StreamEntry Id × Walk)}
    (h : ∀ id ∈ idsOf entries, arrived' id = arrived id) :
    arrivedItems join arrived' entries = arrivedItems join arrived entries := by
  induction entries with
  | nil => rfl
  | cons entry rest ih =>
    have hentry := StreamEntry.item_congr join arrived arrived' entry.1 fun id hmem => h id (List.mem_append_left _ hmem)
    unfold arrivedItems
    rw [hentry, ih fun id hmem => h id (List.mem_append_right _ hmem)]

variable [DecidableEq Id] [DecidableEq Walk]

/-- Moving an item adds its walk. -/
theorem Shaped.move (h : Shaped b walks) (entry : StreamEntry Id) (walk : Walk)
    (item : Item) : Shaped (b.move entry walk item) (walks ++ [walk]) := by
  constructor
  · change (walks ++ [walk]).length = (b.buffer ++ [item]).length
    rw [List.length_append, List.length_append, h.length]
    rfl
  · intro huntagged
    change (if b.walkTagged then extendRuns walk b.walkRuns else b.walkRuns) = []
    have huntagged' : b.walkTagged = false := huntagged
    rw [huntagged']
    exact h.untagged huntagged'
  · intro htagged
    change spread (if b.walkTagged then extendRuns walk b.walkRuns else b.walkRuns) = _
    have htagged' : b.walkTagged = true := htagged
    rw [htagged', if_pos rfl, spread_extendRuns, h.tagged htagged']
  · change Positive (if b.walkTagged then extendRuns walk b.walkRuns else b.walkRuns)
    split
    · exact positive_extendRuns walk b.walkRuns h.positive
    · exact h.positive

/-- Moving entries changes nothing but the entries, the items and their runs. -/
theorem moveArrived_frame (join : List Item → Item) (pending : List (StreamEntry Id × Walk))
    (b : StreamBuffer Id Walk Item) : moveArrived join pending b = { b with
      tensorIdsInOrder := (moveArrived join pending b).tensorIdsInOrder
      idToTensor := (moveArrived join pending b).idToTensor
      buffer := (moveArrived join pending b).buffer
      numBufferWrites := (moveArrived join pending b).numBufferWrites
      walkRuns := (moveArrived join pending b).walkRuns } := by
  induction pending generalizing b with
  | nil => rfl
  | cons head rest ih =>
    unfold moveArrived
    cases hitem : head.1.item join b.idToTensor with
    | none => rfl
    | some item => exact ih (b.move head.1 head.2 item)

/-- An update changes nothing but the entries, the items and their runs. -/
theorem updateBuffer_frame (join : List Item → Item) (b : StreamBuffer Id Walk Item) :
    b.updateBuffer join = { b with
      tensorIdsInOrder := (b.updateBuffer join).tensorIdsInOrder
      idToTensor := (b.updateBuffer join).idToTensor
      buffer := (b.updateBuffer join).buffer
      numBufferWrites := (b.updateBuffer join).numBufferWrites
      walkRuns := (b.updateBuffer join).walkRuns } :=
  moveArrived_frame join b.tensorIdsInOrder b

/-- A buffer with nothing to come is up to date. -/
theorem updateBuffer_of_nil (h : b.tensorIdsInOrder = []) : b.updateBuffer join = b := by
  unfold updateBuffer
  rw [h]
  unfold moveArrived
  rw [← h]

/-- Moving entries in order: the longest run of them that arrived. -/
theorem moveArrived_movedTo (join : List Item → Item) (b : StreamBuffer Id Walk Item)
    (arrived : Id → Option Item) (hnodup : (idsOf pending).Nodup)
    (hheld : ∀ id ∈ idsOf pending, b.idToTensor id = arrived id) :
    ∃ count, MovedTo join arrived pending b (moveArrived join pending b) count := by
  induction pending generalizing b with
  | nil =>
    refine ⟨0, ?_⟩
    constructor
    case shaped =>
      intro walks hshaped
      rw [show walks ++ (arrivedItems join arrived []).map Prod.snd = walks from List.append_nil _]
      exact ⟨hshaped.length, hshaped.untagged, hshaped.tagged, hshaped.positive⟩
    case held => exact fun _ _ => rfl
    all_goals simp [arrivedItems, moveArrived]
  | cons head rest ih =>
    obtain ⟨entry, walk⟩ := head
    have hitem := StreamEntry.item_congr join arrived b.idToTensor entry fun id hmem => hheld id (List.mem_append_left _ hmem)
    cases hentry : entry.item join arrived with
    | none =>
      have hmove : moveArrived join ((entry, walk) :: rest) b =
          { b with tensorIdsInOrder := (entry, walk) :: rest } := by
        unfold moveArrived
        rw [hitem, hentry]
      have hnone : arrivedItems join arrived ((entry, walk) :: rest) = [] := by
        unfold arrivedItems
        rw [hentry]
      refine ⟨0, ?_⟩
      rw [hmove]
      constructor
      case shaped =>
        intro walks hshaped
        rw [hnone, List.map_nil, List.append_nil]
        exact ⟨hshaped.length, hshaped.untagged, hshaped.tagged, hshaped.positive⟩
      case held => exact fun _ _ => rfl
      all_goals simp [hnone]
    | some item =>
      have hmove : moveArrived join ((entry, walk) :: rest) b =
          moveArrived join rest (b.move entry walk item) := by
        rw [moveArrived, hitem, hentry]
      have hitems : arrivedItems join arrived ((entry, walk) :: rest) =
          (item, walk) :: arrivedItems join arrived rest := by
        rw [arrivedItems, hentry]
      rw [idsOf_cons] at hnodup
      obtain ⟨-, hrest, hdisjoint⟩ := List.nodup_append.1 hnodup
      obtain ⟨count, hmoved⟩ := ih (b.move entry walk item) hrest (by
        intro id hmem
        have hnot : id ∉ entry.ids := fun hid => hdisjoint id hid id hmem rfl
        change (if id ∈ entry.ids then none else b.idToTensor id) = _
        rw [if_neg hnot]
        exact hheld id (List.mem_append_right _ hmem))
      refine ⟨count + 1, ?_⟩
      rw [hmove]
      constructor
      case items => rw [hitems, List.length_cons, hmoved.items]
      case count_le => exact Nat.succ_le_succ hmoved.count_le
      case stops => exact hmoved.stops
      case entries => exact hmoved.entries
      case buffer =>
        rw [hmoved.buffer, hitems]
        change b.buffer ++ [item] ++ _ = _
        simp
      case writes =>
        rw [hmoved.writes, List.take_succ_cons, idsOf_cons, List.length_append]
        exact Nat.add_assoc _ _ _
      case held =>
        intro id hnot
        rw [List.take_succ_cons, idsOf_cons, List.mem_append, not_or] at hnot
        rw [hmoved.held id hnot.2]
        change (if id ∈ entry.ids then none else b.idToTensor id) = _
        rw [if_neg hnot.1]
      case shaped =>
        intro walks hshaped
        have hnext := hmoved.shaped (walks ++ [walk]) (hshaped.move entry walk item)
        rw [hitems, List.map_cons]
        rwa [List.append_assoc] at hnext

end Update

end StreamBuffer

end Mstar
