import Mstar.GatherSteps

/-!
# What becomes of a read

A read that is taken up is handed on, held back, or completes a gather. Each
of the three leaves the store sound; a gather raises when the ranks brought
unequal numbers of tensors, and nothing else does.
-/

namespace Mstar.Gather

variable {α : Type} {source : Uuid → List α} {w w' : Receiver α} {read : Read α}
  {rest : List (Read α)} {buf : BufferedShards α}

/-- The read was the oldest and is taken up. -/
structure Taken (w : Receiver α) (read : Read α) (rest : List (Read α)) (w' : Receiver α) :
    Prop where
  /-- The others are still under way. -/
  pending : w'.pending = rest
  /-- It is recorded. -/
  taken : w'.taken = w.taken ++ [read]
  /-- Nothing is fetched. -/
  again : w'.store.again = w.store.again
  /-- Its tensors are handed on. -/
  readFinished : ∀ uuid, uuid ∈ w'.store.readFinished ↔
    uuid ∈ read.edge.uuids ∨ uuid ∈ w.store.readFinished
  /-- What was put without a transit reference stays so. -/
  unfetched : w.store.unfetched ⊆ w'.store.unfetched
  /-- Only new tensors get a transit reference to drop. -/
  transit : ∀ uuid ∈ w'.store.transit, uuid ∈ w.store.transit ∨ uuid ∉ w.store.readFinished
  /-- What was let go of before keeps the references of others. -/
  positive : ∀ uuid ∈ w.store.readFinished, uuid ∉ w.store.transit → w.store.Positive uuid →
    w'.store.Positive uuid

/-- The read is handed on as it is. -/
structure Passed (w : Receiver α) (read : Read α) (w' : Receiver α) : Prop where
  /-- Its tensors were handed on before, or its input gathers nothing. -/
  why : w.delivered read.edge = true ∨ w.bufferOf read.edge = none
  /-- No shards are held back with it. -/
  buffers : w'.buffers = w.buffers
  /-- The edge goes on with what its rank sent. -/
  emitted : w'.emitted = w.emitted ++ [⟨read.edge, read.sent, [read]⟩]
  /-- Its consumer has it. -/
  inUse : w'.inUse = w.inUse ++ [⟨read.edge, read.sent, [read]⟩]

/-- The read is held back. -/
structure HeldBack (w : Receiver α) (read : Read α) (buf : BufferedShards α)
    (w' : Receiver α) : Prop where
  /-- Some tensor of it is new. -/
  new : w.delivered read.edge = false
  /-- Its input gathers shards. -/
  bufferOf : w.bufferOf read.edge = some buf
  /-- A rank is still missing. -/
  missing : (buf.extend read read.sent).isDone = false
  /-- Its shards are held back with the others. -/
  buffers : w'.buffers =
    Function.update w.buffers read.edge.key (some (buf.extend read read.sent))
  /-- Nothing is handed on. -/
  emitted : w'.emitted = w.emitted
  /-- No consumer gets anything. -/
  inUse : w'.inUse = w.inUse
  /-- Its shards are let go of. -/
  letGo : ∀ uuid ∈ read.edge.uuids, w'.store.Positive uuid

/-- The read completes a gather. -/
structure Completed (w : Receiver α) (read : Read α) (buf : BufferedShards α)
    (tensors : List (List α)) (em : Emission α) (w' : Receiver α) : Prop where
  /-- Some tensor of it is new. -/
  new : w.delivered read.edge = false
  /-- Its input gathers shards. -/
  bufferOf : w.bufferOf read.edge = some buf
  /-- It comes from the last rank. -/
  done : (buf.extend read read.sent).isDone = true
  /-- The shards go together. -/
  consolidate : (buf.extend read read.sent).consolidate = some tensors
  /-- They are not held back any more. -/
  buffers : w'.buffers = Function.update w.buffers read.edge.key none
  /-- The edge goes on, -/
  edge : em.edge = { read.edge with tensorInfo := em.edge.tensorInfo }
  /-- with the gathered tensors, -/
  tensors : em.tensors = tensors
  /-- made of all that was held back. -/
  parts : em.parts = buf.parts ++ [read]
  /-- It is recorded. -/
  emitted : w'.emitted = w.emitted ++ [em]
  /-- Its consumer has it. -/
  inUse : w'.inUse = w.inUse ++ [em]
  /-- Its tensors have no transit reference. -/
  unfetched : ∀ uuid ∈ em.edge.uuids, uuid ∈ w'.store.unfetched ∧ uuid ∉ w'.store.readFinished
  /-- Its shards are let go of. -/
  letGo : ∀ uuid ∈ read.edge.uuids, w'.store.Positive uuid

/-- The oldest read is backed, with a part for each tensor. -/
theorem Receiver.Backed.oldest (h : w.Backed source) (hp : w.pending = read :: rest) :
    Sound source w.store (read.shares ++ (rest.flatMap (·.shares) ++
        w.inUse.flatMap (·.shares))) ∧
      read.edge.uuids.length = read.sent.length := by
  have hsound := h.sound
  rw [Receiver.shares, hp, List.flatMap_cons, List.append_assoc] at hsound
  exact ⟨hsound, h.fits read (by simp [hp])⟩

/-- A read's new tensors are marked as handed on. -/
theorem Receiver.Backed.mark (h : w.Backed source) (hp : w.pending = read :: rest) :
    Sound source (read.edge.uuids.foldl .markRead w.store)
      (read.shares ++ (rest.flatMap (·.shares) ++ w.inUse.flatMap (·.shares))) := by
  obtain ⟨hsound, hl⟩ := h.oldest hp
  exact markReads_sound hsound fun uuid hu =>
    shareCount_pos_of_mem_zip hl hu (List.subset_append_left _ _)

/-- The reads after the oldest brought a part for each tensor. -/
theorem Receiver.Backed.restFits (h : w.Backed source) (hp : w.pending = read :: rest) :
    ∀ other ∈ rest, other.edge.uuids.length = other.sent.length :=
  fun other ho => h.fits other (by rw [hp]; exact List.mem_cons_of_mem _ ho)

/-- What was let go of before stays so as a read's tensors are marked. -/
theorem positive_mark {uuid : Uuid} (h : w.store.Positive uuid) :
    (read.edge.uuids.foldl .markRead w.store).Positive uuid := by
  intro held hh
  rw [markReads_held] at hh
  exact h held hh

/-- A read whose tensors were all handed on before is handed on. -/
theorem deliver_delivered (h : w.Backed source) (hp : w.pending = read :: rest)
    (hd : w.delivered read.edge = true) :
    ∃ w', w.deliver = some w' ∧ w'.Backed source ∧ Taken w read rest w' ∧ Passed w read w' := by
  obtain ⟨hsound, hl⟩ := h.oldest hp
  rw [Receiver.deliver, hp]
  dsimp only
  rw [if_pos (by exact hd)]
  obtain ⟨hb, he, hi⟩ := emit_backed
    { w with pending := rest, taken := w.taken ++ [read] } read.edge [read] hsound hl
      (h.restFits hp) h.usedFits
  refine ⟨_, rfl, hb, ⟨rfl, rfl, rfl, ?_, fun _ hu => hu, fun _ hu => .inl hu,
    fun _ _ _ h => h⟩, ⟨.inl hd, rfl, he, hi⟩⟩
  intro uuid
  constructor
  · exact .inr
  · intro hor
    rcases hor with hu | hold
    · rw [Receiver.delivered, List.all_eq_true] at hd
      exact of_decide_eq_true (hd uuid hu)
    · exact hold

/-- So is a new one whose input gathers nothing. -/
theorem deliver_single (h : w.Backed source) (hp : w.pending = read :: rest)
    (hd : w.delivered read.edge = false) (hbuf : w.bufferOf read.edge = none) :
    ∃ w', w.deliver = some w' ∧ w'.Backed source ∧ Taken w read rest w' ∧ Passed w read w' := by
  obtain ⟨hsound, hl⟩ := h.oldest hp
  obtain ⟨hagain, hunf⟩ := markReads_same read.edge.uuids w.store
  have hbuf' : Receiver.bufferOf { w with
      pending := rest
      taken := w.taken ++ [read]
      store := read.edge.uuids.foldl .markRead w.store } read.edge = none := hbuf
  rw [Receiver.deliver, hp]
  dsimp only
  rw [if_neg (by rw [Bool.not_eq_true]; exact hd), hbuf']
  obtain ⟨hb, he, hi⟩ := emit_backed
    { w with
      pending := rest
      taken := w.taken ++ [read]
      store := read.edge.uuids.foldl .markRead w.store } read.edge [read] (h.mark hp) hl
      (h.restFits hp) h.usedFits
  exact ⟨_, rfl, hb, ⟨rfl, rfl, hagain, fun uuid => mem_markReads, hunf.ge,
    fun _ hu => mem_markReads_transit hu, fun uuid _ _ h => positive_mark h⟩,
    ⟨.inr hbuf, rfl, he, hi⟩⟩

/-- The store once a read's tensors are marked and let go of. -/
def Receiver.letGo (w : Receiver α) (read : Read α) : Store α :=
  read.edge.uuids.foldl .release (read.edge.uuids.foldl .markRead w.store).dropTransit

/-- It is sound for the others, and nothing of it is in transit. -/
theorem Receiver.Backed.letGo_sound (h : w.Backed source) (hp : w.pending = read :: rest) :
    Sound source (w.letGo read) (rest.flatMap (·.shares) ++ w.inUse.flatMap (·.shares)) :=
  releases_sound (h.mark hp).dropTransit (h.oldest hp).2

/-- Nothing is in transit once a read is let go. -/
theorem letGo_transit (w : Receiver α) (read : Read α) : (w.letGo read).transit = [] :=
  (releases_same _ _).2.2.1

/-- Letting go fetches nothing and hands the read's tensors on. -/
theorem letGo_same (w : Receiver α) (read : Read α) :
    (w.letGo read).again = w.store.again ∧
      (∀ uuid, uuid ∈ (w.letGo read).readFinished ↔
        uuid ∈ read.edge.uuids ∨ uuid ∈ w.store.readFinished) ∧
      (w.letGo read).unfetched = w.store.unfetched := by
  obtain ⟨hrf, hra, -, hru⟩ := releases_same read.edge.uuids
    (read.edge.uuids.foldl .markRead w.store).dropTransit
  obtain ⟨hagain, hunf⟩ := markReads_same read.edge.uuids w.store
  unfold Receiver.letGo
  rw [hrf, hra, hru, Store.dropTransit, foldl_addRefs]
  exact ⟨hagain, fun uuid => mem_markReads, hunf⟩

/-- What was let go of before keeps the references of others. -/
theorem letGo_kept {uuid : Uuid} (hr : uuid ∈ w.store.readFinished)
    (ht : uuid ∉ w.store.transit) (h : w.store.Positive uuid) :
    (w.letGo read).Positive uuid := by
  apply Store.Positive.releases
  apply (positive_mark h).dropTransit
  intro hmem
  rcases mem_markReads_transit hmem with hold | hnot
  · exact ht hold
  · exact hnot hr

/-- The contents of a new read go to the buffer of its input. -/
theorem deliver_buffer (h : w.Backed source) (hp : w.pending = read :: rest)
    (hd : w.delivered read.edge = false) (hbuf : w.bufferOf read.edge = some buf) :
    w.deliver = if (buf.extend read read.sent).isDone then
        Receiver.gather { w with
          pending := rest
          taken := w.taken ++ [read]
          store := w.letGo read } read.edge (buf.extend read read.sent)
      else some { w with
        pending := rest
        taken := w.taken ++ [read]
        store := w.letGo read
        buffers :=
          Function.update w.buffers read.edge.key (some (buf.extend read read.sent)) } := by
  have hbuf' : Receiver.bufferOf { w with
      pending := rest
      taken := w.taken ++ [read]
      store := read.edge.uuids.foldl .markRead w.store } read.edge = some buf := hbuf
  have hcontents := (contents_eq (fun share hs => (h.mark hp).dropTransit.backed share
    (List.mem_append_left _ hs)) (h.oldest hp).2).2
  rw [Receiver.deliver, hp]
  dsimp only
  rw [if_neg (by rw [Bool.not_eq_true]; exact hd), hbuf']
  dsimp only
  rw [Receiver.buffer]
  dsimp only
  rw [hcontents, Option.bind_some]
  rfl

/-- Nothing in transit is left to be looked for. -/
theorem transit_of_empty {store : Store α} (h : store.transit = []) {P : Uuid → Prop} :
    ∀ uuid ∈ store.transit, P uuid := by
  intro uuid hu
  rw [h] at hu
  cases hu

/-- A new read of which a rank is still missing is held back. -/
theorem deliver_held (h : w.Backed source) (hp : w.pending = read :: rest)
    (hd : w.delivered read.edge = false) (hbuf : w.bufferOf read.edge = some buf)
    (hmissing : (buf.extend read read.sent).isDone = false) :
    ∃ w', w.deliver = some w' ∧ w'.Backed source ∧ Taken w read rest w' ∧
      w'.store.transit = [] ∧ HeldBack w read buf w' := by
  obtain ⟨hagain, hread, hunf⟩ := letGo_same w read
  have hempty := letGo_transit w read
  rw [deliver_buffer h hp hd hbuf, hmissing, if_neg Bool.false_ne_true]
  exact ⟨_, rfl, ⟨h.letGo_sound hp, h.restFits hp, h.usedFits⟩,
    ⟨rfl, rfl, hagain, hread, hunf.ge, transit_of_empty hempty,
      fun uuid hr ht h => letGo_kept hr ht h⟩,
    hempty, ⟨hd, hbuf, hmissing, rfl, rfl, rfl, fun uuid hu => positive_releases hu _⟩⟩

/-- One that completes a gather of equal shards hands on the whole. -/
theorem deliver_gathered (h : w.Backed source) (hp : w.pending = read :: rest)
    (hd : w.delivered read.edge = false) (hbuf : w.bufferOf read.edge = some buf)
    (hdone : (buf.extend read read.sent).isDone = true) {tensors : List (List α)}
    (hc : (buf.extend read read.sent).consolidate = some tensors) :
    ∃ em w', w.deliver = some w' ∧ w'.Backed source ∧ Taken w read rest w' ∧
      w'.store.transit = [] ∧ Completed w read buf tensors em w' := by
  obtain ⟨hagain, hread, hunf⟩ := letGo_same w read
  obtain ⟨hput, hpl, hpn⟩ := putGathered_sound tensors (h.letGo_sound hp)
  obtain ⟨hpr, hpa, hpt⟩ := putGathered_same tensors (w.letGo read)
  have hputu := putGathered_unfetched tensors (w.letGo read)
  have hempty := hpt.trans (letGo_transit w read)
  have hlen : ((Receiver.putGathered (w.letGo read) tensors).2.map (·.uuid)).length =
      tensors.length := by rw [List.length_map, hpl]
  rw [deliver_buffer h hp hd hbuf, if_pos hdone, Receiver.gather, hc]
  obtain ⟨hb, he, hi⟩ := emit_backed
    { w with
      pending := rest
      taken := w.taken ++ [read]
      buffers := Function.update w.buffers read.edge.key none
      store := (Receiver.putGathered (w.letGo read) tensors).1 }
    { read.edge with tensorInfo := (Receiver.putGathered (w.letGo read) tensors).2 }
    (buf.extend read read.sent).parts hput hlen (h.restFits hp) h.usedFits
  refine ⟨_, _, rfl, hb,
    ⟨rfl, rfl, hpa.trans hagain, ?_, ?_, transit_of_empty hempty,
      fun uuid hr ht h => (letGo_kept hr ht h).putGathered _⟩, hempty,
    ⟨hd, hbuf, hdone, hc, rfl, rfl, rfl, rfl, he, hi, ?_,
      fun uuid hu => (positive_releases hu _).putGathered _⟩⟩
  · intro uuid
    rw [← hread, ← hpr]
    rfl
  · intro uuid hu
    apply hputu.1
    rw [hunf]
    exact hu
  · intro uuid hu
    obtain ⟨info, hinfo, rfl⟩ := List.mem_map.1 hu
    exact ⟨hputu.2 info hinfo, fun hr => hpn info hinfo (hpr ▸ hr)⟩

/-- Taking up a read either hands it on, holds it back, completes a gather, or
raises for unequal shards. -/
theorem deliver_cases (h : w.Backed source) (hp : w.pending = read :: rest) :
    (∃ w', w.deliver = some w' ∧ w'.Backed source ∧ Taken w read rest w' ∧ Passed w read w') ∨
    (∃ buf w', w.deliver = some w' ∧ w'.Backed source ∧ Taken w read rest w' ∧
      w'.store.transit = [] ∧ HeldBack w read buf w') ∨
    (∃ buf tensors em w', w.deliver = some w' ∧ w'.Backed source ∧ Taken w read rest w' ∧
      w'.store.transit = [] ∧ Completed w read buf tensors em w') ∨
    (∃ buf, w.deliver = none ∧ w.delivered read.edge = false ∧
      w.bufferOf read.edge = some buf ∧ (buf.extend read read.sent).isDone = true ∧
        (buf.extend read read.sent).consolidate = none) := by
  cases hd : w.delivered read.edge with
  | true => exact .inl (deliver_delivered h hp hd)
  | false =>
    cases hbuf : w.bufferOf read.edge with
    | none => exact .inl (deliver_single h hp hd hbuf)
    | some buf =>
      cases hdone : (buf.extend read read.sent).isDone with
      | false => exact .inr (.inl ⟨buf, deliver_held h hp hd hbuf hdone⟩)
      | true =>
        cases hc : (buf.extend read read.sent).consolidate with
        | none =>
          refine .inr (.inr (.inr ⟨buf, ?_, rfl, rfl, hdone, hc⟩))
          rw [deliver_buffer h hp hd hbuf, if_pos hdone, Receiver.gather, hc, Option.map_none]
        | some tensors =>
          exact .inr (.inr (.inl ⟨buf, tensors, deliver_gathered h hp hd hbuf hdone hc⟩))

end Mstar.Gather
