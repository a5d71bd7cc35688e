import Mstar.ClientDeliveries
import Mathlib.Data.List.Range

/-!
# The ledger of a call's client streams

What was handed to a call, offer by offer, and what became of each: it was
accepted under fresh uuids, it came after its stream's end, or it failed with its
call. With the ends, and the ranks of the first route, the ledger says what each
rank is due.
-/

namespace Mstar.ClientStreams

/-- What became of some items. -/
inductive Fate (τ : Type*)
  | accepted (infos : List (Info τ))
  /-- Their stream had ended. -/
  | late
  /-- Their append failed, or their call was gone or being torn down. -/
  | failed

/-- The stored items of a fate. -/
def Fate.infos {τ : Type*} : Fate τ → List (Info τ)
  | .accepted infos => infos
  | .late => []
  | .failed => []

/-- An accepted fate. -/
def Fate.isAccepted {τ : Type*} : Fate τ → Bool
  | .accepted _ => true
  | .late => false
  | .failed => false

/-- One stream's items of an append, or of the request. -/
structure Offer (ν τ β : Type*) where
  onLate : Option β
  name : ν
  tensors : List τ
  fate : Fate τ

/-- What a call was handed. -/
structure Book (ν ρ τ β : Type*) where
  offers : List (Offer ν τ β)
  /-- The streams that the client ended before their partition did. -/
  closed : ν → Bool
  /-- The streams that a route gave no rank: their partition has ended. -/
  spent : ν → Bool
  /-- The ranks of the first route, if it came before the teardown. -/
  ranks : Option (ν → List ρ)

variable {ν ρ κ π τ β : Type*}

/-- Stored items, as offers. -/
def takenIn (onLate : Option β) (signals : List (ν × List (Info τ))) : List (Offer ν τ β) :=
  signals.map fun s => ⟨onLate, s.1, s.2.map Prod.snd, .accepted s.2⟩

/-- Items that are not stored, as offers. -/
def turnedAway (onLate : Option β) (fate : Fate τ) (items : List (ν × List τ)) :
    List (Offer ν τ β) :=
  items.map fun p => ⟨onLate, p.1, p.2, fate⟩

/-- The items of some offers. -/
def infosOf (offers : List (Offer ν τ β)) : List (Info τ) :=
  offers.flatMap fun o => o.fate.infos

/-- What is stored of offers one after another. -/
@[simp] theorem infosOf_append (s t : List (Offer ν τ β)) :
    infosOf (s ++ t) = infosOf s ++ infosOf t :=
  List.flatMap_append

/-- What is taken in is stored. -/
@[simp] theorem infosOf_takenIn (onLate : Option β) (signals : List (ν × List (Info τ))) :
    infosOf (takenIn onLate signals) = signals.flatMap Prod.snd := by
  unfold infosOf takenIn
  rw [List.flatMap_map]
  rfl

/-- What is turned away is not. -/
theorem infosOf_turnedAway {fate : Fate τ} (hfate : fate.infos = []) (onLate : Option β)
    (items : List (ν × List τ)) : infosOf (turnedAway onLate fate items) = [] := by
  unfold infosOf turnedAway
  rw [List.flatMap_map]
  simp [hfate]

section Storing

/-- Fresh uuids count on. -/
theorem uuids_number (uuid : ℕ) (tensors : List τ) :
    (number uuid tensors).map Prod.fst = List.range' uuid tensors.length := by
  induction tensors generalizing uuid with
  | nil => rfl
  | cons t tensors ih => simp [number, ih, List.range'_succ]

/-- Numbering keeps the tensors. -/
theorem tensors_number (uuid : ℕ) (tensors : List τ) :
    (number uuid tensors).map Prod.snd = tensors := by
  induction tensors generalizing uuid with
  | nil => rfl
  | cons t tensors ih => simp [number, ih]

/-- The uuids of what is stored are the next ones, each once. -/
theorem uuids_storeAll (uuid : ℕ) (items : List (ν × List τ)) :
    ∃ k, (storeAll uuid items).2 = uuid + k ∧
      ((storeAll uuid items).1.flatMap Prod.snd).map Prod.fst = List.range' uuid k := by
  induction items generalizing uuid with
  | nil => exact ⟨0, rfl, rfl⟩
  | cons p items ih =>
    obtain ⟨name, tensors⟩ := p
    obtain ⟨k, hnext, huuids⟩ := ih (uuid + tensors.length)
    refine ⟨tensors.length + k, by simp only [storeAll, hnext]; omega, ?_⟩
    simp only [storeAll, List.flatMap_cons, List.map_append, uuids_number, huuids]
    rw [List.range'_append_1]

/-- What is stored is what was to be stored. -/
theorem items_storeAll (uuid : ℕ) (items : List (ν × List τ)) :
    (storeAll uuid items).1.map (fun s => (s.1, s.2.map Prod.snd)) = items := by
  induction items generalizing uuid with
  | nil => rfl
  | cons p items ih =>
    obtain ⟨name, tensors⟩ := p
    simp only [storeAll, List.map_cons, tensors_number, ih]

end Storing

section References

/-- The references of these go up. -/
theorem increment_mem {k u : ℕ} {infos : List (Info τ)} (refs : ℕ → ℕ)
    (hu : u ∈ infos.map Prod.fst) : increment k infos refs u = refs u + k :=
  if_pos hu

/-- Those of others do not. -/
theorem increment_other {k u : ℕ} {infos : List (Info τ)} (refs : ℕ → ℕ)
    (hu : u ∉ infos.map Prod.fst) : increment k infos refs u = refs u :=
  if_neg hu

namespace Worker

variable {d : Deployment ν π τ} {route : Route ν ρ κ}

/-- What is sent has a reference for each rank. -/
theorem sendItems_mem {u : ℕ} (name : ν) {infos : List (Info τ)} (w : Worker ν ρ κ π τ β)
    (hu : u ∈ infos.map Prod.fst) :
    (w.sendItems d route name infos).refs u = w.refs u + (route.ranks name).length - 1 := by
  simp only [sendItems, dereference, if_pos hu, increment_mem w.refs hu]

/-- What is not keeps its own. -/
theorem sendItems_other {u : ℕ} (name : ν) {infos : List (Info τ)} (w : Worker ν ρ κ π τ β)
    (hu : u ∉ infos.map Prod.fst) : (w.sendItems d route name infos).refs u = w.refs u := by
  simp only [sendItems, dereference, if_neg hu, increment_other w.refs hu]

variable [DecidableEq ν]

/-- So it does as several signals are sent. -/
theorem sendAll_other {u : ℕ} (signals : List (ν × List (Info τ))) (w : Worker ν ρ κ π τ β)
    (itemsSent : ν → ℕ) (hu : u ∉ (signals.flatMap Prod.snd).map Prod.fst) :
    (sendAll d route signals w itemsSent).1.refs u = w.refs u := by
  induction signals generalizing w itemsSent with
  | nil => rfl
  | cons s signals ih =>
    obtain ⟨name, infos⟩ := s
    simp only [List.flatMap_cons, List.map_append, List.mem_append, not_or] at hu
    simp only [sendAll]
    rw [ih _ _ hu.2, sendItems_other name w hu.1]

/-- Each item that is sent has a reference for each rank of its stream, and the
store's own is gone. -/
theorem sendAll_mem {u : ℕ} {signals : List (ν × List (Info τ))} (w : Worker ν ρ κ π τ β)
    (itemsSent : ν → ℕ) (hnodup : ((signals.flatMap Prod.snd).map Prod.fst).Nodup)
    {s : ν × List (Info τ)} (hs : s ∈ signals) (hu : u ∈ s.2.map Prod.fst) :
    (sendAll d route signals w itemsSent).1.refs u =
      w.refs u + (route.ranks s.1).length - 1 := by
  induction signals generalizing w itemsSent with
  | nil => simp at hs
  | cons t signals ih =>
    obtain ⟨name, infos⟩ := t
    simp only [List.flatMap_cons, List.map_append, List.nodup_append'] at hnodup
    simp only [sendAll]
    rcases List.mem_cons.1 hs with rfl | hin
    · rw [sendAll_other _ _ _ (hnodup.2.2 hu), sendItems_mem name w hu]
    · have hout : u ∉ infos.map Prod.fst := by
        intro hmem
        refine hnodup.2.2 hmem ?_
        obtain ⟨info, hinfo, rfl⟩ := List.mem_map.1 hu
        exact List.mem_map.2 ⟨info, List.mem_flatMap.2 ⟨s, hin, hinfo⟩, rfl⟩
      rw [ih _ _ hnodup.2.1 hin, sendItems_other name w hout]

/-- Sending touches no uuid counter, call or answer. -/
theorem sendAll_frame (d : Deployment ν π τ) (route : Route ν ρ κ)
    (signals : List (ν × List (Info τ))) (w : Worker ν ρ κ π τ β) (itemsSent : ν → ℕ) :
    (sendAll d route signals w itemsSent).1.nextUuid = w.nextUuid ∧
      (sendAll d route signals w itemsSent).1.late = w.late ∧
      (sendAll d route signals w itemsSent).1.tornDown = w.tornDown := by
  induction signals generalizing w itemsSent with
  | nil => exact ⟨rfl, rfl, rfl⟩
  | cons s signals ih => exact ih _ _

end Worker

end References

variable [DecidableEq ν]

/-- The items of a stream that were accepted, in their order. -/
def acceptedOf (offers : List (Offer ν τ β)) (n : ν) : List (Info τ) :=
  offers.flatMap fun o => if o.name = n then o.fate.infos else []

/-- What is accepted of offers one after another. -/
@[simp] theorem acceptedOf_append (s t : List (Offer ν τ β)) (n : ν) :
    acceptedOf (s ++ t) n = acceptedOf s n ++ acceptedOf t n :=
  List.flatMap_append

/-- What is taken in is accepted. -/
@[simp] theorem acceptedOf_takenIn (onLate : Option β) (signals : List (ν × List (Info τ)))
    (n : ν) : acceptedOf (takenIn onLate signals) n = carried signals n := by
  unfold acceptedOf takenIn carried
  rw [List.flatMap_map]
  rfl

/-- What is turned away is not. -/
theorem acceptedOf_turnedAway {fate : Fate τ} (hfate : fate.infos = []) (onLate : Option β)
    (items : List (ν × List τ)) (n : ν) : acceptedOf (turnedAway onLate fate items) n = [] := by
  unfold acceptedOf turnedAway
  rw [List.flatMap_map]
  simp [hfate]

/-- The tensors that some items hold for a stream. -/
def given (items : List (ν × List τ)) (n : ν) : List τ :=
  items.flatMap fun p => if p.1 = n then p.2 else []

/-- What is stored for a stream is what was given for it. -/
theorem tensors_carried (uuid : ℕ) (items : List (ν × List τ)) (n : ν) :
    (carried (storeAll uuid items).1 n).map Prod.snd = given items n := by
  induction items generalizing uuid with
  | nil => rfl
  | cons p items ih =>
    obtain ⟨name, tensors⟩ := p
    simp only [storeAll, carried_cons, List.map_append, ih, given, List.flatMap_cons]
    congr 1
    by_cases hn : name = n
    · simp only [if_pos hn, tensors_number]
    · simp only [if_neg hn, List.map_nil]

namespace Book

variable (b : Book ν ρ τ β)

/-- The items of a stream that were accepted. -/
def accepted (n : ν) : List (Info τ) := acceptedOf b.offers n

/-- Their tensors. -/
def tensors (n : ν) : List τ := (b.accepted n).map Prod.snd

/-- What a rank is due of a stream: the items that were accepted, and, once the
client has ended the stream, one end with their number. -/
def due [DecidableEq ρ] (r : ρ) (n : ν) : List (Delivery τ) :=
  match b.ranks with
  | none => []
  | some ranks =>
    if r ∈ ranks n then
      (b.accepted n).map Delivery.item ++
        if b.closed n = true then [.finish (b.accepted n).length] else []
    else []

/-- Items leave every stream within its limit. -/
def fits (d : Deployment ν π τ) (items : List (ν × List τ)) : Bool :=
  items.all fun p =>
    match d.limits p.1 with
    | none => true
    | some limits => decide (charge limits (b.tensors p.1 ++ given items p.1) ≤ limits.maxItems)

/-- The ledger of no call. -/
def blank : Book ν ρ τ β := ⟨[], fun _ => false, fun _ => false, none⟩

/-- The ledger of a call that opens. -/
def opening (d : Deployment ν π τ) (uuid : ℕ) (items : List (ν × List τ)) (ends : ν → Bool) :
    Book ν ρ τ β :=
  if (blank : Book ν ρ τ β).fits d items then
    ⟨takenIn none (storeAll uuid items).1, ends, fun _ => false, none⟩
  else ⟨turnedAway none .failed items, fun _ => false, fun _ => false, none⟩

/-- Items that fail. -/
def fail (a : ClientAppend ν τ β) : Book ν ρ τ β :=
  { b with offers := b.offers ++ turnedAway a.onLate .failed (a.items.getD []) }

/-- An append at a call that takes it: items of streams that have ended are late,
the others are accepted if they fit, and the ends hold after them. -/
def append (d : Deployment ν π τ) (uuid : ℕ) (a : ClientAppend ν τ β) : Book ν ρ τ β :=
  match loaded d a with
  | none => b.fail a
  | some items =>
    let ended := fun p : ν × List τ => b.closed p.1 || b.spent p.1
    let live := items.filter fun p => !p.2.isEmpty && !ended p
    if b.fits d live then
      { b with
        offers := b.offers ++
          turnedAway a.onLate .late (items.filter fun p => !p.2.isEmpty && ended p) ++
          takenIn a.onLate (storeAll uuid live).1
        closed := fun n => b.closed n || (a.ends n && !b.spent n) }
    else b.fail a

/-- A route at a call that is not being torn down. -/
def routed (body : Route ν ρ κ) : Book ν ρ τ β :=
  { b with
    spent := fun n => b.spent n || Worker.unranked body n
    ranks := some (b.ranks.getD body.ranks) }

end Book

end Mstar.ClientStreams
