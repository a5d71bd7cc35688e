import Mathlib.Algebra.BigOperators.Group.List.Basic
import Mstar.ClientLedger

/-!
# The data worker and its ledger

A call is charged for each stream's items as they are accepted; the charge goes
through exactly where every stream stays within its limit. What a send of
stored items does to the data worker is one statement about the offers that
they are: a send of one append and a send of all that was held are both of it,
since it composes. What links the data worker to the ledger of a call is then
that the ranks got what they are due, an item's references follow its stream's
ranks, and while the call is taken care of its ends, charges and held items are
those of the ledger.
-/

namespace Mstar.ClientStreams

variable {ν ρ κ π τ β : Type*}

/-- Charges add up. -/
theorem charge_append (limits : Limits τ) (s t : List τ) :
    charge limits (s ++ t) = charge limits s + charge limits t := by
  unfold charge
  cases limits.itemSize with
  | none => exact List.length_append
  | some size => simp only [List.map_append, List.sum_append]

/-- No items cost nothing. -/
@[simp] theorem charge_nil (limits : Limits τ) : charge limits [] = 0 := by
  unfold charge
  cases limits.itemSize <;> rfl

variable [DecidableEq ν]

/-- What one more entry gives. -/
@[simp] theorem given_cons (name : ν) (tensors : List τ) (items : List (ν × List τ)) (n : ν) :
    given ((name, tensors) :: items) n = (if name = n then tensors else []) ++ given items n :=
  rfl

/-- Charges that stand for some tensors of each limited stream, none past its limit. -/
structure Charges (d : Deployment ν π τ) (charged : ν → ℕ) (base : ν → List τ) : Prop where
  stands : ∀ n limits, d.limits n = some limits → charged n = charge limits (base n)
  within : ∀ n limits, d.limits n = some limits → charged n ≤ limits.maxItems

/-- A charge of some items: it stands for them, or one of them is past a limit. -/
structure ChargeRun (d : Deployment ν π τ) (charged : ν → ℕ) (base : ν → List τ)
    (items : List (ν × List τ)) : Prop where
  stands : (chargeStreamItems d charged items).2 = true →
    Charges d (chargeStreamItems d charged items).1 fun n => base n ++ given items n
  passed : (chargeStreamItems d charged items).2 = false →
    ∃ p ∈ items, p.2 ≠ [] ∧ ∃ limits, d.limits p.1 = some limits ∧
      limits.maxItems < charge limits (base p.1 ++ given items p.1)
  within : ∀ n limits, d.limits n = some limits →
    (chargeStreamItems d charged items).1 n ≤ limits.maxItems

namespace Charges

variable {d : Deployment ν π τ} {charged : ν → ℕ} {base : ν → List τ}

/-- Charges of a stream without a limit, or of no items, change nothing. -/
theorem skip (h : Charges d charged base) {name : ν} {tensors : List τ}
    (hskip : d.limits name = none ∨ tensors = []) :
    Charges d charged (Function.update base name (base name ++ tensors)) := by
  refine ⟨fun n limits hn => ?_, h.within⟩
  by_cases hname : n = name
  · subst hname
    rcases hskip with hnone | rfl
    · rw [hnone] at hn
      cases hn
    · rw [Function.update_self, List.append_nil]
      exact h.stands n limits hn
  · rw [Function.update_of_ne hname]
    exact h.stands n limits hn

/-- A charge within the limit stands for the items too. -/
theorem add (h : Charges d charged base) {name : ν} {tensors : List τ} {limits : Limits τ}
    (hname : d.limits name = some limits)
    (hle : charged name + charge limits tensors ≤ limits.maxItems) :
    Charges d (Function.update charged name (charged name + charge limits tensors))
      (Function.update base name (base name ++ tensors)) := by
  refine ⟨fun n l hn => ?_, fun n l hn => ?_⟩
  · by_cases heq : n = name
    · subst heq
      obtain rfl : limits = l := Option.some.inj (hname.symm.trans hn)
      rw [Function.update_self, Function.update_self, charge_append, h.stands n limits hname]
    · rw [Function.update_of_ne heq, Function.update_of_ne heq]
      exact h.stands n l hn
  · by_cases heq : n = name
    · subst heq
      obtain rfl : limits = l := Option.some.inj (hname.symm.trans hn)
      rw [Function.update_self]
      exact hle
    · rw [Function.update_of_ne heq]
      exact h.within n l hn

/-- What is added to one stream, and the rest to all. -/
theorem given_update (name : ν) (tensors : List τ) (items : List (ν × List τ)) (n : ν) :
    Function.update base name (base name ++ tensors) n ++ given items n =
      base n ++ given ((name, tensors) :: items) n := by
  rw [given_cons]
  by_cases hn : name = n
  · subst hn
    rw [Function.update_self, if_pos rfl, List.append_assoc]
  · rw [Function.update_of_ne (Ne.symm hn), if_neg hn, List.nil_append]

/-- A charge runs over the items one stream after the other. -/
theorem run (h : Charges d charged base) (items : List (ν × List τ)) :
    ChargeRun d charged base items := by
  induction items generalizing charged base with
  | nil =>
    refine ⟨fun _ => ?_, fun hno => by simp [chargeStreamItems] at hno, h.within⟩
    simpa [given, chargeStreamItems] using h
  | cons p items ih =>
    obtain ⟨name, tensors⟩ := p
    -- What the rest of the items come to, from the charges after this one.
    have hrest {charged' : ν → ℕ} (hout : chargeStreamItems d charged ((name, tensors) :: items) =
        chargeStreamItems d charged' items)
        (h' : Charges d charged' (Function.update base name (base name ++ tensors))) :
        ChargeRun d charged base ((name, tensors) :: items) := by
      obtain ⟨hok, hno, hle⟩ := ih h'
      rw [← hout] at hok hno hle
      simp only [given_update] at hok hno
      refine ⟨hok, fun hfalse => ?_, hle⟩
      obtain ⟨q, hq, hne, l, hl, hpast⟩ := hno hfalse
      exact ⟨q, List.mem_cons_of_mem _ hq, hne, l, hl, hpast⟩
    cases hname : d.limits name with
    | none => exact hrest (by simp only [chargeStreamItems, hname]) (h.skip (Or.inl hname))
    | some limits =>
      by_cases hempty : tensors = []
      · subst hempty
        exact hrest (by simp only [chargeStreamItems, hname]; rfl) (h.skip (Or.inr rfl))
      · have hfalse : tensors.isEmpty = false := by simpa using hempty
        by_cases hpast : limits.maxItems < charged name + charge limits tensors
        · have hout : chargeStreamItems d charged ((name, tensors) :: items) =
              (charged, false) := by
            simp only [chargeStreamItems, hname, hfalse, if_pos hpast]
            rfl
          refine ⟨fun hno => by simp [hout] at hno, fun _ => ?_, by rw [hout]; exact h.within⟩
          refine ⟨(name, tensors), List.mem_cons_self, hempty, limits, hname, ?_⟩
          rw [given_cons, if_pos rfl, charge_append, charge_append, ← h.stands name limits hname]
          omega
        · refine hrest ?_ (h.add hname (by omega))
          simp only [chargeStreamItems, hname, hfalse, if_neg hpast]
          rfl

end Charges

/-- Only streams that get something count. -/
theorem given_filter (items : List (ν × List τ)) (n : ν) :
    given (items.filter fun p => !p.2.isEmpty) n = given items n := by
  induction items with
  | nil => rfl
  | cons p items ih =>
    obtain ⟨name, tensors⟩ := p
    cases tensors with
    | nil => simpa [given_cons] using ih
    | cons t tensors => simp [ih]

/-- Items fit where no limit is passed. -/
theorem fits_iff {d : Deployment ν π τ} {b : Book ν ρ τ β} {items : List (ν × List τ)} :
    b.fits d items = true ↔ ∀ p ∈ items, ∀ limits, d.limits p.1 = some limits →
      charge limits (b.tensors p.1 ++ given items p.1) ≤ limits.maxItems := by
  unfold Book.fits
  rw [List.all_eq_true]
  refine forall₂_congr fun p _ => ?_
  cases d.limits p.1 with
  | none => simp
  | some limits => simp

/-- A charge goes through exactly where the items fit, with or without those of
streams that get nothing. -/
theorem charge_iff_fits {d : Deployment ν π τ} {b : Book ν ρ τ β} {charged : ν → ℕ}
    (h : Charges d charged b.tensors) (items live : List (ν × List τ))
    (hsame : ∀ n, given live n = given items n)
    (hin : ∀ p ∈ items, p.2 ≠ [] → p ∈ live) :
    (chargeStreamItems d charged items).2 = b.fits d live := by
  have hrun := h.run items
  cases hout : (chargeStreamItems d charged items).2 with
  | true =>
    symm
    rw [fits_iff]
    intro p _ limits hlimits
    have hstands := (hrun.stands hout).stands p.1 limits hlimits
    have hwithin := (hrun.stands hout).within p.1 limits hlimits
    rw [hsame]
    omega
  | false =>
    symm
    rw [Bool.eq_false_iff]
    intro hfits
    obtain ⟨p, hp, hne, limits, hlimits, hpast⟩ := hrun.passed hout
    have := fits_iff.1 hfits p (hin p hp hne) limits hlimits
    rw [hsame] at this
    omega

end Mstar.ClientStreams

namespace Mstar.ClientStreams

variable {ν ρ κ π τ β : Type*}

/-- Who offered the items was told that they are late, if there is anyone to tell. -/
def Answered (w : Worker ν ρ κ π τ β) (o : Offer ν τ β) : Prop :=
  ∀ x, o.onLate = some x → ∃ names, (x, names) ∈ w.late ∧ o.name ∈ names

variable [DecidableEq ν] [DecidableEq ρ]

/-- A send of some offers on a route: what the ranks get, the counts, the
references, and the answers for streams without a rank. -/
structure Sends (route : Route ν ρ κ) (O : List (Offer ν τ β)) (w w' : Worker ν ρ κ π τ β)
    (before after : ν → ℕ) : Prop where
  delivered : ∀ r n, deliveries w'.sent r n = deliveries w.sent r n ++
    if r ∈ route.ranks n then (acceptedOf O n).map Delivery.item else []
  counted : ∀ n, after n =
    if route.ranks n = [] then before n else before n + (acceptedOf O n).length
  refs_mem : ((infosOf O).map Prod.fst).Nodup → ∀ o ∈ O, ∀ info ∈ o.fate.infos,
    w'.refs info.1 = w.refs info.1 + (route.ranks o.name).length - 1
  refs_other : ∀ u, u ∉ (infosOf O).map Prod.fst → w'.refs u = w.refs u
  late_kept : ∀ x ∈ w.late, x ∈ w'.late
  late_new : ∀ o ∈ O, route.ranks o.name = [] → Answered w' o
  nextUuid : w'.nextUuid = w.nextUuid
  tornDown : w'.tornDown = w.tornDown

omit [DecidableEq ν] [DecidableEq ρ] in
/-- Answers stay. -/
theorem Answered.mono {w w' : Worker ν ρ κ π τ β} {o : Offer ν τ β} (h : Answered w o)
    (hlate : ∀ x ∈ w.late, x ∈ w'.late) : Answered w' o := by
  intro x hx
  obtain ⟨names, hin, hname⟩ := h x hx
  exact ⟨names, hlate _ hin, hname⟩

omit [DecidableEq ν] in
/-- An offer's uuids are among those of all. -/
theorem mem_uuids {O : List (Offer ν τ β)} {o : Offer ν τ β} (ho : o ∈ O) {info : Info τ}
    (hinfo : info ∈ o.fate.infos) : info.1 ∈ (infosOf O).map Prod.fst :=
  List.mem_map.2 ⟨info, List.mem_flatMap.2 ⟨o, ho, hinfo⟩, rfl⟩

namespace Sends

variable {route : Route ν ρ κ}

/-- A send of nothing. -/
theorem nil (w : Worker ν ρ κ π τ β) (before : ν → ℕ) :
    Sends route [] w w before before where
  delivered r n := by simp [acceptedOf]
  counted n := by simp [acceptedOf]
  refs_mem _ o ho := by simp at ho
  refs_other _ _ := rfl
  late_kept _ hx := hx
  late_new o ho := by simp at ho
  nextUuid := rfl
  tornDown := rfl

/-- One send after the other. -/
theorem append {O P : List (Offer ν τ β)} {w w' w'' : Worker ν ρ κ π τ β}
    {before after last : ν → ℕ} (h : Sends route O w w' before after)
    (h' : Sends route P w' w'' after last) : Sends route (O ++ P) w w'' before last where
  delivered r n := by
    rw [h'.delivered, h.delivered, List.append_assoc, acceptedOf_append]
    congr 1
    by_cases hr : r ∈ route.ranks n
    · simp only [if_pos hr, List.map_append]
    · simp only [if_neg hr, List.append_nil]
  counted n := by
    rw [h'.counted, h.counted, acceptedOf_append]
    by_cases hr : route.ranks n = []
    · simp only [if_pos hr]
    · simp only [if_neg hr, List.length_append]
      omega
  refs_mem hnodup o ho info hinfo := by
    simp only [infosOf_append, List.map_append, List.nodup_append'] at hnodup
    obtain ⟨hO, hP, hapart⟩ := hnodup
    rcases List.mem_append.1 ho with hin | hin
    · have hout := hapart (mem_uuids hin hinfo)
      rw [h'.refs_other _ hout, h.refs_mem hO o hin info hinfo]
    · have hout : info.1 ∉ (infosOf O).map Prod.fst := fun hmem =>
        hapart hmem (mem_uuids hin hinfo)
      rw [h'.refs_mem hP o hin info hinfo, h.refs_other _ hout]
  refs_other u hu := by
    simp only [infosOf_append, List.map_append, List.mem_append, not_or] at hu
    rw [h'.refs_other u hu.2, h.refs_other u hu.1]
  late_kept x hx := h'.late_kept x (h.late_kept x hx)
  late_new o ho hranks := by
    rcases List.mem_append.1 ho with hin | hin
    · exact (h.late_new o hin hranks).mono h'.late_kept
    · exact h'.late_new o hin hranks
  nextUuid := h'.nextUuid.trans h.nextUuid
  tornDown := h'.tornDown.trans h.tornDown

end Sends

namespace Worker

variable {d : Deployment ν π τ} {route : Route ν ρ κ}

/-- `_send_stream_items`, once there is a route. -/
theorem sendStreamItems_sends (hroute : ∀ m, (route.ranks m).Nodup)
    (w : Worker ν ρ κ π τ β) {call : ClientCall ν ρ κ τ β} (hcall : call.route = some route)
    (signals : List (ν × List (Info τ))) (onLate : Option β) :
    ∃ after, (w.sendStreamItems d call signals onLate).2 = { call with itemsSent := after } ∧
      Sends route (takenIn onLate signals) w (w.sendStreamItems d call signals onLate).1
        call.itemsSent after := by
  obtain ⟨hnext, hlate, htorn⟩ := sendAll_frame d route signals w call.itemsSent
  unfold sendStreamItems
  rw [hcall]
  refine ⟨_, rfl, ?_⟩
  constructor
  · intro r n
    rw [answerLate_sent, deliveries_sendAll hroute, acceptedOf_takenIn]
  · intro n
    rw [count_sendAll, acceptedOf_takenIn]
  · intro hnodup o ho info hinfo
    rw [infosOf_takenIn] at hnodup
    obtain ⟨s, hs, rfl⟩ := List.mem_map.1 ho
    rw [answerLate_refs,
      sendAll_mem w call.itemsSent hnodup hs (List.mem_map.2 ⟨info, hinfo, rfl⟩)]
  · intro u hu
    rw [infosOf_takenIn] at hu
    rw [answerLate_refs, sendAll_other signals w call.itemsSent hu]
  · intro x hx
    exact late_answerLate (hlate ▸ hx)
  · intro o ho hranks x hx
    obtain ⟨s, hs, rfl⟩ := List.mem_map.1 ho
    obtain rfl : onLate = some x := hx
    refine answered_answerLate _ (List.mem_map.2 ⟨s, List.mem_filter.2 ⟨hs, ?_⟩, rfl⟩)
    rw [hranks]
    rfl
  · rw [answerLate_nextUuid, hnext]
  · rw [answerLate_tornDown, htorn]

/-- What was held goes out like one send of all of it. -/
theorem sendHeld_sends (hroute : ∀ m, (route.ranks m).Nodup) (held : List (HeldItems ν τ β))
    (w : Worker ν ρ κ π τ β) {call : ClientCall ν ρ κ τ β} (hcall : call.route = some route) :
    ∃ after, (w.sendHeld d held call).2 = { call with itemsSent := after } ∧
      Sends route (held.flatMap fun h => takenIn h.onLate h.signals) w
        (w.sendHeld d held call).1 call.itemsSent after := by
  induction held generalizing w call with
  | nil => exact ⟨call.itemsSent, rfl, Sends.nil w call.itemsSent⟩
  | cons batch held ih =>
    obtain ⟨mid, hmid, hfirst⟩ :=
      sendStreamItems_sends (d := d) hroute w hcall batch.signals batch.onLate
    have hroute' : ({ call with itemsSent := mid } : ClientCall ν ρ κ τ β).route = some route :=
      hcall
    obtain ⟨after, hafter, hrest⟩ :=
      ih (w.sendStreamItems d call batch.signals batch.onLate).1 hroute'
    rw [List.flatMap_cons]
    unfold sendHeld
    dsimp only
    rw [hmid]
    exact ⟨after, hafter, hfirst.append hrest⟩

end Worker

end Mstar.ClientStreams

namespace Mstar.ClientStreams

variable {ν ρ κ π τ β : Type*}

/-- An offer that reaches no rank though its call goes on: it was late, or the first
route gave its stream no rank. -/
def Book.Unsent (b : Book ν ρ τ β) (o : Offer ν τ β) : Prop :=
  o.fate = .late ∨ o.fate.isAccepted = true ∧ ∃ ranks, b.ranks = some ranks ∧ ranks o.name = []

/-- The references of an accepted item: the store's own until the first route, then
one for each rank. -/
def Book.refs (b : Book ν ρ τ β) (n : ν) : ℕ :=
  match b.ranks with
  | none => 1
  | some ranks => (ranks n).length

/-- Stored uuids are apart and behind the counter, and no reference is ahead of it. -/
structure Fresh (w : Worker ν ρ κ π τ β) (offers : List (Offer ν τ β)) : Prop where
  nodup : ((infosOf offers).map Prod.fst).Nodup
  below : ∀ u ∈ (infosOf offers).map Prod.fst, u < w.nextUuid
  unborn : ∀ u, w.nextUuid ≤ u → w.refs u = 0

variable [DecidableEq ν]

/-- A call whose route has not come: its accepted items are held. -/
structure Waiting (call : ClientCall ν ρ κ τ β) (b : Book ν ρ τ β) : Prop where
  unrouted : call.route = none
  none : b.ranks = Option.none
  sent : ∀ n, call.itemsSent n = 0
  spent : ∀ n, b.spent n = false
  held : (call.held.flatMap fun h => takenIn h.onLate h.signals) =
    b.offers.filter fun o => o.fate.isAccepted

/-- A call whose first route has come. -/
structure Routed (call : ClientCall ν ρ κ τ β) (b : Book ν ρ τ β) (route : Route ν ρ κ)
    (ranks : ν → List ρ) : Prop where
  routed : call.route = some route
  first : b.ranks = some ranks
  nodup : ∀ n, (route.ranks n).Nodup
  same : ∀ n, b.spent n = false → route.ranks n = ranks n
  sent : ∀ n, ranks n ≠ [] → call.itemsSent n = (b.accepted n).length

/-- A call that goes on. -/
structure Live (d : Deployment ν π τ) (call : ClientCall ν ρ κ τ β) (b : Book ν ρ τ β) :
    Prop where
  ended : ∀ n, call.ended n = (b.closed n || b.spent n)
  charges : Charges d call.charged b.tensors
  edges : ∀ n, b.closed n = true → n ∈ d.edges
  stage : Waiting call b ∨ ∃ route ranks, Routed call b route ranks

variable [DecidableEq ρ]

/-- The data worker keeps the ledger. -/
structure Inv (d : Deployment ν π τ) (w : Worker ν ρ κ π τ β) (b : Book ν ρ τ β) : Prop where
  due : ∀ r n, deliveries w.sent r n = b.due r n
  fresh : Fresh w b.offers
  refs : w.call ≠ none → ∀ o ∈ b.offers, ∀ info ∈ o.fate.infos, w.refs info.1 = b.refs o.name
  answered : ∀ o ∈ b.offers, b.Unsent o → Answered w o
  failed : ∀ o ∈ b.offers, o.fate = .failed → w.tornDown = true
  gone : w.call = none → w.tornDown = true
  within : ∀ call, w.call = some call → ∀ n limits, d.limits n = some limits →
    call.charged n ≤ limits.maxItems
  bounded : ∀ n limits, d.limits n = some limits → charge limits (b.tensors n) ≤ limits.maxItems
  live : ∀ call, w.call = some call → w.tornDown = false → Live d call b

omit [DecidableEq ν] [DecidableEq ρ] in
/-- What failed with its call is no item that the call left unsent. -/
theorem Book.not_unsent {b : Book ν ρ τ β} {o : Offer ν τ β} (hfate : o.fate = .failed) :
    ¬b.Unsent o := by
  unfold Book.Unsent
  rw [hfate]
  rintro (hun | hun)
  · cases hun
  · cases hun.1

namespace Inv

variable {d : Deployment ν π τ} {w : Worker ν ρ κ π τ β} {b : Book ν ρ τ β}

omit [DecidableEq ν] [DecidableEq ρ] in
/-- A failed append stores nothing. -/
theorem infos_fail (a : ClientAppend ν τ β) : infosOf (b.fail a).offers = infosOf b.offers := by
  unfold Book.fail
  rw [infosOf_append, infosOf_turnedAway rfl, List.append_nil]

omit [DecidableEq ρ] in
/-- Nothing of it is accepted. -/
theorem accepted_fail (a : ClientAppend ν τ β) (n : ν) :
    (b.fail a).accepted n = b.accepted n := by
  unfold Book.accepted Book.fail
  rw [acceptedOf_append, acceptedOf_turnedAway rfl, List.append_nil]

omit [DecidableEq ν] [DecidableEq ρ] in
/-- What is turned away, of which streams, and why. -/
theorem mem_turnedAway {onLate : Option β} {fate : Fate τ} {items : List (ν × List τ)}
    {o : Offer ν τ β} (ho : o ∈ turnedAway onLate fate items) :
    o.onLate = onLate ∧ o.fate = fate ∧ ∃ p ∈ items, p.1 = o.name := by
  obtain ⟨p, hp, rfl⟩ := List.mem_map.1 ho
  exact ⟨rfl, rfl, p, hp, rfl⟩

/-- An append fails: nothing is sent or stored, and the call is torn down. -/
theorem fail (h : Inv d w b) {w' : Worker ν ρ κ π τ β} (a : ClientAppend ν τ β)
    (hsent : w'.sent = w.sent) (hnext : w'.nextUuid = w.nextUuid) (hrefs : w'.refs = w.refs)
    (hlate : ∀ x ∈ w.late, x ∈ w'.late) (htorn : w'.tornDown = true)
    (hcall : w'.call ≠ none → w.call ≠ none)
    (hwithin : ∀ call, w'.call = some call → ∀ n limits, d.limits n = some limits →
      call.charged n ≤ limits.maxItems) : Inv d w' (b.fail a) where
  due r n := by
    rw [hsent, h.due]
    unfold Book.due
    simp only [accepted_fail]
    rfl
  fresh := by
    obtain ⟨hnodup, hbelow, hunborn⟩ := h.fresh
    exact ⟨by rw [infos_fail]; exact hnodup, by rw [infos_fail, hnext]; exact hbelow,
      by rw [hnext, hrefs]; exact hunborn⟩
  refs hsome o ho info hinfo := by
    rw [hrefs]
    rcases List.mem_append.1 ho with hin | hin
    · exact h.refs (hcall hsome) o hin info hinfo
    · rw [(mem_turnedAway hin).2.1] at hinfo
      cases hinfo
  answered o ho hun := by
    rcases List.mem_append.1 ho with hin | hin
    · exact (h.answered o hin hun).mono hlate
    · exact absurd hun (Book.not_unsent (mem_turnedAway hin).2.1)
  failed _ _ _ := htorn
  gone _ := htorn
  within := hwithin
  bounded n limits hlimits := by
    unfold Book.tensors
    rw [accepted_fail]
    exact h.bounded n limits hlimits
  live call _ hno := by
    rw [htorn] at hno
    cases hno

/-- A teardown changes nothing else. -/
theorem drain (h : Inv d w b) : Inv d w.beginDrain b where
  due := h.due
  fresh := ⟨h.fresh.nodup, h.fresh.below, h.fresh.unborn⟩
  refs := h.refs
  answered := h.answered
  failed _ _ _ := rfl
  gone _ := rfl
  within := h.within
  bounded := h.bounded
  live _ _ hno := by cases hno

/-- A removed call leaves nothing behind. -/
theorem remove (h : Inv d w b) : Inv d w.remove b where
  due := h.due
  fresh := ⟨h.fresh.nodup, h.fresh.below, fun _ _ => rfl⟩
  refs hsome := absurd rfl hsome
  answered := h.answered
  failed _ _ _ := rfl
  gone _ := rfl
  within _ hcall := by cases hcall
  bounded := h.bounded
  live _ _ hno := by cases hno

end Inv

end Mstar.ClientStreams
