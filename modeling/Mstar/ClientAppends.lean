import Mstar.ClientSteps

/-!
# Appends to a call

An append that goes through: its late streams are answered, the others are stored
and then held, or sent on the route that the call has, and the ends it names follow.
-/

namespace Mstar.ClientStreams

variable {ν ρ κ π τ β : Type*} [DecidableEq ν]

omit [DecidableEq ν] in
/-- The streams of an append that have not ended are those that are not late. -/
theorem live_of_late [DecidableEq ν] (call : ClientCall ν ρ κ τ β) (items : List (ν × List τ)) :
    ((items.filter fun p => decide (p.1 ∉ lateNames call items)).filter
        fun p => !p.2.isEmpty) =
      items.filter fun p => !p.2.isEmpty && !call.ended p.1 := by
  rw [List.filter_filter]
  refine List.filter_congr fun p hp => ?_
  cases hempty : p.2.isEmpty with
  | true => simp
  | false =>
    have hlate : p.1 ∈ lateNames call items ↔ call.ended p.1 = true := by
      unfold lateNames
      rw [List.mem_map]
      constructor
      · rintro ⟨q, hq, hname⟩
        have hended := (List.mem_filter.1 hq).2
        simp only [Bool.and_eq_true] at hended
        rw [← hname]
        exact hended.2
      · intro hended
        exact ⟨p, List.mem_filter.2 ⟨hp, by simp [hempty, hended]⟩, rfl⟩
    simp only [hlate]
    cases call.ended p.1 <;> rfl

/-- An ended stream has nothing among the live ones. -/
theorem given_live (items : List (ν × List τ)) (ended : ν → Bool) {n : ν}
    (hended : ended n = true) :
    given (items.filter fun p => !p.2.isEmpty && !ended p.1) n = [] := by
  refine given_nil fun p hp hname => ?_
  have hlive := (List.mem_filter.1 hp).2
  rw [hname, hended] at hlive
  simp at hlive

variable [DecidableEq ρ] [DecidableEq π] {d : Deployment ν π τ} {w : Worker ν ρ κ π τ β}
  {b : Book ν ρ τ β}

/-- Before the route, an append's items join those that are held. -/
theorem takeAppend_waiting {call : ClientCall ν ρ κ τ β} (hroute : call.route = none)
    (items : List (ν × List τ)) (a : ClientAppend ν τ β) :
    ∃ held : List (HeldItems ν τ β),
      w.takeAppend d call items a =
        { (w.storeHeld (items.filter fun p => !p.2.isEmpty)).1 with
          call := some { call with
            held := held
            ended := fun name => call.ended name || a.ends name } } ∧
      (held.flatMap fun h => takenIn h.onLate h.signals) =
        (call.held.flatMap fun h => takenIn h.onLate h.signals) ++
          takenIn a.onLate (storeAll w.nextUuid (items.filter fun p => !p.2.isEmpty)).1 := by
  unfold Worker.takeAppend
  simp only [hroute]
  generalize (items.filter fun p => !p.2.isEmpty) = live
  cases live with
  | nil =>
    refine ⟨call.held, ?_, by simp [storeAll, takenIn]⟩
    rw [storeHeld_nil]
    simp only [List.isEmpty_nil, if_true, hroute]
  | cons p live =>
    refine ⟨call.held ++ [⟨(w.storeHeld (p :: live)).2, a.onLate⟩], ?_, ?_⟩
    · simp only [List.isEmpty_cons, Worker.sendStreamItems, hroute]
      rfl
    · simp only [List.flatMap_append, List.flatMap_cons, List.flatMap_nil, List.append_nil]
      rfl

/-- After it, they are sent, and then the ends. -/
theorem takeAppend_routed {call : ClientCall ν ρ κ τ β} {route : Route ν ρ κ}
    (hroute : call.route = some route) (hnodup : ∀ m, (route.ranks m).Nodup)
    (items : List (ν × List τ)) (a : ClientAppend ν τ β) :
    ∃ (w' : Worker ν ρ κ π τ β) (after : ν → ℕ),
      Sends route
        (takenIn a.onLate (storeAll w.nextUuid (items.filter fun p => !p.2.isEmpty)).1)
        (w.storeHeld (items.filter fun p => !p.2.isEmpty)).1 w' call.itemsSent after ∧
      w.takeAppend d call items a =
        { w'.sendEnds d { call with itemsSent := after } route
            (fun name => a.ends name && !call.ended name) with
          call := some { call with
            itemsSent := after
            ended := fun name => call.ended name || a.ends name } } := by
  obtain ⟨found, held, itemsSent, ended, charged⟩ := call
  obtain rfl : found = some route := hroute
  unfold Worker.takeAppend
  dsimp only
  generalize (items.filter fun p => !p.2.isEmpty) = live
  cases live with
  | nil =>
    refine ⟨w, itemsSent, ?_, by simp only [List.isEmpty_nil, if_true]⟩
    rw [storeHeld_nil]
    exact Sends.nil w itemsSent
  | cons p live =>
    have hroute : (⟨some route, held, itemsSent, ended, charged⟩ :
        ClientCall ν ρ κ τ β).route = some route := rfl
    obtain ⟨after, hafter, hsends⟩ := Worker.sendStreamItems_sends (d := d) hnodup
      (w.storeHeld (p :: live)).1 hroute (w.storeHeld (p :: live)).2 a.onLate
    refine ⟨_, after, hsends, ?_⟩
    simp only [List.isEmpty_cons, Bool.false_eq_true, if_false, hafter]

namespace Inv

omit [DecidableEq π] in
/-- The late streams of an append are answered before anything else of it. -/
theorem answer (h : Inv d w b) {call : ClientCall ν ρ κ τ β} (hcall : w.call = some call)
    (hgoes : w.tornDown = false) (items : List (ν × List τ)) (onLate : Option β) :
    Inv d (w.answerLate onLate (lateNames call items))
      { b with offers := b.offers ++
          turnedAway onLate .late (items.filter fun p => !p.2.isEmpty && call.ended p.1) } := by
  have hinfos : infosOf (b.offers ++ turnedAway onLate .late
      (items.filter fun p => !p.2.isEmpty && call.ended p.1)) = infosOf b.offers := by
    rw [infosOf_append, infosOf_turnedAway rfl, List.append_nil]
  have haccepted (n : ν) : acceptedOf (b.offers ++ turnedAway onLate .late
      (items.filter fun p => !p.2.isEmpty && call.ended p.1)) n = b.accepted n := by
    rw [acceptedOf_append, acceptedOf_turnedAway rfl, List.append_nil]
    rfl
  constructor
  · intro r n
    rw [Worker.answerLate_sent, h.due]
    unfold Book.due Book.accepted
    simp only [haccepted]
    rfl
  · obtain ⟨hnodup, hbelow, hunborn⟩ := h.fresh
    refine ⟨by rw [hinfos]; exact hnodup, ?_, ?_⟩
    · rw [hinfos, Worker.answerLate_nextUuid]
      exact hbelow
    · rw [Worker.answerLate_nextUuid, Worker.answerLate_refs]
      exact hunborn
  · intro hsome o ho info hinfo
    rw [Worker.answerLate_refs]
    rw [Worker.answerLate_call] at hsome
    rcases List.mem_append.1 ho with hin | hin
    · exact h.refs hsome o hin info hinfo
    · rw [(mem_turnedAway hin).2.1] at hinfo
      cases hinfo
  · intro o ho hun
    rcases List.mem_append.1 ho with hin | hin
    · exact (h.answered o hin hun).mono fun x hx => Worker.late_answerLate hx
    · obtain ⟨honLate, -, p, hp, hname⟩ := mem_turnedAway hin
      intro x hx
      obtain rfl : onLate = some x := honLate ▸ hx
      refine Worker.answered_answerLate w ?_
      rw [← hname]
      exact List.mem_map.2 ⟨p, hp, rfl⟩
  · intro o ho hfate
    rw [Worker.answerLate_tornDown]
    rcases List.mem_append.1 ho with hin | hin
    · exact h.failed o hin hfate
    · rw [(mem_turnedAway hin).2.1] at hfate
      cases hfate
  · intro hnone
    rw [Worker.answerLate_call, hcall] at hnone
    cases hnone
  · intro call' hcall'
    rw [Worker.answerLate_call] at hcall'
    exact h.within call' hcall'
  · intro n limits hlimits
    unfold Book.tensors Book.accepted
    rw [haccepted]
    exact h.bounded n limits hlimits
  · intro call' hcall' _
    rw [Worker.answerLate_call] at hcall'
    obtain ⟨hended, hcharges, hedges, hstage⟩ := h.live call' hcall' hgoes
    have htensors : (⟨b.offers ++ turnedAway onLate .late
        (items.filter fun p => !p.2.isEmpty && call.ended p.1), b.closed, b.spent, b.ranks⟩ :
        Book ν ρ τ β).tensors = b.tensors := by
      funext n
      unfold Book.tensors Book.accepted
      rw [haccepted]
      rfl
    refine ⟨hended, by rw [htensors]; exact hcharges, hedges, ?_⟩
    rcases hstage with ⟨hroute, hranks, hsent, hover, hheld⟩ |
      ⟨route, ranks, hroute, hfirst, hnodup, hsame, hsent⟩
    · refine Or.inl ⟨hroute, hranks, hsent, hover, ?_⟩
      have hnone : (turnedAway onLate .late (items.filter fun p =>
          !p.2.isEmpty && call.ended p.1)).filter (fun o => o.fate.isAccepted) = [] := by
        rw [List.filter_eq_nil_iff]
        intro o ho
        rw [(mem_turnedAway ho).2.1]
        simp [Fate.isAccepted]
      rw [hheld, List.filter_append, hnone, List.append_nil]
    · refine Or.inr ⟨route, ranks, hroute, hfirst, hnodup, hsame, fun n hn => ?_⟩
      rw [hsent n hn]
      unfold Book.accepted
      rw [haccepted]
      rfl

end Inv

/-- The ledger with an append's items and its ends. -/
abbrev Book.appended (b : Book ν ρ τ β) (a : ClientAppend ν τ β)
    (signals : List (ν × List (Info τ))) : Book ν ρ τ β :=
  { b with
    offers := b.offers ++ takenIn a.onLate signals
    closed := fun n => b.closed n || (a.ends n && !b.spent n) }

section Appended

variable {a : ClientAppend ν τ β} {items live : List (ν × List τ)}
  {call call' : ClientCall ν ρ κ τ β}

omit [DecidableEq ρ] in
/-- What was accepted, then what the append brings. -/
theorem accepted_appended (signals : List (ν × List (Info τ))) (n : ν) :
    (b.appended a signals).accepted n = b.accepted n ++ carried signals n := by
  unfold Book.accepted
  rw [acceptedOf_append, acceptedOf_takenIn]

omit [DecidableEq ρ] in
/-- The tensors before, then those it gives. -/
theorem tensors_appended (uuid : ℕ) :
    (b.appended a (storeAll uuid live).1).tensors = fun n => b.tensors n ++ given live n := by
  funext n
  unfold Book.tensors
  rw [accepted_appended, List.map_append, tensors_carried]

omit [DecidableEq ρ] in
/-- Nothing is stored of a stream that is over. -/
theorem carried_nil_of_over (hopen : ∀ p ∈ live, (b.closed p.1 || b.spent p.1) = false) {n : ν}
    (hn : (b.closed n || b.spent n) = true) (uuid : ℕ) :
    carried (storeAll uuid live).1 n = [] := by
  refine carried_nil_of_given (given_nil fun p hp hname => ?_)
  have hno := hopen p hp
  rw [hname, hn] at hno
  cases hno

omit [DecidableEq ν] [DecidableEq ρ] in
/-- What is taken in is accepted. -/
theorem accepted_of_takenIn {signals : List (ν × List (Info τ))} {o : Offer ν τ β}
    (ho : o ∈ takenIn a.onLate signals) : o.fate.isAccepted = true := by
  obtain ⟨s, -, rfl⟩ := List.mem_map.1 ho
  rfl

omit [DecidableEq ρ] [DecidableEq π] in
/-- A call goes on with its charges, its ends and its stage. -/
theorem Live.appended (h : Live d call b) (hends : ∀ n, a.ends n = true → n ∈ d.edges)
    (hended : ∀ n, call'.ended n = (call.ended n || a.ends n)) (uuid : ℕ)
    (hcharges : Charges d call'.charged fun n => b.tensors n ++ given live n)
    (hstage : Waiting call' (b.appended a (storeAll uuid live).1) ∨
      ∃ route ranks, Routed call' (b.appended a (storeAll uuid live).1) route ranks) :
    Live d call' (b.appended a (storeAll uuid live).1) := by
  refine ⟨fun n => ?_, by rw [tensors_appended]; exact hcharges, fun n hn => ?_, hstage⟩
  · rw [hended, h.ended]
    dsimp only
    cases b.closed n <;> cases b.spent n <;> cases a.ends n <;> rfl
  · rw [Bool.or_eq_true, Bool.and_eq_true] at hn
    rcases hn with hn | hn
    · exact h.edges n hn
    · exact hends n hn.1

omit [DecidableEq ρ] [DecidableEq π] in
/-- Charges within their limits bound what is taken in. -/
theorem bounded_appended {charged : ν → ℕ} (uuid : ℕ)
    (hcharges : Charges d charged fun n => b.tensors n ++ given live n) (n : ν) (limits : Limits τ)
    (hlimits : d.limits n = some limits) :
    charge limits ((b.appended a (storeAll uuid live).1).tensors n) ≤ limits.maxItems := by
  rw [tensors_appended]
  dsimp only
  have hstands : charged n = charge limits (b.tensors n ++ given live n) :=
    hcharges.stands n limits hlimits
  have hwithin := hcharges.within n limits hlimits
  omega

namespace Inv

/-- What an append stores before the route has come is held. -/
theorem take_waiting (h : Inv d w b) (hcall : w.call = some call) (hgoes : w.tornDown = false)
    (hwait : Waiting call b) (hends : ∀ n, a.ends n = true → n ∈ d.edges)
    (hlive : (items.filter fun p => !p.2.isEmpty) = live) {charged : ν → ℕ}
    (hcharges : Charges d charged fun n => b.tensors n ++ given live n) :
    Inv d (w.takeAppend d { call with charged } items a)
      (b.appended a (storeAll w.nextUuid live).1) := by
  obtain ⟨hfresh, hone, hold⟩ := h.fresh.stored live a.onLate
  have hunrouted : ({ call with charged } : ClientCall ν ρ κ τ β).route = none := hwait.unrouted
  obtain ⟨held, hout, hheld⟩ := takeAppend_waiting (d := d) (w := w) hunrouted items a
  rw [hlive] at hout hheld
  rw [hout]
  constructor
  · intro r n
    refine (h.due r n).trans ?_
    unfold Book.due
    simp only [hwait.none]
  · exact ⟨hfresh.nodup, hfresh.below, hfresh.unborn⟩
  · intro _ o ho info hinfo
    rcases List.mem_append.1 ho with hin | hin
    · refine (hold info.1 (mem_uuids hin hinfo)).trans ?_
      exact h.refs (by simp [hcall]) o hin info hinfo
    · refine (hone info.1 (mem_uuids hin hinfo)).trans ?_
      unfold Book.refs
      simp only [hwait.none]
  · intro o ho hun
    rcases List.mem_append.1 ho with hin | hin
    · exact h.answered o hin hun
    · obtain ⟨s, -, rfl⟩ := List.mem_map.1 hin
      rcases hun with hun | ⟨-, ranks, hranks, -⟩
      · cases hun
      · rw [hwait.none] at hranks
        cases hranks
  · intro o ho hfate
    rcases List.mem_append.1 ho with hin | hin
    · exact h.failed o hin hfate
    · obtain ⟨s, -, rfl⟩ := List.mem_map.1 hin
      cases hfate
  · intro hnone
    cases hnone
  · intro call' hcall' n limits hlimits
    obtain rfl := Option.some.inj hcall'
    exact hcharges.within n limits hlimits
  · exact bounded_appended _ hcharges
  · intro call' hcall' _
    obtain rfl := Option.some.inj hcall'
    refine (h.live call hcall hgoes).appended hends (fun _ => rfl) _ hcharges
      (Or.inl ⟨hwait.unrouted, hwait.none, hwait.sent, hwait.spent, ?_⟩)
    have hall : (takenIn a.onLate (storeAll w.nextUuid live).1).filter
        (fun o => o.fate.isAccepted) = takenIn a.onLate (storeAll w.nextUuid live).1 :=
      List.filter_eq_self.2 fun o ho => accepted_of_takenIn ho
    rw [List.filter_append, hall, ← hwait.held]
    exact hheld

end Inv

section Routed

variable {route : Route ν ρ κ} {ranks : ν → List ρ} {w₁ w' : Worker ν ρ κ π τ β} {after : ν → ℕ}
  {uuid : ℕ}

omit [DecidableEq π] in
/-- The count of a stream that the route serves, after an append was sent. -/
theorem counted_append (hrouted : Routed call b route ranks)
    (hopen : ∀ p ∈ live, (b.closed p.1 || b.spent p.1) = false)
    (hsends : Sends route (takenIn a.onLate (storeAll uuid live).1) w₁ w' call.itemsSent after)
    (n : ν) (hn : ranks n ≠ []) :
    after n = (b.accepted n ++ carried (storeAll uuid live).1 n).length := by
  rw [hsends.counted, acceptedOf_takenIn, List.length_append]
  have hsent := hrouted.sent n hn
  cases hstate : b.closed n || b.spent n with
  | true =>
    rw [carried_nil_of_over hopen hstate, List.length_nil, Nat.add_zero, Nat.add_zero, ite_self]
    exact hsent
  | false =>
    rw [Bool.or_eq_false_iff] at hstate
    rw [hrouted.same n hstate.2, if_neg hn, hsent]

/-- What has been delivered after an append was sent, and its ends. -/
theorem due_append (h : Inv d w b) (hlive : Live d call b) (hrouted : Routed call b route ranks)
    (hends : ∀ n, a.ends n = true → n ∈ d.edges)
    (hopen : ∀ p ∈ live, (b.closed p.1 || b.spent p.1) = false)
    (hsends : Sends route (takenIn a.onLate (storeAll uuid live).1) w₁ w' call.itemsSent after)
    (hsame : w₁.sent = w.sent) {call' : ClientCall ν ρ κ τ β} (hafter : call'.itemsSent = after)
    (r : ρ) (n : ν) :
    deliveries (w'.sendEnds d call' route fun name => a.ends name && !call.ended name).sent r n =
      (b.appended a (storeAll uuid live).1).due r n := by
  have hedge (m : ν) (hm : (a.ends m && !call.ended m) = true) (_ : route.ranks m ≠ []) :
      m ∈ d.edges := by
    rw [Bool.and_eq_true] at hm
    exact hends m hm.1
  have hacc : acceptedOf b.offers n = b.accepted n := rfl
  rw [Worker.deliveries_sendEnds hedge, hsends.delivered, acceptedOf_takenIn, hsame, h.due, hafter]
  unfold Book.due
  simp only [hrouted.first, accepted_appended]
  cases hstate : b.closed n || b.spent n with
  | true =>
    -- Nothing of an ended stream is in the append, and no end of it is new.
    have hstays : (b.closed n || (a.ends n && !b.spent n)) = b.closed n := by
      rw [Bool.or_eq_true] at hstate
      rcases hstate with hn | hn <;> simp [hn]
    rw [carried_nil_of_over hopen hstate, hstays, hlive.ended, hstate]
    simp
  | false =>
    rw [Bool.or_eq_false_iff] at hstate
    rw [hrouted.same n hstate.2, hlive.ended, hstate.1, hstate.2]
    by_cases hr : r ∈ ranks n
    · rw [counted_append hrouted hopen hsends n (List.ne_nil_of_mem hr)]
      cases a.ends n <;> simp [hr]
    · simp [hr]

namespace Inv

/-- After it, it is sent, and its ends follow. -/
theorem take_routed (h : Inv d w b) (hcall : w.call = some call) (hgoes : w.tornDown = false)
    (hrouted : Routed call b route ranks) (hends : ∀ n, a.ends n = true → n ∈ d.edges)
    (hlive : (items.filter fun p => !p.2.isEmpty) = live)
    (hopen : ∀ p ∈ live, (b.closed p.1 || b.spent p.1) = false) {charged : ν → ℕ}
    (hcharges : Charges d charged fun n => b.tensors n ++ given live n) :
    Inv d (w.takeAppend d { call with charged } items a)
      (b.appended a (storeAll w.nextUuid live).1) := by
  obtain ⟨hfresh, hone, hold⟩ := h.fresh.stored live a.onLate
  have hgoesOn := h.live call hcall hgoes
  have hroute : ({ call with charged } : ClientCall ν ρ κ τ β).route = some route :=
    hrouted.routed
  obtain ⟨w', after, hsends, hout⟩ :=
    takeAppend_routed (d := d) (w := w) hroute hrouted.nodup items a
  rw [hlive] at hsends
  rw [hout]
  have hname {o : Offer ν τ β} (ho : o ∈ takenIn a.onLate (storeAll w.nextUuid live).1) :
      route.ranks o.name = ranks o.name := by
    obtain ⟨s, hs, rfl⟩ := List.mem_map.1 ho
    obtain ⟨p, hp, hpname⟩ := name_storeAll hs
    have hno := hopen p hp
    rw [Bool.or_eq_false_iff] at hno
    exact hrouted.same s.1 (hpname ▸ hno.2)
  constructor
  · intro r n
    exact due_append h hgoesOn hrouted hends hopen hsends rfl rfl r n
  · have hnext : w'.nextUuid = (w.storeHeld live).1.nextUuid := hsends.nextUuid
    refine ⟨hfresh.nodup, fun u hu => ?_, fun u hu => ?_⟩
    · exact lt_of_lt_of_eq (hfresh.below u hu) hnext.symm
    · have hborn : (w.storeHeld live).1.nextUuid ≤ u := hnext ▸ hu
      refine (hsends.refs_other u fun hin => ?_).trans (hfresh.unborn u hborn)
      have hless := hfresh.below u (by
        rw [infosOf_append, List.map_append]
        exact List.mem_append_right _ hin)
      omega
  · intro _ o ho info hinfo
    have hapart := hfresh.nodup
    rw [infosOf_append, List.map_append, List.nodup_append'] at hapart
    rcases List.mem_append.1 ho with hin | hin
    · have huuid := mem_uuids hin hinfo
      refine (hsends.refs_other info.1 (hapart.2.2 huuid)).trans ?_
      refine (hold info.1 huuid).trans ?_
      exact h.refs (by simp [hcall]) o hin info hinfo
    · have hrefs := hsends.refs_mem hapart.2.1 o hin info hinfo
      rw [hone info.1 (mem_uuids hin hinfo), hname hin] at hrefs
      refine hrefs.trans ?_
      unfold Book.refs
      simp only [hrouted.first]
      omega
  · intro o ho hun
    rcases List.mem_append.1 ho with hin | hin
    · exact (h.answered o hin hun).mono hsends.late_kept
    · refine hsends.late_new o hin ?_
      rw [hname hin]
      obtain ⟨s, -, rfl⟩ := List.mem_map.1 hin
      rcases hun with hun | ⟨-, ranks', hranks, hempty⟩
      · cases hun
      · obtain rfl : ranks = ranks' := Option.some.inj (hrouted.first.symm.trans hranks)
        exact hempty
  · intro o ho hfate
    rcases List.mem_append.1 ho with hin | hin
    · exact hsends.tornDown.trans (h.failed o hin hfate)
    · obtain ⟨s, -, rfl⟩ := List.mem_map.1 hin
      cases hfate
  · intro hnone
    cases hnone
  · intro call' hcall' n limits hlimits
    obtain rfl := Option.some.inj hcall'
    exact hcharges.within n limits hlimits
  · exact bounded_appended _ hcharges
  · intro call' hcall' _
    obtain rfl := Option.some.inj hcall'
    refine hgoesOn.appended hends (fun _ => rfl) _ hcharges (Or.inr ⟨route, ranks, hrouted.routed,
      hrouted.first, hrouted.nodup, hrouted.same, fun n hn => ?_⟩)
    rw [accepted_appended]
    exact counted_append hrouted hopen hsends n hn

end Inv

end Routed

/-- The part of an append that fits: it is stored, held or sent, and its ends follow. -/
theorem Inv.take (h : Inv d w b) (hcall : w.call = some call) (hgoes : w.tornDown = false)
    (a : ClientAppend ν τ β) (hends : ∀ n, a.ends n = true → n ∈ d.edges)
    (hlive : (items.filter fun p => !p.2.isEmpty) = live)
    (hopen : ∀ p ∈ live, (b.closed p.1 || b.spent p.1) = false) {charged : ν → ℕ}
    (hcharges : Charges d charged fun n => b.tensors n ++ given live n) :
    Inv d (w.takeAppend d { call with charged } items a)
      (b.appended a (storeAll w.nextUuid live).1) := by
  rcases (h.live call hcall hgoes).stage with hwait | ⟨route, ranks, hrouted⟩
  · exact h.take_waiting hcall hgoes hwait hends hlive hcharges
  · exact h.take_routed hcall hgoes hrouted hends hlive hopen hcharges

end Appended

end Mstar.ClientStreams
