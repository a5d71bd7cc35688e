import Mstar.ClientAppends

/-!
# Routes of a call

A call's first route sends what was held, then the ends that have come by then. A
later one ends streams, and sends nothing.
-/

namespace Mstar.ClientStreams

variable {ν ρ κ π τ β : Type*} [DecidableEq ν] [DecidableEq ρ] [DecidableEq π]
  {d : Deployment ν π τ} {w : Worker ν ρ κ π τ β} {b : Book ν ρ τ β}

omit [DecidableEq ν] [DecidableEq ρ] [DecidableEq π] in
/-- A stream that a route gives ranks is not one that it ends. -/
theorem ranks_of_unranked {body : Route ν ρ κ} {n : ν} (h : Worker.unranked body n = true) :
    body.ranks n = [] := by
  unfold Worker.unranked at h
  unfold Route.ranks
  cases hworkers : body.workers n with
  | none => rfl
  | some ranks =>
    rw [hworkers] at h
    simpa using h

omit [DecidableEq ν] [DecidableEq ρ] [DecidableEq π] in
/-- A later route that ends streams leaves the others' ranks. -/
theorem ranks_mergeRoute {route body : Route ν ρ κ}
    (hbody : ∀ n ranks, body.workers n = some ranks → ranks = []) (n : ν) :
    (Worker.mergeRoute route body).ranks n =
      if Worker.unranked body n = true then [] else route.ranks n := by
  unfold Route.ranks
  cases hworkers : body.workers n with
  | none => simp only [Worker.mergeRoute, Worker.unranked, hworkers, Bool.false_eq_true, if_false]
  | some ranks =>
    obtain rfl := hbody n ranks hworkers
    simp only [Worker.mergeRoute, Worker.unranked, hworkers, List.isEmpty_nil, if_true,
      Option.getD_some]

section Accepted

variable {α γ : Type*}

/-- Members that give nothing need not be there. -/
theorem flatMap_filter {p : α → Bool} {f : α → List γ} (h : ∀ a, p a = false → f a = []) :
    ∀ l : List α, (l.filter p).flatMap f = l.flatMap f
  | [] => rfl
  | a :: l => by
    cases hp : p a with
    | true => rw [List.filter_cons_of_pos hp, List.flatMap_cons, List.flatMap_cons,
        flatMap_filter h l]
    | false => rw [List.filter_cons_of_neg (by simp [hp]), List.flatMap_cons, h a hp,
        List.nil_append, flatMap_filter h l]

omit [DecidableEq ν] [DecidableEq ρ] [DecidableEq π] in
/-- What is not accepted is not stored. -/
theorem infos_of_not_accepted (o : Offer ν τ β) (h : o.fate.isAccepted = false) :
    o.fate.infos = [] := by
  cases hfate : o.fate with
  | accepted infos =>
    rw [hfate] at h
    cases h
  | late => rfl
  | failed => rfl

omit [DecidableEq ν] [DecidableEq ρ] [DecidableEq π] in
/-- Only accepted offers hold items. -/
theorem infosOf_accepted (offers : List (Offer ν τ β)) :
    infosOf (offers.filter fun o => o.fate.isAccepted) = infosOf offers :=
  flatMap_filter infos_of_not_accepted offers

omit [DecidableEq ρ] [DecidableEq π] in
/-- Only what is accepted counts. -/
theorem acceptedOf_accepted (offers : List (Offer ν τ β)) (n : ν) :
    acceptedOf (offers.filter fun o => o.fate.isAccepted) n = acceptedOf offers n := by
  refine flatMap_filter (fun o ho => ?_) offers
  rw [infos_of_not_accepted o ho, ite_self]

end Accepted

namespace Inv

/-- An append at a call that goes on. -/
theorem append (h : Inv d w b) {call : ClientCall ν ρ κ τ β} (hcall : w.call = some call)
    (hgoes : w.tornDown = false) (a : ClientAppend ν τ β)
    (hends : ∀ n, a.ends n = true → n ∈ d.edges) :
    Inv d (w.processStreamInput d a) (b.append d w.nextUuid a) := by
  unfold Worker.processStreamInput Book.append
  simp only [hcall, hgoes, Bool.false_eq_true, if_false]
  have hlive := h.live call hcall hgoes
  cases hloaded : loaded d a with
  | none =>
    refine h.fail a ?_ ?_ ?_ ?_ ?_ ?_ ?_
    · rfl
    · rfl
    · rfl
    · exact fun _ hx => hx
    · rfl
    · simp [hcall]
    · exact fun call' hcall' => h.within call' (hcall.trans hcall')
  | some items =>
    have hended (p : ν × List τ) : (b.closed p.1 || b.spent p.1) = call.ended p.1 :=
      (hlive.ended p.1).symm
    have hfilter := live_of_late call items
    have hsame (n : ν) : given (items.filter fun p => !p.2.isEmpty && !call.ended p.1) n =
        given (items.filter fun p => decide (p.1 ∉ lateNames call items)) n := by
      rw [← hfilter, given_filter]
    have hfits := charge_iff_fits hlive.charges
      (items.filter fun p => decide (p.1 ∉ lateNames call items))
      (items.filter fun p => !p.2.isEmpty && !call.ended p.1) hsame fun p hp hne => by
        rw [← hfilter]
        exact List.mem_filter.2 ⟨hp, by simpa using hne⟩
    have hrun := hlive.charges.run (items.filter fun p => decide (p.1 ∉ lateNames call items))
    simp only [hended, ← hfits]
    cases hok : (chargeStreamItems d call.charged
        (items.filter fun p => decide (p.1 ∉ lateNames call items))).2 with
    | true =>
      have hanswer := h.answer hcall hgoes items a.onLate
      have htensors (n : ν) : (⟨b.offers ++ turnedAway a.onLate .late
          (items.filter fun p => !p.2.isEmpty && call.ended p.1), b.closed, b.spent, b.ranks⟩ :
          Book ν ρ τ β).tensors n = b.tensors n := by
        unfold Book.tensors Book.accepted
        rw [acceptedOf_append, acceptedOf_turnedAway rfl, List.append_nil]
      have hcharges : Charges d (chargeStreamItems d call.charged
          (items.filter fun p => decide (p.1 ∉ lateNames call items))).1 fun n =>
            (⟨b.offers ++ turnedAway a.onLate .late
              (items.filter fun p => !p.2.isEmpty && call.ended p.1), b.closed, b.spent, b.ranks⟩ :
              Book ν ρ τ β).tensors n ++
              given (items.filter fun p => !p.2.isEmpty && !call.ended p.1) n := by
        simp only [hsame, htensors]
        exact hrun.stands hok
      have hopen (p : ν × List τ)
          (hp : p ∈ items.filter fun p => !p.2.isEmpty && !call.ended p.1) :
          (b.closed p.1 || b.spent p.1) = false := by
        have hin := (List.mem_filter.1 hp).2
        rw [hended]
        cases hstate : call.ended p.1 with
        | false => rfl
        | true => simp [hstate] at hin
      have htaken := hanswer.take (by rw [Worker.answerLate_call, hcall])
        (by rw [Worker.answerLate_tornDown, hgoes]) a hends hfilter hopen hcharges
      rw [Worker.answerLate_nextUuid] at htaken
      exact htaken
    | false =>
      refine h.fail a (Worker.answerLate_sent _ _ _) (Worker.answerLate_nextUuid _ _ _)
        (Worker.answerLate_refs _ _ _) (fun _ hx => Worker.late_answerLate hx) rfl
        (fun _ => by simp [hcall]) ?_
      intro call' hcall' n limits hlimits
      obtain rfl := Option.some.inj hcall'
      exact hrun.within n limits hlimits

/-- The first route: what was held goes out, and the ends after it. -/
theorem firstRoute (h : Inv d w b) {call : ClientCall ν ρ κ τ β} (hcall : w.call = some call)
    (hgoes : w.tornDown = false) (hwait : Waiting call b) (body : Route ν ρ κ)
    (hnodup : ∀ n, (body.ranks n).Nodup) :
    Inv d (w.routeClientStreams d body) (b.routed body) := by
  obtain ⟨hended, hcharges, hedges, -⟩ := h.live call hcall hgoes
  have hroute : (⟨some body, [], call.itemsSent,
      fun n => call.ended n || Worker.unranked body n, call.charged⟩ :
      ClientCall ν ρ κ τ β).route = some body := rfl
  obtain ⟨after, hafter, hsends⟩ := Worker.sendHeld_sends (d := d) hnodup call.held w hroute
  rw [hwait.held] at hsends
  have hranked {n : ν} (hn : body.ranks n ≠ []) :
      (call.ended n || Worker.unranked body n) = b.closed n := by
    have hno : Worker.unranked body n = false := by
      rw [Bool.eq_false_iff]
      exact fun hno => hn (ranks_of_unranked hno)
    rw [hended, hwait.spent, hno, Bool.or_false, Bool.or_false]
  have hedge (m : ν) (hm : (call.ended m || Worker.unranked body m) = true)
      (hranks : body.ranks m ≠ []) : m ∈ d.edges := by
    rw [hranked hranks] at hm
    exact hedges m hm
  have hlast (n : ν) (hn : body.ranks n ≠ []) : after n = (b.accepted n).length := by
    rw [hsends.counted, if_neg hn, acceptedOf_accepted]
    show call.itemsSent n + _ = _
    rw [hwait.sent, Nat.zero_add]
    rfl
  have hfirst : (b.routed body).ranks = some body.ranks := by
    unfold Book.routed
    rw [hwait.none]
    rfl
  unfold Worker.routeClientStreams
  simp only [hcall, hwait.unrouted, hgoes, Bool.false_eq_true, if_false, hafter]
  generalize (w.sendHeld d call.held ⟨some body, [], call.itemsSent,
    fun n => call.ended n || Worker.unranked body n, call.charged⟩).1 = w' at hsends
  constructor
  · intro r n
    show deliveries (w'.sendEnds d _ body _).sent r n = _
    rw [Worker.deliveries_sendEnds hedge, hsends.delivered, acceptedOf_accepted, h.due]
    unfold Book.due
    simp only [hfirst, hwait.none, List.nil_append]
    by_cases hr : r ∈ body.ranks n
    · have hne := List.ne_nil_of_mem hr
      rw [hranked hne, hlast n hne]
      simp only [hr, if_true, true_and]
      rfl
    · simp [hr]
  · refine ⟨h.fresh.nodup, fun u hu => ?_, fun u hu => ?_⟩
    · exact lt_of_lt_of_eq (h.fresh.below u hu) hsends.nextUuid.symm
    · have hborn : w.nextUuid ≤ u := hsends.nextUuid ▸ hu
      refine (hsends.refs_other u fun hin => ?_).trans (h.fresh.unborn u hborn)
      rw [infosOf_accepted] at hin
      have hless := h.fresh.below u hin
      omega
  · intro _ o ho info hinfo
    have haccepted : o.fate.isAccepted = true := by
      rw [← Bool.not_eq_false]
      intro hno
      rw [infos_of_not_accepted o hno] at hinfo
      cases hinfo
    have hrefs := hsends.refs_mem (by rw [infosOf_accepted]; exact h.fresh.nodup) o
      (List.mem_filter.2 ⟨ho, haccepted⟩) info hinfo
    have hheld := h.refs (by simp [hcall]) o ho info hinfo
    unfold Book.refs at hheld ⊢
    simp only [hwait.none] at hheld
    simp only [hfirst]
    refine hrefs.trans ?_
    omega
  · intro o ho hun
    rcases hun with hlate | ⟨haccepted, ranks, hranks, hempty⟩
    · exact (h.answered o ho (Or.inl hlate)).mono hsends.late_kept
    · obtain rfl : body.ranks = ranks := Option.some.inj (hfirst.symm.trans hranks)
      exact hsends.late_new o (List.mem_filter.2 ⟨ho, haccepted⟩) hempty
  · intro o ho hfate
    exact hsends.tornDown.trans (h.failed o ho hfate)
  · intro hnone
    cases hnone
  · intro call' hcall' n limits hlimits
    obtain rfl := Option.some.inj hcall'
    exact hcharges.within n limits hlimits
  · exact h.bounded
  · intro call' hcall' _
    obtain rfl := Option.some.inj hcall'
    refine ⟨fun n => ?_, hcharges, hedges, Or.inr ⟨body, body.ranks, rfl, hfirst, hnodup,
      fun _ _ => rfl, hlast⟩⟩
    show (call.ended n || Worker.unranked body n) = (b.closed n || (b.spent n || _))
    rw [hended, Bool.or_assoc]

/-- A later route, which only ends streams. -/
theorem laterRoute (h : Inv d w b) {call : ClientCall ν ρ κ τ β} (hcall : w.call = some call)
    (hgoes : w.tornDown = false) {route : Route ν ρ κ} {ranks : ν → List ρ}
    (hrouted : Routed call b route ranks) (body : Route ν ρ κ)
    (hbody : ∀ n ranks, body.workers n = some ranks → ranks = []) :
    Inv d (w.routeClientStreams d body) (b.routed body) := by
  obtain ⟨hended, hcharges, hedges, -⟩ := h.live call hcall hgoes
  have hfirst : (b.routed body).ranks = some ranks := by
    unfold Book.routed
    rw [hrouted.first]
    rfl
  have hranks : (b.routed body).ranks = b.ranks := hfirst.trans hrouted.first.symm
  have hrefs (n : ν) : (b.routed body).refs n = b.refs n := by
    unfold Book.refs
    rw [hranks]
  unfold Worker.routeClientStreams
  simp only [hcall, hrouted.routed]
  constructor
  · intro r n
    refine (h.due r n).trans ?_
    unfold Book.due
    rw [hranks]
    rfl
  · exact ⟨h.fresh.nodup, h.fresh.below, h.fresh.unborn⟩
  · intro _ o ho info hinfo
    rw [hrefs]
    exact h.refs (by simp [hcall]) o ho info hinfo
  · intro o ho hun
    refine h.answered o ho ?_
    unfold Book.Unsent at hun ⊢
    rwa [hranks] at hun
  · exact h.failed
  · intro hnone
    cases hnone
  · intro call' hcall' n limits hlimits
    obtain rfl := Option.some.inj hcall'
    exact hcharges.within n limits hlimits
  · exact h.bounded
  · intro call' hcall' _
    obtain rfl := Option.some.inj hcall'
    refine ⟨fun n => ?_, hcharges, hedges, Or.inr ⟨Worker.mergeRoute route body, ranks, rfl,
      hfirst, fun n => ?_, fun n hn => ?_, hrouted.sent⟩⟩
    · show (call.ended n || Worker.unranked body n) = (b.closed n || (b.spent n || _))
      rw [hended, Bool.or_assoc]
    · rw [ranks_mergeRoute hbody]
      split
      · exact List.nodup_nil
      · exact hrouted.nodup n
    · have hover : (b.spent n || Worker.unranked body n) = false := hn
      rw [Bool.or_eq_false_iff] at hover
      rw [ranks_mergeRoute hbody, hover.2]
      exact hrouted.same n hover.1

/-- A route of a call that is being torn down is kept, if the call is still there. -/
theorem routeClientStreams_torn {call : ClientCall ν ρ κ τ β}
    (hcall : w.call = some call) (htorn : w.tornDown = true) (body : Route ν ρ κ) :
    ∃ call', w.routeClientStreams d body = { w with call := some call' } ∧
      call'.charged = call.charged := by
  unfold Worker.routeClientStreams
  simp only [hcall]
  cases call.route with
  | none =>
    simp only [htorn, if_true]
    exact ⟨_, rfl, rfl⟩
  | some route => exact ⟨_, rfl, rfl⟩

/-- A call that is gone gets nothing. -/
theorem routeClientStreams_gone (hcall : w.call = none) (body : Route ν ρ κ) :
    w.routeClientStreams d body = w := by
  unfold Worker.routeClientStreams
  rw [hcall]

/-- So it sends nothing. -/
theorem tornRoute (h : Inv d w b) (htorn : w.tornDown = true) (body : Route ν ρ κ) :
    Inv d (w.routeClientStreams d body) b := by
  cases hcall : w.call with
  | none =>
    rw [routeClientStreams_gone hcall]
    exact h
  | some call =>
    obtain ⟨call', hout, hcharged⟩ := routeClientStreams_torn (d := d) hcall htorn body
    rw [hout]
    refine ⟨h.due, ⟨h.fresh.nodup, h.fresh.below, h.fresh.unborn⟩, ?_, h.answered, h.failed,
      ?_, ?_, h.bounded, ?_⟩
    · exact fun _ => h.refs (by simp [hcall])
    · intro hnone
      cases hnone
    · intro call'' hcall'' n limits hlimits
      obtain rfl := Option.some.inj hcall''
      rw [hcharged]
      exact h.within call hcall n limits hlimits
    · intro _ _ hno
      rw [htorn] at hno
      cases hno

end Inv

end Mstar.ClientStreams
