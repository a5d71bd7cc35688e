import Mstar.ClientRoutes

/-!
# Runs of a call's client streams

A call opens, and then appends, routes, failures and the teardown come in any
order. At every point each rank has of each stream what it is due: the accepted
items in order, then at most one end, with their number.
-/

namespace Mstar.ClientStreams

variable {ν ρ κ π τ β : Type*} [DecidableEq ν] [DecidableEq ρ] [DecidableEq π]

/-- The call is there, and not being torn down. -/
def Worker.takesWork (w : Worker ν ρ κ π τ β) : Bool := w.call.isSome && !w.tornDown

/-- What the ledger gains with an append. -/
def Book.taking (d : Deployment ν π τ) (w : Worker ν ρ κ π τ β) (b : Book ν ρ τ β)
    (a : ClientAppend ν τ β) : Book ν ρ τ β :=
  if w.takesWork = true then b.append d w.nextUuid a else b.fail a

/-- What the ledger gains with a route. -/
def Book.routing (w : Worker ν ρ κ π τ β) (b : Book ν ρ τ β) (body : Route ν ρ κ) :
    Book ν ρ τ β :=
  if w.takesWork = true then b.routed body else b

/-- One step after the opening. The ends of an append name client streams, a route
names each rank once, and a later route only ends streams. -/
inductive Step (d : Deployment ν π τ) :
    Worker ν ρ κ π τ β → Book ν ρ τ β → Worker ν ρ κ π τ β → Book ν ρ τ β → Prop
  | append {w b} (a : ClientAppend ν τ β) (hends : ∀ n, a.ends n = true → n ∈ d.edges) :
      Step d w b (w.processStreamInput d a) (b.taking d w a)
  | route {w b} (body : Route ν ρ κ) (hnodup : ∀ n, (body.ranks n).Nodup)
      (hlater : b.ranks ≠ none → ∀ n ranks, body.workers n = some ranks → ranks = []) :
      Step d w b (w.routeClientStreams d body) (b.routing w body)
  /-- A failure, an abort or a drain. -/
  | drain {w b} : Step d w b w.beginDrain b
  | remove {w b} : Step d w b w.remove b

/-- The steps that follow. -/
inductive Follows (d : Deployment ν π τ) (w : Worker ν ρ κ π τ β) (b : Book ν ρ τ β) :
    Worker ν ρ κ π τ β → Book ν ρ τ β → Prop
  | refl : Follows d w b w b
  | step {v c v' c'} (h : Follows d w b v c) (hs : Step d v c v' c') : Follows d w b v' c'

/-- The runs of a call: it opens with the items and ends of its request. -/
inductive Runs (d : Deployment ν π τ) : Worker ν ρ κ π τ β → Book ν ρ τ β → Prop
  | opened (w : Worker ν ρ κ π τ β) (items : List (ν × List τ)) (ends : ν → Bool)
      (hends : ∀ n, ends n = true → n ∈ d.edges) (hsent : w.sent = [])
      (hborn : ∀ u, w.nextUuid ≤ u → w.refs u = 0) :
      Runs d (w.finishInput d items ends) (Book.opening d w.nextUuid items ends)
  | step {w b w' b'} (h : Runs d w b) (hs : Step d w b w' b') : Runs d w' b'

variable {d : Deployment ν π τ} {w w' : Worker ν ρ κ π τ β} {b b' : Book ν ρ τ β}

omit [DecidableEq ν] [DecidableEq ρ] [DecidableEq π] in
/-- A worker takes work while its call is up. -/
theorem takesWork_iff :
    w.takesWork = true ↔ (∃ call, w.call = some call) ∧ w.tornDown = false := by
  unfold Worker.takesWork
  rw [Bool.and_eq_true, Option.isSome_iff_exists, Bool.not_eq_true']

/-- Each step keeps the ledger. -/
theorem Inv.step (h : Inv d w b) (hs : Step d w b w' b') : Inv d w' b' := by
  cases hs with
  | append a hends =>
    unfold Book.taking
    split
    · rename_i htakes
      obtain ⟨⟨call, hcall⟩, hgoes⟩ := takesWork_iff.1 htakes
      exact h.append hcall hgoes a hends
    · rename_i htakes
      have htorn : w.tornDown = true := by
        cases hcall : w.call with
        | none => exact h.gone hcall
        | some call =>
          rw [takesWork_iff, not_and] at htakes
          exact (Bool.not_eq_false _).mp (htakes ⟨call, hcall⟩)
      have hout : w.processStreamInput d a = w := by
        unfold Worker.processStreamInput
        cases w.call with
        | none => rfl
        | some call => simp only [htorn, if_true]
      rw [hout]
      exact h.fail a rfl rfl rfl (fun _ hx => hx) htorn (fun hne => hne) h.within
  | route body hnodup hlater =>
    unfold Book.routing
    split
    · rename_i htakes
      obtain ⟨⟨call, hcall⟩, hgoes⟩ := takesWork_iff.1 htakes
      rcases (h.live call hcall hgoes).stage with hwait | ⟨route, ranks, hrouted⟩
      · exact h.firstRoute hcall hgoes hwait body hnodup
      · refine h.laterRoute hcall hgoes hrouted body (hlater ?_)
        rw [hrouted.first]
        exact Option.some_ne_none ranks
    · rename_i htakes
      refine h.tornRoute ?_ body
      cases hcall : w.call with
      | none => exact h.gone hcall
      | some call =>
        rw [takesWork_iff, not_and] at htakes
        exact (Bool.not_eq_false _).mp (htakes ⟨call, hcall⟩)
  | drain => exact h.drain
  | remove => exact h.remove

/-- Every run keeps the ledger. -/
theorem Runs.inv (h : Runs d w b) : Inv d w b := by
  induction h with
  | opened w items ends hends hsent hborn => exact opening_inv hends hsent hborn
  | step _ hs ih => exact ih.step hs

/-- A stream of which no more comes: its call is being torn down, its partition has
ended, or its ranks have their end. -/
def Over (w : Worker ν ρ κ π τ β) (b : Book ν ρ τ β) (n : ν) : Prop :=
  w.tornDown = true ∨ b.spent n = true ∨ b.ranks ≠ none ∧ b.closed n = true

omit [DecidableEq π] in
/-- A rank is due the same where a stream's items, end and ranks are the same. -/
theorem due_same {r : ρ} {n : ν} (haccepted : b'.accepted n = b.accepted n)
    (hclosed : b'.closed n = b.closed n) (hranks : b'.ranks = b.ranks) :
    b'.due r n = b.due r n := by
  unfold Book.due
  rw [haccepted, hclosed, hranks]

omit [DecidableEq ρ] [DecidableEq π] in
/-- An append leaves an ended stream as it was. -/
theorem append_ended {n : ν} (hn : (b.closed n || b.spent n) = true) (uuid : ℕ)
    (a : ClientAppend ν τ β) :
    (b.append d uuid a).accepted n = b.accepted n ∧
      (b.append d uuid a).closed n = b.closed n := by
  unfold Book.append
  cases loaded d a with
  | none => exact ⟨Inv.accepted_fail a n, rfl⟩
  | some items =>
    dsimp only
    split
    · constructor
      · unfold Book.accepted
        have hnone := given_live items (fun m => b.closed m || b.spent m) hn
        rw [acceptedOf_append, acceptedOf_append, acceptedOf_turnedAway rfl, acceptedOf_takenIn,
          carried_nil_of_given hnone, List.append_nil, List.append_nil]
      · rw [Bool.or_eq_true] at hn
        rcases hn with hn | hn <;> simp [hn]
    · exact ⟨Inv.accepted_fail a n, rfl⟩

omit [DecidableEq ρ] [DecidableEq π] in
/-- An append changes no rank and ends no partition. -/
theorem append_ranks (b : Book ν ρ τ β) (uuid : ℕ) (a : ClientAppend ν τ β) :
    (b.append d uuid a).ranks = b.ranks ∧ (b.append d uuid a).spent = b.spent := by
  unfold Book.append
  cases loaded d a with
  | none => exact ⟨rfl, rfl⟩
  | some items =>
    dsimp only
    split
    · exact ⟨rfl, rfl⟩
    · exact ⟨rfl, rfl⟩

/-- Once no more of a stream comes, a step sends none of it. -/
theorem Inv.over_step (h : Inv d w b) (hs : Step d w b w' b') {n : ν} (hover : Over w b n) :
    Over w' b' n ∧ ∀ r, deliveries w'.sent r n = deliveries w.sent r n := by
  have h' := h.step hs
  suffices hsame : Over w' b' n ∧ ∀ r, b'.due r n = b.due r n from
    ⟨hsame.1, fun r => by rw [h'.due, h.due, hsame.2]⟩
  cases hs with
  | append a hends =>
    unfold Book.taking
    split
    · rename_i htakes
      obtain ⟨⟨call, hcall⟩, hgoes⟩ := takesWork_iff.1 htakes
      obtain ⟨hranks, hparts⟩ := append_ranks (d := d) b w.nextUuid a
      have hended : (b.closed n || b.spent n) = true := by
        rw [Bool.or_eq_true]
        rcases hover with htorn | hpart | ⟨-, hclosed⟩
        · rw [hgoes] at htorn
          cases htorn
        · exact Or.inr hpart
        · exact Or.inl hclosed
      obtain ⟨haccepted, hclosed⟩ := append_ended (d := d) hended w.nextUuid a
      refine ⟨?_, fun r => due_same haccepted hclosed hranks⟩
      rcases hover with htorn | hpart | ⟨hfirst, hend⟩
      · rw [hgoes] at htorn
        cases htorn
      · exact Or.inr (Or.inl (by rw [hparts]; exact hpart))
      · exact Or.inr (Or.inr ⟨by rw [hranks]; exact hfirst, hclosed.trans hend⟩)
    · rename_i htakes
      have hout : w.processStreamInput d a = w := by
        unfold Worker.processStreamInput
        cases hcall : w.call with
        | none => rfl
        | some call =>
          rw [takesWork_iff, not_and] at htakes
          simp only [(Bool.not_eq_false _).mp (htakes ⟨call, hcall⟩), if_true]
      rw [hout]
      exact ⟨hover, fun r => due_same (Inv.accepted_fail a n) rfl rfl⟩
  | route body hnodup hlater =>
    unfold Book.routing
    split
    · rename_i htakes
      obtain ⟨⟨call, hcall⟩, hgoes⟩ := takesWork_iff.1 htakes
      have hfirst : b.ranks ≠ none := by
        rcases (h.live call hcall hgoes).stage with hwait | ⟨route, ranks, hrouted⟩
        · rcases hover with htorn | hpart | ⟨hfirst, -⟩
          · rw [hgoes] at htorn
            cases htorn
          · rw [hwait.spent] at hpart
            cases hpart
          · exact hfirst
        · rw [hrouted.first]
          exact Option.some_ne_none ranks
      have hranks : (b.routed body).ranks = b.ranks := by
        obtain ⟨ranks, hsome⟩ := Option.ne_none_iff_exists'.1 hfirst
        unfold Book.routed
        rw [hsome]
        rfl
      refine ⟨?_, fun r => due_same rfl rfl hranks⟩
      rcases hover with htorn | hpart | ⟨-, hend⟩
      · rw [hgoes] at htorn
        cases htorn
      · refine Or.inr (Or.inl ?_)
        show (b.spent n || _) = true
        rw [hpart, Bool.true_or]
      · exact Or.inr (Or.inr ⟨by rw [hranks]; exact hfirst, hend⟩)
    · rename_i htakes
      refine ⟨?_, fun r => rfl⟩
      cases hcall : w.call with
      | none =>
        rw [Inv.routeClientStreams_gone hcall]
        exact hover
      | some call =>
        rw [takesWork_iff, not_and] at htakes
        have htorn := (Bool.not_eq_false _).mp (htakes ⟨call, hcall⟩)
        obtain ⟨call', hout, -⟩ := Inv.routeClientStreams_torn (d := d) hcall htorn body
        rw [hout]
        exact Or.inl htorn
  | drain => exact ⟨Or.inl rfl, fun r => rfl⟩
  | remove => exact ⟨Or.inl rfl, fun r => rfl⟩

/-- Nor do the steps that follow. -/
theorem Follows.spent (hf : Follows d w b w' b') (h : Inv d w b) {n : ν} (hover : Over w b n) :
    Inv d w' b' ∧ Over w' b' n ∧ ∀ r, deliveries w'.sent r n = deliveries w.sent r n := by
  induction hf with
  | refl => exact ⟨h, hover, fun r => rfl⟩
  | step _ hs ih =>
    obtain ⟨hinv, hon, hsame⟩ := ih
    obtain ⟨hlast, hnone⟩ := hinv.over_step hs hon
    exact ⟨hinv.step hs, hlast, fun r => (hnone r).trans (hsame r)⟩

/-- A client stream reaches its ranks whole. In every run each rank has of each
stream what it is due, each item under a uuid of its own, and gets no more once the
call is torn down, the stream's partition has ended or its end is sent. What is not
sent was answered as late, where there is anyone to answer, or its call is being
torn down; or it is held until the route comes. An item has one reference for each
rank that got it. A charge is never past its limit, and it is the charge of what was
accepted while the call goes on. -/
theorem Runs.delivers_whole (h : Runs d w b) :
    (∀ r n, deliveries w.sent r n = b.due r n) ∧
    ((infosOf b.offers).map Prod.fst).Nodup ∧
    (∀ w' b', Follows d w b w' b' → ∀ n, Over w b n →
      ∀ r, deliveries w'.sent r n = deliveries w.sent r n) ∧
    (∀ o ∈ b.offers,
      (o.fate = .late → Answered w o) ∧
      (o.fate = .failed → w.tornDown = true) ∧
      ∀ infos, o.fate = .accepted infos →
        (∀ ranks, b.ranks = some ranks → ranks o.name = [] → Answered w o) ∧
        (b.ranks = none → w.tornDown = true ∨
          ∃ call, w.call = some call ∧
            o ∈ call.held.flatMap fun batch => takenIn batch.onLate batch.signals)) ∧
    (w.call ≠ none → ∀ o ∈ b.offers, ∀ info ∈ o.fate.infos, w.refs info.1 = b.refs o.name) ∧
    ∀ call, w.call = some call → ∀ n limits, d.limits n = some limits →
      call.charged n ≤ limits.maxItems ∧
        (w.tornDown = false → call.charged n = charge limits (b.tensors n)) := by
  have hinv := h.inv
  refine ⟨hinv.due, hinv.fresh.nodup, ?_, ?_, hinv.refs, ?_⟩
  · intro w' b' hf n hover
    exact (hf.spent hinv hover).2.2
  · intro o ho
    refine ⟨fun hlate => hinv.answered o ho (Or.inl hlate), hinv.failed o ho, ?_⟩
    intro infos hfate
    have haccepted : o.fate.isAccepted = true := by rw [hfate]; rfl
    refine ⟨fun ranks hranks hempty =>
      hinv.answered o ho (Or.inr ⟨haccepted, ranks, hranks, hempty⟩), fun hnone => ?_⟩
    cases htorn : w.tornDown with
    | true => exact Or.inl rfl
    | false =>
      right
      cases hcall : w.call with
      | none =>
        rw [hinv.gone hcall] at htorn
        cases htorn
      | some call =>
        refine ⟨call, rfl, ?_⟩
        rcases (hinv.live call hcall htorn).stage with hwait | ⟨route, ranks, hrouted⟩
        · rw [hwait.held]
          exact List.mem_filter.2 ⟨ho, haccepted⟩
        · rw [hrouted.first] at hnone
          cases hnone
  · intro call hcall n limits hlimits
    exact ⟨hinv.within call hcall n limits hlimits, fun hgoes =>
      (hinv.live call hcall hgoes).charges.stands n limits hlimits⟩

section Cases

/-- Two streams of one partition, the second of which takes no item. -/
def twoStreams : Deployment ℕ ℕ Unit where
  edges := [0, 1]
  nodup := by decide
  partition := fun _ => 0
  limits := fun n => some ⟨if n = 0 then 2 else 0, none⟩

/-- The data worker before the call. -/
def idleWorker : Worker ℕ ℕ Unit ℕ Unit ℕ := ⟨none, false, fun _ => 0, 0, [], []⟩

/-- A route of the first stream. -/
def firstTo (ranks : List ℕ) : Route ℕ ℕ Unit :=
  ⟨fun n => if n = 0 then some ranks else none, fun _ => ()⟩

/-- An append of one item to each of some streams. -/
def appendTo (names : List ℕ) (ends : ℕ → Bool) : ClientAppend ℕ Unit ℕ :=
  ⟨true, false, ends, some (names.map fun n => (n, [()])), some 5⟩

/-- The call opens with an item of the first stream. -/
def openedWorker : Worker ℕ ℕ Unit ℕ Unit ℕ :=
  idleWorker.finishInput twoStreams [(0, [()])] fun _ => false

/-- An opened worker is a run. -/
theorem runs_opened :
    Runs twoStreams openedWorker
      (Book.opening twoStreams 0 [(0, [()])] fun _ => false : Book ℕ ℕ Unit ℕ) :=
  Runs.opened idleWorker [(0, [()])] (fun _ => false) (fun _ h => by cases h) rfl fun _ _ => rfl

/-- A route to distinct ranks. -/
theorem nodup_firstTo {ranks : List ℕ} (h : ranks.Nodup) (n : ℕ) :
    ((firstTo ranks).ranks n).Nodup := by
  unfold firstTo Route.ranks
  dsimp only
  split
  · exact h
  · exact List.nodup_nil

/-- An item that came with the request, one that came after the route, and the end. -/
theorem delivers_whole_twoItems :
    deliveries (((openedWorker.routeClientStreams twoStreams (firstTo [7])).processStreamInput
        twoStreams (appendTo [0] fun n => n == 0)).sent) 7 0 =
      [.item (0, ()), .item (1, ()), .finish 2] := by
  have hroute := (runs_opened.step (Step.route (firstTo [7]) (nodup_firstTo (by decide))
    (fun h => absurd rfl h)))
  have happend := hroute.step (Step.append (appendTo [0] fun n => n == 0) fun n h => by
    have hn : n = 0 := by simpa [appendTo] using h
    subst hn
    decide)
  exact (happend.delivers_whole).1 7 0

/-- Not all that is unsent is answered, and not every charge is for accepted items.
An item that came with the request is dropped if the route gives its stream no rank,
and nobody is told; and an append that passes the limit of its second stream leaves
the charge of its first. -/
theorem dropped_unanswered :
    (∃ (w : Worker ℕ ℕ Unit ℕ Unit ℕ) (b : Book ℕ ℕ Unit ℕ), Runs twoStreams w b ∧
      w.tornDown = false ∧ b.accepted 0 = [(0, ())] ∧ b.ranks.isSome = true ∧
      w.sent = [] ∧ w.late = []) ∧
    ∃ (w : Worker ℕ ℕ Unit ℕ Unit ℕ) (b : Book ℕ ℕ Unit ℕ), Runs twoStreams w b ∧
      b.accepted 0 = [(0, ())] ∧ (w.call.map fun call => call.charged 0) = some 2 := by
  constructor
  · exact ⟨_, _, runs_opened.step (Step.route (firstTo []) (nodup_firstTo (by decide))
      (fun h => absurd rfl h)), rfl, rfl, rfl, rfl, rfl⟩
  · exact ⟨_, _, runs_opened.step (Step.append (appendTo [0, 1] fun _ => false)
      fun _ h => by cases h), rfl, rfl⟩

end Cases

end Mstar.ClientStreams
