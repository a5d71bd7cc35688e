import Mstar.AdmissionAsks

/-!
# Admission in order

In every state the admission can reach, each waiting request is in exactly the
queues of what it asked, in the order requests first asked. Whatever happens
next, a request is granted all it asked or nothing, and not before an earlier
arrival that waits for the same. Once the waiting requests were tried, whoever is
first in all its queues was refused by a resource that has not grown since.
-/

namespace Mstar

namespace Admission

variable {Rid Node Walk Info State Mark Fault Key : Type} {order : List Key}
  {res : Key → Resource Rid Node Walk Info State Mark Fault} {holds : Key → State → Rid → Prop}
  {a b : Admission Rid Node Walk Info State Mark Key}

/-- What is true between operations. -/
structure Kept (order : List Key) (res : Key → Resource Rid Node Walk Info State Mark Fault)
    (holds : Key → State → Rid → Prop) (a : Admission Rid Node Walk Info State Mark Key) : Prop where
  /-- The queues and marks are sound. -/
  sound : Sound order res holds a
  /-- Every waiting request has a node that waits on it. -/
  noted : Noted a
  /-- Every request that is first in all its queues was refused or is to be tried. -/
  tried : ∀ rid, a.Tried rid

/-- The requests granted by an operation, from the state in which it tries them. -/
structure Granted (holds : Key → State → Rid → Prop)
    (a : Admission Rid Node Walk Info State Mark Key) (granted : List Rid)
    (b : Admission Rid Node Walk Info State Mark Key) : Prop where
  /-- Only requests that wait are granted something. -/
  waited : ∀ rid ∈ granted, a.waiting rid ≠ none
  /-- They wait no more, and all others still do. -/
  waiting : ∀ rid, (rid ∈ granted → b.waiting rid = none) ∧
    (rid ∉ granted → b.waiting rid = a.waiting rid)
  /-- Each is held all it asked, and no resource holds more or less otherwise. -/
  holds_iff : ∀ key rid, holds key (b.state key) rid ↔ holds key (a.state key) rid ∨
    (rid ∈ granted ∧ ∃ entry, a.waiting rid = some entry ∧ key ∈ entry.keys)
  /-- An earlier arrival that waits for the same is granted before. -/
  in_order : ∀ before rid after, granted = before ++ rid :: after →
    ∀ entry key, a.waiting rid = some entry → key ∈ entry.keys →
      ∀ earlier entry', a.waiting earlier = some entry' → key ∈ entry'.keys →
        a.number earlier < a.number rid → earlier ∈ before

/-- An operation's numbers: those there were, except a removed request's, and for
who first asks one after all others. -/
structure Numbered (a b : Admission Rid Node Walk Info State Mark Key) (op : Op Rid Node Walk Info State Key) :
    Prop where
  /-- A number stays until its request is removed. -/
  kept : ∀ rid n, op ≠ .removeRequest rid → a.arrival rid = some n → b.arrival rid = some n
  /-- A new number is after all others. -/
  stamped : ∀ rid n, b.arrival rid = some n → a.arrival rid = some n ∨
    (a.arrival rid = none ∧ ∀ rid' n', a.arrival rid' = some n' → n' < n)

/-- Where no arrival number changes. -/
theorem Numbered.of_eq (h : b.arrival = a.arrival) (op : Op Rid Node Walk Info State Key) :
    Numbered a b op := by
  constructor
  · intro rid n _ harrival
    rw [h]
    exact harrival
  · intro rid n harrival
    rw [h] at harrival
    exact .inl harrival

/-- An ask numbers its request alone. -/
theorem Numbered.of_asks {rid : Rid} (h : Asks order res holds a rid b) (hfiled : Filed order a)
    (op : Op Rid Node Walk Info State Key) : Numbered a b op := by
  constructor
  · intro rid' n _ harrival
    by_cases heq : rid' = rid
    · rw [heq] at harrival ⊢
      exact h.kept n harrival
    · rw [h.arrival rid' heq]
      exact harrival
  · intro rid' n harrival
    by_cases heq : rid' = rid
    · subst heq
      rcases h.stamped n harrival with hold | ⟨hnone, hle⟩
      · exact .inl hold
      · right
        constructor
        · exact hnone
        · intro other m hother
          have := hfiled.below other m hother
          omega
    · rw [h.arrival rid' heq] at harrival
      exact .inl harrival

/-- Nothing granted. -/
theorem Granted.none (hstate : b.state = a.state) (hwaiting : b.waiting = a.waiting) :
    Granted holds a [] b := by
  constructor
  · intro rid hrid
    cases hrid
  · intro rid
    rw [hwaiting]
    simp
  · intro key rid
    rw [hstate]
    simp
  · intro before rid after heq
    simp at heq

/-- A removed request waits for nothing, is in no queue, has no number and is admitted
on no node. Nothing else changes for the others. -/
structure Removed [DecidableEq Rid] (a : Admission Rid Node Walk Info State Mark Key) (rid : Rid)
    (b : Admission Rid Node Walk Info State Mark Key) : Prop where
  /-- It waits no more, the others as before. -/
  waiting : b.waiting = Function.update a.waiting rid none
  /-- It is in no queue. -/
  unqueued : ∀ key, rid ∉ b.queues key
  /-- The others keep their places. -/
  queues : ∀ key, b.queues key = (a.queues key).erase rid
  /-- It has no number, the others keep theirs. -/
  arrival : b.arrival = Function.update a.arrival rid none
  /-- It is admitted on no node. -/
  admitted : b.admitted = Function.update a.admitted rid []
  /-- No node of it is to start. -/
  started : b.started = a.started.filter (·.1 ≠ rid)

/-- What the answer of a node's check says, where the resources were asked on the way:
an admitted request counts as admitted on the node, a queued one waits with the node
noted, each resource was asked unless it was waited for already, and a failed request
waits nowhere. -/
def Checked (res : Key → Resource Rid Node Walk Info State Mark Fault)
    (a asked b : Admission Rid Node Walk Info State Mark Key) (rid : Rid) (node : Node) (walk : Walk)
    (keys : List Key) : Outcome Fault Key → Prop
  | .admitted => node ∈ b.admitted rid ∧ ∀ key ∈ keys, key ∈ asked.awaits rid ∨
      ((res key).ask (a.state key) rid node walk).1 = .served
  | .queued => (∃ entry, b.waiting rid = some entry ∧ node ∈ entry.nodes) ∧
      ∀ key ∈ keys, key ∈ b.awaits rid ∨ ((res key).ask (a.state key) rid node walk).1 = .served
  | .failed _ _ => b.waiting rid = none

variable [DecidableEq Rid]

/-- Tries in a row grant the requests they admit. -/
theorem Tries.granted_of [DecidableEq Key] {granted : List Rid} (h : Tries res holds a granted b)
    (hsound : Sound order res holds a) : Granted holds a granted b := by
  constructor
  · intro rid hrid
    obtain ⟨entry, hentry⟩ := h.waited hrid
    rw [hentry]
    exact Option.some_ne_none entry
  · intro rid
    constructor
    · intro hmem
      rw [h.waiting, if_pos hmem]
    · intro hmem
      rw [h.waiting, if_neg hmem]
  · exact h.holds_iff
  · intro before rid after hgranted entry key hentry hkey earlier entry' hearlier hkey' hlt
    exact h.in_order hsound hgranted hentry hkey hearlier hkey' hlt

variable [DecidableEq Node] [DecidableEq Key]

/-- The state an operation has left when it comes to try requests. -/
def asked (res : Key → Resource Rid Node Walk Info State Mark Fault)
    (a : Admission Rid Node Walk Info State Mark Key) :
    Op Rid Node Walk Info State Key → Admission Rid Node Walk Info State Mark Key
  | .admitRequest rid node walk published keys => (asking res a rid node walk published keys).2
  | .admitWaiting _ => a
  | .removeRequest rid => a.removeRequest rid
  | .others state => { a with state := state }

/-- A request tried for its own node's check. -/
theorem tryFirst_kept (hc : ∀ key, Contract (res key) (holds key)) (hsound : Sound order res holds a)
    (hnoted : Noted a) {rid : Rid} (htried : ∀ rid', rid' ≠ rid → a.Tried rid')
    (hwaits : a.waiting rid ≠ none) (node : Node) :
    Kept order res holds (tryFirst res a rid node).2 ∧
      (tryFirst res a rid node).2.arrival = a.arrival ∧
      ∃ granted, Granted holds a granted (tryFirst res a rid node).2 := by
  obtain ⟨entry, hentry⟩ := Option.ne_none_iff_exists'.1 hwaits
  unfold tryFirst
  rw [hentry]
  dsimp only
  by_cases hfirst : a.first rid entry = true
  · rw [if_pos hfirst]
    rcases reserve_cases hc hsound hentry entry.published with ⟨b, hb, h⟩ | ⟨b, hb, h⟩
    · rw [hb]
      have htry : Tries res holds a [] b := .refused hentry hfirst h (.done b)
      obtain ⟨hqueues, hwaiting, huntried, hshort⟩ := htry.none_granted
      refine ⟨⟨htry.sound hsound, htry.noted hnoted, ?_⟩, h.arrival, [], htry.granted_of hsound⟩
      intro rid' hfalse entry' hentry' hheads
      by_cases heq : rid' = rid
      · subst heq
        obtain ⟨key, hkey, mark, hmark, -⟩ := h.mark
        rw [hwaiting, hentry] at hentry'
        cases hentry'
        refine ⟨key, hkey, ?_⟩
        rw [hmark]
        simp
      · rw [huntried] at hfalse
        rw [hwaiting] at hentry'
        have hheads' : a.Heads rid' entry' := by
          intro key hkey
          rw [← hqueues]
          exact hheads key hkey
        obtain ⟨key, hkey, hmarked⟩ := htried rid' heq hfalse entry' hentry' hheads'
        exact ⟨key, hkey, hshort key hmarked⟩
    · rw [hb]
      obtain ⟨one, nodes, hnodes⟩ := List.exists_cons_of_ne_nil (hnoted rid entry hentry)
      rw [hnodes]
      dsimp only
      generalize hb' : (if (one :: nodes).filter (· ≠ node) = [] then b
        else { b with started := startAlso rid ((one :: nodes).filter (· ≠ node)) b.started }) = b'
      -- the nodes to start are no matter of the queues
      have h' : Grant holds a rid entry b' := by
        rw [← hb']
        split
        next => exact h
        next =>
          exact ⟨⟨h.left.waiting, h.left.queues, h.left.short, h.left.untried, h.left.arrival,
            h.left.arrivals, rfl⟩, h.state, h.holds_iff⟩
      have htry : Tries res holds a [rid] b' := .granted hentry hfirst h' (.done b')
      refine ⟨⟨htry.sound hsound, htry.noted hnoted, ?_⟩, htry.arrival, [rid], htry.granted_of hsound⟩
      intro rid'
      exact h'.left.tried (hsound.filed.of_same rfl rfl rfl rfl) (htried rid')
  · rw [if_neg hfirst]
    refine ⟨⟨hsound, hnoted, ?_⟩, rfl, [], Granted.none rfl rfl⟩
    intro rid' hfalse entry' hentry' hheads
    by_cases heq : rid' = rid
    · subst heq
      rw [hentry] at hentry'
      cases hentry'
      rw [first_iff, not_and] at hfirst
      have hmarked := hfirst hheads
      push Not at hmarked
      exact hmarked
    · exact htried rid' heq hfalse entry' hentry' hheads

/-- A node's check keeps what is true between operations. -/
theorem admitRequest_kept (hc : ∀ key, Contract (res key) (holds key)) (h : Kept order res holds a)
    {rid : Rid} {node : Node} {walk : Walk} {published : Published Key Info} {keys : List Key}
    (hkeys : keys ⊆ order) :
    Kept order res holds (admitRequest res a rid node walk published keys).2 ∧
      Numbered a (admitRequest res a rid node walk published keys).2
        (.admitRequest rid node walk published keys) ∧
      (∀ key rid', holds key ((asking res a rid node walk published keys).2.state key) rid' →
        holds key (a.state key) rid') ∧
      ∃ granted, Granted holds (asking res a rid node walk published keys).2 granted
        (admitRequest res a rid node walk published keys).2 := by
  unfold admitRequest asking
  cases hask : askKeys res rid node walk keys false a with
  | mk out b =>
    obtain ⟨hasked, -⟩ := askKeys_asked hc h.sound hkeys (by simp) hask
    have hasks := hasked.asks
    have hold : ∀ key rid', holds key (b.state key) rid' → holds key (a.state key) rid' :=
      fun key rid' => (hasks.holds_iff key rid').1
    have hothers : ∀ rid' entry, rid' ≠ rid → b.waiting rid' = some entry → entry.nodes ≠ [] := by
      intro rid' entry hne hentry
      rw [hasks.waiting rid' hne] at hentry
      exact h.noted rid' entry hentry
    rcases out with reason | ⟨_ | _⟩
    · -- the request failed and is in no queue
      have hnone := hasked.failed reason rfl
      refine ⟨⟨hasks.sound, ?_, ?_⟩, Numbered.of_asks hasks h.sound.filed _, hold, [],
        Granted.none rfl rfl⟩
      · intro rid' entry hentry
        apply hothers rid' entry _ hentry
        rintro rfl
        rw [hnone] at hentry
        cases hentry
      · intro rid' hfalse entry hentry hheads
        have hne : rid' ≠ rid := by
          rintro rfl
          rw [hnone] at hentry
          cases hentry
        exact hasks.tried rid' hne (h.tried rid') hfalse entry hentry hheads
    · -- nothing was asked that it does not have
      obtain ⟨state, rfl⟩ := hasked.served rfl
      refine ⟨⟨?_, h.noted, h.tried⟩, ?_, hold, [], Granted.none rfl rfl⟩
      · exact ⟨hasks.sound.filed.of_same rfl rfl rfl rfl, hasks.sound.marked, hasks.sound.unheld⟩
      · exact Numbered.of_eq (a := a) (b := admitOn { a with state := state } rid [node]) rfl _
    · have hnote := asks_note hasks.sound rid node published
      have hwaiting := hasked.waits rfl
      obtain ⟨entry, hentry⟩ := Option.ne_none_iff_exists'.1 hwaiting
      have hself := waiting_note hentry node published
      have hnoted : Noted (b.note rid node published) := by
        intro rid' entry' hentry'
        by_cases heq : rid' = rid
        · subst heq
          rw [hself] at hentry'
          cases hentry'
          unfold add
          dsimp only
          split
          next hmem => exact List.ne_nil_of_mem hmem
          next => simp
        · rw [hnote.waiting rid' heq] at hentry'
          exact hothers rid' entry' heq hentry'
      have htried : ∀ rid', rid' ≠ rid → (b.note rid node published).Tried rid' :=
        fun rid' hne => (hasks.trans hnote).tried rid' hne (h.tried rid')
      have hwaits : (b.note rid node published).waiting rid ≠ none := by
        rw [hself]
        exact Option.some_ne_none _
      obtain ⟨hkept, harrival, hgranted⟩ := tryFirst_kept hc hnote.sound hnoted htried hwaits node
      refine ⟨hkept, ?_, hold, hgranted⟩
      have hnumbered := Numbered.of_asks (hasks.trans hnote) h.sound.filed
        (.admitRequest rid node walk published keys : Op Rid Node Walk Info State Key)
      constructor
      · intro rid' n hop hn
        rw [harrival]
        exact hnumbered.kept rid' n hop hn
      · intro rid' n hn
        rw [harrival] at hn
        exact hnumbered.stamped rid' n hn

omit [DecidableEq Rid] [DecidableEq Key] in
/-- What is added is there. -/
theorem mem_addAll {more nodes : List Node} {node : Node} (h : node ∈ more) :
    node ∈ addAll more nodes := by
  have hmem : ∀ (xs : List Node) (ys : List Node), node ∈ xs ∨ node ∈ ys → node ∈ addAll xs ys := by
    intro xs
    induction xs with
    | nil => exact fun ys hys => hys.resolve_left List.not_mem_nil
    | cons x xs ih =>
      intro ys hys
      refine ih (add x ys) ?_
      unfold add
      rcases hys with hx | hys
      · rcases List.mem_cons.1 hx with rfl | hx
        · right
          split
          next hin => exact hin
          next => simp
        · exact .inl hx
      · right
        split
        next => exact hys
        next => exact List.mem_append_left _ hys
  exact hmem more nodes (.inl h)

/-- What is reserved for a request is for all nodes that wait on it. -/
theorem mem_admitted_of_reserve {rid : Rid} {publishedOf : Node → Published Key Info}
    {nodes : List Node} (h : reserve res a rid publishedOf = (some nodes, b)) {node : Node}
    (hnode : node ∈ nodes) : node ∈ b.admitted rid := by
  unfold reserve at h
  split at h
  next => cases h
  next entry _ =>
    split at h
    next => cases h
    next a' _ =>
      cases h
      change node ∈ Function.update (dequeue a' rid).admitted rid
        (addAll entry.nodes ((dequeue a' rid).admitted rid)) rid
      rw [Function.update_self]
      exact mem_addAll hnode

/-- A request tried for a node's check is admitted on the node, or waits as before. -/
theorem tryFirst_checked (hc : ∀ key, Contract (res key) (holds key))
    (hsound : Sound order res holds a) (hnoted : Noted a) {rid : Rid}
    {entry : Waiting Node Walk Key Info} (hentry : a.waiting rid = some entry) {node : Node}
    (hnode : node ∈ entry.nodes) :
    (tryFirst res a rid node).1 = .admitted ∧ node ∈ (tryFirst res a rid node).2.admitted rid ∨
      (tryFirst res a rid node).1 = .queued ∧
        (tryFirst res a rid node).2.waiting rid = some entry := by
  unfold tryFirst
  rw [hentry]
  dsimp only
  by_cases hfirst : a.first rid entry = true
  · rw [if_pos hfirst]
    rcases reserve_cases hc hsound hentry entry.published with ⟨b, hb, h⟩ | ⟨b, hb, h⟩
    · rw [hb]
      have htry : Tries res holds a [] b := .refused hentry hfirst h (.done b)
      right
      exact ⟨rfl, by rw [htry.none_granted.2.1, hentry]⟩
    · have hadmitted := mem_admitted_of_reserve hb hnode
      rw [hb]
      obtain ⟨one, nodes, hnodes⟩ := List.exists_cons_of_ne_nil (hnoted rid entry hentry)
      rw [hnodes]
      left
      refine ⟨rfl, ?_⟩
      dsimp only
      split
      next => exact hadmitted
      next => exact hadmitted
  · rw [if_neg hfirst]
    exact .inr ⟨rfl, hentry⟩

/-- The answer of a node's check is true. -/
theorem admitRequest_checked (hc : ∀ key, Contract (res key) (holds key))
    (h : Kept order res holds a) {rid : Rid} {node : Node} {walk : Walk}
    {published : Published Key Info} {keys : List Key} (hkeys : keys ⊆ order) :
    Checked res a (asking res a rid node walk published keys).2
      (admitRequest res a rid node walk published keys).2 rid node walk keys
      (admitRequest res a rid node walk published keys).1 := by
  unfold admitRequest asking
  cases hask : askKeys res rid node walk keys false a with
  | mk out b =>
    obtain ⟨hasked, -⟩ := askKeys_asked hc h.sound hkeys (by simp) hask
    rcases out with reason | ⟨_ | _⟩
    · obtain ⟨fault, key⟩ := reason
      exact hasked.failed (fault, key) rfl
    · refine ⟨?_, (askKeys_covers hask).2⟩
      change node ∈ Function.update b.admitted rid (addAll [node] (b.admitted rid)) rid
      rw [Function.update_self]
      exact mem_addAll List.mem_cons_self
    · obtain ⟨entry, hentry⟩ := Option.ne_none_iff_exists'.1 (hasked.waits rfl)
      have hcovers := (askKeys_covers hask).2
      have hnote := asks_note hasked.asks.sound rid node published
      have hself := waiting_note hentry node published
      have hawaits : (b.note rid node published).awaits rid = b.awaits rid := by
        unfold awaits
        rw [hself, hentry]
        rfl
      have hnode : node ∈ add node entry.nodes := by
        unfold add
        split
        next hmem => exact hmem
        next => simp
      have hnoted : Noted (b.note rid node published) := by
        intro rid' entry' hentry'
        by_cases heq : rid' = rid
        · subst heq
          rw [hself] at hentry'
          cases hentry'
          exact List.ne_nil_of_mem hnode
        · rw [hnote.waiting rid' heq, hasked.asks.waiting rid' heq] at hentry'
          exact h.noted rid' entry' hentry'
      rcases tryFirst_checked hc hnote.sound hnoted hself hnode with ⟨hout, hadmitted⟩ | ⟨hout, hwaits⟩
      · dsimp only
        rw [hout]
        refine ⟨hadmitted, ?_⟩
        rw [hawaits]
        exact hcovers
      · dsimp only
        rw [hout]
        refine ⟨⟨_, hwaits, hnode⟩, ?_⟩
        intro key hkey
        refine (hcovers key hkey).imp_left fun hmem => ?_
        rw [← hawaits] at hmem
        unfold awaits at hmem ⊢
        rw [hwaits]
        rwa [hself] at hmem

omit [DecidableEq Rid] [DecidableEq Node] in
/-- Dropping the marks of the resources that grew leaves none that did. -/
theorem forget_notGrown (hsound : Sound order res holds a) :
    NotGrown res (a.forget (grown res order a)) := by
  intro key mark hshort
  unfold forget at hshort
  dsimp only at hshort
  split at hshort
  next => cases hshort
  next hkey =>
    obtain ⟨rid, hhead, -⟩ := hsound.marked key mark hshort
    obtain ⟨entry, hentry, hasked⟩ := hsound.filed.waiting_of_head hhead
    have horder := hsound.filed.known rid entry hentry hasked
    unfold grown at hkey
    rw [List.mem_filter, not_and] at hkey
    have hgrew := hkey horder
    rw [hshort, Option.any_some, Bool.not_eq_true] at hgrew
    exact hgrew

/-- Trying the waiting requests keeps what is true between operations, and leaves
nobody first in all its queues that no resource refused. -/
theorem admitWaiting_kept (hc : ∀ key, Contract (res key) (holds key)) (h : Kept order res holds a)
    (publishedOf : Rid → Node → Published Key Info) :
    Kept order res holds (admitWaiting res order a publishedOf).2 ∧
      (admitWaiting res order a publishedOf).2.arrival = a.arrival ∧
      (∃ granted, Granted holds a granted (admitWaiting res order a publishedOf).2) ∧
      Settled (admitWaiting res order a publishedOf).2 ∧
      NotGrown res (admitWaiting res order a publishedOf).2 := by
  have hsound : Sound order res holds { a with started := [] } :=
    ⟨h.sound.filed.of_same rfl rfl rfl rfl, h.sound.marked, h.sound.unheld⟩
  have hforget := forget_notGrown hsound
  unfold admitWaiting
  dsimp only
  split
  next hempty =>
    -- no queue has a request, so nobody waits
    have hnobody : ∀ rid, a.waiting rid = none := by
      intro rid
      cases hwaiting : a.waiting rid with
      | none => rfl
      | some entry =>
        obtain ⟨key, hkey⟩ := List.exists_mem_of_ne_nil _ (h.sound.filed.asked rid entry hwaiting)
        have hmem := (h.sound.filed.queued rid key).2 ⟨entry, hwaiting, hkey⟩
        have hnil := List.all_eq_true.1 hempty key (h.sound.filed.known rid entry hwaiting hkey)
        rw [List.isEmpty_iff] at hnil
        rw [hnil] at hmem
        cases hmem
    refine ⟨⟨hsound, h.noted, h.tried⟩, rfl, ⟨[], Granted.none rfl rfl⟩, ?_, ?_⟩
    · intro rid entry hentry
      rw [hnobody rid] at hentry
      cases hentry
    · intro key mark hshort
      obtain ⟨rid, hhead, -⟩ := h.sound.marked key mark hshort
      obtain ⟨entry, hentry, -⟩ := h.sound.filed.waiting_of_head hhead
      rw [hnobody rid] at hentry
      cases hentry
  next =>
    split
    next hidle =>
      refine ⟨⟨hsound, h.noted, h.tried⟩, rfl, ⟨[], Granted.none rfl rfl⟩, ?_, ?_⟩
      · exact fun rid entry hentry hheads => h.tried rid hidle.2 entry hentry hheads
      · rw [hidle.1] at hforget
        exact hforget
    next =>
      generalize hkeys : grown res order { a with started := [] } = keys at hforget
      have hsound' : Sound order res holds (forget { a with started := [] } keys) := by
        refine ⟨h.sound.filed.of_same rfl rfl rfl rfl, ?_, h.sound.unheld⟩
        intro key mark hshort
        unfold forget at hshort
        dsimp only at hshort
        split at hshort
        next => cases hshort
        next => exact h.sound.marked key mark hshort
      obtain ⟨granted, htries, hsettled⟩ := sweeps_settle hc hsound' h.noted publishedOf
        (Nat.lt_succ_self (queued order (forget { a with started := [] } keys)))
      generalize (sweeps res order publishedOf
        (queued order (forget { a with started := [] } keys) + 1)
        (forget { a with started := [] } keys)).2 = b at htries hsettled
      have hkept := htries.sound hsound'
      refine ⟨⟨?_, htries.noted h.noted, ?_⟩, htries.arrival, ⟨granted, ?_⟩, hsettled,
        htries.notGrown hforget⟩
      · exact ⟨hkept.filed.of_same rfl rfl rfl rfl, hkept.marked, hkept.unheld⟩
      · exact fun rid _ entry hentry hheads => hsettled rid entry hentry hheads
      · have hgranted := htries.granted_of hsound'
        exact ⟨hgranted.waited, hgranted.waiting, hgranted.holds_iff, hgranted.in_order⟩

omit [DecidableEq Node] in
/-- Leaving the queues touches no node a request was admitted on. -/
theorem dequeue_admitted (rid : Rid) :
    (a.dequeue rid).admitted = a.admitted ∧ (a.dequeue rid).started = a.started := by
  have hleave : ∀ (keys : List Key) (x : Admission Rid Node Walk Info State Mark Key),
      (leave rid keys x).admitted = x.admitted ∧ (leave rid keys x).started = x.started := by
    intro keys
    induction keys with
    | nil => exact fun x => ⟨rfl, rfl⟩
    | cons key keys ih =>
      intro x
      unfold leave
      obtain ⟨hadmitted, hstarted⟩ := ih _
      rw [hadmitted, hstarted]
      dsimp only
      split
      next => exact ⟨rfl, rfl⟩
      next => exact ⟨rfl, rfl⟩
  unfold dequeue
  split
  next => exact ⟨rfl, rfl⟩
  next entry _ => exact hleave entry.keys _

omit [DecidableEq Node] in
/-- Removing a request keeps what is true between operations. -/
theorem removeRequest_kept (h : Kept order res holds a) (rid : Rid) :
    Kept order res holds (a.removeRequest rid) ∧
      Numbered a (a.removeRequest rid) (.removeRequest rid : Op Rid Node Walk Info State Key) ∧
      (a.removeRequest rid).state = a.state := by
  have hleft := dequeue_left h.sound.filed rid
  have hfiled := hleft.filed h.sound.filed
  have harrival : ∀ rid', rid' ≠ rid → (a.removeRequest rid).arrival rid' = a.arrival rid' := by
    intro rid' hne
    rw [← hleft.arrival]
    exact Function.update_of_ne hne _ _
  have hnone : (a.removeRequest rid).arrival rid = none := Function.update_self ..
  have hwaited : ∀ rid' entry, (a.dequeue rid).waiting rid' = some entry → rid' ≠ rid :=
    fun rid' entry hentry => (hleft.waited hentry).1
  refine ⟨⟨⟨?_, ?_, ?_⟩, ?_, ?_⟩, ?_, hleft.state⟩
  · constructor
    · exact hfiled.queued
    · intro key
      refine (hfiled.sorted key).imp_of_mem ?_
      intro r r' hr hr' hlt
      obtain ⟨entry, hentry, -⟩ := (hfiled.queued r key).1 hr
      obtain ⟨entry', hentry', -⟩ := (hfiled.queued r' key).1 hr'
      unfold number at hlt ⊢
      rw [harrival r (hwaited r entry hentry), harrival r' (hwaited r' entry' hentry')]
      rw [hleft.arrival] at hlt
      exact hlt
    · intro rid' entry hentry
      rw [harrival rid' (hwaited rid' entry hentry), ← hleft.arrival]
      exact hfiled.numbered rid' entry hentry
    · intro rid' n hn
      by_cases heq : rid' = rid
      · rw [heq, hnone] at hn
        cases hn
      · rw [harrival rid' heq] at hn
        exact Nat.lt_of_lt_of_eq (h.sound.filed.below rid' n hn) hleft.arrivals.symm
    · intro r r' n hr hr'
      by_cases heq : r = rid
      · rw [heq, hnone] at hr
        cases hr
      · by_cases heq' : r' = rid
        · rw [heq', hnone] at hr'
          cases hr'
        · rw [harrival r heq] at hr
          rw [harrival r' heq'] at hr'
          exact h.sound.filed.distinct r r' n hr hr'
    · exact hfiled.nodup
    · exact hfiled.known
    · exact hfiled.asked
  · exact hleft.marked h.sound.marked
  · exact (asks_dequeue h.sound rid).sound.unheld
  · intro rid' entry hentry
    exact h.noted rid' entry (hleft.waited hentry).2
  · exact fun rid' => hleft.tried h.sound.filed fun _ => h.tried rid'
  · constructor
    · intro rid' n hop hn
      have hne : rid' ≠ rid := by
        rintro rfl
        exact hop rfl
      rw [harrival rid' hne]
      exact hn
    · intro rid' n hn
      by_cases heq : rid' = rid
      · rw [heq, hnone] at hn
        cases hn
      · rw [harrival rid' heq] at hn
        exact .inl hn

omit [DecidableEq Node] in
/-- Removing a request leaves nothing of it. -/
theorem removeRequest_removed (hsound : Sound order res holds a) (rid : Rid) :
    Removed a rid (a.removeRequest rid) := by
  have hleft := dequeue_left hsound.filed rid
  have hnodup : ∀ key, (a.queues key).Nodup := by
    intro key
    refine (hsound.filed.sorted key).imp ?_
    rintro r r' hlt rfl
    omega
  have hdequeue : (a.dequeue rid).admitted = a.admitted ∧ (a.dequeue rid).started = a.started :=
    dequeue_admitted rid
  constructor
  · exact hleft.waiting
  · intro key
    change rid ∉ (a.dequeue rid).queues key
    rw [hleft.queues]
    exact (hnodup key).not_mem_erase
  · exact hleft.queues
  · change Function.update (a.dequeue rid).arrival rid none = _
    rw [hleft.arrival]
  · change Function.update (a.dequeue rid).admitted rid [] = _
    rw [hdequeue.1]
  · change (a.dequeue rid).started.filter (·.1 ≠ rid) = _
    rw [hdequeue.2]

/-- An operation keeps what is true between operations, in order. -/
theorem step_kept (hc : ∀ key, Contract (res key) (holds key)) (h : Kept order res holds a)
    (op : Op Rid Node Walk Info State Key) (hop : Enabled order holds a op) :
    Kept order res holds (step res order a op) ∧ Numbered a (step res order a op) op ∧
      (∀ key rid, holds key ((asked res a op).state key) rid → holds key (a.state key) rid) ∧
      ∃ granted, Granted holds (asked res a op) granted (step res order a op) := by
  cases op with
  | admitRequest rid node walk published keys => exact admitRequest_kept hc h hop
  | admitWaiting publishedOf =>
    obtain ⟨hkept, harrival, hgranted, -, -⟩ := admitWaiting_kept hc h publishedOf
    exact ⟨hkept, Numbered.of_eq harrival _, fun _ _ hheld => hheld, hgranted⟩
  | removeRequest rid =>
    obtain ⟨hkept, hnumbered, hstate⟩ := removeRequest_kept h rid
    refine ⟨hkept, hnumbered, ?_, [], Granted.none rfl rfl⟩
    intro key rid' hheld
    change holds key ((a.removeRequest rid).state key) rid' at hheld
    rwa [hstate] at hheld
  | others state =>
    refine ⟨⟨h.sound.of_state hop, h.noted, h.tried⟩, ?_, hop, [], Granted.none rfl rfl⟩
    exact Numbered.of_eq (a := a) (b := { a with state := state }) rfl _

omit [DecidableEq Rid] [DecidableEq Node] [DecidableEq Key] in
/-- A fresh admission keeps its promises. -/
theorem fresh_kept (state : Key → State) :
    Kept order res holds (fresh state : Admission Rid Node Walk Info State Mark Key) := by
  constructor
  · constructor
    · constructor <;> simp [fresh]
    · simp [fresh]
    · simp [fresh]
  · simp [Noted, fresh]
  · intro rid _ entry hentry
    cases hentry

/-- So does every reachable one. -/
theorem Reachable.kept (hc : ∀ key, Contract (res key) (holds key))
    (h : Reachable res order holds a) : Kept order res holds a := by
  induction h with
  | fresh state => exact fresh_kept state
  | step h op hop ih => exact (step_kept hc ih op hop).1

omit [DecidableEq Rid] [DecidableEq Node] [DecidableEq Key] in
/-- The earliest arrival of those that wait is first in all its queues. -/
theorem Filed.earliest_heads (h : Filed order a) {rid : Rid} {entry : Waiting Node Walk Key Info}
    (hentry : a.waiting rid = some entry)
    (hmin : ∀ rid' entry', a.waiting rid' = some entry' → a.number rid ≤ a.number rid') :
    a.Heads rid entry := by
  intro key hkey
  have hmem := (h.queued rid key).2 ⟨entry, hentry, hkey⟩
  have hsorted := h.sorted key
  cases hqueue : a.queues key with
  | nil => simp [hqueue] at hmem
  | cons r queue =>
    have hhead : (a.queues key).head? = some r := by rw [hqueue, List.head?_cons]
    obtain ⟨entry', hentry', -⟩ := h.waiting_of_head hhead
    rw [hqueue] at hmem hsorted
    rcases List.mem_cons.1 hmem with rfl | hmem
    · rfl
    · have hlt := (List.pairwise_cons.1 hsorted).1 rid hmem
      have hle := hmin r entry' hentry'
      omega

omit [DecidableEq Rid] [DecidableEq Node] [DecidableEq Key] in
/-- If anybody waits, somebody no later is first in all its queues. -/
theorem Filed.exists_first (h : Filed order a) {rid : Rid} (hwaits : a.waiting rid ≠ none) :
    ∃ first entry, a.waiting first = some entry ∧ a.Heads first entry ∧
      a.number first ≤ a.number rid := by
  induction hn : a.number rid using Nat.strong_induction_on generalizing rid with
  | _ n ih =>
    subst hn
    obtain ⟨entry, hentry⟩ := Option.ne_none_iff_exists'.1 hwaits
    by_cases hmin : ∀ rid' entry', a.waiting rid' = some entry' → a.number rid ≤ a.number rid'
    · exact ⟨rid, entry, hentry, h.earliest_heads hentry hmin, Nat.le_refl _⟩
    · push Not at hmin
      obtain ⟨earlier, entry', hentry', hlt⟩ := hmin
      obtain ⟨first, entry, hentry, hheads, hle⟩ :=
        ih _ hlt (by rw [hentry']; exact Option.some_ne_none _) rfl
      exact ⟨first, entry, hentry, hheads, by omega⟩

/-- Admission in every state that can be reached. Who waits is in exactly the
queues of what it asked, in the order of first asks, with nothing reserved. A node's
check asks every resource and answers what is so. A removed request is nowhere. Any
operation numbers in that order, reserves everything or nothing for a request,
and grants no request before an earlier arrival that waits for the same. After
the waiting requests were tried, who is first in all its queues was refused by a
resource that has not grown since, and the earliest arrival is always first. -/
theorem fifo_all_or_nothing (hc : ∀ key, Contract (res key) (holds key))
    (h : Reachable res order holds a) :
    Filed order a ∧
    (∀ rid entry key, a.waiting rid = some entry → key ∈ entry.keys →
      ¬ holds key (a.state key) rid) ∧
    (∀ op : Op Rid Node Walk Info State Key, Enabled order holds a op →
      Numbered a (step res order a op) op ∧
      (∀ key rid, holds key ((asked res a op).state key) rid → holds key (a.state key) rid) ∧
      ∃ granted, Granted holds (asked res a op) granted (step res order a op)) ∧
    (∀ publishedOf : Rid → Node → Published Key Info,
      ∀ rid entry, (admitWaiting res order a publishedOf).2.waiting rid = some entry →
        (admitWaiting res order a publishedOf).2.Heads rid entry →
        ∃ key ∈ entry.keys, ∃ mark,
          (admitWaiting res order a publishedOf).2.short key = some mark ∧
          Refused res key rid mark ∧
          (res key).grewSince ((admitWaiting res order a publishedOf).2.state key) mark = false) ∧
    (∀ rid, a.waiting rid ≠ none → ∃ first entry, a.waiting first = some entry ∧
      a.Heads first entry ∧ a.number first ≤ a.number rid) ∧
    (∀ rid node walk published keys, keys ⊆ order →
      Checked res a (asking res a rid node walk published keys).2
        (admitRequest res a rid node walk published keys).2 rid node walk keys
        (admitRequest res a rid node walk published keys).1) ∧
    ∀ rid, Removed a rid (a.removeRequest rid) := by
  have hkept := h.kept hc
  refine ⟨hkept.sound.filed, hkept.sound.unheld, ?_, ?_, ?_,
    fun rid node walk published keys hkeys => admitRequest_checked hc hkept hkeys,
    fun rid => removeRequest_removed hkept.sound rid⟩
  · intro op hop
    exact (step_kept hc hkept op hop).2
  · intro publishedOf rid entry hentry hheads
    obtain ⟨hafter, -, -, hsettled, hnot⟩ := admitWaiting_kept hc hkept publishedOf
    obtain ⟨key, hkey, hshort⟩ := hsettled rid entry hentry hheads
    obtain ⟨mark, hmark⟩ := Option.ne_none_iff_exists'.1 hshort
    obtain ⟨rid', hhead, hrefused⟩ := hafter.sound.marked key mark hmark
    rw [hheads key hkey, Option.some.injEq] at hhead
    subst hhead
    exact ⟨key, hkey, mark, hmark, hrefused, hnot key mark hmark⟩
  · exact fun rid hwaits => hkept.sound.filed.exists_first hwaits

/-- A resource with room for one request. -/
def room : Resource ℕ ℕ Unit Unit (Option ℕ) Unit Unit where
  ask s rid _ _ := (if s = some rid then .served else .asks, s)
  reserve s rid _ _ _ := if s.isNone then (none, some rid) else (some (), s)
  unreserve s rid := if s = some rid then none else s
  grewSince s _ := s.isNone

/-- The room meets the contract. -/
theorem room_contract : Contract room fun s rid => s = some rid := by
  constructor
  · intro s rid node walk rid'
    rfl
  · intro s rid node walk hasks hholds
    simp [room, hholds] at hasks
  · intro s rid node walk info rid' hreserve
    cases s with
    | none =>
      simp only [room, Option.isNone_none, if_true, Option.some.injEq, reduceCtorEq, false_or]
      exact eq_comm
    | some other => simp [room] at hreserve
  · intro s rid node walk info mark rid' hreserve
    cases s with
    | none => simp [room] at hreserve
    | some other => simp [room]
  · intro s rid node walk info mark hreserve
    cases s with
    | none => simp [room] at hreserve
    | some other => simp [room]
  · intro s rid rid'
    by_cases heq : s = some rid
    · simp only [room, heq, if_true, Option.some.injEq, reduceCtorEq, false_iff, not_and]
      rintro rfl hne
      exact hne rfl
    · simp only [room, heq, if_false]
      constructor
      · rintro rfl
        exact ⟨rfl, fun h => heq (by rw [h])⟩
      · exact fun h => h.1

/-- Two requests ask a resource with room for one, and the second waits. -/
theorem fifo_all_or_nothing_room :
    ∃ a : Admission ℕ ℕ Unit Unit (Option ℕ) Unit Unit,
      Reachable (fun _ => room) [()] (fun _ s rid => s = some rid) a ∧ a.queues () = [2] ∧
        a.state () = some 1 ∧ Filed [()] a := by
  refine ⟨_, .step (.step (.fresh fun _ => none)
    (.admitRequest 1 0 () none [()]) (List.Subset.refl _)) (.admitRequest 2 0 () none [()]) (List.Subset.refl _),
    ?_, ?_, ?_⟩
  · rfl
  · rfl
  · exact (fifo_all_or_nothing (fun _ => room_contract) (.step (.step (.fresh fun _ => none)
      (.admitRequest 1 0 () none [()]) (List.Subset.refl _)) (.admitRequest 2 0 () none [()])
      (List.Subset.refl _))).1

end Admission

end Mstar
