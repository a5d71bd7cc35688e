import Mstar.AdmissionSweeps

/-!
# Asking

A node's check asks the node's resources one after the other. A request that must
wait is parked in a queue, one that can never fit leaves its queues. Nothing of
this reserves anything, and it makes no other request first that was not.
-/

namespace Mstar

namespace Admission

variable {Rid Node Walk Info State Mark Fault Key : Type} {order : List Key}
  {res : Key → Resource Rid Node Walk Info State Mark Fault} {holds : Key → State → Rid → Prop}
  {a b c : Admission Rid Node Walk Info State Mark Key} {rid : Rid}

/-- What asking for a request changes. -/
structure Asks (order : List Key) (res : Key → Resource Rid Node Walk Info State Mark Fault)
    (holds : Key → State → Rid → Prop) (a : Admission Rid Node Walk Info State Mark Key) (rid : Rid)
    (b : Admission Rid Node Walk Info State Mark Key) : Prop where
  /-- The queues and marks stay sound. -/
  sound : Sound order res holds b
  /-- Nothing is reserved or given back. -/
  holds_iff : ∀ key rid', holds key (b.state key) rid' ↔ holds key (a.state key) rid'
  /-- Other requests wait as before. -/
  waiting : ∀ rid', rid' ≠ rid → b.waiting rid' = a.waiting rid'
  /-- Others that were tried need no new try. -/
  tried : ∀ rid', rid' ≠ rid → a.Tried rid' → b.Tried rid'
  /-- Other requests keep their numbers. -/
  arrival : ∀ rid', rid' ≠ rid → b.arrival rid' = a.arrival rid'
  /-- A number the request has stays. -/
  kept : ∀ n, a.arrival rid = some n → b.arrival rid = some n
  /-- A new number is after all others. -/
  stamped : ∀ n, b.arrival rid = some n → a.arrival rid = some n ∨
    (a.arrival rid = none ∧ a.arrivals ≤ n)
  /-- Numbers count up. -/
  arrivals : a.arrivals ≤ b.arrivals

/-- Nothing asked. -/
theorem Asks.refl (hsound : Sound order res holds a) (rid : Rid) : Asks order res holds a rid a := by
  constructor
  · exact hsound
  · exact fun _ _ => Iff.rfl
  · exact fun _ _ => rfl
  · exact fun _ _ htried => htried
  · exact fun _ _ => rfl
  · exact fun _ harrival => harrival
  · exact fun _ harrival => .inl harrival
  · exact Nat.le_refl _

/-- Asks one after another. -/
theorem Asks.trans (h : Asks order res holds a rid b) (h' : Asks order res holds b rid c) :
    Asks order res holds a rid c := by
  constructor
  · exact h'.sound
  · intro key rid'
    rw [h'.holds_iff, h.holds_iff]
  · intro rid' hne
    rw [h'.waiting rid' hne, h.waiting rid' hne]
  · exact fun rid' hne htried => h'.tried rid' hne (h.tried rid' hne htried)
  · intro rid' hne
    rw [h'.arrival rid' hne, h.arrival rid' hne]
  · exact fun n harrival => h'.kept n (h.kept n harrival)
  · intro n harrival
    rcases h'.stamped n harrival with harrival | ⟨hnone, hle⟩
    · exact h.stamped n harrival
    · right
      constructor
      · cases harrival' : a.arrival rid with
        | none => rfl
        | some m =>
          rw [h.kept m harrival'] at hnone
          cases hnone
      · exact Nat.le_trans h.arrivals hle
  · exact Nat.le_trans h.arrivals h'.arrivals

section Noting

variable [DecidableEq Rid] [DecidableEq Node]

/-- Noting a node changes nothing a request waits for. -/
theorem note_keys (a : Admission Rid Node Walk Info State Mark Key) (rid : Rid) (node : Node)
    (published : Published Key Info) (rid' : Rid) :
    ((a.note rid node published).waiting rid').map Waiting.keys =
      (a.waiting rid').map Waiting.keys := by
  unfold note
  by_cases heq : rid' = rid
  · subst heq
    simp only [Function.update_self, Option.map_map]
    rfl
  · simp only [Function.update_of_ne heq]

/-- What a request waits for once a node is noted. -/
theorem waiting_note {rid : Rid} {entry : Waiting Node Walk Key Info}
    (h : a.waiting rid = some entry) (node : Node) (published : Published Key Info) :
    (a.note rid node published).waiting rid = some
      { entry with
        nodes := add node entry.nodes
        published := Function.update entry.published node published } := by
  unfold note
  rw [h]
  simp

/-- A node noted for a request that waits. -/
theorem asks_note (hsound : Sound order res holds a) (rid : Rid) (node : Node)
    (published : Published Key Info) :
    Asks order res holds a rid (a.note rid node published) := by
  have hothers : ∀ rid', rid' ≠ rid → (a.note rid node published).waiting rid' = a.waiting rid' := by
    intro rid' hne
    exact Function.update_of_ne hne _ _
  constructor
  · constructor
    · exact hsound.filed.of_keys rfl (note_keys a rid node published) rfl rfl
    · exact hsound.marked
    · intro rid' entry key hentry hkey
      have hkeys := note_keys a rid node published rid'
      rw [hentry] at hkeys
      obtain ⟨entry', hentry', hkeys⟩ := Option.map_eq_some_iff.1 hkeys.symm
      exact hsound.unheld rid' entry' key hentry' (hkeys ▸ hkey)
  · exact fun _ _ => Iff.rfl
  · exact hothers
  · intro rid' hne htried huntried entry hentry hheads
    rw [hothers rid' hne] at hentry
    exact htried huntried entry hentry hheads
  · exact fun _ _ => rfl
  · exact fun _ harrival => harrival
  · exact fun _ harrival => .inl harrival
  · exact Nat.le_refl _

end Noting

variable [DecidableEq Key]

/-- A resource that is asked reserves nothing. -/
theorem asks_setState (hc : ∀ key, Contract (res key) (holds key)) (hsound : Sound order res holds a)
    (rid : Rid) (node : Node) (walk : Walk) (key : Key) :
    Asks order res holds a rid (a.setState key ((res key).ask (a.state key) rid node walk).2) := by
  have hholds : ∀ key' rid', holds key'
      ((a.setState key ((res key).ask (a.state key) rid node walk).2).state key') rid' ↔
        holds key' (a.state key') rid' := by
    intro key' rid'
    by_cases h : key' = key
    · subst h
      simp only [setState, Function.update_self, (hc key').ask_holds]
    · simp only [setState, Function.update_of_ne h]
  constructor
  · exact hsound.of_state fun key' rid' => (hholds key' rid').1
  · exact hholds
  · exact fun _ _ => rfl
  · exact fun _ _ htried => htried
  · exact fun _ _ => rfl
  · exact fun _ harrival => harrival
  · exact fun _ harrival => .inl harrival
  · exact Nat.le_refl _

variable [DecidableEq Rid]

/-- A request that leaves its queues. -/
theorem asks_dequeue (hsound : Sound order res holds a) (rid : Rid) :
    Asks order res holds a rid (a.dequeue rid) := by
  have hleft := dequeue_left hsound.filed rid
  constructor
  · constructor
    · exact hleft.filed hsound.filed
    · exact hleft.marked hsound.marked
    · intro rid' entry key hentry hkey
      rw [hleft.state]
      exact hsound.unheld rid' entry key (hleft.waited hentry).2 hkey
  · intro key rid'
    rw [hleft.state]
  · exact fun rid' hne => hleft.waiting_of_ne hne
  · exact fun rid' _ htried => hleft.tried hsound.filed fun _ => htried
  · intro rid' _
    rw [hleft.arrival]
  · intro n harrival
    rw [hleft.arrival]
    exact harrival
  · intro n harrival
    rw [hleft.arrival] at harrival
    exact .inl harrival
  · rw [hleft.arrivals]

/-- A request parked keeps what it asked before, and its number. -/
structure Parks (a : Admission Rid Node Walk Info State Mark Key) (rid : Rid) (key : Key)
    (b : Admission Rid Node Walk Info State Mark Key) : Prop where
  /-- The request waits for the resource too. -/
  waits : ∃ entry, b.waiting rid = some entry ∧
    entry.keys = ((a.waiting rid).map Waiting.keys).getD [] ++ [key]
  /-- Others wait as before. -/
  waiting : ∀ rid', rid' ≠ rid → b.waiting rid' = a.waiting rid'
  /-- It is in the queue at its number. -/
  queues : b.queues = Function.update a.queues key (insort b.number rid (a.queues key))
  /-- Ahead of the request the mark measured, the mark goes. -/
  short : b.short = if (b.queues key).head? = some rid then Function.update a.short key none
    else a.short
  /-- It has a number, its own or the next. -/
  arrival : b.arrival = a.arrival ∧ b.arrivals = a.arrivals ∧ a.waiting rid ≠ none ∨
    b.arrival = Function.update a.arrival rid (some ((a.arrival rid).getD a.arrivals)) ∧
      b.arrivals = a.arrivals + 1 ∧ a.waiting rid = none
  /-- What is left to try stays. -/
  untried : b.untried = a.untried
  /-- The resources stay. -/
  state : b.state = a.state

/-- Parking a request parks it. -/
theorem parkRequest_parks (a : Admission Rid Node Walk Info State Mark Key) (rid : Rid) (key : Key)
    (node : Node) (walk : Walk) : Parks a rid key (a.parkRequest rid key node walk) := by
  unfold parkRequest
  cases hwaiting : a.waiting rid with
  | none =>
    constructor
    · refine ⟨⟨[(key, node, walk)], [], fun _ => none⟩, ?_, ?_⟩
      · simp
      · rw [hwaiting]
        rfl
    · intro rid' hne
      simp [hne]
    · rfl
    · simp
    · exact .inr ⟨rfl, rfl, hwaiting⟩
    · rfl
    · rfl
  | some entry =>
    constructor
    · refine ⟨{ entry with asked := entry.asked ++ [(key, node, walk)] }, ?_, ?_⟩
      · simp [hwaiting]
      · rw [hwaiting]
        simp [Waiting.keys]
    · intro rid' hne
      simp [hne]
    · rfl
    · simp
    · exact .inl ⟨rfl, rfl, by simp [hwaiting]⟩
    · rfl
    · rfl

namespace Parks

variable {key : Key}

/-- Others keep their numbers. -/
theorem arrival_of_ne (h : Parks a rid key b) {rid' : Rid} (hne : rid' ≠ rid) :
    b.arrival rid' = a.arrival rid' := by
  rcases h.arrival with ⟨heq, -, -⟩ | ⟨heq, -, -⟩
  · rw [heq]
  · rw [heq, Function.update_of_ne hne]

/-- A number the request had stays. -/
theorem kept (h : Parks a rid key b) {n : ℕ} (harrival : a.arrival rid = some n) :
    b.arrival rid = some n := by
  rcases h.arrival with ⟨heq, -, -⟩ | ⟨heq, -, -⟩
  · rw [heq, harrival]
  · rw [heq, Function.update_self, harrival, Option.getD_some]

/-- The request's number is the one it had or the next. -/
theorem stamped (h : Parks a rid key b) {n : ℕ} (harrival : b.arrival rid = some n) :
    a.arrival rid = some n ∨ (a.arrival rid = none ∧ n = a.arrivals ∧ n < b.arrivals) := by
  rcases h.arrival with ⟨heq, -, -⟩ | ⟨heq, hnext, -⟩
  · rw [heq] at harrival
    exact .inl harrival
  · rw [heq, Function.update_self] at harrival
    cases hold : a.arrival rid with
    | none =>
      rw [hold, Option.getD_none, Option.some.injEq] at harrival
      exact .inr ⟨rfl, harrival.symm, by omega⟩
    | some m =>
      rw [hold, Option.getD_some] at harrival
      exact .inl harrival

/-- Parking takes no arrival number back. -/
theorem arrivals_le (h : Parks a rid key b) : a.arrivals ≤ b.arrivals := by
  rcases h.arrival with ⟨-, heq, -⟩ | ⟨-, heq, -⟩ <;> omega

/-- The request has a number. -/
theorem numbered (h : Parks a rid key b) (hfiled : Filed order a) : ∃ n, b.arrival rid = some n := by
  rcases h.arrival with ⟨heq, -, hwaits⟩ | ⟨heq, -, -⟩
  · obtain ⟨entry, hentry⟩ := Option.ne_none_iff_exists'.1 hwaits
    rw [heq]
    exact hfiled.numbered rid entry hentry
  · rw [heq, Function.update_self]
    exact ⟨_, rfl⟩

/-- No two requests have one number. -/
theorem distinct (h : Parks a rid key b) (hfiled : Filed order a) {rid' : Rid} {n : ℕ}
    (hrid : b.arrival rid = some n) (hrid' : b.arrival rid' = some n) : rid' = rid := by
  by_contra hne
  rw [h.arrival_of_ne hne] at hrid'
  rcases h.stamped hrid with hold | ⟨-, heq, -⟩
  · exact hne (hfiled.distinct rid' rid n hrid' hold)
  · have := hfiled.below rid' n hrid'
    omega

/-- Whoever is in a queue keeps its number. -/
theorem number_of_queued (h : Parks a rid key b) (hfiled : Filed order a) {key' : Key} {rid' : Rid}
    (hmem : rid' ∈ a.queues key') : b.number rid' = a.number rid' := by
  obtain ⟨entry, hentry, -⟩ := (hfiled.queued rid' key').1 hmem
  obtain ⟨n, harrival⟩ := hfiled.numbered rid' entry hentry
  unfold Admission.number
  by_cases heq : rid' = rid
  · subst heq
    rw [h.kept harrival, harrival]
  · rw [h.arrival_of_ne heq]

/-- What a request waits for once parked. -/
theorem waiting_self (h : Parks a rid key b) {entry : Waiting Node Walk Key Info}
    (hentry : b.waiting rid = some entry) :
    entry.keys = ((a.waiting rid).map Waiting.keys).getD [] ++ [key] := by
  obtain ⟨entry', hentry', hkeys⟩ := h.waits
  rw [hentry] at hentry'
  cases hentry'
  exact hkeys

/-- A request is in a queue exactly where it waits, also the one parked. -/
theorem queued_iff (h : Parks a rid key b) (hfiled : Filed order a) (rid' : Rid) (key' : Key) :
    rid' ∈ b.queues key' ↔ ∃ entry, b.waiting rid' = some entry ∧ key' ∈ entry.keys := by
  have hqueue : rid' ∈ b.queues key' ↔ (key' = key ∧ rid' = rid) ∨ rid' ∈ a.queues key' := by
    rw [h.queues]
    by_cases heq : key' = key
    · subst heq
      rw [Function.update_self, mem_insort]
      simp
    · rw [Function.update_of_ne heq]
      simp [heq]
  rw [hqueue, hfiled.queued]
  by_cases heq : rid' = rid
  · subst heq
    obtain ⟨entry, hentry, hkeys⟩ := h.waits
    rw [hentry]
    constructor
    · intro hor
      refine ⟨entry, rfl, ?_⟩
      rw [hkeys, List.mem_append, List.mem_singleton]
      rcases hor with ⟨hkey', -⟩ | ⟨entry', hentry', hkey'⟩
      · exact .inr hkey'
      · left
        rw [hentry']
        exact hkey'
    · rintro ⟨entry', hentry', hkey'⟩
      cases hentry'
      rw [hkeys, List.mem_append, List.mem_singleton] at hkey'
      rcases hkey' with hkey' | hkey'
      · right
        cases hwaiting : a.waiting rid' with
        | none => simp [hwaiting] at hkey'
        | some entry' =>
          rw [hwaiting] at hkey'
          exact ⟨entry', rfl, hkey'⟩
      · exact .inl ⟨hkey', rfl⟩
  · rw [h.waiting rid' heq]
    simp [heq]

/-- The queues stay in the order of arrival. -/
theorem sorted (h : Parks a rid key b) (hfiled : Filed order a) (hnot : rid ∉ a.queues key)
    (key' : Key) : (b.queues key').Pairwise fun r r' => b.number r < b.number r' := by
  rw [h.queues]
  have hsame : ∀ key', (a.queues key').Pairwise fun r r' => b.number r < b.number r' := by
    intro key'
    refine (hfiled.sorted key').imp_of_mem ?_
    intro r r' hr hr' hlt
    rw [h.number_of_queued hfiled hr, h.number_of_queued hfiled hr']
    exact hlt
  by_cases heq : key' = key
  · subst heq
    rw [Function.update_self]
    refine pairwise_insort _ ?_ (hsame key')
    intro r hr hnumber
    obtain ⟨entry, hentry, -⟩ := (hfiled.queued r key').1 hr
    have hne : r ≠ rid := fun heq => hnot (heq ▸ hr)
    obtain ⟨n, hn⟩ := h.numbered hfiled
    obtain ⟨m, hm⟩ := hfiled.numbered r entry hentry
    rw [← h.arrival_of_ne hne] at hm
    unfold Admission.number at hnumber
    rw [hn, hm, Option.getD_some, Option.getD_some] at hnumber
    rw [hnumber] at hm
    exact hne (h.distinct hfiled hn hm)
  · rw [Function.update_of_ne heq]
    exact hsame key'

/-- What the request parked waits for is one thing more, and known. -/
theorem keys_self (h : Parks a rid key b) (hfiled : Filed order a) (hkey : key ∈ order)
    (hnew : ∀ entry, a.waiting rid = some entry → key ∉ entry.keys)
    {entry : Waiting Node Walk Key Info} (hentry : b.waiting rid = some entry) :
    entry.keys.Nodup ∧ entry.keys ⊆ order := by
  rw [h.waiting_self hentry]
  cases hwaiting : a.waiting rid with
  | none => exact ⟨by simp, by simpa using hkey⟩
  | some entry' =>
    change (entry'.keys ++ [key]).Nodup ∧ entry'.keys ++ [key] ⊆ order
    refine ⟨?_, List.append_subset.2 ⟨hfiled.known rid entry' hwaiting, by simpa using hkey⟩⟩
    rw [List.nodup_append]
    refine ⟨hfiled.nodup rid entry' hwaiting, by simp, ?_⟩
    rintro key' hkey' key'' hkey'' rfl
    rw [List.mem_singleton] at hkey''
    exact hnew entry' hwaiting (hkey'' ▸ hkey')

/-- Parking a request that was not parked there keeps the queues in order. -/
theorem filed (h : Parks a rid key b) (hfiled : Filed order a) (hkey : key ∈ order)
    (hnew : ∀ entry, a.waiting rid = some entry → key ∉ entry.keys) : Filed order b := by
  have hnot : rid ∉ a.queues key := by
    intro hmem
    obtain ⟨entry, hentry, hasked⟩ := (hfiled.queued rid key).1 hmem
    exact hnew entry hentry hasked
  refine ⟨h.queued_iff hfiled, h.sorted hfiled hnot, ?_, ?_, ?_, ?_, ?_, ?_⟩
  · intro rid' entry hentry
    by_cases heq : rid' = rid
    · subst heq
      exact h.numbered hfiled
    · rw [h.waiting rid' heq] at hentry
      rw [h.arrival_of_ne heq]
      exact hfiled.numbered rid' entry hentry
  · intro rid' n harrival
    have hle := h.arrivals_le
    by_cases heq : rid' = rid
    · subst heq
      rcases h.stamped harrival with hold | ⟨-, -, hlt⟩
      · have := hfiled.below rid' n hold
        omega
      · exact hlt
    · rw [h.arrival_of_ne heq] at harrival
      have := hfiled.below rid' n harrival
      omega
  · intro r r' n hr hr'
    by_cases heq : r = rid
    · subst heq
      exact (h.distinct hfiled hr hr').symm
    · by_cases heq' : r' = rid
      · subst heq'
        exact h.distinct hfiled hr' hr
      · rw [h.arrival_of_ne heq] at hr
        rw [h.arrival_of_ne heq'] at hr'
        exact hfiled.distinct r r' n hr hr'
  · intro rid' entry hentry
    by_cases heq : rid' = rid
    · subst heq
      exact (h.keys_self hfiled hkey hnew hentry).1
    · rw [h.waiting rid' heq] at hentry
      exact hfiled.nodup rid' entry hentry
  · intro rid' entry hentry
    by_cases heq : rid' = rid
    · subst heq
      exact (h.keys_self hfiled hkey hnew hentry).2
    · rw [h.waiting rid' heq] at hentry
      exact hfiled.known rid' entry hentry
  · intro rid' entry hentry
    by_cases heq : rid' = rid
    · subst heq
      rw [h.waiting_self hentry]
      simp
    · rw [h.waiting rid' heq] at hentry
      exact hfiled.asked rid' entry hentry

/-- Parking makes nobody first but the request parked. -/
theorem head?_queues (h : Parks a rid key b) {key' : Key} {rid' : Rid} (hne : rid' ≠ rid)
    (hhead : (b.queues key').head? = some rid') : (a.queues key').head? = some rid' := by
  rw [h.queues] at hhead
  by_cases heq : key' = key
  · subst heq
    rw [Function.update_self] at hhead
    exact (head?_insort hhead).resolve_left hne
  · rwa [Function.update_of_ne heq] at hhead

end Parks

/-- Parking a request that the resource holds nothing for. -/
theorem asks_park (hsound : Sound order res holds a) {key : Key} (hkey : key ∈ order)
    (hnew : ∀ entry, a.waiting rid = some entry → key ∉ entry.keys)
    (hfree : ¬ holds key (a.state key) rid) (h : Parks a rid key b) :
    Asks order res holds a rid b := by
  constructor
  · constructor
    · exact h.filed hsound.filed hkey hnew
    · intro key' mark hshort
      rw [h.short] at hshort
      have hold : ∀ {r : Rid}, (b.queues key').head? ≠ some rid → (a.queues key').head? = some r →
          (b.queues key').head? = some r := by
        intro r hne hhead
        cases hqueue : (b.queues key').head? with
        | none =>
          have hmem : r ∈ b.queues key' := by
            rw [h.queues]
            by_cases heq : key' = key
            · subst heq
              rw [Function.update_self, mem_insort]
              exact .inr (List.mem_of_mem_head? hhead)
            · rw [Function.update_of_ne heq]
              exact List.mem_of_mem_head? hhead
          rw [List.head?_eq_none_iff.1 hqueue] at hmem
          cases hmem
        | some y =>
          have hy : y ≠ rid := by
            rintro rfl
            exact hne hqueue
          rw [← hhead, h.head?_queues hy hqueue]
      split at hshort
      next hhead =>
        by_cases heq : key' = key
        · subst heq
          simp at hshort
        · rw [Function.update_of_ne heq] at hshort
          obtain ⟨r, hr, hrefused⟩ := hsound.marked key' mark hshort
          rw [h.queues, Function.update_of_ne heq]
          exact ⟨r, hr, hrefused⟩
      next hhead =>
        obtain ⟨r, hr, hrefused⟩ := hsound.marked key' mark hshort
        by_cases heq : key' = key
        · subst heq
          exact ⟨r, hold hhead hr, hrefused⟩
        · rw [h.queues, Function.update_of_ne heq]
          exact ⟨r, hr, hrefused⟩
    · intro rid' entry key' hentry hkey'
      rw [h.state]
      by_cases heq : rid' = rid
      · subst heq
        rw [h.waiting_self hentry, List.mem_append, List.mem_singleton] at hkey'
        rcases hkey' with hkey' | rfl
        · cases hwaiting : a.waiting rid' with
          | none => simp [hwaiting] at hkey'
          | some entry' =>
            rw [hwaiting] at hkey'
            exact hsound.unheld rid' entry' key' hwaiting hkey'
        · exact hfree
      · rw [h.waiting rid' heq] at hentry
        exact hsound.unheld rid' entry key' hentry hkey'
  · intro key' rid'
    rw [h.state]
  · exact h.waiting
  · intro rid' hne htried huntried entry hentry hheads
    rw [h.untried] at huntried
    rw [h.waiting rid' hne] at hentry
    have hheads' : a.Heads rid' entry := fun key' hkey' => h.head?_queues hne (hheads key' hkey')
    obtain ⟨key', hkey', hshort⟩ := htried huntried entry hentry hheads'
    refine ⟨key', hkey', ?_⟩
    rw [h.short]
    split
    next hhead =>
      have hkeyne : key' ≠ key := by
        rintro rfl
        rw [hheads key' hkey', Option.some.injEq] at hhead
        exact hne hhead
      rw [Function.update_of_ne hkeyne]
      exact hshort
    next => exact hshort
  · exact fun rid' hne => h.arrival_of_ne hne
  · exact fun n harrival => h.kept harrival
  · intro n harrival
    rcases h.stamped harrival with hold | ⟨hnone, heq, -⟩
    · exact .inl hold
    · exact .inr ⟨hnone, by omega⟩
  · exact h.arrivals_le

/-- What asking a node's resources comes to. -/
structure Asked (order : List Key) (res : Key → Resource Rid Node Walk Info State Mark Fault)
    (holds : Key → State → Rid → Prop) (a : Admission Rid Node Walk Info State Mark Key) (rid : Rid)
    (out : Except (Fault × Key) Bool) (b : Admission Rid Node Walk Info State Mark Key) : Prop where
  /-- The asking changed no other request. -/
  asks : Asks order res holds a rid b
  /-- A request that is to wait is in a queue. -/
  waits : out = .ok true → b.waiting rid ≠ none
  /-- One that needs nothing changed no queue. -/
  served : out = .ok false → ∃ state, b = { a with state := state }
  /-- One that failed is in no queue. -/
  failed : ∀ reason, out = .error reason → b.waiting rid = none

/-- A request's asks, one resource after another. -/
theorem askKeys_asked (hc : ∀ key, Contract (res key) (holds key)) (hsound : Sound order res holds a)
    {node : Node} {walk : Walk} {keys : List Key} {waits : Bool} (hkeys : keys ⊆ order)
    (hwaits : waits = true → a.waiting rid ≠ none) {out : Except (Fault × Key) Bool}
    (h : askKeys res rid node walk keys waits a = (out, b)) :
    Asked order res holds a rid out b ∧ (out = .ok false → waits = false) := by
  induction keys generalizing a waits with
  | nil =>
    unfold askKeys at h
    cases h
    refine ⟨⟨Asks.refl hsound rid, ?_, ?_, ?_⟩, ?_⟩
    · intro heq
      exact hwaits (by simpa using heq)
    · intro _
      exact ⟨b.state, rfl⟩
    · intro reason heq
      cases heq
    · intro heq
      simpa using heq
  | cons key keys ih =>
    rw [List.cons_subset] at hkeys
    unfold askKeys at h
    split at h
    next hin =>
      have hwaiting : a.waiting rid ≠ none := by
        intro hnone
        simp [hnone] at hin
      obtain ⟨hasked, hfalse⟩ := ih hsound hkeys.2 (fun _ => hwaiting) h
      refine ⟨hasked, ?_⟩
      intro heq
      have := hfalse heq
      cases this
    next hout =>
      have hset := asks_setState hc hsound rid node walk key
      have hnew : ∀ entry, a.waiting rid = some entry → key ∉ entry.keys := by
        intro entry hentry hmem
        simp [hentry, hmem] at hout
      split at h
      next s hs =>
        rw [hs] at hset
        obtain ⟨hasked, hfalse⟩ := ih hset.sound hkeys.2 hwaits h
        refine ⟨⟨hset.trans hasked.asks, hasked.waits, ?_, hasked.failed⟩, hfalse⟩
        intro heq
        obtain ⟨state, hstate⟩ := hasked.served heq
        exact ⟨state, hstate⟩
      next reason s hs =>
        rw [hs] at hset
        cases h
        have hdequeue := asks_dequeue hset.sound rid
        have hleft := dequeue_left hset.sound.filed rid
        refine ⟨⟨hset.trans hdequeue, ?_, ?_, ?_⟩, ?_⟩
        · intro heq
          cases heq
        · intro heq
          cases heq
        · intro _ _
          rw [hleft.waiting, Function.update_self]
        · intro heq
          cases heq
      next s hs =>
        rw [hs] at hset
        have hparks := parkRequest_parks (a.setState key s) rid key node walk
        have hfree : ¬ holds key ((a.setState key s).state key) rid := by
          rw [hset.holds_iff]
          exact (hc key).asks (a.state key) rid node walk (by rw [hs])
        have hpark := asks_park hset.sound hkeys.1 hnew hfree hparks
        obtain ⟨entry, hentry, -⟩ := hparks.waits
        have hwaiting : ((a.setState key s).parkRequest rid key node walk).waiting rid ≠ none := by
          rw [hentry]
          exact Option.some_ne_none entry
        obtain ⟨hasked, hfalse⟩ := ih hpark.sound hkeys.2 (fun _ => hwaiting) h
        refine ⟨⟨(hset.trans hpark).trans hasked.asks, hasked.waits, ?_, hasked.failed⟩, ?_⟩
        · intro heq
          cases hfalse heq
        · intro heq
          cases hfalse heq

/-- The resources a request waits for, if it waits. -/
def awaits (a : Admission Rid Node Walk Info State Mark Key) (rid : Rid) : List Key :=
  ((a.waiting rid).map Waiting.keys).getD []

/-- A request put in a queue waits for that resource too. -/
theorem mem_awaits_park (rid : Rid) (key : Key) (node : Node) (walk : Walk) {key' : Key} :
    key' ∈ (a.parkRequest rid key node walk).awaits rid ↔ key' ∈ a.awaits rid ∨ key' = key := by
  unfold awaits parkRequest Waiting.keys
  cases hwaiting : a.waiting rid with
  | none => simp
  | some entry => simp [hwaiting]

/-- Asking goes through all resources: a request waits for each or was served by it,
unless it failed. -/
theorem askKeys_covers {node : Node} {walk : Walk} {keys : List Key} {waits out : Bool}
    (h : askKeys res rid node walk keys waits a = (.ok out, b)) :
    a.awaits rid ⊆ b.awaits rid ∧
      ∀ key ∈ keys, key ∈ b.awaits rid ∨ ((res key).ask (a.state key) rid node walk).1 = .served := by
  induction keys generalizing a waits with
  | nil =>
    unfold askKeys at h
    cases h
    exact ⟨List.Subset.refl _, List.forall_mem_nil _⟩
  | cons key keys ih =>
    -- an ask of this resource leaves the others' states, and a mark on it is kept to the end
    have hrest : ∀ {a' : Admission Rid Node Walk Info State Mark Key} {waits' : Bool},
        askKeys res rid node walk keys waits' a' = (.ok out, b) → a.awaits rid ⊆ a'.awaits rid →
        (∀ key', key' ≠ key → a'.state key' = a.state key') →
        (key ∈ a'.awaits rid ∨ ((res key).ask (a.state key) rid node walk).1 = .served) →
        a.awaits rid ⊆ b.awaits rid ∧ ∀ key' ∈ key :: keys,
          key' ∈ b.awaits rid ∨ ((res key').ask (a.state key') rid node walk).1 = .served := by
      intro a' waits' hrun hsub hstate hkey
      obtain ⟨hkept, hall⟩ := ih hrun
      have hfirst := hkey.imp_left fun hmem => hkept hmem
      refine ⟨fun key' hmem => hkept (hsub hmem), ?_⟩
      intro key' hmem
      by_cases heq : key' = key
      · rw [heq]
        exact hfirst
      · rw [← hstate key' heq]
        exact hall key' ((List.mem_cons.1 hmem).resolve_left heq)
    unfold askKeys at h
    split at h
    next hin =>
      refine hrest h (List.Subset.refl _) (fun _ _ => rfl) (.inl ?_)
      unfold awaits
      cases hwaiting : a.waiting rid with
      | none => simp [hwaiting] at hin
      | some entry => simpa [hwaiting] using hin
    next =>
      have hother : ∀ s, ∀ key', key' ≠ key → (a.setState key s).state key' = a.state key' :=
        fun s key' hne => Function.update_of_ne hne _ _
      split at h
      next s hs => exact hrest h (List.Subset.refl _) (hother s) (.inr (by rw [hs]))
      next reason s hs => cases h
      next s hs =>
        refine hrest h ?_ ?_ (.inl ((mem_awaits_park rid key node walk).2 (.inr rfl)))
        · intro key' hmem
          exact (mem_awaits_park rid key node walk).2 (.inl hmem)
        · intro key' hne
          rw [← hother s key' hne]
          unfold parkRequest
          split <;> rfl

end Admission

end Mstar
