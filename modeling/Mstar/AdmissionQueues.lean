import Mstar.Admission
import Mathlib.Data.List.Nodup

/-!
# The queues of an admission

Each waiting request stands in exactly the queues of the resources it asked,
every queue is in arrival order, and a mark is always one its queue's first
request was refused at. Parking, leaving and trying a request keep this; what a
try reserves is everything the request asked or nothing.
-/

namespace Mstar

/-- A sorted insertion adds the element. -/
theorem mem_insort {α : Type} (key : α → ℕ) (x y : α) (xs : List α) :
    y ∈ insort key x xs ↔ y = x ∨ y ∈ xs := by
  induction xs with
  | nil => simp [insort]
  | cons z xs ih =>
    unfold insort
    split
    next => simp
    next =>
      rw [List.mem_cons, ih, List.mem_cons]
      tauto

/-- Inserting keeps a list sorted, if nothing has the new key. -/
theorem pairwise_insort {α : Type} (key : α → ℕ) {x : α} {xs : List α} (hne : ∀ y ∈ xs, key y ≠ key x)
    (h : xs.Pairwise fun y z => key y < key z) :
    (insort key x xs).Pairwise fun y z => key y < key z := by
  induction xs with
  | nil => simp [insort]
  | cons z xs ih =>
    rw [List.pairwise_cons] at h
    have hz := hne z List.mem_cons_self
    unfold insort
    split
    next hlt =>
      rw [List.pairwise_cons]
      constructor
      · intro y hy
        rcases List.mem_cons.1 hy with rfl | hy
        · exact hlt
        · exact Nat.lt_trans hlt (h.1 y hy)
      · exact List.pairwise_cons.2 h
    next hlt =>
      rw [List.pairwise_cons]
      constructor
      · intro y hy
        rcases (mem_insort key x y xs).1 hy with rfl | hy
        · omega
        · exact h.1 y hy
      · exact ih (fun y hy => hne y (List.mem_cons_of_mem _ hy)) h.2

/-- The first of a list with one more is the new one or the one that was. -/
theorem head?_insort {α : Type} {key : α → ℕ} {x y : α} {xs : List α}
    (h : (insort key x xs).head? = some y) : y = x ∨ xs.head? = some y := by
  cases xs with
  | nil => simpa [insort, eq_comm] using h
  | cons z xs =>
    unfold insort at h
    split at h
    next => exact .inl (by simpa [eq_comm] using h)
    next => exact .inr (by simpa using h)

namespace Admission

variable {Rid Node Walk Info State Mark Fault Key : Type} {order : List Key}
  {a : Admission Rid Node Walk Info State Mark Key}

/-- A request is first in every queue it is in. -/
def Heads (a : Admission Rid Node Walk Info State Mark Key) (rid : Rid)
    (entry : Waiting Node Walk Key Info) : Prop :=
  ∀ key ∈ entry.keys, (a.queues key).head? = some rid

variable {res : Key → Resource Rid Node Walk Info State Mark Fault} {holds : Key → State → Rid → Prop}

/-- A mark a resource refused a request at. -/
def Refused (res : Key → Resource Rid Node Walk Info State Mark Fault) (key : Key) (rid : Rid)
    (mark : Mark) : Prop :=
  ∃ s node walk info, ((res key).reserve s rid node walk info).1 = some mark

/-- The waiting requests are filed in the queues of what they asked, in arrival
order. -/
structure Filed (order : List Key) (a : Admission Rid Node Walk Info State Mark Key) : Prop where
  /-- A request is in a queue exactly if it waits for the resource. -/
  queued : ∀ rid key, rid ∈ a.queues key ↔ ∃ entry, a.waiting rid = some entry ∧ key ∈ entry.keys
  /-- Queues are in arrival order. -/
  sorted : ∀ key, (a.queues key).Pairwise fun r r' => a.number r < a.number r'
  /-- Who waits has a number. -/
  numbered : ∀ rid entry, a.waiting rid = some entry → ∃ n, a.arrival rid = some n
  /-- The next number is not in use. -/
  below : ∀ rid n, a.arrival rid = some n → n < a.arrivals
  /-- A number is one request's. -/
  distinct : ∀ rid rid' n, a.arrival rid = some n → a.arrival rid' = some n → rid = rid'
  /-- A request asks a resource once. -/
  nodup : ∀ rid entry, a.waiting rid = some entry → entry.keys.Nodup
  /-- Only resources that ask are asked. -/
  known : ∀ rid entry, a.waiting rid = some entry → entry.keys ⊆ order
  /-- Who waits asked something. -/
  asked : ∀ rid entry, a.waiting rid = some entry → entry.keys ≠ []

/-- What is true between any two steps of the admission. -/
structure Sound (order : List Key) (res : Key → Resource Rid Node Walk Info State Mark Fault)
    (holds : Key → State → Rid → Prop) (a : Admission Rid Node Walk Info State Mark Key) : Prop where
  /-- The queues are in order. -/
  filed : Filed order a
  /-- A mark is one the first request was refused at. -/
  marked : ∀ key mark, a.short key = some mark →
    ∃ rid, (a.queues key).head? = some rid ∧ Refused res key rid mark
  /-- Nothing is reserved for a request that waits for it. -/
  unheld : ∀ rid entry key, a.waiting rid = some entry → key ∈ entry.keys →
    ¬ holds key (a.state key) rid

/-- Unless a queue has an untried first request, who is first in all its queues
was refused by one of them. -/
def Tried (a : Admission Rid Node Walk Info State Mark Key) (rid : Rid) : Prop :=
  a.untried = false → ∀ entry, a.waiting rid = some entry → a.Heads rid entry →
    ∃ key ∈ entry.keys, a.short key ≠ none

/-- The queues are a matter of who waits for what, and of the numbers. -/
theorem Filed.of_keys (h : Filed order a) {a' : Admission Rid Node Walk Info State Mark Key}
    (hqueues : a'.queues = a.queues)
    (hwaiting : ∀ rid, (a'.waiting rid).map Waiting.keys = (a.waiting rid).map Waiting.keys)
    (harrival : a'.arrival = a.arrival) (harrivals : a'.arrivals = a.arrivals) : Filed order a' := by
  have hnumber : a'.number = a.number := by
    funext rid
    unfold number
    rw [harrival]
  have hold : ∀ rid entry, a'.waiting rid = some entry →
      ∃ entry', a.waiting rid = some entry' ∧ entry'.keys = entry.keys := by
    intro rid entry hentry
    have hkeys := hwaiting rid
    rw [hentry] at hkeys
    exact Option.map_eq_some_iff.1 hkeys.symm
  have hnew : ∀ rid entry, a.waiting rid = some entry →
      ∃ entry', a'.waiting rid = some entry' ∧ entry'.keys = entry.keys := by
    intro rid entry hentry
    have hkeys := hwaiting rid
    rw [hentry] at hkeys
    exact Option.map_eq_some_iff.1 hkeys
  constructor
  · intro rid key
    rw [hqueues, h.queued]
    constructor
    · rintro ⟨entry, hentry, hkey⟩
      obtain ⟨entry', hentry', hkeys⟩ := hnew rid entry hentry
      exact ⟨entry', hentry', hkeys ▸ hkey⟩
    · rintro ⟨entry, hentry, hkey⟩
      obtain ⟨entry', hentry', hkeys⟩ := hold rid entry hentry
      exact ⟨entry', hentry', hkeys ▸ hkey⟩
  · rw [hqueues, hnumber]
    exact h.sorted
  · intro rid entry hentry
    obtain ⟨entry', hentry', -⟩ := hold rid entry hentry
    rw [harrival]
    exact h.numbered rid entry' hentry'
  · rw [harrival, harrivals]
    exact h.below
  · rw [harrival]
    exact h.distinct
  · intro rid entry hentry
    obtain ⟨entry', hentry', hkeys⟩ := hold rid entry hentry
    exact hkeys ▸ h.nodup rid entry' hentry'
  · intro rid entry hentry
    obtain ⟨entry', hentry', hkeys⟩ := hold rid entry hentry
    exact hkeys ▸ h.known rid entry' hentry'
  · intro rid entry hentry
    obtain ⟨entry', hentry', hkeys⟩ := hold rid entry hentry
    exact hkeys ▸ h.asked rid entry' hentry'

/-- A resource's state is no matter of the queues. -/
theorem Filed.of_same (h : Filed order a) {a' : Admission Rid Node Walk Info State Mark Key}
    (hqueues : a'.queues = a.queues) (hwaiting : a'.waiting = a.waiting)
    (harrival : a'.arrival = a.arrival) (harrivals : a'.arrivals = a.arrivals) : Filed order a' := by
  apply h.of_keys hqueues _ harrival harrivals
  intro rid
  rw [hwaiting]

/-- No request is twice in a queue. -/
theorem Filed.nodup_queue (h : Filed order a) (key : Key) : (a.queues key).Nodup := by
  apply (h.sorted key).imp
  rintro r r' hlt rfl
  omega

variable [DecidableEq Rid]

/-- First: the head of every queue it is in, none of them short. -/
theorem first_iff {rid : Rid} {entry : Waiting Node Walk Key Info} :
    a.first rid entry = true ↔ a.Heads rid entry ∧ ∀ key ∈ entry.keys, a.short key = none := by
  unfold first Heads
  rw [List.all_eq_true]
  constructor
  · intro h
    constructor <;> intro key hkey <;> have := h key hkey <;> simp_all
  · intro h key hkey
    simp [h.1 key hkey, h.2 key hkey]

/-- What a request that leaves its queues changes. -/
structure Left (a : Admission Rid Node Walk Info State Mark Key) (rid : Rid)
    (b : Admission Rid Node Walk Info State Mark Key) : Prop where
  /-- The request waits no more, the others as before. -/
  waiting : b.waiting = Function.update a.waiting rid none
  /-- It is in no queue. -/
  queues : ∀ key, b.queues key = (a.queues key).erase rid
  /-- Where it was first, the mark is gone. -/
  short : ∀ key, b.short key = if (a.queues key).head? = some rid then none else a.short key
  /-- Where it was first and another is, that one is to be tried. -/
  untried : b.untried = false → a.untried = false ∧
    ∀ key, (a.queues key).head? = some rid → (a.queues key).length ≤ 1
  /-- The numbers stay. -/
  arrival : b.arrival = a.arrival
  /-- The next number stays. -/
  arrivals : b.arrivals = a.arrivals
  /-- So do the resources. -/
  state : b.state = a.state

/-- A request in no queue changes nothing by leaving. -/
theorem left_of_not_waiting (hfiled : Filed order a) {rid : Rid} (h : a.waiting rid = none) :
    Left a rid a := by
  have hnot : ∀ key, rid ∉ a.queues key := by
    intro key hmem
    obtain ⟨entry, hentry, -⟩ := (hfiled.queued rid key).1 hmem
    rw [h] at hentry
    cases hentry
  have hhead : ∀ key, (a.queues key).head? ≠ some rid :=
    fun key heq => hnot key (List.mem_of_mem_head? heq)
  constructor
  · rw [← h, Function.update_eq_self]
  · intro key
    rw [List.erase_of_not_mem (hnot key)]
  · intro key
    rw [if_neg (hhead key)]
  · intro htried
    constructor
    · exact htried
    · intro key heq
      exact absurd heq (hhead key)
  · rfl
  · rfl
  · rfl

namespace Left

variable {b : Admission Rid Node Walk Info State Mark Key} {rid : Rid}

/-- Leaving changes no request's number. -/
theorem number (h : Left a rid b) : b.number = a.number := by
  funext rid'
  unfold Admission.number
  rw [h.arrival]

/-- Who waits after waited before, for the same. -/
theorem waited (h : Left a rid b) {rid' : Rid} {entry : Waiting Node Walk Key Info}
    (hwaiting : b.waiting rid' = some entry) : rid' ≠ rid ∧ a.waiting rid' = some entry := by
  rw [h.waiting] at hwaiting
  by_cases heq : rid' = rid
  · subst heq
    simp at hwaiting
  · rw [Function.update_of_ne heq] at hwaiting
    exact ⟨heq, hwaiting⟩

/-- The others still wait. -/
theorem waiting_of_ne (h : Left a rid b) {rid' : Rid} (hne : rid' ≠ rid) :
    b.waiting rid' = a.waiting rid' := by
  rw [h.waiting, Function.update_of_ne hne]

/-- The first of a queue stays first unless it is the one that left. -/
theorem head?_of_ne (h : Left a rid b) (key : Key) (hne : (a.queues key).head? ≠ some rid) :
    (b.queues key).head? = (a.queues key).head? := by
  rw [h.queues]
  cases hqueue : a.queues key with
  | nil => rfl
  | cons r queue =>
    rw [hqueue] at hne
    have hr : r ≠ rid := by
      rintro rfl
      exact hne rfl
    rw [List.erase_cons_tail (by simpa using hr)]
    rfl

/-- The queues of the others stay as they were. -/
theorem filed (h : Left a rid b) (hfiled : Filed order a) : Filed order b := by
  constructor
  · intro rid' key
    rw [h.queues, (hfiled.nodup_queue key).mem_erase_iff, hfiled.queued]
    constructor
    · rintro ⟨hne, entry, hentry, hkey⟩
      exact ⟨entry, by rw [h.waiting_of_ne hne, hentry], hkey⟩
    · rintro ⟨entry, hentry, hkey⟩
      obtain ⟨hne, hentry⟩ := h.waited hentry
      exact ⟨hne, entry, hentry, hkey⟩
  · intro key
    rw [h.queues, h.number]
    exact (hfiled.sorted key).sublist List.erase_sublist
  · intro rid' entry hentry
    rw [h.arrival]
    exact hfiled.numbered rid' entry (h.waited hentry).2
  · rw [h.arrival, h.arrivals]
    exact hfiled.below
  · rw [h.arrival]
    exact hfiled.distinct
  · intro rid' entry hentry
    exact hfiled.nodup rid' entry (h.waited hentry).2
  · intro rid' entry hentry
    exact hfiled.known rid' entry (h.waited hentry).2
  · intro rid' entry hentry
    exact hfiled.asked rid' entry (h.waited hentry).2

/-- A mark left is still the first request's. -/
theorem marked (h : Left a rid b)
    (hmarked : ∀ key mark, a.short key = some mark →
      ∃ rid, (a.queues key).head? = some rid ∧ Refused res key rid mark)
    (key : Key) (mark : Mark) (hshort : b.short key = some mark) :
    ∃ rid, (b.queues key).head? = some rid ∧ Refused res key rid mark := by
  rw [h.short] at hshort
  split at hshort
  next => cases hshort
  next hne =>
    rw [h.head?_of_ne key hne]
    exact hmarked key mark hshort

/-- Who is first everywhere after a request left was so before, unless there is a
new first request. -/
theorem tried (h : Left a rid b) (hfiled : Filed order a) {rid' : Rid}
    (htried : rid' ≠ rid → a.Tried rid') : b.Tried rid' := by
  intro huntried entry hentry hheads
  obtain ⟨hne, hentry⟩ := h.waited hentry
  obtain ⟨huntried, hlone⟩ := h.untried huntried
  have hhead : ∀ key ∈ entry.keys, (a.queues key).head? ≠ some rid := by
    intro key hkey heq
    -- the queue would hold both, but a lone first request leaves no other
    have hlen := hlone key heq
    have hmem : rid' ∈ a.queues key := (hfiled.queued rid' key).2 ⟨entry, hentry, hkey⟩
    cases hqueue : a.queues key with
    | nil => simp [hqueue] at hmem
    | cons r queue =>
      rw [hqueue] at hmem heq hlen
      have hr : r = rid := by simpa using heq
      have hnil : queue = [] := by simpa using hlen
      rw [hnil, hr, List.mem_singleton] at hmem
      exact hne hmem
  have hheads' : a.Heads rid' entry := by
    intro key hkey
    rw [← h.head?_of_ne key (hhead key hkey)]
    exact hheads key hkey
  obtain ⟨key, hkey, hshort⟩ := htried hne huntried entry hentry hheads'
  refine ⟨key, hkey, ?_⟩
  rw [h.short, if_neg (hhead key hkey)]
  exact hshort

end Left

variable [DecidableEq Key]

/-- Leaving some queues, in one formula. -/
theorem leave_eq {rid : Rid} {keys : List Key} (hnodup : keys.Nodup) :
    leave rid keys a =
      { a with
        queues := fun key => if key ∈ keys then (a.queues key).erase rid else a.queues key
        short := fun key =>
          if key ∈ keys ∧ (a.queues key).head? = some rid then none else a.short key
        untried := a.untried || keys.any fun key =>
          decide ((a.queues key).head? = some rid) && decide (1 < (a.queues key).length) } := by
  induction keys generalizing a with
  | nil => simp [leave]
  | cons key keys ih =>
    obtain ⟨hkey, hkeys⟩ := List.nodup_cons.1 hnodup
    -- the queues left later are the ones there were
    have hqueue : ∀ key' ∈ keys,
        Function.update a.queues key ((a.queues key).erase rid) key' = a.queues key' := by
      intro key' h
      apply Function.update_of_ne
      rintro rfl
      exact hkey h
    have hany : (keys.any fun key' =>
        decide ((Function.update a.queues key ((a.queues key).erase rid) key').head? = some rid) &&
          decide (1 < (Function.update a.queues key ((a.queues key).erase rid) key').length)) =
        keys.any fun key' =>
          decide ((a.queues key').head? = some rid) && decide (1 < (a.queues key').length) := by
      rw [Bool.eq_iff_iff, List.any_eq_true, List.any_eq_true]
      constructor <;> rintro ⟨key', h, hlong⟩ <;> refine ⟨key', h, ?_⟩ <;>
        simpa only [hqueue key' h] using hlong
    have hqueues : (fun key' => if key' ∈ keys then
          (Function.update a.queues key ((a.queues key).erase rid) key').erase rid
        else Function.update a.queues key ((a.queues key).erase rid) key') =
        fun key' => if key' ∈ key :: keys then (a.queues key').erase rid else a.queues key' := by
      funext key'
      by_cases h : key' = key
      · subst h
        simp [hkey]
      · simp [h]
    unfold leave
    dsimp only
    rw [ih hkeys]
    split
    next hhead =>
      dsimp only
      rw [hqueues, hany]
      congr 1
      · funext key'
        by_cases h : key' = key
        · subst h
          simp [hkey, hhead]
        · simp [h]
      · simp only [List.any_cons, hhead, decide_true, Bool.true_and, Bool.or_assoc]
    next hhead =>
      rw [hqueues, hany]
      congr 1
      · funext key'
        by_cases h : key' = key
        · subst h
          simp [hkey, hhead]
        · simp [h]
      · simp only [List.any_cons, hhead, decide_false, Bool.false_and, Bool.false_or]

/-- Taking a request out of the queues. -/
theorem dequeue_left (hfiled : Filed order a) (rid : Rid) : Left a rid (a.dequeue rid) := by
  unfold dequeue
  split
  next hnone => exact left_of_not_waiting hfiled hnone
  next entry hentry =>
    have hmem : ∀ key, rid ∈ a.queues key ↔ key ∈ entry.keys := by
      intro key
      rw [hfiled.queued rid key]
      constructor
      · rintro ⟨entry', hentry', hkey⟩
        rw [hentry] at hentry'
        cases hentry'
        exact hkey
      · intro hkey
        exact ⟨entry, hentry, hkey⟩
    have hhead : ∀ key, (a.queues key).head? = some rid → key ∈ entry.keys :=
      fun key heq => (hmem key).1 (List.mem_of_mem_head? heq)
    rw [leave_eq (hfiled.nodup rid entry hentry)]
    constructor
    · rfl
    · intro key
      dsimp only
      split
      next => rfl
      next hkey => rw [List.erase_of_not_mem fun h => hkey ((hmem key).1 h)]
    · intro key
      dsimp only
      by_cases heq : (a.queues key).head? = some rid
      · rw [if_pos ⟨hhead key heq, heq⟩, if_pos heq]
      · rw [if_neg fun h => heq h.2, if_neg heq]
    · intro htried
      dsimp only at htried
      rw [Bool.or_eq_false_iff, List.any_eq_false] at htried
      constructor
      · exact htried.1
      · intro key heq
        have := htried.2 key (hhead key heq)
        simp only [heq, decide_true, Bool.true_and, decide_eq_true_eq] at this
        omega
    · rfl
    · rfl
    · rfl

/-- Giving back changes the resources' states, each for the request alone. -/
theorem giveBack_spec (hc : ∀ key, Contract (res key) (holds key)) (rid : Rid) (taken : List Key)
    (a : Admission Rid Node Walk Info State Mark Key) :
    ∃ state, giveBack res a rid taken = { a with state := state } ∧
      (∀ key ∉ taken, state key = a.state key) ∧
      ∀ key rid', holds key (state key) rid' ↔
        holds key (a.state key) rid' ∧ ¬ (key ∈ taken ∧ rid' = rid) := by
  induction taken generalizing a with
  | nil => exact ⟨a.state, rfl, fun _ _ => rfl, by simp⟩
  | cons key taken ih =>
    obtain ⟨state, heq, hrest, hholds⟩ :=
      ih (a.setState key ((res key).unreserve (a.state key) rid))
    refine ⟨state, ?_, ?_, ?_⟩
    · unfold giveBack at heq ⊢
      rw [List.foldl_cons, heq]
      rfl
    · intro key' hkey'
      rw [List.mem_cons, not_or] at hkey'
      rw [hrest key' hkey'.2]
      exact Function.update_of_ne hkey'.1 _ _
    · intro key' rid'
      rw [hholds key' rid']
      by_cases h : key' = key
      · subst h
        simp only [setState, Function.update_self, (hc key').unreserved, List.mem_cons]
        tauto
      · simp only [setState, Function.update_of_ne h, List.mem_cons, h, false_or]

/-- Everything asked is taken. -/
theorem takeAll_ok (hc : ∀ key, Contract (res key) (holds key)) {rid : Rid}
    {publishedOf : Node → Published Key Info} {asked : List (Key × Node × Walk)} {taken : List Key}
    {a b : Admission Rid Node Walk Info State Mark Key}
    (h : takeAll res rid publishedOf asked taken a = (true, b)) :
    ∃ state, b = { a with state := state } ∧ (∀ key ∉ asked.map Prod.fst, state key = a.state key) ∧
      ∀ key rid', holds key (state key) rid' ↔
        holds key (a.state key) rid' ∨ (key ∈ asked.map Prod.fst ∧ rid' = rid) := by
  induction asked generalizing taken a with
  | nil =>
    unfold takeAll at h
    cases h
    exact ⟨b.state, rfl, fun _ _ => rfl, by simp⟩
  | cons one asked ih =>
    obtain ⟨key, node, walk⟩ := one
    unfold takeAll at h
    split at h
    next => cases h
    next s hs =>
      obtain ⟨state, rfl, hrest, hholds⟩ := ih h
      refine ⟨state, rfl, ?_, ?_⟩
      · intro key' hkey'
        rw [List.map_cons, List.mem_cons, not_or] at hkey'
        rw [hrest key' hkey'.2]
        exact Function.update_of_ne hkey'.1 _ _
      · intro key' rid'
        rw [hholds key' rid', List.map_cons, List.mem_cons]
        by_cases h : key' = key
        · subst h
          have hreserved := (hc key').reserved (a.state key') rid node walk
            ((publishedOf node).bind (· key')) rid' (by rw [hs])
          rw [hs] at hreserved
          simp only [setState, Function.update_self, hreserved]
          tauto
        · simp only [setState, Function.update_of_ne h, h, false_or]

/-- What a refused try of a request leaves: nothing taken, one of the resources
asked marked, and that one not grown since. -/
structure Refusal (res : Key → Resource Rid Node Walk Info State Mark Fault)
    (holds : Key → State → Rid → Prop) (a : Admission Rid Node Walk Info State Mark Key) (rid : Rid)
    (keys : List Key) (b : Admission Rid Node Walk Info State Mark Key) : Prop where
  /-- The resource that refused, and its mark. -/
  mark : ∃ key ∈ keys, ∃ mark, b.short = Function.update a.short key (some mark) ∧
    Refused res key rid mark ∧ (res key).grewSince (b.state key) mark = false
  /-- Other resources are not touched. -/
  state : ∀ key ∉ keys, b.state key = a.state key
  /-- No resource holds more or less. -/
  holds_iff : ∀ key rid', holds key (b.state key) rid' ↔ holds key (a.state key) rid'
  /-- The queues stay. -/
  queues : b.queues = a.queues
  /-- Who waits stays. -/
  waiting : b.waiting = a.waiting
  /-- The numbers stay. -/
  arrival : b.arrival = a.arrival
  /-- The next number stays. -/
  arrivals : b.arrivals = a.arrivals
  /-- What is left to try stays. -/
  untried : b.untried = a.untried

/-- The resources taken before the refusal are given back. -/
theorem takeAll_refused (hc : ∀ key, Contract (res key) (holds key)) {rid : Rid}
    {publishedOf : Node → Published Key Info} {asked : List (Key × Node × Walk)} {taken : List Key}
    {a b : Admission Rid Node Walk Info State Mark Key}
    (hnodup : (taken ++ asked.map Prod.fst).Nodup)
    (hfree : ∀ key ∈ asked.map Prod.fst, ¬ holds key (a.state key) rid)
    (h : takeAll res rid publishedOf asked taken a = (false, b)) :
    ∃ state key mark, key ∈ asked.map Prod.fst ∧
      b = { a with state := state, short := Function.update a.short key (some mark) } ∧
      Refused res key rid mark ∧ (res key).grewSince (state key) mark = false ∧
      (∀ key ∉ taken ++ asked.map Prod.fst, state key = a.state key) ∧
      ∀ key rid', holds key (state key) rid' ↔
        holds key (a.state key) rid' ∧ ¬ (key ∈ taken ∧ rid' = rid) := by
  induction asked generalizing taken a with
  | nil =>
    unfold takeAll at h
    cases h
  | cons one asked ih =>
    obtain ⟨key, node, walk⟩ := one
    have hnot : key ∉ taken := by
      intro hmem
      exact (List.nodup_append.1 hnodup).2.2 key hmem key (by simp) rfl
    unfold takeAll at h
    split at h
    next mark s hs =>
      obtain ⟨state, heq, hrest, hholds⟩ := giveBack_spec hc rid taken (a.setState key s)
      rw [heq] at h
      cases h
      have hstate : state key = s := by
        rw [hrest key hnot]
        exact Function.update_self ..
      have hmark : ((res key).reserve (a.state key) rid node walk
          ((publishedOf node).bind (· key))).1 = some mark := by rw [hs]
      refine ⟨state, key, mark, by simp, rfl, ⟨_, _, _, _, hmark⟩, ?_, ?_, ?_⟩
      · have := (hc key).not_grown _ _ _ _ _ _ hmark
        rw [hs] at this
        rw [hstate]
        exact this
      · intro key' hkey'
        simp only [List.map_cons, List.mem_append, List.mem_cons, not_or] at hkey'
        rw [hrest key' hkey'.1]
        exact Function.update_of_ne hkey'.2.1 _ _
      · intro key' rid'
        rw [hholds key' rid']
        by_cases h : key' = key
        · subst h
          have hrefused := (hc key').refused _ _ _ _ _ _ rid' hmark
          rw [hs] at hrefused
          simp only [setState, Function.update_self, hrefused]
        · simp only [setState, Function.update_of_ne h]
    next s hs =>
      have hreserved := (hc key).reserved (a.state key) rid node walk
        ((publishedOf node).bind (· key))
      rw [hs] at hreserved
      have hne : ∀ key' ∈ asked.map Prod.fst, key' ≠ key := by
        rintro key' hkey' rfl
        exact (List.nodup_cons.1 (List.nodup_append.1 hnodup).2.1).1 hkey'
      have hnodup' : ((taken ++ [key]) ++ asked.map Prod.fst).Nodup := by
        simpa using hnodup
      have hfree' : ∀ key' ∈ asked.map Prod.fst,
          ¬ holds key' ((a.setState key s).state key') rid := by
        intro key' hkey'
        simp only [setState, Function.update_of_ne (hne key' hkey')]
        exact hfree key' (by simp only [List.map_cons, List.mem_cons, hkey', or_true])
      obtain ⟨state, key', mark, hkey', rfl, hmark, hgrew, hrest, hholds⟩ := ih hnodup' hfree' h
      refine ⟨state, key', mark, ?_, rfl, hmark, hgrew, ?_, ?_⟩
      · simp only [List.map_cons, List.mem_cons, hkey', or_true]
      · intro key'' hkey''
        simp only [List.map_cons, List.mem_append, List.mem_cons, not_or] at hkey''
        rw [hrest key'' (by simp [hkey''])]
        exact Function.update_of_ne hkey''.2.1 _ _
      · intro key'' rid'
        rw [hholds key'' rid']
        by_cases h : key'' = key
        · subst h
          have hnone := hfree key'' (by simp)
          simp only [setState, Function.update_self, hreserved rid' rfl, List.mem_append,
            List.mem_singleton]
          constructor
          · rintro ⟨hor, hnot'⟩
            have hridne : rid' ≠ rid := fun heq => hnot' ⟨.inr trivial, heq⟩
            exact ⟨hor.resolve_right hridne, fun hmem => hnot hmem.1⟩
          · rintro ⟨hheld, -⟩
            constructor
            · exact .inl hheld
            · rintro ⟨-, rfl⟩
              exact hnone hheld
        · simp only [setState, Function.update_of_ne h, List.mem_append, List.mem_singleton, h,
            or_false]

end Admission

end Mstar
