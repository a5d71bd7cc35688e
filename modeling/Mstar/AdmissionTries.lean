import Mstar.AdmissionQueues
import Mathlib.Algebra.Order.BigOperators.Group.List
import Mathlib.Algebra.Order.Group.Nat

/-!
# Trying waiting requests

A try of a request that is first takes everything it asked or nothing. Tries in a
row keep the queues and the marks sound and admit requests in arrival order; tries
that admit none leave the queues as they are and drop no mark.
-/

namespace Mstar

namespace Admission

variable {Rid Node Walk Info State Mark Fault Key : Type} {order : List Key}
  {res : Key → Resource Rid Node Walk Info State Mark Fault} {holds : Key → State → Rid → Prop}
  {a b c : Admission Rid Node Walk Info State Mark Key}

/-- Every waiting request has a node that waits on it. -/
def Noted (a : Admission Rid Node Walk Info State Mark Key) : Prop :=
  ∀ rid entry, a.waiting rid = some entry → entry.nodes ≠ []

/-- No resource has grown since its first request was refused. -/
def NotGrown (res : Key → Resource Rid Node Walk Info State Mark Fault)
    (a : Admission Rid Node Walk Info State Mark Key) : Prop :=
  ∀ key mark, a.short key = some mark → (res key).grewSince (a.state key) mark = false

/-- A resource's new state leaves the queues and marks sound, if it holds no more. -/
theorem Sound.of_state (h : Sound order res holds a) {state : Key → State}
    (hholds : ∀ key rid, holds key (state key) rid → holds key (a.state key) rid) :
    Sound order res holds { a with state := state } := by
  constructor
  · exact h.filed.of_same rfl rfl rfl rfl
  · exact h.marked
  · intro rid entry key hentry hkey hheld
    exact h.unheld rid entry key hentry hkey (hholds key rid hheld)

/-- The requests of a queue are waiting. -/
theorem Filed.waiting_of_head (h : Filed order a) {key : Key} {rid : Rid}
    (hhead : (a.queues key).head? = some rid) :
    ∃ entry, a.waiting rid = some entry ∧ key ∈ entry.keys :=
  (h.queued rid key).1 (List.mem_of_mem_head? hhead)

section Queues

variable [DecidableEq Key] {rid : Rid} {keys : List Key}

/-- A refusal changes no request's number. -/
theorem Refusal.number (h : Refusal res holds a rid keys b) : b.number = a.number := by
  funext rid'
  unfold Admission.number
  rw [h.arrival]

/-- And the queues filed. -/
theorem Refusal.filed (h : Refusal res holds a rid keys b) (hfiled : Filed order a) : Filed order b :=
  hfiled.of_same h.queues h.waiting h.arrival h.arrivals

end Queues

variable [DecidableEq Rid]

/-- What an admission of a waiting request changes. -/
structure Grant (holds : Key → State → Rid → Prop) (a : Admission Rid Node Walk Info State Mark Key)
    (rid : Rid) (entry : Waiting Node Walk Key Info)
    (b : Admission Rid Node Walk Info State Mark Key) : Prop where
  /-- The request leaves its queues. -/
  left : Left { a with state := b.state } rid b
  /-- Other resources are not touched. -/
  state : ∀ key ∉ entry.keys, b.state key = a.state key
  /-- All it asked is held for it, and nothing else changes hands. -/
  holds_iff : ∀ key rid', holds key (b.state key) rid' ↔
    holds key (a.state key) rid' ∨ (key ∈ entry.keys ∧ rid' = rid)

namespace Grant

variable {rid : Rid} {entry : Waiting Node Walk Key Info}

/-- An admission keeps the queues and marks sound. -/
theorem sound (h : Grant holds a rid entry b) (hsound : Sound order res holds a) :
    Sound order res holds b := by
  have hfiled : Filed order { a with state := b.state } := hsound.filed.of_same rfl rfl rfl rfl
  constructor
  · exact h.left.filed hfiled
  · exact h.left.marked hsound.marked
  · intro rid' entry' key hentry hkey hheld
    obtain ⟨hne, hentry⟩ := h.left.waited hentry
    rcases (h.holds_iff key rid').1 hheld with hheld | ⟨-, heq⟩
    · exact hsound.unheld rid' entry' key hentry hkey hheld
    · exact hne heq

/-- The resources taken had no mark, the others are as they were. -/
theorem notGrown (h : Grant holds a rid entry b) (hnot : NotGrown res a)
    (hfirst : a.first rid entry = true) : NotGrown res b := by
  obtain ⟨-, hunmarked⟩ := first_iff.1 hfirst
  intro key mark hshort
  rw [h.left.short] at hshort
  split at hshort
  next => cases hshort
  next hhead =>
    have hkey : key ∉ entry.keys := by
      intro hmem
      rw [hunmarked key hmem] at hshort
      cases hshort
    rw [h.state key hkey]
    exact hnot key mark hshort

end Grant

variable [DecidableEq Key]

namespace Refusal

variable {rid : Rid} {entry : Waiting Node Walk Key Info}

/-- A refusal of a first request keeps the queues and marks sound. -/
theorem sound (h : Refusal res holds a rid entry.keys b) (hsound : Sound order res holds a)
    (hfirst : a.first rid entry = true) : Sound order res holds b := by
  obtain ⟨hheads, -⟩ := first_iff.1 hfirst
  obtain ⟨key, hkey, mark, hshort, hmark, -⟩ := h.mark
  constructor
  · exact h.filed hsound.filed
  · intro key' mark' hshort'
    rw [hshort] at hshort'
    rw [h.queues]
    by_cases heq : key' = key
    · subst heq
      rw [Function.update_self] at hshort'
      cases hshort'
      exact ⟨rid, hheads key' hkey, hmark⟩
    · rw [Function.update_of_ne heq] at hshort'
      exact hsound.marked key' mark' hshort'
  · intro rid' entry' key' hentry hkey'
    rw [h.waiting] at hentry
    rw [h.holds_iff]
    exact hsound.unheld rid' entry' key' hentry hkey'

/-- The mark of a refusal is fresh, and no marked resource was touched. -/
theorem notGrown (h : Refusal res holds a rid entry.keys b) (hnot : NotGrown res a)
    (hfirst : a.first rid entry = true) : NotGrown res b := by
  obtain ⟨-, hunmarked⟩ := first_iff.1 hfirst
  obtain ⟨key, hkey, mark, hshort, -, hgrew⟩ := h.mark
  intro key' mark' hshort'
  rw [hshort] at hshort'
  by_cases heq : key' = key
  · subst heq
    rw [Function.update_self] at hshort'
    cases hshort'
    exact hgrew
  · rw [Function.update_of_ne heq] at hshort'
    have hkey' : key' ∉ entry.keys := by
      intro hmem
      rw [hunmarked key' hmem] at hshort'
      cases hshort'
    rw [h.state key' hkey']
    exact hnot key' mark' hshort'

end Refusal

/-- Tries of first requests in a row, with the requests they admitted. -/
inductive Tries (res : Key → Resource Rid Node Walk Info State Mark Fault)
    (holds : Key → State → Rid → Prop) :
    Admission Rid Node Walk Info State Mark Key → List Rid →
      Admission Rid Node Walk Info State Mark Key → Prop
  /-- No try. -/
  | done (a : Admission Rid Node Walk Info State Mark Key) : Tries res holds a [] a
  /-- A request refused first. -/
  | refused {a b c : Admission Rid Node Walk Info State Mark Key} {rid : Rid}
      {entry : Waiting Node Walk Key Info} {granted : List Rid} (hentry : a.waiting rid = some entry)
      (hfirst : a.first rid entry = true) (h : Refusal res holds a rid entry.keys b)
      (rest : Tries res holds b granted c) : Tries res holds a granted c
  /-- A request admitted first. -/
  | granted {a b c : Admission Rid Node Walk Info State Mark Key} {rid : Rid}
      {entry : Waiting Node Walk Key Info} {granted : List Rid} (hentry : a.waiting rid = some entry)
      (hfirst : a.first rid entry = true) (h : Grant holds a rid entry b)
      (rest : Tries res holds b granted c) : Tries res holds a (rid :: granted) c

namespace Tries

variable {granted : List Rid}

/-- Tries one after another. -/
theorem append {more : List Rid} (h : Tries res holds a granted b) (h' : Tries res holds b more c) :
    Tries res holds a (granted ++ more) c := by
  induction h with
  | done a => exact h'
  | refused hentry hfirst h rest ih => exact .refused hentry hfirst h (ih h')
  | granted hentry hfirst h rest ih => exact .granted hentry hfirst h (ih h')

/-- Tries keep the queues and marks sound. -/
theorem sound (h : Tries res holds a granted b) (hsound : Sound order res holds a) :
    Sound order res holds b := by
  induction h with
  | done a => exact hsound
  | refused hentry hfirst h rest ih => exact ih (h.sound hsound hfirst)
  | granted hentry hfirst h rest ih => exact ih (h.sound hsound)

/-- No marked resource has grown after them. -/
theorem notGrown (h : Tries res holds a granted b) (hnot : NotGrown res a) : NotGrown res b := by
  induction h with
  | done a => exact hnot
  | refused hentry hfirst h rest ih => exact ih (h.notGrown hnot hfirst)
  | granted hentry hfirst h rest ih => exact ih (h.notGrown hnot hfirst)

/-- They keep the arrival numbers. -/
theorem arrival (h : Tries res holds a granted b) : b.arrival = a.arrival := by
  induction h with
  | done a => rfl
  | refused hentry hfirst h rest ih => rw [ih, h.arrival]
  | granted hentry hfirst h rest ih =>
    rw [ih, h.left.arrival]

/-- The requests admitted wait no more, the others as before. -/
theorem waiting (h : Tries res holds a granted b) (rid : Rid) :
    b.waiting rid = if rid ∈ granted then none else a.waiting rid := by
  induction h with
  | done a => simp
  | refused hentry hfirst h rest ih => rw [ih, h.waiting]
  | @granted a b c rid' entry granted hentry hfirst h rest ih =>
    rw [ih, h.left.waiting]
    by_cases heq : rid = rid'
    · subst heq
      simp
    · simp [heq]

/-- And the notes. -/
theorem noted (h : Tries res holds a granted b) (hnoted : Noted a) : Noted b := by
  intro rid entry hentry
  rw [h.waiting] at hentry
  split at hentry
  next => cases hentry
  next => exact hnoted rid entry hentry

/-- The requests admitted were waiting. -/
theorem waited (h : Tries res holds a granted b) {rid : Rid} (hrid : rid ∈ granted) :
    ∃ entry, a.waiting rid = some entry := by
  induction h with
  | done a => cases hrid
  | refused hentry hfirst h rest ih =>
    rw [← h.waiting]
    exact ih hrid
  | granted hentry hfirst h rest ih =>
    rcases List.mem_cons.1 hrid with rfl | hrid
    · exact ⟨_, hentry⟩
    · obtain ⟨entry, hentry⟩ := ih hrid
      exact ⟨entry, (h.left.waited hentry).2⟩

/-- All an admitted request asked is held for it, and nothing else changes hands. -/
theorem holds_iff (h : Tries res holds a granted b) (key : Key) (rid : Rid) :
    holds key (b.state key) rid ↔ holds key (a.state key) rid ∨
      (rid ∈ granted ∧ ∃ entry, a.waiting rid = some entry ∧ key ∈ entry.keys) := by
  induction h with
  | done a => simp
  | refused hentry hfirst h rest ih => rw [ih, h.holds_iff, h.waiting]
  | @granted a b c rid' entry granted hentry hfirst h rest ih =>
    rw [ih, h.holds_iff, h.left.waiting]
    by_cases heq : rid = rid'
    · subst heq
      simp [hentry]
    · simp [heq]

/-- When a request is admitted, no earlier arrival waits for what it asked. -/
theorem in_order (h : Tries res holds a granted b) (hsound : Sound order res holds a)
    {before after : List Rid} {rid earlier : Rid} {key : Key}
    {entry entry' : Waiting Node Walk Key Info} (hgranted : granted = before ++ rid :: after)
    (hentry : a.waiting rid = some entry) (hkey : key ∈ entry.keys)
    (hearlier : a.waiting earlier = some entry') (hkey' : key ∈ entry'.keys)
    (hlt : a.number earlier < a.number rid) : earlier ∈ before := by
  induction h generalizing before with
  | done a => simp at hgranted
  | refused hentry' hfirst h rest ih =>
    apply ih (h.sound hsound hfirst) hgranted
    · rw [h.waiting, hentry]
    · rw [h.waiting, hearlier]
    · rw [h.number]
      exact hlt
  | @granted a b c one entryOne granted hone hfirst h rest ih =>
    cases before with
    | nil =>
      -- the request admitted is first, so nobody waits ahead of it
      rw [List.nil_append, List.cons.injEq] at hgranted
      obtain ⟨rfl, -⟩ := hgranted
      rw [hone] at hentry
      cases hentry
      have hhead := (first_iff.1 hfirst).1 key hkey
      have hmem := (hsound.filed.queued earlier key).2 ⟨entry', hearlier, hkey'⟩
      have hsorted := hsound.filed.sorted key
      cases hqueue : a.queues key with
      | nil => simp [hqueue] at hmem
      | cons r queue =>
        rw [hqueue] at hhead hmem hsorted
        have hr : r = one := by simpa using hhead
        subst hr
        rcases List.mem_cons.1 hmem with rfl | hmem
        · omega
        · have := (List.pairwise_cons.1 hsorted).1 earlier hmem
          omega
    | cons first before =>
      rw [List.cons_append, List.cons.injEq] at hgranted
      obtain ⟨rfl, hgranted⟩ := hgranted
      by_cases hfirst' : earlier = one
      · subst hfirst'
        exact List.mem_cons_self
      · have hrid : rid ∈ granted := by
          rw [hgranted]
          simp
        obtain ⟨entryRid, hwaits⟩ := rest.waited hrid
        have hne := (h.left.waited hwaits).1
        apply List.mem_cons_of_mem
        apply ih (h.sound hsound) hgranted
        · rw [h.left.waiting_of_ne hne]
          exact hentry
        · rw [h.left.waiting_of_ne hfirst']
          exact hearlier
        · rw [h.left.number]
          exact hlt

/-- Tries that admit nothing leave the queues as they are and drop no mark. -/
theorem none_granted (h : Tries res holds a [] b) :
    b.queues = a.queues ∧ b.waiting = a.waiting ∧ b.untried = a.untried ∧
      ∀ key, a.short key ≠ none → b.short key ≠ none := by
  generalize hnil : ([] : List Rid) = granted at h
  induction h with
  | done a => exact ⟨rfl, rfl, rfl, fun _ hshort => hshort⟩
  | refused hentry hfirst h rest ih =>
    obtain ⟨hqueues, hwaiting, huntried, hshort⟩ := ih hnil
    refine ⟨by rw [hqueues, h.queues], by rw [hwaiting, h.waiting], by rw [huntried, h.untried], ?_⟩
    intro key hmarked
    apply hshort
    obtain ⟨key', -, mark, heq, -⟩ := h.mark
    rw [heq]
    by_cases hkey : key = key'
    · subst hkey
      simp
    · rw [Function.update_of_ne hkey]
      exact hmarked
  | granted hentry hfirst h rest ih => cases hnil

/-- An admission shortens a queue. -/
theorem queued_le (h : Tries res holds a granted b) (hsound : Sound order res holds a) :
    queued order b + granted.length ≤ queued order a := by
  induction h with
  | done a => simp
  | refused hentry hfirst h rest ih =>
    have := ih (h.sound hsound hfirst)
    unfold queued at this ⊢
    rw [h.queues] at this
    exact this
  | @granted a b c rid entry granted hentry hfirst h rest ih =>
    have hrest := ih (h.sound hsound)
    have hshorter : queued order b < queued order a := by
      obtain ⟨key, hkey⟩ := List.exists_mem_of_ne_nil _ (hsound.filed.asked rid entry hentry)
      unfold queued
      apply List.sum_lt_sum
      · intro key' _
        rw [h.left.queues]
        exact List.erase_sublist.length_le
      · have hmem : rid ∈ a.queues key :=
          (hsound.filed.queued rid key).2 ⟨entry, hentry, hkey⟩
        refine ⟨key, hsound.filed.known rid entry hentry hkey, ?_⟩
        rw [h.left.queues]
        change ((a.queues key).erase rid).length < (a.queues key).length
        rw [List.length_erase_of_mem hmem]
        have := List.length_pos_of_mem hmem
        omega
    rw [List.length_cons]
    omega

end Tries

variable [DecidableEq Node]

/-- A try of a waiting request is refused or takes all. -/
theorem reserve_cases (hc : ∀ key, Contract (res key) (holds key)) (hsound : Sound order res holds a)
    {rid : Rid} {entry : Waiting Node Walk Key Info} (hentry : a.waiting rid = some entry)
    (publishedOf : Node → Published Key Info) :
    (∃ b, reserve res a rid publishedOf = (none, b) ∧ Refusal res holds a rid entry.keys b) ∨
      ∃ b, reserve res a rid publishedOf = (some entry.nodes, b) ∧ Grant holds a rid entry b := by
  unfold reserve
  rw [hentry]
  dsimp only
  have hfree : ∀ key ∈ entry.asked.map Prod.fst, ¬ holds key (a.state key) rid :=
    fun key hkey => hsound.unheld rid entry key hentry hkey
  cases htake : takeAll res rid publishedOf entry.asked [] a with
  | mk took b =>
    cases took with
    | false =>
      obtain ⟨state, key, mark, hkey, rfl, hmark, hgrew, hrest, hholds⟩ :=
        takeAll_refused hc (hsound.filed.nodup rid entry hentry) hfree htake
      refine .inl ⟨_, rfl, ?_⟩
      constructor
      · exact ⟨key, hkey, mark, rfl, hmark, hgrew⟩
      · intro key' hkey'
        exact hrest key' hkey'
      · intro key' rid'
        rw [hholds key' rid']
        simp
      all_goals rfl
    | true =>
      obtain ⟨state, rfl, hrest, hholds⟩ := takeAll_ok hc htake
      have hleft := dequeue_left (a := { a with state := state })
        (hsound.filed.of_same rfl rfl rfl rfl) rid
      have hstate : ((dequeue { a with state := state } rid).admitOn rid entry.nodes).state = state :=
        hleft.state
      refine .inr ⟨_, rfl, ?_⟩
      constructor
      · rw [hstate]
        exact ⟨hleft.waiting, hleft.queues, hleft.short, hleft.untried, hleft.arrival,
          hleft.arrivals, hleft.state⟩
      · rw [hstate]
        exact hrest
      · rw [hstate]
        exact hholds

end Admission

end Mstar
