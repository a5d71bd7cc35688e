import Mstar.AdmissionTries

/-!
# Sweeps over the queues

A sweep is tries of first requests in a row, and one that admits nothing leaves
every request that is first in all its queues with a mark at one of them. There
are enough sweeps for the last to admit nothing.
-/

namespace Mstar

namespace Admission

variable {Rid Node Walk Info State Mark Fault Key : Type} {order : List Key}
  {res : Key → Resource Rid Node Walk Info State Mark Fault} {holds : Key → State → Rid → Prop}
  {a b : Admission Rid Node Walk Info State Mark Key}

/-- Who is first in all its queues was refused by one of the resources. -/
def Settled (a : Admission Rid Node Walk Info State Mark Key) : Prop :=
  ∀ rid entry, a.waiting rid = some entry → a.Heads rid entry →
    ∃ key ∈ entry.keys, a.short key ≠ none

variable [DecidableEq Rid] [DecidableEq Node] [DecidableEq Key]

/-- A queue's first request, with what it waits for. -/
def front (a : Admission Rid Node Walk Info State Mark Key) (key : Key) :
    Option (Rid × Waiting Node Walk Key Info) :=
  (a.queues key).head?.bind fun rid => (a.waiting rid).map (rid, ·)

omit [DecidableEq Rid] [DecidableEq Node] [DecidableEq Key] in
/-- The front of a queue is a waiting request. -/
theorem front_some {key : Key} {rid : Rid} {entry : Waiting Node Walk Key Info}
    (h : a.front key = some (rid, entry)) :
    (a.queues key).head? = some rid ∧ a.waiting rid = some entry := by
  unfold front at h
  rw [Option.bind_eq_some_iff] at h
  obtain ⟨rid', hhead, hmap⟩ := h
  rw [Option.map_eq_some_iff] at hmap
  obtain ⟨entry', hentry, heq⟩ := hmap
  cases heq
  exact ⟨hhead, hentry⟩

/-- A queue without a front is passed over. -/
theorem sweep_none (publishedOf : Rid → Node → Published Key Info) {key : Key} {keys : List Key}
    (h : a.front key = none) :
    sweep res publishedOf (key :: keys) a = sweep res publishedOf keys a := by
  unfold front at h
  rw [sweep, h]

/-- So is one whose front is not first everywhere. -/
theorem sweep_held (publishedOf : Rid → Node → Published Key Info) {key : Key} {keys : List Key}
    {rid : Rid} {entry : Waiting Node Walk Key Info} (h : a.front key = some (rid, entry))
    (hfirst : ¬ a.first rid entry = true) :
    sweep res publishedOf (key :: keys) a = sweep res publishedOf keys a := by
  unfold front at h
  rw [sweep, h]
  dsimp only
  rw [if_neg hfirst]

/-- Any other front is tried. -/
theorem sweep_tried (publishedOf : Rid → Node → Published Key Info) {key : Key} {keys : List Key}
    {rid : Rid} {entry : Waiting Node Walk Key Info} (h : a.front key = some (rid, entry))
    (hfirst : a.first rid entry = true) {nodes : Option (List Node)}
    (hreserve : reserve res a rid (publishedOf rid) = (nodes, b)) :
    sweep res publishedOf (key :: keys) a =
      (((nodes.getD []).map (·, rid)) ++ (sweep res publishedOf keys b).1,
        (sweep res publishedOf keys b).2) := by
  unfold front at h
  rw [sweep, h]
  dsimp only
  rw [if_pos hfirst, hreserve]

/-- A sweep is tries in a row, and it returns something exactly if it admitted. -/
theorem sweep_tries (hc : ∀ key, Contract (res key) (holds key)) (hsound : Sound order res holds a)
    (hnoted : Noted a) (publishedOf : Rid → Node → Published Key Info) (keys : List Key) :
    ∃ granted, Tries res holds a granted (sweep res publishedOf keys a).2 ∧
      ((sweep res publishedOf keys a).1 = [] ↔ granted = []) := by
  induction keys generalizing a with
  | nil => exact ⟨[], .done a, by simp [sweep]⟩
  | cons key keys ih =>
    cases hfront : a.front key with
    | none =>
      rw [sweep_none publishedOf hfront]
      exact ih hsound hnoted
    | some first =>
      obtain ⟨rid, entry⟩ := first
      obtain ⟨-, hentry⟩ := front_some hfront
      by_cases hfirst : a.first rid entry = true
      · rcases reserve_cases hc hsound hentry (publishedOf rid) with ⟨b, hb, h⟩ | ⟨b, hb, h⟩
        · rw [sweep_tried publishedOf hfront hfirst hb]
          have htry : Tries res holds a [] b := .refused hentry hfirst h (.done b)
          obtain ⟨granted, htries, hnil⟩ := ih (h.sound hsound hfirst) (htry.noted hnoted)
          refine ⟨granted, htry.append htries, ?_⟩
          simpa using hnil
        · rw [sweep_tried publishedOf hfront hfirst hb]
          have htry : Tries res holds a [rid] b := .granted hentry hfirst h (.done b)
          obtain ⟨granted, htries, -⟩ := ih (h.sound hsound) (htry.noted hnoted)
          refine ⟨rid :: granted, htry.append htries, ?_⟩
          simp [hnoted rid entry hentry]
      · rw [sweep_held publishedOf hfront hfirst]
        exact ih hsound hnoted

/-- After a sweep that admitted nothing, a request that is first in all its queues
has a mark at one of them. -/
theorem sweep_settles (hc : ∀ key, Contract (res key) (holds key)) (hsound : Sound order res holds a)
    (hnoted : Noted a) (publishedOf : Rid → Node → Published Key Info) {keys : List Key}
    (hnone : (sweep res publishedOf keys a).1 = []) {rid : Rid} {entry : Waiting Node Walk Key Info}
    (hentry : a.waiting rid = some entry) (hheads : a.Heads rid entry) {key : Key} (hkey : key ∈ keys)
    (hasked : key ∈ entry.keys) :
    ∃ key' ∈ entry.keys, (sweep res publishedOf keys a).2.short key' ≠ none := by
  induction keys generalizing a with
  | nil => cases hkey
  | cons one keys ih =>
    have hkeep {b : Admission Rid Node Walk Info State Mark Key} (hsound : Sound order res holds b)
        (hnoted : Noted b) (hnone : (sweep res publishedOf keys b).1 = []) {key' : Key}
        (hshort : b.short key' ≠ none) : (sweep res publishedOf keys b).2.short key' ≠ none := by
      obtain ⟨granted, htries, hnil⟩ := sweep_tries hc hsound hnoted publishedOf keys
      rw [hnil.1 hnone] at htries
      exact htries.none_granted.2.2.2 key' hshort
    cases hfront : a.front one with
    | none =>
      rw [sweep_none publishedOf hfront] at hnone ⊢
      apply ih hsound hnoted hnone hentry hheads
      rcases List.mem_cons.1 hkey with rfl | hkey
      · unfold front at hfront
        rw [hheads key hasked, Option.bind_some, hentry] at hfront
        cases hfront
      · exact hkey
    | some first =>
      obtain ⟨rid', entry'⟩ := first
      obtain ⟨hhead', hentry'⟩ := front_some hfront
      by_cases hfirst : a.first rid' entry' = true
      · rcases reserve_cases hc hsound hentry' (publishedOf rid') with ⟨b, hb, h⟩ | ⟨b, hb, h⟩
        · rw [sweep_tried publishedOf hfront hfirst hb] at hnone ⊢
          have htry : Tries res holds a [] b := .refused hentry' hfirst h (.done b)
          have hnone' : (sweep res publishedOf keys b).1 = [] := by simpa using hnone
          rcases List.mem_cons.1 hkey with rfl | hkey
          · -- the request tried is this one
            have heq : rid' = rid := by
              rw [hheads key hasked] at hhead'
              simpa using hhead'.symm
            subst heq
            rw [hentry] at hentry'
            cases hentry'
            obtain ⟨marked, hmarked, mark, hshort, -⟩ := h.mark
            refine ⟨marked, hmarked, ?_⟩
            apply hkeep (h.sound hsound hfirst) (htry.noted hnoted) hnone'
            rw [hshort]
            simp
          · apply ih (h.sound hsound hfirst) (htry.noted hnoted) hnone' _ _ hkey
            · rw [h.waiting]
              exact hentry
            · intro key' hkey'
              rw [h.queues]
              exact hheads key' hkey'
        · rw [sweep_tried publishedOf hfront hfirst hb] at hnone
          simp [hnoted rid' entry' hentry'] at hnone
      · rw [sweep_held publishedOf hfront hfirst] at hnone ⊢
        rcases List.mem_cons.1 hkey with rfl | hkey
        · -- first everywhere but not tried: a mark is there already
          have heq : rid' = rid := by
            rw [hheads key hasked] at hhead'
            simpa using hhead'.symm
          subst heq
          rw [hentry] at hentry'
          cases hentry'
          rw [first_iff, not_and] at hfirst
          have hmarked := hfirst hheads
          push Not at hmarked
          obtain ⟨marked, hmarked, hshort⟩ := hmarked
          exact ⟨marked, hmarked, hkeep hsound hnoted hnone hshort⟩
        · exact ih hsound hnoted hnone hentry hheads hkey

/-- With more sweeps than requests are queued, the last one admits nothing. -/
theorem sweeps_settle (hc : ∀ key, Contract (res key) (holds key)) (hsound : Sound order res holds a)
    (hnoted : Noted a) (publishedOf : Rid → Node → Published Key Info) {turns : ℕ}
    (hturns : queued order a < turns) :
    ∃ granted, Tries res holds a granted (sweeps res order publishedOf turns a).2 ∧
      Settled (sweeps res order publishedOf turns a).2 := by
  induction turns generalizing a with
  | zero => omega
  | succ turns ih =>
    obtain ⟨granted, htries, hnil⟩ := sweep_tries hc hsound hnoted publishedOf order
    unfold sweeps
    dsimp only
    split
    next hnone =>
      refine ⟨granted, htries, ?_⟩
      have hgranted := hnil.1 hnone
      subst hgranted
      obtain ⟨hqueues, hwaiting, -, -⟩ := htries.none_granted
      intro rid entry hentry hheads
      rw [hwaiting] at hentry
      have hheads' : a.Heads rid entry := by
        intro key hkey
        rw [← hqueues]
        exact hheads key hkey
      obtain ⟨key, hkey⟩ := List.exists_mem_of_ne_nil _ (hsound.filed.asked rid entry hentry)
      exact sweep_settles hc hsound hnoted publishedOf hnone hentry hheads'
        (hsound.filed.known rid entry hentry hkey) hkey
    next hsome =>
      have hshorter := htries.queued_le hsound
      have hpos : granted.length ≠ 0 := by
        intro hzero
        exact hsome (hnil.2 (List.length_eq_zero_iff.1 hzero))
      obtain ⟨more, hmore, hsettled⟩ := ih (htries.sound hsound) (htries.noted hnoted) (by omega)
      exact ⟨granted ++ more, htries.append hmore, hsettled⟩

end Admission

end Mstar
