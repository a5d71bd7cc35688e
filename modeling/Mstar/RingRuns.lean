import Mstar.RingManager

/-!
# Runs of a ring

Requests claim sessions, pass and commit frames in any batches, and release their
sessions to others. At every point what the attention manager stages for a session's
next frame is what the ring's own visibility row marks.
-/

namespace Mstar.RingKV

variable {ι ρ α : Type*} [DecidableEq ι] [DecidableEq ρ] [Zero α]

/-- The frames that each session committed since it was last claimed, in a layer. -/
abbrev Past (ι α : Type*) := ι → ℕ → List (ℕ → α)

/-- What a committed pass adds to the past. -/
def Past.commit (past : Past ι α) (rows : ι → List (Row α)) : Past ι α :=
  fun l s => past l s ++ ((rows l).filter fun r => r.sessionIdx == s).map Row.frame

/-- A session that is released has no past. -/
def Past.release (past : Past ι α) (session : Option ℕ) : Past ι α :=
  fun l s => if session = some s then [] else past l s

/-- The runs of a ring: requests are ingested and admitted, passes and commits take
the rows of a step, each commit at its requests' next clocks, and requests go. -/
inductive Runs (c : RingKVConfig ι) : RingKVManager ι ρ α → Past ι α → Prop
  | built : Runs c (RingKVManager.build c) fun _ _ => []
  | ingest {m past} (h : Runs c m past) (rid : ρ) : Runs c (m.ingest rid) past
  | admission {m past} (h : Runs c m past) (rids : List ρ) (frames : ρ → Option ℕ) :
      Runs c (m.admits rids frames).1 past
  /-- A pass of one layer that is not committed. -/
  | pass {m past} (h : Runs c m past) (l : ι) (rids : List ρ) (frames : ρ → Option ℕ)
      (data : ρ → ℕ → α) (padding : List (ℕ × (ℕ → α))) (rows : List (Row α))
      (hrows : m.rowsOf c rids frames data padding = some rows) : Runs c (m.upsert c l rows) past
  | commit {m past} (h : Runs c m past) (rids : List ρ) (hnodup : rids.Nodup)
      (frames : ρ → Option ℕ) (n : ℕ) (staged : List (ℕ × ℕ))
      (hplan : m.plan c rids n frames = some staged)
      (hclock : ∀ rid ∈ rids, frames rid = some (m.nextFrame rid))
      (data : ι → ρ → ℕ → α) (padding : ι → List (ℕ × (ℕ → α))) (rows : ι → List (Row α))
      (hrows : ∀ l, m.rowsOf c rids frames (data l) (padding l) = some (rows l)) :
      Runs c (m.commitStep c rows rids frames) (past.commit rows)
  | reset {m past} (h : Runs c m past) (rid : ρ) :
      Runs c (m.releaseSession c rid) (past.release (m.sessions rid))
  | remove {m past} (h : Runs c m past) (rid : ρ) :
      Runs c (m.removeRequest c rid) (past.release (m.sessions rid))

/-- The sessions, apart from what is in them: each is free or one request's. -/
structure Claims (c : RingKVConfig ι) (m : RingKVManager ι ρ α) : Prop where
  claimed : ∀ rid s, m.sessions rid = some s → s < c.numSessions ∧ s ∉ m.free
  once : ∀ rid rid' s, m.sessions rid = some s → m.sessions rid' = some s → rid = rid'
  free_lt : ∀ s ∈ m.free, s < c.numSessions
  free_nodup : m.free.Nodup
  clock : ∀ rid, m.sessions rid = none → m.lastFrames rid = none

/-- Each session holds its past, and its request's clock counts it. -/
structure Inv (c : RingKVConfig ι) (m : RingKVManager ι ρ α) (past : Past ι α) : Prop where
  claims : Claims c m
  clock : ∀ rid s, m.sessions rid = some s → ∀ l, (past l s).length = m.nextFrame rid
  idle : ∀ s < c.numSessions, (∀ rid, m.sessions rid ≠ some s) → ∀ l, past l s = []
  holds : ∀ l, ∀ s < c.numSessions,
    Holds (c.layers l) c.tokensPerFrame s (past l s) (m.layers l)

variable {c : RingKVConfig ι} {m : RingKVManager ι ρ α} {past : Past ι α}

/-- The allocated ring holds nothing. -/
theorem holds_build (g : Geometry) (tokens s : ℕ) :
    Holds g tokens s ([] : List (ℕ → α)) (LayerRing.build g tokens) := by
  have hwritten {j t : ℕ} (hj : j ≤ g.ringFrames) (ht : t < tokens) :
      (LayerRing.build g tokens : LayerRing α).written (g.base tokens s j + t) = true ↔
        j = g.ringFrames := by
    have hroom : j * tokens + t < g.capacity tokens := by
      have hle : j * tokens ≤ g.ringFrames * tokens := Nat.mul_le_mul_right tokens hj
      unfold Geometry.capacity Geometry.ringLen
      omega
    have hmod : (g.base tokens s j + t) % g.capacity tokens = j * tokens + t := by
      unfold Geometry.base
      rw [Nat.add_right_comm, Nat.add_mul_mod_self_right, Nat.mod_eq_of_lt hroom]
    unfold LayerRing.build
    dsimp only
    rw [hmod, decide_eq_true_iff]
    unfold Geometry.ringLen
    constructor
    · intro hle
      by_contra hne
      have hless : (j + 1) * tokens ≤ g.ringFrames * tokens :=
        Nat.mul_le_mul_right tokens (by omega)
      rw [Nat.succ_mul] at hless
      omega
    · rintro rfl
      omega
  refine ⟨fun t ht => (hwritten (le_refl _) ht).2 rfl, fun j hj t ht => ?_, ?_⟩
  · rw [hwritten (le_of_lt hj) ht]
    constructor
    · intro heq
      omega
    · rintro ⟨k, hk, -⟩
      exact absurd hk (Nat.not_lt_zero _)
  · intro k frame hk
    simp at hk

/-- A reset session holds nothing, and the others what they held. -/
theorem holds_reset {g : Geometry} {tokens s : ℕ} {own : List (ℕ → α)} {ring : LayerRing α}
    (s' : ℕ) (h : Holds g tokens s own ring) :
    Holds g tokens s (if s' = s then [] else own) (ring.reset g tokens s') := by
  have hspan {j t : ℕ} (hj : j ≤ g.ringFrames) (ht : t < tokens) :
      (s' * g.capacity tokens ≤ g.base tokens s j + t ∧
        g.base tokens s j + t < s' * g.capacity tokens + g.capacity tokens) ↔ s' = s := by
    have hdiv := g.session_base tokens (s := s) hj ht
    have hpos : 0 < g.capacity tokens := by
      unfold Geometry.capacity
      omega
    rw [← Nat.succ_mul, ← Nat.le_div_iff_mul_le hpos, ← Nat.div_lt_iff_lt_mul hpos, hdiv]
    omega
  have hkv {j t : ℕ} (hj : j ≤ g.ringFrames) (ht : t < tokens) (hs : s' ≠ s) :
      (ring.reset g tokens s').kv (g.base tokens s j + t) = ring.kv (g.base tokens s j + t) := by
    unfold LayerRing.reset
    dsimp only
    rw [if_neg fun hin => hs ((hspan hj ht).1 hin)]
  have hwritten {j t : ℕ} (hj : j ≤ g.ringFrames) (ht : t < tokens) :
      (ring.reset g tokens s').written (g.base tokens s j + t) =
        if s' = s then decide (g.ringFrames ≤ j) else ring.written (g.base tokens s j + t) := by
    unfold LayerRing.reset
    dsimp only
    by_cases hs : s' = s
    · rw [if_pos ((hspan hj ht).2 hs), if_pos hs]
      subst hs
      congr 1
      rw [eq_iff_iff]
      unfold Geometry.base Geometry.ringLen
      constructor
      · intro hle
        by_contra hless
        have hroom : (j + 1) * tokens ≤ g.ringFrames * tokens :=
          Nat.mul_le_mul_right tokens (by omega)
        rw [Nat.succ_mul] at hroom
        omega
      · intro hle
        have hroom : g.ringFrames * tokens ≤ j * tokens := Nat.mul_le_mul_right tokens hle
        omega
    · rw [if_neg fun hin => hs ((hspan hj ht).1 hin), if_neg hs]
  constructor
  · intro t ht
    rw [hwritten (le_refl _) ht]
    split
    · exact decide_eq_true (le_refl _)
    · exact h.scratch t ht
  · intro j hj t ht
    rw [hwritten (le_of_lt hj) ht]
    split
    · rw [decide_eq_true_iff]
      constructor
      · intro hle
        omega
      · rintro ⟨k, hk, -⟩
        exact absurd hk (Nat.not_lt_zero _)
    · exact h.slots j hj t ht
  · intro k frame hk hle t ht
    by_cases hs : s' = s
    · rw [if_pos hs] at hk
      simp at hk
    · rw [if_neg hs] at hk hle
      rw [hkv (le_of_lt (Holds.bucket_lt g k)) ht hs]
      exact h.frames k frame hk hle t ht

/-- Each request of a list gets its part, in order. -/
theorem forall₂_of_mapM {β γ : Type*} {f : β → Option γ} :
    ∀ {xs : List β} {ys : List γ}, xs.mapM (m := Option) f = some ys →
      List.Forall₂ (fun x y => f x = some y) xs ys
  | [], ys, h => by
    obtain rfl : [] = ys := by simpa using h
    exact List.Forall₂.nil
  | x :: xs, ys, h => by
    rw [List.mapM_cons] at h
    cases hx : f x with
    | none =>
      rw [hx] at h
      cases h
    | some y =>
      cases hrest : xs.mapM (m := Option) f with
      | none =>
        rw [hx, hrest] at h
        cases h
      | some rest =>
        rw [hx, hrest] at h
        obtain rfl : y :: rest = ys := by simpa using h
        exact List.Forall₂.cons hx (forall₂_of_mapM hrest)

namespace Claims

omit [DecidableEq ι] [DecidableEq ρ] [Zero α] in
/-- Of the rows of a pass, a session has its request's row, or none. -/
theorem rows_of (h : Claims c m) {rids : List ρ} (hnodup : rids.Nodup) {frames : ρ → Option ℕ}
    {data : ρ → ℕ → α} {padding : List (ℕ × (ℕ → α))} {rows : List (Row α)}
    (hrows : m.rowsOf c rids frames data padding = some rows) {s : ℕ}
    (hs : s < c.numSessions) :
    ((∀ rid ∈ rids, m.sessions rid ≠ some s) →
      (rows.filter fun r => r.sessionIdx == s) = []) ∧
    ∀ rid ∈ rids, m.sessions rid = some s → ∃ frame, frames rid = some frame ∧
      (rows.filter fun r => r.sessionIdx == s) = [⟨s, frame, data rid⟩] := by
  unfold RingKVManager.rowsOf at hrows
  split at hrows
  · cases hrows
  · rename_i real hreal
    obtain rfl := Option.some.inj hrows
    have hpadding : (padding.map fun p => (⟨c.numSessions, p.1, p.2⟩ : Row α)).filter
        (fun r => r.sessionIdx == s) = [] := by
      rw [List.filter_eq_nil_iff]
      intro r hr
      obtain ⟨p, -, rfl⟩ := List.mem_map.1 hr
      simpa using Nat.ne_of_gt hs
    simp only [List.filter_append, hpadding, List.append_nil]
    have hall := forall₂_of_mapM hreal
    clear hreal hpadding hrows
    induction hall with
    | nil => exact ⟨fun _ => rfl, fun rid hin => by cases hin⟩
    | @cons rid row rids real hrow _ ih =>
      rw [List.nodup_cons] at hnodup
      obtain ⟨hnone, hone⟩ := ih hnodup.2
      split at hrow
      · rename_i s' frame hsession hframe
        obtain rfl := Option.some.inj hrow
        by_cases hself : s' = s
        · subst hself
          have hothers : ∀ rid' ∈ rids, m.sessions rid' ≠ some s' := by
            intro rid' hin hsame
            obtain rfl := h.once rid rid' s' hsession hsame
            exact hnodup.1 hin
          rw [List.filter_cons_of_pos (by simp), hnone hothers]
          refine ⟨fun hno => absurd hsession (hno rid List.mem_cons_self), ?_⟩
          intro rid' hin hsame
          obtain rfl := h.once rid rid' s' hsession hsame
          exact ⟨frame, hframe, rfl⟩
        · rw [List.filter_cons_of_neg (by simpa using hself)]
          refine ⟨fun hno => hnone fun rid' hin => hno rid' (List.mem_cons_of_mem rid hin), ?_⟩
          intro rid' hin hsame
          rcases List.mem_cons.1 hin with rfl | hin
          · rw [hsession] at hsame
            exact absurd (Option.some.inj hsame) hself
          · exact hone rid' hin hsame
      · cases hrow

omit [DecidableEq ι] [DecidableEq ρ] [Zero α] in
/-- A planned request holds a session. -/
theorem planned {rids : List ρ} {n : ℕ} {frames : ρ → Option ℕ} {staged : List (ℕ × ℕ)}
    (hplan : m.plan c rids n frames = some staged) {rid : ρ} (hin : rid ∈ rids) :
    m.sessions rid ≠ none := by
  unfold RingKVManager.plan at hplan
  split at hplan
  · cases hplan
  · rename_i hroom
    split at hplan
    · cases hplan
    · rename_i real hreal
      have hall := forall₂_of_mapM hreal
      clear hreal hplan hroom
      induction hall with
      | nil => cases hin
      | cons hrow _ ih =>
        rcases List.mem_cons.1 hin with rfl | hin
        · split at hrow
          · rename_i s frame hsession hframe
            rw [hsession]
            exact Option.some_ne_none s
          · cases hrow
        · exact ih hin

end Claims

namespace Inv

omit [DecidableEq ι] [Zero α] in
/-- A claim takes a free session, which has no past. -/
theorem claim (h : Inv c m past) (rid : ρ) : Inv c (m.claim rid) past := by
  obtain ⟨⟨hclaimed, honce, hlt, hnodup, hnone⟩, hclock, hidle, hholds⟩ := h
  unfold RingKVManager.claim
  cases hsession : m.sessions rid with
  | some s => exact ⟨⟨hclaimed, honce, hlt, hnodup, hnone⟩, hclock, hidle, hholds⟩
  | none =>
    cases hmin : m.free.min? with
    | none => exact ⟨⟨hclaimed, honce, hlt, hnodup, hnone⟩, hclock, hidle, hholds⟩
    | some s =>
      have hfree : s ∈ m.free := List.min?_mem hmin
      have hfresh (rid' : ρ) : m.sessions rid' ≠ some s := fun hno =>
        (hclaimed rid' s hno).2 hfree
      have hother {rid' : ρ} (hne : rid' ≠ rid) :
          Function.update m.sessions rid (some s) rid' = m.sessions rid' :=
        Function.update_of_ne hne _ _
      have hself : Function.update m.sessions rid (some s) rid = some s :=
        Function.update_self _ _ _
      dsimp only
      refine ⟨⟨fun rid' s' hs' => ?_, fun rid' rid'' s' hs' hs'' => ?_, fun s' hs' => ?_,
        hnodup.erase s, fun rid' hs' => ?_⟩, fun rid' s' hs' l => ?_, fun s' hs' hno l => ?_,
        hholds⟩
      · dsimp only at hs'
        by_cases hr : rid' = rid
        · subst hr
          rw [hself] at hs'
          obtain rfl := Option.some.inj hs'
          exact ⟨hlt s hfree, hnodup.not_mem_erase⟩
        · rw [hother hr] at hs'
          obtain ⟨hroom, hapart⟩ := hclaimed rid' s' hs'
          exact ⟨hroom, fun hin => hapart (List.mem_of_mem_erase hin)⟩
      · dsimp only at hs' hs''
        by_cases hr : rid' = rid
        · by_cases hr' : rid'' = rid
          · rw [hr, hr']
          · subst hr
            rw [hself] at hs'
            rw [hother hr', ← hs'] at hs''
            exact absurd hs'' (hfresh rid'')
        · by_cases hr' : rid'' = rid
          · subst hr'
            rw [hself] at hs''
            rw [hother hr, ← hs''] at hs'
            exact absurd hs' (hfresh rid')
          · rw [hother hr] at hs'
            rw [hother hr'] at hs''
            exact honce rid' rid'' s' hs' hs''
      · exact hlt s' (List.mem_of_mem_erase hs')
      · dsimp only at hs'
        by_cases hr : rid' = rid
        · subst hr
          rw [hself] at hs'
          cases hs'
        · rw [hother hr] at hs'
          exact hnone rid' hs'
      · dsimp only at hs'
        by_cases hr : rid' = rid
        · subst hr
          rw [hself] at hs'
          obtain rfl := Option.some.inj hs'
          have hzero : m.nextFrame rid' = 0 := by
            unfold RingKVManager.nextFrame
            rw [hnone rid' hsession]
          rw [hidle s (hlt s hfree) hfresh l]
          exact hzero.symm
        · rw [hother hr] at hs'
          exact hclock rid' s' hs' l
      · refine hidle s' hs' (fun rid' hold => ?_) l
        by_cases hr : rid' = rid
        · subst hr
          rw [hsession] at hold
          cases hold
        · exact hno rid' ((hother hr).trans hold)

omit [DecidableEq ι] [Zero α] in
/-- An admission claims sessions, or changes nothing. -/
theorem admission (h : Inv c m past) (rids : List ρ) (frames : ρ → Option ℕ) :
    Inv c (m.admits rids frames).1 past := by
  have hclaims (rids : List ρ) : Inv c (rids.foldl (fun m rid => m.claim rid) m) past := by
    induction rids generalizing m with
    | nil => exact h
    | cons rid rids ih => exact ih (h.claim rid)
  unfold RingKVManager.admits
  dsimp only
  split
  · exact h
  · split
    · exact h
    · split
      · exact h
      · split
        · exact h
        · exact hclaims rids

omit [DecidableEq ρ] [Zero α] in
/-- A pass reaches scratch frames only. -/
theorem pass (h : Inv c m past) (l : ι) (rows : List (Row α)) :
    Inv c (m.upsert c l rows) past := by
  refine ⟨⟨h.claims.claimed, h.claims.once, h.claims.free_lt, h.claims.free_nodup,
    h.claims.clock⟩, h.clock, h.idle, fun l' s hs => ?_⟩
  unfold RingKVManager.upsert
  dsimp only
  by_cases hl : l' = l
  · subst hl
    rw [Function.update_self]
    exact (h.holds l' s hs).upsert_passes rows
  · rw [Function.update_of_ne hl]
    exact h.holds l' s hs

omit [DecidableEq ι] [Zero α] in
/-- A commit adds its requests' frames to their sessions' pasts. -/
theorem commit (h : Inv c m past) {rids : List ρ} (hnodup : rids.Nodup)
    {frames : ρ → Option ℕ} {n : ℕ} {staged : List (ℕ × ℕ)}
    (hplan : m.plan c rids n frames = some staged)
    (hnext : ∀ rid ∈ rids, frames rid = some (m.nextFrame rid))
    {data : ι → ρ → ℕ → α} {padding : ι → List (ℕ × (ℕ → α))} {rows : ι → List (Row α)}
    (hrows : ∀ l, m.rowsOf c rids frames (data l) (padding l) = some (rows l)) :
    Inv c (m.commitStep c rows rids frames) (past.commit rows) := by
  have hclock (rid : ρ) : (m.commitStep c rows rids frames).nextFrame rid =
      if rid ∈ rids then m.nextFrame rid + 1 else m.nextFrame rid := by
    unfold RingKVManager.nextFrame RingKVManager.commitStep RingKVManager.commitFrames
    dsimp only
    by_cases hin : rid ∈ rids
    · rw [if_pos hin, if_pos hin, hnext rid hin]
      rfl
    · rw [if_neg hin, if_neg hin]
  have hnone {l : ι} {s : ℕ} (hs : s < c.numSessions)
      (hno : ∀ rid ∈ rids, m.sessions rid ≠ some s) :
      ((rows l).filter fun r => r.sessionIdx == s) = [] :=
    (h.claims.rows_of hnodup (hrows l) hs).1 hno
  have hone {l : ι} {rid : ρ} {s : ℕ} (hin : rid ∈ rids) (hsession : m.sessions rid = some s) :
      ((rows l).filter fun r => r.sessionIdx == s) = [⟨s, m.nextFrame rid, data l rid⟩] := by
    obtain ⟨frame, hframe, hrow⟩ := (h.claims.rows_of hnodup (hrows l)
      (h.claims.claimed rid s hsession).1).2 rid hin hsession
    rw [hnext rid hin] at hframe
    obtain rfl := Option.some.inj hframe
    exact hrow
  refine ⟨⟨h.claims.claimed, h.claims.once, h.claims.free_lt, h.claims.free_nodup,
    fun rid hsession => ?_⟩, fun rid s hsession l => ?_, fun s hs hno l => ?_,
    fun l s hs => ?_⟩
  · have hout : rid ∉ rids := fun hin => Claims.planned hplan hin hsession
    unfold RingKVManager.commitStep RingKVManager.commitFrames
    dsimp only
    rw [if_neg hout]
    exact h.claims.clock rid hsession
  · have hlen := h.clock rid s hsession l
    rw [hclock]
    unfold Past.commit
    by_cases hin : rid ∈ rids
    · rw [hone hin hsession, if_pos hin, List.length_append, hlen]
      rfl
    · have hothers : ∀ rid' ∈ rids, m.sessions rid' ≠ some s := by
        intro rid' hin' hsame
        obtain rfl := h.claims.once rid rid' s hsession hsame
        exact hin hin'
      rw [hnone (h.claims.claimed rid s hsession).1 hothers, if_neg hin, List.map_nil,
        List.append_nil, hlen]
  · unfold Past.commit
    rw [hnone hs fun rid _ => hno rid, h.idle s hs hno l]
    rfl
  · unfold Past.commit
    by_cases hany : ∃ rid ∈ rids, m.sessions rid = some s
    · obtain ⟨rid, hin, hsession⟩ := hany
      rw [hone hin hsession]
      exact (h.holds l s hs).upsert_commit (hone hin hsession) (h.clock rid s hsession l).symm
    · have hno : ∀ rid ∈ rids, m.sessions rid ≠ some s := fun rid hin hsession =>
        hany ⟨rid, hin, hsession⟩
      rw [hnone hs hno, List.map_nil, List.append_nil]
      exact (h.holds l s hs).upsert_none true (hnone hs hno)

omit [DecidableEq ι] in
/-- A release empties the request's session. -/
theorem release (h : Inv c m past) (rid : ρ) :
    Inv c (m.releaseSession c rid) (past.release (m.sessions rid)) := by
  unfold RingKVManager.releaseSession Past.release
  cases hsession : m.sessions rid with
  | none => exact h
  | some s =>
    obtain ⟨hroom, hapart⟩ := h.claims.claimed rid s hsession
    have hother {rid' : ρ} (hne : rid' ≠ rid) :
        Function.update m.sessions rid none rid' = m.sessions rid' :=
      Function.update_of_ne hne _ _
    have hself : Function.update m.sessions rid none rid = none := Function.update_self _ _ _
    have hheld {rid' : ρ} {s' : ℕ}
        (hs' : Function.update m.sessions rid none rid' = some s') :
        rid' ≠ rid ∧ m.sessions rid' = some s' ∧ s' ≠ s := by
      have hne : rid' ≠ rid := by
        rintro rfl
        rw [hself] at hs'
        cases hs'
      rw [hother hne] at hs'
      refine ⟨hne, hs', ?_⟩
      rintro rfl
      exact hne (h.claims.once rid' rid s' hs' hsession)
    simp only [if_neg hapart]
    refine ⟨⟨fun rid' s' hs' => ?_, fun rid' rid'' s' hs' hs'' => ?_, fun s' hs' => ?_,
      List.nodup_cons.2 ⟨hapart, h.claims.free_nodup⟩, fun rid' hs' => ?_⟩,
      fun rid' s' hs' l => ?_, fun s' hs' hno l => ?_, fun l s' hs' => ?_⟩
    · obtain ⟨-, hold, hne⟩ := hheld hs'
      obtain ⟨hroom', hapart'⟩ := h.claims.claimed rid' s' hold
      exact ⟨hroom', fun hin => (List.mem_cons.1 hin).elim hne hapart'⟩
    · exact h.claims.once rid' rid'' s' (hheld hs').2.1 (hheld hs'').2.1
    · rcases List.mem_cons.1 hs' with rfl | hin
      · exact hroom
      · exact h.claims.free_lt s' hin
    · by_cases hr : rid' = rid
      · subst hr
        exact Function.update_self _ _ _
      · have hold := (hother hr).symm.trans hs'
        exact (Function.update_of_ne hr _ _).trans (h.claims.clock rid' hold)
    · obtain ⟨hne, hold, hapart'⟩ := hheld hs'
      have hnext : RingKVManager.nextFrame
          { m with lastFrames := Function.update m.lastFrames rid none } rid' =
          m.nextFrame rid' := by
        unfold RingKVManager.nextFrame
        dsimp only
        rw [Function.update_of_ne hne]
      rw [if_neg fun heq => hapart' (Option.some.inj heq).symm]
      exact (h.clock rid' s' hold l).trans hnext.symm
    · by_cases hsame : s = s'
      · rw [if_pos (congrArg some hsame)]
      · rw [if_neg fun heq => hsame (Option.some.inj heq)]
        refine h.idle s' hs' (fun rid' hold => ?_) l
        have hne : rid' ≠ rid := by
          rintro rfl
          exact hsame (Option.some.inj (hsession.symm.trans hold))
        exact hno rid' ((hother hne).trans hold)
    · have hreset := holds_reset s (h.holds l s' hs')
      by_cases hsame : s = s'
      · rw [if_pos hsame] at hreset
        rw [if_pos (congrArg some hsame)]
        exact hreset
      · rw [if_neg hsame] at hreset
        rw [if_neg fun heq => hsame (Option.some.inj heq)]
        exact hreset

end Inv

/-- Every run keeps each session's past. -/
theorem Runs.inv (h : Runs c m past) : Inv c m past := by
  induction h with
  | built =>
    have hnone (rid : ρ) (s : ℕ) : (RingKVManager.build c : RingKVManager ι ρ α).sessions rid ≠
        some s := by
      intro hs
      cases hs
    exact ⟨⟨fun rid s hs => absurd hs (hnone rid s), fun rid _ s hs => absurd hs (hnone rid s),
      fun s hs => List.mem_range.1 hs, List.nodup_range, fun _ _ => rfl⟩,
      fun rid s hs => absurd hs (hnone rid s), fun _ _ _ _ => rfl,
      fun l s _ => holds_build (c.layers l) c.tokensPerFrame s⟩
  | ingest _ rid ih =>
    exact ⟨⟨ih.claims.claimed, ih.claims.once, ih.claims.free_lt, ih.claims.free_nodup,
      ih.claims.clock⟩, ih.clock, ih.idle, ih.holds⟩
  | admission _ rids frames ih => exact ih.admission rids frames
  | pass _ l rids frames data padding rows hrows ih => exact ih.pass l rows
  | commit _ rids hnodup frames n staged hplan hnext data padding rows hrows ih =>
    exact ih.commit hnodup hplan hnext hrows
  | reset _ rid ih => exact ih.release rid
  | remove _ rid ih =>
    obtain ⟨hclaims, hclock, hidle, hholds⟩ := ih.release rid
    exact ⟨⟨hclaims.claimed, hclaims.once, hclaims.free_lt, hclaims.free_nodup,
      hclaims.clock⟩, hclock, hidle, hholds⟩

section Visibility

variable {g : Geometry} {tokens : ℕ}

omit [Zero α] in
/-- A session's visibility row, before its next frame: its scratch, and the slots of
the most recent kept frames. -/
theorem Holds.visibility_iff {s : ℕ} {own : List (ℕ → α)} {ring : LayerRing α}
    (h : Holds g tokens s own ring) {s' j t : ℕ} (hj : j ≤ g.ringFrames) (ht : t < tokens) :
    ring.visibility g tokens s own.length (g.base tokens s' j + t) = true ↔
      s' = s ∧ (j = g.ringFrames ∨ ∃ k ∈ g.recent own.length, k % g.ringBuckets = j) := by
  unfold LayerRing.visibility
  dsimp only
  rw [g.session_base tokens hj ht, g.ringBase_eq, g.inFrame_base tokens hj (slot_le g _) ht]
  by_cases hs : s' = s
  · subst hs
    simp only [beq_self_eq_true, Bool.and_true, true_and, decide_eq_true_eq]
    rw [← g.mem_visibleSlots, g.mem_visibleSlots_written]
    by_cases hlast : j = g.ringFrames
    · have hno : ¬j = g.slot own.length := by
        have hlt : g.slot own.length < g.ringFrames :=
          lt_of_lt_of_le (Nat.mod_lt _ g.buckets_pos) g.buckets_le
        omega
      subst hlast
      rw [if_neg hno, h.scratch t ht]
      simp
    · have hless : j < g.ringFrames := by omega
      have hslots := h.slots j hless t ht
      by_cases hslot : j = g.slot own.length
      · rw [if_pos hslot, Bool.and_eq_true, hslots, Bool.not_eq_true', or_iff_right hlast,
          and_iff_left hslot, Bool.not_eq_true]
        exact and_comm
      · rw [if_neg hslot, hslots]
        simp only [hlast, false_or, hslot, and_false, not_false_eq_true, true_and]
  · have hfalse : (s' == s) = false := by simpa using hs
    simp [hs, hfalse]

/-- A planned block is one of the session's scratch, or of the slots of the most
recent kept frames. -/
theorem mem_planned_iff {blockSize : ℕ} (hblock : 0 < blockSize) (haligned : blockSize ∣ tokens)
    {s s' j t f : ℕ} (hj : j ≤ g.ringFrames) (ht : t < tokens) :
    (g.base tokens s' j + t) / blockSize ∈
        g.visibleBlocksFor (tokens / blockSize) s f ↔
      s' = s ∧ (j = g.ringFrames ∨ ∃ k ∈ g.recent f, k % g.ringBuckets = j) := by
  obtain ⟨blocks, rfl⟩ := haligned
  have hdiv : blockSize * blocks / blockSize = blocks := Nat.mul_div_cancel_left _ hblock
  have hsmall : t / blockSize < blocks := (Nat.div_lt_iff_lt_mul hblock).2 (by
    rw [Nat.mul_comm]
    exact ht)
  have hblockOf : (g.base (blockSize * blocks) s' j + t) / blockSize =
      (s' * (g.ringFrames + 1) + j) * blocks + t / blockSize := by
    rw [g.base_eq]
    have hmul : (s' * (g.ringFrames + 1) + j) * (blockSize * blocks) =
        (s' * (g.ringFrames + 1) + j) * blocks * blockSize := by ring
    rw [hmul, Nat.add_comm, Nat.add_mul_div_right _ _ hblock, Nat.add_comm]
  rw [hdiv, hblockOf, g.mem_visibleBlocksFor]
  clear hblockOf
  generalize t / blockSize = q at hsmall ⊢
  constructor
  · rintro ⟨j', hj', hlo, hhi⟩
    have hle : j' ≤ g.ringFrames := by
      rcases hj' with rfl | ⟨k, -, rfl⟩
      · exact le_refl _
      · exact le_of_lt (Holds.bucket_lt g k)
    have hup : (s' * (g.ringFrames + 1) + j) * blocks <
        (s * (g.ringFrames + 1) + j' + 1) * blocks := by
      rw [Nat.succ_mul]
      omega
    have hdown : (s * (g.ringFrames + 1) + j') * blocks <
        (s' * (g.ringFrames + 1) + j + 1) * blocks := by
      rw [Nat.succ_mul]
      omega
    have h1 := Nat.lt_of_mul_lt_mul_right hup
    have h2 := Nat.lt_of_mul_lt_mul_right hdown
    have hplace : s' * (g.ringFrames + 1) + j = s * (g.ringFrames + 1) + j' := by omega
    obtain ⟨rfl, rfl⟩ := g.place_unique hj hle hplace
    exact ⟨rfl, hj'⟩
  · rintro ⟨rfl, hj'⟩
    exact ⟨j, hj', by omega, by omega⟩

end Visibility

/-- Planned ring visibility is the ring's own. In every run, whatever a layer's
geometry, what is staged for a session and its next frame lists exactly the blocks
whose tokens the fallback row marks; they are the session's scratch and the slots of
the most recent kept frames, as many as there are slots, one fewer where the next
frame is kept, all while there are fewer; and each slot holds that frame. A request's
clock is the number of frames that its session committed. -/
theorem Runs.staged_eq_visibility (h : Runs c m past) :
    (∀ rid s, m.sessions rid = some s → ∀ l, m.nextFrame rid = (past l s).length) ∧
    ∀ l, ∀ s < c.numSessions, ∃ staged,
      (c.table l).stageRow s (past l s).length = some staged ∧
      (∀ i < c.totalSlots l,
        ((m.layers l).visibility (c.layers l) c.tokensPerFrame s (past l s).length i = true ↔
          i / c.blockSize ∈ stagedBlocks staged)) ∧
      (∀ s' j t, j ≤ (c.layers l).ringFrames → t < c.tokensPerFrame →
        (((c.layers l).base c.tokensPerFrame s' j + t) / c.blockSize ∈ stagedBlocks staged ↔
          s' = s ∧ (j = (c.layers l).ringFrames ∨
            ∃ k ∈ (c.layers l).recent (past l s).length, k % (c.layers l).ringBuckets = j))) ∧
      ((c.layers l).recent (past l s).length).length =
        min ((c.layers l).kept (past l s).length)
          (if (c.layers l).writeStep (past l s).length then (c.layers l).ringBuckets - 1
            else (c.layers l).ringBuckets) ∧
      (((c.layers l).recent (past l s).length).map fun k => k % (c.layers l).ringBuckets).Nodup ∧
      ∀ k ∈ (c.layers l).recent (past l s).length, ∃ frame,
        (past l s)[k * (c.layers l).dilation]? = some frame ∧
          ∀ t < c.tokensPerFrame, (m.layers l).kv ((c.layers l).base c.tokensPerFrame s
            (k % (c.layers l).ringBuckets) + t) = frame t := by
  have hinv := h.inv
  refine ⟨fun rid s hs l => (hinv.clock rid s hs l).symm, fun l s hs => ?_⟩
  have hholds := hinv.holds l s hs
  obtain ⟨staged, hstaged, hblocks⟩ := (c.layers l).stageRow_eq c.blocksPerFrame
    (Nat.lt_succ_of_lt hs : s < c.totalSessions) (past l s).length
  have hplanned {s' j t : ℕ} (hj : j ≤ (c.layers l).ringFrames) (ht : t < c.tokensPerFrame) :
      ((c.layers l).base c.tokensPerFrame s' j + t) / c.blockSize ∈ stagedBlocks staged ↔
        s' = s ∧ (j = (c.layers l).ringFrames ∨
          ∃ k ∈ (c.layers l).recent (past l s).length, k % (c.layers l).ringBuckets = j) := by
    rw [hblocks]
    exact mem_planned_iff c.block_pos c.aligned hj ht
  refine ⟨staged, hstaged, fun i hi => ?_, fun s' j t hj ht => hplanned hj ht,
    (c.layers l).length_recent _, (c.layers l).nodup_recent _, fun k hk => ?_⟩
  · obtain ⟨s', j, t, -, hj, ht, rfl⟩ := (c.layers l).exists_place c.tokensPerFrame hi
    rw [hplanned hj ht]
    exact hholds.visibility_iff hj ht
  · obtain ⟨hless, hnear⟩ := (c.layers l).mem_recent.1 hk
    exact ⟨_, List.getElem?_eq_getElem hless,
      hholds.frames k _ (List.getElem?_eq_getElem hless) (le_of_lt hnear)⟩

section Cases

/-- One layer that keeps every other frame in two slots, for one session. -/
def twoSlots : RingKVConfig Unit where
  layers := fun _ => ⟨2, 2, 2, by decide, by decide, by decide⟩
  tokensPerFrame := 1
  blockSize := 1
  block_pos := by decide
  aligned := by decide
  numSessions := 1
  sessions_pos := by decide

/-- A request that was admitted, and commits the frame 5. -/
def admittedRing : RingKVManager Unit ℕ ℕ :=
  (((RingKVManager.build twoSlots).ingest 7).admits [7] fun _ => some 0).1

/-- After one committed frame, the next one sees it and its own scratch. -/
theorem staged_eq_visibility_oneFrame :
    ∃ staged, (twoSlots.table ()).stageRow 0 1 = some staged ∧
      ∀ i < 6, (((admittedRing.commitStep twoSlots (fun _ => [⟨0, 0, fun _ => 5⟩]) [7]
          fun _ => some 0).layers ()).visibility (twoSlots.layers ()) 1 0 1 i = true ↔
        i / 1 ∈ stagedBlocks staged) := by
  have hrun : Runs twoSlots (admittedRing.commitStep twoSlots (fun _ => [⟨0, 0, fun _ => 5⟩]) [7]
      fun _ => some 0) (Past.commit (fun _ _ => []) fun _ => [⟨0, 0, fun _ => 5⟩]) :=
    (((Runs.built.ingest 7).admission [7] fun _ => some 0).commit [7] (by decide)
      (fun _ => some 0) 0 [(0, 0)] rfl (fun rid hin => by
        obtain rfl := List.mem_singleton.1 hin
        rfl) (fun _ _ _ => 5) (fun _ => []) (fun _ => [⟨0, 0, fun _ => 5⟩]) fun _ => rfl)
  obtain ⟨staged, hstaged, hvisible, -⟩ := hrun.staged_eq_visibility.2 () 0 (by decide)
  exact ⟨staged, hstaged, hvisible⟩

end Cases

end Mstar.RingKV
