import Mstar.PinnedStager

/-!
# Mirrors of device destinations

A mirror keeps what the stager last copied into a destination, so that a call
with the same values copies nothing. Whoever reads the destination once the
copies issued before it have run, and none after, finds what the latest call
before it asked for, whether that call copied or not.
-/

namespace Mstar.Staging

open DeviceStreams

variable {Stream Dst α : Type} [DecidableEq Stream] [DecidableEq Dst]

/-- The number of copies issued. -/
def issuedIn : List (Event Stream Dst α) → ℕ
  | [] => 0
  | .copied _ runs :: log => issuedIn log + runs.length
  | .mirrored _ _ _ :: log => issuedIn log + 1
  | .skipped _ _ :: log => issuedIn log
  | .ran _ _ _ :: log => issuedIn log
  | .written _ _ :: log => issuedIn log

/-- What the latest call for a mirrored destination asked for, since it was
last written some other way. -/
def asked (d : Dst) : List (Event Stream Dst α) → Option (List α)
  | [] => none
  | .copied _ _ :: log => asked d log
  | .mirrored _ dst data :: log => if dst = d then some data else asked d log
  | .skipped dst data :: log => if dst = d then some data else asked d log
  | .ran _ _ _ :: log => asked d log
  | .written dst _ :: log => if dst = d then none else asked d log

/-- The copies issued to a mirrored destination since it was last written some
other way, the last first. -/
def copiesTo (d : Dst) : List (Event Stream Dst α) → List (ℕ × List α)
  | [] => []
  | .copied _ _ :: log => copiesTo d log
  | .mirrored _ dst data :: log =>
    if dst = d then (issuedIn log, data) :: copiesTo d log else copiesTo d log
  | .skipped _ _ :: log => copiesTo d log
  | .ran _ _ _ :: log => copiesTo d log
  | .written dst _ :: log => if dst = d then [] else copiesTo d log

variable {d : Dst} {log rans : List (Event Stream Dst α)}

omit [DecidableEq Stream] in
/-- A copy to a destination is one more. -/
theorem copiesTo_mirrored (d dst : Dst) (s : Stream) (data : List α)
    (log : List (Event Stream Dst α)) : copiesTo d (.mirrored s dst data :: log) =
      if dst = d then (issuedIn log, data) :: copiesTo d log else copiesTo d log :=
  rfl

omit [DecidableEq Stream] in
/-- A write to it makes the copies before it void. -/
theorem copiesTo_written (d dst : Dst) (contents : ℕ → α) (log : List (Event Stream Dst α)) :
    copiesTo d (.written dst contents :: log) = if dst = d then [] else copiesTo d log :=
  rfl

omit [DecidableEq Stream] in
/-- Copies to a destination were issued. -/
theorem copiesTo_lt {entry : ℕ × List α} (h : entry ∈ copiesTo d log) : entry.1 < issuedIn log := by
  induction log with
  | nil => cases h
  | cons event log ih =>
    cases event with
    | copied s runs => exact Nat.lt_add_right _ (ih h)
    | mirrored s dst data =>
      rw [copiesTo_mirrored] at h
      split at h
      · rcases List.mem_cons.1 h with rfl | h
        · exact Nat.lt_succ_self _
        · exact Nat.lt_succ_of_lt (ih h)
      · exact Nat.lt_succ_of_lt (ih h)
    | skipped dst data => exact ih h
    | ran s dst serial => exact ih h
    | written dst contents =>
      rw [copiesTo_written] at h
      split at h
      · cases h
      · exact ih h

omit [DecidableEq Stream] in
/-- Copies to a destination are listed from the last issued on. -/
theorem copiesTo_pairwise (d : Dst) (log : List (Event Stream Dst α)) :
    (copiesTo d log).Pairwise fun a b => b.1 < a.1 := by
  induction log with
  | nil => exact List.Pairwise.nil
  | cons event log ih =>
    cases event with
    | copied s runs => exact ih
    | mirrored s dst data =>
      rw [copiesTo_mirrored]
      split
      · exact List.pairwise_cons.2 ⟨fun entry hentry => copiesTo_lt hentry, ih⟩
      · exact ih
    | skipped dst data => exact ih
    | ran s dst serial => exact ih
    | written dst contents =>
      rw [copiesTo_written]
      split
      · exact List.Pairwise.nil
      · exact ih

omit [DecidableEq Stream] in
/-- What is issued later comes first, and has later numbers. -/
theorem copiesTo_append {after : List (Event Stream Dst α)} (before : List (Event Stream Dst α))
    (hkept : ∀ contents, .written d contents ∉ after) :
    issuedIn before ≤ issuedIn (after ++ before) ∧
      ∃ new, copiesTo d (after ++ before) = new ++ copiesTo d before ∧
        ∀ entry ∈ new, issuedIn before ≤ entry.1 := by
  induction after with
  | nil => exact ⟨Nat.le_refl _, [], rfl, fun entry hentry => (List.not_mem_nil hentry).elim⟩
  | cons event after ih =>
    obtain ⟨hle, new, heq, hnew⟩ := ih fun contents hmem =>
      hkept contents (List.mem_cons_of_mem _ hmem)
    cases event with
    | copied s runs => exact ⟨Nat.le_add_right_of_le hle, new, heq, hnew⟩
    | mirrored s dst data =>
      refine ⟨Nat.le_add_right_of_le hle, ?_⟩
      rw [List.cons_append, copiesTo_mirrored]
      split
      · refine ⟨(issuedIn (after ++ before), data) :: new, ?_, fun entry hentry => ?_⟩
        · rw [heq, List.cons_append]
        · rcases List.mem_cons.1 hentry with rfl | hentry
          · exact hle
          · exact hnew entry hentry
      · exact ⟨new, heq, hnew⟩
    | skipped dst data => exact ⟨hle, new, heq, hnew⟩
    | ran s dst serial => exact ⟨hle, new, heq, hnew⟩
    | written dst contents =>
      refine ⟨hle, new, ?_, hnew⟩
      rw [List.cons_append, copiesTo_written, if_neg, heq]
      rintro rfl
      exact hkept contents (List.mem_cons_self ..)

/-- The copies in flight to a destination are the last ones of those issued to
it, and it holds what the last of the others brought. -/
structure InFlight (d : Dst) (issued : List (ℕ × List α)) (log : List (Event Stream Dst α))
    (w : World Stream Dst α) : Prop where
  split : ∃ out done, issued = out ++ done ∧
    (∀ t, ∀ c ∈ w.queues.works t, c.dst = d → (c.serial, c.data) ∈ out) ∧
    (∀ entry ∈ out, ∃ t, ∃ c ∈ w.queues.works t, c.dst = d ∧ c.serial = entry.1) ∧
    (∀ entry, done.head? = some entry →
      ∀ i (h : i < entry.2.length), w.device d i = entry.2[i]) ∧
    ∀ entry ∈ done, ∃ s, .ran s d entry.1 ∈ log

variable {w w' v : World Stream Dst α} {depth : ℕ} {tracked : Dst → Prop}
  {issued : List (ℕ × List α)}

omit [DecidableEq Stream] [DecidableEq Dst] in
/-- What happens elsewhere. -/
theorem InFlight.congr (h : InFlight d issued log w) (more : List (Event Stream Dst α))
    (hworks : ∀ t c, c.dst = d → (c ∈ v.queues.works t ↔ c ∈ w.queues.works t))
    (hdevice : v.device d = w.device d) : InFlight d issued (more ++ log) v := by
  obtain ⟨out, done, heq, hout, hfly, hheld, hran⟩ := h.split
  refine ⟨out, done, heq, fun t c hc hd => hout t c ((hworks t c hd).1 hc) hd,
    fun entry hentry => ?_, fun entry hentry i hi => ?_, fun entry hentry => ?_⟩
  · obtain ⟨t, c, hc, hd, hserial⟩ := hfly entry hentry
    exact ⟨t, c, (hworks t c hd).2 hc, hd, hserial⟩
  · rw [hdevice]
    exact hheld entry hentry i hi
  · obtain ⟨s, hs⟩ := hran entry hentry
    exact ⟨s, List.mem_append_right _ hs⟩

omit [DecidableEq Dst] in
/-- What is in a queue once its first copy has run. -/
theorem mem_works_rest {s : Stream} {c : Copy Dst α} {entries : List (Entry (Copy Dst α))}
    (hqueue : w.queues.queue s = .work c :: entries) (t : Stream) (other : Copy Dst α) :
    other ∈ w.queues.works t ↔
      t = s ∧ other = c ∨ other ∈ (w.queues.rest s entries).works t := by
  rw [Queues.works_rest]
  by_cases ht : t = s
  · subst ht
    rw [Function.update_self, Queues.works_of_first hqueue, List.mem_cons]
    simp
  · rw [Function.update_of_ne ht]
    simp [ht]

/-- A copy to the destination runs: the first of those in flight. -/
theorem InFlight.ran {s : Stream} {c : Copy Dst α} {entries : List (Entry (Copy Dst α))}
    (h : InFlight c.dst issued log w) (hsorted : issued.Pairwise fun a b => b.1 < a.1)
    (hqueue : w.queues.queue s = .work c :: entries) (hstaged : Staged w c)
    (horder : ∀ t, ∀ other ∈ (w.queues.rest s entries).works t, other.dst = c.dst →
      c.serial < other.serial) :
    InFlight c.dst issued (.ran s c.dst c.serial :: log) ((w.transfer c).pop s entries) := by
  obtain ⟨out, done, rfl, hout, hfly, -, hran⟩ := h.split
  have hfirst : (c.serial, c.data) ∈ out :=
    hout s c ((mem_works_rest hqueue s c).2 (Or.inl ⟨rfl, rfl⟩)) rfl
  obtain ⟨later, earlier, rfl⟩ := List.append_of_mem hfirst
  have hout_sorted := (List.pairwise_append.1 hsorted).1
  -- Nothing in flight was issued before it.
  have hearlier : earlier = [] := by
    refine List.eq_nil_iff_forall_not_mem.2 fun entry hentry => ?_
    have hlt : entry.1 < c.serial :=
      (List.pairwise_cons.1 (List.pairwise_append.1 hout_sorted).2.1).1 entry hentry
    obtain ⟨t, other, hother, hdst, hserial⟩ := hfly entry
      (List.mem_append_right _ (List.mem_cons_of_mem _ hentry))
    rcases (mem_works_rest hqueue t other).1 hother with ⟨-, rfl⟩ | hrest
    · omega
    · have hgt := horder t other hrest hdst
      omega
  subst hearlier
  have hlater : ∀ entry ∈ later, c.serial < entry.1 := fun entry hentry =>
    (List.pairwise_append.1 hout_sorted).2.2 entry hentry _ (List.mem_singleton_self _)
  refine ⟨later, (c.serial, c.data) :: done, by simp, fun t other hother hdst => ?_,
    fun entry hentry => ?_, fun entry hentry i hi => ?_, fun entry hentry => ?_⟩
  · have hgt := horder t other hother hdst
    have hmem := hout t other ((mem_works_rest hqueue t other).2 (Or.inr hother)) hdst
    rcases List.mem_append.1 hmem with hmem | hmem
    · exact hmem
    · obtain ⟨hsame, -⟩ := Prod.mk.inj (List.mem_singleton.1 hmem)
      omega
  · obtain ⟨t, other, hother, hdst, hserial⟩ := hfly entry (List.mem_append_left _ hentry)
    have hgt := hlater entry hentry
    rcases (mem_works_rest hqueue t other).1 hother with ⟨-, rfl⟩ | hrest
    · omega
    · exact ⟨t, other, hrest, hdst, hserial⟩
  · cases hentry
    change (w.transfer c).device c.dst i = _
    rw [transfer_device hstaged, Function.update_self]
    dsimp only
    rw [List.getElem?_eq_getElem hi]
    rfl
  · rcases List.mem_cons.1 hentry with rfl | hentry
    · exact ⟨s, List.mem_cons_self ..⟩
    · obtain ⟨t, ht⟩ := hran entry hentry
      exact ⟨t, List.mem_cons_of_mem _ ht⟩

/-- A stream runs on. -/
theorem InFlight.exec (h : InFlight d issued log w)
    (hsorted : issued.Pairwise fun a b => b.1 < a.1) (hd : tracked d)
    (hstaged : w.queues.Pending fun _ c _ => Staged w c) (hexec : w.Exec tracked rans v) :
    InFlight d issued (rans ++ log) v := by
  cases hexec with
  | event hqueue =>
    refine h.congr [] (fun t c _ => ?_) rfl
    unfold World.pop
    dsimp only
    rw [Queues.works_rest_event hqueue]
  | copy hqueue horder =>
    rename_i s c entries
    by_cases hdst : c.dst = d
    · subst hdst
      exact h.ran hsorted hqueue (hstaged.first hqueue) (horder hd)
    · refine h.congr [.ran s c.dst c.serial] (fun t other hother => ?_)
        (Function.update_of_ne (Ne.symm hdst) _ _)
      rw [mem_works_rest hqueue]
      refine ⟨Or.inr, fun hor => hor.resolve_left fun hsame => hdst ?_⟩
      rw [← hsame.2]
      exact hother

/-- The streams run on. -/
theorem InFlight.waits (h : InFlight d issued log w)
    (hsorted : issued.Pairwise fun a b => b.1 < a.1) (hd : tracked d)
    (hstaged : w.queues.Pending fun _ c _ => Staged w c) (hwait : w.Waits tracked rans v) :
    InFlight d issued (rans ++ log) v := by
  induction hwait with
  | now => exact h
  | exec hwait hexec ih =>
    rw [List.append_assoc]
    exact ih.exec hsorted hd (waits_plain hwait hstaged).2 hexec

omit [DecidableEq Dst] in
/-- Leaving a segment puts no copy in flight. -/
theorem InFlight.leave (h : InFlight d issued log w) : InFlight d issued log w.leave := by
  refine h.congr [] (fun t c _ => ?_) rfl
  unfold World.leave
  dsimp only
  rw [Queues.works_recordAll]

/-- Whatever a claim waits for. -/
theorem InFlight.claims (h : InFlight d issued log w)
    (hsorted : issued.Pairwise fun a b => b.1 < a.1) (hd : tracked d) (hinv : Inv w)
    {total start : ℕ} (hclaim : w.Claims depth tracked total rans v start) :
    InFlight d issued (rans ++ log) v := by
  have hstaged : w.leave.queues.Pending fun _ c _ => Staged w.leave c :=
    hinv.leave.mono fun _ _ _ hg => hg.staged
  cases hclaim with
  | fits => exact ⟨h.split⟩
  | next _ _ hwait _ =>
    have hleft : InFlight d issued log (w.leave.enterNext depth) := ⟨h.leave.split⟩
    exact ⟨(hleft.waits hsorted hd hstaged hwait).split⟩
  | grow _ _ hwait _ => exact ⟨(h.leave.waits hsorted hd hstaged hwait).split⟩

/-- While the streams run, nothing is issued and the mirrors stay. -/
theorem waits_kept (hwait : w.Waits tracked rans v) :
    v.stager.copies = w.stager.copies ∧ v.mirrors = w.mirrors := by
  induction hwait with
  | now => exact ⟨rfl, rfl⟩
  | exec _ hexec ih =>
    cases hexec with
    | copy _ _ => exact ih
    | event _ => exact ih

/-- Whatever a claim waits for, nothing is issued and the mirrors stay. -/
theorem claims_kept {total start : ℕ} (hclaim : w.Claims depth tracked total rans v start) :
    v.stager.copies = w.stager.copies ∧ v.mirrors = w.mirrors := by
  cases hclaim with
  | fits => exact ⟨rfl, rfl⟩
  | next _ _ hwait _ =>
    obtain ⟨hcopies, hmirrors⟩ := waits_kept hwait
    exact ⟨hcopies, hmirrors⟩
  | grow _ _ hwait _ =>
    obtain ⟨hcopies, hmirrors⟩ := waits_kept hwait
    exact ⟨hcopies, hmirrors⟩

omit [DecidableEq Dst] in
/-- Copies to other destinations. -/
theorem mem_works_submitRuns {arena : ℕ} {s : Stream} {serial start : ℕ}
    {runs : List (Dst × List α)} {q : Queues Stream (Copy Dst α)} {t : Stream} {c : Copy Dst α}
    (hc : ∀ run ∈ runs, run.1 ≠ c.dst) :
    c ∈ (World.submitRuns arena s serial start runs q).works t ↔ c ∈ q.works t := by
  induction runs generalizing serial start q with
  | nil => exact Iff.rfl
  | cons run runs ih =>
    unfold World.submitRuns
    rw [ih fun run hrun => hc run (List.mem_cons_of_mem _ hrun), Queues.works_submit]
    by_cases ht : t = s
    · subst ht
      rw [Function.update_self, List.mem_append, List.mem_singleton]
      refine ⟨fun hor => hor.resolve_right fun hsame => ?_, Or.inl⟩
      refine hc run (List.mem_cons_self ..) ?_
      rw [hsame]
    · rw [Function.update_of_ne ht]

omit [DecidableEq Dst] in
/-- Staged copies to other destinations are issued. -/
theorem InFlight.issueElsewhere (h : InFlight d issued log w) {s : Stream} {start : ℕ}
    {data : List α} {runs : List (Dst × List α)} (hruns : ∀ run ∈ runs, run.1 ≠ d) :
    InFlight d issued log (((w.stage start data).issue s start runs).use s) := by
  refine h.congr [] (fun t c hc => ?_) rfl
  refine mem_works_submitRuns fun run hrun => ?_
  rw [hc]
  exact hruns run hrun

omit [DecidableEq Dst] in
/-- A staged copy to the destination is issued. -/
theorem InFlight.issue (h : InFlight d issued log w) (s : Stream) (start : ℕ)
    (staged data : List α) : InFlight d ((w.stager.copies, data) :: issued) log
      (((w.stage start staged).issue s start [(d, data)]).use s) := by
  obtain ⟨out, done, rfl, hout, hfly, hheld, hran⟩ := h.split
  have hworks : (((w.stage start staged).issue s start [(d, data)]).use s).queues.works =
      Function.update w.queues.works s (w.queues.works s ++
        [⟨d, w.stager.copies, w.stager.arena, start, data⟩]) :=
    Queues.works_submit ..
  refine ⟨(w.stager.copies, data) :: out, done, rfl, fun t c hc hdst => ?_,
    fun entry hentry => ?_, hheld, hran⟩
  · rw [hworks] at hc
    by_cases ht : t = s
    · subst ht
      rw [Function.update_self] at hc
      rcases List.mem_append.1 hc with hc | hc
      · exact List.mem_cons_of_mem _ (hout t c hc hdst)
      · rw [List.mem_singleton.1 hc]
        exact List.mem_cons_self ..
    · rw [Function.update_of_ne ht] at hc
      exact List.mem_cons_of_mem _ (hout t c hc hdst)
  · rw [hworks]
    rcases List.mem_cons.1 hentry with rfl | hentry
    · refine ⟨s, ⟨d, w.stager.copies, w.stager.arena, start, data⟩, ?_, rfl, rfl⟩
      rw [Function.update_self]
      exact List.mem_append_right _ (List.mem_singleton_self _)
    · obtain ⟨t, c, hc, hdst, hserial⟩ := hfly entry hentry
      refine ⟨t, c, ?_, hdst, hserial⟩
      by_cases ht : t = s
      · subst ht
        rw [Function.update_self]
        exact List.mem_append_left _ hc
      · rw [Function.update_of_ne ht]
        exact hc

/-- Only streams that run happen while a call waits. -/
theorem waits_ran (hwait : w.Waits tracked rans v) :
    ∀ event ∈ rans, ∃ s dst serial, event = .ran s dst serial := by
  induction hwait with
  | now => exact fun event hevent => (List.not_mem_nil hevent).elim
  | exec _ hexec ih =>
    intro event hevent
    rcases List.mem_append.1 hevent with hevent | hevent
    · cases hexec with
      | copy _ _ => exact ⟨_, _, _, List.mem_singleton.1 hevent⟩
      | event _ => cases hevent
    · exact ih event hevent

/-- Only streams that run happen while a claim waits. -/
theorem claims_ran {total start : ℕ} (hclaim : w.Claims depth tracked total rans v start) :
    ∀ event ∈ rans, ∃ s dst serial, event = .ran s dst serial := by
  cases hclaim with
  | fits => exact fun event hevent => (List.not_mem_nil hevent).elim
  | next _ _ hwait _ => exact waits_ran hwait
  | grow _ _ hwait _ => exact waits_ran hwait

/-- The latest call for a destination asked for what the last copy to it
brings, whenever one looks. -/
def Answered (d : Dst) (log : List (Event Stream Dst α)) : Prop :=
  ∀ before, before <:+ log → asked d before = (copiesTo d before).head?.map Prod.snd

omit [DecidableEq Stream] in
/-- One more happening. -/
theorem Answered.cons (h : Answered d log) {event : Event Stream Dst α}
    (hevent : asked d (event :: log) = (copiesTo d (event :: log)).head?.map Prod.snd) :
    Answered d (event :: log) := by
  intro before hbefore
  rcases List.suffix_cons_iff.1 hbefore with rfl | hbefore
  · exact hevent
  · exact h before hbefore

omit [DecidableEq Stream] in
/-- Streams that run ask for nothing. -/
theorem ran_append (hrans : ∀ event ∈ rans, ∃ s dst serial, event = .ran s dst serial)
    (d : Dst) (log : List (Event Stream Dst α)) :
    issuedIn (rans ++ log) = issuedIn log ∧ copiesTo d (rans ++ log) = copiesTo d log ∧
      asked d (rans ++ log) = asked d log ∧ (Answered d log → Answered d (rans ++ log)) := by
  induction rans with
  | nil => exact ⟨rfl, rfl, rfl, id⟩
  | cons event rans ih =>
    obtain ⟨hissued, hcopies, hasked, hanswered⟩ := ih fun other hother =>
      hrans other (List.mem_cons_of_mem _ hother)
    obtain ⟨s, dst, serial, rfl⟩ := hrans event (List.mem_cons_self ..)
    refine ⟨hissued, hcopies, hasked, fun h => (hanswered h).cons ?_⟩
    exact hanswered h (rans ++ log) (List.suffix_refl _)

/-- What holds of a mirrored destination after every step. -/
structure Tracked (numel : Dst → ℕ) (d : Dst) (log : List (Event Stream Dst α))
    (w : World Stream Dst α) : Prop where
  copies_eq : w.stager.copies = issuedIn log
  answered : Answered d log
  /-- The mirror knows what the latest call asked for, if anything. -/
  recorded : ∀ total pad values, w.mirrors d = some ((total, pad), values) →
    asked d log = some (padded (numel d) values pad)
  flight : InFlight d (copiesTo d log) log w

variable {numel : Dst → ℕ} {device : Dst → ℕ → α}

omit [DecidableEq Stream] in
/-- Nothing has been asked for yet. -/
theorem tracked_new (n : ℕ) (host : ℕ → ℕ → α) :
    Tracked numel d [] (World.new n host device : World Stream Dst α) := by
  refine ⟨rfl, fun before hbefore => ?_, fun _ _ _ hnone => ?_, ⟨[], [], rfl, ?_⟩⟩
  · rw [List.suffix_nil.1 hbefore]
    rfl
  · cases hnone
  · refine ⟨fun t c hc _ => (List.not_mem_nil hc).elim, ?_, fun entry hnone => ?_, ?_⟩
    · exact fun entry hentry => (List.not_mem_nil hentry).elim
    · cases hnone
    · exact fun entry hentry => (List.not_mem_nil hentry).elim

omit [DecidableEq Stream] in
/-- The streams ran while the host waited. -/
theorem Tracked.waited (h : Tracked numel d log w)
    (hrans : ∀ event ∈ rans, ∃ s dst serial, event = .ran s dst serial)
    (hkept : v.stager.copies = w.stager.copies ∧ v.mirrors = w.mirrors)
    (hflight : InFlight d (copiesTo d log) (rans ++ log) v) : Tracked numel d (rans ++ log) v := by
  obtain ⟨hissued, hsame, hasked, hanswered⟩ := ran_append hrans d log
  refine ⟨?_, hanswered h.answered, fun total pad values hrecorded => ?_, ?_⟩
  · rw [hkept.1, hissued, h.copies_eq]
  · rw [hkept.2] at hrecorded
    rw [hasked]
    exact h.recorded total pad values hrecorded
  · rw [hsame]
    exact hflight

omit [DecidableEq Stream] in
/-- Something that does not change what the destination was asked to hold. -/
theorem Tracked.elsewhere (h : Tracked numel d log w) {event : Event Stream Dst α}
    (hasked : asked d (event :: log) = asked d log)
    (hcopies : copiesTo d (event :: log) = copiesTo d log)
    (hcount : v.stager.copies = issuedIn (event :: log)) (hmirror : v.mirrors d = w.mirrors d)
    (hflight : InFlight d (copiesTo d log) log v) : Tracked numel d (event :: log) v := by
  refine ⟨hcount, h.answered.cons ?_, fun total pad values hrecorded => ?_, ?_⟩
  · rw [hasked, hcopies]
    exact h.answered log (List.suffix_refl log)
  · rw [hmirror] at hrecorded
    rw [hasked]
    exact h.recorded total pad values hrecorded
  · rw [hcopies]
    exact hflight.congr [event] (fun _ _ _ => Iff.rfl) rfl

/-- A call up to where its values are staged. -/
theorem Tracked.claims (h : Tracked numel d log w) (hd : tracked d) (hinv : Inv w)
    {total start : ℕ} (hclaim : w.Claims depth tracked total rans v start) :
    Tracked numel d (rans ++ log) v :=
  h.waited (claims_ran hclaim) (claims_kept hclaim)
    (h.flight.claims (copiesTo_pairwise d log) hd hinv hclaim)

/-- A call with a mirror, from where its values are staged on. -/
theorem Tracked.issue (h : Tracked numel d log w) (s : Stream) (start : ℕ) (staged : List α)
    (dst : Dst) (values : List α) (pad : Option α) :
    Tracked numel d (.mirrored s dst (padded (numel dst) values pad) :: log)
      ((((w.stage start staged).issue s start [(dst, padded (numel dst) values pad)]).use s).record
        dst (some (((padded (numel dst) values pad).length, pad), values))) := by
  have hcount : w.stager.copies + 1 = issuedIn log + 1 := by rw [h.copies_eq]
  by_cases hdst : dst = d
  · subst hdst
    have hnew : copiesTo dst (.mirrored s dst (padded (numel dst) values pad) :: log) =
        (w.stager.copies, padded (numel dst) values pad) :: copiesTo dst log := by
      rw [copiesTo_mirrored, if_pos rfl, h.copies_eq]
    have hlast : asked dst (.mirrored s dst (padded (numel dst) values pad) :: log) =
        some (padded (numel dst) values pad) := if_pos rfl
    refine ⟨hcount, h.answered.cons ?_, fun total pad' values' hrecorded => ?_, ?_⟩
    · rw [hlast, hnew]
      rfl
    · change Function.update w.mirrors dst _ dst = _ at hrecorded
      rw [Function.update_self] at hrecorded
      cases hrecorded
      exact hlast
    · rw [hnew]
      exact (h.flight.issue s start staged _).congr [.mirrored s dst _] (fun _ _ _ => Iff.rfl) rfl
  · have helse : ∀ run ∈ [(dst, padded (numel dst) values pad)], run.1 ≠ d := by
      intro run hrun
      rw [List.mem_singleton.1 hrun]
      exact hdst
    refine h.elsewhere (if_neg hdst) (if_neg hdst) hcount
      (Function.update_of_ne (Ne.symm hdst) _ _) ?_
    exact ⟨(h.flight.issueElsewhere helse).split⟩

omit [DecidableEq Stream] in
/-- A call whose values the mirror has. -/
theorem Tracked.skip (h : Tracked numel d log w) {dst : Dst} {values : List α} {pad : Option α}
    {total : ℕ} (hmatch : w.mirrors dst = some ((total, pad), values)) :
    Tracked numel d (.skipped dst (padded (numel dst) values pad) :: log) w := by
  refine h.elsewhere ?_ rfl h.copies_eq rfl h.flight
  by_cases hdst : dst = d
  · subst hdst
    rw [h.recorded _ _ _ hmatch]
    exact if_pos rfl
  · exact if_neg hdst

omit [DecidableEq Stream] in
/-- A destination is written some other way. -/
theorem Tracked.write (h : Tracked numel d log w) {dst : Dst} (contents : ℕ → α)
    (hfree : ∀ t, ∀ c ∈ w.queues.works t, c.dst ≠ dst) :
    Tracked numel d (.written dst contents :: log) ((w.write dst contents).record dst none) := by
  by_cases hdst : dst = d
  · subst hdst
    have hnone : copiesTo dst (.written dst contents :: log) = [] := if_pos rfl
    refine ⟨h.copies_eq, h.answered.cons ?_, fun total pad values hrecorded => ?_, ?_⟩
    · rw [hnone]
      exact if_pos rfl
    · change Function.update w.mirrors dst none dst = _ at hrecorded
      rw [Function.update_self] at hrecorded
      cases hrecorded
    · rw [hnone]
      refine ⟨[], [], rfl, fun t c hc hto => (hfree t c hc hto).elim, ?_, fun _ hhead => ?_, ?_⟩
      · exact fun entry hentry => (List.not_mem_nil hentry).elim
      · cases hhead
      · exact fun entry hentry => (List.not_mem_nil hentry).elim
  · refine h.elsewhere (if_neg hdst) (if_neg hdst) h.copies_eq
      (Function.update_of_ne (Ne.symm hdst) _ _) ?_
    exact h.flight.congr [] (fun _ _ _ => Iff.rfl) (Function.update_of_ne (Ne.symm hdst) _ _)

/-- Whatever happens, a mirror knows what its destination was last asked to
hold. -/
theorem Runs.tracks (h : Runs depth numel tracked device log w) (hd : tracked d) :
    Tracked numel d log w := by
  induction h with
  | new n host => exact tracked_new n host
  | waits hruns hwait ih =>
    exact ih.waited (waits_ran hwait) (waits_kept hwait) (ih.flight.waits (copiesTo_pairwise d _)
      hd (hruns.inv.pending.mono fun _ _ _ hsafe => hsafe.staged) hwait)
  | copyRuns hruns hfree hcall ih =>
    obtain ⟨v, start, hclaim, rfl⟩ := hcall
    have hclaimed := ih.claims hd hruns.inv hclaim
    refine hclaimed.elsewhere rfl rfl ?_ rfl
      (hclaimed.flight.issueElsewhere fun run hrun hrd => hfree run hrun (hrd ▸ hd))
    exact congrArg (· + _) hclaimed.copies_eq
  | copy hruns _ _ _ _ hcall ih =>
    obtain ⟨v, start, hclaim, rfl⟩ := hcall
    exact (ih.claims hd hruns.inv hclaim).issue _ start _ _ _ _
  | skip _ _ _ _ hmatch ih => exact ih.skip hmatch
  | write _ _ hfree ih => exact ih.write _ hfree

/-- Whoever reads a mirrored destination when the copies issued to it before
some moment have run, and none issued after, finds what the latest call before
that moment asked for, though that call may have copied nothing. -/
theorem Runs.mirrored_holds {after before : List (Event Stream Dst α)} {data : List α}
    (h : Runs depth numel tracked device (after ++ before) w) (hd : tracked d)
    (hasked : asked d before = some data) (hkept : ∀ contents, .written d contents ∉ after)
    (hbefore : ∀ t, ∀ c ∈ w.queues.works t, c.dst = d → issuedIn before ≤ c.serial)
    (hafter : ∀ s serial, .ran s d serial ∈ after ++ before → serial < issuedIn before) :
    ∀ i (hi : i < data.length), w.device d i = data[i] := by
  have htracks := h.tracks hd
  obtain ⟨out, done, hsplit, -, hfly, hheld, hran⟩ := htracks.flight.split
  obtain ⟨-, new, hcopies, hnew⟩ := copiesTo_append before hkept
  have hanswer := htracks.answered before (List.suffix_append _ _)
  have hout : ∀ entry ∈ out, issuedIn before ≤ entry.1 := by
    intro entry hentry
    obtain ⟨t, c, hc, hdst, hserial⟩ := hfly entry hentry
    rw [← hserial]
    exact hbefore t c hc hdst
  have hdone : ∀ entry ∈ done, entry.1 < issuedIn before := by
    intro entry hentry
    obtain ⟨s, hs⟩ := hran entry hentry
    exact hafter s entry.1 hs
  have hrun : done = copiesTo d before := by
    rw [hcopies] at hsplit
    rcases List.append_eq_append_iff.1 hsplit with ⟨mid, hmid, hrest⟩ | ⟨mid, hmid, hrest⟩
    · cases mid with
      | nil => rw [hrest, List.nil_append]
      | cons entry mid =>
        exfalso
        have hmem : entry ∈ copiesTo d before := by
          rw [hrest]
          exact List.mem_cons_self ..
        have hge := hout entry (by rw [hmid]; simp)
        have hlt := copiesTo_lt hmem
        omega
    · cases mid with
      | nil => rw [hrest, List.nil_append]
      | cons entry mid =>
        exfalso
        have hge := hnew entry (by rw [hmid]; simp)
        have hlt := hdone entry (by rw [hrest]; simp)
        omega
  rw [hasked] at hanswer
  cases hlist : copiesTo d before with
  | nil =>
    rw [hlist] at hanswer
    cases hanswer
  | cons entry entries =>
    rw [hlist] at hanswer hrun
    cases hanswer
    refine hheld entry ?_
    rw [hrun]
    rfl

/-- A call that finds its values in the mirror, read once the copy of the call
before it has run. -/
theorem mirrored_holds_skipped :
    ∃ w : World Unit Unit ℕ, ∀ i (hi : i < [5].length), w.device () i = [5][i] := by
  have hne : padded 1 [5] none ≠ [] := List.cons_ne_nil 5 []
  have hcopied : Runs 2 (fun _ => 1) (fun _ => True) (fun _ _ => 0)
      (.mirrored () () (padded 1 [5] none) :: ([] ++ [])) _ :=
    (Runs.new 1 fun _ _ => 0).copy trivial (Nat.le_refl 1) hne (fun h => by cases h)
      ⟨_, _, .fits (Nat.le_refl 1) (Nat.le_refl 1), rfl⟩
  have hran := hcopied.waits (.exec .now (.copy (s := ()) rfl fun _ t other hother => by
    cases hother))
  have hlen : [5].length ≤ 1 := Nat.le_refl 1
  have hskipped : Runs 2 (fun _ => 1) (fun _ => True) (fun _ _ => 0)
      ([] ++ .skipped () (padded 1 [5] none) :: _) _ := hran.skip trivial hlen hne rfl
  refine ⟨_, hskipped.mirrored_holds trivial rfl (fun _ h => by cases h)
    (fun t c hc => by cases hc) (fun s serial h => ?_)⟩
  simp at h
  simp [h, issuedIn]
  rfl

end Mstar.Staging
