import Mstar.DeviceStreams

/-!
# Staging through pinned memory

Host values reach the device through a ring of segments of one pinned arena.
Each copy reads the arena when its stream comes to it, long after the call that
staged its values has returned. A segment that the cursor leaves gets an event
on each stream that copied out of it, and is entered again only once those have
completed, so no copy in flight ever sees its source change: the device gets
what it would get if every call passed its values along. A mirror of a
destination saves the copies that would put there what it holds.
-/

namespace Mstar.Staging

open DeviceStreams

/-- A copy out of the arena. `data` is what was staged for it; the device reads
the arena. -/
structure Copy (Dst α : Type) where
  dst : Dst
  /-- The number of copies issued before it. -/
  serial : ℕ
  arena : ℕ
  start : ℕ
  data : List α

/-- `PinnedStager`. Each `_grow` gives it another arena. -/
structure Stager (Stream : Type) where
  arena : ℕ
  segNumel : ℕ
  /-- The segment the cursor is in. -/
  seg : ℕ
  /-- The cursor, within that segment. -/
  off : ℕ
  /-- The streams each segment was copied out on since it was entered. -/
  streams : ℕ → List Stream
  /-- The events recorded on them once it was left. -/
  events : ℕ → List (Stream × ℕ)
  /-- Copies issued. -/
  copies : ℕ

/-- What an `H2DMirror` has recorded: the length and the padding of a copy, and
its values. -/
abbrev Recorded (α : Type) := (ℕ × Option α) × List α

/-- The stager, the streams it copies on, the arenas, and the destinations with
their mirrors. -/
structure World (Stream Dst α : Type) where
  stager : Stager Stream
  queues : Queues Stream (Copy Dst α)
  host : ℕ → ℕ → α
  device : Dst → ℕ → α
  mirrors : Dst → Option (Recorded α)

/-- What callers ask for, and what the streams do. -/
inductive Event (Stream Dst α : Type)
  /-- Copies that no mirror takes note of. -/
  | copied (s : Stream) (runs : List (Dst × List α))
  /-- A copy that a mirror recorded. -/
  | mirrored (s : Stream) (dst : Dst) (data : List α)
  /-- A call whose values the mirror had recorded. -/
  | skipped (dst : Dst) (data : List α)
  /-- A stream ran its next copy. -/
  | ran (s : Stream) (dst : Dst) (serial : ℕ)
  /-- A mirrored destination was written some other way. -/
  | written (dst : Dst) (contents : ℕ → α)

/-- Values written from `start` on. -/
def overwrite {α : Type} (data : List α) (start : ℕ) (old : ℕ → α) : ℕ → α := fun i =>
  if start ≤ i then (data[i - start]?).getD (old i) else old i

/-- What `copy_` puts in a destination: its values, padded to the end where
there is a padding. -/
def padded {α : Type} (numel : ℕ) (values : List α) : Option α → List α
  | none => values
  | some pad => values ++ List.replicate (numel - values.length) pad

variable {Stream Dst α : Type} [DecidableEq Stream] [DecidableEq Dst]

namespace World

/-- A stager of so many values a segment, before its first copy. -/
def new (numel : ℕ) (host : ℕ → ℕ → α) (device : Dst → ℕ → α) : World Stream Dst α where
  stager := ⟨0, max numel 1, 0, 0, fun _ => [], fun _ => [], 0⟩
  queues := Queues.new
  host := host
  device := device
  mirrors := fun _ => none

/-- The device runs a copy: it reads the arena now. -/
def transfer (w : World Stream Dst α) (c : Copy Dst α) : World Stream Dst α :=
  { w with device := Function.update w.device c.dst fun i =>
      if i < c.data.length then w.host c.arena (c.start + i) else w.device c.dst i }

/-- A stream's queue loses its first entry. -/
def pop (w : World Stream Dst α) (s : Stream) (entries : List (Entry (Copy Dst α))) :
    World Stream Dst α := { w with queues := w.queues.rest s entries }

/-- A stream runs its next entry. Where a destination has a mirror, its copies
run in the order they were issued in, whatever their streams. -/
inductive Exec (tracked : Dst → Prop) :
    World Stream Dst α → List (Event Stream Dst α) → World Stream Dst α → Prop
  | copy {w : World Stream Dst α} {s : Stream} {c : Copy Dst α}
      {entries : List (Entry (Copy Dst α))} : w.queues.queue s = .work c :: entries →
      (tracked c.dst → ∀ t, ∀ other ∈ (w.queues.rest s entries).works t, other.dst = c.dst →
        c.serial < other.serial) →
      Exec tracked w [.ran s c.dst c.serial] ((w.transfer c).pop s entries)
  | event {w : World Stream Dst α} {s : Stream} {id : ℕ}
      {entries : List (Entry (Copy Dst α))} : w.queues.queue s = .event id :: entries →
      Exec tracked w [] (w.pop s entries)

/-- Time passes for the streams. What happened last comes first. -/
inductive Waits (tracked : Dst → Prop) (w : World Stream Dst α) :
    List (Event Stream Dst α) → World Stream Dst α → Prop
  | now : Waits tracked w [] w
  | exec {log rans : List (Event Stream Dst α)} {v v' : World Stream Dst α} :
      Waits tracked w log v → v.Exec tracked rans v' → Waits tracked w (rans ++ log) v'

/-- `_leave_segment`: an event on each stream that copied out of it. -/
def leave (w : World Stream Dst α) : World Stream Dst α :=
  let recorded := Queues.recordAll (w.stager.streams w.stager.seg) w.queues
  { w with
    queues := recorded.2
    stager := { w.stager with
      events := Function.update w.stager.events w.stager.seg recorded.1
      streams := Function.update w.stager.streams w.stager.seg [] } }

/-- The cursor goes to the start of the next segment. -/
def enterNext (depth : ℕ) (w : World Stream Dst α) : World Stream Dst α :=
  { w with stager := { w.stager with seg := (w.stager.seg + 1) % depth, off := 0 } }

/-- The events of the segment entered are forgotten. -/
def forget (w : World Stream Dst α) : World Stream Dst α :=
  { w with stager := { w.stager with
      events := Function.update w.stager.events w.stager.seg [] } }

/-- A larger arena. The one it replaces is freed, and holds anything. -/
def grown (numel : ℕ) (junk : ℕ → α) (w : World Stream Dst α) : World Stream Dst α :=
  { w with
    host := Function.update w.host w.stager.arena junk
    stager := { w.stager with
      arena := w.stager.arena + 1
      segNumel := max numel (max (2 * w.stager.segNumel) 1)
      seg := 0
      off := 0
      events := fun _ => [] } }

/-- The cursor moves on. -/
def advance (total : ℕ) (w : World Stream Dst α) : World Stream Dst α :=
  { w with stager := { w.stager with off := w.stager.off + total } }

/-- `_claim`: where so many values go, once what it waits for has completed.
While it waits, the streams run on. -/
inductive Claims (depth : ℕ) (tracked : Dst → Prop) (total : ℕ) (w : World Stream Dst α) :
    List (Event Stream Dst α) → World Stream Dst α → ℕ → Prop
  | fits : total ≤ w.stager.segNumel → w.stager.off + total ≤ w.stager.segNumel →
      Claims depth tracked total w [] (w.advance total)
        (w.stager.seg * w.stager.segNumel + w.stager.off)
  | next {rans : List (Event Stream Dst α)} {v : World Stream Dst α} :
      total ≤ w.stager.segNumel → w.stager.segNumel < w.stager.off + total →
      (w.leave.enterNext depth).Waits tracked rans v →
      (∀ event ∈ v.stager.events v.stager.seg, v.queues.Done event) →
      Claims depth tracked total w rans (v.forget.advance total)
        (v.stager.seg * v.stager.segNumel)
  | grow {rans : List (Event Stream Dst α)} {v : World Stream Dst α} (junk : ℕ → α) :
      w.stager.segNumel < total → w.leave.Waits tracked rans v →
      (∀ g, ∀ event ∈ v.stager.events g, v.queues.Done event) →
      Claims depth tracked total w rans ((v.grown total junk).advance total) 0

/-- Values staged in the arena. -/
def stage (w : World Stream Dst α) (start : ℕ) (data : List α) : World Stream Dst α :=
  { w with
    host := Function.update w.host w.stager.arena
      (overwrite data start (w.host w.stager.arena)) }

/-- One copy for each destination, out of consecutive values. -/
def submitRuns (arena : ℕ) (s : Stream) :
    ℕ → ℕ → List (Dst × List α) → Queues Stream (Copy Dst α) → Queues Stream (Copy Dst α)
  | _, _, [], q => q
  | serial, start, run :: runs, q =>
    submitRuns arena s (serial + 1) (start + run.2.length) runs
      (q.submit s ⟨run.1, serial, arena, start, run.2⟩)

/-- The copies of some staged runs issued. -/
def issue (w : World Stream Dst α) (s : Stream) (start : ℕ) (runs : List (Dst × List α)) :
    World Stream Dst α :=
  { w with
    queues := submitRuns w.stager.arena s w.stager.copies start runs w.queues
    stager := { w.stager with copies := w.stager.copies + runs.length } }

/-- The segment was copied out of on a stream. -/
def use (w : World Stream Dst α) (s : Stream) : World Stream Dst α :=
  let streams := w.stager.streams w.stager.seg
  { w with stager := { w.stager with
      streams := Function.update w.stager.streams w.stager.seg
        (if s ∈ streams then streams else streams ++ [s]) } }

/-- `copy_runs_` of values, as what each destination gets of them. With one run
it is what `copy_` does under its lock. -/
def CopyRuns (depth : ℕ) (tracked : Dst → Prop) (s : Stream) (runs : List (Dst × List α))
    (w : World Stream Dst α) (rans : List (Event Stream Dst α)) (w' : World Stream Dst α) : Prop :=
  ∃ v start, w.Claims depth tracked (runs.flatMap Prod.snd).length rans v start ∧
    w' = ((v.stage start (runs.flatMap Prod.snd)).issue s start runs).use s

/-- A mirror records a copy, or is invalidated. -/
def record (w : World Stream Dst α) (dst : Dst) (recorded : Option (Recorded α)) :
    World Stream Dst α := { w with mirrors := Function.update w.mirrors dst recorded }

/-- A destination is written some other way. -/
def write (w : World Stream Dst α) (dst : Dst) (contents : ℕ → α) : World Stream Dst α :=
  { w with device := Function.update w.device dst contents }

end World

/-- Runs of a stager, with what happened, the last first. A destination with a
mirror is only copied to with it, and is written some other way only while no
copy to it is in flight. -/
inductive Runs (depth : ℕ) (numel : Dst → ℕ) (tracked : Dst → Prop) (device : Dst → ℕ → α) :
    List (Event Stream Dst α) → World Stream Dst α → Prop
  | new (n : ℕ) (host : ℕ → ℕ → α) : Runs depth numel tracked device [] (World.new n host device)
  | waits {log rans : List (Event Stream Dst α)} {w v : World Stream Dst α} :
      Runs depth numel tracked device log w → w.Waits tracked rans v →
      Runs depth numel tracked device (rans ++ log) v
  | copyRuns {log rans : List (Event Stream Dst α)} {w v : World Stream Dst α} {s : Stream}
      {runs : List (Dst × List α)} : Runs depth numel tracked device log w →
      (∀ run ∈ runs, ¬tracked run.1) → w.CopyRuns depth tracked s runs rans v →
      Runs depth numel tracked device (.copied s runs :: (rans ++ log)) v
  | copy {log rans : List (Event Stream Dst α)} {w v : World Stream Dst α} {s : Stream}
      {dst : Dst} {values : List α} {pad : Option α} : Runs depth numel tracked device log w →
      tracked dst → values.length ≤ numel dst → padded (numel dst) values pad ≠ [] →
      w.mirrors dst ≠ some (((padded (numel dst) values pad).length, pad), values) →
      w.CopyRuns depth tracked s [(dst, padded (numel dst) values pad)] rans v →
      Runs depth numel tracked device
        (.mirrored s dst (padded (numel dst) values pad) :: (rans ++ log))
        (v.record dst (some (((padded (numel dst) values pad).length, pad), values)))
  | skip {log : List (Event Stream Dst α)} {w : World Stream Dst α} {dst : Dst}
      {values : List α} {pad : Option α} : Runs depth numel tracked device log w →
      tracked dst → values.length ≤ numel dst → padded (numel dst) values pad ≠ [] →
      w.mirrors dst = some (((padded (numel dst) values pad).length, pad), values) →
      Runs depth numel tracked device (.skipped dst (padded (numel dst) values pad) :: log) w
  | write {log : List (Event Stream Dst α)} {w : World Stream Dst α} {dst : Dst}
      {contents : ℕ → α} : Runs depth numel tracked device log w → tracked dst →
      (∀ t, ∀ c ∈ w.queues.works t, c.dst ≠ dst) →
      Runs depth numel tracked device (.written dst contents :: log)
        ((w.write dst contents).record dst none)

/-- What the device gets where every copy carries its values. -/
structure Plain (Stream Dst α : Type) where
  queue : Stream → List (Dst × List α)
  device : Dst → ℕ → α

namespace Plain

/-- Copies go to the end of their stream's queue. -/
def submit (m : Plain Stream Dst α) (s : Stream) (runs : List (Dst × List α)) :
    Plain Stream Dst α := { m with queue := Function.update m.queue s (m.queue s ++ runs) }

/-- A stream runs its next copy. -/
def run (m : Plain Stream Dst α) (s : Stream) : Plain Stream Dst α :=
  match m.queue s with
  | [] => m
  | copy :: copies =>
    ⟨Function.update m.queue s copies,
      Function.update m.device copy.1 fun i => (copy.2[i]?).getD (m.device copy.1 i)⟩

/-- What happened, with nothing staged. -/
def step (m : Plain Stream Dst α) : Event Stream Dst α → Plain Stream Dst α
  | .copied s runs => m.submit s runs
  | .mirrored s dst data => m.submit s [(dst, data)]
  | .skipped _ _ => m
  | .ran s _ _ => m.run s
  | .written dst contents => { m with device := Function.update m.device dst contents }

/-- All that happened, the last of it first. -/
def after (m : Plain Stream Dst α) (log : List (Event Stream Dst α)) : Plain Stream Dst α :=
  log.foldr (fun event m => m.step event) m

end Plain

/-- A stager's world as if nothing were staged. -/
def World.plain (w : World Stream Dst α) : Plain Stream Dst α :=
  ⟨fun s => (w.queues.works s).map fun c => (c.dst, c.data), w.device⟩

section Invariant

/-- No host call will touch a copy's source before the copy has run. -/
structure Safe (w : World Stream Dst α) (s : Stream) (c : Copy Dst α)
    (behind : List (Entry (Copy Dst α))) : Prop where
  /-- It reads the arena in use. -/
  arena_eq : c.arena = w.stager.arena
  /-- There is what was staged for it. -/
  staged : ∀ i (h : i < c.data.length), w.host c.arena (c.start + i) = c.data[i]
  /-- Its segment has its stream, or an event behind it. -/
  guarded : ∃ g, g * w.stager.segNumel ≤ c.start ∧
    c.start + c.data.length ≤ (g + 1) * w.stager.segNumel ∧
    (g = w.stager.seg ∧ s ∈ w.stager.streams g ∧
        c.start + c.data.length ≤ g * w.stager.segNumel + w.stager.off ∨
      ∃ id, (s, id) ∈ w.stager.events g ∧ .event id ∈ behind)

/-- A copy with an event of its segment behind it. -/
structure Guarded (w : World Stream Dst α) (s : Stream) (c : Copy Dst α)
    (behind : List (Entry (Copy Dst α))) : Prop where
  arena_eq : c.arena = w.stager.arena
  staged : ∀ i (h : i < c.data.length), w.host c.arena (c.start + i) = c.data[i]
  guarded : ∃ g, g * w.stager.segNumel ≤ c.start ∧
    c.start + c.data.length ≤ (g + 1) * w.stager.segNumel ∧
    ∃ id, (s, id) ∈ w.stager.events g ∧ .event id ∈ behind

/-- What holds between any two calls. -/
structure Inv (w : World Stream Dst α) : Prop where
  off_le : w.stager.off ≤ w.stager.segNumel
  /-- Only the segment that the cursor is in has streams. -/
  streams_nil : ∀ g, g ≠ w.stager.seg → w.stager.streams g = []
  /-- Only segments that were left have events. -/
  events_nil : w.stager.events w.stager.seg = []
  pending : w.queues.Pending (Safe w)

variable {w w' v : World Stream Dst α} {depth : ℕ} {tracked : Dst → Prop}
  {rans log : List (Event Stream Dst α)}

omit [DecidableEq Stream] [DecidableEq Dst] in
/-- What is submitted later does not harm. -/
theorem lasting_safe (w : World Stream Dst α) : Queues.Lasting (Safe w) := by
  intro s c behind more h
  refine ⟨h.arena_eq, h.staged, ?_⟩
  obtain ⟨g, hlo, hhi, hin | ⟨id, hid, hmem⟩⟩ := h.guarded
  · exact ⟨g, hlo, hhi, Or.inl hin⟩
  · exact ⟨g, hlo, hhi, Or.inr ⟨id, hid, List.mem_append_left _ hmem⟩⟩

/-- A stream runs on. -/
theorem Inv.exec (h : Inv w) (hexec : w.Exec tracked rans w') : Inv w' := by
  cases hexec with
  | copy hqueue _ =>
    exact ⟨h.off_le, h.streams_nil, h.events_nil, (h.pending.rest hqueue).mono
      fun _ _ _ hsafe => ⟨hsafe.arena_eq, hsafe.staged, hsafe.guarded⟩⟩
  | event hqueue =>
    exact ⟨h.off_le, h.streams_nil, h.events_nil, (h.pending.rest hqueue).mono
      fun _ _ _ hsafe => ⟨hsafe.arena_eq, hsafe.staged, hsafe.guarded⟩⟩

/-- While the streams run, the stager and the arenas stay as they are, and so
does what guards the copies. -/
theorem waits_guarded (hwait : w.Waits tracked rans v) (h : w.queues.Pending (Guarded w)) :
    v.stager = w.stager ∧ v.host = w.host ∧ v.queues.Pending (Guarded v) := by
  induction hwait with
  | now => exact ⟨rfl, rfl, h⟩
  | exec _ hexec ih =>
    obtain ⟨hstager, hhost, hpending⟩ := ih
    cases hexec with
    | copy hqueue _ =>
      exact ⟨hstager, hhost, (hpending.rest hqueue).mono
        fun _ _ _ hg => ⟨hg.arena_eq, hg.staged, hg.guarded⟩⟩
    | event hqueue =>
      exact ⟨hstager, hhost, (hpending.rest hqueue).mono
        fun _ _ _ hg => ⟨hg.arena_eq, hg.staged, hg.guarded⟩⟩

omit [DecidableEq Dst] in
/-- Once a segment is left, every copy has an event of its segment behind
it. -/
theorem Inv.leave (h : Inv w) : w.leave.queues.Pending (Guarded w.leave) := by
  refine (h.pending.recordAll (lasting_safe w) (w.stager.streams w.stager.seg)).mono
    fun s c behind hboth => ?_
  obtain ⟨hsafe, hevent⟩ := hboth
  refine ⟨hsafe.arena_eq, hsafe.staged, ?_⟩
  obtain ⟨g, hlo, hhi, ⟨rfl, hs, -⟩ | ⟨id, hid, hmem⟩⟩ := hsafe.guarded
  · obtain ⟨id, hid, hmem⟩ := hevent hs
    refine ⟨_, hlo, hhi, id, ?_, hmem⟩
    change (s, id) ∈ Function.update w.stager.events w.stager.seg _ w.stager.seg
    rw [Function.update_self]
    exact hid
  · have hne : g ≠ w.stager.seg := by
      rintro rfl
      rw [h.events_nil] at hid
      cases hid
    refine ⟨g, hlo, hhi, id, ?_, hmem⟩
    change (s, id) ∈ Function.update w.stager.events w.stager.seg _ g
    rw [Function.update_of_ne hne]
    exact hid

/-- Two stretches in different segments do not meet. -/
theorem segments_apart {numel g seg a b start total : ℕ} (hne : g ≠ seg) (hlo : g * numel ≤ a)
    (hhi : b ≤ (g + 1) * numel) (hstart : seg * numel ≤ start)
    (hend : start + total ≤ (seg + 1) * numel) : b ≤ start ∨ start + total ≤ a := by
  rcases Nat.lt_or_gt_of_ne hne with hlt | hgt
  · have hle : (g + 1) * numel ≤ seg * numel := Nat.mul_le_mul_right numel hlt
    omega
  · have hle : (seg + 1) * numel ≤ g * numel := Nat.mul_le_mul_right numel hgt
    omega

/-- What a claim leaves: the stretch claimed is the last one of the segment
that the cursor is in, and no copy in flight reads any of it. -/
structure Claimed (w : World Stream Dst α) (start total : ℕ) : Prop where
  start_ge : w.stager.seg * w.stager.segNumel ≤ start
  end_eq : start + total = w.stager.seg * w.stager.segNumel + w.stager.off
  off_le : w.stager.off ≤ w.stager.segNumel
  streams_nil : ∀ g, g ≠ w.stager.seg → w.stager.streams g = []
  events_nil : w.stager.events w.stager.seg = []
  pending : w.queues.Pending fun s c behind => Safe w s c behind ∧
    (c.start + c.data.length ≤ start ∨ start + total ≤ c.start)

omit [DecidableEq Dst] in
/-- Leaving a segment leaves no streams. -/
theorem Inv.leave_streams (h : Inv w) (g : ℕ) : w.leave.stager.streams g = [] := by
  change Function.update w.stager.streams w.stager.seg [] g = []
  by_cases hg : g = w.stager.seg
  · rw [hg, Function.update_self]
  · rw [Function.update_of_ne hg]
    exact h.streams_nil g hg

omit [DecidableEq Stream] [DecidableEq Dst] in
/-- Once its event has completed a copy has run. -/
theorem not_pending_of_done {s : Stream} {before behind : List (Entry (Copy Dst α))}
    {c : Copy Dst α} {id : ℕ} (hdone : w.queues.Done (s, id))
    (hqueue : w.queues.queue s = before ++ .work c :: behind) : .event id ∉ behind := by
  intro hmem
  refine hdone ?_
  rw [hqueue]
  exact List.mem_append_right _ (List.mem_cons_of_mem _ hmem)

/-- A claim, whatever it waits for. -/
theorem Inv.claims (h : Inv w) {total start : ℕ}
    (hclaim : w.Claims depth tracked total rans v start) :
    Claimed v start total := by
  cases hclaim with
  | fits hsmall hfits =>
    refine ⟨Nat.le_add_right _ _, Nat.add_assoc .., hfits, h.streams_nil, h.events_nil, ?_⟩
    refine h.pending.mono fun s c behind hsafe => ⟨⟨hsafe.arena_eq, hsafe.staged, ?_⟩, ?_⟩
    · obtain ⟨g, hlo, hhi, ⟨hg, hs, hend⟩ | hevent⟩ := hsafe.guarded
      · exact ⟨g, hlo, hhi, Or.inl ⟨hg, hs, Nat.le_trans hend
          (Nat.add_le_add_left (Nat.le_add_right _ _) _)⟩⟩
      · exact ⟨g, hlo, hhi, Or.inr hevent⟩
    · obtain ⟨g, hlo, hhi, ⟨rfl, -, hend⟩ | ⟨id, hid, -⟩⟩ := hsafe.guarded
      · exact Or.inl hend
      · have hne : g ≠ w.stager.seg := by
          rintro rfl
          rw [h.events_nil] at hid
          cases hid
        refine segments_apart hne hlo hhi (Nat.le_add_right _ _) ?_
        rw [Nat.succ_mul, Nat.add_assoc]
        exact Nat.add_le_add_left hfits _
  | next hsmall hfull hwait hdone =>
    rename_i v
    obtain ⟨hstager, -, hpending⟩ := waits_guarded hwait (h.leave.mono
      fun _ _ _ hg => ⟨hg.arena_eq, hg.staged, hg.guarded⟩)
    have hoff : v.stager.off = 0 := by rw [hstager]; rfl
    have hnumel : v.stager.segNumel = w.stager.segNumel := by rw [hstager]; rfl
    refine ⟨Nat.le_refl _, ?_, ?_, fun g _ => ?_, Function.update_self .., ?_⟩
    · change _ = v.stager.seg * v.stager.segNumel + (v.stager.off + total)
      rw [hoff, Nat.zero_add]
    · change v.stager.off + total ≤ v.stager.segNumel
      rw [hoff, Nat.zero_add, hnumel]
      exact hsmall
    · change v.stager.streams g = []
      rw [hstager]
      exact h.leave_streams g
    · intro s before c behind hqueue
      have hg := hpending s before c behind hqueue
      obtain ⟨g, hlo, hhi, id, hid, hmem⟩ := hg.guarded
      have hne : g ≠ v.stager.seg := by
        rintro rfl
        exact not_pending_of_done (hdone (s, id) hid) hqueue hmem
      refine ⟨⟨hg.arena_eq, hg.staged, g, hlo, hhi, Or.inr ⟨id, ?_, hmem⟩⟩, ?_⟩
      · change (s, id) ∈ Function.update v.stager.events v.stager.seg [] g
        rw [Function.update_of_ne hne]
        exact hid
      · refine segments_apart hne hlo hhi (Nat.le_refl _) ?_
        rw [Nat.succ_mul, hnumel]
        exact Nat.add_le_add_left hsmall _
  | grow junk hlarge hwait hdone =>
    rename_i v
    obtain ⟨hstager, -, hpending⟩ := waits_guarded hwait h.leave
    refine ⟨?_, ?_, ?_, fun g _ => ?_, rfl, ?_⟩
    · exact Nat.le_of_eq (Nat.zero_mul _)
    · change 0 + total = 0 * _ + (0 + total)
      rw [Nat.zero_mul, Nat.zero_add, Nat.zero_add]
    · change 0 + total ≤ max total _
      rw [Nat.zero_add]
      exact Nat.le_max_left _ _
    · change v.stager.streams g = []
      rw [hstager]
      exact h.leave_streams g
    · intro s before c behind hqueue
      obtain ⟨g, -, -, id, hid, hmem⟩ := (hpending s before c behind hqueue).guarded
      exact absurd hmem (not_pending_of_done (hdone g (s, id) hid) hqueue)

omit [DecidableEq Stream] [DecidableEq Dst] in
/-- What is written is there. -/
theorem overwrite_add (data : List α) (start : ℕ) (old : ℕ → α) {i : ℕ} (h : i < data.length) :
    overwrite data start old (start + i) = data[i] := by
  unfold overwrite
  rw [if_pos (Nat.le_add_right _ _), Nat.add_sub_cancel_left, List.getElem?_eq_getElem h]
  rfl

omit [DecidableEq Stream] [DecidableEq Dst] in
/-- Nothing else is written. -/
theorem overwrite_of_apart {data : List α} {start j : ℕ} (old : ℕ → α)
    (h : j < start ∨ start + data.length ≤ j) : overwrite data start old j = old j := by
  unfold overwrite
  split
  · rw [List.getElem?_eq_none (by omega)]
    rfl
  · rfl

omit [DecidableEq Dst] in
/-- Copies out of what is staged in the segment in use, on a stream that it
has. -/
theorem pending_submitRuns {s : Stream} (hs : s ∈ w.stager.streams w.stager.seg)
    (hoff : w.stager.off ≤ w.stager.segNumel) {runs : List (Dst × List α)} {serial start : ℕ}
    {q : Queues Stream (Copy Dst α)} (h : q.Pending (Safe w))
    (hlo : w.stager.seg * w.stager.segNumel ≤ start)
    (hhi : start + (runs.flatMap Prod.snd).length ≤
      w.stager.seg * w.stager.segNumel + w.stager.off)
    (hstaged : ∀ i (hi : i < (runs.flatMap Prod.snd).length),
      w.host w.stager.arena (start + i) = (runs.flatMap Prod.snd)[i]) :
    (World.submitRuns w.stager.arena s serial start runs q).Pending (Safe w) := by
  induction runs generalizing serial start q with
  | nil => exact h
  | cons run runs ih =>
    rw [List.flatMap_cons, List.length_append] at hhi
    unfold World.submitRuns
    refine ih (h.submit (lasting_safe w) ⟨rfl, fun i hi => ?_, ?_⟩) (by omega) (by omega)
      fun i hi => ?_
    · have hlt : i < run.2.length := hi
      rw [hstaged i (by rw [List.flatMap_cons, List.length_append]; omega)]
      simp only [List.flatMap_cons]
      exact List.getElem_append_left hi
    · refine ⟨w.stager.seg, hlo, ?_, Or.inl ⟨rfl, hs, ?_⟩⟩
      · rw [Nat.succ_mul]
        dsimp only
        omega
      · dsimp only
        omega
    · have hat := hstaged (run.2.length + i)
        (by rw [List.flatMap_cons, List.length_append]; omega)
      rw [Nat.add_assoc, hat]
      simp only [List.flatMap_cons]
      rw [List.getElem_append_right (Nat.le_add_right _ _)]
      congr 1
      omega

omit [DecidableEq Dst] in
/-- Staging what was claimed and copying it keeps every copy safe. -/
theorem Claimed.issue {runs : List (Dst × List α)} {start : ℕ}
    (h : Claimed w start (runs.flatMap Prod.snd).length) (s : Stream) :
    Inv (((w.stage start (runs.flatMap Prod.snd)).issue s start runs).use s) := by
  have hstream : ∀ t, t ∈ w.stager.streams w.stager.seg ∨ t = s →
      t ∈ (((w.stage start (runs.flatMap Prod.snd)).issue s start runs).use s).stager.streams
        w.stager.seg := by
    intro t ht
    change t ∈ Function.update w.stager.streams w.stager.seg _ w.stager.seg
    rw [Function.update_self]
    change t ∈ if s ∈ w.stager.streams w.stager.seg then w.stager.streams w.stager.seg else
      w.stager.streams w.stager.seg ++ [s]
    split
    · rename_i hin
      rcases ht with ht | rfl
      · exact ht
      · exact hin
    · rcases ht with ht | rfl
      · exact List.mem_append_left _ ht
      · exact List.mem_append_right _ (List.mem_singleton_self t)
  have hold : w.queues.Pending
      (Safe (((w.stage start (runs.flatMap Prod.snd)).issue s start runs).use s)) := by
    refine h.pending.mono fun t c behind hboth => ?_
    obtain ⟨hsafe, hapart⟩ := hboth
    refine ⟨hsafe.arena_eq, fun i hi => ?_, ?_⟩
    · rw [← hsafe.staged i hi, hsafe.arena_eq]
      change Function.update w.host w.stager.arena _ w.stager.arena (c.start + i) = _
      rw [Function.update_self]
      exact overwrite_of_apart _ (by omega)
    · obtain ⟨g, hlo, hhi, ⟨rfl, ht, hend⟩ | hevent⟩ := hsafe.guarded
      · exact ⟨_, hlo, hhi, Or.inl ⟨rfl, hstream t (Or.inl ht), hend⟩⟩
      · exact ⟨g, hlo, hhi, Or.inr hevent⟩
  refine ⟨h.off_le, fun g hg => ?_, h.events_nil, ?_⟩
  · have hne : g ≠ w.stager.seg := hg
    change Function.update w.stager.streams w.stager.seg _ g = []
    rw [Function.update_of_ne hne]
    exact h.streams_nil g hne
  · refine pending_submitRuns
      (w := ((w.stage start (runs.flatMap Prod.snd)).issue s start runs).use s)
      (hstream s (Or.inr rfl)) h.off_le hold h.start_ge (Nat.le_of_eq h.end_eq) fun i hi => ?_
    change Function.update w.host w.stager.arena _ w.stager.arena (start + i) = _
    rw [Function.update_self]
    exact overwrite_add _ _ _ hi

/-- A call keeps every copy safe. -/
theorem Inv.copyRuns (h : Inv w) {s : Stream} {runs : List (Dst × List α)}
    (hcall : w.CopyRuns depth tracked s runs rans w') : Inv w' := by
  obtain ⟨v, start, hclaim, rfl⟩ := hcall
  exact (h.claims hclaim).issue s

end Invariant

section ByValue

variable {w w' v : World Stream Dst α} {depth : ℕ} {tracked : Dst → Prop}
  {rans log : List (Event Stream Dst α)}

/-- The arena holds what was staged for a copy. -/
def Staged (w : World Stream Dst α) (c : Copy Dst α) : Prop :=
  ∀ i (h : i < c.data.length), w.host c.arena (c.start + i) = c.data[i]

omit [DecidableEq Stream] in
/-- A copy of what was staged. -/
theorem transfer_device {c : Copy Dst α} (h : Staged w c) :
    (w.transfer c).device = Function.update w.device c.dst fun i =>
      (c.data[i]?).getD (w.device c.dst i) := by
  unfold World.transfer
  dsimp only
  congr 1
  funext i
  split
  · rename_i hi
    rw [h i hi, List.getElem?_eq_getElem hi]
    rfl
  · rename_i hi
    rw [List.getElem?_eq_none (by omega)]
    rfl

/-- Later happenings. -/
theorem Plain.after_append (m : Plain Stream Dst α) (rans log : List (Event Stream Dst α)) :
    m.after (rans ++ log) = (m.after log).after rans :=
  List.foldr_append ..

/-- A stream runs on by value. -/
theorem exec_plain (hexec : w.Exec tracked rans v) (h : w.queues.Pending fun _ c _ => Staged w c) :
    v.plain = w.plain.after rans := by
  cases hexec with
  | event hqueue =>
    unfold World.plain World.pop
    dsimp only
    rw [Queues.works_rest_event hqueue]
    rfl
  | copy hqueue horder =>
    rename_i s c entries
    have hfirst : w.plain.queue s = (c.dst, c.data) ::
        (entries.filterMap Entry.toWork).map fun c => (c.dst, c.data) := by
      change (w.queues.works s).map _ = _
      rw [Queues.works_of_first hqueue]
      rfl
    change _ = w.plain.run s
    unfold Plain.run
    rw [hfirst]
    dsimp only
    unfold World.plain World.pop
    dsimp only
    rw [transfer_device (h.first hqueue), Queues.works_rest]
    congr 1
    funext t
    by_cases ht : t = s
    · rw [ht, Function.update_self, Function.update_self]
    · rw [Function.update_of_ne ht, Function.update_of_ne ht]
      rfl

/-- While the streams run, they do by value. -/
theorem waits_plain (hwait : w.Waits tracked rans v)
    (h : w.queues.Pending fun _ c _ => Staged w c) :
    v.plain = w.plain.after rans ∧ v.queues.Pending fun _ c _ => Staged v c := by
  induction hwait with
  | now => exact ⟨rfl, h⟩
  | exec _ hexec ih =>
    obtain ⟨hplain, hpending⟩ := ih
    refine ⟨?_, ?_⟩
    · rw [exec_plain hexec hpending, hplain, Plain.after_append]
    · cases hexec with
      | copy hqueue _ => exact hpending.rest hqueue
      | event hqueue => exact hpending.rest hqueue

omit [DecidableEq Dst] in
/-- Leaving a segment copies nothing. -/
theorem leave_plain (w : World Stream Dst α) : w.leave.plain = w.plain := by
  unfold World.plain World.leave
  dsimp only
  rw [Queues.works_recordAll]

/-- While a claim waits, the streams run by value. -/
theorem Inv.claims_plain (h : Inv w) {total start : ℕ}
    (hclaim : w.Claims depth tracked total rans v start) : v.plain = w.plain.after rans := by
  have hstaged : w.leave.queues.Pending fun _ c _ => Staged w.leave c :=
    h.leave.mono fun _ _ _ hg => hg.staged
  cases hclaim with
  | fits => rfl
  | next _ _ hwait _ =>
    have hplain := (waits_plain hwait hstaged).1
    change _ = w.leave.plain.after rans at hplain
    rw [leave_plain] at hplain
    exact hplain
  | grow _ _ hwait _ =>
    have hplain := (waits_plain hwait hstaged).1
    rw [leave_plain] at hplain
    exact hplain

omit [DecidableEq Dst] in
/-- The copies of some runs are the runs. -/
theorem works_submitRuns (arena : ℕ) (s : Stream) (serial start : ℕ) (runs : List (Dst × List α))
    (q : Queues Stream (Copy Dst α)) :
    (fun t => ((World.submitRuns arena s serial start runs q).works t).map fun c =>
        (c.dst, c.data)) =
      Function.update (fun t => (q.works t).map fun c => (c.dst, c.data)) s
        ((q.works s).map (fun c => (c.dst, c.data)) ++ runs) := by
  induction runs generalizing serial start q with
  | nil =>
    rw [List.append_nil]
    exact (Function.update_eq_self s _).symm
  | cons run runs ih =>
    unfold World.submitRuns
    rw [ih, Queues.works_submit]
    funext t
    by_cases ht : t = s
    · subst ht
      simp only [Function.update_self, List.map_append, List.map_cons, List.map_nil,
        List.append_assoc, List.singleton_append]
    · simp only [Function.update_of_ne ht]

/-- A call by value, after what ran while it waited. -/
theorem Inv.copyRuns_plain (h : Inv w) {s : Stream} {runs : List (Dst × List α)}
    (hcall : w.CopyRuns depth tracked s runs rans w') :
    w'.plain = (w.plain.after rans).submit s runs := by
  obtain ⟨v, start, hclaim, rfl⟩ := hcall
  rw [← h.claims_plain hclaim]
  exact congrArg (fun queue => (⟨queue, v.device⟩ : Plain Stream Dst α))
    (works_submitRuns v.stager.arena s v.stager.copies start runs v.queues)

/-- Every copy stays safe while the streams run. -/
theorem Inv.waits (h : Inv w) (hwait : w.Waits tracked rans v) : Inv v := by
  induction hwait with
  | now => exact h
  | exec _ hexec ih => exact ih.exec hexec

variable {numel : Dst → ℕ} {device : Dst → ℕ → α}

/-- Every copy is safe in every run. -/
theorem Runs.inv (h : Runs depth numel tracked device log w) : Inv w := by
  induction h with
  | new n host => exact ⟨Nat.zero_le _, fun _ _ => rfl, rfl, Queues.pending_new⟩
  | waits _ hwait ih => exact ih.waits hwait
  | copyRuns _ _ hcall ih => exact ih.copyRuns hcall
  | copy _ _ _ _ _ hcall ih =>
    have hinv := ih.copyRuns hcall
    exact ⟨hinv.off_le, hinv.streams_nil, hinv.events_nil, hinv.pending.mono
      fun _ _ _ hsafe => ⟨hsafe.arena_eq, hsafe.staged, hsafe.guarded⟩⟩
  | skip _ _ _ _ _ ih => exact ih
  | write _ _ _ ih =>
    exact ⟨ih.off_le, ih.streams_nil, ih.events_nil, ih.pending.mono
      fun _ _ _ hsafe => ⟨hsafe.arena_eq, hsafe.staged, hsafe.guarded⟩⟩

/-- Whatever the streams, the calls and the order that copies run in, a stager
that reuses and grows its arena leaves on the device and in flight what copies
that carry their values would: no copy reads what a later call staged. -/
theorem Runs.staged_by_value (h : Runs depth numel tracked device log w) :
    w.plain = (⟨fun _ => [], device⟩ : Plain Stream Dst α).after log ∧
      ∀ t, ∀ c ∈ w.queues.works t, Staged w c := by
  constructor
  · induction h with
    | new n host => rfl
    | waits hruns hwait ih =>
      rw [Plain.after_append, ← ih]
      exact (waits_plain hwait (hruns.inv.pending.mono fun _ _ _ hsafe => hsafe.staged)).1
    | copyRuns hruns _ hcall ih =>
      rw [hruns.inv.copyRuns_plain hcall, ih, ← Plain.after_append]
      rfl
    | copy hruns _ _ _ _ hcall ih =>
      have hplain := hruns.inv.copyRuns_plain hcall
      rw [ih, ← Plain.after_append] at hplain
      exact hplain
    | skip _ _ _ _ _ ih => exact ih
    | write hruns htracked hfree ih =>
      rename_i dst contents
      have hwrite := congrArg (fun m : Plain Stream Dst α => m.step (.written dst contents)) ih
      exact hwrite
  · intro t c hc
    obtain ⟨entry, hentry, hwork⟩ := List.mem_filterMap.1 hc
    obtain ⟨before, behind, heq⟩ := List.append_of_mem hentry
    cases entry with
    | event id => cases hwork
    | work op =>
      cases hwork
      exact (h.inv.pending t before c behind heq).staged

/-- With a single segment the second call waits for the copy of the first. -/
theorem staged_by_value_reused : ∃ w : World Unit Bool ℕ, w.plain =
    (⟨fun _ => [], fun _ _ => 0⟩ : Plain Unit Bool ℕ).after
      [.copied () [(true, [9])], .ran () false 0, .copied () [(false, [7])]] := by
  have hfirst : Runs 1 (fun _ => 1) (fun _ => False) (fun _ _ => 0) [.copied () [(false, [7])]] _ :=
    (Runs.new 1 fun _ _ => 0).copyRuns (fun _ _ h => h) ⟨_, _, .fits (by decide) (by decide), rfl⟩
  have hsecond : Runs 1 (fun _ => 1) (fun _ => False) (fun _ _ => 0)
      [.copied () [(true, [9])], .ran () false 0, .copied () [(false, [7])]] _ :=
    hfirst.copyRuns (fun _ _ h => h) ⟨_, _, .next (by decide) (by decide)
      (.exec (.exec .now (.copy (s := ()) rfl fun h => h.elim)) (.event (s := ()) rfl))
      (fun event _ => List.not_mem_nil), rfl⟩
  exact ⟨_, hsecond.staged_by_value.1⟩

end ByValue

end Mstar.Staging
