import Mathlib.Data.Int.ModEq
import Mathlib.Data.List.Basic
import Mathlib.Data.List.Nodup
import Mathlib.Data.List.Range
import Mathlib.Logic.Function.Basic
import Mathlib.Tactic.Ring

/-!
# Ring caches of frames

One attention layer keeps, for each of its sessions, a ring of frame slots and a
scratch frame behind it. A pass writes each row's frame into the scratch of its
session; a committed pass writes the frames that the layer keeps into their ring
slots, and marks what it wrote.
-/

namespace Mstar.RingKV

/-- A layer's ring: `ring_frames` slots, of which the first `ring_buckets` are
addressed, for each `pinned_dilation`-th frame. -/
structure Geometry where
  ringFrames : ℕ
  ringBuckets : ℕ
  dilation : ℕ
  buckets_pos : 1 ≤ ringBuckets
  buckets_le : ringBuckets ≤ ringFrames
  dilation_pos : 1 ≤ dilation

/-- One row of a pass: its session, its frame's number and the frame's tokens. -/
structure Row (α : Type*) where
  sessionIdx : ℕ
  framePos : ℕ
  frame : ℕ → α

/-- A layer's buffer and its `written` bitmap, over all sessions. -/
structure LayerRing (α : Type*) where
  kv : ℕ → α
  written : ℕ → Bool

variable {α : Type*}

namespace Geometry

variable (g : Geometry) (tokens : ℕ)

/-- The tokens of one session's history, without the scratch frame. -/
def ringLen : ℕ := g.ringFrames * tokens

/-- One session's token slots. -/
def capacity : ℕ := g.ringLen tokens + tokens

/-- The ring slot of a frame. -/
def slot (framePos : ℕ) : ℕ := (framePos + (g.dilation - 1)) / g.dilation % g.ringBuckets

/-- The first token of a row's ring slot. -/
def ringBase (r : Row α) : ℕ := g.slot r.framePos * tokens + r.sessionIdx * g.capacity tokens

/-- The first token of a row's scratch frame. -/
def currentBase (r : Row α) : ℕ := g.ringLen tokens + r.sessionIdx * g.capacity tokens

/-- Whether the layer keeps a frame. -/
def writeStep (framePos : ℕ) : Bool := framePos % g.dilation == 0

/-- Where a committed pass writes a row. -/
def commitBase (r : Row α) : ℕ :=
  if g.writeStep r.framePos then g.ringBase tokens r else g.currentBase tokens r

end Geometry

/-- The frame's worth of tokens from a first one on. -/
def inFrame (tokens base i : ℕ) : Bool := decide (base ≤ i ∧ i < base + tokens)

/-- `ring_scatter` of one row. -/
def scatterRow (tokens base : ℕ) (frame : ℕ → α) (mark : Bool) (ring : LayerRing α) :
    LayerRing α where
  kv := fun i => if inFrame tokens base i then frame (i - base) else ring.kv i
  written := fun i => (mark && inFrame tokens base i) || ring.written i

/-- `ring_scatter`, row after row. -/
def ringScatter (tokens : ℕ) (base : Row α → ℕ) (mark : Bool) :
    List (Row α) → LayerRing α → LayerRing α
  | [], ring => ring
  | r :: rows, ring =>
    ringScatter tokens base mark rows (scatterRow tokens (base r) r.frame mark ring)

namespace LayerRing

/-- The ring as it is allocated: nothing is written but the scratch frames. -/
def build [Zero α] (g : Geometry) (tokens : ℕ) : LayerRing α where
  kv := fun _ => 0
  written := fun i => decide (g.ringLen tokens ≤ i % g.capacity tokens)

/-- `reset`. -/
def reset [Zero α] (g : Geometry) (tokens sessionIdx : ℕ) (ring : LayerRing α) : LayerRing α :=
  let lo := sessionIdx * g.capacity tokens
  let hi := lo + g.capacity tokens
  { kv := fun i => if lo ≤ i ∧ i < hi then 0 else ring.kv i
    written := fun i =>
      if lo ≤ i ∧ i < hi then decide (lo + g.ringLen tokens ≤ i) else ring.written i }

/-- `upsert`: each row's frame goes to its scratch, and, once committed, to the place
where the layer keeps it. -/
def upsert (g : Geometry) (tokens : ℕ) (rows : List (Row α)) (commit : Bool)
    (ring : LayerRing α) : LayerRing α :=
  let ring := ringScatter tokens (g.currentBase tokens) false rows ring
  if commit then ringScatter tokens (g.commitBase tokens) true rows ring else ring

/-- The visibility row that `upsert` falls back on, for one row: what its session has
written, without the slot that its frame will take. -/
def visibility (g : Geometry) (tokens sessionIdx framePos : ℕ) (ring : LayerRing α) :
    ℕ → Bool := fun i =>
  let row : Row Unit := ⟨sessionIdx, framePos, fun _ => ()⟩
  let own := ring.written i && i / g.capacity tokens == sessionIdx
  if inFrame tokens (g.ringBase tokens row) i then own && !g.writeStep framePos else own

end LayerRing

/-!
## Kept frames and their places

A layer keeps each `dilation`-th frame, and a ring of `ring_buckets` slots holds the
most recent ones. A token of a buffer is a session, a frame slot of it and an
offset, in exactly one way.
-/

namespace Geometry

variable (g : Geometry)

/-- The number of frames before a frame that the layer keeps. -/
def kept (f : ℕ) : ℕ := (f + (g.dilation - 1)) / g.dilation

/-- A kept frame is one before it. -/
theorem lt_kept_iff {k f : ℕ} : k < g.kept f ↔ k * g.dilation < f := by
  have hpos := g.dilation_pos
  unfold kept
  rw [← Nat.succ_le_iff, Nat.le_div_iff_mul_le hpos, Nat.succ_mul]
  omega

/-- A kept frame's number is its place among the kept ones. -/
theorem kept_mul (n : ℕ) : g.kept (n * g.dilation) = n := by
  have hpos := g.dilation_pos
  unfold kept
  rw [Nat.add_comm, Nat.add_mul_div_right _ _ hpos, Nat.div_eq_of_lt (by omega), Nat.zero_add]

/-- A frame is written when the dilation divides it. -/
theorem writeStep_iff {f : ℕ} : g.writeStep f = true ↔ ∃ n, f = n * g.dilation := by
  unfold writeStep
  rw [beq_iff_eq]
  constructor
  · intro h
    exact ⟨f / g.dilation, (Nat.div_mul_cancel (Nat.dvd_of_mod_eq_zero h)).symm⟩
  · rintro ⟨n, rfl⟩
    exact Nat.mul_mod_left n g.dilation

/-- The slot of a frame is that of the kept frames before it. -/
theorem slot_eq (f : ℕ) : g.slot f = g.kept f % g.ringBuckets := rfl

/-- The most recent kept frames before a frame: as many as there are slots, one
fewer where the frame itself takes one, and all while there are fewer. -/
def recent (f : ℕ) : List ℕ :=
  (List.range (g.kept f)).drop
    (g.kept f - if g.writeStep f then g.ringBuckets - 1 else g.ringBuckets)

/-- The kept frames that are recent. -/
theorem mem_recent_kept {k f : ℕ} : k ∈ g.recent f ↔
    (g.kept f - if g.writeStep f then g.ringBuckets - 1 else g.ringBuckets) ≤ k ∧
      k < g.kept f := by
  unfold recent
  rw [List.range_eq_range', List.drop_range', List.mem_range'_1]
  omega

/-- They are those whose slot no later frame has taken, the frame itself included. -/
theorem mem_recent {k f : ℕ} :
    k ∈ g.recent f ↔ k * g.dilation < f ∧ f < (k + g.ringBuckets) * g.dilation := by
  have hbuckets := g.buckets_pos
  have hpast : (k + g.ringBuckets) * g.dilation < f ↔ k + g.ringBuckets < g.kept f :=
    g.lt_kept_iff.symm
  rw [g.mem_recent_kept, ← g.lt_kept_iff]
  cases hstep : g.writeStep f with
  | true =>
    obtain ⟨n, rfl⟩ := g.writeStep_iff.1 hstep
    rw [g.kept_mul] at hpast ⊢
    have hlt : n * g.dilation < (k + g.ringBuckets) * g.dilation ↔ n < k + g.ringBuckets :=
      Nat.mul_lt_mul_right g.dilation_pos
    rw [hlt, if_pos rfl]
    omega
  | false =>
    have hne : f ≠ (k + g.ringBuckets) * g.dilation := by
      intro hf
      rw [g.writeStep_iff.2 ⟨_, hf⟩] at hstep
      cases hstep
    rw [if_neg (by simp)]
    omega

/-- No two of them share a slot. -/
theorem nodup_recent (f : ℕ) : ((g.recent f).map fun k => k % g.ringBuckets).Nodup := by
  have hbuckets := g.buckets_pos
  refine List.Nodup.map_on ?_ (List.nodup_range.sublist (List.drop_sublist _ _))
  -- Two kept frames of one slot are a whole ring apart.
  have hwlog (j k : ℕ) (hj : j ∈ g.recent f) (hk : k ∈ g.recent f)
      (hmod : j % g.ringBuckets = k % g.ringBuckets) : ¬j < k := by
    intro hlt
    have hnear : k * g.dilation < (j + g.ringBuckets) * g.dilation :=
      lt_trans (g.mem_recent.1 hk).1 (g.mem_recent.1 hj).2
    have hless : k < j + g.ringBuckets := Nat.lt_of_mul_lt_mul_right hnear
    have hdvd : g.ringBuckets ∣ k - j := (Nat.modEq_iff_dvd' (le_of_lt hlt)).1 hmod
    have hle := Nat.le_of_dvd (by omega) hdvd
    omega
  intro j hj k hk hmod
  have hjk := hwlog j k hj hk hmod
  have hkj := hwlog k j hk hj hmod.symm
  omega

/-- How many there are. -/
theorem length_recent (f : ℕ) : (g.recent f).length =
    min (g.kept f) (if g.writeStep f then g.ringBuckets - 1 else g.ringBuckets) := by
  unfold recent
  rw [List.length_drop, List.length_range]
  omega

section Places

variable (tokens : ℕ)

/-- The first token of a frame slot of a session; the last slot is the scratch. -/
def base (s j : ℕ) : ℕ := j * tokens + s * g.capacity tokens

/-- A row's place in the ring. -/
theorem ringBase_eq {α : Type*} (r : Row α) :
    g.ringBase tokens r = g.base tokens r.sessionIdx (g.slot r.framePos) := rfl

/-- And that of its current frame, behind the ring. -/
theorem currentBase_eq {α : Type*} (r : Row α) :
    g.currentBase tokens r = g.base tokens r.sessionIdx g.ringFrames := rfl

/-- Frame slots lie one after the other. -/
theorem base_eq (s j : ℕ) : g.base tokens s j = (s * (g.ringFrames + 1) + j) * tokens := by
  unfold base capacity ringLen
  ring

/-- A frame slot's number in the buffer tells the session and the slot. -/
theorem place_unique {s s' j j' : ℕ} (hj : j ≤ g.ringFrames) (hj' : j' ≤ g.ringFrames)
    (h : s * (g.ringFrames + 1) + j = s' * (g.ringFrames + 1) + j') : s = s' ∧ j = j' := by
  have hdiv (a b : ℕ) (hb : b ≤ g.ringFrames) :
      (a * (g.ringFrames + 1) + b) / (g.ringFrames + 1) = a := by
    rw [Nat.add_comm, Nat.add_mul_div_right _ _ (Nat.succ_pos _),
      Nat.div_eq_of_lt (by omega), Nat.zero_add]
  have hs : s = s' := by
    have heq := hdiv s j hj
    rw [h, hdiv s' j' hj'] at heq
    exact heq.symm
  subst hs
  exact ⟨rfl, by omega⟩

/-- A token is in one frame slot only. -/
theorem inFrame_base {s s' j j' t : ℕ} (hj : j ≤ g.ringFrames) (hj' : j' ≤ g.ringFrames)
    (ht : t < tokens) :
    inFrame tokens (g.base tokens s' j') (g.base tokens s j + t) =
      decide (s = s' ∧ j = j') := by
  unfold inFrame
  rw [g.base_eq, g.base_eq]
  congr 1
  rw [eq_iff_iff]
  constructor
  · rintro ⟨hlo, hhi⟩
    refine g.place_unique hj hj' ?_
    have hup : (s * (g.ringFrames + 1) + j) * tokens <
        (s' * (g.ringFrames + 1) + j' + 1) * tokens := by
      rw [Nat.succ_mul]
      omega
    have hdown : (s' * (g.ringFrames + 1) + j') * tokens <
        (s * (g.ringFrames + 1) + j + 1) * tokens := by
      rw [Nat.succ_mul]
      omega
    have h1 := Nat.lt_of_mul_lt_mul_right hup
    have h2 := Nat.lt_of_mul_lt_mul_right hdown
    omega
  · rintro ⟨rfl, rfl⟩
    omega

/-- A session's capacity is its ring and one frame. -/
theorem capacity_eq : g.capacity tokens = (g.ringFrames + 1) * tokens := by
  unfold capacity ringLen
  ring

/-- A token's session. -/
theorem session_base {s j t : ℕ} (hj : j ≤ g.ringFrames) (ht : t < tokens) :
    (g.base tokens s j + t) / g.capacity tokens = s := by
  have hroom : j * tokens + t < g.capacity tokens := by
    have hle : j * tokens ≤ g.ringFrames * tokens := Nat.mul_le_mul_right tokens hj
    unfold capacity ringLen
    omega
  unfold base
  rw [Nat.add_right_comm, Nat.add_mul_div_right _ _ (by omega), Nat.div_eq_of_lt hroom,
    Nat.zero_add]

/-- Every token of the buffer has a place. -/
theorem exists_place {sessions i : ℕ} (hi : i < sessions * g.capacity tokens) :
    ∃ s j t, s < sessions ∧ j ≤ g.ringFrames ∧ t < tokens ∧ i = g.base tokens s j + t := by
  have hcap := g.capacity_eq tokens
  have htokens : 0 < tokens := by
    rcases Nat.eq_zero_or_pos tokens with rfl | hpos
    · rw [hcap, Nat.mul_zero, Nat.mul_zero] at hi
      omega
    · exact hpos
  have hpos : 0 < g.capacity tokens := by
    rw [hcap]
    exact Nat.mul_pos (Nat.succ_pos _) htokens
  refine ⟨i / g.capacity tokens, i % g.capacity tokens / tokens,
    i % g.capacity tokens % tokens, (Nat.div_lt_iff_lt_mul hpos).2 hi, ?_,
    Nat.mod_lt _ htokens, ?_⟩
  · have hless := Nat.mod_lt i hpos
    rw [hcap] at hless ⊢
    have := (Nat.div_lt_iff_lt_mul htokens).2 hless
    omega
  · unfold base
    have houter := Nat.div_add_mod i (g.capacity tokens)
    have hinner := Nat.div_add_mod (i % g.capacity tokens) tokens
    rw [Nat.mul_comm] at houter hinner
    omega

end Places

end Geometry

end Mstar.RingKV
