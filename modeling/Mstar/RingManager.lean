import Mstar.RingSessions
import Mathlib.Data.List.Nodup

/-!
# The ring manager

Each request holds one session of every layer's ring, from its admission until it is
released. The manager checks the clocks that steps declare, stages the sessions of a
step's rows, and records the frames that were committed. Rows that pad a step's batch
go to a session of their own.
-/

namespace Mstar.RingKV

/-- `RingKVConfig`: frames are whole numbers of blocks. -/
structure RingKVConfig (ι : Type*) where
  layers : ι → Geometry
  tokensPerFrame : ℕ
  blockSize : ℕ
  block_pos : 0 < blockSize
  aligned : blockSize ∣ tokensPerFrame
  numSessions : ℕ
  sessions_pos : 1 ≤ numSessions

namespace RingKVConfig

variable {ι : Type*} (c : RingKVConfig ι)

/-- The resident sessions, and one for rows that pad a batch. -/
def totalSessions : ℕ := c.numSessions + 1

/-- The tokens of a layer's buffer. -/
def totalSlots (l : ι) : ℕ := c.totalSessions * (c.layers l).capacity c.tokensPerFrame

def blocksPerFrame : ℕ := c.tokensPerFrame / c.blockSize

/-- The attention manager's table for a layer. -/
def table (l : ι) : VisibilityTable :=
  (c.layers l).visibilityTableFor c.blocksPerFrame c.totalSessions

end RingKVConfig

/-- What an admission comes to. -/
inductive Admitted
  | ok
  /-- The batch names a request twice. -/
  | repeated
  /-- A request was never ingested. -/
  | unknown
  /-- No session is free. -/
  | full
  /-- A request has no clock, or not the next one. -/
  | clock
  deriving DecidableEq

/-- `RingKVManager`. -/
structure RingKVManager (ι ρ α : Type*) where
  layers : ι → LayerRing α
  /-- `_sessions`. -/
  sessions : ρ → Option ℕ
  /-- `_free_sessions`. -/
  free : List ℕ
  /-- `_known_rids`. -/
  known : ρ → Bool
  /-- `_last_frames`. -/
  lastFrames : ρ → Option ℕ

namespace RingKVManager

variable {ι ρ α : Type*} [DecidableEq ρ] (c : RingKVConfig ι) (m : RingKVManager ι ρ α)

/-- The manager as it is built. -/
def build [Zero α] : RingKVManager ι ρ α where
  layers := fun l => LayerRing.build (c.layers l) c.tokensPerFrame
  sessions := fun _ => none
  free := List.range c.numSessions
  known := fun _ => false
  lastFrames := fun _ => none

/-- `ingest_request`. -/
def ingest (rid : ρ) : RingKVManager ι ρ α :=
  { m with known := Function.update m.known rid true }

/-- A request without a session claims the first free one. -/
def claim (rid : ρ) : RingKVManager ι ρ α :=
  match m.sessions rid with
  | some _ => m
  | none =>
    match m.free.min? with
    | none => m
    | some s =>
      { m with
        sessions := Function.update m.sessions rid (some s)
        free := m.free.erase s }

/-- Whether a step declares the next clock of a request. -/
def clockOk (frames : ρ → Option ℕ) (rid : ρ) : Bool :=
  match frames rid with
  | none => false
  | some frame =>
    match m.lastFrames rid with
    | none => true
    | some last => frame == last + 1

/-- `admit`. -/
def admits (rids : List ρ) (frames : ρ → Option ℕ) : RingKVManager ι ρ α × Admitted :=
  let wanted := rids.filter fun rid => (m.sessions rid).isNone
  if ¬rids.Nodup then (m, .repeated)
  else if wanted.any fun rid => !m.known rid then (m, .unknown)
  else if m.free.length < wanted.length then (m, .full)
  else if rids.any fun rid => !m.clockOk frames rid then (m, .clock)
  else (rids.foldl (fun m rid => m.claim rid) m, .ok)

/-- `plan`: the session and clock of each row, those that pad the batch last; `none`
where a request holds no session, or the batch is past the staged indices. -/
def plan (rids : List ρ) (padding : ℕ) (frames : ρ → Option ℕ) : Option (List (ℕ × ℕ)) :=
  if c.numSessions < rids.length + padding then none
  else
    match rids.mapM (m := Option) fun rid =>
      match m.sessions rid, frames rid with
      | some s, some frame => some (s, frame)
      | _, _ => none with
    | none => none
    | some real => some (real ++ List.replicate padding (c.numSessions, 0))

/-- The rows of a pass over a layer: each request's frame at its session and clock, and
the rows that pad the batch. -/
def rowsOf (rids : List ρ) (frames : ρ → Option ℕ) (data : ρ → ℕ → α)
    (padding : List (ℕ × (ℕ → α))) : Option (List (Row α)) :=
  match rids.mapM (m := Option) fun rid =>
    match m.sessions rid, frames rid with
    | some s, some frame => some (⟨s, frame, data rid⟩ : Row α)
    | _, _ => none with
  | none => none
  | some real => some (real ++ padding.map fun p => ⟨c.numSessions, p.1, p.2⟩)

/-- A pass of a layer: `upsert` of the staged rows. -/
def upsert [DecidableEq ι] (l : ι) (rows : List (Row α)) : RingKVManager ι ρ α :=
  { m with
    layers := Function.update m.layers l
      ((m.layers l).upsert (c.layers l) c.tokensPerFrame rows false) }

/-- `commit`: the frames that the requests just committed. -/
def commitFrames (rids : List ρ) (frames : ρ → Option ℕ) : RingKVManager ι ρ α :=
  { m with
    lastFrames := fun rid =>
      if rid ∈ rids then
        match frames rid with
        | some frame => some frame
        | none => m.lastFrames rid
      else m.lastFrames rid }

/-- The committed pass of a step over every layer, and its record. -/
def commitStep (rows : ι → List (Row α)) (rids : List ρ) (frames : ρ → Option ℕ) :
    RingKVManager ι ρ α :=
  { m with
    layers := fun l =>
      (m.layers l).upsert (c.layers l) c.tokensPerFrame (rows l) true }.commitFrames rids frames

/-- `_release_session`. -/
def releaseSession [Zero α] (rid : ρ) : RingKVManager ι ρ α :=
  match m.sessions rid with
  | none => m
  | some s =>
    { m with
      layers := fun l => (m.layers l).reset (c.layers l) c.tokensPerFrame s
      sessions := Function.update m.sessions rid none
      free := if s ∈ m.free then m.free else s :: m.free
      lastFrames := Function.update m.lastFrames rid none }

/-- `remove_request`. -/
def removeRequest [Zero α] (rid : ρ) : RingKVManager ι ρ α :=
  { m.releaseSession c rid with
    known := Function.update (m.releaseSession c rid).known rid false }

/-- The clock that a request's next committed frame has. -/
def nextFrame (rid : ρ) : ℕ :=
  match m.lastFrames rid with
  | none => 0
  | some last => last + 1

end RingKVManager

end Mstar.RingKV
