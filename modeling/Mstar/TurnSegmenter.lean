import Mathlib.Order.Lattice
import Mathlib.Order.Defs.LinearOrder
import Mathlib.Data.List.Basic

/-!
# Server turn detection

A 16 kHz stream is cut into turns from a speech probability for each frame. A
turn starts on a frame at or above the threshold, with some audio from before
it, and ends after a window of silence, where an end-of-turn model says so, at
the cap of its length, or at the client's own commit.
-/

namespace Mstar.Turns

/-- Samples a second. -/
def SAMPLE_RATE : ℕ := 16000

/-- Samples for each decision. -/
def FRAME : ℕ := 512

/-- Milliseconds from the start of the stream. -/
def samplesToMs (n : ℕ) : ℕ := n * 1000 / SAMPLE_RATE

/-- The frames that hold the last 8 s of a turn, and the padding as one piece. -/
def recentPieces : ℕ := 8 * SAMPLE_RATE / FRAME + 1

/-- What the segmenter was made with. -/
structure Settings (P : Type*) where
  threshold : P
  /-- Below it a frame starts the silence. -/
  neg : P
  prefixCap : ℕ
  silenceCap : ℕ
  /-- The pause after which the end-of-turn model is asked, and the probability
  that ends the turn. -/
  semantic : Option (ℕ × P)
  maxTurn : ℕ

/-- The two models, with whatever they remember. -/
structure Models (α P E σ : Type*) where
  vad : σ → List α → P × σ
  vadReset : σ → σ
  endOfTurn : σ → List α → Except E P × σ

/-- What to do with the stream, in stream order. -/
inductive Op (α E : Type*)
  | speechStarted (ms : ℕ)
  | audio (samples : List α)
  | speechStopped (ms : ℕ)
  | commit
  | endOfTurnFailed (exc : E)

/-- The segmenter. -/
structure TurnSegmenter (α P E σ : Type*) where
  models : Models α P E σ
  memory : σ
  settings : Settings P
  /-- `_eot` is set. -/
  asks : Bool
  recent : List (List α)
  /-- The partial frame. -/
  rest : List α
  /-- The stream index of the partial frame. -/
  pos : ℕ
  /-- `_prefix`. -/
  padding : List α
  speaking : Bool
  /-- Trailing silent samples in the turn. -/
  silence : ℕ
  /-- Samples in the turn. -/
  turn : ℕ

namespace TurnSegmenter

variable {α P E σ : Type*} [LinearOrder P]

/-- A segmenter that has heard nothing. -/
def new (models : Models α P E σ) (memory : σ) (settings : Settings P) (pos : ℕ) :
    TurnSegmenter α P E σ where
  models := models
  memory := memory
  settings := settings
  asks := settings.semantic.isSome
  recent := []
  rest := []
  pos := pos
  padding := []
  speaking := false
  silence := 0
  turn := 0

/-- The last `n` samples. -/
def lastSamples (n : ℕ) (samples : List α) : List α := samples.drop (samples.length - n)

/-- `_open`: a turn starts at a stream index, with the padding, cut so that the
turn's first frame still fits the cap. -/
def openTurn (s : TurnSegmenter α P E σ) (start : ℕ) : TurnSegmenter α P E σ × List (Op α E) :=
  let keep := min s.padding.length (s.settings.maxTurn - FRAME)
  let kept := lastSamples keep s.padding
  ({ s with
      speaking := true
      turn := kept.length
      silence := 0
      padding := []
      recent := if s.asks then [kept] else s.recent },
    .speechStarted (samplesToMs (start - kept.length)) ::
      if kept = [] then [] else [.audio kept])

/-- `_stop`: the turn ends at a stream index. -/
def stopTurn (s : TurnSegmenter α P E σ) (stop : ℕ) : TurnSegmenter α P E σ × List (Op α E) :=
  ({ s with
      speaking := false
      silence := 0
      turn := 0
      recent := if s.asks then [] else s.recent },
    [.speechStopped (samplesToMs stop), .commit])

/-- The cap: the turn ends before the frame that would pass it, and in
mid-speech the next turn starts with that frame. -/
def capTurn (s : TurnSegmenter α P E σ) (start : ℕ) : TurnSegmenter α P E σ × List (Op α E) :=
  if s.speaking && decide (s.settings.maxTurn < s.turn + FRAME) then
    let midSpeech := decide (s.silence = 0)
    let stopped := s.stopTurn start
    if midSpeech then
      let opened := stopped.1.openTurn start
      (opened.1, stopped.2 ++ opened.2)
    else stopped
  else (s, [])

/-- Whether the end-of-turn model says the turn is over. One that raises is not
asked again. -/
def askEndOfTurn (s : TurnSegmenter α P E σ) (threshold : P) :
    TurnSegmenter α P E σ × List (Op α E) × Bool :=
  let asked := s.models.endOfTurn s.memory s.recent.flatten
  let s := { s with memory := asked.2 }
  match asked.1 with
  | .ok answer => (s, [], decide (threshold ≤ answer))
  | .error exc => ({ s with asks := false, recent := [] }, [.endOfTurnFailed exc], false)

/-- The silence after a frame with a probability. -/
def silenceAfter (s : TurnSegmenter α P E σ) (p : P) : ℕ :=
  if s.settings.threshold ≤ p then 0
  else if p < s.settings.neg ∨ s.silence ≠ 0 then s.silence + FRAME
  else s.silence

/-- The last pieces of the turn and one more. -/
def remember (recent : List (List α)) (frame : List α) : List (List α) :=
  let all := recent ++ [frame]
  all.drop (all.length - recentPieces)

/-- A frame of a turn: whether the turn is done after it. -/
def hearFrame (s : TurnSegmenter α P E σ) (frame : List α) (p : P) :
    TurnSegmenter α P E σ × List (Op α E) × Bool :=
  let paused := s.silence
  let s := { s with turn := s.turn + FRAME, silence := s.silenceAfter p }
  let done := decide (s.silence ≠ 0) && decide (s.settings.silenceCap ≤ s.silence)
  if s.asks then
    let s := { s with recent := remember s.recent frame }
    match s.settings.semantic with
    | some (pauseCap, threshold) =>
      if !done && decide (paused < pauseCap) && decide (pauseCap ≤ s.silence) then
        s.askEndOfTurn threshold
      else (s, [], done)
    | none => (s, [], done)
  else (s, [], done)

/-- `_frame`: one frame, scored, at a stream index. -/
def frame (s : TurnSegmenter α P E σ) (frame : List α) (start : ℕ) :
    TurnSegmenter α P E σ × List (Op α E) :=
  let scored := s.models.vad s.memory frame
  let p := scored.1
  let capped := { s with memory := scored.2 }.capTurn start
  let s := capped.1
  if !s.speaking && decide (p < s.settings.threshold) then
    let padding := if s.settings.prefixCap ≠ 0
      then lastSamples s.settings.prefixCap (s.padding ++ frame) else s.padding
    ({ s with padding := padding }, capped.2)
  else
    let opened := if s.speaking then (s, []) else s.openTurn start
    let heard := opened.1.hearFrame frame p
    let stopped := if heard.2.2 then heard.1.stopTurn (start + FRAME) else (heard.1, [])
    (stopped.1, capped.2 ++ opened.2 ++ .audio frame :: heard.2.1 ++ stopped.2)

/-- Whole frames from a stream index on. -/
def frames : ℕ → TurnSegmenter α P E σ → List α → ℕ → TurnSegmenter α P E σ × List (Op α E)
  | 0, s, _, _ => (s, [])
  | n + 1, s, buf, start =>
    let first := s.frame (buf.take FRAME) start
    let more := frames n first.1 (buf.drop FRAME) (start + FRAME)
    (more.1, first.2 ++ more.2)

/-- Audio of any length; a partial frame waits. -/
def feed (s : TurnSegmenter α P E σ) (audio : List α) : TurnSegmenter α P E σ × List (Op α E) :=
  let buf := s.rest ++ audio
  let n := buf.length / FRAME
  let heard := frames n s buf s.pos
  ({ heard.1 with rest := buf.drop (n * FRAME), pos := s.pos + n * FRAME }, heard.2)

/-- A client commit: an open turn takes the partial frame and stops there. The
client's commit is the commit. -/
def endTurn (s : TurnSegmenter α P E σ) : TurnSegmenter α P E σ × List (Op α E) :=
  let rest := s.rest
  let s := { s with rest := [] }
  if s.speaking then
    let split := if rest ≠ [] ∧ s.settings.maxTurn < s.turn + rest.length then
        let stopped := s.stopTurn s.pos
        let opened := stopped.1.openTurn s.pos
        (opened.1, stopped.2 ++ opened.2)
      else (s, [])
    let s := { split.1 with pos := split.1.pos + rest.length }
    let stopped := s.stopTurn s.pos
    (stopped.1, split.2 ++ (if rest = [] then [] else [.audio rest]) ++ stopped.2.dropLast)
  else ({ s with pos := s.pos + rest.length, padding := [] }, [])

/-- A clear: buffered audio is dropped and the timeline kept. -/
def reset (s : TurnSegmenter α P E σ) (skipped : ℕ) : TurnSegmenter α P E σ :=
  { s with
    pos := s.pos + s.rest.length + skipped
    rest := []
    padding := []
    speaking := false
    silence := 0
    turn := 0
    recent := if s.asks then [] else s.recent
    memory := s.models.vadReset s.memory }

/-- A settings change between turns: this segmenter goes on from another. -/
def takeOver (s old : TurnSegmenter α P E σ) : TurnSegmenter α P E σ :=
  { s with
    pos := old.pos
    rest := old.rest
    padding := lastSamples (min old.padding.length s.settings.prefixCap) old.padding }

end TurnSegmenter

end Mstar.Turns
