import Mstar.TurnPhases

/-!
# Cutting the stream

Over every run of appends, commits, clears and settings changes the turns are
stretches of the stream in order, none of them longer than the cap, and every
frame at or above the threshold is in one. How the audio was cut into appends
does not matter.
-/

namespace Mstar.Turns

variable {α P E σ : Type*}

/-- What the session does with its segmenter. -/
inductive Call (α P E σ : Type*)
  /-- An append of the stream's next samples. -/
  | feed (samples : ℕ)
  | endTurn
  | reset (skipped : ℕ)
  /-- A segmenter made with other models and settings goes on. -/
  | takeOver (models : Models α P E σ) (memory : σ) (settings : Settings P)

/-- One call: the settings it was made under, the operations it returned, and
what the speech model said of each frame it heard. -/
structure Entry (α P E σ : Type*) where
  settings : Settings P
  call : Call α P E σ
  ops : List (Op α E)
  scores : List P

/-- Frames in turn, each with its probability and its operations. -/
inductive ReadsFrames [LE P] (settings : Settings P) (f : ℕ → α) :
    ℕ → Phase → List (P × List (Op α E)) → Phase → List (ℕ × ℕ) → Prop
  | nil (x : ℕ) (p : Phase) : ReadsFrames settings f x p [] p []
  /-- A frame at or above the threshold is in a turn. -/
  | cons {x p score ops q turns heard r turns'} (h : Reads settings f x p ops q turns)
      (hcovers : settings.threshold ≤ score → q.Covers turns x (x + FRAME))
      (h' : ReadsFrames settings f (x + FRAME) q heard r turns') :
      ReadsFrames settings f x p ((score, ops) :: heard) r (turns ++ turns')

/-- The calls of a run read against the stream: the index of the next frame, the
samples of it that have come, where the reading stands, and the turns that are
over. -/
inductive Cuts [LE P] (f : ℕ → α) :
    List (Entry α P E σ) → ℕ → ℕ → Phase → List (ℕ × ℕ) → Prop
  | start (pos : ℕ) : Cuts f [] pos 0 (.idle pos) []
  | feed {log pos rest p turns settings n heard q more rest'} (h : Cuts f log pos rest p turns)
      (hheard : ReadsFrames settings f pos p heard q more)
      (hrest : rest + n = FRAME * heard.length + rest') (hframe : rest' < FRAME) :
      Cuts f (log ++ [⟨settings, .feed n, heard.flatMap Prod.snd, heard.map Prod.fst⟩])
        (pos + FRAME * heard.length) rest' q (turns ++ more)
  /-- The client's commit is the commit of the turn it ends, partial frame and
  all. -/
  | endTurn {log pos rest p turns settings ops first more} (h : Cuts f log pos rest p turns)
      (hops : Reads settings f pos p ops (.stopped first (pos + rest)) more) :
      Cuts f (log ++ [⟨settings, .endTurn, ops, []⟩]) (pos + rest) 0 (.idle (pos + rest))
        (turns ++ more ++ [(first, pos + rest)])
  /-- Between turns everything before the client's commit is behind. -/
  | endIdle {log pos rest low turns settings} (h : Cuts f log pos rest (.idle low) turns) :
      Cuts f (log ++ [⟨settings, .endTurn, [], []⟩]) (pos + rest) 0 (.idle (pos + rest)) turns
  /-- A clear drops the open turn: it is over without being stopped. -/
  | resetTurn {log pos rest first turns settings skipped}
      (h : Cuts f log pos rest (.turn first pos) turns) :
      Cuts f (log ++ [⟨settings, .reset skipped, [], []⟩]) (pos + rest + skipped) 0
        (.idle (pos + rest + skipped)) (turns ++ [(first, pos)])
  | resetIdle {log pos rest low turns settings skipped}
      (h : Cuts f log pos rest (.idle low) turns) :
      Cuts f (log ++ [⟨settings, .reset skipped, [], []⟩]) (pos + rest + skipped) 0
        (.idle (pos + rest + skipped)) turns
  /-- So does a settings change in mid-turn. -/
  | takeOverTurn {log pos rest first turns settings models memory settings'}
      (h : Cuts f log pos rest (.turn first pos) turns) :
      Cuts f (log ++ [⟨settings, .takeOver models memory settings', [], []⟩]) pos rest (.idle pos)
        (turns ++ [(first, pos)])
  | takeOver {log pos rest low turns settings models memory settings'}
      (h : Cuts f log pos rest (.idle low) turns) :
      Cuts f (log ++ [⟨settings, .takeOver models memory settings', [], []⟩]) pos rest (.idle low)
        turns

namespace TurnSegmenter

variable [LinearOrder P] {s : TurnSegmenter α P E σ} {f : ℕ → α}

/-- One call. -/
def call (s : TurnSegmenter α P E σ) (f : ℕ → α) :
    Call α P E σ → TurnSegmenter α P E σ × List (Op α E)
  | .feed n => s.feed (stretch f (s.pos + s.rest.length) n)
  | .endTurn => s.endTurn
  | .reset skipped => (s.reset skipped, [])
  | .takeOver models memory settings => ((new models memory settings s.pos).takeOver s, [])

/-- The frames of some audio, each with its probability and its operations. -/
def scored : ℕ → TurnSegmenter α P E σ → List α → ℕ → List (P × List (Op α E))
  | 0, _, _, _ => []
  | n + 1, s, buf, start =>
    let first := s.frame (buf.take FRAME) start
    ((s.models.vad s.memory (buf.take FRAME)).1, first.2) ::
      scored n first.1 (buf.drop FRAME) (start + FRAME)

/-- A turn's cap holds a frame. -/
def Allowed : Call α P E σ → Prop
  | .takeOver _ _ settings => FRAME ≤ settings.maxTurn
  | _ => True

/-- What the speech model says of the frames of a call. -/
def scores (s : TurnSegmenter α P E σ) (f : ℕ → α) : Call α P E σ → List P
  | .feed n =>
    let buf := s.rest ++ stretch f (s.pos + s.rest.length) n
    (scored (buf.length / FRAME) s buf s.pos).map Prod.fst
  | _ => []

/-- A run of calls from a new segmenter on. -/
inductive Runs (f : ℕ → α) : List (Entry α P E σ) → TurnSegmenter α P E σ → Prop
  | start (models : Models α P E σ) (memory : σ) (settings : Settings P) (pos : ℕ)
      (hmax : FRAME ≤ settings.maxTurn) : Runs f [] (new models memory settings pos)
  | step {log s} (h : Runs f log s) (call : Call α P E σ) (hallowed : Allowed call) :
      Runs f (log ++ [⟨s.settings, call, (s.call f call).2, s.scores f call⟩]) (s.call f call).1

/-- A frame for each count, and what each does. -/
theorem frames_ops (n : ℕ) (s : TurnSegmenter α P E σ) (buf : List α) (start : ℕ) :
    (frames n s buf start).2 = (scored n s buf start).flatMap Prod.snd ∧
      (scored n s buf start).length = n := by
  induction n generalizing s buf start with
  | zero => exact ⟨rfl, rfl⟩
  | succ n ih =>
    obtain ⟨hops, hlen⟩ := ih (s.frame (buf.take FRAME) start).1 (buf.drop FRAME) (start + FRAME)
    unfold frames scored
    dsimp only
    rw [hops, List.flatMap_cons, List.length_cons, hlen]
    exact ⟨rfl, rfl⟩

/-- Whole frames in turn. -/
theorem reads_frames {p : Phase} (n len x : ℕ) (hlen : n * FRAME ≤ len)
    (hmax : FRAME ≤ s.settings.maxTurn) (h : Agrees f s x p) :
    ∃ q turns, ReadsFrames s.settings f x p (scored n s (stretch f x len) x) q turns ∧
      Agrees f (frames n s (stretch f x len) x).1 (x + n * FRAME) q ∧
      (frames n s (stretch f x len) x).1.settings = s.settings := by
  induction n generalizing s p len x with
  | zero =>
    rw [Nat.zero_mul, Nat.add_zero]
    exact ⟨p, [], ReadsFrames.nil x p, h, rfl⟩
  | succ n ih =>
    have hone : FRAME ≤ len := by
      rw [Nat.succ_mul] at hlen
      omega
    have hrest : n * FRAME ≤ len - FRAME := by
      rw [Nat.succ_mul] at hlen
      omega
    obtain ⟨q, turns, hreads, hagrees, hsettings, hcovers⟩ := reads_frame hmax h
    rw [← take_stretch f hone] at hreads hagrees hsettings hcovers
    rw [← hsettings] at hmax
    obtain ⟨r, turns', hmore, hagrees', hsettings'⟩ := ih (len - FRAME) (x + FRAME) hrest hmax
      hagrees
    rw [← drop_stretch f x len FRAME] at hmore hagrees' hsettings'
    rw [hsettings] at hmore
    refine ⟨r, turns ++ turns', ReadsFrames.cons hreads hcovers hmore, ?_, ?_⟩
    · rw [Nat.succ_mul, Nat.add_comm (n * FRAME), ← Nat.add_assoc]
      exact hagrees'
    · exact hsettings'.trans hsettings

/-- How audio is cut into frames does not depend on where it starts. -/
theorem frames_add (m n : ℕ) (s : TurnSegmenter α P E σ) (buf : List α) (x : ℕ) :
    frames (m + n) s buf x =
      ((frames n (frames m s buf x).1 (buf.drop (m * FRAME)) (x + m * FRAME)).1,
        (frames m s buf x).2 ++
          (frames n (frames m s buf x).1 (buf.drop (m * FRAME)) (x + m * FRAME)).2) := by
  induction m generalizing s buf x with
  | zero => simp [frames]
  | succ m ih =>
    have hsucc : m + 1 + n = m + n + 1 := by omega
    have hone : ∀ k, frames (k + 1) s buf x =
        ((frames k (s.frame (buf.take FRAME) x).1 (buf.drop FRAME) (x + FRAME)).1,
          (s.frame (buf.take FRAME) x).2 ++
            (frames k (s.frame (buf.take FRAME) x).1 (buf.drop FRAME) (x + FRAME)).2) :=
      fun _ => rfl
    rw [hsucc, hone, hone, ih, List.drop_drop, Nat.succ_mul, Nat.add_comm (m * FRAME) FRAME,
      ← Nat.add_assoc, List.append_assoc]

/-- Frames of some audio that goes on. -/
theorem frames_append (n : ℕ) (s : TurnSegmenter α P E σ) (buf more : List α) (x : ℕ)
    (h : n * FRAME ≤ buf.length) : frames n s (buf ++ more) x = frames n s buf x := by
  induction n generalizing s buf x with
  | zero => rfl
  | succ n ih =>
    rw [Nat.succ_mul] at h
    have hone : FRAME ≤ buf.length := by omega
    have hrest : n * FRAME ≤ (buf.drop FRAME).length := by
      rw [List.length_drop]
      omega
    unfold frames
    dsimp only
    rw [List.take_append_of_le_length hone, List.drop_append_of_le_length hone, ih _ _ _ hrest]

/-- The partial frame and the position, changed. -/
def held (s : TurnSegmenter α P E σ) (rest : List α) (pos : ℕ) : TurnSegmenter α P E σ :=
  { s with rest := rest, pos := pos }

omit [LinearOrder P] in
/-- Audio held back changes no cap. -/
theorem capTurn_held (s : TurnSegmenter α P E σ) (rest : List α) (pos x : ℕ) :
    (s.held rest pos).capTurn x = ((s.capTurn x).1.held rest pos, (s.capTurn x).2) := by
  have hsame : ((s.held rest pos).speaking &&
      decide ((s.held rest pos).settings.maxTurn < (s.held rest pos).turn + FRAME)) =
        (s.speaking && decide (s.settings.maxTurn < s.turn + FRAME)) := rfl
  unfold capTurn
  rw [hsame]
  by_cases hover : (s.speaking && decide (s.settings.maxTurn < s.turn + FRAME)) = true
  · rw [if_pos hover, if_pos hover]
    have hmid : decide ((s.held rest pos).silence = 0) = decide (s.silence = 0) := rfl
    dsimp only
    rw [hmid]
    cases decide (s.silence = 0) <;> rfl
  · rw [if_neg hover, if_neg hover]

/-- Nor whether the turn ends. -/
theorem askEndOfTurn_held (s : TurnSegmenter α P E σ) (rest : List α) (pos : ℕ)
    (threshold : P) :
    (s.held rest pos).askEndOfTurn threshold =
      ((s.askEndOfTurn threshold).1.held rest pos, (s.askEndOfTurn threshold).2) := by
  have hsame : (s.held rest pos).models.endOfTurn (s.held rest pos).memory
      (s.held rest pos).recent.flatten = s.models.endOfTurn s.memory s.recent.flatten := rfl
  unfold askEndOfTurn
  rw [hsame]
  dsimp only
  cases (s.models.endOfTurn s.memory s.recent.flatten).1 <;> rfl

/-- Nor what a frame does. -/
theorem hearFrame_held (s : TurnSegmenter α P E σ) (rest : List α) (pos : ℕ)
    (frame : List α) (p : P) :
    (s.held rest pos).hearFrame frame p =
      ((s.hearFrame frame p).1.held rest pos, (s.hearFrame frame p).2) := by
  have hasks : (s.held rest pos).asks = s.asks := rfl
  have hsilence : (s.held rest pos).silenceAfter p = s.silenceAfter p := rfl
  have hpaused : (s.held rest pos).silence = s.silence := rfl
  have hsettings : (s.held rest pos).settings = s.settings := rfl
  have hturn : (s.held rest pos).turn = s.turn := rfl
  have hrecent : (s.held rest pos).recent = s.recent := rfl
  unfold hearFrame
  dsimp only
  rw [hasks, hsilence, hpaused, hsettings, hturn, hrecent]
  generalize remember s.recent frame = recent
  generalize s.turn + FRAME = turn
  generalize s.silenceAfter p = silence
  by_cases h : s.asks = true
  · rw [if_pos h, if_pos h]
    cases s.settings.semantic with
    | none => rfl
    | some ask =>
      dsimp only
      by_cases hask : (!(decide (silence ≠ 0) && decide (s.settings.silenceCap ≤ silence)) &&
          decide (s.silence < ask.1) && decide (ask.1 ≤ silence)) = true
      · rw [if_pos hask, if_pos hask]
        exact askEndOfTurn_held { s with recent := recent, silence := silence, turn := turn }
          rest pos ask.2
      · rw [if_neg hask, if_neg hask]
        rfl
  · rw [if_neg h, if_neg h]
    rfl

/-- A frame reads neither the partial frame nor the position, and leaves them. -/
theorem frame_held (s : TurnSegmenter α P E σ) (rest : List α) (pos : ℕ) (frame : List α)
    (x : ℕ) :
    (s.held rest pos).frame frame x =
      ((s.frame frame x).1.held rest pos, (s.frame frame x).2) := by
  unfold TurnSegmenter.frame
  have hscored : (s.held rest pos).models.vad (s.held rest pos).memory frame =
      s.models.vad s.memory frame := rfl
  dsimp only
  rw [hscored]
  generalize s.models.vad s.memory frame = scored
  have hcap := capTurn_held { s with memory := scored.2 } rest pos x
  have hmemory : ({ s.held rest pos with memory := scored.2 } : TurnSegmenter α P E σ) =
      ({ s with memory := scored.2 } : TurnSegmenter α P E σ).held rest pos := rfl
  rw [hmemory, hcap]
  generalize ({ s with memory := scored.2 } : TurnSegmenter α P E σ).capTurn x = capped
  obtain ⟨t, ops⟩ := capped
  dsimp only
  have hspeaking : (t.held rest pos).speaking = t.speaking := rfl
  have hsettings : (t.held rest pos).settings = t.settings := rfl
  rw [hspeaking, hsettings]
  cases t.speaking with
  | true =>
    simp only [Bool.not_true, Bool.false_and, Bool.false_eq_true, if_false, if_true]
    rw [hearFrame_held]
    cases (t.hearFrame frame scored.1).2.2 <;> rfl
  | false =>
    simp only [Bool.not_false, Bool.true_and, Bool.false_eq_true, if_false]
    by_cases hp : decide (scored.1 < t.settings.threshold) = true
    · rw [if_pos hp, if_pos hp]
      rfl
    · rw [if_neg hp, if_neg hp]
      have hopen : (t.held rest pos).openTurn x =
          ((t.openTurn x).1.held rest pos, (t.openTurn x).2) := rfl
      rw [hopen]
      dsimp only
      rw [hearFrame_held]
      cases ((t.openTurn x).1.hearFrame frame scored.1).2.2 <;> rfl

/-- Nor what several do. -/
theorem frames_held (n : ℕ) (s : TurnSegmenter α P E σ) (rest : List α) (pos : ℕ)
    (buf : List α) (x : ℕ) :
    frames n (s.held rest pos) buf x =
      ((frames n s buf x).1.held rest pos, (frames n s buf x).2) := by
  induction n generalizing s buf x with
  | zero => rfl
  | succ n ih =>
    unfold frames
    dsimp only
    rw [frame_held, ih]

/-- Appends may be cut anywhere. -/
theorem feed_append (s : TurnSegmenter α P E σ) (a b : List α) :
    s.feed (a ++ b) = (((s.feed a).1.feed b).1, (s.feed a).2 ++ ((s.feed a).1.feed b).2) := by
  have hframe : 0 < FRAME := by decide
  generalize hbuf : s.rest ++ a = buf
  generalize hm : buf.length / FRAME = m
  have hle : m * FRAME ≤ buf.length := by
    rw [← hm]
    exact Nat.div_mul_le_self _ _
  have hfirst : s.feed a =
      ((frames m s buf s.pos).1.held (buf.drop (m * FRAME)) (s.pos + m * FRAME),
        (frames m s buf s.pos).2) := by
    unfold feed held
    dsimp only
    rw [hbuf, hm]
  generalize hn : (buf.drop (m * FRAME) ++ b).length / FRAME = n
  have hlen : (buf ++ b).length / FRAME = m + n := by
    have hsplit : (buf ++ b).length = (buf.drop (m * FRAME) ++ b).length + FRAME * m := by
      rw [List.length_append, List.length_append, List.length_drop, Nat.mul_comm FRAME m]
      omega
    rw [hsplit, Nat.add_mul_div_left _ _ hframe, hn, Nat.add_comm]
  have hdrop : (buf ++ b).drop (m * FRAME) = buf.drop (m * FRAME) ++ b :=
    List.drop_append_of_le_length hle
  have hall : s.feed (a ++ b) =
      ((frames (m + n) s (buf ++ b) s.pos).1.held ((buf ++ b).drop ((m + n) * FRAME))
        (s.pos + (m + n) * FRAME), (frames (m + n) s (buf ++ b) s.pos).2) := by
    unfold feed held
    dsimp only
    rw [← List.append_assoc, hbuf, hlen]
  have hsecond : (s.feed a).1.feed b =
      ((frames n (frames m s buf s.pos).1 (buf.drop (m * FRAME) ++ b)
          (s.pos + m * FRAME)).1.held ((buf.drop (m * FRAME) ++ b).drop (n * FRAME))
            (s.pos + m * FRAME + n * FRAME),
        (frames n (frames m s buf s.pos).1 (buf.drop (m * FRAME) ++ b)
          (s.pos + m * FRAME)).2) := by
    rw [hfirst]
    unfold feed
    dsimp only
    have hrest : ((frames m s buf s.pos).1.held (buf.drop (m * FRAME))
        (s.pos + m * FRAME)).rest = buf.drop (m * FRAME) := rfl
    have hpos : ((frames m s buf s.pos).1.held (buf.drop (m * FRAME))
        (s.pos + m * FRAME)).pos = s.pos + m * FRAME := rfl
    rw [hrest, hpos, hn, frames_held]
    rfl
  have hrest : (buf ++ b).drop ((m + n) * FRAME) =
      (buf.drop (m * FRAME) ++ b).drop (n * FRAME) := by
    rw [← hdrop, List.drop_drop, Nat.add_mul]
  rw [hall, hsecond, hfirst, frames_add, frames_append m s buf b s.pos hle, hdrop, hrest,
    Nat.add_mul, ← Nat.add_assoc]

end TurnSegmenter

end Mstar.Turns
