import Mathlib.Order.Nat
import Mstar.TurnCuts

/-!
# Turns in order

Every run of calls cuts the stream. The turns it leaves behind follow one
another without touching, the open one after them, and audio that is fed in
pieces is cut as if it had come at once.
-/

namespace Mstar.Turns

variable {α P E σ : Type*}

/-- The index no earlier turn goes beyond. -/
def Phase.low : Phase → ℕ
  | .idle low => low
  | .turn first _ => first
  | .stopped first _ => first

/-- A turn ends no earlier than it starts. -/
def Phase.Forward : Phase → Prop
  | .idle _ => True
  | .turn first next => first ≤ next
  | .stopped first next => first ≤ next

/-- The turns that are over while the reading goes from one index to another. -/
structure Between (low : ℕ) (turns : List (ℕ × ℕ)) (high : ℕ) : Prop where
  le : low ≤ high
  within : ∀ t ∈ turns, low ≤ t.1 ∧ t.1 ≤ t.2 ∧ t.2 ≤ high
  /-- They are disjoint and in order. -/
  apart : turns.Pairwise fun t u => t.2 ≤ u.1

namespace Between

variable {low mid high : ℕ} {turns turns' : List (ℕ × ℕ)}

/-- No turns. -/
theorem nil (h : low ≤ high) : Between low [] high where
  le := h
  within := fun _ ht => absurd ht List.not_mem_nil
  apart := List.Pairwise.nil

/-- One turn. -/
theorem single {first next : ℕ} (hlow : low ≤ first) (hle : first ≤ next) (hhigh : next ≤ high) :
    Between low [(first, next)] high where
  le := Nat.le_trans hlow (Nat.le_trans hle hhigh)
  within := by
    intro t ht
    rw [List.mem_singleton] at ht
    rw [ht]
    exact ⟨hlow, hle, hhigh⟩
  apart := List.pairwise_singleton _ _

/-- Turns one after another. -/
theorem append (h : Between low turns mid) (h' : Between mid turns' high) :
    Between low (turns ++ turns') high where
  le := Nat.le_trans h.le h'.le
  within := by
    intro t ht
    rcases List.mem_append.1 ht with ht | ht
    · have hin := h.within t ht
      exact ⟨hin.1, hin.2.1, Nat.le_trans hin.2.2 h'.le⟩
    · have hin := h'.within t ht
      exact ⟨Nat.le_trans h.le hin.1, hin.2⟩
  apart := by
    rw [List.pairwise_append]
    refine ⟨h.apart, h'.apart, ?_⟩
    intro t ht u hu
    exact Nat.le_trans (h.within t ht).2.2 (h'.within u hu).1

end Between

variable {settings : Settings P} {f : ℕ → α} {p q : Phase} {turns : List (ℕ × ℕ)}

/-- The turns of one frame. -/
theorem Reads.between {here : ℕ} {ops : List (Op α E)} (h : Reads settings f here p ops q turns)
    (hp : p.Forward) : Between p.low turns q.low ∧ q.Forward := by
  induction h with
  | nil p => exact ⟨Between.nil (Nat.le_refl _), hp⟩
  | started hlow _ _ _ ih =>
    obtain ⟨hturns, hq⟩ := ih (Nat.le_refl _)
    exact ⟨(Between.nil hlow).append hturns, hq⟩
  | audio _ _ ih => exact ih (Nat.le_trans hp (Nat.le_add_right _ _))
  | stopped _ ih => exact ih hp
  | commit _ ih =>
    obtain ⟨hturns, hq⟩ := ih trivial
    exact ⟨(Between.single (Nat.le_refl _) hp (Nat.le_refl _)).append hturns, hq⟩
  | failed _ ih => exact ih hp

/-- The turns of several frames. -/
theorem ReadsFrames.between [LE P] {x : ℕ} {heard : List (P × List (Op α E))}
    (h : ReadsFrames settings f x p heard q turns) (hp : p.Forward) :
    Between p.low turns q.low ∧ q.Forward := by
  induction h with
  | nil x p => exact ⟨Between.nil (Nat.le_refl _), hp⟩
  | cons hreads _ _ ih =>
    obtain ⟨hfirst, hq⟩ := hreads.between hp
    obtain ⟨hmore, hr⟩ := ih hq
    exact ⟨hfirst.append hmore, hr⟩

namespace TurnSegmenter

variable [LinearOrder P] {s : TurnSegmenter α P E σ} {log : List (Entry α P E σ)}

/-- A segmenter of a run: its partial frame is the stream's, and it stands where
the reading of its operations does. -/
structure Stands (f : ℕ → α) (s : TurnSegmenter α P E σ) (p : Phase) : Prop where
  room : FRAME ≤ s.settings.maxTurn
  partialFrame : s.rest.length < FRAME
  rest : s.rest = stretch f s.pos s.rest.length
  agrees : Agrees f s s.pos p

/-- Some audio of the stream. -/
theorem reads_feed {p : Phase} (h : Stands f s p) (n : ℕ) :
    ∃ heard q turns, (s.feed (stretch f (s.pos + s.rest.length) n)).2 = heard.flatMap Prod.snd ∧
      s.scores f (.feed n) = heard.map Prod.fst ∧
      ReadsFrames s.settings f s.pos p heard q turns ∧
      (s.feed (stretch f (s.pos + s.rest.length) n)).1.pos = s.pos + FRAME * heard.length ∧
      s.rest.length + n = FRAME * heard.length +
        (s.feed (stretch f (s.pos + s.rest.length) n)).1.rest.length ∧
      Stands f (s.feed (stretch f (s.pos + s.rest.length) n)).1 q := by
  have hpositive : 0 < FRAME := by decide
  have hbuf : s.rest ++ stretch f (s.pos + s.rest.length) n =
      stretch f s.pos (s.rest.length + n) := by
    conv_lhs => rw [h.rest]
    rw [length_stretch, stretch_append]
  generalize hcount : (s.rest.length + n) / FRAME = m
  have hle : m * FRAME ≤ s.rest.length + n := by
    rw [← hcount]
    exact Nat.div_mul_le_self _ _
  have hlt : s.rest.length + n < m * FRAME + FRAME := by
    rw [← hcount, ← Nat.succ_mul, Nat.mul_comm]
    exact Nat.lt_mul_div_succ _ hpositive
  obtain ⟨q, turns, hreads, hagrees, hsettings⟩ :=
    reads_frames m (s.rest.length + n) s.pos hle h.room h.agrees
  obtain ⟨hops, hlen⟩ := frames_ops m s (stretch f s.pos (s.rest.length + n)) s.pos
  have hfeed : s.feed (stretch f (s.pos + s.rest.length) n) =
      ((frames m s (stretch f s.pos (s.rest.length + n)) s.pos).1.held
          (stretch f (s.pos + m * FRAME) (s.rest.length + n - m * FRAME)) (s.pos + m * FRAME),
        (frames m s (stretch f s.pos (s.rest.length + n)) s.pos).2) := by
    unfold feed held
    dsimp only
    rw [hbuf, length_stretch, hcount, drop_stretch]
  rw [hfeed]
  have hrest : (stretch f (s.pos + m * FRAME) (s.rest.length + n - m * FRAME)).length =
      s.rest.length + n - m * FRAME := length_stretch _ _ _
  refine ⟨scored m s (stretch f s.pos (s.rest.length + n)) s.pos, q, turns, hops, ?_, hreads, ?_,
    ?_, ?_, ?_, ?_, ?_⟩
  · unfold scores
    dsimp only
    rw [hbuf, length_stretch, hcount]
  · rw [hlen, Nat.mul_comm]
    rfl
  · rw [hlen, Nat.mul_comm FRAME m]
    unfold held
    dsimp only
    rw [hrest]
    omega
  · exact Nat.le_trans h.room (Nat.le_of_eq (congrArg Settings.maxTurn hsettings.symm))
  · unfold held
    dsimp only
    rw [hrest]
    omega
  · unfold held
    dsimp only
    rw [hrest]
  · exact ⟨hagrees.speaking, hagrees.idle⟩

omit [LinearOrder P] in
/-- The partial frame and the stop, which the client's commit follows. -/
theorem reads_rest {first pos len : ℕ} {rest : List α} (hrest : rest = stretch f pos len)
    (hcap : pos + len ≤ first + settings.maxTurn) :
    Reads settings f pos (.turn first pos)
      ((if rest = [] then [] else [.audio rest]) ++
        [.speechStopped (samplesToMs (pos + len))] : List (Op α E))
      (.stopped first (pos + len)) [] := by
  have hstop : Reads settings f pos (.turn first (pos + len))
      ([.speechStopped (samplesToMs (pos + len))] : List (Op α E)) (.stopped first (pos + len)) [] :=
    .stopped (.nil _)
  by_cases hnil : rest = []
  · have hzero : len = 0 := by
      rw [← length_stretch f pos len, ← hrest, hnil]
      rfl
    subst hzero
    rw [if_pos hnil, List.nil_append]
    exact hstop
  · rw [if_neg hnil, hrest]
    exact Reads.audio hcap hstop

omit [LinearOrder P] in
/-- A client's commit in a turn. -/
theorem reads_endTurn {first : ℕ} (h : Stands f s (.turn first s.pos)) :
    ∃ first' turns,
      Reads s.settings f s.pos (.turn first s.pos) s.endTurn.2
        (.stopped first' (s.pos + s.rest.length)) turns ∧
      s.endTurn.1.pos = s.pos + s.rest.length ∧ s.endTurn.1.rest = [] ∧
      Stands f s.endTurn.1 (.idle (s.pos + s.rest.length)) := by
  have hs : s.speaking = true := by
    cases hspeaking : s.speaking with
    | true => rfl
    | false =>
      obtain ⟨low, hlow, -⟩ := h.agrees.idle hspeaking
      cases hlow
  obtain ⟨first₁, hphase, hfirst, hturn, hpad⟩ := h.agrees.speaking hs
  obtain ⟨rfl, -⟩ := Phase.turn.inj hphase
  have hframe := h.partialFrame
  -- the turn that takes the partial frame: this one, or the one after it at the cap
  have hsplit : ∃ (split : TurnSegmenter α P E σ × List (Op α E)) (first' : ℕ)
      (turns : List (ℕ × ℕ)),
      s.endTurn = (({ split.1 with pos := split.1.pos + s.rest.length } :
          TurnSegmenter α P E σ).stopTurn (split.1.pos + s.rest.length) |>.1,
        split.2 ++ (if s.rest = [] then [] else [.audio s.rest]) ++
          [.speechStopped (samplesToMs (split.1.pos + s.rest.length))]) ∧
      Reads s.settings f s.pos (.turn first s.pos) split.2 (.turn first' s.pos) turns ∧
      s.pos + s.rest.length ≤ first' + s.settings.maxTurn ∧
      split.1.pos = s.pos ∧ split.1.rest = [] ∧ split.1.padding = [] ∧
      split.1.settings = s.settings := by
    by_cases hover : s.rest ≠ [] ∧ s.settings.maxTurn < s.turn + s.rest.length
    · have hroom : FRAME ≤ (({ s with rest := [] } :
          TurnSegmenter α P E σ).stopTurn s.pos).1.settings.maxTurn := h.room
      have hnil : (({ s with rest := [] } : TurnSegmenter α P E σ).stopTurn s.pos).1.padding = [] :=
        hpad
      have hagrees : Agrees f (({ s with rest := [] } :
          TurnSegmenter α P E σ).stopTurn s.pos).1 s.pos (.idle s.pos) := agrees_stopTurn hpad
      obtain ⟨low, hlow, hle, hstretch, hcap⟩ := hagrees.idle rfl
      obtain ⟨first', hfirst', hroom', hopen⟩ := reads_openTurn hroom hle hstretch hcap
      obtain rfl := Phase.idle.inj hlow
      refine ⟨(((({ s with rest := [] } : TurnSegmenter α P E σ).stopTurn s.pos).1.openTurn
          s.pos).1, (({ s with rest := [] } : TurnSegmenter α P E σ).stopTurn s.pos).2 ++
            ((({ s with rest := [] } : TurnSegmenter α P E σ).stopTurn s.pos).1.openTurn
              s.pos).2), first', [(first, s.pos)], ?_, ?_, ?_, rfl, rfl, rfl, rfl⟩
      · unfold endTurn
        dsimp only
        rw [if_pos hs, if_pos hover]
        rfl
      · exact (reads_stopTurn { s with rest := [] } f s.pos first s.pos).trans hopen
      · have hmax : (({ s with rest := [] } :
            TurnSegmenter α P E σ).stopTurn s.pos).1.settings.maxTurn = s.settings.maxTurn := rfl
        rw [hmax] at hroom'
        omega
    · refine ⟨({ s with rest := [] }, []), first, [], ?_, Reads.nil _, ?_, rfl, rfl, hpad, rfl⟩
      · unfold endTurn
        dsimp only
        rw [if_pos hs, if_neg hover]
        rfl
      · by_cases hrest : s.rest = []
        · rw [hrest, List.length_nil]
          omega
        · have hle : ¬s.settings.maxTurn < s.turn + s.rest.length :=
            fun hlt => hover ⟨hrest, hlt⟩
          omega
  obtain ⟨split, first', turns, hend, hreads, hcap, hpos, hnil, hpadding, hsettings⟩ := hsplit
  rw [hpos] at hend
  rw [hend]
  refine ⟨first', turns ++ [], ?_, rfl, hnil, ?_, ?_, ?_, ?_⟩
  · rw [List.append_assoc]
    exact hreads.trans (reads_rest h.rest hcap)
  · exact Nat.le_trans h.room (Nat.le_of_eq (congrArg Settings.maxTurn hsettings.symm))
  · dsimp only [stopTurn]
    rw [hnil, List.length_nil]
    decide
  · dsimp only [stopTurn]
    rw [hnil]
    rfl
  · exact agrees_stopTurn hpadding

omit [LinearOrder P] in
/-- A segmenter between turns that holds no audio. -/
theorem stands_empty {low : ℕ} (hroom : FRAME ≤ s.settings.maxTurn) (hrest : s.rest = [])
    (hpad : s.padding = []) (hs : s.speaking = false) (hlow : low ≤ s.pos) :
    Stands f s (.idle low) where
  room := hroom
  partialFrame := by
    rw [hrest, List.length_nil]
    decide
  rest := by
    rw [hrest]
    rfl
  agrees := by
    constructor
    · intro htrue
      rw [hs] at htrue
      cases htrue
    · intro _
      rw [hpad]
      exact ⟨low, rfl, hlow, rfl, Nat.zero_le _⟩

omit [LinearOrder P] in
/-- A settings change keeps the stream, and some of the padding. -/
theorem stands_takeOver {p : Phase} (h : Stands f s p) (models : Models α P E σ) (memory : σ)
    (settings : Settings P) (hroom : FRAME ≤ settings.maxTurn) {low : ℕ}
    (hlow : low + s.padding.length ≤ s.pos)
    (hpad : s.padding = stretch f (s.pos - s.padding.length) s.padding.length) :
    Stands f ((new models memory settings s.pos).takeOver s) (.idle low) where
  room := hroom
  partialFrame := h.partialFrame
  rest := h.rest
  agrees := by
    constructor
    · intro htrue
      cases htrue
    · intro _
      have hkeep : min s.padding.length settings.prefixCap ≤ s.padding.length :=
        Nat.min_le_left _ _
      have hlast : ((new models memory settings s.pos).takeOver s).padding =
          stretch f (s.pos - min s.padding.length settings.prefixCap)
            (min s.padding.length settings.prefixCap) := by
        unfold takeOver
        dsimp only [new]
        rw [hpad, lastSamples_stretch f _ _ _ (by rw [length_stretch]; exact hkeep),
          length_stretch]
        congr 1
        omega
      have hlen : ((new models memory settings s.pos).takeOver s).padding.length =
          min s.padding.length settings.prefixCap := by
        rw [hlast, length_stretch]
      refine ⟨low, rfl, ?_, ?_, ?_⟩
      · rw [hlen]
        exact Nat.le_trans (Nat.add_le_add_left hkeep low) hlow
      · rw [hlen]
        exact hlast
      · rw [hlen]
        exact Nat.min_le_right _ _

/-- The cut of a run, with the turns in order and the segmenter where they end. -/
theorem Runs.cut (h : Runs f log s) :
    ∃ p turns, Cuts f log s.pos s.rest.length p turns ∧ Between 0 turns p.low ∧ p.Forward ∧
      Stands f s p := by
  induction h with
  | start models memory settings pos hmax =>
    refine ⟨.idle pos, [], Cuts.start pos, Between.nil (Nat.zero_le _), trivial, ?_⟩
    exact stands_empty hmax rfl rfl rfl (Nat.le_refl _)
  | @step log s _ call hallowed ih =>
    obtain ⟨p, turns, hcuts, hbetween, hforward, hstands⟩ := ih
    cases call with
    | feed n =>
      obtain ⟨heard, q, more, hops, hscores, hreads, hpos, hrest, hstands'⟩ :=
        reads_feed hstands n
      obtain ⟨hmore, hq⟩ := hreads.between hforward
      have hcut := Cuts.feed hcuts hreads hrest hstands'.partialFrame
      rw [← hops, ← hscores, ← hpos] at hcut
      exact ⟨q, turns ++ more, hcut, hbetween.append hmore, hq, hstands'⟩
    | endTurn =>
      cases hs : s.speaking with
      | true =>
        obtain ⟨first, rfl, -⟩ := hstands.agrees.speaking hs
        obtain ⟨first', more, hreads, hpos, hnil, hstands'⟩ := reads_endTurn hstands
        obtain ⟨hmore, hq⟩ := hreads.between hforward
        have hcut := Cuts.endTurn hcuts hreads
        have hlast : Between first' [(first', s.pos + s.rest.length)] (s.pos + s.rest.length) :=
          Between.single (Nat.le_refl _) hq (Nat.le_refl _)
        have hzero : s.endTurn.1.rest.length = 0 := by
          rw [hnil]
          rfl
        refine ⟨.idle (s.pos + s.rest.length), turns ++ more ++ [(first', s.pos + s.rest.length)],
          ?_, (hbetween.append hmore).append hlast, trivial, hstands'⟩
        unfold call
        dsimp only
        rw [hpos, hzero]
        exact hcut
      | false =>
        obtain ⟨low, rfl, hlow, -⟩ := hstands.agrees.idle hs
        have hend : s.endTurn =
            ({ s with rest := [], pos := s.pos + s.rest.length, padding := [] }, []) := by
          unfold endTurn
          dsimp only
          rw [hs]
          rfl
        have hcut : Cuts f (log ++ [⟨s.settings, .endTurn, [], []⟩]) (s.pos + s.rest.length) 0
            (.idle (s.pos + s.rest.length)) turns := Cuts.endIdle hcuts
        have hbelow : Between low [] (s.pos + s.rest.length) :=
          Between.nil (by omega)
        unfold call scores
        dsimp only
        rw [hend]
        refine ⟨.idle (s.pos + s.rest.length), turns, hcut, ?_, trivial, ?_⟩
        · have hall := hbetween.append hbelow
          rwa [List.append_nil] at hall
        · exact stands_empty hstands.room rfl rfl hs (Nat.le_refl _)
    | reset skipped =>
      have hpos : (s.reset skipped).pos = s.pos + s.rest.length + skipped := rfl
      have hstands' : Stands f (s.reset skipped) (.idle (s.pos + s.rest.length + skipped)) :=
        stands_empty hstands.room rfl rfl rfl (Nat.le_refl _)
      cases hs : s.speaking with
      | true =>
        obtain ⟨first, rfl, -⟩ := hstands.agrees.speaking hs
        have hlast : Between first [(first, s.pos)] (s.pos + s.rest.length + skipped) :=
          Between.single (Nat.le_refl _) hforward (by omega)
        exact ⟨_, _, Cuts.resetTurn hcuts, hbetween.append hlast, trivial, hstands'⟩
      | false =>
        obtain ⟨low, rfl, hlow, -⟩ := hstands.agrees.idle hs
        have hbelow : Between low [] (s.pos + s.rest.length + skipped) := Between.nil (by omega)
        have hall := hbetween.append hbelow
        rw [List.append_nil] at hall
        exact ⟨_, _, Cuts.resetIdle hcuts, hall, trivial, hstands'⟩
    | takeOver models memory settings =>
      cases hs : s.speaking with
      | true =>
        obtain ⟨first, rfl, -, -, hpad⟩ := hstands.agrees.speaking hs
        have hlast : Between first [(first, s.pos)] s.pos :=
          Between.single (Nat.le_refl _) hforward (Nat.le_refl _)
        refine ⟨_, _, Cuts.takeOverTurn hcuts, hbetween.append hlast, trivial, ?_⟩
        refine stands_takeOver hstands models memory settings hallowed ?_ ?_
        · rw [hpad]
          exact Nat.le_refl _
        · rw [hpad]
          rfl
      | false =>
        obtain ⟨low, rfl, hlow, hpad, -⟩ := hstands.agrees.idle hs
        refine ⟨_, _, Cuts.takeOver hcuts, hbetween, trivial, ?_⟩
        exact stands_takeOver hstands models memory settings hallowed hlow hpad

/-- Appends in turn. -/
def feeds : TurnSegmenter α P E σ → List (List α) → TurnSegmenter α P E σ × List (Op α E)
  | s, [] => (s, [])
  | s, audio :: more =>
    let first := s.feed audio
    let rest := feeds first.1 more
    (rest.1, first.2 ++ rest.2)

/-- However some audio is cut into appends, it is heard as one. -/
theorem feeds_eq (s : TurnSegmenter α P E σ) (audio : List α) (more : List (List α)) :
    s.feeds (audio :: more) = s.feed (audio ++ more.flatten) := by
  induction more generalizing s audio with
  | nil =>
    unfold feeds
    dsimp only [feeds]
    rw [List.flatten_nil, List.append_nil, List.append_nil]
  | cons next more ih =>
    have hsplit : s.feeds (audio :: next :: more) =
        (((s.feed audio).1.feeds (next :: more)).1,
          (s.feed audio).2 ++ ((s.feed audio).1.feeds (next :: more)).2) := rfl
    rw [hsplit, ih, List.flatten_cons]
    exact (feed_append s audio (next ++ more.flatten)).symm

/-- Over every run the operations cut the stream: the turns that are over are
disjoint and in order, the open one after them, and appends may be cut
anywhere. -/
theorem Runs.turns_in_order (h : Runs f log s) :
    (∃ p turns, Cuts f log s.pos s.rest.length p turns ∧
      turns.Pairwise (fun t u => t.2 ≤ u.1) ∧ ∀ t ∈ turns, t.1 ≤ t.2 ∧ t.2 ≤ p.low) ∧
    ∀ audio more, s.feeds (audio :: more) = s.feed (audio ++ more.flatten) := by
  refine ⟨?_, feeds_eq s⟩
  obtain ⟨p, turns, hcuts, hbetween, -, -⟩ := h.cut
  exact ⟨p, turns, hcuts, hbetween.apart, fun t ht => (hbetween.within t ht).2⟩

/-- A speech model that hears speech in every frame. -/
def speaker : Models ℕ ℕ Unit Unit where
  vad := fun memory _ => (1, memory)
  vadReset := id
  endOfTurn := fun memory _ => (.ok 0, memory)

/-- Server turn detection with turns of at most a second. -/
def serverVad : Settings ℕ where
  threshold := 1
  neg := 1
  prefixCap := 0
  silenceCap := 1600
  semantic := none
  maxTurn := 16000

/-- A frame and some more of silence in the samples, all of it speech. -/
def spoken : TurnSegmenter ℕ ℕ Unit Unit × List (Op ℕ Unit) :=
  (new speaker () serverVad 0).call (fun _ => 0) (.feed 600)

/-- The call that heard it. -/
def spokenEntry : Entry ℕ ℕ Unit Unit :=
  ⟨serverVad, .feed 600, spoken.2, (new speaker () serverVad 0).scores (fun _ => 0) (.feed 600)⟩

/-- Something was spoken. -/
theorem runs_spoken : Runs (fun _ => 0) [spokenEntry] spoken.1 :=
  Runs.step (Runs.start speaker () serverVad 0 (by decide)) (.feed 600) trivial

/-- It is one turn. -/
theorem turns_in_order_spoken :
    (∃ p turns, Cuts (fun _ => 0) [spokenEntry] spoken.1.pos spoken.1.rest.length p turns ∧
      turns.Pairwise (fun t u => t.2 ≤ u.1) ∧ ∀ t ∈ turns, t.1 ≤ t.2 ∧ t.2 ≤ p.low) ∧
    ∀ audio more, spoken.1.feeds (audio :: more) = spoken.1.feed (audio ++ more.flatten) :=
  Runs.turns_in_order runs_spoken

/-- Whether turns start only where none is open and audio comes only in one. -/
def bracketed : Bool → List (Op α E) → Bool
  | _, [] => true
  | false, .speechStarted _ :: ops => bracketed true ops
  | true, .audio _ :: ops => bracketed true ops
  | true, .endOfTurnFailed _ :: ops => bracketed true ops
  | true, .speechStopped _ :: ops => bracketed false ops
  | false, .commit :: ops => bracketed false ops
  | _, _ => false

/-- A clear in mid-turn leaves the turn unstopped, and the next one starts. -/
theorem cleared_unstopped :
    ∃ (log : List (Entry ℕ ℕ Unit Unit)) (s : TurnSegmenter ℕ ℕ Unit Unit),
      Runs (fun _ => 0) log s ∧ bracketed false (log.flatMap Entry.ops) = false := by
  have hcleared := Runs.step runs_spoken (.reset 0) trivial
  have hnext := Runs.step hcleared (.feed 600) trivial
  refine ⟨_, _, hnext, ?_⟩
  decide +kernel

end TurnSegmenter

end Mstar.Turns
