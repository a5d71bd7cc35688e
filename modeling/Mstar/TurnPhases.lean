import Mathlib.Data.List.Basic
import Mstar.TurnSegmenter

/-!
# Operations in stream order

Reading a segmenter's operations against the stream: a turn starts no earlier
than the last one ended, its audio is the stream from there on, and it ends
where its audio does.
-/

namespace Mstar.Turns

variable {α P E σ : Type*}

/-- Where the reading of the operations stands. -/
inductive Phase
  /-- Between turns; everything before `low` is behind. -/
  | idle (low : ℕ)
  /-- In a turn that holds the stream from `first` up to `next`. -/
  | turn (first next : ℕ)
  /-- The turn has ended and is to be committed. -/
  | stopped (first next : ℕ)

/-- A stretch of a stream. -/
def stretch (f : ℕ → α) (first len : ℕ) : List α := (List.range' first len).map f

/-- The operations of one frame, or of a client's commit, at stream index `at`:
each turn that ends is listed with the stretch it holds. -/
inductive Reads (settings : Settings P) (f : ℕ → α) (here : ℕ) :
    Phase → List (Op α E) → Phase → List (ℕ × ℕ) → Prop
  | nil (p : Phase) : Reads settings f here p [] p []
  /-- A turn starts at most the padding before this index, after the last one. -/
  | started {low first ops q turns} (hlow : low ≤ first) (hle : first ≤ here)
      (hpad : here ≤ first + settings.prefixCap)
      (h : Reads settings f here (.turn first first) ops q turns) :
      Reads settings f here (.idle low) (.speechStarted (samplesToMs first) :: ops) q turns
  /-- Its audio goes on where it was, and stays within the cap. -/
  | audio {first next len ops q turns} (hcap : next + len ≤ first + settings.maxTurn)
      (h : Reads settings f here (.turn first (next + len)) ops q turns) :
      Reads settings f here (.turn first next) (.audio (stretch f next len) :: ops) q turns
  | stopped {first next ops q turns}
      (h : Reads settings f here (.stopped first next) ops q turns) :
      Reads settings f here (.turn first next) (.speechStopped (samplesToMs next) :: ops) q turns
  | commit {first next ops q turns}
      (h : Reads settings f here (.idle next) ops q turns) :
      Reads settings f here (.stopped first next) (.commit :: ops) q ((first, next) :: turns)
  /-- The end-of-turn model raised in a turn. -/
  | failed {first next exc ops q turns} (h : Reads settings f here (.turn first next) ops q turns) :
      Reads settings f here (.turn first next) (.endOfTurnFailed exc :: ops) q turns

/-- The stream from `first` up to `next` is in a turn: one that has ended, or
the open one. -/
def Phase.Covers (q : Phase) (turns : List (ℕ × ℕ)) (first next : ℕ) : Prop :=
  (∃ t ∈ turns, t.1 ≤ first ∧ next ≤ t.2) ∨ ∃ a b, q = .turn a b ∧ a ≤ first ∧ next ≤ b

variable {settings : Settings P} {f : ℕ → α} {here : ℕ} {p q r : Phase} {ops ops' : List (Op α E)}
  {turns turns' : List (ℕ × ℕ)}

/-- The length of a stretch. -/
theorem length_stretch (f : ℕ → α) (first len : ℕ) : (stretch f first len).length = len := by
  unfold stretch
  rw [List.length_map, List.length_range']

/-- Stretches one after another. -/
theorem stretch_append (f : ℕ → α) (first m n : ℕ) :
    stretch f first m ++ stretch f (first + m) n = stretch f first (m + n) := by
  unfold stretch
  rw [← List.map_append, List.range'_append_1]

/-- A stretch from later on. -/
theorem drop_stretch (f : ℕ → α) (first len k : ℕ) :
    (stretch f first len).drop k = stretch f (first + k) (len - k) := by
  unfold stretch
  rw [← List.map_drop, List.drop_range']
  simp

/-- A stretch cut short. -/
theorem take_stretch (f : ℕ → α) {first len k : ℕ} (h : k ≤ len) :
    (stretch f first len).take k = stretch f first k := by
  have hsplit : len = k + (len - k) := by omega
  rw [hsplit, ← stretch_append]
  exact List.take_left' (length_stretch f first k)

/-- One read after another. -/
theorem Reads.trans (h : Reads settings f here p ops q turns)
    (h' : Reads settings f here q ops' r turns') :
    Reads settings f here p (ops ++ ops') r (turns ++ turns') := by
  induction h with
  | nil p => exact h'
  | started hlow hle hpad _ ih => exact .started hlow hle hpad (ih h')
  | audio hcap _ ih => exact .audio hcap (ih h')
  | stopped _ ih => exact .stopped (ih h')
  | commit _ ih => exact .commit (ih h')
  | failed _ ih => exact .failed (ih h')

/-- A segmenter whose next frame is at stream index `next` stands in a phase. -/
structure Agrees (f : ℕ → α) (s : TurnSegmenter α P E σ) (next : ℕ) (p : Phase) : Prop where
  /-- In a turn, its audio ends at the next frame. -/
  speaking : s.speaking = true → ∃ first, p = .turn first next ∧ first + s.turn = next ∧
    s.turn ≤ s.settings.maxTurn ∧ s.padding = []
  /-- Between turns, the padding is the stream up to the next frame. -/
  idle : s.speaking = false → ∃ low, p = .idle low ∧ low + s.padding.length ≤ next ∧
    s.padding = stretch f (next - s.padding.length) s.padding.length ∧
    s.padding.length ≤ s.settings.prefixCap

namespace TurnSegmenter

variable {s : TurnSegmenter α P E σ} {next first low : ℕ}

/-- The last samples of a stretch. -/
theorem lastSamples_stretch (f : ℕ → α) (first len k : ℕ) (h : k ≤ len) :
    lastSamples k (stretch f first len) = stretch f (first + len - k) k := by
  unfold lastSamples
  rw [length_stretch, drop_stretch]
  congr 1
  · omega
  · omega

/-- Opening a turn keeps the settings. -/
@[simp] theorem openTurn_settings (s : TurnSegmenter α P E σ) (x : ℕ) :
    (s.openTurn x).1.settings = s.settings := rfl

/-- A turn starts. -/
theorem reads_openTurn (hmax : FRAME ≤ s.settings.maxTurn)
    (hlow : low + s.padding.length ≤ next)
    (hpad : s.padding = stretch f (next - s.padding.length) s.padding.length)
    (hcap : s.padding.length ≤ s.settings.prefixCap) :
    ∃ first, first + (s.openTurn next).1.turn = next ∧
      (s.openTurn next).1.turn + FRAME ≤ s.settings.maxTurn ∧
      Reads s.settings f next (.idle low) (s.openTurn next).2 (.turn first next) [] := by
  have hkeep : min s.padding.length (s.settings.maxTurn - FRAME) ≤ s.padding.length :=
    Nat.min_le_left _ _
  have hroom : min s.padding.length (s.settings.maxTurn - FRAME) ≤ s.settings.maxTurn - FRAME :=
    Nat.min_le_right _ _
  generalize hk : min s.padding.length (s.settings.maxTurn - FRAME) = k at hkeep hroom
  have hkept : lastSamples k s.padding = stretch f (next - k) k := by
    rw [hpad, lastSamples_stretch f _ _ _ hkeep]
    congr 1
    omega
  have hlen : (lastSamples k s.padding).length = k := by
    rw [hkept, length_stretch]
  have hturn : (s.openTurn next).1.turn = k := by
    unfold openTurn
    dsimp only
    rw [hk, hlen]
  have hops : (s.openTurn next).2 = .speechStarted (samplesToMs (next - k)) ::
      if stretch f (next - k) k = [] then [] else [.audio (stretch f (next - k) k)] := by
    unfold openTurn
    dsimp only
    rw [hk, hlen, hkept]
  refine ⟨next - k, ?_, ?_, ?_⟩
  · rw [hturn]
    omega
  · rw [hturn]
    omega
  · rw [hops]
    refine Reads.started (by omega) (by omega) (by omega) ?_
    by_cases hnil : stretch f (next - k) k = []
    · have hzero : k = 0 := by
        rw [← length_stretch f (next - k) k, hnil]
        rfl
      rw [if_pos hnil, hzero]
      exact Reads.nil _
    · rw [if_neg hnil]
      refine Reads.audio (by omega) ?_
      rw [Nat.sub_add_cancel (by omega)]
      exact Reads.nil _

/-- A turn ends where its audio does. -/
theorem reads_stopTurn (s : TurnSegmenter α P E σ) (f : ℕ → α) (here first next : ℕ) :
    Reads s.settings f here (.turn first next) (s.stopTurn next).2 (.idle next) [(first, next)] :=
  .stopped (.commit (.nil _))

/-- The segmenter after a turn has ended. -/
theorem agrees_stopTurn (hpad : s.padding = []) : Agrees f (s.stopTurn next).1 next (.idle next) where
  speaking := fun h => by cases h
  idle := by
    intro _
    have hnil : (s.stopTurn next).1.padding = [] := hpad
    rw [hnil]
    exact ⟨next, rfl, Nat.le_refl _, rfl, Nat.zero_le _⟩

/-- The segmenter after a turn has started. -/
theorem agrees_openTurn (hfirst : first + (s.openTurn next).1.turn = next)
    (hroom : (s.openTurn next).1.turn + FRAME ≤ s.settings.maxTurn) :
    Agrees f (s.openTurn next).1 next (.turn first next) where
  speaking := fun _ => ⟨first, rfl, hfirst, Nat.le_of_add_right_le hroom, rfl⟩
  idle := fun h => by cases h

/-- The cap. -/
theorem reads_capTurn {p : Phase} (hmax : FRAME ≤ s.settings.maxTurn) (h : Agrees f s next p) :
    ∃ q turns, Reads s.settings f next p (s.capTurn next).2 q turns ∧
      Agrees f (s.capTurn next).1 next q ∧ (s.capTurn next).1.settings = s.settings ∧
      ((s.capTurn next).1.speaking = true →
        (s.capTurn next).1.turn + FRAME ≤ s.settings.maxTurn) := by
  unfold capTurn
  split
  · rename_i hover
    rw [Bool.and_eq_true] at hover
    obtain ⟨first, rfl, hfirst, -, hpad⟩ := h.speaking hover.1
    have hstop := reads_stopTurn s f next first next
    have hidle : Agrees f (s.stopTurn next).1 next (.idle next) := agrees_stopTurn hpad
    dsimp only
    split
    · have hnil : (s.stopTurn next).1.padding = [] := hpad
      have hlow : next + (s.stopTurn next).1.padding.length ≤ next := by
        rw [hnil]
        exact Nat.le_refl _
      have hstretch : (s.stopTurn next).1.padding =
          stretch f (next - (s.stopTurn next).1.padding.length)
            (s.stopTurn next).1.padding.length := by
        rw [hnil]
        rfl
      have hcap : (s.stopTurn next).1.padding.length ≤ s.settings.prefixCap := by
        rw [hnil]
        exact Nat.zero_le _
      obtain ⟨first', hfirst', hroom, hopen⟩ := reads_openTurn hmax hlow hstretch hcap
      exact ⟨_, _, hstop.trans hopen, agrees_openTurn hfirst' hroom, rfl, fun _ => hroom⟩
    · exact ⟨_, _, hstop, hidle, rfl, fun hs => by cases hs⟩
  · rename_i hover
    refine ⟨p, [], Reads.nil p, h, rfl, ?_⟩
    intro hs
    rw [hs, Bool.true_and, decide_eq_true_eq, Nat.not_lt] at hover
    exact hover

variable [LinearOrder P]

/-- What the end-of-turn model's answer leaves. -/
theorem askEndOfTurn_same (s : TurnSegmenter α P E σ) (threshold : P) :
    (s.askEndOfTurn threshold).1.settings = s.settings ∧
      (s.askEndOfTurn threshold).1.speaking = s.speaking ∧
      (s.askEndOfTurn threshold).1.turn = s.turn ∧
      (s.askEndOfTurn threshold).1.padding = s.padding ∧
      ∀ (settings : Settings P) (f : ℕ → α) here first next,
        Reads settings f here (.turn first next) (s.askEndOfTurn threshold).2.1
          (.turn first next) [] := by
  unfold askEndOfTurn
  dsimp only
  split
  · exact ⟨rfl, rfl, rfl, rfl, fun _ _ _ _ _ => Reads.nil _⟩
  · exact ⟨rfl, rfl, rfl, rfl, fun _ _ _ _ _ => Reads.failed (Reads.nil _)⟩

/-- A frame of a turn. -/
theorem hearFrame_same (s : TurnSegmenter α P E σ) (frame : List α) (p : P) :
    (s.hearFrame frame p).1.settings = s.settings ∧
      (s.hearFrame frame p).1.speaking = s.speaking ∧
      (s.hearFrame frame p).1.turn = s.turn + FRAME ∧
      (s.hearFrame frame p).1.padding = s.padding ∧
      ∀ (settings : Settings P) (f : ℕ → α) here first next,
        Reads settings f here (.turn first next) (s.hearFrame frame p).2.1
          (.turn first next) [] := by
  unfold hearFrame
  dsimp only
  split
  · split
    · split
      · exact askEndOfTurn_same _ _
      · exact ⟨rfl, rfl, rfl, rfl, fun _ _ _ _ _ => Reads.nil _⟩
    · exact ⟨rfl, rfl, rfl, rfl, fun _ _ _ _ _ => Reads.nil _⟩
  · exact ⟨rfl, rfl, rfl, rfl, fun _ _ _ _ _ => Reads.nil _⟩

/-- A frame of an open turn. -/
theorem reads_hearFrame (here : ℕ) (frame : List α) (p : P) {first next : ℕ}
    (hs : s.speaking = true) (hfirst : first + s.turn = next)
    (hroom : s.turn + FRAME ≤ s.settings.maxTurn) (hpad : s.padding = [])
    (hframe : frame = stretch f next FRAME) :
    ∃ q turns, Reads s.settings f here (.turn first next)
        (.audio frame :: (s.hearFrame frame p).2.1 ++
          (if (s.hearFrame frame p).2.2
            then (s.hearFrame frame p).1.stopTurn (next + FRAME)
            else ((s.hearFrame frame p).1, [])).2) q turns ∧
      Agrees f (if (s.hearFrame frame p).2.2
        then (s.hearFrame frame p).1.stopTurn (next + FRAME)
        else ((s.hearFrame frame p).1, [])).1 (next + FRAME) q ∧
      (if (s.hearFrame frame p).2.2
        then (s.hearFrame frame p).1.stopTurn (next + FRAME)
        else ((s.hearFrame frame p).1, [])).1.settings = s.settings ∧
      q.Covers turns next (next + FRAME) := by
  obtain ⟨hsettings, hspeaking, hturn, hpadding, hreads⟩ := hearFrame_same s frame p
  have haudio : Reads s.settings f here (.turn first next)
      (.audio frame :: (s.hearFrame frame p).2.1) (.turn first (next + FRAME)) [] := by
    rw [hframe]
    refine Reads.audio (by omega) ?_
    rw [← hframe]
    exact hreads s.settings f here first (next + FRAME)
  cases hdone : (s.hearFrame frame p).2.2 with
  | true =>
    simp only [if_true]
    have hstop := reads_stopTurn (s.hearFrame frame p).1 f here first (next + FRAME)
    rw [hsettings] at hstop
    refine ⟨.idle (next + FRAME), [(first, next + FRAME)], haudio.trans hstop, ?_, hsettings, ?_⟩
    · exact agrees_stopTurn (hpadding.trans hpad)
    · exact Or.inl ⟨_, List.mem_singleton.2 rfl, by dsimp only; omega, Nat.le_refl _⟩
  | false =>
    simp only [Bool.false_eq_true, if_false, List.append_nil]
    refine ⟨.turn first (next + FRAME), [], haudio, ?_, hsettings, ?_⟩
    · constructor
      · intro _
        refine ⟨first, rfl, ?_, ?_, hpadding.trans hpad⟩
        · rw [hturn]
          omega
        · rw [hturn, hsettings]
          exact hroom
      · intro hfalse
        rw [hspeaking, hs] at hfalse
        cases hfalse
    · exact Or.inr ⟨first, next + FRAME, rfl, by omega, Nat.le_refl _⟩

/-- One frame, scored. -/
theorem reads_frame {p : Phase} {x : ℕ} (hmax : FRAME ≤ s.settings.maxTurn)
    (h : Agrees f s x p) :
    ∃ q turns, Reads s.settings f x p (s.frame (stretch f x FRAME) x).2 q turns ∧
      Agrees f (s.frame (stretch f x FRAME) x).1 (x + FRAME) q ∧
      (s.frame (stretch f x FRAME) x).1.settings = s.settings ∧
      (s.settings.threshold ≤ (s.models.vad s.memory (stretch f x FRAME)).1 →
        q.Covers turns x (x + FRAME)) := by
  generalize hframe : stretch f x FRAME = frame
  have hsame : Agrees f { s with memory := (s.models.vad s.memory frame).2 } x p :=
    ⟨h.speaking, h.idle⟩
  have hmax' : FRAME ≤ ({ s with memory := (s.models.vad s.memory frame).2 } :
      TurnSegmenter α P E σ).settings.maxTurn := hmax
  obtain ⟨q, turns, hreads, hagrees, hsettings, hroom⟩ := reads_capTurn hmax' hsame
  unfold TurnSegmenter.frame
  dsimp only
  generalize ({ s with memory := (s.models.vad s.memory frame).2 } :
    TurnSegmenter α P E σ).capTurn x = capped at hreads hagrees hsettings hroom ⊢
  dsimp only at hsettings hreads
  generalize (s.models.vad s.memory frame).1 = score
  by_cases hs : capped.1.speaking = true
  · -- the turn goes on, or another one has just started at the cap
    obtain ⟨first, rfl, hfirst, -, hpad⟩ := hagrees.speaking hs
    have hroom' := hroom hs
    rw [← hsettings] at hroom'
    obtain ⟨q', turns', hheard, hagrees', hsettings', hcovers⟩ :=
      reads_hearFrame x frame score hs hfirst hroom' hpad hframe.symm
    rw [hsettings] at hheard hsettings'
    simp only [hs, Bool.not_true, Bool.false_and, Bool.false_eq_true, if_false, if_true,
      List.append_nil]
    refine ⟨q', turns ++ turns', ?_, hagrees', hsettings', ?_⟩
    · have hall := hreads.trans hheard
      simpa only [List.append_assoc, List.cons_append] using hall
    · intro _
      rcases hcovers with ⟨t, ht, hle⟩ | hopen
      · exact Or.inl ⟨t, List.mem_append_right _ ht, hle⟩
      · exact Or.inr hopen
  · rw [Bool.not_eq_true] at hs
    obtain ⟨low, rfl, hlow, hpad, hcap⟩ := hagrees.idle hs
    by_cases hp : score < s.settings.threshold
    · have hcond : (!capped.1.speaking && decide (score < capped.1.settings.threshold)) =
          true := by
        rw [hs, hsettings]
        simpa using hp
      rw [if_pos hcond]
      refine ⟨.idle low, turns, hreads, ?_, hsettings, fun hge => absurd hp (not_lt.2 hge)⟩
      constructor
      · intro htrue
        dsimp only at htrue
        rw [hs] at htrue
        cases htrue
      · intro _
        by_cases hzero : capped.1.settings.prefixCap ≠ 0
        · have hjoin : capped.1.padding ++ frame =
              stretch f (x - capped.1.padding.length) (capped.1.padding.length + FRAME) := by
            rw [← hframe]
            conv_lhs => rw [hpad]
            have hx : x = x - capped.1.padding.length + capped.1.padding.length := by omega
            conv_lhs => rw [hx]
            rw [Nat.add_sub_cancel, stretch_append]
          have hlen : (capped.1.padding ++ frame).length = capped.1.padding.length + FRAME := by
            rw [hjoin, length_stretch]
          have hlast : lastSamples capped.1.settings.prefixCap (capped.1.padding ++ frame) =
              stretch f (x + FRAME - min capped.1.settings.prefixCap
                  (capped.1.padding.length + FRAME))
                (min capped.1.settings.prefixCap (capped.1.padding.length + FRAME)) := by
            unfold lastSamples
            rw [hlen, hjoin, drop_stretch]
            congr 1
            · omega
            · omega
          have hlen' : (lastSamples capped.1.settings.prefixCap
              (capped.1.padding ++ frame)).length =
                min capped.1.settings.prefixCap (capped.1.padding.length + FRAME) := by
            rw [hlast, length_stretch]
          dsimp only
          rw [if_pos hzero]
          refine ⟨low, rfl, ?_, ?_, ?_⟩
          · rw [hlen']
            omega
          · rw [hlen']
            exact hlast
          · rw [hlen']
            exact Nat.min_le_left _ _
        · have hnil : capped.1.padding = [] := List.length_eq_zero_iff.1 (by omega)
          dsimp only
          rw [if_neg hzero, hnil]
          rw [hnil] at hlow
          exact ⟨low, rfl, Nat.le_trans hlow (Nat.le_add_right _ _), rfl, Nat.zero_le _⟩
    · have hcond : ¬(!capped.1.speaking && decide (score < capped.1.settings.threshold)) =
          true := by
        rw [hs, hsettings]
        simpa using hp
      rw [if_neg hcond]
      simp only [hs, Bool.false_eq_true, if_false]
      rw [← hsettings] at hmax
      obtain ⟨first, hfirst, hroom', hopen⟩ := reads_openTurn hmax hlow hpad hcap
      have hspeaking : (capped.1.openTurn x).1.speaking = true := rfl
      obtain ⟨q', turns', hheard, hagrees', hsettings', hcovers⟩ :=
        reads_hearFrame x frame score hspeaking hfirst hroom' rfl hframe.symm
      rw [openTurn_settings, hsettings] at hheard hsettings'
      rw [hsettings] at hopen
      refine ⟨q', turns ++ ([] ++ turns'), ?_, hagrees', hsettings', ?_⟩
      · have hall := hreads.trans (hopen.trans hheard)
        simpa only [List.append_assoc, List.cons_append] using hall
      · intro _
        rcases hcovers with ⟨t, ht, hle⟩ | hopen'
        · refine Or.inl ⟨t, ?_, hle⟩
          exact List.mem_append_right _ ht
        · exact Or.inr hopen'

end TurnSegmenter

end Mstar.Turns
