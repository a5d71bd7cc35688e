import Mstar.Patterns
import Mstar.SpeechWhole

/-!
# Sentence chunking with regexes

The other server's chunking: sentences are the matches of a lazy pattern, soft
breaks the places where one of two patterns splits.
-/

namespace Mstar.Speech.Python

open Patterns

/-- `.`, with newlines. -/
def anyChar : Char → Bool := fun _ => true

/-- `_SENTENCE` behind its lazy body: a Latin terminator with any closers before
whitespace or the end, a CJK terminator, a paragraph break, or the end. -/
def sentenceEnd : Pattern Char :=
  .alt (.seq (.set LATIN_ENDS.contains) (.seq (.greedyStar CLOSERS.contains)
      (.lookahead (.alt (.set isSpace) .atEnd))))
    (.alt (.set CJK_ENDS.contains)
      (.alt (.lookahead (.seq (.set fun c => c == '\n')
          (.seq (.greedyStar fun c => c == ' ' || c == '\t') (.set fun c => c == '\n'))))
        .atEnd))

/-- `_SENTENCE`. -/
def SENTENCE : Pattern Char := .seq (.set anyChar) (.seq (.lazyStar anyChar) sentenceEnd)

/-- `_SOFT_BREAKS`, most preferred first: behind a clause mark, and at spaces. -/
def CLAUSE_BREAK : Pattern Char := .seq (.lookbehind CLAUSE_ENDS.contains) (.greedyStar isSpace)

def SPACES : Pattern Char := .seq (.set isSpace) (.greedyStar isSpace)

/-- `-(-a // b)`. -/
def ceilDiv (a b : ℕ) : ℕ := (-(-(a : ℤ) / (b : ℤ))).toNat

/-- Where `_cut_evenly` cuts what is left of a text. -/
def cutAt (isMark : Char → Bool) (text : List Char) (maxChars : ℕ) : ℕ :=
  let n := ceilDiv text.length maxChars
  let stop := ceilDiv text.length n
  let cut := backOff isMark text stop
  if cut = 0 then stop else cut

/-- Rounding up, either way. -/
theorem ceilDiv_eq (a : ℕ) {b : ℕ} (hb : 0 < b) : ceilDiv a b = divCeil a b := by
  have hlow : a ≤ b * divCeil a b := le_divCeil_mul a hb
  have hhigh : b * divCeil a b ≤ a + b - 1 := Nat.mul_div_le _ _
  generalize divCeil a b = q at hlow hhigh
  have hb' : (0 : ℤ) < b := by omega
  have hr : 0 ≤ (b : ℤ) * q - a := by
    have hcast : (a : ℤ) ≤ ((b * q : ℕ) : ℤ) := by omega
    rw [Int.natCast_mul] at hcast
    omega
  have hlt : (b : ℤ) * q - a < b := by
    have hcast : ((b * q : ℕ) : ℤ) < a + b := by omega
    rw [Int.natCast_mul] at hcast
    omega
  have hsum : (b : ℤ) * q - a + b * -(q : ℤ) = -a := by
    rw [Int.mul_neg]
    omega
  have hdiv := ((Int.ediv_emod_unique hb').2 ⟨hsum, hr, hlt⟩).1
  unfold ceilDiv
  rw [hdiv]
  omega

/-- The cut is the same. -/
theorem cutAt_eq (isMark : Char → Bool) {text : List Char} {maxChars : ℕ} (hmax : 0 < maxChars)
    (h : maxChars < text.length) : cutAt isMark text maxChars = Speech.cutAt isMark text maxChars := by
  have hn : 0 < divCeil text.length maxChars := divCeil_positive (by omega) hmax
  unfold cutAt Speech.cutAt
  rw [ceilDiv_eq text.length hmax]
  dsimp only
  rw [ceilDiv_eq text.length hn]

/-- `_cut_evenly`. -/
def cutEvenly (isMark : Char → Bool) (maxChars : Limit) (text : List Char) : List (List Char) :=
  if _ : maxChars.chars < text.length then
    let cut := cutAt isMark text maxChars.chars
    text.take cut :: cutEvenly isMark maxChars (text.drop cut)
  else [text]
termination_by text.length
decreasing_by
  have hcut := (cutAt_spec isMark maxChars.positive ‹_›).1
  rw [cutAt_eq isMark maxChars.positive ‹_›, List.length_drop]
  omega

/-- The parts of a piece put together while they fit. -/
def packParts (maxChars : ℕ) : List Char → List (List Char) → List (List Char)
  | current, [] => if current.isEmpty then [] else [current]
  | current, part :: parts =>
    if part.isEmpty then packParts maxChars current parts
    else
      let candidate := if current.isEmpty then part else current ++ [' '] ++ part
      if !current.isEmpty && decide (maxChars < candidate.length) then
        current :: packParts maxChars part parts
      else packParts maxChars candidate parts

/-- `_hard_wrap`. -/
def hardWrap (isMark : Char → Bool) (maxChars : Limit) (sentence : List Char) :
    List (List Char) :=
  let pieces := [CLAUSE_BREAK, SPACES].foldl (fun pieces pattern =>
    pieces.flatMap fun piece =>
      if piece.length ≤ maxChars.chars then [piece]
      else packParts maxChars.chars [] ((pattern.split false none piece).map strip)) [sentence]
  pieces.flatMap fun p =>
    if maxChars.chars < p.length then cutEvenly isMark maxChars p else [p]

/-- `_join`. -/
def join (left right : List Char) : List Char :=
  if left.getLast?.any CJK_ENDS.contains then left ++ right else left ++ [' '] ++ right

/-- `split_sentences`. -/
def splitSentences (isMark : Char → Bool) (text : List Char) (maxChars minChars : ℕ) :
    Except String (List (List Char)) :=
  if h : 0 < maxChars then
    let text := strip text
    if text.isEmpty then .ok []
    else if text.length ≤ maxChars then .ok [text]
    else
      let sentences := (SENTENCE.findAll false none text).flatMap fun matched =>
        let piece := List.intercalate [' '] (words matched)
        if piece.isEmpty then []
        else if maxChars < piece.length then hardWrap isMark ⟨maxChars, h⟩ piece
        else [piece]
      .ok (mergeTail join maxChars minChars (pack maxChars join [] sentences))
  else .error "max_chars must be positive"

end Mstar.Speech.Python
