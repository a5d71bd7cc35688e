import Mathlib.Data.List.DropRight

/-!
# Sentence chunking

Long speech inputs are split into sentence groups that are synthesized as
separate requests. A sentence ends at a terminator, a paragraph break or the
end of the text; one that is too long is wrapped at clause marks, then at
spaces, then by length.
-/

namespace Mstar.Speech

def LATIN_ENDS : List Char := ['.', '!', '?', ';']

def CLOSERS : List Char := ['"', '\'', '”', '’', ')', ']']

def CJK_ENDS : List Char := ['。', '！', '？', '；']

def CLAUSE_ENDS : List Char := [',', ';', ':', '，', '；', '：']

/-- Unicode White_Space. -/
def isWhitespace (c : Char) : Bool :=
  let n := c.toNat
  decide (0x9 ≤ n ∧ n ≤ 0xd) || decide (0x2000 ≤ n ∧ n ≤ 0x200a) ||
    [0x20, 0x85, 0xa0, 0x1680, 0x2028, 0x2029, 0x202f, 0x205f, 0x3000].contains n

/-- Python's `str.isspace`: White_Space and the separators U+001C to U+001F. -/
def isSpace (c : Char) : Bool :=
  isWhitespace c || decide (0x1c ≤ c.toNat ∧ c.toNat ≤ 0x1f)

/-- The text without whitespace at its ends. -/
def strip (s : List Char) : List Char := (s.dropWhile isSpace).rdropWhile isSpace

/-- `text[start..stop]`. -/
def slice (text : List Char) (start stop : ℕ) : List Char := (text.take stop).drop start

/-- The words of a text. -/
def words (s : List Char) : List (List Char) :=
  (s.splitOnP isSpace).filter fun w => !w.isEmpty

/-- The words with a space between them. -/
def squeeze (s : List Char) : List Char :=
  (words s).foldl (fun out word => (if out.isEmpty then out else out ++ [' ']) ++ word) []

/-- How much of the text from a character on is still of its sentence, where the
sentence ends there. -/
def endsHere : List Char → Option ℕ
  | [] => none
  | c :: rest =>
    if LATIN_ENDS.contains c then
      let closers := (rest.takeWhile CLOSERS.contains).length
      let after := rest.drop closers
      if after.isEmpty || after.head?.any isSpace then some (1 + closers) else none
    else if CJK_ENDS.contains c then some 1
    else if c = '\n' then
      let rest := rest.dropWhile fun c => c == ' ' || c == '\t'
      if rest.head? = some '\n' then some 0 else none
    else none

/-- How far the sentence goes on, from its second character. -/
def restOfSentence : List Char → ℕ
  | [] => 0
  | c :: rest => (endsHere (c :: rest)).getD (1 + restOfSentence rest)

/-- Where each sentence ends. The sentences tile the text. -/
def sentenceEnds (text : List Char) (start : ℕ) : List ℕ :=
  if start < text.length then
    let stop := start + 1 + restOfSentence (text.drop (start + 1))
    stop :: sentenceEnds text stop
  else []
termination_by text.length - start

/-- The most characters of a chunk. -/
structure Limit where
  chars : ℕ
  positive : 0 < chars

/-- Division that rounds up. -/
def divCeil (a b : ℕ) : ℕ := (a + b - 1) / b

/-- A cut moves back from a combining mark. -/
def backOff (isMark : Char → Bool) (text : List Char) : ℕ → ℕ
  | 0 => 0
  | cut + 1 => if text[cut + 1]?.any isMark then backOff isMark text cut else cut + 1

/-- Where what is left of a text is cut. -/
def cutAt (isMark : Char → Bool) (text : List Char) (maxChars : ℕ) : ℕ :=
  let n := divCeil text.length maxChars
  let stop := divCeil text.length n
  let cut := backOff isMark text stop
  if cut = 0 then stop else cut

/-- Backing off goes no further. -/
theorem backOff_le (isMark : Char → Bool) (text : List Char) (cut : ℕ) :
    backOff isMark text cut ≤ cut := by
  induction cut with
  | zero => exact Nat.le_refl _
  | succ cut ih =>
    unfold backOff
    split
    · exact Nat.le_succ_of_le ih
    · exact Nat.le_refl _

/-- Some parts of a text that is not empty. -/
theorem divCeil_positive {a b : ℕ} (ha : 0 < a) (hb : 0 < b) : 0 < divCeil a b := by
  unfold divCeil
  exact Nat.div_pos (by omega) hb

/-- Enough pieces of the divisor's size hold the text. -/
theorem le_divCeil_mul (a : ℕ) {b : ℕ} (hb : 0 < b) : a ≤ b * divCeil a b := by
  have hlt : a + b - 1 < b * ((a + b - 1) / b + 1) := Nat.lt_mul_div_succ _ hb
  unfold divCeil
  rw [Nat.mul_succ] at hlt
  omega

/-- And no more than hold it. -/
theorem divCeil_le {a b m : ℕ} (hb : 0 < b) (h : a ≤ m * b) : divCeil a b ≤ m := by
  unfold divCeil
  rw [Nat.div_le_iff_le_mul_add_pred hb, Nat.mul_comm]
  omega

/-- A cut takes some text, and no more than the limit. -/
theorem cutAt_spec (isMark : Char → Bool) {text : List Char} {maxChars : ℕ} (hmax : 0 < maxChars)
    (h : maxChars < text.length) :
    0 < cutAt isMark text maxChars ∧ cutAt isMark text maxChars ≤ maxChars := by
  have hn : 0 < divCeil text.length maxChars := divCeil_positive (by omega) hmax
  have hstop : 0 < divCeil text.length (divCeil text.length maxChars) :=
    divCeil_positive (by omega) hn
  have hle : divCeil text.length (divCeil text.length maxChars) ≤ maxChars :=
    divCeil_le hn (le_divCeil_mul _ hmax)
  have hback := backOff_le isMark text (divCeil text.length (divCeil text.length maxChars))
  unfold cutAt
  dsimp only
  split <;> omega

/-- Near-equal pieces of at most the limit, none starting on a combining mark
where that can be. -/
def cutEvenly (isMark : Char → Bool) (maxChars : Limit) (text : List Char) : List (List Char) :=
  if _ : maxChars.chars < text.length then
    let cut := cutAt isMark text maxChars.chars
    text.take cut :: cutEvenly isMark maxChars (text.drop cut)
  else [text]
termination_by text.length
decreasing_by
  have hcut := (cutAt_spec isMark maxChars.positive ‹_›).1
  rw [List.length_drop]
  omega

/-- A cut after each clause mark, without the whitespace that follows it. -/
def splitClausesFrom (s : List Char) (last i : ℕ) : List (List Char) :=
  if i ≤ s.length then
    if s[i - 1]?.any CLAUSE_ENDS.contains then
      let j := i + ((s.drop i).takeWhile isSpace).length
      slice s last i :: splitClausesFrom s j (j + 1)
    else splitClausesFrom s last (i + 1)
  else [s.drop (min last s.length)]
termination_by s.length + 1 - i

def splitClauses (s : List Char) : List (List Char) := splitClausesFrom s 0 1

/-- Parts put together while they fit. -/
def pack (maxChars : ℕ) (join : List Char → List Char → List Char) :
    List Char → List (List Char) → List (List Char)
  | current, [] => if current.isEmpty then [] else [current]
  | current, part :: parts =>
    if !current.isEmpty && decide (maxChars < current.length + 1 + part.length) then
      current :: pack maxChars join part parts
    else pack maxChars join (if current.isEmpty then part else join current part) parts

/-- Two parts of a sentence. -/
def joinParts (left right : List Char) : List Char := left ++ [' '] ++ right

/-- Pieces that are too long, split and put together again. -/
def wrap (maxChars : ℕ) (split : List Char → List (List Char)) (pieces : List (List Char)) :
    List (List Char) :=
  pieces.flatMap fun piece =>
    if piece.length ≤ maxChars then [piece]
    else pack maxChars joinParts [] (((split piece).map strip).filter fun p => !p.isEmpty)

/-- A sentence that is too long, split at clause marks, then at spaces, then by
length. -/
def hardWrap (isMark : Char → Bool) (maxChars : Limit) (sentence : List Char) :
    List (List Char) :=
  let pieces := [splitClauses, List.splitOnP isSpace].foldl
    (fun pieces split => wrap maxChars.chars split pieces) [sentence]
  pieces.flatMap fun p =>
    if maxChars.chars < p.length then cutEvenly isMark maxChars p else [p]

/-- Two sentences of one chunk: a space after a Latin sentence, none after a CJK
one. -/
def join (left right : List Char) : List Char :=
  (if left.getLast?.any CJK_ENDS.contains then left else left ++ [' ']) ++ right

/-- The sentences between the ends. -/
def sentencesOf (text : List Char) : ℕ → List ℕ → List (List Char)
  | _, [] => []
  | start, stop :: ends => slice text start stop :: sentencesOf text stop ends

/-- A short last chunk goes into the one before it. -/
def mergeTail (join : List Char → List Char → List Char) (maxChars minChars : ℕ)
    (chunks : List (List Char)) : List (List Char) :=
  match chunks.reverse with
  | last :: before :: rest =>
    if last.length < minChars ∧ before.length + 1 + last.length ≤ maxChars * 5 / 4 then
      rest.reverse ++ [join before last]
    else chunks
  | _ => chunks

/-- The sentence chunks of a text. -/
def splitSentences (isMark : Char → Bool) (text : List Char) (maxChars : Limit) (minChars : ℕ) :
    List (List Char) :=
  let text := strip text
  if text.isEmpty then []
  else if text.length ≤ maxChars.chars then [text]
  else
    let sentences := (sentencesOf text 0 (sentenceEnds text 0)).flatMap fun sentence =>
      let piece := squeeze sentence
      if piece.isEmpty then []
      else if maxChars.chars < piece.length then hardWrap isMark maxChars piece
      else [piece]
    mergeTail join maxChars.chars minChars (pack maxChars.chars join [] sentences)

end Mstar.Speech
