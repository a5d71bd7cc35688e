import Mathlib.Data.List.Basic

/-!
# Decoding a model's text chunks

Byte-level detokenizers send each token's raw bytes as a chunk of its own, so a
character may span chunks. A stream puts out the characters that are complete
and holds back an incomplete tail. The decoder is the standard library's, which
reports how far the bytes are valid and how long the invalid sequence is.
-/

namespace Mstar.Utf8

/-- U+FFFD. -/
def replacement : Char := '\uFFFD'

/-- A continuation byte. -/
def continues (b : UInt8) : Bool := decide (0x80 ≤ b.toNat) && decide (b.toNat ≤ 0xBF)

/-- The length of the sequence a byte starts, or 0. -/
def charWidth (b : UInt8) : ℕ :=
  if b.toNat < 0x80 then 1
  else if b.toNat < 0xC2 then 0
  else if b.toNat < 0xE0 then 2
  else if b.toNat < 0xF0 then 3
  else if b.toNat < 0xF5 then 4
  else 0

/-- The second byte of a sequence of three: no overlong form, no surrogate. -/
def second3 (a b : UInt8) : Bool :=
  if a.toNat = 0xE0 then decide (0xA0 ≤ b.toNat) && decide (b.toNat ≤ 0xBF)
  else if a.toNat = 0xED then decide (0x80 ≤ b.toNat) && decide (b.toNat ≤ 0x9F)
  else continues b

/-- The second byte of a sequence of four: no overlong form, none past the last
character. -/
def second4 (a b : UInt8) : Bool :=
  if a.toNat = 0xF0 then decide (0x90 ≤ b.toNat) && decide (b.toNat ≤ 0xBF)
  else if a.toNat = 0xF4 then decide (0x80 ≤ b.toNat) && decide (b.toNat ≤ 0x8F)
  else continues b

/-- The character of two bytes. -/
def char2 (a b : UInt8) : Char := Char.ofNat ((a.toNat - 0xC0) * 64 + (b.toNat - 0x80))

/-- The character of three bytes. -/
def char3 (a b c : UInt8) : Char :=
  Char.ofNat ((a.toNat - 0xE0) * 4096 + (b.toNat - 0x80) * 64 + (c.toNat - 0x80))

/-- The character of four bytes. -/
def char4 (a b c d : UInt8) : Char :=
  Char.ofNat ((a.toNat - 0xF0) * 262144 + (b.toNat - 0x80) * 4096 + (c.toNat - 0x80) * 64 +
    (d.toNat - 0x80))

/-- What stands at the front of some bytes. -/
inductive Scan
  | char (c : Char) (length : ℕ)
  /-- A byte that cannot follow. -/
  | invalid (length : ℕ)
  /-- The bytes end inside a sequence. -/
  | incomplete
  deriving DecidableEq

/-- The front of `a :: rest`. -/
def scan (a : UInt8) (rest : List UInt8) : Scan :=
  match charWidth a with
  | 1 => .char (Char.ofNat a.toNat) 1
  | 2 =>
    match rest with
    | [] => .incomplete
    | b :: _ => if continues b then .char (char2 a b) 2 else .invalid 1
  | 3 =>
    match rest with
    | [] => .incomplete
    | b :: rest =>
      if second3 a b then
        match rest with
        | [] => .incomplete
        | c :: _ => if continues c then .char (char3 a b c) 3 else .invalid 2
      else .invalid 1
  | 4 =>
    match rest with
    | [] => .incomplete
    | b :: rest =>
      if second4 a b then
        match rest with
        | [] => .incomplete
        | c :: rest =>
          if continues c then
            match rest with
            | [] => .incomplete
            | d :: _ => if continues d then .char (char4 a b c d) 4 else .invalid 3
          else .invalid 2
      else .invalid 1
  | _ => .invalid 1

/-- Why some bytes are not valid. -/
structure Utf8Error where
  validUpTo : ℕ
  /-- The invalid sequence's length, or none where the bytes end inside one. -/
  errorLen : Option ℕ
  deriving DecidableEq

/-- The characters of some bytes, each of them at least one byte long. -/
def validate : ℕ → List UInt8 → Except Utf8Error (List Char)
  | 0, _ => .ok []
  | _ + 1, [] => .ok []
  | fuel + 1, a :: rest =>
    match scan a rest with
    | .char c n =>
      match validate fuel ((a :: rest).drop n) with
      | .ok s => .ok (c :: s)
      | .error e => .error ⟨n + e.validUpTo, e.errorLen⟩
    | .invalid n => .error ⟨0, some n⟩
    | .incomplete => .error ⟨0, none⟩

/-- `std::str::from_utf8`. -/
def fromUtf8 (bs : List UInt8) : Except Utf8Error (List Char) := validate bs.length bs

/-- The chunks of some bytes, each with U+FFFD for the invalid sequence it ends
in. -/
def lossyChunks : ℕ → List UInt8 → List Char
  | 0, _ => []
  | _ + 1, [] => []
  | fuel + 1, a :: rest =>
    match scan a rest with
    | .char c n => c :: lossyChunks fuel ((a :: rest).drop n)
    | .invalid n => replacement :: lossyChunks fuel ((a :: rest).drop n)
    | .incomplete => [replacement]

/-- `String::from_utf8_lossy`. -/
def fromUtf8Lossy (bs : List UInt8) : List Char := lossyChunks bs.length bs

/-- One text stream's incremental decoder. -/
structure Utf8Stream where
  pending : List UInt8
  deriving DecidableEq

namespace Utf8Stream

/-- Nothing held back. -/
def default : Utf8Stream := ⟨[]⟩

/-- The loop of `feed` over the bytes from `start` on: what it puts out, and the
bytes it keeps. Each round takes a byte at least. -/
def feedLoop : ℕ → List UInt8 → List Char × List UInt8
  | 0, pending => ([], pending)
  | fuel + 1, pending =>
    if pending = [] then ([], [])
    else
      match fromUtf8 pending with
      | .ok s => (s, [])
      | .error e =>
        let out := (fromUtf8 (pending.take e.validUpTo)).toOption.getD []
        match e.errorLen with
        | some n =>
          let rest := feedLoop fuel (pending.drop (e.validUpTo + n))
          (out ++ replacement :: rest.1, rest.2)
        | none => (out, pending.drop e.validUpTo)

/-- The complete characters so far. -/
def feed (s : Utf8Stream) (data : List UInt8) : List Char × Utf8Stream :=
  let pending := s.pending ++ data
  let fed := feedLoop pending.length pending
  (fed.1, ⟨fed.2⟩)

/-- The tail, when the stream ends. -/
def flush (s : Utf8Stream) : List Char × Utf8Stream := (fromUtf8Lossy s.pending, ⟨[]⟩)

/-- Pieces fed in turn. -/
def feeds (s : Utf8Stream) : List (List UInt8) → List Char × Utf8Stream
  | [] => ([], s)
  | piece :: pieces =>
    let fed := s.feed piece
    let rest := feeds fed.2 pieces
    (fed.1 ++ rest.1, rest.2)

end Utf8Stream

end Mstar.Utf8
