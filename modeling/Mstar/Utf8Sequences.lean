import Mathlib.Data.List.Basic
import Mstar.Utf8Stream

/-!
# Encoded characters and invalid subparts

What the decoder finds at the front of some bytes: a character exactly where
one is encoded, and otherwise the longest piece that begins an encoded
character, or one byte where none does.
-/

namespace Mstar.Utf8

open String (utf8EncodeChar)

/-- The bytes begin an encoded character. -/
def Begun (bs : List UInt8) : Prop := ∃ c, bs <+: utf8EncodeChar c

/-- A maximal invalid subpart: no character is encoded here, and the bytes are
the longest ones from here that begin one, or a single byte. -/
structure InvalidSubpart (part rest : List UInt8) : Prop where
  nonempty : part ≠ []
  uncoded : ∀ c, ¬utf8EncodeChar c <+: part ++ rest
  begun : part.length = 1 ∨ Begun part
  longest : ∀ more, more ≠ [] → more <+: rest → ¬Begun (part ++ more)

/-- The lossy decoding of some bytes: each encoded character, and U+FFFD for
each maximal invalid subpart. -/
inductive Lossy : List UInt8 → List Char → Prop
  | nil : Lossy [] []
  | char (c : Char) {rest out} (h : Lossy rest out) : Lossy (utf8EncodeChar c ++ rest) (c :: out)
  | invalid {part rest out} (hpart : InvalidSubpart part rest) (h : Lossy rest out) :
    Lossy (part ++ rest) (replacement :: out)

section Bytes

variable {a b c d : UInt8} {rest more : List UInt8} {n : ℕ} {ch : Char}

/-- The first bytes of letters of one byte. -/
theorem charWidth_eq_one : charWidth a = 1 ↔ a.toNat < 0x80 := by
  unfold charWidth
  repeat' split
  all_goals omega

/-- Of two bytes. -/
theorem charWidth_eq_two : charWidth a = 2 ↔ 0xC2 ≤ a.toNat ∧ a.toNat < 0xE0 := by
  unfold charWidth
  repeat' split
  all_goals omega

/-- Of three. -/
theorem charWidth_eq_three : charWidth a = 3 ↔ 0xE0 ≤ a.toNat ∧ a.toNat < 0xF0 := by
  unfold charWidth
  repeat' split
  all_goals omega

/-- Of four. -/
theorem charWidth_eq_four : charWidth a = 4 ↔ 0xF0 ≤ a.toNat ∧ a.toNat < 0xF5 := by
  unfold charWidth
  repeat' split
  all_goals omega

/-- The bytes that continue a letter. -/
theorem continues_iff : continues b = true ↔ 0x80 ≤ b.toNat ∧ b.toNat ≤ 0xBF := by
  simp [continues]

/-- The second bytes of letters of three. -/
theorem second3_iff : second3 a b = true ↔ 0x80 ≤ b.toNat ∧ b.toNat ≤ 0xBF ∧
    (a.toNat = 0xE0 → 0xA0 ≤ b.toNat) ∧ (a.toNat = 0xED → b.toNat ≤ 0x9F) := by
  unfold second3
  split
  · simp only [Bool.and_eq_true, decide_eq_true_eq]
    omega
  · split
    · simp only [Bool.and_eq_true, decide_eq_true_eq]
      omega
    · rw [continues_iff]
      omega

/-- Of four. -/
theorem second4_iff : second4 a b = true ↔ 0x80 ≤ b.toNat ∧ b.toNat ≤ 0xBF ∧
    (a.toNat = 0xF0 → 0x90 ≤ b.toNat) ∧ (a.toNat = 0xF4 → b.toNat ≤ 0x8F) := by
  unfold second4
  split
  · simp only [Bool.and_eq_true, decide_eq_true_eq]
    omega
  · split
    · simp only [Bool.and_eq_true, decide_eq_true_eq]
      omega
    · rw [continues_iff]
      omega

/-- The number of a letter that is valid. -/
theorem val_ofNat (h : n < 0xD800 ∨ 0xDFFF < n ∧ n < 0x110000) : (Char.ofNat n).val.toNat = n := by
  have hvalid : n.isValidChar := h
  unfold Char.ofNat
  rw [dif_pos hvalid]
  rfl

/-- The letter of its number. -/
theorem ofNat_val (c : Char) : Char.ofNat c.val.toNat = c := Char.ofNat_toNat c

/-- A letter's number is valid. -/
theorem val_valid (c : Char) :
    c.val.toNat < 0xD800 ∨ 0xDFFF < c.val.toNat ∧ c.val.toNat < 0x110000 := c.valid

/-- A byte of its number. -/
theorem byte_eq (h : n % 256 = a.toNat) : UInt8.ofNat n = a := by
  refine UInt8.toNat_inj.1 ?_
  rw [UInt8.toNat_ofNat']
  exact h

/-- The number of a byte. -/
theorem toNat_byte (h : n < 256) : (UInt8.ofNat n).toNat = n := by
  rw [UInt8.toNat_ofNat']
  exact Nat.mod_eq_of_lt h

/-- Letters of one byte. -/
theorem scan_one (h : a.toNat < 0x80) : scan a rest = .char (Char.ofNat a.toNat) 1 := by
  unfold scan
  rw [charWidth_eq_one.2 h]
  rfl

/-- Of two bytes. -/
theorem scan_two (h : 0xC2 ≤ a.toNat ∧ a.toNat < 0xE0) :
    scan a rest =
      match rest with
      | [] => .incomplete
      | b :: _ => if continues b then .char (char2 a b) 2 else .invalid 1 := by
  unfold scan
  rw [charWidth_eq_two.2 h]
  rfl

/-- Of three. -/
theorem scan_three (h : 0xE0 ≤ a.toNat ∧ a.toNat < 0xF0) :
    scan a rest =
      match rest with
      | [] => .incomplete
      | b :: rest =>
        if second3 a b then
          match rest with
          | [] => .incomplete
          | c :: _ => if continues c then .char (char3 a b c) 3 else .invalid 2
        else .invalid 1 := by
  unfold scan
  rw [charWidth_eq_three.2 h]
  rfl

/-- Of four. -/
theorem scan_four (h : 0xF0 ≤ a.toNat ∧ a.toNat < 0xF5) :
    scan a rest =
      match rest with
      | [] => .incomplete
      | b :: rest =>
        if second4 a b then
          match rest with
          | [] => .incomplete
          | c :: rest =>
            if continues c then
              match rest with
              | [] => .incomplete
              | d :: _ => if continues d then .char (char4 a b c d) 4 else .invalid 3
            else .invalid 2
        else .invalid 1 := by
  unfold scan
  rw [charWidth_eq_four.2 h]
  rfl

/-- Bytes that start no letter. -/
theorem scan_other (h : 0x80 ≤ a.toNat ∧ a.toNat < 0xC2 ∨ 0xF5 ≤ a.toNat) :
    scan a rest = .invalid 1 := by
  have hwidth : charWidth a = 0 := by
    unfold charWidth
    repeat' split
    all_goals omega
  unfold scan
  rw [hwidth]
  rfl

/-- An encoded character is found. -/
theorem scan_encode (ch : Char) (rest : List UInt8) :
    ∃ a tail, utf8EncodeChar ch = a :: tail ∧
      scan a (tail ++ rest) = .char ch (utf8EncodeChar ch).length := by
  have hvalid := val_valid ch
  have hself := ofNat_val ch
  generalize hv : ch.val.toNat = v at hvalid hself
  unfold utf8EncodeChar
  rw [hv]
  dsimp only
  by_cases h1 : v ≤ 0x7f
  · rw [if_pos h1]
    refine ⟨_, _, rfl, ?_⟩
    have ha : (UInt8.ofNat v).toNat = v := toNat_byte (by omega)
    rw [scan_one (by omega), ha, hself]
    rfl
  · rw [if_neg h1]
    by_cases h2 : v ≤ 0x7ff
    · rw [if_pos h2]
      refine ⟨_, _, rfl, ?_⟩
      generalize hab : UInt8.ofNat (v / 64 % 0x20 + 0xc0) = a
      generalize hbb : UInt8.ofNat (v % 0x40 + 0x80) = b
      have ha : a.toNat = v / 64 % 0x20 + 0xc0 := by rw [← hab, toNat_byte (by omega)]
      have hb : b.toNat = v % 0x40 + 0x80 := by rw [← hbb, toNat_byte (by omega)]
      have hchar : char2 a b = ch := by
        refine Eq.trans (congrArg Char.ofNat ?_) hself
        omega
      rw [scan_two (by omega)]
      dsimp only [List.cons_append]
      rw [if_pos (continues_iff.2 (by omega)), hchar]
      rfl
    · rw [if_neg h2]
      by_cases h3 : v ≤ 0xffff
      · rw [if_pos h3]
        refine ⟨_, _, rfl, ?_⟩
        generalize hab : UInt8.ofNat (v / 4096 % 0x10 + 0xe0) = a
        generalize hbb : UInt8.ofNat (v / 64 % 0x40 + 0x80) = b
        generalize hcb : UInt8.ofNat (v % 0x40 + 0x80) = c
        have ha : a.toNat = v / 4096 % 0x10 + 0xe0 := by rw [← hab, toNat_byte (by omega)]
        have hb : b.toNat = v / 64 % 0x40 + 0x80 := by rw [← hbb, toNat_byte (by omega)]
        have hc : c.toNat = v % 0x40 + 0x80 := by rw [← hcb, toNat_byte (by omega)]
        have hchar : char3 a b c = ch := by
          refine Eq.trans (congrArg Char.ofNat ?_) hself
          omega
        rw [scan_three (by omega)]
        dsimp only [List.cons_append]
        rw [if_pos (second3_iff.2 (by omega)), if_pos (continues_iff.2 (by omega)), hchar]
        rfl
      · rw [if_neg h3]
        refine ⟨_, _, rfl, ?_⟩
        generalize hab : UInt8.ofNat (v / 262144 % 0x08 + 0xf0) = a
        generalize hbb : UInt8.ofNat (v / 4096 % 0x40 + 0x80) = b
        generalize hcb : UInt8.ofNat (v / 64 % 0x40 + 0x80) = c
        generalize hdb : UInt8.ofNat (v % 0x40 + 0x80) = d
        have ha : a.toNat = v / 262144 % 0x08 + 0xf0 := by rw [← hab, toNat_byte (by omega)]
        have hb : b.toNat = v / 4096 % 0x40 + 0x80 := by rw [← hbb, toNat_byte (by omega)]
        have hc : c.toNat = v / 64 % 0x40 + 0x80 := by rw [← hcb, toNat_byte (by omega)]
        have hd : d.toNat = v % 0x40 + 0x80 := by rw [← hdb, toNat_byte (by omega)]
        have hchar : char4 a b c d = ch := by
          refine Eq.trans (congrArg Char.ofNat ?_) hself
          omega
        rw [scan_four (by omega)]
        dsimp only [List.cons_append]
        rw [if_pos (second4_iff.2 (by omega)), if_pos (continues_iff.2 (by omega)),
          if_pos (continues_iff.2 (by omega)), hchar]
        rfl

/-- The bytes of a character of two. -/
theorem encode_char2 (ha : 0xC2 ≤ a.toNat ∧ a.toNat < 0xE0) (hb : continues b = true) :
    utf8EncodeChar (char2 a b) = [a, b] := by
  rw [continues_iff] at hb
  have hv : (char2 a b).val.toNat = (a.toNat - 0xC0) * 64 + (b.toNat - 0x80) :=
    val_ofNat (by omega)
  unfold utf8EncodeChar
  rw [hv]
  dsimp only
  rw [if_neg (by omega), if_pos (by omega), byte_eq (a := a) (by omega),
    byte_eq (a := b) (by omega)]

/-- The bytes of a character of three. -/
theorem encode_char3 (ha : 0xE0 ≤ a.toNat ∧ a.toNat < 0xF0) (hb : second3 a b = true)
    (hc : continues c = true) : utf8EncodeChar (char3 a b c) = [a, b, c] := by
  rw [continues_iff] at hc
  rw [second3_iff] at hb
  have hv : (char3 a b c).val.toNat =
      (a.toNat - 0xE0) * 4096 + (b.toNat - 0x80) * 64 + (c.toNat - 0x80) :=
    val_ofNat (by omega)
  unfold utf8EncodeChar
  rw [hv]
  dsimp only
  rw [if_neg (by omega), if_neg (by omega), if_pos (by omega), byte_eq (a := a) (by omega),
    byte_eq (a := b) (by omega), byte_eq (a := c) (by omega)]

/-- The bytes of a character of four. -/
theorem encode_char4 (ha : 0xF0 ≤ a.toNat ∧ a.toNat < 0xF5) (hb : second4 a b = true)
    (hc : continues c = true) (hd : continues d = true) :
    utf8EncodeChar (char4 a b c d) = [a, b, c, d] := by
  rw [continues_iff] at hc hd
  rw [second4_iff] at hb
  have hv : (char4 a b c d).val.toNat =
      (a.toNat - 0xF0) * 262144 + (b.toNat - 0x80) * 4096 + (c.toNat - 0x80) * 64 +
        (d.toNat - 0x80) :=
    val_ofNat (by omega)
  unfold utf8EncodeChar
  rw [hv]
  dsimp only
  rw [if_neg (by omega), if_neg (by omega), if_neg (by omega), byte_eq (a := a) (by omega),
    byte_eq (a := b) (by omega), byte_eq (a := c) (by omega), byte_eq (a := d) (by omega)]

/-- The byte of an ASCII character. -/
theorem encode_char1 (ha : a.toNat < 0x80) : utf8EncodeChar (Char.ofNat a.toNat) = [a] := by
  have hv : (Char.ofNat a.toNat).val.toNat = a.toNat := val_ofNat (by omega)
  unfold utf8EncodeChar
  rw [hv]
  dsimp only
  rw [if_pos (by omega), byte_eq (a := a) (by omega)]

/-- A character found is encoded here. -/
theorem encode_of_scan (h : scan a rest = .char ch n) :
    utf8EncodeChar ch <+: a :: rest ∧ n = (utf8EncodeChar ch).length := by
  by_cases h1 : a.toNat < 0x80
  · rw [scan_one h1] at h
    cases h
    rw [encode_char1 h1]
    exact ⟨List.cons_prefix_cons.2 ⟨rfl, List.nil_prefix⟩, rfl⟩
  · by_cases h2 : 0xC2 ≤ a.toNat ∧ a.toNat < 0xE0
    · rw [scan_two h2] at h
      cases rest with
      | nil => cases h
      | cons b rest =>
        dsimp only at h
        split at h
        · rename_i hb
          obtain ⟨rfl, rfl⟩ := Scan.char.inj h
          rw [encode_char2 h2 hb]
          exact ⟨⟨rest, rfl⟩, rfl⟩
        · cases h
    · by_cases h3 : 0xE0 ≤ a.toNat ∧ a.toNat < 0xF0
      · rw [scan_three h3] at h
        match rest, h with
        | b :: c :: rest, h =>
          dsimp only at h
          split at h
          · rename_i hb
            split at h
            · rename_i hc
              obtain ⟨rfl, rfl⟩ := Scan.char.inj h
              rw [encode_char3 h3 hb hc]
              exact ⟨⟨rest, rfl⟩, rfl⟩
            · cases h
          · cases h
        | [b], h =>
          dsimp only at h
          split at h <;> cases h
      · by_cases h4 : 0xF0 ≤ a.toNat ∧ a.toNat < 0xF5
        · rw [scan_four h4] at h
          match rest, h with
          | b :: c :: d :: rest, h =>
            dsimp only at h
            split at h
            · rename_i hb
              split at h
              · rename_i hc
                split at h
                · rename_i hd
                  obtain ⟨rfl, rfl⟩ := Scan.char.inj h
                  rw [encode_char4 h4 hb hc hd]
                  exact ⟨⟨rest, rfl⟩, rfl⟩
                · cases h
              · cases h
            · cases h
          | [b, c], h =>
            dsimp only at h
            split at h
            · split at h <;> cases h
            · cases h
          | [b], h =>
            dsimp only at h
            split at h <;> cases h
        · rw [scan_other (by omega)] at h
          cases h

/-- A character encoded here is found. -/
theorem scan_of_encode (h : utf8EncodeChar ch <+: a :: rest) :
    scan a rest = .char ch (utf8EncodeChar ch).length := by
  obtain ⟨more, hmore⟩ := h
  obtain ⟨a', tail, hcode, hscan⟩ := scan_encode ch more
  rw [hcode, List.cons_append] at hmore
  obtain ⟨rfl, rfl⟩ := List.cons.inj hmore
  exact hscan

/-- The byte 0x80. -/
theorem continues_mid : continues 0x80 = true := by decide

/-- What follows a sequence that the bytes end inside may complete it, and not
to U+FFFD. -/
theorem scan_incomplete (h : scan a rest = .incomplete) :
    ∃ more ch, scan a (rest ++ more) = .char ch (1 + rest.length + more.length) ∧
      ch.val.toNat % 64 = 0 := by
  have hmid : (0x80 : UInt8).toNat = 0x80 := rfl
  by_cases h1 : a.toNat < 0x80
  · rw [scan_one h1] at h
    cases h
  · by_cases h2 : 0xC2 ≤ a.toNat ∧ a.toNat < 0xE0
    · rw [scan_two h2] at h
      match rest, h with
      | [], _ =>
        refine ⟨[0x80], char2 a 0x80, ?_, ?_⟩
        · rw [scan_two h2]
          simp only [List.nil_append, continues_mid, if_true, List.length_nil,
            List.length_singleton]
        · unfold char2
          rw [val_ofNat (by omega)]
          omega
      | b :: rest, h =>
        dsimp only at h
        split at h <;> cases h
    · by_cases h3 : 0xE0 ≤ a.toNat ∧ a.toNat < 0xF0
      · -- a second byte that is allowed, and then the byte 0x80
        have hlast : ∀ b, second3 a b = true →
            scan a [b, 0x80] = .char (char3 a b 0x80) 3 ∧
              (char3 a b 0x80).val.toNat % 64 = 0 := by
          intro b hb
          refine ⟨?_, ?_⟩
          · rw [scan_three h3]
            simp only [hb, continues_mid, if_true]
          · rw [second3_iff] at hb
            unfold char3
            rw [val_ofNat (by omega)]
            omega
        rw [scan_three h3] at h
        match rest, h with
        | [], _ =>
          by_cases he : a.toNat = 0xE0
          · obtain ⟨hscan, hval⟩ := hlast 0xA0 (second3_iff.2 (by
              rw [show (0xA0 : UInt8).toNat = 0xA0 from rfl]
              omega))
            exact ⟨[0xA0, 0x80], _, hscan, hval⟩
          · obtain ⟨hscan, hval⟩ := hlast 0x80 (second3_iff.2 (by omega))
            exact ⟨[0x80, 0x80], _, hscan, hval⟩
        | [b], h =>
          dsimp only at h
          split at h
          · rename_i hb
            obtain ⟨hscan, hval⟩ := hlast b hb
            exact ⟨[0x80], _, hscan, hval⟩
          · cases h
        | b :: c :: rest, h =>
          dsimp only at h
          split at h
          · split at h <;> cases h
          · cases h
      · by_cases h4 : 0xF0 ≤ a.toNat ∧ a.toNat < 0xF5
        · have hlast : ∀ b c, second4 a b = true → continues c = true →
              scan a [b, c, 0x80] = .char (char4 a b c 0x80) 4 ∧
                (char4 a b c 0x80).val.toNat % 64 = 0 := by
            intro b c hb hc
            refine ⟨?_, ?_⟩
            · rw [scan_four h4]
              simp only [hb, hc, continues_mid, if_true]
            · rw [second4_iff] at hb
              rw [continues_iff] at hc
              unfold char4
              rw [val_ofNat (by omega)]
              omega
          rw [scan_four h4] at h
          match rest, h with
          | [], _ =>
            by_cases he : a.toNat = 0xF0
            · obtain ⟨hscan, hval⟩ := hlast 0x90 0x80 (second4_iff.2 (by
                rw [show (0x90 : UInt8).toNat = 0x90 from rfl]
                omega)) continues_mid
              exact ⟨[0x90, 0x80, 0x80], _, hscan, hval⟩
            · obtain ⟨hscan, hval⟩ := hlast 0x80 0x80 (second4_iff.2 (by omega)) continues_mid
              exact ⟨[0x80, 0x80, 0x80], _, hscan, hval⟩
          | [b], h =>
            dsimp only at h
            split at h
            · rename_i hb
              obtain ⟨hscan, hval⟩ := hlast b 0x80 hb continues_mid
              exact ⟨[0x80, 0x80], _, hscan, hval⟩
            · cases h
          | [b, c], h =>
            dsimp only at h
            split at h
            · rename_i hb
              split at h
              · rename_i hc
                obtain ⟨hscan, hval⟩ := hlast b c hb hc
                exact ⟨[0x80], _, hscan, hval⟩
              · cases h
            · cases h
          | b :: c :: d :: rest, h =>
            dsimp only at h
            split at h
            · split at h
              · split at h <;> cases h
              · cases h
            · cases h
        · rw [scan_other (by omega)] at h
          cases h

/-- Where a byte cannot follow, the ones before it are one byte or incomplete,
and whatever comes after it does not matter. -/
theorem scan_invalid (h : scan a rest = .invalid n) :
    0 < n ∧ n ≤ rest.length + 1 ∧
      (n = 1 ∨ scan a (rest.take (n - 1)) = .incomplete) ∧
      ∀ more, rest.take n <+: more → scan a more = .invalid n := by
  by_cases h1 : a.toNat < 0x80
  · rw [scan_one h1] at h
    cases h
  · by_cases h2 : 0xC2 ≤ a.toNat ∧ a.toNat < 0xE0
    · rw [scan_two h2] at h
      match rest, h with
      | b :: rest, h =>
        dsimp only at h
        split at h
        · cases h
        · rename_i hb
          cases h
          refine ⟨by omega, by simp, Or.inl rfl, ?_⟩
          rintro more ⟨tail, rfl⟩
          rw [scan_two h2]
          simp [hb]
    · by_cases h3 : 0xE0 ≤ a.toNat ∧ a.toNat < 0xF0
      · rw [scan_three h3] at h
        match rest, h with
        | b :: rest, h =>
          dsimp only at h
          split at h
          · rename_i hb
            match rest, h with
            | c :: rest, h =>
              dsimp only at h
              split at h
              · cases h
              · rename_i hc
                cases h
                refine ⟨by omega, by simp, Or.inr ?_, ?_⟩
                · rw [scan_three h3]
                  simp [hb]
                · rintro more ⟨tail, rfl⟩
                  rw [scan_three h3]
                  simp [hb, hc]
          · rename_i hb
            cases h
            refine ⟨by omega, by simp, Or.inl rfl, ?_⟩
            rintro more ⟨tail, rfl⟩
            rw [scan_three h3]
            simp [hb]
      · by_cases h4 : 0xF0 ≤ a.toNat ∧ a.toNat < 0xF5
        · rw [scan_four h4] at h
          match rest, h with
          | b :: rest, h =>
            dsimp only at h
            split at h
            · rename_i hb
              match rest, h with
              | c :: rest, h =>
                dsimp only at h
                split at h
                · rename_i hc
                  match rest, h with
                  | d :: rest, h =>
                    dsimp only at h
                    split at h
                    · cases h
                    · rename_i hd
                      cases h
                      refine ⟨by omega, by simp, Or.inr ?_, ?_⟩
                      · rw [scan_four h4]
                        simp [hb, hc]
                      · rintro more ⟨tail, rfl⟩
                        rw [scan_four h4]
                        simp [hb, hc, hd]
                · rename_i hc
                  cases h
                  refine ⟨by omega, by simp, Or.inr ?_, ?_⟩
                  · rw [scan_four h4]
                    simp [hb]
                  · rintro more ⟨tail, rfl⟩
                    rw [scan_four h4]
                    simp [hb, hc]
            · rename_i hb
              cases h
              refine ⟨by omega, by simp, Or.inl rfl, ?_⟩
              rintro more ⟨tail, rfl⟩
              rw [scan_four h4]
              simp [hb]
        · rw [scan_other (by omega)] at h
          cases h
          refine ⟨by omega, by omega, Or.inl rfl, ?_⟩
          intro more _
          exact scan_other (by omega)

end Bytes

end Mstar.Utf8
