import Mstar.PrefixDecoders
import Mstar.Utf8Sequences

/-!
# Incremental decoding does not depend on the cuts

The stream is a decoder that reads one character or one invalid subpart at a
time, so what its pieces put out is the lossy decoding of their bytes.
-/

namespace Mstar.Utf8

open String (utf8EncodeChar)
open PrefixDecoders (Decoder)

/-- A character, or U+FFFD for an invalid subpart. -/
def readChar : List UInt8 → Option (Char × ℕ)
  | [] => none
  | a :: rest =>
    match scan a rest with
    | .char c n => some (c, n)
    | .invalid n => some (replacement, n)
    | .incomplete => none

section Reads

variable {a : UInt8} {rest bs part more : List UInt8} {c : Char} {n : ℕ} {out : List Char}

/-- A letter is read as it is scanned. -/
theorem readChar_cons (a : UInt8) (rest : List UInt8) :
    readChar (a :: rest) =
      match scan a rest with
      | .char c n => some (c, n)
      | .invalid n => some (replacement, n)
      | .incomplete => none := rfl

/-- It is scanned, or replaced. -/
theorem readChar_eq_some (h : readChar (a :: rest) = some (c, n)) :
    scan a rest = .char c n ∨ scan a rest = .invalid n ∧ c = replacement := by
  rw [readChar_cons] at h
  split at h
  · rename_i c' n' hscan
    obtain ⟨rfl, rfl⟩ := Prod.mk.inj (Option.some.inj h)
    exact Or.inl hscan
  · rename_i n' hscan
    obtain ⟨rfl, rfl⟩ := Prod.mk.inj (Option.some.inj h)
    exact Or.inr ⟨hscan, rfl⟩
  · cases h

/-- Else it is incomplete. -/
theorem readChar_eq_none (h : readChar (a :: rest) = none) : scan a rest = .incomplete := by
  rw [readChar_cons] at h
  split at h
  · cases h
  · cases h
  · assumption

/-- Characters and subparts, one at a time. -/
def decoder : Decoder UInt8 Char where
  read := readChar
  pos := by
    intro bs c n h
    cases bs with
    | nil => cases h
    | cons a rest =>
      rcases readChar_eq_some h with hscan | ⟨hscan, -⟩
      · obtain ⟨a', tail, hcode, -⟩ := scan_encode c []
        rw [(encode_of_scan hscan).2, hcode]
        exact Nat.succ_pos _
      · exact (scan_invalid hscan).1
  le := by
    intro bs c n h
    cases bs with
    | nil => cases h
    | cons a rest =>
      rcases readChar_eq_some h with hscan | ⟨hscan, -⟩
      · obtain ⟨hcode, hlen⟩ := encode_of_scan hscan
        rw [hlen]
        exact hcode.length_le
      · exact (scan_invalid hscan).2.1
  stable := by
    intro bs r more h
    cases bs with
    | nil => cases h
    | cons a rest =>
      obtain ⟨c, n⟩ := r
      have hsame : scan a (rest ++ more) = scan a rest := by
        rcases readChar_eq_some h with hscan | ⟨hscan, -⟩
        · obtain ⟨hcode, hlen⟩ := encode_of_scan hscan
          have hmore := hcode.trans (List.prefix_append (a :: rest) more)
          rw [List.cons_append] at hmore
          rw [scan_of_encode hmore, hscan, hlen]
        · rw [hscan]
          refine (scan_invalid hscan).2.2.2 _ ?_
          exact (List.take_prefix _ _).trans (List.prefix_append _ _)
      have hread : readChar (a :: (rest ++ more)) = readChar (a :: rest) := by
        rw [readChar_cons, readChar_cons, hsame]
      rw [List.cons_append, hread]
      exact h

/-- A sequence that the bytes end inside begins a character. -/
theorem begun_of_incomplete (h : scan a rest = .incomplete) :
    Begun (a :: rest) ∧ rest.length < 3 := by
  obtain ⟨more, c, hscan, -⟩ := scan_incomplete h
  obtain ⟨hcode, hlen⟩ := encode_of_scan hscan
  have heq : utf8EncodeChar c = a :: (rest ++ more) := by
    refine hcode.eq_of_length ?_
    rw [← hlen, List.length_cons, List.length_append]
    omega
  have hfour : (utf8EncodeChar c).length ≤ 4 := by
    rw [String.length_utf8EncodeChar]
    exact Char.utf8Size_le_four c
  have hne : more.length ≠ 0 := by
    intro hnil
    rw [List.length_eq_zero_iff.1 hnil, List.append_nil, h] at hscan
    cases hscan
  refine ⟨⟨c, ?_⟩, by omega⟩
  rw [heq]
  exact ⟨more, rfl⟩

/-- An incomplete tail is one subpart. -/
theorem subpart_of_incomplete (h : scan a rest = .incomplete) :
    InvalidSubpart (a :: rest) [] where
  nonempty := List.cons_ne_nil _ _
  uncoded := by
    intro c hcode
    rw [List.append_nil] at hcode
    rw [scan_of_encode hcode] at h
    cases h
  begun := Or.inr (begun_of_incomplete h).1
  longest := by
    intro more hne hmore
    exact absurd (List.prefix_nil.1 hmore) hne

/-- The bytes before one that cannot follow are one subpart. -/
theorem subpart_of_invalid (h : scan a rest = .invalid n) :
    InvalidSubpart ((a :: rest).take n) ((a :: rest).drop n) := by
  obtain ⟨hpos, hle, hbegun, hstable⟩ := scan_invalid h
  obtain ⟨m, rfl⟩ : ∃ m, n = m + 1 := ⟨n - 1, by omega⟩
  constructor
  · rw [List.take_succ_cons]
    exact List.cons_ne_nil _ _
  · intro c hcode
    rw [List.take_append_drop] at hcode
    rw [scan_of_encode hcode] at h
    cases h
  · rcases hbegun with hone | hinc
    · left
      rw [hone]
      rfl
    · right
      rw [List.take_succ_cons]
      exact (begun_of_incomplete hinc).1
  · rintro more hne hmore ⟨c, hcode⟩
    obtain ⟨tail, htail⟩ := hcode
    rw [List.take_succ_cons, List.drop_succ_cons] at *
    -- the encoded character would go on with the byte that cannot follow
    have hfollows : rest.take (m + 1) <+: rest.take m ++ more := by
      obtain ⟨more', hmore'⟩ := hmore
      have hrest : rest = rest.take m ++ (more ++ more') := by
        rw [hmore', List.take_append_drop]
      have hlen : m + 1 ≤ (rest.take m ++ more).length := by
        have hpos := List.length_pos_of_ne_nil hne
        have hm : (rest.take m).length = m := by
          rw [List.length_take]
          omega
        rw [List.length_append, hm]
        omega
      have htake : rest.take (m + 1) = (rest.take m ++ more).take (m + 1) := by
        conv_lhs => rw [hrest, ← List.append_assoc]
        exact List.take_append_of_le_length hlen
      rw [htake]
      exact List.take_prefix _ _
    have hscan : scan a (rest.take m ++ more ++ tail) = .invalid (m + 1) :=
      hstable _ (hfollows.trans (List.prefix_append _ _))
    have hchar : scan a (rest.take m ++ more ++ tail) =
        .char c (utf8EncodeChar c).length := by
      refine scan_of_encode ?_
      rw [← htail]
      exact List.prefix_rfl
    rw [hscan] at hchar
    cases hchar

/-- The longest invalid part is one. -/
theorem InvalidSubpart.le {part' rest' : List UInt8} (h : InvalidSubpart part rest)
    (h' : InvalidSubpart part' rest') (heq : part ++ rest = part' ++ rest') :
    part'.length ≤ part.length := by
  by_contra hlt
  have hprefix : part <+: part' :=
    List.prefix_of_prefix_length_le ⟨rest, rfl⟩ ⟨rest', heq.symm⟩ (by omega)
  obtain ⟨more, rfl⟩ := hprefix
  have hpos := List.length_pos_of_ne_nil h.nonempty
  rw [List.length_append] at hlt
  refine h.longest more ?_ ?_ ?_
  · intro hnil
    rw [hnil] at hlt
    simp at hlt
  · rw [List.append_assoc] at heq
    exact ⟨rest', (List.append_cancel_left heq).symm⟩
  · rcases h'.begun with hone | hbegun
    · rw [List.length_append] at hone
      omega
    · exact hbegun

/-- There is one maximal subpart. -/
theorem InvalidSubpart.unique {part' rest' : List UInt8} (h : InvalidSubpart part rest)
    (h' : InvalidSubpart part' rest') (heq : part ++ rest = part' ++ rest') :
    part = part' ∧ rest = rest' := by
  have hle := h.le h' heq
  have hle' := h'.le h heq.symm
  exact List.append_inj heq (by omega)

end Reads

/-- What a tail makes when the stream ends. -/
def finish : List UInt8 → List Char
  | [] => []
  | _ :: _ => [replacement]

open PrefixDecoders.Decoder

section Lossy

variable {a : UInt8} {rest bs : List UInt8} {out : List Char}

/-- The lossy decoding is what the decoder reads. -/
theorem lossyChunks_eq {fuel : ℕ} (h : bs.length ≤ fuel) :
    lossyChunks fuel bs = decoder.whole finish bs := by
  induction fuel generalizing bs with
  | zero =>
    rw [List.length_eq_zero_iff.1 (by omega : bs.length = 0)]
    rfl
  | succ fuel ih =>
    cases bs with
    | nil => rfl
    | cons a rest =>
      have hstep : ∀ c n, decoder.read (a :: rest) = some (c, n) →
          lossyChunks fuel ((a :: rest).drop n) =
            decoder.whole finish ((a :: rest).drop n) := by
        intro c n hread
        have hpos := decoder.pos hread
        refine ih ?_
        rw [List.length_drop]
        omega
      unfold lossyChunks
      cases hscan : scan a rest with
      | char c n =>
        have hread : decoder.read (a :: rest) = some (c, n) := by
          show readChar (a :: rest) = _
          rw [readChar_cons, hscan]
        dsimp only
        rw [hstep c n hread]
        unfold whole
        rw [run_of_some hread]
        rfl
      | invalid n =>
        have hread : decoder.read (a :: rest) = some (replacement, n) := by
          show readChar (a :: rest) = _
          rw [readChar_cons, hscan]
        dsimp only
        rw [hstep replacement n hread]
        unfold whole
        rw [run_of_some hread]
        rfl
      | incomplete =>
        have hread : decoder.read (a :: rest) = none := by
          show readChar (a :: rest) = _
          rw [readChar_cons, hscan]
        unfold whole
        rw [run_of_none hread]
        rfl

/-- Decoding at once is reading it whole. -/
theorem fromUtf8Lossy_eq (bs : List UInt8) : fromUtf8Lossy bs = decoder.whole finish bs :=
  lossyChunks_eq (Nat.le_refl _)

/-- The decoder gives the lossy decoding. -/
theorem lossy_whole (bs : List UInt8) : Lossy bs (decoder.whole finish bs) := by
  induction hlen : bs.length using Nat.strongRecOn generalizing bs with
  | _ k ih =>
    cases bs with
    | nil => exact Lossy.nil
    | cons a rest =>
      cases hread : decoder.read (a :: rest) with
      | none =>
        have hscan := readChar_eq_none hread
        have hpart := Lossy.invalid (subpart_of_incomplete hscan) Lossy.nil
        unfold whole
        rw [run_of_none hread]
        rw [List.append_nil] at hpart
        exact hpart
      | some r =>
        obtain ⟨c, n⟩ := r
        have hpos := decoder.pos hread
        have hle := decoder.le hread
        have hlt : ((a :: rest).drop n).length < k := by
          rw [List.length_drop]
          omega
        have hrest := ih _ hlt _ rfl
        have hwhole : decoder.whole finish (a :: rest) =
            c :: decoder.whole finish ((a :: rest).drop n) := by
          unfold whole
          rw [run_of_some hread]
          rfl
        rw [hwhole]
        rcases readChar_eq_some hread with hscan | ⟨hscan, rfl⟩
        · obtain ⟨⟨tail, htail⟩, hn⟩ := encode_of_scan hscan
          have hdrop : (a :: rest).drop n = tail := by
            rw [← htail, hn, List.drop_left]
          rw [hdrop] at hrest ⊢
          rw [← htail]
          exact Lossy.char c hrest
        · have hall := Lossy.invalid (subpart_of_invalid hscan) hrest
          rwa [List.take_append_drop] at hall

/-- There is one lossy decoding. -/
theorem Lossy.unique (h : Lossy bs out) : out = decoder.whole finish bs := by
  induction h with
  | nil => rfl
  | @char c rest out h ih =>
    obtain ⟨a, tail, hcode, hscan⟩ := scan_encode c rest
    have hread : decoder.read (utf8EncodeChar c ++ rest) =
        some (c, (utf8EncodeChar c).length) := by
      rw [hcode, List.cons_append] at *
      show readChar (a :: (tail ++ rest)) = _
      rw [readChar_cons, hscan]
    unfold whole
    rw [run_of_some hread, List.drop_left]
    unfold whole at ih
    rw [ih]
    rfl
  | @invalid part rest out hpart h ih =>
    cases hbytes : part ++ rest with
    | nil => exact absurd (List.append_eq_nil_iff.1 hbytes).1 hpart.nonempty
    | cons a tail =>
      cases hread : decoder.read (a :: tail) with
      | none =>
        obtain ⟨hp, hr⟩ := hpart.unique (subpart_of_incomplete (readChar_eq_none hread))
          (by rw [hbytes, List.append_nil])
        subst hr
        unfold whole
        rw [run_of_none hread, ih]
        rfl
      | some r =>
        obtain ⟨c, n⟩ := r
        rcases readChar_eq_some hread with hscan | ⟨hscan, rfl⟩
        · refine absurd (encode_of_scan hscan).1 ?_
          rw [← hbytes]
          exact hpart.uncoded c
        · obtain ⟨hp, hr⟩ := hpart.unique (subpart_of_invalid hscan)
            (by rw [hbytes, List.take_append_drop])
          unfold whole
          rw [run_of_some hread, ← hr, ih]
          rfl

end Lossy

section Feeds

variable {bs : List UInt8} {s : List Char} {e : Utf8Error} {fuel : ℕ}

/-- As many rounds as there are bytes are enough. -/
theorem validate_of_le {fuel' : ℕ} (h : bs.length ≤ fuel) (h' : bs.length ≤ fuel') :
    validate fuel bs = validate fuel' bs := by
  induction fuel generalizing fuel' bs with
  | zero =>
    rw [List.length_eq_zero_iff.1 (by omega : bs.length = 0)]
    cases fuel' <;> rfl
  | succ fuel ih =>
    cases bs with
    | nil => cases fuel' <;> rfl
    | cons a rest =>
      cases fuel' with
      | zero => cases h'
      | succ fuel' =>
        unfold validate
        cases hscan : scan a rest with
        | char c n =>
          have hread : decoder.read (a :: rest) = some (c, n) := by
            show readChar (a :: rest) = _
            rw [readChar_cons, hscan]
          have hpos := decoder.pos hread
          have hrest : validate fuel ((a :: rest).drop n) =
              validate fuel' ((a :: rest).drop n) := by
            refine ih ?_ ?_
            · rw [List.length_drop]
              omega
            · rw [List.length_drop]
              omega
          dsimp only
          rw [hrest]
        | invalid n => rfl
        | incomplete => rfl

/-- Bytes without an error are read to their end. -/
theorem run_of_validate (h : bs.length ≤ fuel) (hok : validate fuel bs = .ok s) :
    decoder.run bs = (s, []) := by
  induction fuel generalizing bs s with
  | zero =>
    rw [List.length_eq_zero_iff.1 (by omega : bs.length = 0)] at hok ⊢
    cases hok
    rfl
  | succ fuel ih =>
    cases bs with
    | nil =>
      cases hok
      rfl
    | cons a rest =>
      unfold validate at hok
      cases hscan : scan a rest with
      | char c n =>
        have hread : decoder.read (a :: rest) = some (c, n) := by
          show readChar (a :: rest) = _
          rw [readChar_cons, hscan]
        have hpos := decoder.pos hread
        rw [hscan] at hok
        dsimp only at hok
        cases hrest : validate fuel ((a :: rest).drop n) with
        | error e =>
          rw [hrest] at hok
          cases hok
        | ok s' =>
          rw [hrest] at hok
          cases hok
          have hrun := ih (by rw [List.length_drop]; omega) hrest
          rw [run_of_some hread, hrun]
      | invalid n =>
        rw [hscan] at hok
        cases hok
      | incomplete =>
        rw [hscan] at hok
        cases hok

/-- A character found stays found when the bytes end with it. -/
theorem scan_take {a : UInt8} {rest : List UInt8} {c : Char} {n m : ℕ}
    (h : scan a rest = .char c n) (hm : n ≤ m + 1) : scan a (rest.take m) = .char c n := by
  obtain ⟨hcode, hn⟩ := encode_of_scan h
  rw [hn]
  refine scan_of_encode ?_
  rw [← List.take_succ_cons]
  refine (List.prefix_take_iff.2 ⟨hcode, ?_⟩)
  omega

/-- Bytes with an error are valid up to it, and there an invalid subpart is
read, or nothing. -/
theorem run_of_error (h : bs.length ≤ fuel) (herror : validate fuel bs = .error e) :
    ∃ s, fromUtf8 (bs.take e.validUpTo) = .ok s ∧
      decoder.run bs = (s ++ (decoder.run (bs.drop e.validUpTo)).1,
        (decoder.run (bs.drop e.validUpTo)).2) ∧
      (match e.errorLen with
        | some n => decoder.read (bs.drop e.validUpTo) = some (replacement, n)
        | none => decoder.read (bs.drop e.validUpTo) = none ∧ bs.drop e.validUpTo ≠ []) := by
  induction fuel generalizing bs e with
  | zero => cases herror
  | succ fuel ih =>
    cases bs with
    | nil => cases herror
    | cons a rest =>
      unfold validate at herror
      cases hscan : scan a rest with
      | char c n =>
        have hread : decoder.read (a :: rest) = some (c, n) := by
          show readChar (a :: rest) = _
          rw [readChar_cons, hscan]
        have hpos := decoder.pos hread
        rw [hscan] at herror
        dsimp only at herror
        cases hrest : validate fuel ((a :: rest).drop n) with
        | ok s' =>
          rw [hrest] at herror
          cases herror
        | error e' =>
          rw [hrest] at herror
          cases herror
          obtain ⟨s, hvalid, hrun, hfront⟩ := ih (by rw [List.length_drop]; omega) hrest
          rw [List.drop_drop] at hrun hfront
          refine ⟨c :: s, ?_, ?_, hfront⟩
          · obtain ⟨m, hm⟩ : ∃ m, n + e'.validUpTo = m + 1 := ⟨n + e'.validUpTo - 1, by omega⟩
            have htake : ((a :: rest).take (n + e'.validUpTo)).drop n =
                ((a :: rest).drop n).take e'.validUpTo := by
              rw [List.drop_take, Nat.add_sub_cancel_left]
            unfold fromUtf8 at hvalid ⊢
            rw [← htake] at hvalid
            dsimp only
            rw [hm, List.take_succ_cons] at hvalid ⊢
            rw [List.length_cons]
            unfold validate
            rw [scan_take hscan (by omega)]
            dsimp only
            have hfuel : validate (rest.take m).length ((a :: rest.take m).drop n) = .ok s := by
              rw [← hvalid]
              exact validate_of_le (by simp; omega) (Nat.le_refl _)
            rw [hfuel]
          · rw [run_of_some hread, hrun]
            rfl
      | invalid n =>
        rw [hscan] at herror
        cases herror
        refine ⟨[], rfl, rfl, ?_⟩
        show readChar (a :: rest) = _
        rw [readChar_cons, hscan]
      | incomplete =>
        rw [hscan] at herror
        cases herror
        refine ⟨[], rfl, rfl, ?_, List.cons_ne_nil _ _⟩
        show readChar (a :: rest) = _
        rw [readChar_cons, hscan]

/-- The loop of `feed` reads what the decoder does. -/
theorem feedLoop_eq (h : bs.length ≤ fuel) : Utf8Stream.feedLoop fuel bs = decoder.run bs := by
  induction fuel generalizing bs with
  | zero =>
    rw [List.length_eq_zero_iff.1 (by omega : bs.length = 0)]
    rfl
  | succ fuel ih =>
    unfold Utf8Stream.feedLoop
    by_cases hnil : bs = []
    · rw [if_pos hnil, hnil]
      rfl
    · rw [if_neg hnil]
      cases hv : fromUtf8 bs with
      | ok s =>
        rw [run_of_validate (Nat.le_refl _) hv]
      | error e =>
        obtain ⟨s, hvalid, hrun, hfront⟩ := run_of_error (Nat.le_refl _) hv
        dsimp only
        rw [hvalid, hrun]
        cases hlen : e.errorLen with
        | none =>
          rw [hlen] at hfront
          rw [run_of_none hfront.1]
          exact (congrArg (fun l => (l, bs.drop e.validUpTo)) (List.append_nil s)).symm
        | some n =>
          rw [hlen] at hfront
          have hpos := decoder.pos hfront
          have hshort : (bs.drop (e.validUpTo + n)).length ≤ fuel := by
            rw [List.length_drop]
            omega
          have hrest := ih hshort
          dsimp only
          rw [run_of_some hfront, hrest, List.drop_drop]
          rfl

/-- A stream's pieces. -/
theorem feeds_eq (s : Utf8Stream) (pieces : List (List UInt8)) (out : List Char) :
    (out ++ (s.feeds pieces).1, (s.feeds pieces).2.pending) =
      pieces.foldl decoder.feed (out, s.pending) := by
  induction pieces generalizing s out with
  | nil =>
    rw [List.foldl_nil]
    exact congrArg (fun l => (l, s.pending)) (List.append_nil out)
  | cons piece pieces ih =>
    have hfed : Utf8Stream.feedLoop (s.pending ++ piece).length (s.pending ++ piece) =
        decoder.run (s.pending ++ piece) := feedLoop_eq (Nat.le_refl _)
    have hstep : decoder.feed (out, s.pending) piece =
        (out ++ (s.feed piece).1, (s.feed piece).2.pending) := by
      unfold Decoder.feed Utf8Stream.feed
      dsimp only
      rw [hfed]
    have hfeeds : s.feeds (piece :: pieces) =
        ((s.feed piece).1 ++ ((s.feed piece).2.feeds pieces).1,
          ((s.feed piece).2.feeds pieces).2) := rfl
    rw [List.foldl_cons, hstep, ← ih, hfeeds, List.append_assoc]

/-- A tail may go on to a character other than U+FFFD. -/
theorem tail_splits (rest : List UInt8) (hne : rest ≠ []) (hread : decoder.read rest = none) :
    ∃ g more g' n, finish rest = [g] ∧ decoder.read (rest ++ more) = some (g', n) ∧ g' ≠ g := by
  cases rest with
  | nil => exact absurd rfl hne
  | cons a rest =>
    obtain ⟨more, c, hscan, hval⟩ := scan_incomplete (readChar_eq_none hread)
    refine ⟨replacement, more, c, 1 + rest.length + more.length, rfl, ?_, ?_⟩
    · show readChar (a :: (rest ++ more)) = _
      rw [readChar_cons, hscan]
    · rintro rfl
      revert hval
      decide

/-- However the bytes are cut, the stream puts out their lossy decoding, as soon
as no later byte can change it, and holds back three bytes at most. -/
theorem feeds_lossy (pieces : List (List UInt8)) :
    (∀ out, Lossy pieces.flatten out ↔
      out = (Utf8Stream.default.feeds pieces).1 ++
        (Utf8Stream.default.feeds pieces).2.flush.1) ∧
    fromUtf8Lossy pieces.flatten = (Utf8Stream.default.feeds pieces).1 ++
      (Utf8Stream.default.feeds pieces).2.flush.1 ∧
    (∀ s, s <+: (Utf8Stream.default.feeds pieces).1 ↔
      ∀ more out, Lossy (pieces.flatten ++ more) out → s <+: out) ∧
    (Utf8Stream.default.feeds pieces).2.pending.length ≤ 3 ∧
    (Utf8Stream.default.feeds pieces).2.flush.2 = Utf8Stream.default := by
  have hfeeds := feeds_eq Utf8Stream.default pieces []
  rw [Decoder.feed_pieces decoder pieces _ rfl] at hfeeds
  simp only [List.nil_append, Utf8Stream.default] at hfeeds
  obtain ⟨hout, hpending⟩ := Prod.mk.inj hfeeds
  have hrest := decoder.read_rest pieces.flatten
  have hflush : (Utf8Stream.default.feeds pieces).2.flush.1 =
      finish (decoder.run pieces.flatten).2 := by
    unfold Utf8Stream.flush Utf8Stream.default
    dsimp only
    rw [hpending, fromUtf8Lossy_eq]
    unfold whole
    rw [run_of_none hrest]
    rfl
  have hwhole : (Utf8Stream.default.feeds pieces).1 ++
      (Utf8Stream.default.feeds pieces).2.flush.1 = decoder.whole finish pieces.flatten := by
    rw [hflush]
    unfold whole Utf8Stream.default
    rw [hout]
  refine ⟨?_, ?_, ?_, ?_, rfl⟩
  · intro out
    rw [hwhole]
    constructor
    · exact Lossy.unique
    · rintro rfl
      exact lossy_whole _
  · rw [hwhole, fromUtf8Lossy_eq]
  · intro s
    have hlongest := @longest _ _ decoder finish rfl tail_splits pieces.flatten s
    unfold Utf8Stream.default
    rw [hout, hlongest]
    constructor
    · intro h more out hlossy
      rw [hlossy.unique]
      exact h more
    · intro h more
      exact h more _ (lossy_whole _)
  · unfold Utf8Stream.default
    rw [hpending]
    cases htail : (decoder.run pieces.flatten).2 with
    | nil => exact Nat.zero_le _
    | cons a rest =>
      rw [htail] at hrest
      have hlen := (begun_of_incomplete (readChar_eq_none hrest)).2
      rw [List.length_cons]
      omega

end Feeds

end Mstar.Utf8
