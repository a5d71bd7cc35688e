import Mstar.SpeechRegexes

/-!
# Two servers, the same chunks

The scanner finds the sentences that the lazy pattern matches, its clause cuts
are where the look-behind pattern splits, and the rest of the two is the same
work written twice.
-/

namespace Mstar.Speech.Python

open Patterns

/-- A closer, a blank, a terminator or a newline is what it is and nothing else. -/
theorem closer_not_space {c : Char} (h : CLOSERS.contains c = true) : isSpace c = false := by
  have hall : CLOSERS.all (fun c => !isSpace c) = true := by decide
  have hc := List.all_eq_true.1 hall c (List.contains_iff_mem.1 h)
  rwa [Bool.not_eq_true'] at hc

/-- The end of a clause is no space. -/
theorem clause_not_space {c : Char} (h : CLAUSE_ENDS.contains c = true) : isSpace c = false := by
  have hall : CLAUSE_ENDS.all (fun c => !isSpace c) = true := by decide
  have hc := List.all_eq_true.1 hall c (List.contains_iff_mem.1 h)
  rwa [Bool.not_eq_true'] at hc

/-- A Latin end is no other. -/
theorem latin_only {c : Char} (h : LATIN_ENDS.contains c = true) :
    CJK_ENDS.contains c = false ∧ (c == '\n') = false := by
  have hall : LATIN_ENDS.all (fun c => !CJK_ENDS.contains c && !(c == '\n')) = true := by decide
  have hc := List.all_eq_true.1 hall c (List.contains_iff_mem.1 h)
  rwa [Bool.and_eq_true, Bool.not_eq_true', Bool.not_eq_true'] at hc

/-- A blank is no newline. -/
theorem blank_not_newline {c : Char} (h : (c == ' ' || c == '\t') = true) :
    (c == '\n') = false := by
  rw [Bool.or_eq_true, beq_iff_eq, beq_iff_eq] at h
  rcases h with rfl | rfl
  · decide
  · decide

/-- Whitespace or the end is ahead. -/
theorem space_or_end (c : Cursor Char) :
    (Pattern.run (.lookahead (.alt (.set isSpace) .atEnd)) some c) =
      if c.ahead.isEmpty || c.ahead.head?.any isSpace then some c else none := by
  obtain ⟨behind, ahead⟩ := c
  cases ahead with
  | nil => rfl
  | cons a rest =>
    cases ha : isSpace a <;> simp [Pattern.run, ha]

/-- A paragraph break is ahead. -/
theorem paragraph_break (behind : Option Char) (rest : List Char) :
    (Patterns.greedyStar (fun c => c == ' ' || c == '\t')
        (Pattern.run (.set fun c => c == '\n') some) behind rest).isSome =
      decide ((rest.dropWhile fun c => c == ' ' || c == '\t').head? = some '\n') := by
  rw [greedyStar_only]
  · generalize rest.dropWhile _ = after
    cases after with
    | nil => rfl
    | cons a after =>
      by_cases ha : a = '\n' <;> simp [Pattern.run, ha]
  · intro behind a rest hblank
    simp [Pattern.run, blank_not_newline hblank]

/-- Where a sentence may end at a character, both say how far it goes. -/
theorem sentenceEnd_run (behind : Option Char) (c : Char) (rest : List Char) :
    (sentenceEnd.run some ⟨behind, c :: rest⟩).map Cursor.ahead =
      (endsHere (c :: rest)).map fun k => (c :: rest).drop k := by
  have hset : ∀ (p : Char → Bool) (k : Cont Char),
      (Pattern.set p).run k ⟨behind, c :: rest⟩ = if p c then k ⟨some c, rest⟩ else none :=
    fun _ _ => rfl
  have hend : Pattern.atEnd.run some ⟨behind, c :: rest⟩ = none := rfl
  have hclosers : ∀ b, Patterns.greedyStar CLOSERS.contains
      (Pattern.run (.lookahead (.alt (.set isSpace) .atEnd)) some) b rest =
        Pattern.run (.lookahead (.alt (.set isSpace) .atEnd)) some
          ⟨lastBehind b (rest.takeWhile CLOSERS.contains), rest.dropWhile CLOSERS.contains⟩ := by
    intro b
    refine greedyStar_only ?_ b rest
    intro b' a more ha
    rw [space_or_end]
    simp [closer_not_space ha]
  have hpara : (Pattern.lookahead (.seq (.set fun c => c == '\n')
      (.seq (.greedyStar fun c => c == ' ' || c == '\t') (.set fun c => c == '\n')))).run some
        ⟨behind, c :: rest⟩ =
      if (c == '\n') && decide ((rest.dropWhile fun c => c == ' ' || c == '\t').head? = some '\n')
        then some ⟨behind, c :: rest⟩ else none := by
    have hbreak := paragraph_break (some c) rest
    cases hc : c == '\n' with
    | false => simp [Pattern.run, hc]
    | true =>
      simp only [Pattern.run, hc, if_true, Bool.true_and]
      rw [← hbreak]
      rfl
  have hlatin : (Pattern.seq (.set LATIN_ENDS.contains) (.seq (.greedyStar CLOSERS.contains)
      (.lookahead (.alt (.set isSpace) .atEnd)))).run some ⟨behind, c :: rest⟩ =
      if LATIN_ENDS.contains c then
        if (rest.dropWhile CLOSERS.contains).isEmpty ||
            (rest.dropWhile CLOSERS.contains).head?.any isSpace
          then some ⟨lastBehind (some c) (rest.takeWhile CLOSERS.contains),
            rest.dropWhile CLOSERS.contains⟩
          else none
      else none := by
    have hrun := hclosers (some c)
    rw [space_or_end] at hrun
    rw [← hrun]
    rfl
  have hall : sentenceEnd.run some ⟨behind, c :: rest⟩ =
      ((Pattern.seq (.set LATIN_ENDS.contains) (.seq (.greedyStar CLOSERS.contains)
        (.lookahead (.alt (.set isSpace) .atEnd)))).run some ⟨behind, c :: rest⟩).or
      (((Pattern.set CJK_ENDS.contains).run some ⟨behind, c :: rest⟩).or
        (((Pattern.lookahead (.seq (.set fun c => c == '\n')
          (.seq (.greedyStar fun c => c == ' ' || c == '\t') (.set fun c => c == '\n')))).run some
            ⟨behind, c :: rest⟩).or (Pattern.atEnd.run some ⟨behind, c :: rest⟩))) := rfl
  rw [hall, hlatin, hpara, hend, hset, Option.or_none]
  unfold endsHere
  dsimp only
  rw [drop_length_takeWhile]
  cases hl : LATIN_ENDS.contains c with
  | true =>
    obtain ⟨hcjk, hnl⟩ := latin_only hl
    rw [hcjk, hnl]
    simp only [if_true, Bool.false_and, Bool.false_eq_true, if_false, Option.or_none]
    split
    · rw [Option.map_some, Option.map_some, Nat.add_comm, List.drop_succ_cons,
        drop_length_takeWhile]
    · rfl
  | false =>
    simp only [Bool.false_eq_true, if_false, Option.none_or]
    cases hcjk : CJK_ENDS.contains c with
    | true => rfl
    | false =>
      simp only [Bool.false_eq_true, if_false, Option.none_or]
      by_cases hnl : c = '\n'
      · rw [if_pos hnl]
        have hbeq : (c == '\n') = true := by
          rw [beq_iff_eq]
          exact hnl
        rw [hbeq, Bool.true_and]
        by_cases hb : (rest.dropWhile fun c => c == ' ' || c == '\t').head? = some '\n'
        · rw [if_pos hb, if_pos (decide_eq_true hb)]
          rfl
        · rw [if_neg hb, if_neg (by rw [decide_eq_true_eq]; exact hb)]
          rfl
      · rw [if_neg hnl]
        have hbeq : (c == '\n') = false := by
          rw [beq_eq_false_iff_ne]
          exact hnl
        rw [hbeq]
        rfl

/-- The lazy body goes as far as the scanner. -/
theorem lazy_run (behind : Option Char) (rest : List Char) :
    (Patterns.lazyStar anyChar (sentenceEnd.run some) behind rest).map Cursor.ahead =
      some (rest.drop (restOfSentence rest)) := by
  induction rest generalizing behind with
  | nil => rfl
  | cons c rest ih =>
    unfold Patterns.lazyStar restOfSentence
    rw [Option.map_or, sentenceEnd_run]
    cases endsHere (c :: rest) with
    | some k => rfl
    | none =>
      have hany : anyChar c = true := rfl
      rw [if_pos hany, Option.map_none, Option.none_or, ih, Option.getD_none, Nat.add_comm,
        List.drop_succ_cons]

/-- The matches are the sentences. -/
theorem findAll_sentences (text : List Char) (start : ℕ) (behind : Option Char) :
    SENTENCE.findAll false behind (text.drop start) =
      sentencesOf text start (sentenceEnds text start) := by
  fun_induction sentenceEnds text start generalizing behind with
  | case1 start hstart stop ih =>
    have hdrop : text.drop start = text[start] :: text.drop (start + 1) :=
      List.drop_eq_getElem_cons hstart
    have hlen : (text.drop (start + 1)).length = text.length - (start + 1) := List.length_drop
    have hle := restOfSentence_le (text.drop (start + 1))
    have hlazy := lazy_run (some text[start]) (text.drop (start + 1))
    rw [Option.map_eq_some_iff] at hlazy
    obtain ⟨c, hc, hahead⟩ := hlazy
    have hmatch : SENTENCE.matchHere false behind (text.drop start) = some c := by
      rw [hdrop, ← hc]
      rfl
    have hafter : c.ahead = text.drop stop := by
      rw [hahead, List.drop_drop]
    have htake : (text.drop start).length - c.ahead.length = stop - start := by
      rw [hafter, List.length_drop, List.length_drop]
      omega
    have hslice : (text.drop start).take (stop - start) = slice text start stop := by
      unfold slice
      rw [List.drop_take]
    have hpiece : (slice text start stop).isEmpty = false := by
      rw [← hslice, List.isEmpty_eq_false_iff, ← List.length_pos_iff, List.length_take,
        List.length_drop]
      omega
    rw [Pattern.findAll_some (Pattern.find_here hmatch)]
    dsimp only
    rw [htake, hslice, hpiece, hafter, ih]
    rfl
  | case2 start hstart =>
    rw [List.drop_eq_nil_of_le (Nat.not_lt.1 hstart)]
    exact Pattern.findAll_none (Pattern.find_end rfl)

/-- The clauses are where the look-behind pattern splits, as long as it does not
match at the first place. -/
theorem split_clauses (s : List Char) (must : Bool) (behind : Option Char)
    (h : behind.any CLAUSE_ENDS.contains = true → must = true ∧ s.head?.any isSpace = false) :
    CLAUSE_BREAK.split must behind s = clauseParts s := by
  induction hlen : s.length using Nat.strong_induction_on generalizing s must behind with
  | h len ih =>
    have hnone : CLAUSE_BREAK.matchHere must behind s = none := by
      have hrun : CLAUSE_BREAK.matchHere must behind s =
          if behind.any CLAUSE_ENDS.contains then
            Patterns.greedyStar isSpace (fun c => if must && decide (c.ahead.length = s.length)
              then none else some c) behind s
          else none := rfl
      rw [hrun]
      split
      · rename_i hbehind
        obtain ⟨hmust, hhead⟩ := h hbehind
        rw [greedyStar_stop _ behind hhead, hmust]
        simp
      · rfl
    cases s with
    | nil =>
      rw [Pattern.split_none (Pattern.find_end hnone), clauseParts]
    | cons c rest =>
      rw [Pattern.split_skip hnone, clauseParts_cons]
      cases hclause : CLAUSE_ENDS.contains c with
      | true =>
        have hmatch : CLAUSE_BREAK.matchHere false (some c) rest =
            some ⟨lastBehind (some c) (rest.takeWhile isSpace), rest.dropWhile isSpace⟩ := by
          have hrun : CLAUSE_BREAK.matchHere false (some c) rest =
              if (some c).any CLAUSE_ENDS.contains then
                Patterns.greedyStar isSpace some (some c) rest
              else none := rfl
          have hany : (some c).any CLAUSE_ENDS.contains = true := hclause
          rw [hrun, if_pos hany]
          exact greedyStar_longest rfl
        have hshort : (rest.dropWhile isSpace).length ≤ rest.length :=
          (List.dropWhile_suffix isSpace).length_le
        have hmatched : rest.take (rest.length - (rest.dropWhile isSpace).length) =
            rest.takeWhile isSpace := by
          have hsplit : rest.takeWhile isSpace ++ rest.dropWhile isSpace = rest :=
            List.takeWhile_append_dropWhile
          have hsum : (rest.takeWhile isSpace).length + (rest.dropWhile isSpace).length =
              rest.length := by
            rw [← List.length_append, hsplit]
          have hcut : rest.length - (rest.dropWhile isSpace).length =
              (rest.takeWhile isSpace).length := by omega
          rw [hcut]
          conv_lhs => rw [← hsplit]
          rw [List.takeWhile_append_dropWhile]
          conv_lhs => arg 2; rw [← hsplit]
          exact List.take_left
        rw [Pattern.split_some (Pattern.find_here hmatch), if_pos rfl, List.modifyHead_cons]
        dsimp only
        rw [hmatched]
        rw [ih (rest.dropWhile isSpace).length (by rw [← hlen, List.length_cons]; omega)
          (rest.dropWhile isSpace) _ _ ?_ rfl]
        intro hlast
        have hnil : rest.takeWhile isSpace = [] := by
          cases hrun : (rest.takeWhile isSpace).getLast? with
          | none => exact List.getLast?_eq_none_iff.1 hrun
          | some d =>
            have hspace : isSpace d = true :=
              List.mem_takeWhile_imp (List.mem_of_getLast? hrun)
            unfold lastBehind at hlast
            rw [hrun] at hlast
            have hd := clause_not_space (c := d) hlast
            rw [hspace] at hd
            cases hd
        refine ⟨by rw [hnil]; rfl, ?_⟩
        have hnot := List.head?_dropWhile_not isSpace rest
        cases hd : (rest.dropWhile isSpace).head? with
        | none => rfl
        | some d =>
          rw [hd] at hnot
          exact hnot
      | false =>
        have hvacuous : (some c).any CLAUSE_ENDS.contains = true →
            false = true ∧ rest.head?.any isSpace = false := by
          intro hc
          rw [Option.any_some, hclause] at hc
          cases hc
        rw [if_neg Bool.false_ne_true,
          ih rest.length (by rw [← hlen]; exact Nat.lt_succ_self _) rest false (some c)
            hvacuous rfl]

/-- Whitespace at the front changes no words. -/
theorem words_dropWhile (s : List Char) : words (s.dropWhile isSpace) = words s := by
  induction s with
  | nil => rfl
  | cons c s ih =>
    cases hc : isSpace c with
    | true =>
      rw [List.dropWhile_cons_of_pos hc, ih]
      unfold words
      rw [List.splitOnP_cons_eq_if_modifyHead, if_pos hc]
      rfl
    | false =>
      rw [List.dropWhile_cons_of_neg (by rw [hc]; decide)]

/-- What the pattern of spaces splits: the same first piece, and then the same
words. -/
theorem split_spaces (s : List Char) (must : Bool) (behind : Option Char) :
    ∃ first more more', SPACES.split must behind s = first :: more ∧
      s.splitOnP isSpace = first :: more' ∧
      (more.filter fun w => !w.isEmpty) = more'.filter fun w => !w.isEmpty := by
  induction hlen : s.length using Nat.strong_induction_on generalizing s must behind with
  | h len ih =>
    cases s with
    | nil => exact ⟨[], [], [], Pattern.split_none (Pattern.find_end rfl), rfl, rfl⟩
    | cons c rest =>
      have hrun : SPACES.matchHere must behind (c :: rest) =
          if isSpace c then Patterns.greedyStar isSpace (fun d =>
            if must && decide (d.ahead.length = (c :: rest).length) then none else some d)
              (some c) rest
          else none := rfl
      rw [List.splitOnP_cons_eq_if_modifyHead]
      cases hc : isSpace c with
      | true =>
        have hshort : (rest.dropWhile isSpace).length ≤ rest.length :=
          (List.dropWhile_suffix isSpace).length_le
        have hmatch : SPACES.matchHere must behind (c :: rest) =
            some ⟨lastBehind (some c) (rest.takeWhile isSpace), rest.dropWhile isSpace⟩ := by
          rw [hrun, if_pos hc]
          refine greedyStar_longest ?_
          have hmoved : ¬(rest.dropWhile isSpace).length = (c :: rest).length := by
            rw [List.length_cons]
            omega
          dsimp only
          rw [decide_eq_false hmoved, Bool.and_false]
          rfl
        obtain ⟨first, more, more', hsplit, hwords, hsame⟩ := ih (rest.dropWhile isSpace).length
          (by rw [← hlen, List.length_cons]; omega) (rest.dropWhile isSpace)
          ((c :: rest).take ((c :: rest).length - (rest.dropWhile isSpace).length)).isEmpty
          (lastBehind (some c) (rest.takeWhile isSpace)) rfl
        refine ⟨[], first :: more, rest.splitOnP isSpace, ?_, rfl, ?_⟩
        · rw [Pattern.split_some (Pattern.find_here hmatch)]
          dsimp only
          rw [hsplit]
        · have hdrop := words_dropWhile rest
          unfold words at hdrop
          rw [← hdrop, hwords, List.filter_cons, List.filter_cons, hsame]
      | false =>
        have hnone : SPACES.matchHere must behind (c :: rest) = none := by
          rw [hrun, hc]
          rfl
        obtain ⟨first, more, more', hsplit, hwords, hsame⟩ := ih rest.length
          (by rw [← hlen]; exact Nat.lt_succ_self _) rest false (some c) rfl
        refine ⟨c :: first, more, more', ?_, ?_, hsame⟩
        · rw [Pattern.split_skip hnone, hsplit]
          rfl
        · rw [if_neg Bool.false_ne_true, hwords]
          rfl

/-- Stripped, an empty part stays empty. -/
theorem strip_filter (parts : List (List Char)) :
    ((parts.map strip).filter fun p => !p.isEmpty) =
      ((parts.filter fun p => !p.isEmpty).map strip).filter fun p => !p.isEmpty := by
  induction parts with
  | nil => rfl
  | cons part parts ih =>
    cases part with
    | nil => exact ih
    | cons c part =>
      have hkept : ((c :: part) :: parts).filter (fun p => !p.isEmpty) =
          (c :: part) :: parts.filter fun p => !p.isEmpty := List.filter_cons_of_pos rfl
      rw [hkept, List.map_cons, List.map_cons, List.filter_cons, List.filter_cons, ih]

/-- Splitting at spaces gives the words, either way. -/
theorem spaces_parts (s : List Char) :
    (((SPACES.split false none s).map strip).filter fun p => !p.isEmpty) =
      ((s.splitOnP isSpace).map strip).filter fun p => !p.isEmpty := by
  obtain ⟨first, more, more', hsplit, hwords, hsame⟩ := split_spaces s false none
  rw [hsplit, hwords, List.map_cons, List.map_cons, List.filter_cons, List.filter_cons,
    strip_filter more, strip_filter more', hsame]

/-- The clauses are the same. -/
theorem clause_parts (s : List Char) : CLAUSE_BREAK.split false none s = splitClauses s := by
  rw [splitClauses_eq]
  exact split_clauses s false none fun h => by cases h

/-- The parts that are not empty, packed. -/
theorem packParts_eq (maxChars : ℕ) (current : List Char) (parts : List (List Char)) :
    packParts maxChars current parts =
      pack maxChars joinParts current (parts.filter fun p => !p.isEmpty) := by
  induction parts generalizing current with
  | nil => rfl
  | cons part parts ih =>
    cases part with
    | nil => exact ih current
    | cons c part =>
      rw [List.filter_cons_of_pos rfl]
      cases current with
      | nil => exact ih (c :: part)
      | cons d current =>
        unfold packParts pack
        have hlen : (d :: current ++ [' '] ++ c :: part).length =
            (d :: current).length + 1 + (c :: part).length := by
          rw [List.length_append, List.length_append]
          rfl
        simp only [List.isEmpty_cons, Bool.false_eq_true, if_false]
        rw [hlen, ih, ih]
        rfl

/-- Wrapping is the same where the parts are. -/
theorem wrap_eq (maxChars : ℕ) {pattern : Pattern Char} {split : List Char → List (List Char)}
    (h : ∀ s, (((pattern.split false none s).map strip).filter fun p => !p.isEmpty) =
      ((split s).map strip).filter fun p => !p.isEmpty) (pieces : List (List Char)) :
    (pieces.flatMap fun piece => if piece.length ≤ maxChars then [piece]
      else packParts maxChars [] ((pattern.split false none piece).map strip)) =
        wrap maxChars split pieces := by
  unfold wrap
  congr 1
  funext piece
  rw [packParts_eq, h]

/-- Cutting evenly is the same. -/
theorem cutEvenly_eq (isMark : Char → Bool) (maxChars : Limit) (text : List Char) :
    cutEvenly isMark maxChars text = Speech.cutEvenly isMark maxChars text := by
  fun_induction cutEvenly isMark maxChars text with
  | case1 text hlong cut ih =>
    have hcut : cut = Speech.cutAt isMark text maxChars.chars :=
      cutAt_eq isMark maxChars.positive hlong
    rw [Speech.cutEvenly, dif_pos hlong, ih, hcut]
  | case2 text hfits => rw [Speech.cutEvenly, dif_neg hfits]

/-- So is a hard wrap. -/
theorem hardWrap_eq (isMark : Char → Bool) (maxChars : Limit) (sentence : List Char) :
    hardWrap isMark maxChars sentence = Speech.hardWrap isMark maxChars sentence := by
  have hclauses : ∀ s, (((CLAUSE_BREAK.split false none s).map strip).filter
      fun p => !p.isEmpty) = ((splitClauses s).map strip).filter fun p => !p.isEmpty := by
    intro s
    rw [clause_parts]
  unfold hardWrap Speech.hardWrap
  simp only [List.foldl_cons, List.foldl_nil]
  rw [wrap_eq maxChars.chars hclauses, wrap_eq maxChars.chars spaces_parts]
  congr 1
  funext p
  rw [cutEvenly_eq]

/-- So is joining. -/
theorem join_eq : join = Speech.join := by
  funext left right
  unfold join Speech.join
  split <;> rfl

/-- Words after some text, with a space before each. -/
theorem foldl_words (ws : List (List Char)) (c : Char) (out : List Char) :
    ws.foldl (fun out word => (if out.isEmpty then out else out ++ [' ']) ++ word) (c :: out) =
      List.intercalate [' '] ((c :: out) :: ws) := by
  induction ws generalizing out with
  | nil => simp [List.intercalate]
  | cons w ws ih =>
    rw [List.foldl_cons]
    have hstep : (if (c :: out).isEmpty then c :: out else c :: out ++ [' ']) ++ w =
        c :: (out ++ [' '] ++ w) := rfl
    rw [hstep, ih]
    cases ws with
    | nil => simp [List.intercalate]
    | cons v ws => simp [List.intercalate]

/-- So is squeezing the spaces. -/
theorem squeeze_eq (s : List Char) : squeeze s = List.intercalate [' '] (words s) := by
  have hne : ∀ w ∈ words s, w ≠ [] := fun w hw => (mem_words hw).1
  unfold squeeze
  cases hw : words s with
  | nil => rfl
  | cons w ws =>
    rw [hw] at hne
    cases w with
    | nil => exact absurd rfl (hne [] List.mem_cons_self)
    | cons c out => exact foldl_words ws c out

/-- Chunking loses no text and the two servers agree: the chunks hold every
character that is not whitespace, in order, are trimmed and keep to the limit,
text that fits is one chunk, and both return the same list. -/
theorem splitSentences_eq (isMark : Char → Bool) (text : List Char) (maxChars : Limit)
    (minChars : ℕ) :
    Chunked text maxChars.chars (Speech.splitSentences isMark text maxChars minChars) ∧
      (strip text ≠ [] → (strip text).length ≤ maxChars.chars →
        Speech.splitSentences isMark text maxChars minChars = [strip text]) ∧
      splitSentences isMark text maxChars.chars minChars =
        .ok (Speech.splitSentences isMark text maxChars minChars) := by
  refine ⟨splitSentences_chunked isMark text maxChars minChars, ?_, ?_⟩
  · intro hne hfits
    unfold Speech.splitSentences
    dsimp only
    rw [if_neg (by rw [List.isEmpty_iff]; exact hne), if_pos hfits]
  · have hsentences := findAll_sentences (strip text) 0 none
    rw [List.drop_zero] at hsentences
    unfold splitSentences Speech.splitSentences
    rw [dif_pos maxChars.positive]
    dsimp only
    rw [hsentences, join_eq]
    have hpieces : (fun matched : List Char =>
        if (List.intercalate [' '] (words matched)).isEmpty then []
        else if maxChars.chars < (List.intercalate [' '] (words matched)).length
          then hardWrap isMark maxChars (List.intercalate [' '] (words matched))
        else [List.intercalate [' '] (words matched)]) =
        fun sentence => if (squeeze sentence).isEmpty then []
          else if maxChars.chars < (squeeze sentence).length
            then Speech.hardWrap isMark maxChars (squeeze sentence)
          else [squeeze sentence] := by
      funext sentence
      rw [squeeze_eq, hardWrap_eq]
    rw [hpieces]
    split
    · rfl
    · split <;> rfl

end Mstar.Speech.Python
