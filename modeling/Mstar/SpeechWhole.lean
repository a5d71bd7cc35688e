import Mstar.SpeechChunks

/-!
# No text is lost

The chunks of a text hold its characters that are not whitespace, in order,
neither start nor end with whitespace, and keep to the limit.
-/

namespace Mstar.Speech

/-- What is left behind the longest run of a set. -/
theorem drop_length_takeWhile (p : Char → Bool) (s : List Char) :
    s.drop (s.takeWhile p).length = s.dropWhile p := by
  have hsplit : s.takeWhile p ++ s.dropWhile p = s := List.takeWhile_append_dropWhile
  conv_lhs => rw [← hsplit]
  rw [List.takeWhile_append_dropWhile]
  conv_lhs => arg 2; rw [← hsplit]
  exact List.drop_left

/-- The clauses of a text, each with its mark and without the whitespace after
it. -/
def clauseParts : List Char → List (List Char)
  | [] => [[]]
  | c :: rest =>
    if CLAUSE_ENDS.contains c then [c] :: clauseParts (rest.dropWhile isSpace)
    else (clauseParts rest).modifyHead (c :: ·)
termination_by s => s.length
decreasing_by
  · have hle : (rest.dropWhile isSpace).length ≤ rest.length :=
      (List.dropWhile_suffix isSpace).length_le
    exact Nat.lt_succ_of_le hle
  · exact Nat.lt_succ_self _

/-- The clauses of a text, letter by letter. -/
theorem clauseParts_cons (c : Char) (rest : List Char) :
    clauseParts (c :: rest) =
      if CLAUSE_ENDS.contains c then [c] :: clauseParts (rest.dropWhile isSpace)
      else (clauseParts rest).modifyHead (c :: ·) := by
  rw [clauseParts]

/-- There is one at least. -/
theorem clauseParts_ne_nil (s : List Char) : clauseParts s ≠ [] := by
  fun_induction clauseParts s with
  | case1 => exact List.cons_ne_nil _ _
  | case2 c rest hclause ih => exact List.cons_ne_nil _ _
  | case3 c rest hclause ih =>
    cases h : clauseParts rest with
    | nil => exact absurd h ih
    | cons first more => exact List.cons_ne_nil _ _

/-- The clauses are the text less some whitespace. -/
theorem ink_clauseParts (s : List Char) : ink (clauseParts s).flatten = ink s := by
  fun_induction clauseParts s with
  | case1 => rfl
  | case2 c rest hclause ih =>
    rw [List.flatten_cons, ink_append, ih, ink_dropWhile, ← ink_append]
    rfl
  | case3 c rest hclause ih =>
    have hcons : c :: rest = [c] ++ rest := rfl
    rw [hcons, ink_append, ← ih]
    cases h : clauseParts rest with
    | nil => exact absurd h (clauseParts_ne_nil rest)
    | cons first more =>
      rw [List.modifyHead_cons, List.flatten_cons, List.flatten_cons, ← ink_append]
      rfl

/-- A slice with one more letter. -/
theorem slice_succ {s : List Char} {last m : ℕ} {c : Char} (hlast : last ≤ m)
    (hc : s[m]? = some c) : slice s last (m + 1) = slice s last m ++ [c] := by
  obtain ⟨hm, rfl⟩ := List.getElem?_eq_some_iff.1 hc
  unfold slice
  rw [List.take_succ_eq_append_getElem hm, List.drop_append_of_le_length]
  rw [List.length_take]
  omega

/-- A slice of no letters. -/
theorem slice_self (s : List Char) (m : ℕ) : slice s m m = [] := by
  unfold slice
  rw [List.drop_eq_nil_iff, List.length_take]
  exact Nat.min_le_left _ _

/-- The scan for clause marks, from any place. -/
theorem splitClausesFrom_eq (s : List Char) (last m : ℕ) (hlast : last ≤ m)
    (hm : m ≤ s.length) :
    splitClausesFrom s last (m + 1) =
      (clauseParts (s.drop m)).modifyHead (slice s last m ++ ·) := by
  induction h : s.length - m using Nat.strong_induction_on generalizing last m with
  | h left ih =>
    rw [splitClausesFrom]
    by_cases hend : m + 1 ≤ s.length
    · have hc : s[m]? = some s[m] := List.getElem?_eq_getElem hend
      have hdrop : s.drop m = s[m] :: s.drop (m + 1) := List.drop_eq_getElem_cons hend
      rw [if_pos hend, Nat.add_sub_cancel, hc, hdrop, clauseParts_cons]
      generalize s[m] = c at hc
      cases hclause : CLAUSE_ENDS.contains c with
      | true =>
        have hrun : ((s.drop (m + 1)).takeWhile isSpace).length ≤ (s.drop (m + 1)).length :=
          (List.takeWhile_prefix isSpace).length_le
        rw [List.length_drop] at hrun
        have hany : (some c).any CLAUSE_ENDS.contains = true := hclause
        rw [if_pos hany, if_pos rfl, List.modifyHead_cons, slice_succ hlast hc]
        dsimp only
        rw [ih _ (by omega) _ (m + 1 + ((s.drop (m + 1)).takeWhile isSpace).length)
          (Nat.le_refl _) (by omega) rfl, slice_self, ← List.drop_drop, drop_length_takeWhile]
        congr 1
        cases clauseParts ((s.drop (m + 1)).dropWhile isSpace) with
        | nil => rfl
        | cons first more => rfl
      | false =>
        have hany : ¬(some c).any CLAUSE_ENDS.contains = true := by
          rw [Option.any_some, hclause]
          decide
        rw [if_neg hany, if_neg Bool.false_ne_true,
          ih _ (by omega) _ (m + 1) (by omega) hend rfl, slice_succ hlast hc]
        cases clauseParts (s.drop (m + 1)) with
        | nil => rfl
        | cons first more =>
          rw [List.modifyHead_cons, List.modifyHead_cons, List.modifyHead_cons,
            List.append_assoc]
          rfl
    · have hm' : m = s.length := by omega
      rw [if_neg hend, hm', List.drop_length, clauseParts]
      unfold slice
      rw [List.take_length, Nat.min_eq_left (by omega), List.modifyHead_cons, List.append_nil]

/-- The source's split gives the clauses. -/
theorem splitClauses_eq (s : List Char) : splitClauses s = clauseParts s := by
  unfold splitClauses
  rw [splitClausesFrom_eq s 0 0 (Nat.le_refl _) (Nat.zero_le _), slice_self, List.drop_zero]
  cases clauseParts s with
  | nil => rfl
  | cons first more => rfl

section Cut

variable (isMark : Char → Bool) (maxChars : Limit)

/-- Pieces of a text without spaces: all of it, none of them empty or over the
limit. -/
theorem cutEvenly_spec (text : List Char) (htext : text ≠ []) :
    (cutEvenly isMark maxChars text).flatten = text ∧
      ∀ p ∈ cutEvenly isMark maxChars text, p ≠ [] ∧ p.length ≤ maxChars.chars := by
  fun_induction cutEvenly isMark maxChars text with
  | case1 text hlong cut ih =>
    obtain ⟨hpos, hle⟩ := cutAt_spec isMark maxChars.positive hlong
    have hrest : text.drop cut ≠ [] := by
      intro hnil
      rw [List.drop_eq_nil_iff] at hnil
      exact absurd hnil (by omega)
    obtain ⟨hflat, hpieces⟩ := ih hrest
    rw [List.flatten_cons, hflat]
    refine ⟨List.take_append_drop cut text, ?_⟩
    intro p hp
    rcases List.mem_cons.1 hp with rfl | hp
    · constructor
      · intro hnil
        rw [List.take_eq_nil_iff] at hnil
        rcases hnil with hzero | hnil
        · omega
        · exact htext hnil
      · rw [List.length_take]
        exact Nat.le_trans (Nat.min_le_left _ _) hle
    · exact hpieces p hp
  | case2 text hfits =>
    refine ⟨List.flatten_singleton, ?_⟩
    intro p hp
    obtain rfl := List.mem_singleton.1 hp
    exact ⟨htext, Nat.not_lt.1 hfits⟩

/-- Pieces that fit, or are words. -/
theorem fits_wrap {split : List Char → List (List Char)}
    (hsplit : ∀ s, ∀ p ∈ split s, ∀ c ∈ p, isSpace c = false) (pieces : List (List Char)) :
    ∀ p ∈ wrap maxChars.chars split pieces,
      p.length ≤ maxChars.chars ∨ ∀ c ∈ p, isSpace c = false := by
  intro p hp
  obtain ⟨piece, hpiece, hp⟩ := List.mem_flatMap.1 hp
  split at hp
  · obtain rfl := List.mem_singleton.1 hp
    exact Or.inl ‹_›
  · refine pack_forall (P := fun p => p.length ≤ maxChars.chars ∨ ∀ c ∈ p, isSpace c = false)
      ?_ (fun h => absurd rfl h) ?_ p hp
    · intro a b _ _ hle
      exact Or.inl (Nat.le_trans (joins_joinParts.length a b) hle)
    · intro part hpart
      obtain ⟨hmem, -⟩ := List.mem_filter.1 hpart
      obtain ⟨raw, hraw, rfl⟩ := List.mem_map.1 hmem
      refine Or.inr ?_
      intro c hc
      have hin : c ∈ raw := by
        have hdrop := (List.rdropWhile_prefix isSpace (raw.dropWhile isSpace)).subset hc
        exact (List.dropWhile_suffix isSpace).subset hdrop
      exact hsplit piece raw hraw c hin

/-- A sentence that is too long, wrapped. -/
theorem hardWrap_spec {sentence : List Char} (h : Trimmed sentence) :
    ink (hardWrap isMark maxChars sentence).flatten = ink sentence ∧
      ∀ p ∈ hardWrap isMark maxChars sentence, Trimmed p ∧ p.length ≤ maxChars.chars := by
  have hclauses : ∀ s, ink (splitClauses s).flatten = ink s := by
    intro s
    rw [splitClauses_eq, ink_clauseParts]
  have hwords : ∀ s, ink (s.splitOnP isSpace).flatten = ink s := by
    intro s
    rw [(splitOnP_ink s).1]
    exact ink_eq_self fun c hc => by simpa using (List.mem_filter.1 hc).2
  have hink : ink (wrap maxChars.chars (List.splitOnP isSpace)
      (wrap maxChars.chars splitClauses [sentence])).flatten = ink sentence := by
    rw [ink_wrap hwords, ink_wrap hclauses, List.flatten_singleton]
  have hone : ∀ p ∈ [sentence], Trimmed p := by
    intro p hp
    obtain rfl := List.mem_singleton.1 hp
    exact h
  have htrim : ∀ p ∈ wrap maxChars.chars (List.splitOnP isSpace)
      (wrap maxChars.chars splitClauses [sentence]), Trimmed p :=
    trimmed_wrap (trimmed_wrap hone)
  have hfits := fits_wrap maxChars (fun s => (splitOnP_ink s).2)
    (wrap maxChars.chars splitClauses [sentence])
  unfold hardWrap
  simp only [List.foldl_cons, List.foldl_nil]
  rw [← hink]
  generalize wrap maxChars.chars (List.splitOnP isSpace)
    (wrap maxChars.chars splitClauses [sentence]) = pieces at htrim hfits
  constructor
  · clear hink hfits
    induction pieces with
    | nil => rfl
    | cons p pieces ih =>
      have hmore : ∀ q ∈ pieces, Trimmed q := fun q hq => htrim q (List.mem_cons_of_mem p hq)
      rw [List.flatMap_cons, ink_flatten_append, ih hmore, List.flatten_cons, ink_append]
      congr 1
      split
      · rw [(cutEvenly_spec isMark maxChars p (htrim p List.mem_cons_self).nonempty).1]
      · rw [List.flatten_singleton]
  · intro q hq
    obtain ⟨p, hp, hq⟩ := List.mem_flatMap.1 hq
    have hpt := htrim p hp
    split at hq
    · rename_i hlong
      obtain ⟨hflat, hpieces⟩ := cutEvenly_spec isMark maxChars p hpt.nonempty
      obtain ⟨hne, hle⟩ := hpieces q hq
      rcases hfits p hp with hshort | hinked
      · omega
      · refine ⟨trimmed_of_inked hne ?_, hle⟩
        intro c hc
        refine hinked c ?_
        rw [← hflat]
        exact List.mem_flatten.2 ⟨q, hq, hc⟩
    · rename_i hshort
      obtain rfl := List.mem_singleton.1 hq
      exact ⟨hpt, Nat.not_lt.1 hshort⟩

end Cut

/-- A sentence's rest is within the text. -/
theorem restOfSentence_le (s : List Char) : restOfSentence s ≤ s.length := by
  induction s with
  | nil => exact Nat.le_refl _
  | cons c rest ih =>
    unfold restOfSentence
    cases h : endsHere (c :: rest) with
    | none =>
      rw [Option.getD_none, List.length_cons]
      omega
    | some k =>
      have hrun : (rest.takeWhile CLOSERS.contains).length ≤ rest.length :=
        (List.takeWhile_prefix _).length_le
      rw [Option.getD_some, List.length_cons]
      unfold endsHere at h
      dsimp only at h
      split at h
      · split at h
        · obtain rfl := Option.some.inj h
          omega
        · cases h
      · split at h
        · obtain rfl := Option.some.inj h
          omega
        · split at h
          · split at h
            · obtain rfl := Option.some.inj h
              omega
            · cases h
          · cases h

/-- A slice and what follows it. -/
theorem slice_append_drop (text : List Char) {start stop : ℕ} (h : start ≤ stop) :
    slice text start stop ++ text.drop stop = text.drop start := by
  have hsplit := List.take_append_drop stop text
  by_cases hstop : stop ≤ text.length
  · unfold slice
    conv_rhs => rw [← hsplit]
    rw [List.drop_append_of_le_length]
    rw [List.length_take]
    omega
  · have hle : text.length ≤ stop := by omega
    unfold slice
    rw [List.take_of_length_le hle, List.drop_eq_nil_of_le hle, List.append_nil]

/-- The sentences tile the text. -/
theorem flatten_sentencesOf (text : List Char) (start : ℕ) :
    (sentencesOf text start (sentenceEnds text start)).flatten = text.drop start := by
  fun_induction sentenceEnds text start with
  | case1 start hstart stop ih =>
    unfold sentencesOf
    rw [List.flatten_cons, ih]
    exact slice_append_drop text (by omega)
  | case2 start hstart =>
    unfold sentencesOf
    rw [List.flatten_nil, List.drop_eq_nil_of_le (Nat.not_lt.1 hstart)]

/-- What a text is cut into. -/
structure Chunked (text : List Char) (maxChars : ℕ) (chunks : List (List Char)) : Prop where
  /-- The characters that are not whitespace, in order. -/
  ink : ink chunks.flatten = ink text
  trimmed : ∀ c ∈ chunks, Trimmed c
  bounded : ∀ c ∈ chunks.dropLast, c.length ≤ maxChars
  /-- The last one may take a tail. -/
  last : ∀ c ∈ chunks.getLast?, c.length ≤ maxChars * 5 / 4

/-- A quarter more is no less. -/
theorem le_five_fourths (n : ℕ) : n ≤ n * 5 / 4 := by omega

/-- Chunks within the limit. -/
theorem chunked_of_bounded {text : List Char} {maxChars : ℕ} {chunks : List (List Char)}
    (hink : ink chunks.flatten = ink text) (htrim : ∀ c ∈ chunks, Trimmed c)
    (hle : ∀ c ∈ chunks, c.length ≤ maxChars) : Chunked text maxChars chunks where
  ink := hink
  trimmed := htrim
  bounded := fun c hc => hle c (List.dropLast_subset chunks hc)
  last := by
    intro c hc
    exact Nat.le_trans (hle c (List.mem_of_getLast? hc)) (le_five_fourths maxChars)

/-- A short last chunk goes into the one before it. -/
theorem chunked_mergeTail {text : List Char} {maxChars : ℕ} (minChars : ℕ)
    {join : List Char → List Char → List Char} (hjoin : Joins join) {chunks : List (List Char)}
    (hink : ink chunks.flatten = ink text) (htrim : ∀ c ∈ chunks, Trimmed c)
    (hle : ∀ c ∈ chunks, c.length ≤ maxChars) :
    Chunked text maxChars (mergeTail join maxChars minChars chunks) := by
  unfold mergeTail
  split
  · rename_i last before rest hreverse
    have hchunks : chunks = rest.reverse ++ [before, last] := by
      rw [← List.reverse_reverse chunks, hreverse]
      simp
    have hlast : last ∈ chunks := by
      rw [hchunks]
      simp
    have hbefore : before ∈ chunks := by
      rw [hchunks]
      simp
    have hrest : ∀ c ∈ rest.reverse, c ∈ chunks := by
      intro c hc
      rw [hchunks]
      exact List.mem_append_left _ hc
    split
    · rename_i hshort
      constructor
      · rw [← hink, hchunks, ink_flatten_append, ink_flatten_append, List.flatten_singleton,
          hjoin.ink, List.flatten_cons, List.flatten_singleton, ink_append]
      · intro c hc
        rcases List.mem_append.1 hc with hc | hc
        · exact htrim c (hrest c hc)
        · obtain rfl := List.mem_singleton.1 hc
          exact hjoin.trimmed (htrim before hbefore) (htrim last hlast)
      · intro c hc
        rw [List.dropLast_concat] at hc
        exact hle c (hrest c hc)
      · intro c hc
        rw [List.getLast?_concat, Option.mem_some_iff] at hc
        rw [← hc]
        exact Nat.le_trans (hjoin.length before last) hshort.2
    · exact chunked_of_bounded hink htrim hle
  · exact chunked_of_bounded hink htrim hle

/-- The sentences of a text, those that are too long wrapped. -/
theorem sentences_spec (isMark : Char → Bool) (maxChars : Limit) (sentences : List (List Char)) :
    ink (sentences.flatMap fun sentence =>
        let piece := squeeze sentence
        if piece.isEmpty then []
        else if maxChars.chars < piece.length then hardWrap isMark maxChars piece
        else [piece]).flatten = ink sentences.flatten ∧
      ∀ p ∈ sentences.flatMap fun sentence =>
        let piece := squeeze sentence
        if piece.isEmpty then []
        else if maxChars.chars < piece.length then hardWrap isMark maxChars piece
        else [piece], Trimmed p ∧ p.length ≤ maxChars.chars := by
  induction sentences with
  | nil =>
    refine ⟨rfl, ?_⟩
    intro p hp
    cases hp
  | cons sentence sentences ih =>
    have hone : ink (if (squeeze sentence).isEmpty then []
          else if maxChars.chars < (squeeze sentence).length
            then hardWrap isMark maxChars (squeeze sentence)
          else [squeeze sentence]).flatten = ink sentence ∧
        ∀ p ∈ (if (squeeze sentence).isEmpty then []
          else if maxChars.chars < (squeeze sentence).length
            then hardWrap isMark maxChars (squeeze sentence)
          else [squeeze sentence]), Trimmed p ∧ p.length ≤ maxChars.chars := by
      rw [← ink_squeeze sentence]
      cases hempty : (squeeze sentence).isEmpty with
      | true =>
        rw [if_pos rfl, List.isEmpty_iff.1 hempty]
        refine ⟨rfl, ?_⟩
        intro p hp
        cases hp
      | false =>
        have htrim := trimmed_squeeze (List.isEmpty_eq_false_iff.1 hempty)
        rw [if_neg Bool.false_ne_true]
        split
        · exact hardWrap_spec isMark maxChars htrim
        · rename_i hshort
          refine ⟨by rw [List.flatten_singleton], ?_⟩
          intro p hp
          obtain rfl := List.mem_singleton.1 hp
          exact ⟨htrim, Nat.not_lt.1 hshort⟩
    rw [List.flatMap_cons, ink_flatten_append, ih.1, List.flatten_cons, ink_append]
    refine ⟨?_, ?_⟩
    · congr 1
      exact hone.1
    · intro p hp
      rcases List.mem_append.1 hp with hp | hp
      · exact hone.2 p hp
      · exact ih.2 p hp

/-- No text is lost, and the chunks keep to the limit. -/
theorem splitSentences_chunked (isMark : Char → Bool) (text : List Char) (maxChars : Limit)
    (minChars : ℕ) :
    Chunked text maxChars.chars (splitSentences isMark text maxChars minChars) := by
  unfold splitSentences
  dsimp only
  split
  · rename_i hblank
    have hink : ink text = [] := by
      rw [← ink_strip, List.isEmpty_iff.1 hblank]
      rfl
    refine chunked_of_bounded hink.symm ?_ ?_
    · intro c hc
      cases hc
    · intro c hc
      cases hc
  · rename_i hblank
    split
    · rename_i hfits
      refine chunked_of_bounded ?_ ?_ ?_
      · rw [List.flatten_singleton, ink_strip]
      · intro c hc
        obtain rfl := List.mem_singleton.1 hc
        refine trimmed_strip ?_
        intro hnil
        rw [hnil] at hblank
        exact hblank rfl
      · intro c hc
        obtain rfl := List.mem_singleton.1 hc
        exact hfits
    · obtain ⟨hink, hall⟩ := sentences_spec isMark maxChars
        (sentencesOf (strip text) 0 (sentenceEnds (strip text) 0))
      rw [flatten_sentencesOf, List.drop_zero, ink_strip] at hink
      refine chunked_mergeTail minChars joins_join ?_ ?_ ?_
      · rw [ink_pack _ joins_join]
        exact hink
      · exact pack_forall (fun _ _ ha hb _ => joins_join.trimmed ha hb)
          (fun h => absurd rfl h) fun p hp => (hall p hp).1
      · exact pack_forall (P := fun p => p.length ≤ maxChars.chars)
          (fun a b _ _ hle => Nat.le_trans (joins_join.length a b) hle)
          (fun h => absurd rfl h) fun p hp => (hall p hp).2

end Mstar.Speech
