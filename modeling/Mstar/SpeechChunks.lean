import Mstar.SpeechChunking

/-!
# Text in chunks

What each step of the chunking keeps: the characters that are not whitespace, in
order, pieces without whitespace at their ends, and the limit.
-/

namespace Mstar.Speech

/-- The characters that are not whitespace. -/
def ink (s : List Char) : List Char := s.filter fun c => !isSpace c

/-- Some text that neither starts nor ends with whitespace. -/
structure Trimmed (s : List Char) : Prop where
  nonempty : s ≠ []
  first : s.head?.any isSpace = false
  last : s.getLast?.any isSpace = false

/-- No text has no ink. -/
@[simp] theorem ink_nil : ink [] = [] := rfl

/-- The ink of texts one after another. -/
@[simp] theorem ink_append (a b : List Char) : ink (a ++ b) = ink a ++ ink b :=
  List.filter_append a b

/-- A space has none. -/
@[simp] theorem ink_space : ink [' '] = [] := by decide

/-- The ink of lists one after another. -/
theorem ink_flatten_append (a b : List (List Char)) :
    ink (a ++ b).flatten = ink a.flatten ++ ink b.flatten := by
  rw [List.flatten_append, ink_append]

/-- Whitespace alone holds no ink. -/
theorem ink_eq_nil {s : List Char} (h : ∀ c ∈ s, isSpace c = true) : ink s = [] := by
  unfold ink
  rw [List.filter_eq_nil_iff]
  intro c hc
  rw [h c hc]
  decide

/-- Text without whitespace is its ink. -/
theorem ink_eq_self {s : List Char} (h : ∀ c ∈ s, isSpace c = false) : ink s = s := by
  unfold ink
  rw [List.filter_eq_self]
  intro c hc
  rw [h c hc]
  rfl

/-- Text without whitespace is trimmed. -/
theorem trimmed_of_inked {s : List Char} (hs : s ≠ []) (h : ∀ c ∈ s, isSpace c = false) :
    Trimmed s where
  nonempty := hs
  first := by
    cases hhead : s.head? with
    | none => rfl
    | some c => exact h c (List.mem_of_mem_head? hhead)
  last := by
    cases hlast : s.getLast? with
    | none => rfl
    | some c => exact h c (List.mem_of_getLast? hlast)

/-- Leading spaces have none. -/
theorem ink_dropWhile (s : List Char) : ink (s.dropWhile isSpace) = ink s := by
  have hsplit : s.takeWhile isSpace ++ s.dropWhile isSpace = s := List.takeWhile_append_dropWhile
  have hspace : ink (s.takeWhile isSpace) = [] := ink_eq_nil fun c hc => List.mem_takeWhile_imp hc
  conv_rhs => rw [← hsplit]
  rw [ink_append, hspace, List.nil_append]

/-- Nor have trailing ones. -/
theorem ink_rdropWhile (s : List Char) : ink (s.rdropWhile isSpace) = ink s := by
  have hsplit : s.rdropWhile isSpace ++ s.rtakeWhile isSpace = s :=
    List.rdropWhile_append_rtakeWhile
  have hspace : ink (s.rtakeWhile isSpace) = [] :=
    ink_eq_nil fun c hc => List.mem_rtakeWhile_imp hc
  conv_rhs => rw [← hsplit]
  rw [ink_append, hspace, List.append_nil]

/-- Stripping keeps the ink. -/
theorem ink_strip (s : List Char) : ink (strip s) = ink s := by
  unfold strip
  rw [ink_rdropWhile, ink_dropWhile]

/-- Stripped text is trimmed, unless nothing is left. -/
theorem trimmed_strip {s : List Char} (h : strip s ≠ []) : Trimmed (strip s) where
  nonempty := h
  first := by
    have hfix : strip s <+: s.dropWhile isSpace := List.rdropWhile_prefix isSpace _
    have hhead : (strip s).head? = (s.dropWhile isSpace).head? := by
      obtain ⟨rest, hrest⟩ := hfix
      rw [← hrest, List.head?_append_of_ne_nil _ h]
    have hnot := List.head?_dropWhile_not isSpace s
    rw [hhead]
    cases hd : (s.dropWhile isSpace).head? with
    | none => rfl
    | some c =>
      rw [hd] at hnot
      simpa using hnot
  last := by
    have hnot := List.rdropWhile_last_not isSpace (s.dropWhile isSpace) h
    rw [Bool.not_eq_true] at hnot
    have hlast : (strip s).getLast? = some ((strip s).getLast h) := List.getLast?_eq_some_getLast h
    rw [hlast]
    exact hnot

/-- A way of putting two trimmed texts together with at most a space. -/
structure Joins (join : List Char → List Char → List Char) : Prop where
  ink : ∀ a b, ink (join a b) = ink a ++ ink b
  length : ∀ a b, (join a b).length ≤ a.length + 1 + b.length
  trimmed : ∀ {a b}, Trimmed a → Trimmed b → Trimmed (join a b)

/-- Trimmed texts with anything between are trimmed. -/
theorem trimmed_append {a b : List Char} (ha : Trimmed a) (hb : Trimmed b) (mid : List Char) :
    Trimmed (a ++ mid ++ b) where
  nonempty := by
    intro hnil
    rw [List.append_eq_nil_iff] at hnil
    exact hb.nonempty hnil.2
  first := by
    rw [List.append_assoc, List.head?_append_of_ne_nil _ ha.nonempty]
    exact ha.first
  last := by
    rw [List.getLast?_append_of_ne_nil _ hb.nonempty]
    exact hb.last

/-- Parts are joined. -/
theorem joins_joinParts : Joins joinParts where
  ink := by
    intro a b
    unfold joinParts
    rw [ink_append, ink_append, ink_space, List.append_nil]
  length := by
    intro a b
    unfold joinParts
    rw [List.length_append, List.length_append]
    exact Nat.le_refl _
  trimmed := fun ha hb => trimmed_append ha hb [' ']

/-- So are sentences. -/
theorem joins_join : Joins join where
  ink := by
    intro a b
    unfold join
    split
    · rw [ink_append]
    · rw [ink_append, ink_append, ink_space, List.append_nil]
  length := by
    intro a b
    unfold join
    split
    · rw [List.length_append]
      omega
    · rw [List.length_append, List.length_append]
      exact Nat.le_refl _
  trimmed := by
    intro a b ha hb
    unfold join
    split
    · have h := trimmed_append ha hb []
      rwa [List.append_nil] at h
    · exact trimmed_append ha hb [' ']

/-- Packing keeps the ink. -/
theorem ink_pack (maxChars : ℕ) {join : List Char → List Char → List Char} (hjoin : Joins join)
    (current : List Char) (parts : List (List Char)) :
    ink (pack maxChars join current parts).flatten = ink current ++ ink parts.flatten := by
  induction parts generalizing current with
  | nil =>
    unfold pack
    cases current with
    | nil => rfl
    | cons c current => simp
  | cons part parts ih =>
    unfold pack
    split
    · rw [List.flatten_cons, ink_append, ih, List.flatten_cons, ink_append]
    · rw [ih, List.flatten_cons, ink_append, ← List.append_assoc]
      congr 1
      cases current with
      | nil => rfl
      | cons c current => exact hjoin.ink _ _

/-- What holds of the parts, and is kept where two that fit are joined, holds of
each piece. -/
theorem pack_forall {maxChars : ℕ} {join : List Char → List Char → List Char}
    {P : List Char → Prop}
    (hjoined : ∀ a b, P a → P b → a.length + 1 + b.length ≤ maxChars → P (join a b))
    {current : List Char} {parts : List (List Char)} (hcurrent : current ≠ [] → P current)
    (hparts : ∀ p ∈ parts, P p) : ∀ piece ∈ pack maxChars join current parts, P piece := by
  induction parts generalizing current with
  | nil =>
    unfold pack
    cases current with
    | nil =>
      intro piece hpiece
      cases hpiece
    | cons c current =>
      intro piece hpiece
      obtain rfl := List.mem_singleton.1 hpiece
      exact hcurrent (List.cons_ne_nil c current)
  | cons part parts ih =>
    have hpart := hparts part List.mem_cons_self
    have hmore : ∀ p ∈ parts, P p := fun p hp => hparts p (List.mem_cons_of_mem part hp)
    cases current with
    | nil => exact ih (fun _ => hpart) hmore
    | cons c current =>
      have hP := hcurrent (List.cons_ne_nil c current)
      unfold pack
      split
      · intro piece hpiece
        rcases List.mem_cons.1 hpiece with rfl | hpiece
        · exact hP
        · exact ih (fun _ => hpart) hmore piece hpiece
      · rename_i hfits
        simp only [List.isEmpty_cons, Bool.not_false, Bool.true_and, decide_eq_true_eq,
          Nat.not_lt] at hfits
        exact ih (fun _ => hjoined _ _ hP hpart hfits) hmore

/-- The words hold the ink, and nothing else. -/
theorem splitOnP_ink (s : List Char) :
    (s.splitOnP isSpace).flatten = ink s ∧ ∀ w ∈ s.splitOnP isSpace, ∀ c ∈ w, isSpace c = false := by
  induction s with
  | nil =>
    refine ⟨rfl, ?_⟩
    intro w hw c hc
    obtain rfl := List.mem_singleton.1 hw
    cases hc
  | cons a s ih =>
    rw [List.splitOnP_cons_eq_if_modifyHead]
    obtain ⟨hflat, hwords⟩ := ih
    cases ha : isSpace a with
    | true =>
      have hink : ink (a :: s) = ink s := List.filter_cons_of_neg (by rw [ha]; decide)
      rw [if_pos rfl, hink]
      refine ⟨hflat, ?_⟩
      intro w hw
      rcases List.mem_cons.1 hw with rfl | hw
      · intro c hc
        cases hc
      · exact hwords w hw
    | false =>
      have hink : ink (a :: s) = a :: ink s := List.filter_cons_of_pos (by rw [ha]; rfl)
      rw [if_neg Bool.false_ne_true, hink]
      cases hsplit : s.splitOnP isSpace with
      | nil => exact absurd hsplit (List.splitOnP_ne_nil isSpace s)
      | cons first rest =>
        rw [hsplit] at hflat hwords
        rw [List.modifyHead_cons]
        constructor
        · rw [← hflat]
          rfl
        · intro w hw
          rcases List.mem_cons.1 hw with rfl | hw
          · intro c hc
            rcases List.mem_cons.1 hc with rfl | hc
            · exact ha
            · exact hwords first List.mem_cons_self c hc
          · exact hwords w (List.mem_cons_of_mem first hw)

/-- Leaving out empty texts leaves out no text. -/
theorem flatten_filter_nonempty (parts : List (List Char)) :
    (parts.filter fun p => !p.isEmpty).flatten = parts.flatten := by
  induction parts with
  | nil => rfl
  | cons part parts ih =>
    cases part with
    | nil => exact ih
    | cons c part =>
      rw [List.filter_cons_of_pos rfl, List.flatten_cons, List.flatten_cons, ih]

/-- The words are the ink. -/
theorem flatten_words (s : List Char) : (words s).flatten = ink s := by
  unfold words
  rw [flatten_filter_nonempty]
  exact (splitOnP_ink s).1

/-- A word is not empty and has no whitespace. -/
theorem mem_words {s w : List Char} (h : w ∈ words s) : w ≠ [] ∧ ∀ c ∈ w, isSpace c = false := by
  obtain ⟨hmem, hne⟩ := List.mem_filter.1 h
  refine ⟨?_, (splitOnP_ink s).2 w hmem⟩
  rintro rfl
  cases hne

/-- Words with a space between them, after some text. -/
theorem squeezed (ws : List (List Char)) (out : List Char)
    (hws : ∀ w ∈ ws, Trimmed w) (hout : out ≠ [] → Trimmed out) :
    ink (ws.foldl (fun out word => (if out.isEmpty then out else out ++ [' ']) ++ word) out) =
        ink out ++ ink ws.flatten ∧
      (ws.foldl (fun out word => (if out.isEmpty then out else out ++ [' ']) ++ word) out ≠ [] →
        Trimmed (ws.foldl (fun out word => (if out.isEmpty then out else out ++ [' ']) ++ word)
          out)) := by
  induction ws generalizing out with
  | nil =>
    refine ⟨?_, hout⟩
    simp
  | cons w ws ih =>
    have hw := hws w List.mem_cons_self
    have hmore : ∀ w ∈ ws, Trimmed w := fun v hv => hws v (List.mem_cons_of_mem w hv)
    rw [List.foldl_cons, List.flatten_cons, ink_append, ← List.append_assoc]
    cases out with
    | nil => exact ih w hmore fun _ => hw
    | cons c out =>
      have hboth := joins_joinParts.trimmed (hout (List.cons_ne_nil c out)) hw
      have hink := joins_joinParts.ink (c :: out) w
      rw [← hink]
      exact ih (joinParts (c :: out) w) hmore fun _ => hboth

/-- Squeezing keeps it. -/
theorem ink_squeeze (s : List Char) : ink (squeeze s) = ink s := by
  have hws : ∀ w ∈ words s, Trimmed w :=
    fun w hw => trimmed_of_inked (mem_words hw).1 (mem_words hw).2
  have hsqueezed := (squeezed (words s) [] hws fun h => absurd rfl h).1
  unfold squeeze
  rw [hsqueezed, flatten_words, ink_nil, List.nil_append]
  exact ink_eq_self fun c hc => by simpa using (List.mem_filter.1 hc).2

/-- And trims. -/
theorem trimmed_squeeze {s : List Char} (h : squeeze s ≠ []) : Trimmed (squeeze s) := by
  have hws : ∀ w ∈ words s, Trimmed w :=
    fun w hw => trimmed_of_inked (mem_words hw).1 (mem_words hw).2
  exact (squeezed (words s) [] hws fun h => absurd rfl h).2 h

/-- Stripped parts without the empty ones. -/
theorem ink_strippedParts (parts : List (List Char)) :
    ink ((parts.map strip).filter fun p => !p.isEmpty).flatten = ink parts.flatten := by
  rw [flatten_filter_nonempty]
  induction parts with
  | nil => rfl
  | cons part parts ih =>
    rw [List.map_cons, List.flatten_cons, ink_append, ink_strip, ih, List.flatten_cons, ink_append]

/-- Stripped parts are trimmed. -/
theorem trimmed_strippedParts (parts : List (List Char)) :
    ∀ p ∈ (parts.map strip).filter fun p => !p.isEmpty, Trimmed p := by
  intro p hp
  obtain ⟨hmem, hne⟩ := List.mem_filter.1 hp
  obtain ⟨part, -, rfl⟩ := List.mem_map.1 hmem
  refine trimmed_strip ?_
  intro hnil
  rw [hnil] at hne
  cases hne

/-- Wrapping keeps the ink, where the splitter does. -/
theorem ink_wrap {maxChars : ℕ} {split : List Char → List (List Char)}
    (hsplit : ∀ s, ink (split s).flatten = ink s) (pieces : List (List Char)) :
    ink (wrap maxChars split pieces).flatten = ink pieces.flatten := by
  induction pieces with
  | nil => rfl
  | cons piece pieces ih =>
    unfold wrap at ih ⊢
    rw [List.flatMap_cons, ink_flatten_append, ih, List.flatten_cons, ink_append]
    congr 1
    split
    · rw [List.flatten_singleton]
    · rw [ink_pack maxChars joins_joinParts, ink_strippedParts, hsplit]
      rfl

/-- So are wrapped ones. -/
theorem trimmed_wrap {maxChars : ℕ} {split : List Char → List (List Char)}
    {pieces : List (List Char)} (h : ∀ p ∈ pieces, Trimmed p) :
    ∀ p ∈ wrap maxChars split pieces, Trimmed p := by
  intro p hp
  obtain ⟨piece, hpiece, hp⟩ := List.mem_flatMap.1 hp
  split at hp
  · obtain rfl := List.mem_singleton.1 hp
    exact h p hpiece
  · exact pack_forall (fun _ _ ha hb _ => joins_joinParts.trimmed ha hb) (fun h => absurd rfl h)
      (trimmed_strippedParts (split piece)) p hp

end Mstar.Speech
