import Mstar.FreeLists

/-!
# Joining free pieces

A piece that comes back joins the free pieces it touches. A list in order is
joined in one sweep; a piece put in its place among tidy ones joins at most the
one before it and the one behind it, and the sweep does the same. The place is
found by halving.
-/

namespace Mstar.FreeLists

/-- The next piece joins the last one if they touch. -/
def mergeStep (merged : List Piece) (piece : Piece) : List Piece :=
  match merged.getLast? with
  | none => [piece]
  | some last =>
    if last.offset + last.nbytes = piece.offset then
      merged.dropLast ++ [⟨last.offset, last.nbytes + piece.nbytes⟩]
    else merged ++ [piece]

/-- Pieces in order, joined where they touch. -/
def coalesce (l : List Piece) : List Piece := l.foldl mergeStep []

/-- A piece with its two neighbours, where they touch it. -/
def joinBetween (pre : List Piece) (p : Piece) : List Piece → List Piece
  | [] => mergeStep pre p
  | q :: post =>
    if p.stop = q.offset then mergeStep pre ⟨p.offset, p.nbytes + q.nbytes⟩ ++ post
    else mergeStep pre p ++ q :: post

section Coalesce

variable {l rest merged : List Piece} {p last : Piece} {a x : ℕ}

/-- The first piece is kept. -/
@[simp] theorem mergeStep_nil : mergeStep [] p = [p] := rfl

/-- A later one is joined to the last, or follows it. -/
theorem mergeStep_concat : mergeStep (merged ++ [last]) p =
    if last.offset + last.nbytes = p.offset then
      merged ++ [⟨last.offset, last.nbytes + p.nbytes⟩]
    else merged ++ [last] ++ [p] := by
  unfold mergeStep
  rw [List.getLast?_concat, List.dropLast_concat]

/-- Joining changes no cover. -/
theorem mergeStep_cover : cover (mergeStep merged p) x = cover merged x + cover [p] x := by
  rcases List.eq_nil_or_concat merged with rfl | ⟨merged, last, rfl⟩
  · simp
  · rw [List.concat_eq_append, mergeStep_concat]
    split
    · next htouch =>
      have hjoin :
          cover [⟨last.offset, last.nbytes + p.nbytes⟩] x = cover [last] x + cover [p] x := by
        rw [cover_split, htouch]
      rw [cover_append, cover_append, hjoin]
      omega
    · rw [cover_append]

/-- Merging keeps what is covered. -/
theorem foldl_mergeStep_cover :
    cover (rest.foldl mergeStep merged) x = cover merged x + cover rest x := by
  induction rest generalizing merged with
  | nil => simp
  | cons p rest ih =>
    rw [List.foldl_cons, ih, mergeStep_cover, cover_cons (l := rest), Nat.add_assoc]

/-- So does coalescing. -/
theorem coalesce_cover : cover (coalesce l) x = cover l x := by
  unfold coalesce
  rw [foldl_mergeStep_cover, cover_nil, Nat.zero_add]

/-- The joined pieces stay tidy when a piece behind them comes in. -/
theorem mergeStep_tidy (ht : Tidy merged) (hbehind : ∀ q ∈ merged, q.stop ≤ p.offset)
    (hp : 0 < p.nbytes) : Tidy (mergeStep merged p) := by
  rcases List.eq_nil_or_concat merged with rfl | ⟨merged, last, rfl⟩
  · exact ⟨List.pairwise_singleton _ _, by simpa using hp⟩
  · rw [List.concat_eq_append] at ht hbehind ⊢
    have hapart := List.pairwise_append.1 ht.apart
    have hlast : last.stop ≤ p.offset := hbehind last (by simp)
    have hbefore : ∀ q ∈ merged, q.stop < last.offset :=
      fun q hq => hapart.2.2 q hq last List.mem_cons_self
    rw [mergeStep_concat]
    split
    · constructor
      · refine List.pairwise_append.2 ⟨hapart.1, List.pairwise_singleton _ _, ?_⟩
        intro q hq r hr
        rw [List.mem_singleton.1 hr]
        exact hbefore q hq
      · intro q hq
        rcases List.mem_append.1 hq with hq | hq
        · exact ht.solid q (List.mem_append_left _ hq)
        · rw [List.mem_singleton.1 hq]
          dsimp only
          omega
    · next hgap =>
      have hlt : last.stop < p.offset := by
        unfold Piece.stop at hlast ⊢
        omega
      constructor
      · refine List.pairwise_append.2 ⟨ht.apart, List.pairwise_singleton _ _, ?_⟩
        intro q hq r hr
        rw [List.mem_singleton.1 hr]
        rcases List.mem_append.1 hq with hq | hq
        · have := hbefore q hq
          unfold Piece.stop at hlt this ⊢
          omega
        · rw [List.mem_singleton.1 hq]
          exact hlt
      · intro q hq
        rcases List.mem_append.1 hq with hq | hq
        · exact ht.solid q hq
        · rw [List.mem_singleton.1 hq]
          exact hp

/-- A joined piece ends where one of the pieces ended. -/
theorem stop_of_mem_mergeStep {q : Piece} (hq : q ∈ mergeStep merged p) :
    q.stop = p.stop ∨ q ∈ merged := by
  rcases List.eq_nil_or_concat merged with rfl | ⟨merged, last, rfl⟩
  · rw [mergeStep_nil, List.mem_singleton] at hq
    exact .inl (by rw [hq])
  · rw [List.concat_eq_append, mergeStep_concat] at *
    split at hq
    · next htouch =>
      rcases List.mem_append.1 hq with hq | hq
      · exact .inr (List.mem_append_left _ hq)
      · rw [List.mem_singleton.1 hq]
        unfold Piece.stop
        dsimp only
        omega
    · rcases List.mem_append.1 hq with hq | hq
      · exact .inr hq
      · exact .inl (by rw [List.mem_singleton.1 hq])

/-- It starts where one of the pieces started. -/
theorem offset_of_mem_mergeStep {q : Piece} (hq : q ∈ mergeStep merged p) :
    q.offset = p.offset ∨ ∃ r ∈ merged, q.offset = r.offset := by
  rcases List.eq_nil_or_concat merged with rfl | ⟨merged, last, rfl⟩
  · rw [mergeStep_nil, List.mem_singleton] at hq
    exact .inl (by rw [hq])
  · rw [List.concat_eq_append, mergeStep_concat] at *
    split at hq
    · rcases List.mem_append.1 hq with hq | hq
      · exact .inr ⟨q, List.mem_append_left _ hq, rfl⟩
      · exact .inr ⟨last, by simp, by rw [List.mem_singleton.1 hq]⟩
    · rcases List.mem_append.1 hq with hq | hq
      · exact .inr ⟨q, hq, rfl⟩
      · exact .inl (by rw [List.mem_singleton.1 hq])

/-- Pieces in order, none empty and none over another, are tidy once joined. -/
theorem coalesce_tidy (hl : l.Pairwise fun p q => p.stop ≤ q.offset)
    (hsolid : ∀ p ∈ l, 0 < p.nbytes) : Tidy (coalesce l) := by
  have hrun : ∀ (rest merged : List Piece), Tidy merged →
      rest.Pairwise (fun p q => p.stop ≤ q.offset) → (∀ p ∈ rest, 0 < p.nbytes) →
      (∀ q ∈ merged, ∀ p ∈ rest, q.stop ≤ p.offset) → Tidy (rest.foldl mergeStep merged) := by
    intro rest
    induction rest with
    | nil => exact fun merged ht _ _ _ => ht
    | cons p rest ih =>
      intro merged ht hrest hpos hbehind
      have hp := List.pairwise_cons.1 hrest
      apply ih
      · exact mergeStep_tidy ht (fun q hq => hbehind q hq p List.mem_cons_self)
          (hpos p List.mem_cons_self)
      · exact hp.2
      · exact fun q hq => hpos q (List.mem_cons_of_mem _ hq)
      · intro q hq r hr
        rcases stop_of_mem_mergeStep hq with hq | hq
        · rw [hq]
          exact hp.1 r hr
        · exact hbehind q hq r (List.mem_cons_of_mem _ hr)
  exact hrun l [] ⟨List.Pairwise.nil, by simp⟩ hl hsolid (by simp)

/-- Pieces that share nothing, none of them empty, are tidy once sorted by offset
and joined. -/
theorem coalesce_sorted (hl : l.Pairwise Piece.Disjoint) (hsolid : ∀ p ∈ l, 0 < p.nbytes) :
    Tidy (coalesce (l.insertionSort fun p q => p.offset ≤ q.offset)) := by
  have hperm := List.perm_insertionSort (fun p q : Piece => p.offset ≤ q.offset) l
  have hpos : ∀ p ∈ l.insertionSort fun p q => p.offset ≤ q.offset, 0 < p.nbytes :=
    fun p hp => hsolid p (hperm.mem_iff.1 hp)
  have hsymm : ∀ {p q : Piece}, p.Disjoint q → q.Disjoint p :=
    fun h x hx => h x ⟨hx.2, hx.1⟩
  have hsorted : (l.insertionSort fun p q => p.offset ≤ q.offset).Pairwise
      fun p q => p.offset ≤ q.offset := by
    have htotal : Std.Total fun p q : Piece => p.offset ≤ q.offset := ⟨fun p q => Nat.le_total _ _⟩
    have htrans : IsTrans Piece fun p q => p.offset ≤ q.offset := ⟨fun _ _ _ => Nat.le_trans⟩
    exact List.pairwise_insertionSort _ l
  have hdisj : (l.insertionSort fun p q => p.offset ≤ q.offset).Pairwise Piece.Disjoint :=
    (hperm.pairwise_iff hsymm).2 hl
  apply coalesce_tidy
  · refine List.Pairwise.imp_of_mem ?_ (hsorted.and hdisj)
    intro p q hp hq h
    have hside := h.2.apart (hpos p hp) (hpos q hq)
    have := hpos p hp
    have := hpos q hq
    unfold Piece.stop at hside ⊢
    omega
  · exact hpos

/-- Joined pieces start on a multiple when all of them did. -/
theorem coalesce_aligned (hl : ∀ p ∈ l, a ∣ p.offset) : ∀ p ∈ coalesce l, a ∣ p.offset := by
  have hrun : ∀ (rest merged : List Piece), (∀ p ∈ merged, a ∣ p.offset) →
      (∀ p ∈ rest, a ∣ p.offset) → ∀ p ∈ rest.foldl mergeStep merged, a ∣ p.offset := by
    intro rest
    induction rest with
    | nil => exact fun merged hm _ => hm
    | cons p rest ih =>
      intro merged hm hrest
      apply ih
      · intro q hq
        rcases offset_of_mem_mergeStep hq with hq | ⟨r, hr, hq⟩
        · rw [hq]
          exact hrest p List.mem_cons_self
        · rw [hq]
          exact hm r hr
      · exact fun q hq => hrest q (List.mem_cons_of_mem _ hq)
  exact hrun l [] (by simp) hl

/-- A piece behind tidy ones that do not touch it joins none of them. -/
theorem mergeStep_of_lt (h : ∀ q ∈ merged, q.stop < p.offset) :
    mergeStep merged p = merged ++ [p] := by
  rcases List.eq_nil_or_concat merged with rfl | ⟨merged, last, rfl⟩
  · rfl
  · rw [List.concat_eq_append] at h ⊢
    have hlast := h last (by simp)
    unfold Piece.stop at hlast
    rw [mergeStep_concat, if_neg (by omega)]

/-- Tidy pieces stay as they are behind tidy ones. -/
theorem foldl_mergeStep_of_tidy (ht : Tidy (merged ++ rest)) :
    rest.foldl mergeStep merged = merged ++ rest := by
  induction rest generalizing merged with
  | nil => simp
  | cons p rest ih =>
    have hstep : mergeStep merged p = merged ++ [p] :=
      mergeStep_of_lt fun q hq => (List.pairwise_append.1 ht.apart).2.2 q hq p List.mem_cons_self
    rw [List.foldl_cons, hstep, ih]
    · simp
    · simpa using ht

/-- A tidy list stays as it is. -/
theorem coalesce_of_tidy (ht : Tidy l) : coalesce l = l := by
  have htidy : Tidy ([] ++ l) := ht
  exact foldl_mergeStep_of_tidy htidy

/-- Tidy pieces all behind the last one join nothing. -/
theorem foldl_mergeStep_behind (ht : Tidy rest) (hbehind : ∀ q ∈ rest, last.stop < q.offset) :
    rest.foldl mergeStep (merged ++ [last]) = merged ++ last :: rest := by
  induction rest generalizing merged last with
  | nil => rfl
  | cons p rest ih =>
    have hlt : last.stop < p.offset := hbehind p List.mem_cons_self
    have hstep : mergeStep (merged ++ [last]) p = merged ++ [last] ++ [p] := by
      unfold Piece.stop at hlt
      rw [mergeStep_concat, if_neg (by omega)]
    rw [List.foldl_cons, hstep, ih ht.tail (List.pairwise_cons.1 ht.apart).1]
    simp

/-- A piece put at the end. -/
theorem joinBetween_nil {pre : List Piece} : joinBetween pre p [] = mergeStep pre p := rfl

/-- A piece put before another. -/
theorem joinBetween_cons {q : Piece} {pre post : List Piece} : joinBetween pre p (q :: post) =
    if p.stop = q.offset then mergeStep pre ⟨p.offset, p.nbytes + q.nbytes⟩ ++ post
    else mergeStep pre p ++ q :: post := rfl

/-- A piece among others joins the one before it and the one behind it, each if
they touch. -/
theorem coalesce_insert {pre post : List Piece} (ht : Tidy (pre ++ post)) :
    coalesce (pre ++ p :: post) = joinBetween pre p post := by
  have hpre : coalesce pre = pre := coalesce_of_tidy (ht.sublist (List.sublist_append_left _ _))
  have hfold : coalesce (pre ++ p :: post) = post.foldl mergeStep (mergeStep pre p) := by
    unfold coalesce at hpre ⊢
    rw [List.foldl_append, hpre, List.foldl_cons]
  rw [hfold]
  obtain ⟨left, m, hstep, hstop, hlonger⟩ : ∃ left m, mergeStep pre p = left ++ [m] ∧
      m.stop = p.stop ∧ ∀ n, mergeStep pre ⟨p.offset, p.nbytes + n⟩ =
        left ++ [⟨m.offset, m.nbytes + n⟩] := by
    rcases List.eq_nil_or_concat pre with rfl | ⟨pre, last, rfl⟩
    · exact ⟨[], p, rfl, rfl, fun n => rfl⟩
    · rw [List.concat_eq_append, mergeStep_concat]
      by_cases htouch : last.offset + last.nbytes = p.offset
      · rw [if_pos htouch]
        refine ⟨pre, _, rfl, ?_, ?_⟩
        · unfold Piece.stop
          dsimp only
          omega
        · intro n
          rw [mergeStep_concat, if_pos htouch, Nat.add_assoc]
      · rw [if_neg htouch]
        refine ⟨pre ++ [last], p, rfl, rfl, ?_⟩
        intro n
        rw [mergeStep_concat, if_neg htouch]
  cases post with
  | nil => rfl
  | cons q post =>
    have hpost : Tidy (q :: post) := ht.sublist (List.sublist_append_right _ _)
    have hlater := (List.pairwise_cons.1 hpost.apart).1
    rw [List.foldl_cons]
    rw [joinBetween_cons]
    rw [hlonger, hstep, mergeStep_concat]
    have htouch : m.offset + m.nbytes = q.offset ↔ p.stop = q.offset := by
      rw [← hstop]
      rfl
    by_cases h : p.stop = q.offset
    · rw [if_pos (htouch.2 h), if_pos h, foldl_mergeStep_behind hpost.tail, List.append_assoc]
      · rfl
      · intro r hr
        have := hlater r hr
        have := htouch.2 h
        unfold Piece.stop at *
        dsimp only
        omega
    · rw [if_neg (fun hm => h (htouch.1 hm)), if_neg h, foldl_mergeStep_behind hpost.tail hlater]

/-- An empty piece that touches one of the tidy pieces around it vanishes in it. -/
theorem coalesce_insert_empty {pre post : List Piece} {o : ℕ} (ht : Tidy (pre ++ post))
    (h : (∃ q ∈ pre.getLast?, q.stop = o) ∨ ∃ q ∈ post.head?, q.offset = o) :
    coalesce (pre ++ ⟨o, 0⟩ :: post) = pre ++ post := by
  have hbefore : (∃ q ∈ pre.getLast?, q.stop = o) → mergeStep pre ⟨o, 0⟩ = pre := by
    rintro ⟨q, hq, hstop⟩
    rcases List.eq_nil_or_concat pre with rfl | ⟨init, last, rfl⟩
    · cases hq
    · rw [List.concat_eq_append] at hq ⊢
      rw [List.getLast?_concat] at hq
      cases hq
      unfold Piece.stop at hstop
      rw [mergeStep_concat, if_pos hstop]
      rfl
  rw [coalesce_insert ht]
  cases post with
  | nil =>
    have htouch : ∃ q ∈ pre.getLast?, q.stop = o := by simpa using h
    rw [joinBetween_nil, hbefore htouch, List.append_nil]
  | cons q post =>
    rw [joinBetween_cons]
    split
    · next hnext =>
      have hgap : ∀ r ∈ pre, r.stop < (⟨o, 0 + q.nbytes⟩ : Piece).offset := by
        intro r hr
        have := (List.pairwise_append.1 ht.apart).2.2 r hr q List.mem_cons_self
        unfold Piece.stop at hnext this ⊢
        dsimp only at hnext ⊢
        omega
      have hsame : (⟨o, 0 + q.nbytes⟩ : Piece) = q := by
        cases q
        unfold Piece.stop at hnext
        simp_all
      rw [mergeStep_of_lt hgap, hsame, List.append_assoc]
      rfl
    · next hgap =>
      have htouch : ∃ q ∈ pre.getLast?, q.stop = o := by
        rcases h with h | ⟨r, hr, hoff⟩
        · exact h
        · cases hr
          exact absurd hoff.symm hgap
      rw [hbefore htouch]

/-- One that touches neither stays an empty piece of its own. -/
theorem mem_coalesce_insert {pre post : List Piece} (ht : Tidy (pre ++ post))
    (hpre : ∀ q ∈ pre.getLast?, q.stop ≠ p.offset) (hpost : ∀ q ∈ post.head?, q.offset ≠ p.stop) :
    p ∈ coalesce (pre ++ p :: post) := by
  have hlast : p ∈ mergeStep pre p := by
    unfold mergeStep
    split
    · exact List.mem_singleton_self _
    · next last hl =>
      have hgap := hpre last hl
      unfold Piece.stop at hgap
      rw [if_neg hgap]
      simp
  rw [coalesce_insert ht]
  cases post with
  | nil => exact hlast
  | cons q post =>
    rw [joinBetween_cons]
    rw [if_neg (fun h => hpost q rfl h.symm)]
    exact List.mem_append_left _ hlast

end Coalesce

/-- The order of pairs: by offset, then by length. -/
def Piece.Before (p q : Piece) : Prop :=
  p.offset < q.offset ∨ (p.offset = q.offset ∧ p.nbytes < q.nbytes)

instance (p q : Piece) : Decidable (p.Before q) := inferInstanceAs (Decidable (_ ∨ _))

/-- Halve what is left between two places of a list, as often as the fuel says. -/
def bisectLoop (l : List Piece) (p : Piece) : ℕ → ℕ → ℕ → ℕ
  | 0, lo, _ => lo
  | fuel + 1, lo, hi =>
    if lo < hi then
      match l[(lo + hi) / 2]? with
      | some q =>
        if p.Before q then bisectLoop l p fuel lo ((lo + hi) / 2)
        else bisectLoop l p fuel ((lo + hi) / 2 + 1) hi
      | none => lo
    else lo

/-- The place behind every entry that does not come after a piece. -/
def bisect (l : List Piece) (p : Piece) : ℕ := bisectLoop l p l.length 0 l.length

section Bisect

variable {l : List Piece} {p : Piece}

/-- In a list whose later entries come after a piece once one does, the halving
ends between those that do not and those that do. -/
theorem bisectLoop_spec (hmono : ∀ (j k : ℕ) (q r : Piece), j ≤ k → l[j]? = some q →
    l[k]? = some r → p.Before q → p.Before r)
    (fuel lo hi : ℕ) (hfuel : hi - lo ≤ fuel) (hle : lo ≤ hi)
    (hhi : hi ≤ l.length) (hbelow : ∀ j q, j < lo → l[j]? = some q → ¬ p.Before q)
    (habove : ∀ j q, hi ≤ j → l[j]? = some q → p.Before q) :
    bisectLoop l p fuel lo hi ≤ l.length ∧
      (∀ j q, j < bisectLoop l p fuel lo hi → l[j]? = some q → ¬ p.Before q) ∧
      ∀ j q, bisectLoop l p fuel lo hi ≤ j → l[j]? = some q → p.Before q := by
  induction fuel generalizing lo hi with
  | zero =>
    have heq : hi = lo := by omega
    subst heq
    exact ⟨hhi, hbelow, habove⟩
  | succ fuel ih =>
    unfold bisectLoop
    split
    · next hlt =>
      have hmid : (lo + hi) / 2 < l.length := by omega
      rw [List.getElem?_eq_getElem hmid]
      dsimp only
      have hat : l[(lo + hi) / 2]? = some l[(lo + hi) / 2] := List.getElem?_eq_getElem hmid
      split
      · next hbefore =>
        apply ih
        · omega
        · omega
        · omega
        · exact hbelow
        · exact fun j q hj hq => hmono _ j _ q hj hat hq hbefore
      · next hnot =>
        apply ih
        · omega
        · omega
        · omega
        · intro j q hj hq hb
          exact hnot (hmono j _ q _ (by omega) hq hat hb)
        · exact habove
    · have heq : hi = lo := by omega
      subst heq
      exact ⟨hhi, hbelow, habove⟩

/-- A tidy list falls in two: what does not come after a piece, and what does. -/
theorem bisect_split (ht : Tidy l) : ∃ pre post, l = pre ++ post ∧ bisect l p = pre.length ∧
    (∀ q ∈ pre, ¬ p.Before q) ∧ ∀ q ∈ post, p.Before q := by
  have hmono : ∀ (j k : ℕ) (q r : Piece), j ≤ k → l[j]? = some q → l[k]? = some r →
      p.Before q → p.Before r := by
    intro j k q r hjk hq hr hb
    rcases Nat.lt_or_eq_of_le hjk with hlt | rfl
    · obtain ⟨hj, rfl⟩ := List.getElem?_eq_some_iff.1 hq
      obtain ⟨hk, rfl⟩ := List.getElem?_eq_some_iff.1 hr
      have hapart := List.pairwise_iff_getElem.1 ht.apart j k hj hk hlt
      unfold Piece.Before at *
      unfold Piece.stop at hapart
      omega
    · rw [hq] at hr
      cases hr
      exact hb
  obtain ⟨hle, hbelow, habove⟩ := bisectLoop_spec hmono l.length 0 l.length (by omega) (by omega)
    (Nat.le_refl _) (by omega) (fun j q hj hq => by
      have := (List.getElem?_eq_some_iff.1 hq).1
      omega)
  refine ⟨l.take (bisect l p), l.drop (bisect l p), (List.take_append_drop _ _).symm, ?_, ?_, ?_⟩
  · rw [List.length_take]
    exact (Nat.min_eq_left hle).symm
  · intro q hq
    obtain ⟨j, hj, rfl⟩ := List.mem_iff_getElem.1 hq
    rw [List.length_take] at hj
    exact hbelow j _ (by unfold bisect at hj; omega) (by
      rw [List.getElem_take]
      exact List.getElem?_eq_getElem _)
  · intro q hq
    obtain ⟨j, hj, rfl⟩ := List.mem_iff_getElem.1 hq
    exact habove (bisect l p + j) _ (by unfold bisect; omega) (by
      rw [List.getElem_drop]
      exact List.getElem?_eq_getElem _)

end Bisect

section Between

variable {p : Piece} {pre post : List Piece}

/-- A piece that shares nothing with tidy ones leaves them tidy where it belongs. -/
theorem coalesce_between (ht : Tidy (pre ++ post)) (hpre : ∀ q ∈ pre, ¬ p.Before q)
    (hpost : ∀ q ∈ post, p.Before q) (hdisj : ∀ q ∈ pre ++ post, q.Disjoint p)
    (hp : 0 < p.nbytes) : Tidy (coalesce (pre ++ p :: post)) := by
  have hall := List.pairwise_append.1 ht.apart
  have hapart : ∀ q ∈ pre ++ post, q.stop ≤ p.offset ∨ p.stop ≤ q.offset :=
    fun q hq => (hdisj q hq).apart (ht.solid q hq) hp
  have hbefore : ∀ q ∈ pre, q.stop ≤ p.offset := by
    intro q hq
    have hnot := hpre q hq
    have hside := hapart q (List.mem_append_left _ hq)
    unfold Piece.Before at hnot
    unfold Piece.stop at hside ⊢
    omega
  have hbehind : ∀ q ∈ post, p.stop ≤ q.offset := by
    intro q hq
    have hlater := hpost q hq
    have hside := hapart q (List.mem_append_right _ hq)
    have hsolid := ht.solid q (List.mem_append_right _ hq)
    unfold Piece.Before at hlater
    unfold Piece.stop at hside ⊢
    omega
  apply coalesce_tidy
  · refine List.pairwise_append.2 ⟨hall.1.imp Nat.le_of_lt, ?_, ?_⟩
    · exact List.pairwise_cons.2 ⟨hbehind, hall.2.1.imp Nat.le_of_lt⟩
    · intro q hq r hr
      rcases List.mem_cons.1 hr with rfl | hr
      · exact hbefore q hq
      · exact Nat.le_of_lt (hall.2.2 q hq r hr)
  · intro q hq
    rcases List.mem_append.1 hq with hq | hq
    · exact ht.solid q (List.mem_append_left _ hq)
    · rcases List.mem_cons.1 hq with rfl | hq
      · exact hp
      · exact ht.solid q (List.mem_append_right _ hq)

/-- A tidy piece that touches an empty one is the last before it or the first
behind it. -/
theorem touches_iff (ht : Tidy (pre ++ post)) (hpre : ∀ q ∈ pre, ¬ p.Before q)
    (hpost : ∀ q ∈ post, p.Before q) (hp : p.nbytes = 0) :
    (∃ q ∈ pre ++ post, q.offset = p.offset ∨ q.stop = p.offset) ↔
      (∃ q ∈ pre.getLast?, q.stop = p.offset) ∨ ∃ q ∈ post.head?, q.offset = p.offset := by
  have hall := List.pairwise_append.1 ht.apart
  constructor
  · rintro ⟨q, hq, htouch⟩
    have hsolid := ht.solid q hq
    rcases List.mem_append.1 hq with hq | hq
    · left
      have hnot := hpre q hq
      have hstop : q.stop = p.offset := by
        unfold Piece.Before at hnot
        unfold Piece.stop at htouch ⊢
        omega
      rcases List.eq_nil_or_concat pre with rfl | ⟨init, last, rfl⟩
      · cases hq
      · rw [List.concat_eq_append] at hq hall hpre ⊢
        refine ⟨last, List.getLast?_concat, ?_⟩
        rcases List.mem_append.1 hq with hq | hq
        · have hgap := (List.pairwise_append.1 hall.1).2.2 q hq last List.mem_cons_self
          have hlast := hpre last (by simp)
          unfold Piece.Before at hlast
          omega
        · rwa [← List.mem_singleton.1 hq]
    · right
      have hlater := hpost q hq
      have hstart : q.offset = p.offset := by
        unfold Piece.Before at hlater
        unfold Piece.stop at htouch
        omega
      cases post with
      | nil => cases hq
      | cons first post =>
        refine ⟨first, rfl, ?_⟩
        rcases List.mem_cons.1 hq with rfl | hq
        · exact hstart
        · have hgap := (List.pairwise_cons.1 hall.2.1).1 q hq
          have hfirst := hpost first List.mem_cons_self
          unfold Piece.Before at hfirst
          unfold Piece.stop at hgap
          omega
  · rintro (⟨q, hq, hstop⟩ | ⟨q, hq, hstart⟩)
    · exact ⟨q, List.mem_append_left _ (List.mem_of_getLast? hq), .inr hstop⟩
    · exact ⟨q, List.mem_append_right _ (List.mem_of_mem_head? hq), .inl hstart⟩

end Between


end Mstar.FreeLists
