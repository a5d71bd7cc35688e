import Mstar.PageSlots

/-!
# A page is known from its ids and items

Inside an item each slot names the next one; any other slot is followed by a
token or by the first slot of an item. So if two runs of slots have the same
tokens and the same items, and come after the same slot, the shorter is a prefix
of the longer. The induction is on the shorter run, the slot before it carried
along.
-/

namespace Mstar.Keys

/-- The slot that must come after this one: inside an item, the item's next. -/
def Slot.next : Slot → Option Slot
  | .token _ => none
  | .media digest length offset =>
    if offset + 1 < length then some (.media digest length (offset + 1)) else none

/-- A slot that need not come after another: a token, or the first of an item. -/
def Slot.Starts : Slot → Prop
  | .token _ => True
  | .media _ _ offset => offset = 0

/-- What may come after a slot. -/
def Slot.Follows (x y : Slot) : Prop :=
  match x.next with
  | some z => y = z
  | none => y.Starts

variable {s t : List Slot} {x : Slot}

/-- The next slot of a medium. -/
theorem next_media {digest : Bytes} {length offset : ℕ} (h : offset + 1 < length) :
    (Slot.media digest length offset).next = some (.media digest length (offset + 1)) := by
  simp [Slot.next, h]

/-- An item's slots follow one another. -/
theorem isChain_media (digest : Bytes) (length offset n : ℕ) (h : offset + n ≤ length) :
    ((List.range' offset n).map (Slot.media digest length)).IsChain Slot.Follows := by
  induction n generalizing offset with
  | zero => simp
  | succ n ih =>
    rw [List.range'_succ, List.map_cons, List.isChain_cons]
    constructor
    · intro y hy
      cases n with
      | zero => simp at hy
      | succ n =>
        rw [List.range'_succ, List.map_cons, List.head?_cons, Option.mem_some_iff] at hy
        unfold Slot.Follows
        rw [next_media (by omega)]
        exact hy.symm
    · exact ih (offset + 1) (by omega)

/-- Any tokens follow one another. -/
theorem isChain_tokens (ids : List ℕ) : (ids.map Slot.token).IsChain Slot.Follows := by
  induction ids with
  | nil => simp
  | cons id ids ih =>
    rw [List.map_cons, List.isChain_cons]
    constructor
    · intro y hy
      cases ids with
      | nil => simp at hy
      | cons other ids =>
        rw [List.map_cons, List.head?_cons, Option.mem_some_iff] at hy
        rw [← hy]
        simp [Slot.Follows, Slot.next, Slot.Starts]
    · exact ih

/-- A span's slots follow one another, from a first one that starts to a last
one that calls for no other. -/
theorem Content.isChain_slots (c : Content) :
    c.slots.IsChain Slot.Follows ∧ (∀ y ∈ c.slots.head?, y.Starts) ∧
      ∀ y ∈ c.slots.getLast?, y.next = none := by
  cases c with
  | ids tokens =>
    refine ⟨isChain_tokens tokens, ?_, ?_⟩
    · intro y hy
      rw [Content.slots, List.head?_map] at hy
      obtain ⟨id, _, rfl⟩ := Option.map_eq_some_iff.1 hy
      simp [Slot.Starts]
    · intro y hy
      rw [Content.slots, List.getLast?_map] at hy
      obtain ⟨id, _, rfl⟩ := Option.map_eq_some_iff.1 hy
      simp [Slot.next]
  | media length digest hlength =>
    obtain ⟨length, rfl⟩ : ∃ n, length = n + 1 := ⟨length - 1, by omega⟩
    refine ⟨?_, ?_, ?_⟩
    · rw [Content.slots, List.range_eq_range']
      exact isChain_media digest _ _ _ (by omega)
    · intro y hy
      rw [Content.slots, List.range_succ_eq_map, List.map_cons, List.head?_cons,
        Option.mem_some_iff] at hy
      rw [← hy]
      simp [Slot.Starts]
    · intro y hy
      rw [Content.slots, List.range_succ, List.map_append, List.map_singleton,
        List.getLast?_concat, Option.mem_some_iff] at hy
      rw [← hy]
      simp [Slot.next]

/-- A sequence's slots follow one another, and its last calls for no other. -/
theorem isChain_slots (layout : List Content) :
    (slots layout).IsChain Slot.Follows ∧ ∀ y ∈ (slots layout).getLast?, y.next = none := by
  induction layout using List.reverseRecOn with
  | nil => simp [slots]
  | append_singleton layout c ih =>
    obtain ⟨hchain, hlast⟩ := ih
    obtain ⟨hspan, hstarts, hend⟩ := c.isChain_slots
    rw [slots_concat]
    constructor
    · rw [List.isChain_append]
      refine ⟨hchain, hspan, ?_⟩
      intro y hy z hz
      unfold Slot.Follows
      rw [hlast y hy]
      exact hstarts z hz
    · intro y hy
      rw [List.getLast?_append] at hy
      cases hc : c.slots.getLast? with
      | none =>
        rw [hc, Option.none_or] at hy
        exact hlast y hy
      | some z =>
        rw [hc, Option.some_or, Option.mem_some_iff] at hy
        exact hy ▸ hend z (by rw [hc]; rfl)

/-- Items start no earlier than the slots they are read from. -/
theorem le_start {start : ℕ} {i : PageItem} (h : i ∈ itemsFrom start s) : start ≤ i.start := by
  induction s generalizing start with
  | nil => simp [itemsFrom] at h
  | cons y s ih =>
    cases y with
    | token id =>
      have := ih h
      omega
    | media digest length offset =>
      unfold itemsFrom at h
      split at h
      next =>
        rcases List.mem_cons.1 h with rfl | h
        · exact le_rfl
        · have := ih h
          omega
      next =>
        have := ih h
        omega

/-- An item starts within the slots. -/
theorem start_lt {start : ℕ} {i : PageItem} (h : i ∈ itemsFrom start s) :
    i.start < start + s.length := by
  induction s generalizing start with
  | nil => simp [itemsFrom] at h
  | cons y s ih =>
    rw [List.length_cons]
    cases y with
    | token id =>
      have := ih h
      omega
    | media digest length offset =>
      unfold itemsFrom at h
      split at h
      next =>
        rcases List.mem_cons.1 h with rfl | h
        · dsimp only
          omega
        · have := ih h
          omega
      next =>
        have := ih h
        omega

/-- Two runs hold the same tokens and the same items. -/
def SameView (start : ℕ) (s t : List Slot) : Prop :=
  tokensOf s = tokensOf t ∧ itemsFrom start s = itemsFrom start t

/-- Past a slot they share, two runs still hold the same. -/
theorem SameView.tail {start : ℕ} {y : Slot} (h : SameView start (y :: s) (y :: t)) :
    SameView (start + 1) s t := by
  obtain ⟨htokens, hitems⟩ := h
  cases y with
  | token id =>
    constructor
    · simpa [tokensOf, Slot.token?] using htokens
    · simpa [itemsFrom] using hitems
  | media digest length offset =>
    constructor
    · exact htokens
    · unfold itemsFrom at hitems
      split at hitems
      next => exact (List.cons.inj hitems).2
      next => exact hitems

/-- A token on one side and an item that starts on the other are told apart. -/
theorem not_sameView_token_media {start id length offset : ℕ} {digest : Bytes}
    (hstart : start = 0 ∨ offset = 0) :
    ¬ SameView start (.token id :: s) (.media digest length offset :: t) := by
  intro h
  have hitems := h.2
  simp only [itemsFrom, if_pos hstart] at hitems
  have hmem : (⟨start, offset, length, digest⟩ : PageItem) ∈ itemsFrom (start + 1) s := by
    rw [hitems]
    exact List.mem_cons_self
  have := le_start hmem
  dsimp only at this
  omega

/-- Slots that start what they hold are told apart by it. -/
theorem SameView.head_eq {start : ℕ} {y z : Slot} (h : SameView start (y :: s) (z :: t))
    (hy : start = 0 ∨ y.Starts) (hz : start = 0 ∨ z.Starts) : y = z := by
  cases y with
  | token i =>
    cases z with
    | token j =>
      have htokens := h.1
      simp only [tokensOf, List.filterMap_cons, Slot.token?, List.cons.injEq] at htokens
      rw [htokens.1]
    | media digest length offset => exact absurd h (not_sameView_token_media hz)
  | media digest length offset =>
    cases z with
    | token j => exact absurd ⟨h.1.symm, h.2.symm⟩ (not_sameView_token_media hy)
    | media digest' length' offset' =>
      have hoffset : start = 0 ∨ offset = 0 := hy
      have hoffset' : start = 0 ∨ offset' = 0 := hz
      have hitems := h.2
      simp only [itemsFrom, if_pos hoffset, if_pos hoffset', List.cons.injEq,
        PageItem.mk.injEq] at hitems
      obtain ⟨⟨_, rfl, rfl, rfl⟩, _⟩ := hitems
      rfl

/-- After the same slot, the shorter of two runs that hold the same starts the
longer. -/
theorem SameView.isPrefix_after {start : ℕ} (h : SameView start s t) (hstart : 0 < start)
    (hs : (x :: s).IsChain Slot.Follows) (ht : (x :: t).IsChain Slot.Follows)
    (hlen : s.length ≤ t.length) : s <+: t := by
  induction s generalizing t x start with
  | nil => exact List.nil_prefix
  | cons y s ih =>
    cases t with
    | nil => simp at hlen
    | cons z t =>
      rw [List.isChain_cons_cons] at hs ht
      have heq : y = z := by
        have hy := hs.1
        have hz := ht.1
        unfold Slot.Follows at hy hz
        cases hx : x.next with
        | some next =>
          rw [hx] at hy hz
          exact hy.trans hz.symm
        | none =>
          rw [hx] at hy hz
          exact h.head_eq (.inr hy) (.inr hz)
      subst heq
      rw [List.prefix_cons_inj]
      exact ih h.tail (by omega) hs.2 ht.2 (by simpa using hlen)

/-- From the start of a page, the shorter of two runs that hold the same starts
the longer. -/
theorem SameView.isPrefix (h : SameView 0 s t) (hs : s.IsChain Slot.Follows)
    (ht : t.IsChain Slot.Follows) (hlen : s.length ≤ t.length) : s <+: t := by
  cases s with
  | nil => exact List.nil_prefix
  | cons y s =>
    cases t with
    | nil => simp at hlen
    | cons z t =>
      have heq : y = z := h.head_eq (.inl rfl) (.inl rfl)
      subst heq
      rw [List.prefix_cons_inj]
      exact h.tail.isPrefix_after (by omega) hs ht (by simpa using hlen)

/-- Runs that hold the same are the same, if the shorter one calls for no more. -/
theorem SameView.eq_of_ends (h : SameView 0 s t) (hs : s.IsChain Slot.Follows)
    (ht : t.IsChain Slot.Follows) (hlen : s.length ≤ t.length) (hne : s ≠ [])
    (hend : ∀ y ∈ s.getLast?, y.next = none) : s = t := by
  obtain ⟨more, rfl⟩ := h.isPrefix hs ht hlen
  cases more with
  | nil => rw [List.append_nil]
  | cons z more =>
    have htokens : tokensOf (z :: more) = [] := by
      have := h.1
      rwa [tokensOf_append, List.self_eq_append_right] at this
    have hitems : itemsFrom (0 + s.length) (z :: more) = [] := by
      have := h.2
      rwa [itemsFrom_append, List.self_eq_append_right] at this
    have hz : z.Starts := by
      have hlast : s.getLast hne ∈ s.getLast? := List.getLast_mem_getLast? hne
      have hfollows := (List.isChain_append.1 ht).2.2 _ hlast z (by simp)
      unfold Slot.Follows at hfollows
      rwa [hend _ hlast] at hfollows
    cases z with
    | token id => simp [tokensOf, Slot.token?] at htokens
    | media digest length offset =>
      have hoffset : offset = 0 := hz
      simp [itemsFrom, hoffset] at hitems

end Mstar.Keys
