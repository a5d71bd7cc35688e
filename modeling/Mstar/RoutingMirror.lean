import Mathlib.Algebra.Order.Ring.Int
import Mstar.MirrorPools

/-!
# The conductor's mirror of the prefix caches

Each replica's mirrored pool takes, all at dispatch, the steps its worker takes
for a request: it leases the cached pages of each label's prompt, takes pages
for the rest, files the whole keyed ones and the page of the last item that
ends inside one. A request's end releases its pages, and takes back its entries
if its walk never ran.
-/

namespace Mstar.Routing

/-- One write of a stream's layout. -/
structure PrefixSpan (Key : Type) where
  /-- How many positions it fills. -/
  length : ℕ
  /-- For an item that ends inside a page, the key of that page up to there. -/
  endKey : Option Key

/-- A label's stream, as the preprocess worker laid it out. -/
structure StreamLayout (Key : Type) where
  spans : List (PrefixSpan Key)
  /-- How many of the spans are keyed. -/
  keyedSpans : ℕ
  /-- The prefix that the stream's retention protects, if it has one. -/
  protectedPrefix : Option ℕ

/-- What a request opens a paged cache with. -/
structure KVReqConfig (Label Key : Type) [DecidableEq Label] where
  prefixCache : Bool
  /-- One key for each page of a label's keyed spans. -/
  prefixKeys : Label → Option (List Key)
  kvLayout : AList fun _ : Label => StreamLayout Key

/-- One label's prompt as its worker keys it. -/
structure Keyed (Key : Type) where
  keys : List Key
  /-- How many of its pages are whole. -/
  whole : ℕ
  /-- Its keyed positions. -/
  total : ℕ
  /-- Where each item that ends inside a page ends, and the key of that page. -/
  ends : List (ℕ × Key)

/-- What a placed request holds. -/
structure Placed (Key : Type) (replicas : ℕ) where
  replica : Fin replicas
  /-- Every page it holds: its lease and its own. -/
  pages : List Page
  /-- The entries it filed. -/
  indexed : List (Key × Page)

/-- Why a call of the mirror does not return. -/
inductive Failed
  /-- A call of the arena or the index raised. -/
  | raised (why : Raised)
  /-- A list has no such index. -/
  | indexError
  /-- `None` was used as a list. -/
  | typeError
  deriving DecidableEq

variable {Label Key : Type} [DecidableEq Label] [DecidableEq Key] {replicas : ℕ}

/-- `KVRoutingMirror`: the keyed labels whose walks run on these replicas, and
each replica's pool. -/
structure KVRoutingMirror (Label Key : Type) [DecidableEq Label] [DecidableEq Key]
    (replicas : ℕ) where
  pageSize : ℕ
  labels : Finset Label
  pools : Fin replicas → Pool Key

/-- A mirror before any request. -/
def KVRoutingMirror.new (numPages pageSize : ℕ) (labels : Finset Label) :
    KVRoutingMirror Label Key replicas :=
  ⟨pageSize, labels, fun _ => .mirrored numPages⟩

/-- The positions some spans fill. -/
def positions (spans : List (PrefixSpan Key)) : ℕ := (spans.map PrefixSpan.length).sum

/-- Where the items among some spans end that have an end key. -/
def itemEnds : ℕ → List (PrefixSpan Key) → List (ℕ × Key)
  | _, [] => []
  | total, span :: spans =>
    let total := total + span.length
    match span.endKey with
    | some key => (total, key) :: itemEnds total spans
    | none => itemEnds total spans

/-- A label's prompt over its layout and keys. -/
def keyedOf (pageSize : ℕ) (layout : StreamLayout Key) (keys : List Key) : Keyed Key :=
  let spans := layout.spans.take layout.keyedSpans
  let whole := positions spans / pageSize
  { keys := keys
    whole := match layout.protectedPrefix with
      | some kept => min whole (kept / pageSize)
      | none => whole
    total := positions spans
    ends := itemEnds 0 spans }

/-- `_keyed`, of one label. -/
def KVRoutingMirror.keyed (m : KVRoutingMirror Label Key replicas) (config : KVReqConfig Label Key)
    (label : Label) : Option (Keyed Key) :=
  if config.prefixCache then
    match config.prefixKeys label, config.kvLayout.lookup label with
    | some (key :: keys), some layout =>
      if label ∈ m.labels then some (keyedOf m.pageSize layout (key :: keys)) else none
    | _, _ => none
  else none

/-- `_image_end`: the last item that ends inside the page after `held`
positions. -/
def imageEnd (pageSize : ℕ) (prompt : Keyed Key) (held : ℕ) : Option (ℕ × Key) :=
  prompt.ends.reverse.find? fun item =>
    held < item.1 ∧ item.1 < min (held + pageSize) prompt.total

/-- A call of the arena or the index, made by the mirror. -/
def calling {α : Type} : Except Raised α → Except Failed α
  | .ok a => .ok a
  | .error why => .error (.raised why)

/-- A label's lease: the cached pages of its prompt but the last, retained, and
a hit on the item that ends inside the next one. -/
def lease (pageSize : ℕ) (s : Pool Key) (prompt : Keyed Key) :
    Except Failed (List Page × Pool Key) := do
  let (found, index) := s.index.lookup prompt.keys
  let leased := found.take (prompt.keys.length - 1)
  let index := match imageEnd pageSize prompt (leased.length * pageSize) with
    | some item => (index.lookup [item.2]).2
    | none => index
  let s ← calling (({ s with index := index } : Pool Key).retain leased)
  return (leased, s)

/-- Evict on a shortfall of free pages. -/
def makeRoom (s : Pool Key) (need : ℕ) : Except Failed (Pool Key) :=
  if s.arena.free.length < need then
    Prod.snd <$> calling (s.evict (need - s.arena.free.length) none)
  else .ok s

/-- As many pages of its own as the label needs and the pool has. -/
def takeOwn (s : Pool Key) (need : ℕ) : Except Failed (List Page × Pool Key) := do
  let s ← makeRoom s need
  match s.arena.acquireLast (min need s.arena.free.length) with
  | none => throw .typeError
  | some (own, arena) => return (own, { s with arena := arena })

/-- The label's whole keyed pages filed, and the entries that are its own. -/
def fileOwn (s : Pool Key) (prompt : Keyed Key) (leased own : List Page) :
    Except Failed (List (Key × Page) × Pool Key) := do
  let run := min (prompt.whole - leased.length) own.length
  if run = 0 then return ([], s)
  let filed := (prompt.keys.drop leased.length).take run
  let (_, s) ← calling (s.insertRun filed (own.take run) leased.getLast?)
  return ((filed.zip (own.take run)).filter fun entry =>
    s.index.byKey.lookup entry.1 = some entry.2, s)

/-- The page before page `page` of a prompt, if the index has it. -/
def pageAbove (s : Pool Key) (prompt : Keyed Key) (page : ℕ) : Except Failed (Option Page) :=
  if page = 0 then .ok none
  else match prompt.keys[page - 1]? with
    | none => .error .indexError
    | some above => .ok (s.index.byKey.lookup above)

/-- `_file_item_end`: the page of the last item that ends inside one, filed in
a free page under the page before it. -/
def fileItemEnd (pageSize : ℕ) (s : Pool Key) (prompt : Keyed Key) (item : ℕ × Key) :
    Except Failed (List (Key × Page) × Pool Key) := do
  let page := item.1 / pageSize
  let parent ← pageAbove s prompt page
  if page ≠ 0 ∧ parent = none ∨ (s.index.byKey.lookup item.2).isSome ∨ s.arena.free = [] then
    return ([], s)
  match s.arena.acquireLast 1 with
  | some (copy :: rest, arena) =>
    let (_, s) ← calling (({ s with arena := arena } : Pool Key).insert item.2 copy parent)
    let s ← calling (s.release (copy :: rest))
    return ([(item.2, copy)], s)
  | some ([], _) => throw .indexError
  | none => throw .typeError

/-- The last item that ends inside a page, if there is one. -/
def fileLastEnd (pageSize : ℕ) (s : Pool Key) (prompt : Keyed Key) :
    Except Failed (List (Key × Page) × Pool Key) :=
  match prompt.ends.getLast? with
  | none => .ok ([], s)
  | some item => fileItemEnd pageSize s prompt item

/-- What a request does on one label of `total` pages: the pages it then holds,
and the entries it filed. -/
def placeLabel (pageSize : ℕ) (s : Pool Key) (prompt : Keyed Key) (total : ℕ) :
    Except Failed (List Page × List (Key × Page) × Pool Key) := do
  let (leased, s) ← lease pageSize s prompt
  let (own, s) ← takeOwn s (total - leased.length)
  let (entries, s) ← fileOwn s prompt leased own
  let (ending, s) ← fileLastEnd pageSize s prompt
  return (leased ++ own, entries ++ ending, s)

/-- What a request does on its labels, one after the other. -/
def placeLabels (pageSize : ℕ) (keyed : Label → Option (Keyed Key)) :
    List (Sigma fun _ : Label => StreamLayout Key) → Pool Key →
      Except Failed (List Page × List (Key × Page) × Pool Key)
  | [], s => .ok ([], [], s)
  | ⟨label, layout⟩ :: labels, s => do
    let total := (positions layout.spans + pageSize - 1) / pageSize
    let (pages, entries, s) ← placeLabel pageSize s ((keyed label).getD ⟨[], 0, 0, []⟩) total
    let (held, indexed, s) ← placeLabels pageSize keyed labels s
    return (pages ++ held, entries ++ indexed, s)

namespace KVRoutingMirror

/-- `add_request`: nothing for a request without a layout. -/
def addRequest (m : KVRoutingMirror Label Key replicas) (config : KVReqConfig Label Key)
    (replica : Fin replicas) :
    Except Failed (Option (Placed Key replicas) × KVRoutingMirror Label Key replicas) := do
  if config.kvLayout.entries = [] then return (none, m)
  let (held, indexed, s) ←
    placeLabels m.pageSize (m.keyed config) config.kvLayout.entries (m.pools replica)
  return (some ⟨replica, held, indexed⟩, { m with pools := Function.update m.pools replica s })

/-- `remove_request`. -/
def removeRequest (m : KVRoutingMirror Label Key replicas) (handle : Placed Key replicas)
    (ran : Bool) : Except Failed (KVRoutingMirror Label Key replicas) := do
  let s ← calling ((m.pools handle.replica).release handle.pages)
  let s ← calling (if ran then .ok s else s.drop handle.indexed)
  return { m with pools := Function.update m.pools handle.replica s }

end KVRoutingMirror

section Steps

variable {n pageSize : ℕ} {listed : Page → ℕ} {s : Pool Key} {prompt : Keyed Key}

/-- A prompt with a key for each of its whole pages. -/
structure Keyed.Covered (pageSize : ℕ) (prompt : Keyed Key) : Prop where
  whole_le : prompt.whole ≤ prompt.keys.length
  ends_le : ∀ item ∈ prompt.ends, item.1 / pageSize ≤ prompt.keys.length

/-- A lease returns. Its pages are indexed, and listed once more. -/
theorem lease_spec (h : s.Mirrors n listed) (pageSize : ℕ) (prompt : Keyed Key) :
    ∃ leased s', lease pageSize s prompt = .ok (leased, s') ∧
      (s'.Mirrors n fun p => listed p + leased.count p) ∧ s.Files [] s' ∧
      ∀ p ∈ leased, (s'.index.key p).isSome := by
  have htouch : ∃ s₁ : Pool Key, s₁ = { s with index := (match imageEnd pageSize prompt
        (((s.index.pagesFor prompt.keys).take (prompt.keys.length - 1)).length * pageSize) with
      | some item => ((s.index.lookup prompt.keys).2.lookup [item.2]).2
      | none => (s.index.lookup prompt.keys).2) } ∧ s₁.Mirrors n listed ∧ s.Files [] s₁ ∧
      s₁.index.key = s.index.key := by
    obtain ⟨h₁, hkey₁, -⟩ := h.touch (s.index.pagesFor prompt.keys)
    have hfiles := Pool.Files.touch (s.index.pagesFor prompt.keys) (.start (s := s))
    cases imageEnd pageSize prompt
        (((s.index.pagesFor prompt.keys).take (prompt.keys.length - 1)).length * pageSize) with
    | none => exact ⟨_, rfl, h₁, hfiles, hkey₁⟩
    | some item =>
      obtain ⟨h₂, hkey₂, -⟩ := h₁.touch
        ((s.index.touch (s.index.pagesFor prompt.keys)).pagesFor [item.2])
      exact ⟨_, rfl, h₂, hfiles.touch _, hkey₂.trans hkey₁⟩
  obtain ⟨s₁, hs₁, h₁, hfiles, hkey⟩ := htouch
  obtain ⟨born, hs⟩ := h.sound
  obtain ⟨born₁, hsound₁⟩ := h₁.sound
  have hindexed : ∀ p ∈ (s.index.pagesFor prompt.keys).take (prompt.keys.length - 1),
      (s.index.key p).isSome := by
    intro p hp
    obtain ⟨key, hlookup⟩ := PrefixIndex.mem_pagesFor (List.mem_of_mem_take hp)
    rw [(hs.tree.names key p).1 hlookup]
    rfl
  obtain ⟨s', heq, h', hkey'⟩ := h₁.retain fun p hp =>
    hsound₁.owned p (by rw [hkey]; exact hindexed p hp)
  refine ⟨_, s', ?_, h', hfiles.retain heq, fun p hp => ?_⟩
  · rw [hs₁] at heq
    unfold lease PrefixIndex.lookup
    unfold PrefixIndex.lookup at heq
    dsimp only at heq ⊢
    rw [heq]
    rfl
  · rw [hkey', hkey]
    exact hindexed p hp

/-- Taking pages returns. They are not indexed, and listed once more, and what
was listed is indexed as before. -/
theorem takeOwn_spec (h : s.Mirrors n listed) (need : ℕ) :
    ∃ own s', takeOwn s need = .ok (own, s') ∧
      (s'.Mirrors n fun p => listed p + own.count p) ∧ s.Files [] s' ∧ own.Nodup ∧
      (∀ p ∈ own, s'.index.key p = none) ∧ ∀ p, 0 < listed p → s'.index.key p = s.index.key p := by
  have hroom : ∃ s₁, makeRoom s need = .ok s₁ ∧ s₁.Mirrors n listed ∧ s.Files [] s₁ ∧
      ∀ p, 0 < listed p → s₁.index.key p = s.index.key p := by
    unfold makeRoom
    split
    · obtain ⟨keys, s₁, heq, h₁, hkept, -⟩ := h.evict (need - s.arena.free.length)
      exact ⟨s₁, by rw [heq]; rfl, h₁, Pool.Files.evict .start heq, hkept⟩
    · exact ⟨s, rfl, h, .start, fun p _ => rfl⟩
  obtain ⟨s₁, heq₁, h₁, hfiles, hkept⟩ := hroom
  obtain ⟨own, arena, heq, -, hnodup, hnone, h'⟩ :=
    h₁.acquireLast (Nat.min_le_right need s₁.arena.free.length)
  refine ⟨own, _, ?_, h', hfiles.acquire heq, hnodup, hnone, hkept⟩
  unfold takeOwn
  rw [heq₁]
  simp only [bind, Except.bind, heq]
  rfl

/-- Filing own pages returns, and an entry is given back only if it was
filed. -/
theorem fileOwn_spec (h : s.Mirrors n listed) (hwhole : prompt.whole ≤ prompt.keys.length)
    {leased own : List Page} (hleased : ∀ p ∈ leased, (s.index.key p).isSome)
    (hnodup : own.Nodup) (hown : ∀ p ∈ own, 0 < listed p ∧ s.index.key p = none) :
    ∃ entries s' filed, fileOwn s prompt leased own = .ok (entries, s') ∧ s'.Mirrors n listed ∧
      s.Files filed s' ∧ ∀ entry ∈ entries, entry ∈ filed := by
  unfold fileOwn
  dsimp only
  by_cases hrun : min (prompt.whole - leased.length) own.length = 0
  · rw [if_pos hrun]
    exact ⟨[], s, [], rfl, h, .start, by simp⟩
  rw [if_neg hrun]
  have hlen : ((prompt.keys.drop leased.length).take
      (min (prompt.whole - leased.length) own.length)).length =
        (own.take (min (prompt.whole - leased.length) own.length)).length := by
    rw [List.length_take, List.length_take, List.length_drop]
    omega
  have hparent : ∀ q, leased.getLast? = some q → (s.index.key q).isSome := fun q hq =>
    hleased q (List.mem_of_getLast? hq)
  obtain ⟨inserted, s', filed, heq, h', hfiles, -, hfiled⟩ := h.insertRun hlen
    (hnodup.sublist (List.take_sublist _ _)) (fun p hp => hown p (List.mem_of_mem_take hp)) hparent
  obtain ⟨born, hs'⟩ := h'.sound
  rw [heq]
  refine ⟨_, s', filed, rfl, h', hfiles, fun entry hentry => ?_⟩
  obtain ⟨hmem, hnames⟩ := List.mem_filter.1 hentry
  exact hfiled entry.1 entry.2 hmem ((hs'.tree.names _ _).1 (of_decide_eq_true hnames))

/-- Filing the page of an item's end returns, and an entry is given back only
if it was filed. -/
theorem fileItemEnd_spec (h : s.Mirrors n listed) {item : ℕ × Key}
    (hitem : item.1 / pageSize ≤ prompt.keys.length) :
    ∃ entries s' filed, fileItemEnd pageSize s prompt item = .ok (entries, s') ∧
      s'.Mirrors n listed ∧ s.Files filed s' ∧ ∀ entry ∈ entries, entry ∈ filed := by
  obtain ⟨born, hs⟩ := h.sound
  have hparent : ∃ parent, pageAbove s prompt (item.1 / pageSize) = .ok parent ∧
      ∀ q, parent = some q → (s.index.key q).isSome := by
    unfold pageAbove
    generalize item.1 / pageSize = page at hitem
    by_cases hzero : page = 0
    · rw [if_pos hzero]
      exact ⟨none, rfl, fun q hq => by cases hq⟩
    · have hlt : page - 1 < prompt.keys.length := by omega
      rw [if_neg hzero, List.getElem?_eq_getElem hlt]
      refine ⟨_, rfl, fun q hq => ?_⟩
      rw [(hs.tree.names _ q).1 hq]
      rfl
  obtain ⟨parent, heq, hindexed⟩ := hparent
  unfold fileItemEnd
  dsimp only
  rw [heq]
  simp only [bind, Except.bind]
  split
  · exact ⟨[], s, [], rfl, h, .start, by simp⟩
  rename_i hgo
  have hone : 1 ≤ s.arena.free.length := by
    refine List.length_pos_iff.2 fun hnil => hgo ?_
    exact Or.inr (Or.inr hnil)
  obtain ⟨own, arena, hacquire, hlength, -, hnone, h₁⟩ := h.acquireLast hone
  obtain ⟨copy, rfl⟩ := List.length_eq_one_iff.1 hlength
  have hfree : ({ s with arena := arena } : Pool Key).index.key copy = none :=
    hnone copy (List.mem_singleton_self copy)
  have hlisted : 0 < listed copy + [copy].count copy := by
    rw [List.count_singleton_self]
    omega
  have hheld : ∀ p, [copy].count p ≤ listed p + [copy].count p := fun p => Nat.le_add_left _ _
  obtain ⟨filed, s₂, hinsert, h₂, hkeys⟩ := h₁.insert hlisted hfree hindexed item.2
  obtain ⟨s₃, hrelease, h₃, -⟩ := h₂.release hheld
  have hback : (fun p => listed p + [copy].count p - [copy].count p) = listed := by
    funext p
    exact Nat.add_sub_cancel ..
  rw [hback] at h₃
  have hfiles := Pool.Files.acquire (.start (s := s)) hacquire
  have hnew : filed = true := by
    by_contra hnot
    have hlookup : ({ s with arena := arena } : Pool Key).index.byKey.lookup item.2 = none := by
      by_contra hsome
      exact hgo (Or.inr (Or.inl (Option.isSome_iff_ne_none.2 hsome)))
    exact hnot (Pool.insert_files hinsert hlookup)
  subst hnew
  refine ⟨[(item.2, copy)], s₃, [] ++ [(item.2, copy)], ?_, h₃,
    (hfiles.file hinsert).release hrelease, fun entry hentry => hentry⟩
  rw [hacquire]
  simp only [calling, hinsert, hrelease]
  rfl

/-- Filing the last item's end returns, if there is one. -/
theorem fileLastEnd_spec (h : s.Mirrors n listed) (hc : prompt.Covered pageSize) :
    ∃ entries s' filed, fileLastEnd pageSize s prompt = .ok (entries, s') ∧
      s'.Mirrors n listed ∧ s.Files filed s' ∧ ∀ entry ∈ entries, entry ∈ filed := by
  unfold fileLastEnd
  cases hlast : prompt.ends.getLast? with
  | none => exact ⟨[], s, [], rfl, h, .start, by simp⟩
  | some item => exact fileItemEnd_spec h (hc.ends_le item (List.mem_of_getLast? hlast))

/-- Placing a request on one label returns. Its pages are listed once more,
and an entry is given back only if it was filed. -/
theorem placeLabel_spec (h : s.Mirrors n listed) (hc : prompt.Covered pageSize) (total : ℕ) :
    ∃ pages entries s' filed, placeLabel pageSize s prompt total = .ok (pages, entries, s') ∧
      (s'.Mirrors n fun p => listed p + pages.count p) ∧ s.Files filed s' ∧
      ∀ entry ∈ entries, entry ∈ filed := by
  obtain ⟨leased, s₁, heq₁, h₁, hfiles₁, hleased⟩ := lease_spec h pageSize prompt
  obtain ⟨own, s₂, heq₂, h₂, hfiles₂, hnodup, hnone, hkept⟩ :=
    takeOwn_spec h₁ (total - leased.length)
  have hleased₂ : ∀ p ∈ leased, (s₂.index.key p).isSome := by
    intro p hp
    have hpos := List.count_pos_iff.2 hp
    rw [hkept p (by omega)]
    exact hleased p hp
  have hown : ∀ p ∈ own, 0 < listed p + leased.count p + own.count p ∧ s₂.index.key p = none := by
    intro p hp
    have hpos := List.count_pos_iff.2 hp
    exact ⟨by omega, hnone p hp⟩
  obtain ⟨entries, s₃, filed₃, heq₃, h₃, hfiles₃, hentries₃⟩ :=
    fileOwn_spec h₂ hc.whole_le hleased₂ hnodup hown
  obtain ⟨ending, s₄, filed₄, heq₄, h₄, hfiles₄, hentries₄⟩ := fileLastEnd_spec h₃ hc
  have hcount : (fun p => listed p + leased.count p + own.count p) =
      fun p => listed p + (leased ++ own).count p := by
    funext p
    rw [List.count_append, Nat.add_assoc]
  refine ⟨leased ++ own, entries ++ ending, s₄, [] ++ [] ++ filed₃ ++ filed₄, ?_, hcount ▸ h₄,
    ((hfiles₁.trans hfiles₂).trans hfiles₃).trans hfiles₄, fun entry hentry => ?_⟩
  · unfold placeLabel
    simp only [heq₁, heq₂, heq₃, heq₄, bind, Except.bind]
    rfl
  · rcases List.mem_append.1 hentry with hmem | hmem
    · exact List.mem_append_left _ (List.mem_append_right _ (hentries₃ entry hmem))
    · exact List.mem_append_right _ (hentries₄ entry hmem)

omit [DecidableEq Label] in
/-- Placing a request on its labels returns. -/
theorem placeLabels_spec {keyed : Label → Option (Keyed Key)}
    (hkeyed : ∀ label prompt, keyed label = some prompt → prompt.Covered pageSize)
    (labels : List (Sigma fun _ : Label => StreamLayout Key)) (h : s.Mirrors n listed) :
    ∃ pages entries s' filed, placeLabels pageSize keyed labels s = .ok (pages, entries, s') ∧
      (s'.Mirrors n fun p => listed p + pages.count p) ∧ s.Files filed s' ∧
      ∀ entry ∈ entries, entry ∈ filed := by
  induction labels generalizing s listed with
  | nil => exact ⟨[], [], s, [], rfl, by simpa using h, .start, by simp⟩
  | cons entry labels ih =>
    obtain ⟨label, layout⟩ := entry
    have hc : ((keyed label).getD ⟨[], 0, 0, []⟩).Covered pageSize := by
      cases hlabel : keyed label with
      | none => exact ⟨Nat.le_refl 0, by simp⟩
      | some prompt => exact hkeyed label prompt hlabel
    obtain ⟨pages, entries, s₁, filed, heq, h₁, hfiles, hentries⟩ :=
      placeLabel_spec h hc ((positions layout.spans + pageSize - 1) / pageSize)
    obtain ⟨held, indexed, s', filed', heq', h', hfiles', hentries'⟩ := ih h₁
    have hcount : (fun p => listed p + pages.count p + held.count p) =
        fun p => listed p + (pages ++ held).count p := by
      funext p
      rw [List.count_append, Nat.add_assoc]
    refine ⟨pages ++ held, entries ++ indexed, s', filed ++ filed', ?_, hcount ▸ h',
      hfiles.trans hfiles', fun entry hentry => ?_⟩
    · unfold placeLabels
      simp only [heq, heq', bind, Except.bind]
      rfl
    · rcases List.mem_append.1 hentry with hmem | hmem
      · exact List.mem_append_left _ (hentries entry hmem)
      · exact List.mem_append_right _ (hentries' entry hmem)

end Steps

section Layouts

omit [DecidableEq Key] in
/-- An item ends within its spans. -/
theorem itemEnds_le {spans : List (PrefixSpan Key)} {total : ℕ} {item : ℕ × Key}
    (h : item ∈ itemEnds total spans) : item.1 ≤ total + positions spans := by
  induction spans generalizing total with
  | nil => cases h
  | cons span spans ih =>
    have hsum : positions (span :: spans) = span.length + positions spans := by
      unfold positions
      rw [List.map_cons, List.sum_cons]
    rw [hsum]
    unfold itemEnds at h
    dsimp only at h
    cases hend : span.endKey with
    | none =>
      rw [hend] at h
      have := ih h
      omega
    | some key =>
      rw [hend] at h
      rcases List.mem_cons.1 h with rfl | h
      · omega
      · have := ih h
        omega

/-- A config with a key for each whole page of its labels' keyed spans. -/
def KVReqConfig.KeysPages (pageSize : ℕ) (config : KVReqConfig Label Key) : Prop :=
  ∀ label layout keys, config.kvLayout.lookup label = some layout →
    config.prefixKeys label = some keys →
    positions (layout.spans.take layout.keyedSpans) / pageSize ≤ keys.length

/-- The prompts of such a config are covered. -/
theorem KVRoutingMirror.keyed_covered {m : KVRoutingMirror Label Key replicas}
    {config : KVReqConfig Label Key} (hconfig : config.KeysPages m.pageSize) {label : Label}
    {prompt : Keyed Key} (h : m.keyed config label = some prompt) :
    prompt.Covered m.pageSize := by
  unfold KVRoutingMirror.keyed at h
  split at h
  case isFalse => cases h
  split at h
  case h_2 => cases h
  rename_i key keys layout hkeys hlayout
  split at h
  case isFalse => cases h
  obtain rfl := Option.some.inj h
  have hlen := hconfig label layout (key :: keys) hlayout hkeys
  constructor
  · refine le_trans ?_ hlen
    unfold keyedOf
    dsimp only
    cases layout.protectedPrefix with
    | none => exact Nat.le_refl _
    | some kept => exact Nat.min_le_left _ _
  · intro item hitem
    have hle := itemEnds_le hitem
    rw [Nat.zero_add] at hle
    exact (Nat.div_le_div_right hle).trans hlen

end Layouts

end Mstar.Routing
