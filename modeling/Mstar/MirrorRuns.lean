import Mstar.RoutingMirror

/-!
# Runs of the routing mirror

Requests are placed on the replicas and end in any order. On each replica every
page but the sink is free or has as many owners as live handles list it, and
one more if it is indexed. Placing never raises, whether or not the pool can
hold the request, and what a request that never ran takes back out of the index
are entries it filed that still stand.
-/

namespace Mstar.Routing

variable {Label Key : Type} [DecidableEq Label] [DecidableEq Key] {replicas : ℕ}

/-- How often the live handles of one replica list a page. -/
def listings (live : List (Placed Key replicas)) (replica : Fin replicas) (p : Page) : ℕ :=
  ((live.filter fun handle => handle.replica = replica).flatMap Placed.pages).count p

/-- The mirrors that placing and ending requests lead to, with the handles of
those that have not ended. -/
inductive Runs (numPages pageSize : ℕ) (labels : Finset Label) :
    KVRoutingMirror Label Key replicas → List (Placed Key replicas) → Prop
  | new : Runs numPages pageSize labels (.new numPages pageSize labels) []
  | add {m m' : KVRoutingMirror Label Key replicas} {live : List (Placed Key replicas)}
      {config : KVReqConfig Label Key} {replica : Fin replicas}
      {placed : Option (Placed Key replicas)} : Runs numPages pageSize labels m live →
      config.KeysPages m.pageSize → m.addRequest config replica = .ok (placed, m') →
      Runs numPages pageSize labels m' (live ++ placed.toList)
  | remove {m m' : KVRoutingMirror Label Key replicas} {before after : List (Placed Key replicas)}
      {handle : Placed Key replicas} {ran : Bool} :
      Runs numPages pageSize labels m (before ++ handle :: after) →
      m.removeRequest handle ran = .ok m' → Runs numPages pageSize labels m' (before ++ after)

/-- What holds of a mirror between any two calls. -/
def Accounted (numPages : ℕ) (m : KVRoutingMirror Label Key replicas)
    (live : List (Placed Key replicas)) : Prop :=
  ∀ replica, (m.pools replica).Mirrors numPages (listings live replica)

section Listings

variable {live before after : List (Placed Key replicas)} {handle : Placed Key replicas}
  {replica : Fin replicas} {p : Page}

omit [DecidableEq Key] in
/-- The listings of some handles and some more. -/
theorem listings_append : listings (before ++ after) replica p =
    listings before replica p + listings after replica p := by
  unfold listings
  rw [List.filter_append, List.flatMap_append, List.count_append]

omit [DecidableEq Key] in
/-- The listings of one handle and some more. -/
theorem listings_cons : listings (handle :: live) replica p =
    (if handle.replica = replica then handle.pages.count p else 0) + listings live replica p := by
  unfold listings
  rw [List.filter_cons]
  by_cases h : handle.replica = replica
  · simp [h]
  · simp [h]

omit [DecidableEq Key] in
/-- No handle lists nothing. -/
theorem listings_nil : listings ([] : List (Placed Key replicas)) replica p = 0 := rfl

end Listings

section Calls

variable {numPages : ℕ} {m : KVRoutingMirror Label Key replicas}
  {live before after : List (Placed Key replicas)}

/-- Placing a request returns and keeps the accounts. Its entries were filed on
the way. -/
theorem Accounted.addRequest (h : Accounted numPages m live) {config : KVReqConfig Label Key}
    (hconfig : config.KeysPages m.pageSize) (replica : Fin replicas) :
    ∃ placed m' filed, m.addRequest config replica = .ok (placed, m') ∧
      Accounted numPages m' (live ++ placed.toList) ∧ m'.pageSize = m.pageSize ∧
      (m.pools replica).Files filed (m'.pools replica) ∧
      ∀ handle, placed = some handle → handle.replica = replica ∧
        ∀ entry ∈ handle.indexed, entry ∈ filed := by
  unfold KVRoutingMirror.addRequest
  by_cases hnil : config.kvLayout.entries = []
  · rw [if_pos hnil]
    refine ⟨none, m, [], rfl, ?_, rfl, .start, fun handle hsome => by cases hsome⟩
    simpa using h
  rw [if_neg hnil]
  obtain ⟨held, indexed, s, filed, heq, hs, hfiles, hentries⟩ := placeLabels_spec
    (fun _ _ => KVRoutingMirror.keyed_covered hconfig) config.kvLayout.entries (h replica)
  rw [heq]
  refine ⟨some ⟨replica, held, indexed⟩, _, filed, rfl, fun r => ?_, rfl, ?_, fun handle hsome => ?_⟩
  · have hlist : listings (live ++ [⟨replica, held, indexed⟩]) r = fun p =>
        listings live r p + if replica = r then held.count p else 0 := by
      funext p
      rw [listings_append, listings_cons, listings_nil, Nat.add_zero]
    change (Function.update m.pools replica s r).Mirrors numPages
      (listings (live ++ [⟨replica, held, indexed⟩]) r)
    rw [hlist]
    by_cases hr : r = replica
    · subst hr
      rw [Function.update_self]
      simpa using hs
    · rw [Function.update_of_ne hr]
      simpa [Ne.symm hr] using h r
  · change (m.pools replica).Files filed (Function.update m.pools replica s replica)
    rw [Function.update_self]
    exact hfiles
  · obtain rfl := Option.some.inj hsome
    exact ⟨rfl, hentries⟩

/-- Ending a live request returns and keeps the accounts. Only an entry of a
request that did not run is taken back, and only if it still stands. -/
theorem Accounted.removeRequest {handle : Placed Key replicas}
    (h : Accounted numPages m (before ++ handle :: after)) (ran : Bool) :
    ∃ m', m.removeRequest handle ran = .ok m' ∧ Accounted numPages m' (before ++ after) ∧
      m'.pageSize = m.pageSize ∧ ∀ replica key p,
        (m.pools replica).index.byKey.lookup key = some p →
          (m'.pools replica).index.byKey.lookup key = some p ∨
            ran = false ∧ replica = handle.replica ∧ (key, p) ∈ handle.indexed := by
  have hlist : ∀ r p, listings (before ++ handle :: after) r p =
      (if handle.replica = r then handle.pages.count p else 0) + listings (before ++ after) r p := by
    intro r p
    rw [listings_append, listings_cons, listings_append]
    omega
  have hheld : ∀ p, handle.pages.count p ≤
      listings (before ++ handle :: after) handle.replica p := by
    intro p
    rw [hlist, if_pos rfl]
    omega
  obtain ⟨s₁, heq₁, h₁, hkey₁⟩ := (h handle.replica).release hheld
  have hleft : (fun p => listings (before ++ handle :: after) handle.replica p -
      handle.pages.count p) = listings (before ++ after) handle.replica := by
    funext p
    rw [hlist, if_pos rfl]
    omega
  rw [hleft] at h₁
  obtain ⟨s₂, heq₂, h₂, hkey₂⟩ : ∃ s₂, (if ran then .ok s₁ else s₁.drop handle.indexed) = .ok s₂ ∧
      s₂.Mirrors numPages (listings (before ++ after) handle.replica) ∧
      ∀ p, s₂.index.key p = s₁.index.key p ∨ ran = false ∧
        ∃ key, (key, p) ∈ handle.indexed ∧ s₁.index.key p = some key := by
    cases ran with
    | true => exact ⟨s₁, rfl, h₁, fun p => Or.inl rfl⟩
    | false =>
      obtain ⟨s₂, heq₂, h₂, hkeys⟩ := h₁.dropEach handle.indexed.reverse
      refine ⟨s₂, heq₂, h₂, fun p => ?_⟩
      rcases hkeys p with hsame | ⟨-, key, hmem, hkey⟩
      · exact Or.inl hsame
      · exact Or.inr ⟨rfl, key, List.mem_reverse.1 hmem, hkey⟩
  refine ⟨{ m with pools := Function.update m.pools handle.replica s₂ }, ?_, fun r => ?_, rfl,
    fun r key p hnames => ?_⟩
  · unfold KVRoutingMirror.removeRequest
    rw [heq₁]
    simp only [calling, bind, Except.bind, heq₂]
    rfl
  · change (Function.update m.pools handle.replica s₂ r).Mirrors numPages _
    by_cases hr : r = handle.replica
    · rw [hr, Function.update_self]
      exact h₂
    · rw [Function.update_of_ne hr]
      have hsame : listings (before ++ handle :: after) r = listings (before ++ after) r := by
        funext p
        rw [hlist, if_neg (Ne.symm hr), Nat.zero_add]
      exact hsame ▸ h r
  · change (Function.update m.pools handle.replica s₂ r).index.byKey.lookup key = some p ∨ _
    by_cases hr : r = handle.replica
    · subst hr
      rw [Function.update_self]
      obtain ⟨born, hsound⟩ := (h handle.replica).sound
      obtain ⟨born₂, hsound₂⟩ := h₂.sound
      have hkey := (hsound.tree.names key p).1 hnames
      rw [← hkey₁] at hkey
      rcases hkey₂ p with hsame | ⟨hran, other, hmem, hother⟩
      · exact Or.inl ((hsound₂.tree.names key p).2 (hsame.trans hkey))
      · obtain rfl := Option.some.inj (hother.symm.trans hkey)
        exact Or.inr ⟨hran, rfl, hmem⟩
    · rw [Function.update_of_ne hr]
      exact Or.inl hnames

end Calls

namespace Runs

variable {numPages pageSize : ℕ} {labels : Finset Label}
  {m : KVRoutingMirror Label Key replicas} {live : List (Placed Key replicas)}

/-- Every mirror that a run leads to is accounted for. -/
theorem accounted (h : Runs numPages pageSize labels m live) :
    Accounted numPages m live ∧ m.pageSize = pageSize := by
  induction h with
  | new => exact ⟨fun replica => Pool.mirrors_mirrored numPages, rfl⟩
  | add _ hconfig heq ih =>
    obtain ⟨placed, m', -, heq', h', hsize, -⟩ := ih.1.addRequest hconfig _
    obtain ⟨rfl, rfl⟩ := Prod.mk.inj (Except.ok.inj (heq.symm.trans heq'))
    exact ⟨h', hsize.trans ih.2⟩
  | remove _ heq ih =>
    obtain ⟨m', heq', h', hsize, -⟩ := ih.1.removeRequest _
    obtain rfl := Except.ok.inj (heq.symm.trans heq')
    exact ⟨h', hsize.trans ih.2⟩

/-- In every mirror that a run leads to, each page but the sink is free without
an owner, or has as many owners as live handles of its replica list it, and one
more if it is indexed. Placing a request never raises, and its entries were
filed on the way. Ending a live one never raises, and takes out of the index
only entries of its own, if it did not run. With no handle left the pages off
the free list are the indexed ones. -/
theorem pages_accounted (h : Runs numPages pageSize labels m live) :
    (∀ replica (p : ℕ), 0 < p → p < numPages →
      p ∈ (m.pools replica).arena.free ∧ (m.pools replica).owners p = 0 ∨
        p ∉ (m.pools replica).arena.free ∧ 0 < (m.pools replica).owners p ∧
          (m.pools replica).owners p = listings live replica p +
            if ((m.pools replica).index.key p).isSome then 1 else 0) ∧
    (∀ (config : KVReqConfig Label Key) replica, config.KeysPages pageSize →
      ∃ placed m' filed, m.addRequest config replica = .ok (placed, m') ∧
        (m.pools replica).Files filed (m'.pools replica) ∧
        ∀ handle, placed = some handle → handle.replica = replica ∧
          ∀ entry ∈ handle.indexed, entry ∈ filed) ∧
    (∀ before handle after ran, live = before ++ handle :: after →
      ∃ m', m.removeRequest handle ran = .ok m' ∧ ∀ replica key p,
        (m.pools replica).index.byKey.lookup key = some p →
          (m'.pools replica).index.byKey.lookup key = some p ∨
            ran = false ∧ replica = handle.replica ∧ (key, p) ∈ handle.indexed) ∧
    (live = [] → ∀ replica (p : ℕ), 0 < p → p < numPages →
      (p ∉ (m.pools replica).arena.free ↔ ((m.pools replica).index.key p).isSome)) := by
  obtain ⟨hacc, hsize⟩ := h.accounted
  have hfree : ∀ replica (p : ℕ), 0 < p → p < numPages →
      (p ∈ (m.pools replica).arena.free ↔ (m.pools replica).owners p = 0) := by
    intro replica p hpos hlt
    rw [(hacc replica).mem_free]
    exact ⟨fun hin => hin.2.2, fun hzero => ⟨hpos, hlt, hzero⟩⟩
  refine ⟨fun replica p hpos hlt => ?_, fun config replica hconfig => ?_,
    fun before handle after ran hlive => ?_, fun hlive replica p hpos hlt => ?_⟩
  · have hiff := hfree replica p hpos hlt
    have howners := (hacc replica).owners_eq p
    by_cases hzero : (m.pools replica).owners p = 0
    · exact Or.inl ⟨hiff.2 hzero, hzero⟩
    · refine Or.inr ⟨fun hin => hzero (hiff.1 hin), Nat.pos_of_ne_zero hzero, ?_⟩
      rw [howners, Nat.add_comm]
  · rw [← hsize] at hconfig
    obtain ⟨placed, m', filed, heq, -, -, hfiles, hentries⟩ := hacc.addRequest hconfig replica
    exact ⟨placed, m', filed, heq, hfiles, hentries⟩
  · subst hlive
    obtain ⟨m', heq, -, -, hentries⟩ := hacc.removeRequest ran
    exact ⟨m', heq, hentries⟩
  · subst hlive
    have howners := (hacc replica).owners_eq p
    rw [listings_nil, Nat.add_zero] at howners
    rw [hfree replica p hpos hlt, howners]
    split
    · rename_i hsome
      simp [hsome]
    · rename_i hnone
      simp [hnone]

end Runs

/-- A label of two pages of one position each, both keyed. -/
def twoPages : StreamLayout ℕ := ⟨[⟨2, none⟩], 1, none⟩

/-- A request of one label. -/
def oneLabel : KVReqConfig ℕ ℕ := ⟨true, fun _ => some [7, 8], AList.singleton 0 twoPages⟩

/-- A request of two labels with the same keys. -/
def twoLabels : KVReqConfig ℕ ℕ :=
  ⟨true, fun _ => some [7, 8], (AList.singleton 0 twoPages).insert 1 twoPages⟩

/-- One label keys its pages. -/
theorem keysPages_oneLabel : oneLabel.KeysPages 1 := by
  intro label layout keys hlayout hkeys
  have hmem : (⟨label, layout⟩ : Sigma fun _ => _) ∈ [⟨0, twoPages⟩] :=
    AList.mem_lookup_iff.1 hlayout
  obtain ⟨-, rfl⟩ : label = 0 ∧ layout = twoPages := by simpa using hmem
  obtain rfl := Option.some.inj hkeys
  decide

/-- So do two. -/
theorem keysPages_twoLabels : twoLabels.KeysPages 1 := by
  intro label layout keys hlayout hkeys
  have hmem : (⟨label, layout⟩ : Sigma fun _ => _) ∈ [⟨1, twoPages⟩, ⟨0, twoPages⟩] :=
    AList.mem_lookup_iff.1 hlayout
  obtain rfl : layout = twoPages := by
    simp only [List.mem_cons, Sigma.mk.injEq, heq_eq_eq, List.not_mem_nil, or_false] at hmem
    rcases hmem with ⟨-, hlayout⟩ | ⟨-, hlayout⟩ <;> exact hlayout
  obtain rfl := Option.some.inj hkeys
  decide

/-- The two requests one after the other, on one replica of two pages. -/
theorem runs_twoLabels : ∃ (m : KVRoutingMirror ℕ ℕ 1) (first second : Placed ℕ 1),
    Runs 3 1 {0, 1} m [first, second] ∧ first.pages = [1, 2] ∧ second.pages = [1, 1] ∧
      (m.pools 0).owners 1 = 4 ∧ (m.pools 0).index.key 1 = some 7 := by
  obtain ⟨first, m, second, m', hfirst, hsecond, hrest⟩ : ∃ (first : Placed ℕ 1)
      (m : KVRoutingMirror ℕ ℕ 1) (second : Placed ℕ 1) (m' : KVRoutingMirror ℕ ℕ 1),
      (KVRoutingMirror.new 3 1 {0, 1}).addRequest oneLabel 0 = .ok (some first, m) ∧
        m.addRequest twoLabels 0 = .ok (some second, m') ∧ m.pageSize = 1 ∧
        first.pages = [1, 2] ∧ second.pages = [1, 1] ∧ (m'.pools 0).owners 1 = 4 ∧
        (m'.pools 0).index.key 1 = some 7 := ⟨_, _, _, _, rfl, rfl, rfl, rfl, rfl, rfl, rfl⟩
  have hone : Runs 3 1 {0, 1} m [first] := .add .new keysPages_oneLabel hfirst
  have htwo : twoLabels.KeysPages m.pageSize := by
    rw [hrest.1]
    exact keysPages_twoLabels
  exact ⟨m', first, second, hone.add htwo hsecond, hrest.2⟩

/-- The second request leases one page under both of its labels. -/
theorem listed_twice : ∃ (m : KVRoutingMirror ℕ ℕ 1) (live : List (Placed ℕ 1)),
    Runs 3 1 {0, 1} m live ∧ (m.pools 0).owners 1 ≠
      (live.filter fun handle => 1 ∈ handle.pages).length +
        if ((m.pools 0).index.key 1).isSome then 1 else 0 := by
  obtain ⟨m, first, second, h, hfirst, hsecond, howners, hkey⟩ := runs_twoLabels
  refine ⟨m, [first, second], h, ?_⟩
  rw [howners, hkey]
  simp [hfirst, hsecond]

/-- In that run page 1 has three owners that list it, and the index. -/
theorem pages_accounted_twoLabels : ∃ (m : KVRoutingMirror ℕ ℕ 1) (live : List (Placed ℕ 1)),
    Runs 3 1 {0, 1} m live ∧ (m.pools 0).owners 1 = 4 ∧ (m.pools 0).owners 1 =
      listings live 0 1 + if ((m.pools 0).index.key 1).isSome then 1 else 0 := by
  obtain ⟨m, first, second, h, -, -, howners, -⟩ := runs_twoLabels
  rcases h.pages_accounted.1 0 1 (by decide) (by decide) with ⟨-, hzero⟩ | ⟨-, -, heq⟩
  · rw [howners] at hzero
    cases hzero
  · exact ⟨m, _, h, howners, heq⟩

end Mstar.Routing
