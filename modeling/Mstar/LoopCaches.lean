import Mstar.LoopResets

/-!
# What a loop's caches hold

Under each of its output names a loop has cached what its entities put out
this iteration, and under each accumulated name what they put out in every
iteration of the run. So the caches and counters of a loop match the run it
is asked for, through everything that happens to it.
-/

namespace Mstar.Walk

open Shard (Sym TensorRef)

namespace RequestState

variable {g : CompiledGraph} {l : LoopId}

/-- Extending a cache adds to the entry of its name. -/
theorem cachedUnder_extendCache (name : Sym) (t : List TensorRef)
    (cache : List (Sym × List TensorRef)) (name' : Sym) :
    cachedUnder (extendCache name t cache) name' =
      cachedUnder cache name' ++ if name' = name then t else [] := by
  induction cache with
  | nil =>
    by_cases h : name' = name
    · subst h
      simp [extendCache, cachedUnder]
    · have h' : name ≠ name' := fun he => h he.symm
      simp [extendCache, cachedUnder, h, h']
  | cons c cache ih =>
    unfold extendCache
    by_cases hc : c.1 = name
    · rw [if_pos hc]
      by_cases h : c.1 = name'
      · have h' : name' = name := h.symm.trans hc
        simp [cachedUnder, h, h']
      · have h' : name' ≠ name := fun he => h (hc.trans he.symm)
        simp [cachedUnder, h, h']
    · rw [if_neg hc]
      by_cases h : c.1 = name'
      · have h' : name' ≠ name := fun he => hc (h.trans he)
        simp [cachedUnder, h, h']
      · have hskip (cache : List (Sym × List TensorRef)) :
            cachedUnder (c :: cache) name' = cachedUnder cache name' := by
          simp [cachedUnder, h]
        rw [hskip, hskip, ih]

/-- The tensors of the edges of a name. -/
def collected (es : List RoutedEdge) (name : Sym) : List TensorRef :=
  es.flatMap fun e => if name = e.name then e.tensors else []

/-- The first edge of a name has what was made for it. -/
theorem collected_firstOfName (seen : List Sym) (es : List RoutedEdge) (name : Sym) :
    collected (firstOfName seen es) name = if name ∈ seen then [] else madeFor es name := by
  induction es generalizing seen with
  | nil => simp [firstOfName, collected, madeFor]
  | cons e es ih =>
    have hrest (h : e.name ≠ name) : madeFor (e :: es) name = madeFor es name := by
      simp [madeFor, h]
    unfold firstOfName
    by_cases he : e.name ∈ seen
    · rw [if_pos he, ih]
      split
      · rfl
      · next hname =>
        rw [hrest]
        rintro rfl
        exact hname he
    · rw [if_neg he]
      have hcons : collected (e :: firstOfName (seen ++ [e.name]) es) name =
          (if name = e.name then e.tensors else []) ++
            collected (firstOfName (seen ++ [e.name]) es) name := by
        simp [collected]
      rw [hcons, ih]
      by_cases hname : name = e.name
      · subst hname
        simp [he, madeFor]
      · have hne : e.name ≠ name := fun h => hname h.symm
        simp [hname, hrest hne]

/-- An edge put in a loop's cache, if it is one of its outputs. -/
def cacheInto (g : CompiledGraph) (l : LoopId) (st : LoopState) (e : RoutedEdge) : LoopState :=
  if e.name ∈ (g.lp l).outputNames then
    { st with cached := extendCache e.name e.tensors st.cached }
  else if e.name ∈ (g.lp l).accumNames then
    { st with accum := extendCache e.name e.tensors st.accum }
  else st

/-- A loop after an entity of it completed. -/
def cachedBy (g : CompiledGraph) (l : LoopId) (own : List RoutedEdge) (st : LoopState) : LoopState :=
  (firstOfName [] own).foldl (cacheInto g l) st

/-- Caching touches one loop. -/
theorem cacheOutputs_loops (s : RequestState) (l : LoopId) (own : List RoutedEdge) (d : LoopId) :
    (s.cacheOutputs g l own).loops d =
      if d = l then cachedBy g l own (s.loops l) else s.loops d := by
  unfold cacheOutputs cachedBy
  induction firstOfName [] own generalizing s with
  | nil =>
    split
    · next hd => rw [hd]; rfl
    · rfl
  | cons e es ih =>
    have hone (d : LoopId) : (cacheOutput g l s e).loops d =
        if d = l then cacheInto g l (s.loops l) e else s.loops d := by
      unfold cacheOutput cacheInto take
      dsimp only
      by_cases hd : d = l
      · subst hd
        rw [if_pos rfl]
        split
        · rw [setLoop_loops_self]
        · split
          · rw [setLoop_loops_self]
          · rfl
      · rw [if_neg hd]
        split
        · rw [setLoop_loops_of_ne _ hd]
        · split
          · rw [setLoop_loops_of_ne _ hd]
          · rfl
    rw [List.foldl_cons, List.foldl_cons, ih, hone, hone, if_pos rfl]
    split
    · rfl
    · rfl

/-- Caching counts no entity. -/
theorem progress_cacheOutputs (s : RequestState) (l : LoopId) (own : List RoutedEdge) :
    (s.cacheOutputs g l own).progress = s.progress := by
  refine foldl_same progress (fun s e _ => ?_) s
  unfold cacheOutput
  dsimp only
  split
  · rfl
  · split <;> rfl

/-- What caching adds to a loop, and what it leaves alone. -/
structure Cached (g : CompiledGraph) (l : LoopId) (own : List RoutedEdge) (st st' : LoopState) :
    Prop where
  rest : st' = { st with cached := st'.cached, accum := st'.accum }
  cached : ∀ name ∈ (g.lp l).outputNames,
    cachedUnder st'.cached name = cachedUnder st.cached name ++ collected own name
  accum : ∀ name ∈ (g.lp l).accumNames, name ∉ (g.lp l).outputNames →
    cachedUnder st'.accum name = cachedUnder st.accum name ++ collected own name

/-- One edge cached before others. -/
theorem Cached.cons {e : RoutedEdge} {es : List RoutedEdge} {st st' : LoopState}
    (h : Cached g l es (cacheInto g l st e) st') : Cached g l (e :: es) st st' := by
  have hcons (name : Sym) : collected (e :: es) name =
      (if name = e.name then e.tensors else []) ++ collected es name := by
    simp [collected]
  constructor
  · rw [h.rest]
    unfold cacheInto
    split
    · rfl
    · split <;> rfl
  · intro name hname
    rw [h.cached name hname, hcons, ← List.append_assoc]
    congr 1
    unfold cacheInto
    split
    · exact cachedUnder_extendCache _ _ _ _
    · next hnot =>
      have hne : name ≠ e.name := by
        rintro rfl
        exact hnot hname
      rw [if_neg hne, List.append_nil]
      split <;> rfl
  · intro name hname hnot
    rw [h.accum name hname hnot, hcons, ← List.append_assoc]
    congr 1
    unfold cacheInto
    split
    · next hout =>
      have hne : name ≠ e.name := by
        rintro rfl
        exact hnot hout
      rw [if_neg hne, List.append_nil]
    · split
      · exact cachedUnder_extendCache _ _ _ _
      · next haccum =>
        have hne : name ≠ e.name := by
          rintro rfl
          exact haccum hname
        rw [if_neg hne, List.append_nil]

/-- An entity's edges are cached by the first of each name. -/
theorem cached_cachedBy (own : List RoutedEdge) (st : LoopState) :
    Cached g l (firstOfName [] own) st (cachedBy g l own st) := by
  unfold cachedBy
  induction firstOfName [] own generalizing st with
  | nil => exact ⟨rfl, fun _ _ => by simp [collected], fun _ _ _ => by simp [collected]⟩
  | cons e es ih => exact (ih _).cons

/-- A loop's state and the run it is asked for. -/
structure Matches (g : CompiledGraph) (l : LoopId) (st : LoopState) (r : LoopRun) : Prop where
  iter : st.currIter = r.iter
  signal : st.finishSignal = r.signal
  count : st.completedEntities = r.round.length
  cached : ∀ name ∈ (g.lp l).outputNames, cachedUnder st.cached name = produced r.round name
  accum : ∀ name ∈ (g.lp l).accumNames, name ∉ (g.lp l).outputNames →
    cachedUnder st.accum name = produced (r.earlier ++ r.round) name
  /-- Nothing is cached before an entity of the iteration completes. -/
  uncached : r.round = [] → st.cached = []
  unaccumulated : r.earlier = [] → r.round = [] → st.accum = []

namespace Matches

variable {st : LoopState} {r : LoopRun}

/-- A new loop matches a run that has not begun. -/
theorem fresh (l : LoopId) (maxIters : ℕ) : Matches g l (.new maxIters) .fresh :=
  ⟨rfl, rfl, rfl, fun _ _ => rfl, fun _ _ _ => rfl, fun _ => rfl, fun _ _ => rfl⟩

/-- A loop whose run has no productions starts over as new. -/
theorem restarted_eq (h : Matches g l st r) (hround : r.round = []) (hearlier : r.earlier = []) :
    restarted st = .new st.maxIters := by
  unfold restarted LoopState.resetMetadata LoopState.new
  simp only [h.uncached hround, h.unaccumulated hearlier hround]

/-- An entity completes. -/
theorem mark (h : Matches g l st r) (p : Production) :
    Matches g l { cachedBy g l p.2 st with completedEntities := st.completedEntities + 1 }
      { r with round := r.round ++ [p] } := by
  have hc := cached_cachedBy (g := g) (l := l) p.2 st
  have hmade (name : Sym) : collected (firstOfName [] p.2) name = madeFor p.2 name := by
    rw [collected_firstOfName, if_neg List.not_mem_nil]
  have hproduced (ps : List Production) (name : Sym) :
      produced (ps ++ [p]) name = produced ps name ++ madeFor p.2 name := by
    simp [produced]
  constructor
  · change (cachedBy g l p.2 st).currIter = _
    rw [hc.rest]
    exact h.iter
  · change (cachedBy g l p.2 st).finishSignal = _
    rw [hc.rest]
    exact h.signal
  · simp [h.count]
  · intro name hname
    dsimp only
    rw [hc.cached name hname, h.cached name hname, hmade, hproduced]
  · intro name hname hnot
    dsimp only
    rw [hc.accum name hname hnot, h.accum name hname hnot, hmade, ← List.append_assoc, hproduced]
  · intro hround
    exact absurd hround (by simp)
  · intro _ hround
    exact absurd hround (by simp)

/-- The loop goes on to its next iteration. -/
theorem advance (h : Matches g l st r) {stride : ℕ}
    (hcap : saturatingAdd r.iter stride = r.iter + stride) :
    Matches g l
      { st with
        currIter := saturatingAdd st.currIter stride
        cached := []
        completedEntities := 0 }
      { r with iter := r.iter + stride, round := [], earlier := r.earlier ++ r.round } := by
  constructor
  · change saturatingAdd st.currIter stride = _
    rw [h.iter, hcap]
  · exact h.signal
  · rfl
  · exact fun _ _ => rfl
  · intro name hname hnot
    dsimp only
    rw [List.append_nil]
    exact h.accum name hname hnot
  · exact fun _ => rfl
  · intro hearlier _
    have hempty := List.append_eq_nil_iff.1 hearlier
    exact h.unaccumulated hempty.1 hempty.2

/-- The loop ends. -/
theorem finish (h : Matches g l st r) :
    Matches g l { st with done := true, cached := [], accum := [], completedEntities := 0 }
      { r with round := [], earlier := [] } :=
  ⟨h.iter, h.signal, rfl, fun _ _ => rfl, fun _ _ _ => rfl, fun _ => rfl, fun _ _ => rfl⟩

/-- Whether the iteration is the last, as the code decides it. -/
theorem finishing_iff (h : Matches g l st r) {stride : ℕ} (hcap : st.maxIters ≤ 4294967295) :
    finishing st stride = true ↔ r.signal = true ∨ st.maxIters ≤ r.iter + stride := by
  unfold finishing saturatingAdd
  rw [Bool.or_eq_true, h.signal, h.iter, decide_eq_true_iff]
  constructor
  · rintro (hs | hm)
    · exact .inl hs
    · exact .inr (by omega)
  · rintro (hs | hm)
    · exact .inl hs
    · exact .inr (by omega)

/-- A loop that ends puts out what its run made. -/
theorem loopOutputs_eq (h : Matches g l st r)
    (hdisjoint : ∀ name ∈ (g.lp l).accumNames, name ∉ (g.lp l).outputNames) :
    loopOutputs g l st =
      (g.lp l).outputs.map (fun o => routed o (produced r.round o.name)) ++
        (g.lp l).accumulated.map fun o => routed o (produced (r.earlier ++ r.round) o.name) := by
  unfold loopOutputs
  congr 1
  · refine List.map_congr_left fun o ho => ?_
    rw [h.cached o.name (List.mem_map_of_mem ho)]
  · refine List.map_congr_left fun o ho => ?_
    have hname : o.name ∈ (g.lp l).accumNames := List.mem_map_of_mem ho
    rw [h.accum o.name hname (hdisjoint o.name hname)]

end Matches

end RequestState

end Mstar.Walk
