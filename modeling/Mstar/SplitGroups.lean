import Mathlib.Data.List.Forall2
import Mathlib.Data.List.Nodup
import Mstar.Delimited
import Mstar.SplitInputs

/-!
# Grouping descriptors by source

A loop that may raise is followed entry by entry. The groups of an edge are its
sources, each with the indices of its own descriptors in ascending order, so no
index is in two groups.
-/

namespace Mstar

section Loops

variable {α β ε : Type} {f : α → Except ε β}

/-- What a loop that did not raise made of each entry. -/
theorem forall₂_of_mapM {xs : List α} {ys : List β} (h : xs.mapM f = .ok ys) :
    List.Forall₂ (fun x y => f x = .ok y) xs ys := by
  induction xs generalizing ys with
  | nil =>
    rw [mapM_nil_ok h]
    exact .nil
  | cons x xs ih =>
    obtain ⟨y, rest, hy, hrest, rfl⟩ := mapM_cons_ok h
    exact .cons hy (ih hrest)

/-- A loop that raised did so at some entry. -/
theorem exists_of_mapM_error {xs : List α} {error : ε} (h : xs.mapM f = .error error) :
    ∃ x ∈ xs, f x = .error error := by
  induction xs with
  | nil => cases h
  | cons x xs ih =>
    rw [List.mapM_cons] at h
    cases hx : f x with
    | error e =>
      rw [hx] at h
      cases h
      exact ⟨x, List.mem_cons_self, hx⟩
    | ok y =>
      cases hrest : xs.mapM f with
      | error e =>
        rw [hx, hrest] at h
        cases h
        obtain ⟨x', hmem, hx'⟩ := ih hrest
        exact ⟨x', List.mem_cons_of_mem _ hmem, hx'⟩
      | ok rest =>
        rw [hx, hrest] at h
        cases h

variable {R : α → β → Prop} {xs : List α} {ys : List β}

/-- The entry a result comes from. -/
theorem exists_left_of_forall₂ (h : List.Forall₂ R xs ys) {y : β} (hy : y ∈ ys) :
    ∃ x ∈ xs, R x y := by
  induction h with
  | nil => cases hy
  | cons hxy hrest ih =>
    rcases List.mem_cons.1 hy with rfl | hy
    · exact ⟨_, List.mem_cons_self, hxy⟩
    · obtain ⟨x, hx, hr⟩ := ih hy
      exact ⟨x, List.mem_cons_of_mem _ hx, hr⟩

/-- The result an entry has. -/
theorem exists_right_of_forall₂ (h : List.Forall₂ R xs ys) {x : α} (hx : x ∈ xs) :
    ∃ y ∈ ys, R x y := exists_left_of_forall₂ h.flip hx

/-- What holds between entries holds between their results. -/
theorem pairwise_of_forall₂ {P : α → α → Prop} {Q : β → β → Prop} (h : List.Forall₂ R xs ys)
    (hxs : xs.Pairwise P)
    (hpq : ∀ x x' y y', R x y → R x' y' → P x x' → Q y y') : ys.Pairwise Q := by
  induction h with
  | nil => exact .nil
  | cons hxy hrest ih =>
    obtain ⟨hhead, htail⟩ := List.pairwise_cons.1 hxs
    refine List.pairwise_cons.2 ⟨fun y' hy' => ?_, ih htail⟩
    obtain ⟨x', hx', hr⟩ := exists_left_of_forall₂ hrest hy'
    exact hpq _ _ _ _ hxy hr (hhead x' hx')

/-- Numbered entries have different numbers. -/
theorem pairwise_zipIdx_ne (xs : List α) (n : ℕ) :
    (xs.zipIdx n).Pairwise fun x y => x.2 ≠ y.2 := by
  induction xs generalizing n with
  | nil => exact .nil
  | cons x xs ih =>
    refine List.pairwise_cons.2 ⟨fun y hy => ?_, ih (n + 1)⟩
    have hle := List.le_snd_of_mem_zipIdx hy
    dsimp only
    omega

end Loops

namespace SplitInputs

open Shard

/-- The indices of an edge's descriptors from one source. -/
def idxsOf (items : List Descriptor) (key : SourceKey) : List ℕ :=
  (List.range items.length).filter fun i => items[i]?.map Descriptor.source == some key

variable {items : List Descriptor} {key : SourceKey}

/-- An index of a source is that of a descriptor from it. -/
theorem mem_idxsOf {i : ℕ} :
    i ∈ idxsOf items key ↔ items[i]?.map Descriptor.source = some key := by
  unfold idxsOf
  rw [List.mem_filter, List.mem_range, beq_iff_eq]
  constructor
  · exact fun h => h.2
  · intro h
    refine ⟨?_, h⟩
    by_contra hlen
    rw [List.getElem?_eq_none (not_lt.1 hlen)] at h
    cases h

/-- The indices ascend. -/
theorem idxsOf_ascends (items : List Descriptor) (key : SourceKey) :
    (idxsOf items key).Pairwise (· < ·) := List.pairwise_lt_range.filter _

/-- The indices once there is one more descriptor. -/
theorem idxsOf_snoc (items : List Descriptor) (d : Descriptor) (key : SourceKey) :
    idxsOf (items ++ [d]) key =
      if d.source = key then idxsOf items key ++ [items.length] else idxsOf items key := by
  have hold : (List.range items.length).filter (fun i =>
      (items ++ [d])[i]?.map Descriptor.source == some key) = idxsOf items key := by
    refine List.filter_congr fun i hi => ?_
    rw [List.getElem?_append_left (List.mem_range.1 hi)]
  unfold idxsOf at hold ⊢
  rw [List.length_append, List.length_singleton, List.range_succ, List.filter_append, hold]
  by_cases hd : d.source = key
  · simp [hd]
  · simp [hd]

/-- The groups of descriptors are their sources, each with its indices. -/
structure Grouped (items : List Descriptor) (groups : List (SourceKey × List ℕ)) : Prop where
  /-- No source has two groups. -/
  keys : (groups.map Prod.fst).Nodup
  /-- The sources of the descriptors have groups, and no other. -/
  sources : ∀ key, key ∈ groups.map Prod.fst ↔ key ∈ items.map Descriptor.source
  /-- A group has its source's indices. -/
  idxs : ∀ group ∈ groups, group.2 = idxsOf items group.1

/-- The sources once an index is added. -/
theorem fst_addToGroup (key : SourceKey) (i : ℕ) (groups : List (SourceKey × List ℕ)) :
    (addToGroup key i groups).map Prod.fst =
      if key ∈ groups.map Prod.fst then groups.map Prod.fst else groups.map Prod.fst ++ [key] := by
  induction groups with
  | nil => simp [addToGroup]
  | cons group groups ih =>
    obtain ⟨key', idxs⟩ := group
    unfold addToGroup
    by_cases hk : key' = key
    · simp [hk]
    · rw [if_neg hk, List.map_cons, ih]
      by_cases hin : key ∈ groups.map Prod.fst
      · rw [if_pos hin, List.map_cons, if_pos (List.mem_cons_of_mem _ hin)]
      · have hnot : key ∉ ((key', idxs) :: groups).map Prod.fst := by
          rw [List.map_cons, List.mem_cons]
          exact not_or.2 ⟨Ne.symm hk, hin⟩
        rw [if_neg hin, if_neg hnot]
        rfl

/-- A group once an index is added: another source's as it was, the source's
own with the index. -/
theorem mem_addToGroup {key : SourceKey} {i : ℕ} {groups : List (SourceKey × List ℕ)}
    (hkeys : (groups.map Prod.fst).Nodup) {group : SourceKey × List ℕ}
    (h : group ∈ addToGroup key i groups) :
    group ∈ groups ∧ group.1 ≠ key ∨
      group.1 = key ∧ ((∃ old ∈ groups, old.1 = key ∧ group.2 = old.2 ++ [i]) ∨
        key ∉ groups.map Prod.fst ∧ group.2 = [i]) := by
  induction groups with
  | nil =>
    obtain rfl := List.mem_singleton.1 h
    exact Or.inr ⟨rfl, Or.inr ⟨List.not_mem_nil, rfl⟩⟩
  | cons first groups ih =>
    obtain ⟨key', idxs⟩ := first
    obtain ⟨hfirst, hrest⟩ := List.nodup_cons.1 hkeys
    unfold addToGroup at h
    by_cases hk : key' = key
    · rw [if_pos hk] at h
      rcases List.mem_cons.1 h with rfl | h
      · exact Or.inr ⟨hk, Or.inl ⟨(key', idxs), List.mem_cons_self, hk, rfl⟩⟩
      · refine Or.inl ⟨List.mem_cons_of_mem _ h, fun hsame => hfirst ?_⟩
        have hmem := List.mem_map_of_mem (f := Prod.fst) h
        rw [hsame, ← hk] at hmem
        exact hmem
    · rw [if_neg hk] at h
      rcases List.mem_cons.1 h with rfl | h
      · exact Or.inl ⟨List.mem_cons_self, hk⟩
      · rcases ih hrest h with ⟨hmem, hne⟩ | ⟨hkey, ⟨old, hold, hold', hidxs⟩ | ⟨hnot, hidxs⟩⟩
        · exact Or.inl ⟨List.mem_cons_of_mem _ hmem, hne⟩
        · exact Or.inr ⟨hkey, Or.inl ⟨old, List.mem_cons_of_mem _ hold, hold', hidxs⟩⟩
        · refine Or.inr ⟨hkey, Or.inr ⟨?_, hidxs⟩⟩
          rw [List.map_cons, List.mem_cons]
          exact not_or.2 ⟨Ne.symm hk, hnot⟩

/-- One more descriptor in its group. -/
theorem Grouped.add {groups : List (SourceKey × List ℕ)} (h : Grouped items groups)
    (d : Descriptor) : Grouped (items ++ [d]) (addToGroup d.source items.length groups) := by
  constructor
  · rw [fst_addToGroup]
    split
    · exact h.keys
    · rename_i hnot
      exact List.nodup_append.2 ⟨h.keys, List.nodup_singleton _, by
        rintro a ha b hb rfl
        exact hnot (List.mem_singleton.1 hb ▸ ha)⟩
  · intro key
    rw [fst_addToGroup, List.map_append, List.mem_append, ← h.sources]
    split
    · rename_i hin
      simp only [List.map_cons, List.map_nil, List.mem_singleton]
      exact ⟨Or.inl, fun hor => hor.elim id fun heq => heq ▸ hin⟩
    · simp
  · intro group hgroup
    rw [idxsOf_snoc]
    rcases mem_addToGroup h.keys hgroup with ⟨hmem, hne⟩ | ⟨hkey, ⟨old, hold, hold', hidxs⟩ |
      ⟨hnot, hidxs⟩⟩
    · rw [if_neg (Ne.symm hne)]
      exact h.idxs group hmem
    · rw [if_pos hkey.symm, hidxs, h.idxs old hold, hold', hkey]
    · have hnone : idxsOf items d.source = [] := by
        rw [List.eq_nil_iff_forall_not_mem]
        intro i hi
        rw [mem_idxsOf] at hi
        obtain ⟨d', hd', hsource⟩ := Option.map_eq_some_iff.1 hi
        refine hnot ((h.sources _).2 ?_)
        rw [← hsource]
        exact List.mem_map_of_mem (List.mem_of_getElem? hd')
      rw [if_pos hkey.symm, hkey, hnone, hidxs]
      rfl

/-- The loop groups the descriptors by source. -/
theorem grouped_groupsOf (items : List Descriptor) : Grouped items (groupsOf items) := by
  unfold groupsOf
  induction items using List.reverseRecOn with
  | nil => exact ⟨List.nodup_nil, by simp, by simp⟩
  | append_singleton items d ih =>
    rw [List.zipIdx_append, List.foldl_append]
    simpa using ih.add d

section

variable {α : Type} {entries : List (Sym × α)}

/-- A dict's items are entries it was filled with. -/
theorem mem_of_mem_dictItems {entry : Sym × α} (h : entry ∈ dictItems entries) :
    entry ∈ entries := by
  obtain ⟨key, _, hfind⟩ := List.mem_filterMap.1 h
  exact List.mem_reverse.1 (List.mem_of_find?_eq_some hfind)

/-- A dict has one item a key. -/
theorem nodup_dictItems (entries : List (Sym × α)) : ((dictItems entries).map Prod.fst).Nodup := by
  have hkeys : (dictItems entries).map Prod.fst = (entries.map Prod.fst).dedup := by
    unfold dictItems
    rw [List.map_filterMap]
    have hall : ∀ key ∈ (entries.map Prod.fst).dedup,
        (entries.reverse.find? fun entry => entry.1 == key).map Prod.fst = some key := by
      intro key hkey
      obtain ⟨entry, hentry, hfst⟩ := List.mem_map.1 (List.mem_dedup.1 hkey)
      cases hfind : entries.reverse.find? fun entry => entry.1 == key with
      | none =>
        have hnone := List.find?_eq_none.1 hfind entry (List.mem_reverse.2 hentry)
        simp [hfst] at hnone
      | some found =>
        have hfound := List.find?_some hfind
        exact congrArg some (beq_iff_eq.1 hfound)
    rw [List.filterMap_congr hall]
    simp
  rw [hkeys]
  exact List.nodup_dedup _

end

end SplitInputs

end Mstar
