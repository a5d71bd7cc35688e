import Mathlib.Algebra.BigOperators.Group.List.Basic
import Mathlib.Data.Finset.Sort
import Mstar.GatherDeliver

/-!
# One gather after another

While no rank brings its next shards before a gather is complete, the reads
of an input are cut into rounds: each round holds one read of every rank, and
its gather is their concatenation.
-/

namespace Mstar.Gather

variable {α : Type}

/-- What the source ranks send. -/
structure Plan where
  /-- The ranks that contribute to an input. -/
  ranks : Key → Finset ℕ
  /-- How many tensors each of them sends in a round. -/
  tensors : Key → ℕ → ℕ

/-- Several ranks contribute to the input. -/
def Plan.Gathers (plan : Plan) (key : Key) : Prop := 1 < (plan.ranks key).card

instance (plan : Plan) (key : Key) : Decidable (plan.Gathers key) :=
  inferInstanceAs (Decidable (_ < _))

/-- What a rank sent among some reads. -/
def sentBy (parts : List (Read α)) (rank : ℕ) : List (List α) :=
  ((parts.find? fun part => part.edge.rank = rank).map (·.sent)).getD []

/-- The tensors of a gather: at each position, the shards of all ranks in the
order of the ranks. -/
def gathered (plan : Plan) (key : Key) (round : ℕ) (parts : List (Read α)) : List (List α) :=
  (List.range (plan.tensors key round)).map
    (BufferedShards.cat (sentBy parts) ((plan.ranks key).sort (· ≤ ·)))

/-- A read is what the plan has a rank send for an input. -/
structure Planned (plan : Plan) (read : Read α) : Prop where
  /-- The edge counts the ranks of its input. -/
  fanin : read.edge.totalFanin = (plan.ranks read.edge.key).card
  /-- It comes from one of them. -/
  rank : plan.Gathers read.edge.key → read.edge.rank ∈ plan.ranks read.edge.key
  /-- It brings the tensors of its round. -/
  sent : plan.Gathers read.edge.key →
    read.sent.length = plan.tensors read.edge.key read.edge.round

/-- An edge made of one read of every rank. -/
structure Whole (plan : Plan) (key : Key) (round : ℕ) (em : Emission α) : Prop where
  /-- Every rank contributes once. -/
  ranks : (em.parts.map (·.edge.rank)).Perm ((plan.ranks key).sort (· ≤ ·))
  /-- All contribute to this round of this input. -/
  parts : ∀ part ∈ em.parts, part.edge.key = key ∧ part.edge.round = round
  /-- The edge is of this round. -/
  ofRound : em.edge.round = round
  /-- It brings the shards put together. -/
  tensors : em.tensors = gathered plan key round em.parts

/-- The shards held back are those of some ranks in one round. -/
structure Waiting (plan : Plan) (key : Key) (round : ℕ) (buf : BufferedShards α) : Prop where
  /-- All ranks of the input are waited for. -/
  fanin : buf.totalFanin = (plan.ranks key).card
  /-- The ranks that came are those of the reads. -/
  ranks : buf.ranks = buf.parts.map (·.edge.rank)
  /-- Each came once, -/
  nodup : buf.ranks.Nodup
  /-- and is one of the input's. -/
  subset : ∀ rank ∈ buf.ranks, rank ∈ plan.ranks key
  /-- All contribute to this round of this input. -/
  parts : ∀ part ∈ buf.parts, part.edge.key = key ∧ part.edge.round = round
  /-- Each brought the tensors of the round. -/
  sent : ∀ part ∈ buf.parts, part.sent.length = plan.tensors key round
  /-- They are held back by rank. -/
  shards : ∀ rank, buf.shards rank = sentBy buf.parts rank

variable {plan : Plan} {key : Key} {round : ℕ} {buf : BufferedShards α} {read : Read α}

/-- What a rank sent, with one more rank's read. -/
theorem sentBy_append (parts : List (Read α)) (read : Read α) (rank : ℕ)
    (hnew : ∀ part ∈ parts, part.edge.rank ≠ read.edge.rank) :
    sentBy (parts ++ [read]) rank =
      if rank = read.edge.rank then read.sent else sentBy parts rank := by
  rw [sentBy, List.find?_append]
  split
  next heq =>
    subst heq
    have hnone : parts.find? (fun part => part.edge.rank = read.edge.rank) = none := by
      rw [List.find?_eq_none]
      intro part hpart
      simpa using hnew part hpart
    simp [hnone]
  next hne =>
    have hlast : ([read] : List (Read α)).find? (fun part => part.edge.rank = rank) = none := by
      simp [Ne.symm hne]
    rw [hlast, Option.or_none, sentBy]

/-- What was sent by a rank that is not among the reads is nothing. -/
theorem sentBy_of_not_mem {parts : List (Read α)} {rank : ℕ}
    (h : rank ∉ parts.map (·.edge.rank)) : sentBy parts rank = [] := by
  have hnone : parts.find? (fun part => part.edge.rank = rank) = none := by
    rw [List.find?_eq_none]
    intro part hpart
    simp only [decide_eq_true_eq]
    exact fun heq => h (heq ▸ List.mem_map_of_mem hpart)
  simp [sentBy, hnone]

/-- A rank among the reads sent what one of them holds. -/
theorem sentBy_of_mem {parts : List (Read α)} {rank : ℕ}
    (h : rank ∈ parts.map (·.edge.rank)) : ∃ part ∈ parts, sentBy parts rank = part.sent := by
  obtain ⟨part, hpart, hrank⟩ := List.mem_map.1 h
  cases hf : parts.find? (fun part => part.edge.rank = rank) with
  | none =>
    rw [List.find?_eq_none] at hf
    exact absurd hrank (by simpa using hf part hpart)
  | some found => exact ⟨found, List.mem_of_find?_eq_some hf, by simp [sentBy, hf]⟩

/-- Nothing is held back at first. -/
theorem Waiting.start : Waiting plan key round
    (BufferedShards.start (plan.ranks key).card : BufferedShards α) := by
  constructor
  · rfl
  · rfl
  · exact List.nodup_nil
  · simp [BufferedShards.start]
  · simp [BufferedShards.start]
  · simp [BufferedShards.start]
  · exact fun _ => rfl

/-- One more rank's shards are held back with the others. -/
theorem Waiting.extend (h : Waiting plan key round buf) (hkey : read.edge.key = key)
    (hround : read.edge.round = round) (hrank : read.edge.rank ∈ plan.ranks key)
    (hsent : read.sent.length = plan.tensors key round)
    (hnew : ∀ part ∈ buf.parts, part.edge.rank ≠ read.edge.rank) :
    Waiting plan key round (buf.extend read read.sent) := by
  have hnot : read.edge.rank ∉ buf.parts.map (·.edge.rank) := by
    intro hmem
    obtain ⟨part, hpart, heq⟩ := List.mem_map.1 hmem
    exact hnew part hpart heq
  have hranks : (buf.extend read read.sent).ranks = buf.ranks ++ [read.edge.rank] := by
    rw [BufferedShards.extend]
    dsimp only
    rw [if_neg (h.ranks ▸ hnot)]
  constructor
  · exact h.fanin
  · rw [hranks, h.ranks, BufferedShards.extend, List.map_append]
    rfl
  · rw [hranks, List.nodup_append]
    constructor
    · exact h.nodup
    · constructor
      · exact List.nodup_singleton _
      · intro a ha b hb heq
        rw [heq, List.mem_singleton.1 hb, h.ranks] at ha
        exact hnot ha
  · intro rank hmem
    rw [hranks] at hmem
    rcases List.mem_append.1 hmem with hold | hlast
    · exact h.subset rank hold
    · rw [List.mem_singleton.1 hlast]
      exact hrank
  · intro part hpart
    rcases List.mem_append.1 hpart with hold | hlast
    · exact h.parts part hold
    · rw [List.mem_singleton.1 hlast]
      exact ⟨hkey, hround⟩
  · intro part hpart
    rcases List.mem_append.1 hpart with hold | hlast
    · exact h.sent part hold
    · rw [List.mem_singleton.1 hlast]
      exact hsent
  · intro rank
    have happend := sentBy_append buf.parts read rank hnew
    rw [BufferedShards.extend]
    dsimp only
    rw [happend]
    split
    next heq =>
      subst heq
      rw [Function.update_self, h.shards, sentBy_of_not_mem hnot, List.nil_append]
    next hne => rw [Function.update_of_ne hne, h.shards]

/-- With the last rank, each rank of the input came once. -/
theorem Waiting.all_ranks (h : Waiting plan key round buf) (hdone : buf.isDone = true) :
    buf.ranks.Perm ((plan.ranks key).sort (· ≤ ·)) := by
  have hle : (plan.ranks key).card ≤ buf.ranks.length := by
    rw [← h.fanin]
    exact of_decide_eq_true hdone
  have hall : buf.ranks.toFinset = plan.ranks key := by
    apply Finset.eq_of_subset_of_card_le
    · intro rank hrank
      exact h.subset rank (List.mem_toFinset.1 hrank)
    · rw [List.toFinset_card_of_nodup h.nodup]
      exact hle
  rw [List.perm_ext_iff_of_nodup h.nodup (Finset.sort_nodup _ _)]
  intro rank
  rw [Finset.mem_sort, ← hall, List.mem_toFinset]

/-- They go together in the order of the ranks. -/
theorem Waiting.sorted (h : Waiting plan key round buf) (hdone : buf.isDone = true) :
    buf.ranks.insertionSort (· ≤ ·) = (plan.ranks key).sort (· ≤ ·) := by
  have hperm := (List.perm_insertionSort (· ≤ ·) buf.ranks).trans (h.all_ranks hdone)
  exact hperm.eq_of_pairwise' (List.pairwise_insertionSort _ _) (Finset.pairwise_sort _ _)

/-- Then the shards go together, as many tensors as the round has. -/
theorem Waiting.consolidate (h : Waiting plan key round buf) (hdone : buf.isDone = true)
    (hgathers : plan.Gathers key) :
    buf.consolidate = some (gathered plan key round buf.parts) := by
  have hlen : ∀ rank ∈ (plan.ranks key).sort (· ≤ ·),
      (buf.shards rank).length = plan.tensors key round := by
    intro rank hrank
    have hmem : rank ∈ buf.parts.map (·.edge.rank) :=
      h.ranks ▸ (h.all_ranks hdone).mem_iff.2 hrank
    obtain ⟨part, hpart, heq⟩ := sentBy_of_mem hmem
    rw [h.shards, heq]
    exact h.sent part hpart
  have hshards : buf.shards = sentBy buf.parts := funext h.shards
  have hhead : ((((plan.ranks key).sort (· ≤ ·)).head?.map buf.shards).getD []).length =
      plan.tensors key round := by
    cases hs : (plan.ranks key).sort (· ≤ ·) with
    | nil =>
      have hcard : (plan.ranks key).card = 0 := by
        rw [← Finset.length_sort (· ≤ ·), hs]
        rfl
      rw [Plan.Gathers, hcard] at hgathers
      omega
    | cons rank rest =>
      apply hlen rank
      rw [hs]
      exact List.mem_cons_self
  rw [BufferedShards.consolidate, h.sorted hdone, hhead, if_pos, gathered, hshards]
  rw [List.all_eq_true]
  intro rank hrank
  exact decide_eq_true (hlen rank hrank)

/-- Every rank came once. -/
theorem Waiting.ranks_perm (h : Waiting plan key round buf) (hdone : buf.isDone = true) :
    (buf.parts.map (·.edge.rank)).Perm ((plan.ranks key).sort (· ≤ ·)) :=
  h.ranks ▸ h.all_ranks hdone

/-- Each rank has one read in a round that is complete. -/
theorem Whole.count_rank {em : Emission α} (h : Whole plan key round em) {rank : ℕ}
    (hrank : rank ∈ plan.ranks key) :
    em.parts.countP (fun part => part.edge.rank = rank) = 1 := by
  have hcount : (em.parts.map (·.edge.rank)).count rank = 1 := by
    rw [h.ranks.count_eq, List.count_eq_one_of_mem (Finset.sort_nodup _ _)]
    exact (Finset.mem_sort _).2 hrank
  rw [List.count, List.countP_map] at hcount
  rw [← hcount]
  congr 1

end Mstar.Gather
