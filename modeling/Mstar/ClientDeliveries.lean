import Mstar.ClientStreams
import Mathlib.Data.List.Nodup

/-!
# What a rank gets of a stream

A rank reads one FIFO, and a stream's part of it is a list of items and ends. Each
send of the data worker lengthens that list at the ranks of the stream's route and
leaves every other rank and stream as it was.
-/

namespace Mstar.ClientStreams

/-- What a rank gets of a stream. -/
inductive Delivery (τ : Type*)
  | item (info : Info τ)
  /-- The stream's end, with the number of items it carried. -/
  | finish (count : ℕ)

variable {ν ρ κ π τ β : Type*}

namespace Worker

/-- Answering late streams sends nothing to ranks. -/
@[simp] theorem answerLate_sent (w : Worker ν ρ κ π τ β) (b : Option β) (names : List ν) :
    (w.answerLate b names).sent = w.sent := by
  unfold answerLate
  cases b with
  | none => rfl
  | some b => cases names <;> rfl

/-- It keeps the references. -/
@[simp] theorem answerLate_refs (w : Worker ν ρ κ π τ β) (b : Option β) (names : List ν) :
    (w.answerLate b names).refs = w.refs := by
  unfold answerLate
  cases b with
  | none => rfl
  | some b => cases names <;> rfl

/-- It stores nothing. -/
@[simp] theorem answerLate_nextUuid (w : Worker ν ρ κ π τ β) (b : Option β) (names : List ν) :
    (w.answerLate b names).nextUuid = w.nextUuid := by
  unfold answerLate
  cases b with
  | none => rfl
  | some b => cases names <;> rfl

/-- It tears nothing down. -/
@[simp] theorem answerLate_tornDown (w : Worker ν ρ κ π τ β) (b : Option β) (names : List ν) :
    (w.answerLate b names).tornDown = w.tornDown := by
  unfold answerLate
  cases b with
  | none => rfl
  | some b => cases names <;> rfl

/-- It keeps the call. -/
@[simp] theorem answerLate_call (w : Worker ν ρ κ π τ β) (b : Option β) (names : List ν) :
    (w.answerLate b names).call = w.call := by
  unfold answerLate
  cases b with
  | none => rfl
  | some b => cases names <;> rfl

/-- Answers are only added. -/
theorem late_answerLate {w : Worker ν ρ κ π τ β} {b : Option β} {names : List ν}
    {x : β × List ν} (hx : x ∈ w.late) : x ∈ (w.answerLate b names).late := by
  unfold answerLate
  cases b with
  | none => exact hx
  | some b =>
    cases names with
    | nil => exact hx
    | cons m names => exact List.mem_append_left _ hx

/-- A late append with someone to answer is answered, with each of its streams. -/
theorem answered_answerLate (w : Worker ν ρ κ π τ β) {b : β} {names : List ν} {n : ν}
    (hn : n ∈ names) :
    ∃ streams, (b, streams) ∈ (w.answerLate (some b) names).late ∧ n ∈ streams := by
  cases names with
  | nil => simp at hn
  | cons m names => exact ⟨m :: names, List.mem_append_right _ (List.mem_singleton.2 rfl), hn⟩

end Worker

section Lists

variable {α γ : Type*}

/-- Erasing duplicates leaves none. -/
theorem nodup_eraseDups [BEq α] [LawfulBEq α] (l : List α) : l.eraseDups.Nodup := by
  induction hlen : l.length using Nat.strongRecOn generalizing l with
  | _ n ih =>
    subst hlen
    cases l with
    | nil => simp
    | cons a l =>
      have hless : (l.filter fun b => !b == a).length < (a :: l).length := by
        have := List.length_filter_le (fun b => !b == a) l
        simp only [List.length_cons]
        omega
      rw [List.eraseDups_cons, List.nodup_cons]
      exact ⟨by simp [List.mem_eraseDups], ih _ hless _ rfl⟩

/-- Where one member of a list of distinct ones gives something, that is all. -/
theorem flatMap_one [DecidableEq α] {l : List α} (hl : l.Nodup) (a : α) (f : α → List γ)
    (hf : ∀ b ∈ l, b ≠ a → f b = []) : l.flatMap f = if a ∈ l then f a else [] := by
  induction l with
  | nil => simp
  | cons b l ih =>
    rw [List.nodup_cons] at hl
    specialize ih hl.2 fun c hc => hf c (List.mem_cons_of_mem b hc)
    rw [List.flatMap_cons, ih]
    by_cases hb : b = a
    · subst hb
      simp [hl.1]
    · rw [hf b List.mem_cons_self hb]
      have hiff : a ∈ b :: l ↔ a ∈ l := by simp [Ne.symm hb]
      simp only [hiff, List.nil_append]

end Lists

variable [DecidableEq ν]

/-- A stream's part of some signals. -/
def carried (signals : List (ν × List (Info τ))) (n : ν) : List (Info τ) :=
  signals.flatMap fun s => if s.1 = n then s.2 else []

/-- What one more signal carries. -/
@[simp] theorem carried_cons (s : ν × List (Info τ)) (signals : List (ν × List (Info τ))) (n : ν) :
    carried (s :: signals) n = (if s.1 = n then s.2 else []) ++ carried signals n := rfl

/-- A stream with ranks counts what is sent. -/
theorem Worker.count_sendAll {d : Deployment ν π τ} {route : Route ν ρ κ} {n : ν}
    (signals : List (ν × List (Info τ))) (w : Worker ν ρ κ π τ β) (itemsSent : ν → ℕ) :
    (sendAll d route signals w itemsSent).2 n =
      if route.ranks n = [] then itemsSent n else itemsSent n + (carried signals n).length := by
  induction signals generalizing w itemsSent with
  | nil => simp [sendAll, carried]
  | cons s signals ih =>
    obtain ⟨name, infos⟩ := s
    simp only [sendAll, carried_cons]
    rw [ih, countItems]
    by_cases hn : name = n
    · subst hn
      by_cases hr : route.ranks name = []
      · simp [hr]
      · simp [hr, Nat.add_assoc]
    · by_cases hr : route.ranks name = []
      · simp [hr, hn]
      · simp [hr, hn, Function.update_of_ne (Ne.symm hn)]

variable [DecidableEq ρ]

/-- What a rank gets of a stream with a message. -/
def Message.gives (r : ρ) (n : ν) : Message ν ρ κ π τ → List (Delivery τ)
  | .items worker name _ _ infos =>
    if worker = r ∧ name = n then infos.map Delivery.item else []
  | .ends worker _ counts =>
    if worker = r then
      counts.flatMap fun c => if c.1 = n then [.finish c.2] else []
    else []

/-- What a rank got of a stream. -/
def deliveries (sent : List (Message ν ρ κ π τ)) (r : ρ) (n : ν) : List (Delivery τ) :=
  sent.flatMap (Message.gives r n)

/-- Messages are delivered one after another. -/
theorem deliveries_append (s t : List (Message ν ρ κ π τ)) (r : ρ) (n : ν) :
    deliveries (s ++ t) r n = deliveries s r n ++ deliveries t r n :=
  List.flatMap_append

namespace Worker

variable {d : Deployment ν π τ} {route : Route ν ρ κ} {r : ρ} {n : ν}

/-- A send of a stream's items reaches each of its ranks once. -/
theorem deliveries_sendItems (hroute : ∀ m, (route.ranks m).Nodup) (name : ν)
    (infos : List (Info τ)) (w : Worker ν ρ κ π τ β) :
    deliveries (w.sendItems d route name infos).sent r n =
      deliveries w.sent r n ++
        if r ∈ route.ranks n then (if name = n then infos else []).map Delivery.item else [] := by
  have hone := flatMap_one (hroute name) r
    (fun worker => Message.gives (κ := κ) (π := π) r n
      (.items worker name (route.nodes name) (d.partition name) infos))
    fun b _ hb => by simp [Message.gives, hb]
  unfold sendItems
  rw [deliveries_append]
  congr 1
  unfold deliveries
  rw [List.flatMap_map, hone]
  by_cases hn : name = n
  · subst hn
    simp [Message.gives]
  · simp [Message.gives, hn]

/-- A send of several streams' items reaches each rank of each once, in order. -/
theorem deliveries_sendAll (hroute : ∀ m, (route.ranks m).Nodup)
    (signals : List (ν × List (Info τ))) (w : Worker ν ρ κ π τ β) (itemsSent : ν → ℕ) :
    deliveries (sendAll d route signals w itemsSent).1.sent r n =
      deliveries w.sent r n ++
        if r ∈ route.ranks n then (carried signals n).map Delivery.item else [] := by
  induction signals generalizing w itemsSent with
  | nil => simp [sendAll, carried]
  | cons s signals ih =>
    obtain ⟨name, infos⟩ := s
    simp only [sendAll, carried_cons]
    rw [ih, deliveries_sendItems hroute, List.append_assoc]
    congr 1
    by_cases hr : r ∈ route.ranks n
    · simp only [if_pos hr, List.map_append]
    · simp only [if_neg hr, List.append_nil]

variable [DecidableEq π]

/-- Each end reaches each of its stream's ranks once, with the stream's count. -/
theorem deliveries_sendEnds {names : ν → Bool}
    (hedge : ∀ m, names m = true → route.ranks m ≠ [] → m ∈ d.edges)
    (w : Worker ν ρ κ π τ β) (call : ClientCall ν ρ κ τ β) :
    deliveries (sendEnds d w call route names).sent r n =
      deliveries w.sent r n ++
        if r ∈ route.ranks n ∧ names n = true then [.finish (call.itemsSent n)] else [] := by
  unfold sendEnds
  rw [deliveries_append]
  congr 1
  unfold deliveries
  rw [List.flatMap_map]
  have hmem (key : ρ × π) (m : ν) : (key, m) ∈ endsAt d route names ↔
      m ∈ d.edges ∧ names m = true ∧ key.1 ∈ route.ranks m ∧ key.2 = d.partition m := by
    simp only [endsAt, List.mem_flatMap, List.mem_filter, List.mem_map, Prod.mk.injEq]
    constructor
    · rintro ⟨x, ⟨hx, hnames⟩, worker, hworker, rfl, rfl⟩
      exact ⟨hx, hnames, hworker, rfl⟩
    · rintro ⟨hx, hnames, hworker, hpart⟩
      exact ⟨m, ⟨hx, hnames⟩, key.1, hworker, by rw [← hpart], rfl⟩
  -- The counts of one message hold the stream once, if at all.
  have hcounts (key : ρ × π) : ((((endsAt d route names).filter fun e => e.1 = key).map
        Prod.snd).eraseDups.map fun name => (name, call.itemsSent name)).flatMap
          (fun c => if c.1 = n then [Delivery.finish (τ := τ) c.2] else []) =
      if (key, n) ∈ endsAt d route names then [.finish (call.itemsSent n)] else [] := by
    rw [List.flatMap_map, flatMap_one (nodup_eraseDups _) n _
      (fun b _ hb => by simp only [if_neg hb])]
    have hiff : n ∈ (((endsAt d route names).filter fun e => e.1 = key).map
        Prod.snd).eraseDups ↔ (key, n) ∈ endsAt d route names := by
      simp [List.mem_eraseDups, and_comm]
    simp only [hiff, if_true]
  rw [flatMap_one (nodup_eraseDups _) (r, d.partition n)]
  · simp only [Message.gives, if_true, hcounts, hmem]
    by_cases hn : r ∈ route.ranks n ∧ names n = true
    · have hin := hedge n hn.2 (List.ne_nil_of_mem hn.1)
      have hends : ((r, d.partition n), n) ∈ endsAt d route names :=
        (hmem _ _).2 ⟨hin, hn.2, hn.1, rfl⟩
      rw [if_pos hn, if_pos (List.mem_eraseDups.2 (List.mem_map.2 ⟨_, hends, rfl⟩)),
        if_pos ⟨hin, hn.2, hn.1, trivial⟩]
    · rw [if_neg hn]
      split
      · rw [if_neg fun h => hn ⟨h.2.2.1, h.2.1⟩]
      · rfl
  · intro key _ hkey
    simp only [Message.gives]
    split
    · rename_i hr
      rw [hcounts, if_neg]
      intro hends
      exact hkey (Prod.ext hr ((hmem _ _).1 hends).2.2.2)
    · rfl

end Worker

end Mstar.ClientStreams
