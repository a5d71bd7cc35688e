import Mathlib.Algebra.Order.Ring.Int
import Mathlib.Data.List.Basic
import Mstar.Interning

/-!
# Tensor uuids

A tensor's uuid is the index of the entity that made it and a count of its own.
Workers and the data worker have indices that every process agrees on; another
entity gets the next one of its process. What a deployment mints is unique but
for entities that share an index.
-/

namespace Mstar.Uuids

open Interning

/-- The bits of an entity's index. -/
def entityBits : ℕ := 16

/-- The bits of its counter. -/
def counterBits : ℕ := 48

/-- The largest count. -/
def counterMask : ℕ := 2 ^ counterBits - 1

/-- The largest index. -/
def maxEntityIndex : ℕ := 2 ^ entityBits - 1

/-- The first index that a process gives by itself. -/
def dynamicBase : ℕ := 2 ^ (entityBits - 1)

/-- The API server's data worker. -/
def dataWorker : List Char := "api_server_preprocess_worker".toList

/-- What a worker's name begins with. -/
def workerStart : List Char := "worker_".toList

/-- The index of the worker of rank 0. -/
def workerBase : ℕ := 1

/-- How a character counts for `isdigit` and `int`: not a digit, a digit that
`int` refuses, or a decimal digit. -/
inductive Digit where
  | none
  | other
  | decimal (value : ℕ)

/-- `isdigit`. -/
def isdigit (digit : Char → Digit) (text : List Char) : Bool :=
  !text.isEmpty && text.all fun c => match digit c with
    | .none => false
    | _ => true

/-- `int`, of digits. -/
def intOf (digit : Char → Digit) (text : List Char) : Option ℕ :=
  text.foldl (fun value c => match value, digit c with
    | some value, .decimal d => some (10 * value + d)
    | _, _ => none) (some 0)

/-- What kind of index an entity has. -/
inductive Kind where
  | stable (index : ℕ)
  | dynamic
  | refused
  deriving DecidableEq

/-- The part of `entity_index` that every process agrees on. A rank that is no
number or is too large is refused. -/
def kindOf (digit : Char → Digit) (entity : List Char) : Kind :=
  if entity = dataWorker then .stable 0
  else if workerStart.isPrefixOf entity && isdigit digit (entity.drop workerStart.length) then
    match intOf digit (entity.drop workerStart.length) with
    | some rank => if dynamicBase ≤ workerBase + rank then .refused else .stable (workerBase + rank)
    | none => .refused
  else .dynamic

/-- `_dynamic_index`: the place of an entity in its process's table, unless none
is left. -/
def dynamicIndex (dynamic : Interner (List Char)) (entity : List Char) :
    Option ℕ × Interner (List Char) :=
  match dynamic.indexOf entity with
  | some i => (some (dynamicBase + i), dynamic)
  | none =>
    if maxEntityIndex < dynamicBase + dynamic.names.length then (none, dynamic)
    else (some (dynamicBase + (dynamic.intern entity).1), (dynamic.intern entity).2)

/-- `entity_index`, or none where it raises. -/
def entityIndex (digit : Char → Digit) (dynamic : Interner (List Char)) (entity : List Char) :
    Option ℕ × Interner (List Char) :=
  match kindOf digit entity with
  | .stable index => (some index, dynamic)
  | .dynamic => dynamicIndex dynamic entity
  | .refused => (none, dynamic)

/-- `TensorUuidMinter`: its entity, the index shifted into place, and how many it
has counted. -/
structure TensorUuidMinter where
  entity : List Char
  start : ℕ
  counter : ℕ

/-- `mint`, or none where the counter is exhausted. -/
def TensorUuidMinter.mint (m : TensorUuidMinter) : Option ℕ × TensorUuidMinter :=
  let next := { m with counter := m.counter + 1 }
  (if counterMask < next.counter then none else some (m.start ||| next.counter), next)

/-- `owner_index`. -/
def ownerIndex (uuid : ℕ) : ℕ := uuid >>> counterBits

/-- `counter_of`. -/
def counterOf (uuid : ℕ) : ℕ := uuid &&& counterMask

section Numbers

/-- A uuid is its index and its count, side by side. -/
theorem uuid_eq (index : ℕ) {count : ℕ} (h : count ≤ counterMask) :
    index <<< counterBits ||| count = index * 2 ^ counterBits + count := by
  have hlt : count < 2 ^ counterBits := by
    have hpos : 0 < 2 ^ counterBits := Nat.two_pow_pos _
    unfold counterMask at h
    omega
  rw [← Nat.shiftLeft_add_eq_or_of_lt hlt, Nat.shiftLeft_eq]

/-- The index is read back. -/
theorem ownerIndex_uuid (index : ℕ) {count : ℕ} (h : count ≤ counterMask) :
    ownerIndex (index <<< counterBits ||| count) = index := by
  have hpos : 0 < 2 ^ counterBits := Nat.two_pow_pos _
  have hlt : count < 2 ^ counterBits := by
    unfold counterMask at h
    omega
  rw [uuid_eq index h, ownerIndex, Nat.shiftRight_eq_div_pow, Nat.mul_comm,
    Nat.mul_add_div hpos, Nat.div_eq_of_lt hlt, Nat.add_zero]

/-- So is the count. -/
theorem counterOf_uuid (index : ℕ) {count : ℕ} (h : count ≤ counterMask) :
    counterOf (index <<< counterBits ||| count) = count := by
  have hpos : 0 < 2 ^ counterBits := Nat.two_pow_pos _
  have hlt : count < 2 ^ counterBits := by
    unfold counterMask at h
    omega
  rw [uuid_eq index h, counterOf, counterMask, Nat.and_two_pow_sub_one_eq_mod, Nat.mul_comm,
    Nat.mul_add_mod, Nat.mod_eq_of_lt hlt]

/-- It takes no more than 64 bits. -/
theorem uuid_lt {index count : ℕ} (hindex : index ≤ maxEntityIndex) (h : count ≤ counterMask) :
    index <<< counterBits ||| count < 2 ^ 64 := by
  rw [uuid_eq index h]
  unfold maxEntityIndex entityBits at hindex
  unfold counterMask counterBits at h
  unfold counterBits
  omega

end Numbers

/-- A process: the indices it gave by itself and its minters. -/
structure Process where
  dynamic : Interner (List Char)
  minters : List TensorUuidMinter

/-- A deployment: its processes, and what was minted, each uuid with the process
and the minter it came from. -/
structure Deployment where
  processes : ℕ → Process
  minted : List (ℕ × ℕ × ℕ)

/-- What processes do: a minter for an entity, and a uuid from one. -/
inductive Op where
  | create (process : ℕ) (entity : List Char)
  | mint (process minter : ℕ)

namespace Deployment

/-- Before anything. -/
def start : Deployment := ⟨fun _ => ⟨Interner.empty, []⟩, []⟩

variable (digit : Char → Digit) (d : Deployment)

/-- A minter for an entity, where it gets an index. -/
def create (process : ℕ) (entity : List Char) : Deployment :=
  let p := d.processes process
  let indexed := entityIndex digit p.dynamic entity
  { d with
    processes := Function.update d.processes process
      { dynamic := indexed.2
        minters := match indexed.1 with
          | some index => p.minters ++ [⟨entity, index <<< counterBits, 0⟩]
          | none => p.minters } }

/-- A uuid from a minter. -/
def mint (process minter : ℕ) : Deployment :=
  let p := d.processes process
  match p.minters[minter]? with
  | none => d
  | some m =>
    { processes := Function.update d.processes process
        { p with minters := p.minters.set minter m.mint.2 }
      minted := match m.mint.1 with
        | some uuid => d.minted ++ [(process, minter, uuid)]
        | none => d.minted }

/-- One step. -/
def step : Op → Deployment
  | .create process entity => d.create digit process entity
  | .mint process minter => d.mint process minter

/-- Steps one after another, in any order over the processes. -/
def run (ops : List Op) : Deployment := ops.foldl (fun d op => d.step digit op) d

end Deployment

section Indices

variable (digit : Char → Digit)

/-- An index that an entity has in a process that gave some indices itself. -/
def HasIndex (dynamic : Interner (List Char)) (entity : List Char) (index : ℕ) : Prop :=
  index ≤ maxEntityIndex ∧
    ((kindOf digit entity = .stable index ∧ index < dynamicBase) ∨
      (kindOf digit entity = .dynamic ∧
        ∃ i, index = dynamicBase + i ∧ dynamic.names[i]? = some entity))

/-- The indices that all agree on are below those a process gives itself. -/
theorem kindOf_stable {entity : List Char} {index : ℕ} (h : kindOf digit entity = .stable index) :
    index < dynamicBase := by
  have hpos : 0 < dynamicBase := Nat.two_pow_pos _
  unfold kindOf at h
  split at h
  · cases h
    exact hpos
  · split at h
    · split at h
      · split at h
        · cases h
        · rename_i hlt
          cases h
          exact Nat.lt_of_not_le hlt
      · cases h
    · cases h

/-- The indices that a process gave itself are in range. -/
def Roomy (dynamic : Interner (List Char)) : Prop :=
  dynamicBase + dynamic.names.length ≤ maxEntityIndex + 1

/-- `entity_index` gives an index that the entity has, and the indices given
before stay. -/
theorem entityIndex_spec {dynamic : Interner (List Char)} (h : Roomy dynamic)
    (entity : List Char) :
    Roomy (entityIndex digit dynamic entity).2 ∧
      dynamic.names <+: (entityIndex digit dynamic entity).2.names ∧
      ∀ index, (entityIndex digit dynamic entity).1 = some index →
        HasIndex digit (entityIndex digit dynamic entity).2 entity index := by
  have hbase : dynamicBase ≤ maxEntityIndex := by
    unfold dynamicBase maxEntityIndex entityBits
    omega
  unfold entityIndex
  split
  · rename_i index hkind
    refine ⟨h, List.prefix_refl _, fun other hother => ?_⟩
    cases hother
    have hlt := kindOf_stable digit hkind
    exact ⟨by omega, .inl ⟨hkind, hlt⟩⟩
  · rename_i hkind
    unfold dynamicIndex
    split
    · rename_i i hi
      refine ⟨h, List.prefix_refl _, fun other hother => ?_⟩
      cases hother
      have hat := (dynamic.agree entity i).1 hi
      have hlt := (List.getElem?_eq_some_iff.1 hat).1
      unfold Roomy at h
      exact ⟨by omega, .inr ⟨hkind, i, rfl, hat⟩⟩
    · rename_i hnone
      obtain ⟨hlast, hnames⟩ := dynamic.intern_new entity hnone
      split
      · exact ⟨h, List.prefix_refl _, fun other hother => by cases hother⟩
      · rename_i hroom
        refine ⟨?_, ⟨[entity], hnames.symm⟩, fun other hother => ?_⟩
        · unfold Roomy
          rw [hnames, List.length_append, List.length_singleton]
          omega
        · cases hother
          rw [hlast]
          exact ⟨by omega, .inr ⟨hkind, _, rfl, by rw [hnames]; simp⟩⟩
  · exact ⟨h, List.prefix_refl _, fun other hother => by cases hother⟩

variable {digit}

/-- An index stays an entity's as its process gives more. -/
theorem HasIndex.grown {dynamic dynamic' : Interner (List Char)} {entity : List Char} {index : ℕ}
    (h : HasIndex digit dynamic entity index) (hmore : dynamic.names <+: dynamic'.names) :
    HasIndex digit dynamic' entity index := by
  obtain ⟨hle, hstable | ⟨hkind, i, hi, hat⟩⟩ := h
  · exact ⟨hle, .inl hstable⟩
  · obtain ⟨more, hnames⟩ := hmore
    refine ⟨hle, .inr ⟨hkind, i, hi, ?_⟩⟩
    rw [← hnames, List.getElem?_append_left (List.getElem?_eq_some_iff.1 hat).1]
    exact hat

end Indices

section Runs

/-- What holds of the minters and of what was minted. -/
structure Sound (digit : Char → Digit) (d : Deployment) : Prop where
  roomy : ∀ process, Roomy (d.processes process).dynamic
  indexed : ∀ process, ∀ m ∈ (d.processes process).minters,
    ∃ index, m.start = index <<< counterBits ∧
      HasIndex digit (d.processes process).dynamic m.entity index
  counted : ∀ entry ∈ d.minted, ∃ m count,
    (d.processes entry.1).minters[entry.2.1]? = some m ∧ entry.2.2 = m.start ||| count ∧
      0 < count ∧ count ≤ m.counter ∧ count ≤ counterMask
  nodup : d.minted.Nodup

variable {digit : Char → Digit} {d : Deployment}

/-- Nothing is minted yet. -/
theorem start_sound : Sound digit .start where
  roomy := by
    intro process
    unfold Roomy dynamicBase maxEntityIndex entityBits
    simp [Deployment.start, Interner.empty]
  indexed := by simp [Deployment.start]
  counted := by simp [Deployment.start]
  nodup := .nil

/-- A new minter has an index of its entity, and the others stay. -/
theorem Sound.create (h : Sound digit d) (process : ℕ) (entity : List Char) :
    Sound digit (d.create digit process entity) := by
  obtain ⟨hroomy, hmore, hindex⟩ := entityIndex_spec digit (h.roomy process) entity
  constructor
  · intro p
    by_cases hp : p = process
    · subst hp
      simpa [Deployment.create] using hroomy
    · simpa [Deployment.create, Function.update_of_ne hp] using h.roomy p
  · intro p m hm
    by_cases hp : p = process
    · subst hp
      simp only [Deployment.create, Function.update_self] at hm ⊢
      split at hm
      · rename_i index hsome
        rcases List.mem_append.1 hm with hold | hnew
        · obtain ⟨i, hi, hhas⟩ := h.indexed p m hold
          exact ⟨i, hi, hhas.grown hmore⟩
        · cases List.mem_singleton.1 hnew
          exact ⟨index, rfl, hindex index hsome⟩
      · obtain ⟨i, hi, hhas⟩ := h.indexed p m hm
        exact ⟨i, hi, hhas.grown hmore⟩
    · simp only [Deployment.create, Function.update_of_ne hp] at hm ⊢
      exact h.indexed p m hm
  · intro entry hentry
    obtain ⟨m, count, hat, hcount⟩ := h.counted entry hentry
    refine ⟨m, count, ?_, hcount⟩
    by_cases hp : entry.1 = process
    · simp only [Deployment.create, hp, Function.update_self]
      rw [hp] at hat
      split
      · rw [List.getElem?_append_left (List.getElem?_eq_some_iff.1 hat).1]
        exact hat
      · exact hat
    · simp only [Deployment.create, Function.update_of_ne hp]
      exact hat
  · exact h.nodup

/-- What was minted is counted also as a minter counts on. -/
theorem Sound.counts (h : Sound digit d) {process minter : ℕ} {m : TensorUuidMinter}
    (hat : (d.processes process).minters[minter]? = some m) :
    ∀ entry ∈ d.minted, ∃ m' count,
      ((Function.update d.processes process
        { d.processes process with
          minters := (d.processes process).minters.set minter m.mint.2 }) entry.1).minters[
            entry.2.1]? = some m' ∧
        entry.2.2 = m'.start ||| count ∧ 0 < count ∧ count ≤ m'.counter ∧ count ≤ counterMask := by
  intro entry hentry
  obtain ⟨m', count, hold, huuid, hpos, hle, hmask⟩ := h.counted entry hentry
  have hlt := (List.getElem?_eq_some_iff.1 hat).1
  by_cases hp : entry.1 = process
  · rw [hp, Function.update_self]
    rw [hp] at hold
    by_cases hm : entry.2.1 = minter
    · rw [hm] at hold ⊢
      rw [hat] at hold
      cases hold
      exact ⟨m.mint.2, count, List.getElem?_set_self hlt, huuid, hpos, Nat.le_succ_of_le hle,
        hmask⟩
    · refine ⟨m', count, ?_, huuid, hpos, hle, hmask⟩
      rw [List.getElem?_set_ne (Ne.symm hm)]
      exact hold
  · rw [Function.update_of_ne hp]
    exact ⟨m', count, hold, huuid, hpos, hle, hmask⟩

/-- A uuid minted is a new one of its minter. -/
theorem Sound.mint_new (h : Sound digit d) {process minter uuid : ℕ} {m : TensorUuidMinter}
    (hat : (d.processes process).minters[minter]? = some m) (huuid : m.mint.1 = some uuid) :
    uuid = m.start ||| (m.counter + 1) ∧ m.counter + 1 ≤ counterMask ∧
      (process, minter, uuid) ∉ d.minted := by
  unfold TensorUuidMinter.mint at huuid
  dsimp only at huuid
  split at huuid
  · cases huuid
  · rename_i hmask
    cases huuid
    refine ⟨rfl, Nat.le_of_not_lt hmask, fun hmem => ?_⟩
    obtain ⟨m', count, hold, heq, -, hle, hcount⟩ := h.counted _ hmem
    have hsame : m' = m := Option.some.inj (hold.symm.trans hat)
    obtain ⟨index, hstart, -⟩ := h.indexed process m (List.mem_of_getElem? hat)
    rw [hsame] at heq hle
    change m.start ||| (m.counter + 1) = m.start ||| count at heq
    rw [hstart, uuid_eq index (Nat.le_of_not_lt hmask), uuid_eq index hcount] at heq
    omega

/-- Minting keeps what holds. -/
theorem Sound.mint (h : Sound digit d) (process minter : ℕ) :
    Sound digit (d.mint process minter) := by
  unfold Deployment.mint
  dsimp only
  split
  · exact h
  · rename_i m hat
    have hlt := (List.getElem?_eq_some_iff.1 hat).1
    constructor
    · intro p
      by_cases hp : p = process
      · subst hp
        simpa using h.roomy p
      · simpa [Function.update_of_ne hp] using h.roomy p
    · intro p m' hm'
      by_cases hp : p = process
      · subst hp
        simp only [Function.update_self] at hm' ⊢
        rcases List.mem_or_eq_of_mem_set hm' with hold | rfl
        · exact h.indexed p m' hold
        · exact h.indexed p m (List.mem_of_getElem? hat)
      · simp only [Function.update_of_ne hp] at hm' ⊢
        exact h.indexed p m' hm'
    · intro entry hentry
      cases huuid : m.mint.1 with
      | none =>
        rw [huuid] at hentry
        exact h.counts hat entry hentry
      | some uuid =>
        rw [huuid] at hentry
        rcases List.mem_append.1 hentry with hold | hnew
        · exact h.counts hat entry hold
        · obtain ⟨heq, hmask, -⟩ := h.mint_new hat huuid
          cases List.mem_singleton.1 hnew
          refine ⟨m.mint.2, m.counter + 1, ?_, heq, Nat.succ_pos _, Nat.le_refl _, hmask⟩
          simp only [Function.update_self]
          exact List.getElem?_set_self hlt
    · cases huuid : m.mint.1 with
      | none => exact h.nodup
      | some uuid =>
        obtain ⟨-, -, hnew⟩ := h.mint_new hat huuid
        refine List.nodup_append.2 ⟨h.nodup, by simp, ?_⟩
        intro entry hentry other hother heq
        rw [heq, List.mem_singleton.1 hother] at hentry
        exact hnew hentry

/-- Every run is sound. -/
theorem run_sound (ops : List Op) (h : Sound digit d) : Sound digit (d.run digit ops) := by
  induction ops generalizing d with
  | nil => exact h
  | cons op ops ih =>
    cases op with
    | create process entity => exact ih (h.create process entity)
    | mint process minter => exact ih (h.mint process minter)

end Runs

/-- Two minters whose entities share an index: the same worker's, or entities of
the same name in one process, or others in two processes, which have no peers
there. -/
def Share (digit : Char → Digit) (p q : ℕ) (m m' : TensorUuidMinter) : Prop :=
  (∃ index, kindOf digit m.entity = .stable index ∧ kindOf digit m'.entity = .stable index) ∨
    (kindOf digit m.entity = .dynamic ∧ kindOf digit m'.entity = .dynamic ∧
      (p = q → m.entity = m'.entity))

/-- Entities with one index share it. -/
theorem share_of_index {digit : Char → Digit} {d : Deployment} {p q index : ℕ}
    {m m' : TensorUuidMinter} (h : HasIndex digit (d.processes p).dynamic m.entity index)
    (h' : HasIndex digit (d.processes q).dynamic m'.entity index) : Share digit p q m m' := by
  obtain ⟨-, ⟨hkind, hlt⟩ | ⟨hkind, i, hi, hat⟩⟩ := h
  · obtain ⟨-, ⟨hkind', -⟩ | ⟨-, j, hj, -⟩⟩ := h'
    · exact .inl ⟨index, hkind, hkind'⟩
    · omega
  · obtain ⟨-, ⟨-, hlt⟩ | ⟨hkind', j, hj, hat'⟩⟩ := h'
    · omega
    · refine .inr ⟨hkind, hkind', fun hp => ?_⟩
      have hij : j = i := by omega
      rw [hp, ← hij] at hat
      exact Option.some.inj (hat.symm.trans hat')

/-- In every run of any processes, a uuid fits 64 bits, gives its entity's index
and its count back, and was minted once, unless two minters' entities share an
index. -/
theorem uuids_unique (digit : Char → Digit) (ops : List Op) :
    let d := Deployment.start.run digit ops
    d.minted.Nodup ∧ ∀ a ∈ d.minted, ∃ m, (d.processes a.1).minters[a.2.1]? = some m ∧
      a.2.2 < 2 ^ 64 ∧ m.start = ownerIndex a.2.2 <<< counterBits ∧
      HasIndex digit (d.processes a.1).dynamic m.entity (ownerIndex a.2.2) ∧
      0 < counterOf a.2.2 ∧ counterOf a.2.2 ≤ m.counter ∧
      ∀ b ∈ d.minted, b.2.2 = a.2.2 → b = a ∨ ∃ m',
        (d.processes b.1).minters[b.2.1]? = some m' ∧ (b.1, b.2.1) ≠ (a.1, a.2.1) ∧
          Share digit b.1 a.1 m' m := by
  intro d
  have hsound : Sound digit d := run_sound ops start_sound
  refine ⟨hsound.nodup, fun a ha => ?_⟩
  obtain ⟨m, count, hat, huuid, hpos, hle, hmask⟩ := hsound.counted a ha
  obtain ⟨index, hstart, hhas⟩ := hsound.indexed a.1 m (List.mem_of_getElem? hat)
  have howner : ownerIndex a.2.2 = index := by
    rw [huuid, hstart, ownerIndex_uuid index hmask]
  have hcount : counterOf a.2.2 = count := by
    rw [huuid, hstart, counterOf_uuid index hmask]
  have hlt : a.2.2 < 2 ^ 64 := by
    rw [huuid, hstart]
    exact uuid_lt hhas.1 hmask
  rw [howner, hcount]
  refine ⟨m, hat, hlt, hstart, hhas, hpos, hle, fun b hb hsame => ?_⟩
  obtain ⟨m', count', hat', huuid', -, -, hmask'⟩ := hsound.counted b hb
  obtain ⟨index', hstart', hhas'⟩ := hsound.indexed b.1 m' (List.mem_of_getElem? hat')
  have hindex : index' = index := by
    rw [← howner, ← hsame, huuid', hstart', ownerIndex_uuid index' hmask']
  by_cases hplace : (b.1, b.2.1) = (a.1, a.2.1)
  · rw [Prod.mk.injEq] at hplace
    exact .inl (Prod.ext hplace.1 (Prod.ext hplace.2 hsame))
  · exact .inr ⟨m', hat', hplace, share_of_index (hindex ▸ hhas') hhas⟩

end Mstar.Uuids
