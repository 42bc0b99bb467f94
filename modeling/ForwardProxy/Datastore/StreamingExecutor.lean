/-
ForwardProxy.Datastore.StreamingExecutor — the bounded executor of prepared
fetches (`execute_prepared_requests_streaming` in
`background_data_provider.rs`).

The loop fills its join set up to the limit, stops if the set is empty, and
else waits for one task. Tasks end in any order, and a task may panic; the
join set reports each of them once, and keeps it until then. The waits for
a launch slot take time and change nothing that the loop reads.

A step of the loop either takes an item, or a task, or passes on, so the
loop ends after a number of steps that is known beforehand
(`ExecStep.measure_lt`).
-/
import Mathlib.Data.List.Chain
import Mathlib.Logic.Relation
import Mathlib.Tactic.Common

namespace ForwardProxy.Datastore

/-- What `join_next` says about a task. -/
inductive JoinOutcome where
  | completed
  | panicked
  deriving DecidableEq, Repr

/-- In the inner loop, behind it, and after the outer one. -/
inductive ExecPhase where
  | filling
  | waiting
  | ended
  deriving DecidableEq, Repr

structure Executor (α : Type) where
  pendingItems : List α
  /-- The tasks of the join set. -/
  inFlight : List α
  attemptedCount : Nat
  phase : ExecPhase
  /-- The items in the order in which they were spawned. -/
  spawned : List α
  /-- What has been said about tasks, in that order. -/
  reports : List JoinOutcome
  deriving DecidableEq, Repr

variable {α : Type}

namespace Executor

def new (preparedRequests : List α) : Executor α where
  pendingItems := preparedRequests
  inFlight := []
  attemptedCount := 0
  phase := .filling
  spawned := []
  reports := []

def spawn (s : Executor α) (item : α) (rest : List α) : Executor α :=
  { s with
    pendingItems := rest
    inFlight := s.inFlight ++ [item]
    attemptedCount := s.attemptedCount + 1
    spawned := s.spawned ++ [item] }

def joined (s : Executor α) (others : List α) (outcome : JoinOutcome) : Executor α :=
  { s with inFlight := others, phase := .filling, reports := s.reports ++ [outcome] }

end Executor

inductive ExecStep (maxInFlight : Nat) : Executor α → Executor α → Prop where
  | spawn {s : Executor α} {item : α} {rest : List α} (phase : s.phase = .filling)
    (room : s.inFlight.length < maxInFlight) (next : s.pendingItems = item :: rest) :
    ExecStep maxInFlight s (s.spawn item rest)
  | full {s : Executor α} (phase : s.phase = .filling)
    (noRoom : ¬ s.inFlight.length < maxInFlight) :
    ExecStep maxInFlight s { s with phase := .waiting }
  | exhausted {s : Executor α} (phase : s.phase = .filling)
    (room : s.inFlight.length < maxInFlight) (next : s.pendingItems = []) :
    ExecStep maxInFlight s { s with phase := .waiting }
  | finish {s : Executor α} (phase : s.phase = .waiting) (empty : s.inFlight = []) :
    ExecStep maxInFlight s { s with phase := .ended }
  | join {s : Executor α} {before after : List α} {task : α} (outcome : JoinOutcome)
    (phase : s.phase = .waiting) (running : s.inFlight = before ++ task :: after) :
    ExecStep maxInFlight s (s.joined (before ++ after) outcome)

/-- The states of the loop on the prepared requests. -/
def ExecReach (maxInFlight : Nat) (items : List α) : Executor α → Prop :=
  Relation.ReflTransGen (ExecStep maxInFlight) (.new items)

variable {maxInFlight : Nat} {items : List α} {s s' : Executor α}

/-! ## Items and tasks -/

/-- What is true throughout. Behind the inner loop the join set is full or
there are no items left. -/
structure ExecGood (maxInFlight : Nat) (items : List α) (s : Executor α) : Prop where
  bounded : s.inFlight.length ≤ maxInFlight
  inOrder : s.spawned ++ s.pendingItems = items
  counted : s.attemptedCount = s.spawned.length
  reported : s.inFlight.length + s.reports.length = s.spawned.length
  filled : s.phase = .waiting → s.inFlight.length = maxInFlight ∨ s.pendingItems = []
  ended : s.phase = .ended → s.inFlight = [] ∧ s.pendingItems = []

theorem ExecGood.new (maxInFlight : Nat) (items : List α) :
    ExecGood maxInFlight items (.new items) := by
  constructor <;> simp [Executor.new]

theorem ExecGood.step (hpos : 1 ≤ maxInFlight) (h : ExecGood maxInFlight items s)
    (hstep : ExecStep maxInFlight s s') : ExecGood maxInFlight items s' := by
  obtain ⟨bounded, inOrder, counted, reported, filled, ended⟩ := h
  cases hstep with
  | spawn phase room next =>
    constructor
    · simp only [Executor.spawn, List.length_append, List.length_singleton]
      omega
    · simp [Executor.spawn, ← inOrder, next]
    · simp [Executor.spawn, counted]
    · simp only [Executor.spawn, List.length_append, List.length_singleton]
      omega
    · simp [Executor.spawn, phase]
    · simp [Executor.spawn, phase]
  | full phase noRoom =>
    have hfull : s.inFlight.length = maxInFlight := by omega
    exact ⟨bounded, inOrder, counted, reported, fun _ => .inl hfull, by simp⟩
  | exhausted phase room next =>
    exact ⟨bounded, inOrder, counted, reported, fun _ => .inr next, by simp⟩
  | finish phase empty =>
    refine ⟨bounded, inOrder, counted, reported, by simp, fun _ => ⟨empty, ?_⟩⟩
    rcases filled phase with hfull | hnone
    · simp only [empty, List.length_nil] at hfull
      omega
    · exact hnone
  | join outcome phase running =>
    rw [running] at bounded reported
    simp only [List.length_append, List.length_cons] at bounded reported
    constructor
    · simp only [Executor.joined, List.length_append]
      omega
    · exact inOrder
    · exact counted
    · simp only [Executor.joined, List.length_append, List.length_singleton]
      omega
    · simp [Executor.joined]
    · simp [Executor.joined]

theorem ExecReach.good (hpos : 1 ≤ maxInFlight) (h : ExecReach maxInFlight items s) :
    ExecGood maxInFlight items s := by
  induction h with
  | refl => exact .new maxInFlight items
  | tail _ hstep ih => exact ih.step hpos hstep

/-! ## The end of the loop -/

def ExecPhase.weight : ExecPhase → Nat
  | .filling => 2
  | .waiting => 1
  | .ended => 0

/-- The steps that are left, at most. -/
def Executor.measure (s : Executor α) : Nat :=
  3 * s.pendingItems.length + 2 * s.inFlight.length + s.phase.weight

theorem ExecStep.measure_lt (hstep : ExecStep maxInFlight s s') : s'.measure < s.measure := by
  cases hstep with
  | spawn phase room next =>
    simp only [Executor.measure, Executor.spawn, next, List.length_append, List.length_cons,
      List.length_nil]
    omega
  | full phase noRoom => simp [Executor.measure, phase, ExecPhase.weight]
  | exhausted phase room next => simp [Executor.measure, phase, ExecPhase.weight]
  | finish phase empty => simp [Executor.measure, phase, ExecPhase.weight]
  | join outcome phase running =>
    simp only [Executor.measure, Executor.joined, phase, running, List.length_append,
      List.length_cons, ExecPhase.weight]
    omega

/-- A loop that has not ended goes on. -/
theorem exists_step (h : s.phase ≠ .ended) : ∃ s', ExecStep maxInFlight s s' := by
  cases hphase : s.phase with
  | ended => exact absurd hphase h
  | filling =>
    by_cases hroom : s.inFlight.length < maxInFlight
    · cases hnext : s.pendingItems with
      | nil => exact ⟨_, .exhausted hphase hroom hnext⟩
      | cons item rest => exact ⟨_, .spawn hphase hroom hnext⟩
    · exact ⟨_, .full hphase hroom⟩
  | waiting =>
    cases htasks : s.inFlight with
    | nil => exact ⟨_, .finish hphase htasks⟩
    | cons task others => exact ⟨_, @ExecStep.join _ _ _ [] others task .completed hphase htasks⟩

theorem length_le_measure {path : List (Executor α)}
    (h : (s :: path).IsChain (ExecStep maxInFlight)) : path.length ≤ s.measure := by
  induction path generalizing s with
  | nil => simp
  | cons next path ih =>
    rw [List.isChain_cons_cons] at h
    have hnext := h.1.measure_lt
    have hpath := ih h.2
    simp only [List.length_cons]
    omega

/-- However the tasks end, the limit is kept and the items are spawned in
their order. Every run comes to its end, after at most three steps for each
item and two more, and then all items have been spawned, counted and
reported. -/
theorem bounded_executor (items : List α) (maxInFlight : Nat) (hpos : 1 ≤ maxInFlight) :
    (∀ s, ExecReach maxInFlight items s →
      s.inFlight.length ≤ maxInFlight ∧ s.spawned ++ s.pendingItems = items ∧
      (s.phase = .ended →
        s.inFlight = [] ∧ s.spawned = items ∧ s.attemptedCount = items.length ∧
        s.reports.length = items.length)) ∧
    (∀ s, ExecReach maxInFlight items s → s.phase ≠ .ended → ∃ s', ExecStep maxInFlight s s') ∧
    ∀ path : List (Executor α), (.new items :: path).IsChain (ExecStep maxInFlight) →
      path.length ≤ 3 * items.length + 2 := by
  refine ⟨?_, fun s _ h => exists_step h, fun path h => length_le_measure h⟩
  intro s hreach
  have hgood := hreach.good hpos
  refine ⟨hgood.bounded, hgood.inOrder, ?_⟩
  intro hended
  obtain ⟨htasks, hpending⟩ := hgood.ended hended
  have hspawned : s.spawned = items := by
    have horder := hgood.inOrder
    rwa [hpending, List.append_nil] at horder
  have hreports := hgood.reported
  rw [htasks, List.length_nil, Nat.zero_add, hspawned] at hreports
  exact ⟨htasks, hspawned, by rw [hgood.counted, hspawned], hreports⟩

/-- Three items, two at a time. The second task ends first, and panics. -/
theorem bounded_executor_three :
    (∀ s, ExecReach 2 [1, 2, 3] s → s.inFlight.length ≤ 2) ∧
    ∃ s, ExecReach 2 [1, 2, 3] s ∧ s.reports = [.panicked, .completed, .completed] ∧
      s.inFlight = [] ∧ s.spawned = [1, 2, 3] ∧ s.attemptedCount = 3 := by
  have hexecutor := bounded_executor [1, 2, 3] 2 (by decide)
  refine ⟨fun s hs => (hexecutor.1 s hs).1, ?_⟩
  have first : ExecReach 2 [1, 2, 3] _ := .tail .refl (.spawn rfl (by decide) rfl)
  have second : ExecReach 2 [1, 2, 3] _ := .tail first (.spawn rfl (by decide) rfl)
  have full : ExecReach 2 [1, 2, 3] _ := .tail second (.full rfl (by decide))
  have panicked : ExecReach 2 [1, 2, 3] _ :=
    .tail full (@ExecStep.join _ _ _ [1] [] 2 .panicked rfl rfl)
  have third : ExecReach 2 [1, 2, 3] _ := .tail panicked (.spawn rfl (by decide) rfl)
  have fullAgain : ExecReach 2 [1, 2, 3] _ := .tail third (.full rfl (by decide))
  have oneLeft : ExecReach 2 [1, 2, 3] _ :=
    .tail fullAgain (@ExecStep.join _ _ _ [] [3] 1 .completed rfl rfl)
  have exhausted : ExecReach 2 [1, 2, 3] _ := .tail oneLeft (.exhausted rfl (by decide) rfl)
  have noneLeft : ExecReach 2 [1, 2, 3] _ :=
    .tail exhausted (@ExecStep.join _ _ _ [] [] 3 .completed rfl rfl)
  have idle : ExecReach 2 [1, 2, 3] _ := .tail noneLeft (.exhausted rfl (by decide) rfl)
  have ended : ExecReach 2 [1, 2, 3] _ := .tail idle (.finish rfl rfl)
  obtain ⟨htasks, hspawned, hcount, _⟩ := (hexecutor.1 _ ended).2.2 rfl
  exact ⟨_, ended, rfl, htasks, hspawned, hcount⟩

end ForwardProxy.Datastore
