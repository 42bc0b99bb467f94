/-
ForwardProxy.Datastore.ForegroundFetch — the fetch lock of a request context
(`foreground_fetch` in `background_data_provider.rs`).

A call takes the lock of its key out of a table, or makes a new one. It
looks at the lock, waits for the right to write it, looks again, and
fetches with the lock held. If the fetch attempted no request, the lock is
reset and the entry of the table removed; otherwise a task removes the
entry 30 seconds later. Calls run concurrently, and a removal takes out
whatever the table has for the key by then.

No key is shut out for good, whatever the order of the steps: a lock in the
table that says "fetched" is held by a fetch, or there is a task that will
remove the entry. The 30 seconds are kept by the calls that attempt a
request (`Attempting`). A call that attempts none removes an entry that may
no longer be its own.

The shutdown of the process, which cancels the tasks, is left out.
-/
import Mathlib.Logic.Function.Basic
import Mathlib.Logic.Relation
import Mathlib.Tactic.Common
import ForwardProxy.Time.Duration

namespace ForwardProxy.Datastore

open Time

/-! ## Locks and calls -/

/-- A lock of the table, `Arc<RwLock<bool>>`. Reads of it end at once. -/
structure FetchLock (κ : Type) where
  /-- The key it was made for. -/
  key : κ
  fetched : Bool
  /-- The call that holds the lock for writing. -/
  writer : Option Nat
  deriving DecidableEq, Repr

inductive CallPhase where
  | called
  | reading
  | waiting
  | fetching
  /-- Nothing was attempted, and the lock is released. -/
  | removing
  /-- The call has returned, and the task it spawned sleeps. -/
  | evicting (wakeAt : Nat)
  | returned
  deriving DecidableEq, Repr

structure FetchCall (κ : Type) where
  key : κ
  phase : CallPhase
  lockRef : Option Nat
  /-- When its fetch started and ended. -/
  startedAt : Option Nat
  finishedAt : Option Nat
  deriving DecidableEq, Repr

/-- `foreground_fetch_lock` is the table. Locks and calls are numbered. -/
structure FetchSystem (κ : Type) where
  clock : Nat
  table : κ → Option Nat
  locks : Nat → Option (FetchLock κ)
  nextLock : Nat
  calls : Nat → Option (FetchCall κ)
  nextCall : Nat

def evictionDelay : Nat := fromSecs 30

variable {κ : Type} [DecidableEq κ]

namespace FetchSystem

def new : FetchSystem κ := ⟨0, fun _ => none, fun _ => none, 0, fun _ => none, 0⟩

variable (s : FetchSystem κ)

abbrev setCall (i : Nat) (c : FetchCall κ) : FetchSystem κ :=
  { s with calls := Function.update s.calls i (some c) }

abbrev setLock (l : Nat) (lock : FetchLock κ) : FetchSystem κ :=
  { s with locks := Function.update s.locks l (some lock) }

abbrev unlist (key : κ) : FetchSystem κ := { s with table := Function.update s.table key none }

abbrev call (key : κ) : FetchSystem κ :=
  { s.setCall s.nextCall ⟨key, .called, none, none, none⟩ with nextCall := s.nextCall + 1 }

abbrev insertLock (key : κ) : FetchSystem κ :=
  { s.setLock s.nextLock ⟨key, false, none⟩ with
    table := Function.update s.table key (some s.nextLock)
    nextLock := s.nextLock + 1 }

end FetchSystem

/-- `allowed` are the numbers of requests that fetches attempt. -/
inductive FetchStep (allowed : Nat → Prop) : FetchSystem κ → FetchSystem κ → Prop where
  | tick {s : FetchSystem κ} (clock : Nat) (later : s.clock ≤ clock) :
    FetchStep allowed s { s with clock := clock }
  | call {s : FetchSystem κ} (key : κ) : FetchStep allowed s (s.call key)
  -- `entry(key).or_insert_with(..)`
  | find {s : FetchSystem κ} {i l : Nat} {c : FetchCall κ} (hc : s.calls i = some c)
    (phase : c.phase = .called) (found : s.table c.key = some l) :
    FetchStep allowed s (s.setCall i { c with phase := .reading, lockRef := some l })
  | insert {s : FetchSystem κ} {i : Nat} {c : FetchCall κ} (hc : s.calls i = some c)
    (phase : c.phase = .called) (missing : s.table c.key = none) :
    FetchStep allowed s ((s.insertLock c.key).setCall i
      { c with phase := .reading, lockRef := some s.nextLock })
  | read {s : FetchSystem κ} {i l : Nat} {c : FetchCall κ} {lock : FetchLock κ}
    (hc : s.calls i = some c) (phase : c.phase = .reading) (ref : c.lockRef = some l)
    (hl : s.locks l = some lock) (free : lock.writer = none) :
    FetchStep allowed s (s.setCall i { c with phase := if lock.fetched then .returned else .waiting })
  -- the lock is acquired and looked at again
  | recheck {s : FetchSystem κ} {i l : Nat} {c : FetchCall κ} {lock : FetchLock κ}
    (hc : s.calls i = some c) (phase : c.phase = .waiting) (ref : c.lockRef = some l)
    (hl : s.locks l = some lock) (free : lock.writer = none) (fetched : lock.fetched = true) :
    FetchStep allowed s (s.setCall i { c with phase := .returned })
  | fetch {s : FetchSystem κ} {i l : Nat} {c : FetchCall κ} {lock : FetchLock κ}
    (hc : s.calls i = some c) (phase : c.phase = .waiting) (ref : c.lockRef = some l)
    (hl : s.locks l = some lock) (free : lock.writer = none) (unfetched : lock.fetched = false) :
    FetchStep allowed s ((s.setLock l { lock with fetched := true, writer := some i }).setCall i
      { c with phase := .fetching, startedAt := some s.clock })
  | giveUp {s : FetchSystem κ} {i l : Nat} {c : FetchCall κ} {lock : FetchLock κ}
    (attemptedCount : Nat) (hc : s.calls i = some c) (phase : c.phase = .fetching)
    (ref : c.lockRef = some l) (hl : s.locks l = some lock) (ok : allowed attemptedCount)
    (nothing : attemptedCount = 0) :
    FetchStep allowed s ((s.setLock l { lock with fetched := false, writer := none }).setCall i
      { c with phase := .removing, finishedAt := some s.clock })
  | complete {s : FetchSystem κ} {i l : Nat} {c : FetchCall κ} {lock : FetchLock κ}
    (attemptedCount : Nat) (hc : s.calls i = some c) (phase : c.phase = .fetching)
    (ref : c.lockRef = some l) (hl : s.locks l = some lock) (ok : allowed attemptedCount)
    (something : attemptedCount ≠ 0) :
    FetchStep allowed s ((s.setLock l { lock with writer := none }).setCall i
      { c with phase := .evicting (s.clock + evictionDelay), finishedAt := some s.clock })
  | remove {s : FetchSystem κ} {i : Nat} {c : FetchCall κ} (hc : s.calls i = some c)
    (phase : c.phase = .removing) :
    FetchStep allowed s ((s.unlist c.key).setCall i { c with phase := .returned })
  | evict {s : FetchSystem κ} {i wakeAt : Nat} {c : FetchCall κ} (hc : s.calls i = some c)
    (phase : c.phase = .evicting wakeAt) (due : wakeAt ≤ s.clock) :
    FetchStep allowed s ((s.unlist c.key).setCall i { c with phase := .returned })

abbrev FetchRun (allowed : Nat → Prop) : FetchSystem κ → FetchSystem κ → Prop :=
  Relation.ReflTransGen (FetchStep allowed)

variable {allowed : Nat → Prop} {s s' : FetchSystem κ}

/-! ## Locks and the calls that hold them -/

/-- Calls and locks are numbered in the order in which they are made, and a
lock belongs to the key it is found under. -/
structure FetchRefs (s : FetchSystem κ) : Prop where
  callsBelow : ∀ i c, s.calls i = some c → i < s.nextCall
  locksBelow : ∀ l lock, s.locks l = some lock → l < s.nextLock
  listed : ∀ key l, s.table key = some l → ∃ lock, s.locks l = some lock ∧ lock.key = key
  referred : ∀ i c l, s.calls i = some c → c.lockRef = some l →
    ∃ lock, s.locks l = some lock ∧ lock.key = c.key

/-! ## What a step does to a call -/

/-- How a step from `s` to `s'` takes a call on. -/
inductive CallMove (s s' : FetchSystem κ) : FetchCall κ → FetchCall κ → Prop where
  | finds {c : FetchCall κ} {l : Nat} (phase : c.phase = .called)
    (found : s'.table c.key = some l) :
    CallMove s s' c { c with phase := .reading, lockRef := some l }
  | waits {c : FetchCall κ} (phase : c.phase = .reading) : CallMove s s' c { c with phase := .waiting }
  | skips {c : FetchCall κ} {l : Nat} {lock : FetchLock κ}
    (phase : c.phase = .reading ∨ c.phase = .waiting) (ref : c.lockRef = some l)
    (hl : s.locks l = some lock) (free : lock.writer = none) (fetched : lock.fetched = true) :
    CallMove s s' c { c with phase := .returned }
  | fetches {c : FetchCall κ} {l : Nat} {lock : FetchLock κ} (phase : c.phase = .waiting)
    (ref : c.lockRef = some l) (hl : s.locks l = some lock) (unfetched : lock.fetched = false) :
    CallMove s s' c { c with phase := .fetching, startedAt := some s.clock }
  | givesUp {c : FetchCall κ} (phase : c.phase = .fetching) :
    CallMove s s' c { c with phase := .removing, finishedAt := some s.clock }
  | completes {c : FetchCall κ} (phase : c.phase = .fetching) :
    CallMove s s' c { c with
      phase := .evicting (s.clock + evictionDelay), finishedAt := some s.clock }
  | returns {c : FetchCall κ} (phase : c.phase = .removing ∨ ∃ wakeAt, c.phase = .evicting wakeAt)
    (unlisted : s'.table c.key = none) :
    CallMove s s' c { c with phase := .returned }

omit [DecidableEq κ] in
theorem FetchSystem.calls_setCall {i j : Nat} {d c' : FetchCall κ}
    (h : (s.setCall j d).calls i = some c') : i = j ∧ d = c' ∨ s.calls i = some c' := by
  by_cases hij : i = j
  · subst hij
    exact .inl ⟨rfl, by simpa using h⟩
  · exact .inr (by simpa [hij] using h)

/-- A call was there as it is, or has just been made, or has been taken on. -/
theorem FetchStep.call_before (hstep : FetchStep allowed s s') {i : Nat} {c' : FetchCall κ}
    (hc' : s'.calls i = some c') :
    s.calls i = some c' ∨ (i = s.nextCall ∧ ∃ key, c' = ⟨key, .called, none, none, none⟩) ∨
      ∃ c, s.calls i = some c ∧ CallMove s s' c c' := by
  cases hstep with
  | tick clock later => exact .inl hc'
  | call key =>
    rcases FetchSystem.calls_setCall hc' with ⟨rfl, rfl⟩ | hc
    · exact .inr (.inl ⟨rfl, key, rfl⟩)
    · exact .inl hc
  | find hc phase found =>
    rcases FetchSystem.calls_setCall hc' with ⟨rfl, rfl⟩ | hsame
    · exact .inr (.inr ⟨_, hc, .finds phase found⟩)
    · exact .inl hsame
  | insert hc phase missing =>
    rcases FetchSystem.calls_setCall hc' with ⟨rfl, rfl⟩ | hsame
    · exact .inr (.inr ⟨_, hc, .finds phase (Function.update_self ..)⟩)
    · exact .inl hsame
  | @read j l c lock hc phase ref hl free =>
    rcases FetchSystem.calls_setCall hc' with ⟨rfl, rfl⟩ | hsame
    · cases hfetched : lock.fetched with
      | true => exact .inr (.inr ⟨c, hc, .skips (.inl phase) ref hl free hfetched⟩)
      | false => exact .inr (.inr ⟨c, hc, .waits phase⟩)
    · exact .inl hsame
  | recheck hc phase ref hl free fetched =>
    rcases FetchSystem.calls_setCall hc' with ⟨rfl, rfl⟩ | hsame
    · exact .inr (.inr ⟨_, hc, .skips (.inr phase) ref hl free fetched⟩)
    · exact .inl hsame
  | fetch hc phase ref hl free unfetched =>
    rcases FetchSystem.calls_setCall hc' with ⟨rfl, rfl⟩ | hsame
    · exact .inr (.inr ⟨_, hc, .fetches phase ref hl unfetched⟩)
    · exact .inl hsame
  | giveUp attemptedCount hc phase ref hl ok nothing =>
    rcases FetchSystem.calls_setCall hc' with ⟨rfl, rfl⟩ | hsame
    · exact .inr (.inr ⟨_, hc, .givesUp phase⟩)
    · exact .inl hsame
  | complete attemptedCount hc phase ref hl ok something =>
    rcases FetchSystem.calls_setCall hc' with ⟨rfl, rfl⟩ | hsame
    · exact .inr (.inr ⟨_, hc, .completes phase⟩)
    · exact .inl hsame
  | remove hc phase =>
    rcases FetchSystem.calls_setCall hc' with ⟨rfl, rfl⟩ | hsame
    · exact .inr (.inr ⟨_, hc, .returns (.inl phase) (Function.update_self ..)⟩)
    · exact .inl hsame
  | evict hc phase due =>
    rcases FetchSystem.calls_setCall hc' with ⟨rfl, rfl⟩ | hsame
    · exact .inr (.inr ⟨_, hc, .returns (.inr ⟨_, phase⟩) (Function.update_self ..)⟩)
    · exact .inl hsame

theorem FetchStep.clock_le (hstep : FetchStep allowed s s') : s.clock ≤ s'.clock := by
  cases hstep with
  | tick clock later => exact later
  | _ => exact Nat.le_refl _

theorem FetchStep.table_before (hstep : FetchStep allowed s s') {key : κ} {l : Nat}
    (h : s'.table key = some l) :
    s.table key = some l ∨ s'.locks l = some ⟨key, false, none⟩ := by
  cases hstep <;> grind [Function.update_apply]

/-- A lock stays the lock of its key. -/
theorem FetchStep.exists_lock (hstep : FetchStep allowed s s') (hrefs : FetchRefs s) {l : Nat}
    {lock : FetchLock κ} (hl : s.locks l = some lock) :
    ∃ lock', s'.locks l = some lock' ∧ lock'.key = lock.key := by
  have hlt := hrefs.locksBelow l lock hl
  cases hstep <;> grind [Function.update_apply]

theorem FetchRefs.step (h : FetchRefs s) (hstep : FetchStep allowed s s') : FetchRefs s' := by
  have hkept : ∀ {key l}, (∃ lock, s.locks l = some lock ∧ lock.key = key) →
      ∃ lock, s'.locks l = some lock ∧ lock.key = key := by
    rintro key l ⟨lock, hl, hkey⟩
    obtain ⟨lock', hl', hkey'⟩ := hstep.exists_lock h hl
    exact ⟨lock', hl', hkey'.trans hkey⟩
  have hlisted : ∀ key l, s'.table key = some l →
      ∃ lock, s'.locks l = some lock ∧ lock.key = key := by
    intro key l htable
    rcases hstep.table_before htable with hbefore | hnew
    · exact hkept (h.listed key l hbefore)
    · exact ⟨_, hnew, rfl⟩
  have hcalls := h.callsBelow
  have hlocks := h.locksBelow
  refine ⟨?_, ?_, hlisted, ?_⟩
  · cases hstep <;> grind [Function.update_apply]
  · cases hstep <;> grind [Function.update_apply]
  · intro i c' l hc' href
    rcases hstep.call_before hc' with hc | ⟨-, key, rfl⟩ | ⟨c, hc, hmove⟩
    · exact hkept (h.referred i c' l hc href)
    · cases href
    · cases hmove with
      | finds phase found =>
        obtain rfl := Option.some.inj href
        exact hlisted _ _ found
      | _ => exact hkept (h.referred i c l hc href)

/-- A lock is held by the call that fetches with it. -/
structure FetchHolders (s : FetchSystem κ) : Prop where
  holds : ∀ i c, s.calls i = some c → c.phase = .fetching →
    ∃ l lock, c.lockRef = some l ∧ s.locks l = some lock ∧ lock.writer = some i ∧
      lock.fetched = true
  held : ∀ l lock i, s.locks l = some lock → lock.writer = some i →
    ∃ c, s.calls i = some c ∧ c.phase = .fetching ∧ c.lockRef = some l

theorem FetchHolders.step (h : FetchHolders s) (hrefs : FetchRefs s)
    (hstep : FetchStep allowed s s') : FetchHolders s' := by
  obtain ⟨hholds, hheld⟩ := h
  obtain ⟨hcalls, hlocks, -, -⟩ := hrefs
  constructor <;> cases hstep <;> grind [Function.update_apply]

/-- `c` before a step to `s'` and `c'` after it. -/
structure CallAfter (s' : FetchSystem κ) (c c' : FetchCall κ) : Prop where
  key : c'.key = c.key
  lockRef : c'.lockRef = c.lockRef ∨ c.phase = .called
  startedAt : c'.startedAt = c.startedAt ∨ c.phase = .waiting
  finishedAt : c'.finishedAt = c.finishedAt ∨ c.phase = .fetching
  evicting : ∀ wakeAt, c.phase = .evicting wakeAt →
    c'.phase = .evicting wakeAt ∨ s'.table c.key = none

theorem FetchStep.exists_call (hstep : FetchStep allowed s s') (hrefs : FetchRefs s) {j : Nat}
    {c : FetchCall κ} (hc : s.calls j = some c) : ∃ c', s'.calls j = some c' ∧ CallAfter s' c c' := by
  have hlt := hrefs.callsBelow j c hc
  have hsome : s'.calls j ≠ none := by cases hstep <;> grind [Function.update_apply]
  obtain ⟨c', hc'⟩ := Option.ne_none_iff_exists'.mp hsome
  refine ⟨c', hc', ?_⟩
  rcases hstep.call_before hc' with hsame | ⟨rfl, -⟩ | ⟨d, hd, hmove⟩
  · obtain rfl : c = c' := Option.some.inj (hc.symm.trans hsame)
    exact ⟨rfl, .inl rfl, .inl rfl, .inl rfl, fun _ h => .inl h⟩
  · exact absurd hlt (Nat.lt_irrefl _)
  · obtain rfl : c = d := Option.some.inj (hc.symm.trans hd)
    cases hmove with
    | returns phase unlisted => exact ⟨rfl, .inl rfl, .inl rfl, .inl rfl, fun _ _ => .inr unlisted⟩
    | skips phase =>
      refine ⟨rfl, .inl rfl, .inl rfl, .inl rfl, fun wakeAt h => ?_⟩
      rcases phase with phase | phase <;> simp [phase] at h
    | _ => constructor <;> simp_all

/-! ## No key is shut out -/

/-- A fetch with the lock has ended. -/
def FetchSystem.FetchedWith (s : FetchSystem κ) (l : Nat) : Prop :=
  ∃ j c, s.calls j = some c ∧ c.lockRef = some l ∧ c.startedAt ≠ none ∧ c.finishedAt ≠ none

/-- A task removes the entry of the key in the next 30 seconds. -/
def FetchSystem.Evicting (s : FetchSystem κ) (key : κ) : Prop :=
  ∃ j c wakeAt, s.calls j = some c ∧ c.key = key ∧ c.phase = .evicting wakeAt ∧
    wakeAt ≤ s.clock + evictionDelay

/-- When a call starts a fetch and when it ends it, by its phase. -/
structure FetchTimes (s : FetchSystem κ) : Prop where
  called : ∀ i c, s.calls i = some c → c.phase = .called →
    c.startedAt = none ∧ c.finishedAt = none ∧ c.lockRef = none
  waiting : ∀ i c, s.calls i = some c → c.phase = .reading ∨ c.phase = .waiting →
    c.startedAt = none ∧ c.finishedAt = none
  fetching : ∀ i c, s.calls i = some c → c.phase = .fetching →
    c.startedAt ≠ none ∧ c.finishedAt = none
  removing : ∀ i c, s.calls i = some c → c.phase = .removing → c.startedAt ≠ none
  evicting : ∀ i c wakeAt, s.calls i = some c → c.phase = .evicting wakeAt →
    c.startedAt ≠ none ∧ ∃ f, c.finishedAt = some f ∧ wakeAt = f + evictionDelay ∧ f ≤ s.clock
  startedRef : ∀ i c, s.calls i = some c → c.startedAt ≠ none → c.lockRef ≠ none

theorem FetchTimes.step (h : FetchTimes s) (hstep : FetchStep allowed s s') : FetchTimes s' := by
  constructor
  · intro i c' hc' hphase
    rcases hstep.call_before hc' with hc | ⟨-, key, rfl⟩ | ⟨c, hc, hmove⟩
    · exact h.called i c' hc hphase
    · exact ⟨rfl, rfl, rfl⟩
    · cases hmove <;> cases hphase
  · intro i c' hc' hphase
    rcases hstep.call_before hc' with hc | ⟨-, key, rfl⟩ | ⟨c, hc, hmove⟩
    · exact h.waiting i c' hc hphase
    · simp at hphase
    · cases hmove with
      | finds phase found => exact ⟨(h.called i c hc phase).1, (h.called i c hc phase).2.1⟩
      | waits phase => exact h.waiting i c hc (.inl phase)
      | _ => simp at hphase
  · intro i c' hc' hphase
    rcases hstep.call_before hc' with hc | ⟨-, key, rfl⟩ | ⟨c, hc, hmove⟩
    · exact h.fetching i c' hc hphase
    · cases hphase
    · cases hmove with
      | fetches phase ref hl unfetched => exact ⟨by simp, (h.waiting i c hc (.inr phase)).2⟩
      | _ => cases hphase
  · intro i c' hc' hphase
    rcases hstep.call_before hc' with hc | ⟨-, key, rfl⟩ | ⟨c, hc, hmove⟩
    · exact h.removing i c' hc hphase
    · cases hphase
    · cases hmove with
      | givesUp phase => exact (h.fetching i c hc phase).1
      | _ => cases hphase
  · intro i c' wakeAt hc' hphase
    rcases hstep.call_before hc' with hc | ⟨-, key, rfl⟩ | ⟨c, hc, hmove⟩
    · obtain ⟨hstarted, f, hf, hwake, hle⟩ := h.evicting i c' wakeAt hc hphase
      exact ⟨hstarted, f, hf, hwake, Nat.le_trans hle hstep.clock_le⟩
    · cases hphase
    · cases hmove with
      | completes phase =>
        cases hphase
        exact ⟨(h.fetching i c hc phase).1, s.clock, rfl, rfl, hstep.clock_le⟩
      | _ => cases hphase
  · intro i c' hc' hstarted
    rcases hstep.call_before hc' with hc | ⟨-, key, rfl⟩ | ⟨c, hc, hmove⟩
    · exact h.startedRef i c' hc hstarted
    · exact absurd rfl hstarted
    · cases hmove with
      | finds phase found => simp
      | fetches phase ref hl unfetched => simp [ref]
      | _ => exact h.startedRef i c hc hstarted

theorem FetchSystem.FetchedWith.step {l : Nat} (h : s.FetchedWith l) (hrefs : FetchRefs s)
    (htimes : FetchTimes s) (hstep : FetchStep allowed s s') : s'.FetchedWith l := by
  obtain ⟨j, c, hc, href, hstarted, hfinished⟩ := h
  obtain ⟨c', hc', hafter⟩ := hstep.exists_call hrefs hc
  have href' : c'.lockRef = some l := by
    rcases hafter.lockRef with heq | hcalled
    · rw [heq, href]
    · exact absurd (htimes.called j c hc hcalled).1 hstarted
  have hstarted' : c'.startedAt = c.startedAt := by
    rcases hafter.startedAt with heq | hwaiting
    · exact heq
    · exact absurd (htimes.waiting j c hc (.inr hwaiting)).1 hstarted
  have hfinished' : c'.finishedAt = c.finishedAt := by
    rcases hafter.finishedAt with heq | hfetching
    · exact heq
    · exact absurd (htimes.fetching j c hc hfetching).2 hfinished
  exact ⟨j, c', hc', href', hstarted' ▸ hstarted, hfinished' ▸ hfinished⟩

theorem FetchSystem.Evicting.step {key : κ} (h : s.Evicting key) (hrefs : FetchRefs s)
    (hstep : FetchStep allowed s s') : s'.Evicting key ∨ s'.table key = none := by
  obtain ⟨j, c, wakeAt, hc, hkey, hphase, hle⟩ := h
  obtain ⟨c', hc', hafter⟩ := hstep.exists_call hrefs hc
  rcases hafter.evicting wakeAt hphase with hsame | hnone
  · have hclock := hstep.clock_le
    exact .inl ⟨j, c', wakeAt, hc', hafter.key.trans hkey, hsame, by omega⟩
  · exact .inr (hkey ▸ hnone)

/-- What a lock that says "fetched" and is free stands for, and why a call
returned that did not fetch. -/
structure FetchOutcomes (s : FetchSystem κ) : Prop where
  notShutOut : ∀ key l lock, s.table key = some l → s.locks l = some lock →
    lock.fetched = true → lock.writer = none → s.Evicting key
  fetchedWith : ∀ l lock, s.locks l = some lock → lock.fetched = true → lock.writer = none →
    s.FetchedWith l
  returned : ∀ i c, s.calls i = some c → c.phase = .returned → c.startedAt = none →
    ∃ l, c.lockRef = some l ∧ s.FetchedWith l

/-- A lock that comes to say "fetched" and be free has just been released. -/
theorem FetchStep.lock_before (hstep : FetchStep allowed s s') {l : Nat} {lock : FetchLock κ}
    (hl : s'.locks l = some lock) (hfetched : lock.fetched = true) (hfree : lock.writer = none) :
    s.locks l = some lock ∨
      ∃ i c, s.calls i = some c ∧ c.phase = .fetching ∧ c.lockRef = some l ∧
        s'.calls i = some { c with
          phase := .evicting (s.clock + evictionDelay), finishedAt := some s.clock } ∧
        s'.clock = s.clock := by
  cases hstep with
  | @complete i m c before n hc phase ref hm ok something =>
    by_cases heq : l = m
    · subst heq
      obtain rfl : { before with writer := none } = lock := by simpa using hl
      exact .inr ⟨i, c, hc, phase, ref, by simp, rfl⟩
    · exact .inl (by simpa [heq] using hl)
  | _ => grind [Function.update_apply]

theorem FetchStep.returned_before (hstep : FetchStep allowed s s') (htimes : FetchTimes s)
    {i : Nat} {c' : FetchCall κ} (hc' : s'.calls i = some c') (hphase : c'.phase = .returned)
    (hstarted : c'.startedAt = none) :
    s.calls i = some c' ∨ ∃ l lock, c'.lockRef = some l ∧ s.locks l = some lock ∧
      lock.fetched = true ∧ lock.writer = none := by
  rcases hstep.call_before hc' with hc | ⟨-, key, rfl⟩ | ⟨c, hc, hmove⟩
  · exact .inl hc
  · cases hphase
  · cases hmove with
    | skips phase ref hl free fetched => exact .inr ⟨_, _, ref, hl, fetched, free⟩
    | returns phase unlisted =>
      rcases phase with phase | ⟨wakeAt, phase⟩
      · exact absurd hstarted (htimes.removing i c hc phase)
      · exact absurd hstarted (htimes.evicting i c wakeAt hc phase).1
    | _ => cases hphase

theorem FetchOutcomes.step (h : FetchOutcomes s) (hrefs : FetchRefs s) (htimes : FetchTimes s)
    (hstep : FetchStep allowed s s') : FetchOutcomes s' := by
  have hreleased : ∀ l lock, s'.locks l = some lock → lock.fetched = true → lock.writer = none →
      s'.FetchedWith l := by
    intro l lock hl hfetched hfree
    rcases hstep.lock_before hl hfetched hfree with hbefore | ⟨i, c, hc, hphase, href, hc', -⟩
    · exact (h.fetchedWith l lock hbefore hfetched hfree).step hrefs htimes hstep
    · exact ⟨i, _, hc', href, (htimes.fetching i c hc hphase).1, by simp⟩
  refine ⟨?_, hreleased, ?_⟩
  · intro key l lock hkey hl hfetched hfree
    rcases hstep.table_before hkey with hlisted | hnew
    · rcases hstep.lock_before hl hfetched hfree with
        hbefore | ⟨i, c, hc, hphase, href, hc', hclock⟩
      · rcases (h.notShutOut key l lock hlisted hbefore hfetched hfree).step hrefs hstep with
          hevicting | hnone
        · exact hevicting
        · rw [hnone] at hkey
          cases hkey
      · -- the lock has been released by a call of its own key
        obtain ⟨lock₁, hl₁, hkey₁⟩ := hrefs.listed key l hlisted
        obtain ⟨lock₂, hl₂, hkey₂⟩ := hrefs.referred i c l hc href
        obtain rfl : lock₁ = lock₂ := Option.some.inj (hl₁.symm.trans hl₂)
        exact ⟨i, _, _, hc', hkey₂.symm.trans hkey₁, rfl, Nat.le_of_eq (by rw [hclock])⟩
    · obtain rfl : (⟨key, false, none⟩ : FetchLock κ) = lock := Option.some.inj (hnew.symm.trans hl)
      cases hfetched
  · intro i c hc hphase hstarted
    rcases hstep.returned_before htimes hc hphase hstarted with
      hbefore | ⟨l, lock, href, hl, hfetched, hfree⟩
    · obtain ⟨l, href, hwith⟩ := h.returned i c hbefore hphase hstarted
      exact ⟨l, href, hwith.step hrefs htimes hstep⟩
    · exact ⟨l, href, (h.fetchedWith l lock hl hfetched hfree).step hrefs htimes hstep⟩

/-- What holds of every state that is reached. -/
structure FetchGood (s : FetchSystem κ) : Prop where
  refs : FetchRefs s
  holders : FetchHolders s
  times : FetchTimes s
  outcomes : FetchOutcomes s

omit [DecidableEq κ] in
theorem FetchGood.new : FetchGood (FetchSystem.new : FetchSystem κ) := by
  refine ⟨?_, ?_, ?_, ?_⟩ <;> constructor <;> simp [FetchSystem.new]

theorem FetchRun.good (hrun : FetchRun allowed .new s) : FetchGood s := by
  induction hrun with
  | refl => exact .new
  | tail _ hstep ih =>
    exact ⟨ih.refs.step hstep, ih.holders.step ih.refs hstep, ih.times.step hstep,
      ih.outcomes.step ih.refs ih.times hstep⟩

/-- Of two fetches of one key, the later starts 30 seconds or more after the
earlier has ended. -/
def FetchSystem.Spaced (s : FetchSystem κ) : Prop :=
  ∀ i j c d a b, s.calls i = some c → s.calls j = some d → i ≠ j → c.key = d.key →
    c.startedAt = some a → d.startedAt = some b →
    (∃ f, c.finishedAt = some f ∧ f + evictionDelay ≤ b) ∨
      ∃ f, d.finishedAt = some f ∧ f + evictionDelay ≤ a

/-- Where every fetch attempts a request, a lock is fetched with once, and
the table keeps it until 30 seconds after that. -/
structure FetchPaced (s : FetchSystem κ) : Prop where
  noRemoving : ∀ i c, s.calls i = some c → c.phase ≠ .removing
  fetchedBy : ∀ i c l lock, s.calls i = some c → c.lockRef = some l → c.startedAt ≠ none →
    s.locks l = some lock → lock.fetched = true
  once : ∀ i j c d, s.calls i = some c → s.calls j = some d → c.lockRef = d.lockRef →
    c.startedAt ≠ none → d.startedAt ≠ none → i = j
  evicting : ∀ i c wakeAt, s.calls i = some c → c.phase = .evicting wakeAt →
    ∃ l, c.lockRef = some l ∧ s.table c.key = some l
  fetching : ∀ i c, s.calls i = some c → c.phase = .fetching →
    ∃ l, c.lockRef = some l ∧ s.table c.key = some l
  unlisted : ∀ l lock, s.locks l = some lock → s.table lock.key ≠ some l → lock.fetched = true
  unlistedSince : ∀ i c l, s.calls i = some c → c.lockRef = some l → c.startedAt ≠ none →
    s.table c.key ≠ some l → ∃ f, c.finishedAt = some f ∧ f + evictionDelay ≤ s.clock

theorem FetchPaced.step_noRemoving (h : FetchPaced s) (hstep : FetchStep (0 < ·) s s') :
    ∀ i c, s'.calls i = some c → c.phase ≠ .removing := by
  have hno := h.noRemoving
  cases hstep <;> grind [Function.update_apply]

theorem FetchPaced.step_fetchedBy (h : FetchPaced s) (hrefs : FetchRefs s) (htimes : FetchTimes s)
    (hstep : FetchStep (0 < ·) s s') : ∀ i c l lock, s'.calls i = some c → c.lockRef = some l →
      c.startedAt ≠ none → s'.locks l = some lock → lock.fetched = true := by
  have hby := h.fetchedBy
  have hcalled := htimes.called
  have hbelow := hrefs.locksBelow
  have hreferred := hrefs.referred
  cases hstep <;> grind [Function.update_apply]

theorem FetchPaced.step_once (h : FetchPaced s) (htimes : FetchTimes s)
    (hstep : FetchStep (0 < ·) s s') : ∀ i j c d, s'.calls i = some c → s'.calls j = some d →
      c.lockRef = d.lockRef → c.startedAt ≠ none → d.startedAt ≠ none → i = j := by
  have hby := h.fetchedBy
  have honce := h.once
  have hcalled := htimes.called
  cases hstep <;> grind [Function.update_apply]

theorem FetchPaced.step_evicting (h : FetchPaced s) (htimes : FetchTimes s)
    (hstep : FetchStep (0 < ·) s s') : ∀ i c wakeAt, s'.calls i = some c →
      c.phase = .evicting wakeAt → ∃ l, c.lockRef = some l ∧ s'.table c.key = some l := by
  have honce := h.once
  have hevicting := h.evicting
  have hfetching := h.fetching
  have hno := h.noRemoving
  have hstarted := htimes.evicting
  cases hstep <;> grind [Function.update_apply]

theorem FetchPaced.step_fetching (h : FetchPaced s) (hrefs : FetchRefs s) (htimes : FetchTimes s)
    (hstep : FetchStep (0 < ·) s s') : ∀ i c, s'.calls i = some c →
      c.phase = .fetching → ∃ l, c.lockRef = some l ∧ s'.table c.key = some l := by
  have honce := h.once
  have hevicting := h.evicting
  have hfetching := h.fetching
  have hno := h.noRemoving
  have hunlisted := h.unlisted
  have hreferred := hrefs.referred
  have hstarted := htimes.evicting
  have hstarted' := htimes.fetching
  cases hstep <;> grind [Function.update_apply]

theorem FetchPaced.step_unlisted (h : FetchPaced s) (hrefs : FetchRefs s) (htimes : FetchTimes s)
    (hstep : FetchStep (0 < ·) s s') :
    ∀ l lock, s'.locks l = some lock → s'.table lock.key ≠ some l → lock.fetched = true := by
  have hby := h.fetchedBy
  have hevicting := h.evicting
  have hno := h.noRemoving
  have hunlisted := h.unlisted
  have hstarted := htimes.evicting
  have hbelow := hrefs.locksBelow
  cases hstep <;> grind [Function.update_apply]

theorem FetchPaced.step_unlistedSince (h : FetchPaced s) (hrefs : FetchRefs s)
    (htimes : FetchTimes s) (hstep : FetchStep (0 < ·) s s') :
    ∀ i c l, s'.calls i = some c → c.lockRef = some l → c.startedAt ≠ none →
      s'.table c.key ≠ some l → ∃ f, c.finishedAt = some f ∧ f + evictionDelay ≤ s'.clock := by
  have honce := h.once
  have hevicting := h.evicting
  have hfetching := h.fetching
  have hno := h.noRemoving
  have hunlisted := h.unlisted
  have hsince := h.unlistedSince
  have hreferred := hrefs.referred
  have hstarted := htimes.evicting
  have hcalled := htimes.called
  cases hstep <;> grind [Function.update_apply]

theorem FetchPaced.step (h : FetchPaced s) (hrefs : FetchRefs s) (htimes : FetchTimes s)
    (hstep : FetchStep (0 < ·) s s') : FetchPaced s' where
  noRemoving := h.step_noRemoving hstep
  fetchedBy := h.step_fetchedBy hrefs htimes hstep
  once := h.step_once htimes hstep
  evicting := h.step_evicting htimes hstep
  fetching := h.step_fetching hrefs htimes hstep
  unlisted := h.step_unlisted hrefs htimes hstep
  unlistedSince := h.step_unlistedSince hrefs htimes hstep

omit [DecidableEq κ] in
theorem FetchPaced.new : FetchPaced (FetchSystem.new : FetchSystem κ) := by
  constructor <;> simp [FetchSystem.new]

omit [DecidableEq κ] in
/-- A lock that does not say "fetched" is the one in the table, so the
fetches with other locks of the key are 30 seconds old. -/
theorem FetchPaced.others_since (h : FetchPaced s) (hrefs : FetchRefs s) {i j l : Nat}
    {c d : FetchCall κ} {lock : FetchLock κ} (hc : s.calls i = some c) (ref : c.lockRef = some l)
    (hl : s.locks l = some lock) (unfetched : lock.fetched = false) (hd : s.calls j = some d)
    (hkey : d.key = c.key) (hstarted : d.startedAt ≠ none) (hrefd : d.lockRef ≠ none) :
    ∃ f, d.finishedAt = some f ∧ f + evictionDelay ≤ s.clock := by
  obtain ⟨m, hm⟩ := Option.ne_none_iff_exists'.mp hrefd
  have hlisted : s.table c.key = some l := by
    obtain ⟨lock', hl', hkey'⟩ := hrefs.referred i c l hc ref
    obtain rfl : lock = lock' := Option.some.inj (hl.symm.trans hl')
    by_contra hnot
    rw [h.unlisted l lock hl (hkey' ▸ hnot)] at unfetched
    cases unfetched
  have hne : m ≠ l := by
    rintro rfl
    rw [h.fetchedBy j d m lock hd hm hstarted hl] at unfetched
    cases unfetched
  refine h.unlistedSince j d m hd hm hstarted ?_
  rw [hkey, hlisted]
  exact fun heq => hne (Option.some.inj heq).symm

/-- A call of `c` is about to start a fetch. -/
def FetchSystem.Starting (s s' : FetchSystem κ) (i : Nat) (c : FetchCall κ) : Prop :=
  c.startedAt = none ∧ s'.clock = s.clock ∧ (∀ j, j ≠ i → s'.calls j = s.calls j) ∧
    ∃ l lock, c.lockRef = some l ∧ s.locks l = some lock ∧ lock.fetched = false

theorem FetchStep.started_before (hstep : FetchStep allowed s s') (htimes : FetchTimes s) {i a : Nat}
    {c' : FetchCall κ} (hc' : s'.calls i = some c') (ha : c'.startedAt = some a) :
    ∃ c, s.calls i = some c ∧ c.key = c'.key ∧
      (c.startedAt = some a ∧ (∀ f, c.finishedAt = some f → c'.finishedAt = some f) ∨
        a = s.clock ∧ s.Starting s' i c) := by
  have hcalled := htimes.called
  have hfetching := htimes.fetching
  have hwaiting := htimes.waiting
  cases hstep with
  | @fetch j l c lock hc phase ref hl free unfetched =>
    by_cases hij : i = j
    · subst hij
      obtain rfl : { c with phase := .fetching, startedAt := some s.clock } = c' := by
        simpa using hc'
      have hothers : ∀ k, k ≠ i → (((s.setLock l { lock with
          fetched := true, writer := some i }).setCall i
          { c with phase := .fetching, startedAt := some s.clock }).calls k = s.calls k) :=
        fun k hk => Function.update_of_ne hk _ _
      exact ⟨c, hc, rfl, .inr ⟨(Option.some.inj ha).symm, (hwaiting i c hc (.inr phase)).1, rfl,
        hothers, l, lock, ref, hl, unfetched⟩⟩
    · exact ⟨c', by simpa [hij] using hc', rfl, .inl ⟨ha, fun f hf => hf⟩⟩
  | _ => grind [Function.update_apply]

theorem FetchSystem.Spaced.step (h : s.Spaced) (hpaced : FetchPaced s) (hrefs : FetchRefs s)
    (htimes : FetchTimes s) (hstep : FetchStep (0 < ·) s s') : s'.Spaced := by
  -- a call that starts now starts late enough after every call that has started
  have hnew : ∀ i j c d a, s.calls i = some c → s.Starting s' i c → s.calls j = some d →
      d.key = c.key → d.startedAt = some a →
      ∃ f, d.finishedAt = some f ∧ f + evictionDelay ≤ s.clock := by
    intro i j c d a hc hstarting hd hkey ha
    obtain ⟨-, -, -, l, lock, href, hl, hun⟩ := hstarting
    have hstarted : d.startedAt ≠ none := by simp [ha]
    exact hpaced.others_since hrefs hc href hl hun hd hkey hstarted
      (htimes.startedRef j d hd hstarted)
  intro i j c' d' a b hc' hd' hij hkey ha hb
  obtain ⟨c, hc, hck, hi⟩ := hstep.started_before htimes hc' ha
  obtain ⟨d, hd, hdk, hj⟩ := hstep.started_before htimes hd' hb
  have hcd : c.key = d.key := hck.trans (hkey.trans hdk.symm)
  rcases hi with ⟨hca, hcf⟩ | ⟨rfl, hci⟩ <;> rcases hj with ⟨hdb, hdf⟩ | ⟨rfl, hdj⟩
  · rcases h i j c d a b hc hd hij hcd hca hdb with ⟨f, hf, hle⟩ | ⟨f, hf, hle⟩
    · exact .inl ⟨f, hcf f hf, hle⟩
    · exact .inr ⟨f, hdf f hf, hle⟩
  · obtain ⟨f, hf, hle⟩ := hnew j i d c a hd hdj hc hcd hca
    exact .inl ⟨f, hcf f hf, hle⟩
  · obtain ⟨f, hf, hle⟩ := hnew i j c d b hc hci hd hcd.symm hdb
    exact .inr ⟨f, hdf f hf, hle⟩
  · -- a step starts one call
    have hsame : s.calls j = some d' := (hci.2.2.1 j hij.symm).symm.trans hd'
    obtain rfl : d = d' := Option.some.inj (hd.symm.trans hsame)
    rw [hdj.1] at hb
    cases hb

theorem FetchRun.spaced (hrun : FetchRun (0 < ·) .new s) : FetchPaced s ∧ s.Spaced := by
  induction hrun with
  | refl => exact ⟨.new, by simp [FetchSystem.Spaced, FetchSystem.new]⟩
  | tail hrun hstep ih =>
    have hgood := FetchRun.good hrun
    exact ⟨ih.1.step hgood.refs hgood.times hstep, ih.2.step ih.1 hgood.refs hgood.times hstep⟩

/-- Three calls of one key. The first attempts nothing. The second, which
waits for the same lock, completes a fetch before the first removes the
entry, so the third finds none and fetches at once. -/
theorem exists_unspaced : ∃ s : FetchSystem Unit, FetchRun (fun _ => True) .new s ∧ ¬ s.Spaced := by
  refine ⟨_, .head (.call ()) <| .head (.call ()) <| .head (.call ()) <|
    .head (.insert (i := 0) rfl rfl rfl) <| .head (.find (i := 1) rfl rfl rfl) <|
    .head (.read (i := 0) rfl rfl rfl rfl rfl) <| .head (.read (i := 1) rfl rfl rfl rfl rfl) <|
    .head (.fetch (i := 0) rfl rfl rfl rfl rfl rfl) <|
    .head (.giveUp (i := 0) 0 rfl rfl rfl rfl trivial rfl) <|
    .head (.fetch (i := 1) rfl rfl rfl rfl rfl rfl) <|
    .head (.complete (i := 1) 1 rfl rfl rfl rfl trivial (by decide)) <|
    .head (.remove (i := 0) rfl rfl) <| .head (.insert (i := 2) rfl rfl rfl) <|
    .head (.read (i := 2) rfl rfl rfl rfl rfl) <|
    .single (.fetch (i := 2) rfl rfl rfl rfl rfl rfl), ?_⟩
  intro hspaced
  have h := hspaced 1 2 _ _ 0 0 rfl rfl (by decide) rfl rfl rfl
  rcases h with ⟨f, hf, hle⟩ | ⟨f, hf, -⟩
  · simp [evictionDelay, fromSecs] at hle
  · cases hf

/-- In every run in which each fetch attempts a request, fetches of one key
are 30 seconds apart. Fetches that attempt none are no exception by
themselves, but the calls that make them remove entries of others. -/
theorem foreground_fetch_once_in_thirty_seconds :
    (∀ s : FetchSystem κ, FetchRun (0 < ·) .new s → s.Spaced) ∧
      ∃ s : FetchSystem Unit, FetchRun (fun _ => True) .new s ∧ ¬ s.Spaced :=
  ⟨fun _ hrun => (FetchRun.spaced hrun).2, exists_unspaced⟩

/-- The second call comes when the entry of the first is gone. -/
theorem foreground_fetch_after_thirty_seconds :
    ∃ s : FetchSystem Unit, FetchRun (0 < ·) .new s ∧ s.Spaced ∧
      (s.calls 0).bind (·.startedAt) = some 0 ∧
      (s.calls 1).bind (·.startedAt) = some evictionDelay := by
  have hrun : ∃ s : FetchSystem Unit, FetchRun (0 < ·) .new s ∧
      (s.calls 0).bind (·.startedAt) = some 0 ∧
      (s.calls 1).bind (·.startedAt) = some evictionDelay :=
    ⟨_, .head (.call ()) <| .head (.insert (i := 0) rfl rfl rfl) <|
      .head (.read (i := 0) rfl rfl rfl rfl rfl) <|
      .head (.fetch (i := 0) rfl rfl rfl rfl rfl rfl) <|
      .head (.complete (i := 0) 1 rfl rfl rfl rfl Nat.one_pos Nat.one_ne_zero) <|
      .head (.tick evictionDelay (Nat.zero_le _)) <|
      .head (.evict (i := 0) rfl rfl (Nat.le_of_eq (Nat.zero_add _))) <|
      .head (.call ()) <| .head (.insert (i := 1) rfl rfl rfl) <|
      .head (.read (i := 1) rfl rfl rfl rfl rfl) <|
      .single (.fetch (i := 1) rfl rfl rfl rfl rfl rfl), rfl, rfl⟩
  obtain ⟨s, hrun, hfirst, hsecond⟩ := hrun
  exact ⟨s, hrun, foreground_fetch_once_in_thirty_seconds.1 s hrun, hfirst, hsecond⟩

end ForwardProxy.Datastore
