/-
ForwardProxy.Datastore.RequestBackoffTheorems — the schedule of attempts.

A run is a list of calls with their times. `Traced` keeps beside the
controller how often each key has failed since its last success or pruning,
and when last, without a bound on the count. The invariant `Good` says that
the state of a key is determined by that.

The delay of the source is capped three times over: in the exponent, in the
product and in the result. None of the first two is ever seen, since five
minutes are less than any delay they could change
(`delayForFailure_eq`).
-/
import Mathlib.Data.List.Pairwise
import ForwardProxy.Datastore.RequestBackoff

namespace ForwardProxy.Datastore

open Time

/-! ## Delays -/

namespace RequestBackoffPolicy

variable (interval : UInt64)

theorem initialDelay_pos : fromSecs 1 ≤ (fromPollingInterval interval).initialDelay := by
  simp only [fromPollingInterval, fromSecs]
  omega

theorem maxDelay_le : (fromPollingInterval interval).maxDelay ≤ fromSecs 300 := by
  simp only [fromPollingInterval, fromSecs]
  omega

/-- A product that does not fit is above every limit that does. -/
theorem min_durationMul {d n limit : Nat} (h : limit < durationLimit) :
    min ((durationMul d n).getD limit) limit = min (d * n) limit := by
  by_cases hfits : d * n < durationLimit
  · rw [durationMul_of_lt hfits, Option.getD_some]
  · rw [durationMul_of_le (by omega), Option.getD_none]
    omega

/-- Cutting the exponent at 31 changes nothing below five minutes. -/
theorem min_pow_exponent (n : Nat) :
    min ((fromPollingInterval interval).initialDelay * 2 ^ min n 31)
        (fromPollingInterval interval).maxDelay =
      min ((fromPollingInterval interval).initialDelay * 2 ^ n)
        (fromPollingInterval interval).maxDelay := by
  by_cases hsmall : n ≤ 31
  · rw [Nat.min_eq_left hsmall]
  · have hmax := maxDelay_le interval
    have hlarge : ∀ m, 31 ≤ m → fromSecs 300 ≤ (fromPollingInterval interval).initialDelay * 2 ^ m := by
      intro m hm
      calc fromSecs 300 ≤ fromSecs 1 * 2 ^ 31 := by simp [fromSecs]
        _ ≤ (fromPollingInterval interval).initialDelay * 2 ^ m :=
          Nat.mul_le_mul (initialDelay_pos interval) (Nat.pow_le_pow_right (by omega) hm)
    have hleft := hlarge (min n 31) (by omega)
    have hright := hlarge n (by omega)
    rw [Nat.min_eq_right (by omega), Nat.min_eq_right (by omega)]

theorem delayForFailure_eq (k : Nat) :
    (fromPollingInterval interval).delayForFailure k =
      min ((fromPollingInterval interval).initialDelay * 2 ^ (k - 1))
        (fromPollingInterval interval).maxDelay := by
  have hpow : 2 ^ min (k - 1) 31 ≤ 2 ^ 31 := Nat.pow_le_pow_right (by omega) (by omega)
  have hfactor : min (2 ^ min (k - 1) 31) (2 ^ 32 - 1) = 2 ^ min (k - 1) 31 :=
    Nat.min_eq_left (by omega)
  have hlimit : (fromPollingInterval interval).maxDelay < durationLimit := by
    have hmax := maxDelay_le interval
    simp only [durationLimit, fromSecs] at *
    omega
  simp only [delayForFailure, hfactor]
  rw [min_durationMul hlimit, min_pow_exponent]

theorem delayForFailure_mono (k : Nat) :
    (fromPollingInterval interval).delayForFailure k ≤
      (fromPollingInterval interval).delayForFailure (k + 1) := by
  rw [delayForFailure_eq, delayForFailure_eq]
  have hpow : 2 ^ (k - 1) ≤ 2 ^ (k + 1 - 1) := Nat.pow_le_pow_right (by omega) (by omega)
  have hmul := Nat.mul_le_mul_left (fromPollingInterval interval).initialDelay hpow
  omega

theorem delayForFailure_le (policy : RequestBackoffPolicy) (k : Nat) :
    policy.delayForFailure k ≤ policy.maxDelay :=
  Nat.min_le_right _ _

/-- A count that has reached its 32 bits has reached the limit. -/
theorem delayForFailure_saturated (k : Nat) :
    (fromPollingInterval interval).delayForFailure (min k (2 ^ 32 - 1)) =
      (fromPollingInterval interval).delayForFailure k := by
  by_cases hsmall : k ≤ 2 ^ 32 - 1
  · rw [Nat.min_eq_left hsmall]
  · have hexponent : min (min k (2 ^ 32 - 1) - 1) 31 = min (k - 1) 31 := by omega
    simp only [delayForFailure, hexponent]

theorem staleAfter_eq :
    RequestBackoffController.staleAfter (fromPollingInterval interval) =
      (fromPollingInterval interval).maxDelay * 2 := by
  have hmax := maxDelay_le interval
  rw [RequestBackoffController.staleAfter, durationMul_of_lt, Option.getD_some]
  simp only [durationLimit, fromSecs] at *
  omega

end RequestBackoffPolicy

/-! ## Runs -/

/-- The failures of a key since its last success or pruning. -/
structure Streak where
  failures : Nat
  last : Nat
  deriving DecidableEq, Repr

structure Traced (κ : Type) where
  controller : RequestBackoffController κ
  streaks : κ → Option Streak
  /-- The time of the last call. -/
  now : Nat

section

variable {κ : Type} [DecidableEq κ]

namespace Traced

def new : Traced κ := ⟨.new, fun _ => none, 0⟩

/-- One failure more, at `now`. -/
def failed (now : Nat) : Option Streak → Streak
  | some streak => ⟨streak.failures + 1, now⟩
  | none => ⟨1, now⟩

/-- A pruned key is one that has no state any more. -/
def streaksAfter (s : Traced κ) (after : RequestBackoffController κ) (now : Nat) :
    BackoffCall κ → κ → Option Streak
  | .canAttempt _ => s.streaks
  | .recordResult key .error => Function.update s.streaks key (failed now (s.streaks key))
  | .recordResult key _ => Function.update s.streaks key none
  | .recordFailure key => Function.update s.streaks key (failed now (s.streaks key))
  | .pruneStale => fun key => if (after key).isSome then s.streaks key else none

def call (policy : RequestBackoffPolicy) (s : Traced κ) (now : Nat) (c : BackoffCall κ) :
    Traced κ where
  controller := s.controller.call policy now c
  streaks := s.streaksAfter (s.controller.call policy now c) now c
  now := now

def run (policy : RequestBackoffPolicy) (calls : List (Nat × BackoffCall κ)) : Traced κ :=
  calls.foldl (fun s (now, c) => s.call policy now c) new

end Traced

/-- The state of a key is that of its streak. -/
inductive KeyGood (policy : RequestBackoffPolicy) (now : Nat) :
    Option RequestBackoffState → Option Streak → Prop where
  | none : KeyGood policy now none none
  | some {failures last lastSeen : Nat} (pos : 0 < failures) (seen : last ≤ lastSeen)
    (past : lastSeen ≤ now) :
    KeyGood policy now
      (some ⟨min failures (2 ^ 32 - 1), last + policy.delayForFailure failures, lastSeen⟩)
      (some ⟨failures, last⟩)

def Good (policy : RequestBackoffPolicy) (s : Traced κ) : Prop :=
  ∀ key, KeyGood policy s.now (s.controller key) (s.streaks key)

variable {policy : RequestBackoffPolicy} {s : Traced κ} {now : Nat}

theorem KeyGood.later {state : Option RequestBackoffState} {streak : Option Streak} {t : Nat}
    (h : KeyGood policy now state streak) (hle : now ≤ t) : KeyGood policy t state streak := by
  cases h with
  | none => exact .none
  | some pos seen past => exact .some pos seen (Nat.le_trans past hle)

omit [DecidableEq κ] in
/-- A key has neither a state nor a streak, or both. -/
theorem Good.key_cases (h : Good policy s) (key : κ) :
    (s.controller key = none ∧ s.streaks key = none) ∨
      ∃ failures last lastSeen, 0 < failures ∧ last ≤ lastSeen ∧ lastSeen ≤ s.now ∧
        s.controller key = some
          ⟨min failures (2 ^ 32 - 1), last + policy.delayForFailure failures, lastSeen⟩ ∧
        s.streaks key = some ⟨failures, last⟩ := by
  have hkey := h key
  generalize s.controller key = state at hkey
  generalize s.streaks key = streak at hkey
  cases hkey with
  | none => exact .inl ⟨rfl, rfl⟩
  | @some failures last lastSeen pos seen past =>
    exact .inr ⟨failures, last, lastSeen, pos, seen, past, rfl, rfl⟩

/-- A call about one key. -/
theorem Good.update (h : Good policy s) (hle : s.now ≤ now) (key : κ)
    {state : Option RequestBackoffState} {streak : Option Streak}
    (hkey : KeyGood policy now state streak) :
    Good policy ⟨s.controller.set key state, Function.update s.streaks key streak, now⟩ := by
  intro other
  by_cases hother : other = key
  · subst hother
    simpa [RequestBackoffController.set] using hkey
  · simpa [RequestBackoffController.set, hother] using (h other).later hle

theorem Good.canAttempt (h : Good policy s) (hle : s.now ≤ now) (key : κ) :
    Good policy ⟨(s.controller.canAttempt key now).2, s.streaks, now⟩ := by
  unfold RequestBackoffController.canAttempt
  rcases h.key_cases key with
    ⟨hstate, _⟩ | ⟨failures, last, lastSeen, pos, seen, past, hstate, hstreak⟩
  · rw [hstate]
    intro other
    exact (h other).later hle
  · rw [hstate]
    have hseen := h.update hle key (.some pos (Nat.le_trans seen (Nat.le_trans past hle))
      (Nat.le_refl now))
    rw [← hstreak, Function.update_eq_self] at hseen
    exact hseen

theorem Good.recordFailure (interval : UInt64)
    (h : Good (.fromPollingInterval interval) s) (hle : s.now ≤ now) (key : κ) :
    Good (.fromPollingInterval interval)
      ⟨s.controller.recordFailure (.fromPollingInterval interval) key now,
        Function.update s.streaks key (some (Traced.failed now (s.streaks key))), now⟩ := by
  unfold RequestBackoffController.recordFailure
  rcases h.key_cases key with
    ⟨hstate, hstreak⟩ | ⟨failures, last, lastSeen, pos, seen, past, hstate, hstreak⟩
  · rw [hstate, hstreak]
    exact h.update hle key (@KeyGood.some _ now 1 now now (by omega) (by omega) (by omega))
  · rw [hstate, hstreak]
    have hcount : min (min failures (2 ^ 32 - 1) + 1) (2 ^ 32 - 1) =
        min (failures + 1) (2 ^ 32 - 1) := by omega
    simp only [hcount, RequestBackoffPolicy.delayForFailure_saturated]
    exact h.update hle key (.some (by omega) (Nat.le_refl _) (Nat.le_refl _))

theorem Good.recordSuccess (h : Good policy s) (hle : s.now ≤ now) (key : κ) :
    Good policy ⟨s.controller.recordSuccess key, Function.update s.streaks key none, now⟩ :=
  h.update hle key .none

theorem Good.pruneStale (h : Good policy s) (hle : s.now ≤ now) :
    Good policy (s.call policy now .pruneStale) := by
  intro key
  have hkey := (h key).later hle
  change KeyGood policy now (s.controller.pruneStale policy now key)
    (if (s.controller.pruneStale policy now key).isSome then s.streaks key else none)
  by_cases hkept : (s.controller.pruneStale policy now key).isSome
  · obtain ⟨state, hstate⟩ := Option.isSome_iff_exists.mp hkept
    have hsame : s.controller key = some state := (Option.filter_eq_some_iff.mp hstate).1
    rw [if_pos hkept, hstate, ← hsame]
    exact hkey
  · rw [if_neg hkept, Option.not_isSome_iff_eq_none.mp hkept]
    exact .none

theorem Good.call (interval : UInt64) (h : Good (.fromPollingInterval interval) s)
    (hle : s.now ≤ now) (c : BackoffCall κ) :
    Good (.fromPollingInterval interval) (s.call (.fromPollingInterval interval) now c) := by
  cases c with
  | canAttempt key => exact h.canAttempt hle key
  | recordFailure key => exact h.recordFailure interval hle key
  | pruneStale => exact h.pruneStale hle
  | recordResult key result =>
    cases result with
    | error => exact h.recordFailure interval hle key
    | dataAvailable => exact h.recordSuccess hle key
    | noDataAvailable => exact h.recordSuccess hle key
    | unauthorized => exact h.recordSuccess hle key
    | clientError => exact h.recordSuccess hle key

theorem Good.foldl (interval : UInt64) {calls : List (Nat × BackoffCall κ)}
    (h : Good (.fromPollingInterval interval) s) (hsorted : (calls.map Prod.fst).Pairwise (· ≤ ·))
    (hlater : ∀ c ∈ calls, s.now ≤ c.1) :
    Good (.fromPollingInterval interval)
      (calls.foldl (fun s (now, c) => s.call (.fromPollingInterval interval) now c) s) := by
  induction calls generalizing s with
  | nil => exact h
  | cons c calls ih =>
    rw [List.map_cons, List.pairwise_cons] at hsorted
    apply ih (h.call interval (hlater c (by simp)) c.2) hsorted.2
    intro c' hc'
    exact hsorted.1 c'.1 (List.mem_map_of_mem hc')

theorem good_run (interval : UInt64) {calls : List (Nat × BackoffCall κ)}
    (hsorted : (calls.map Prod.fst).Pairwise (· ≤ ·)) :
    Good (.fromPollingInterval interval) (Traced.run (.fromPollingInterval interval) calls) :=
  Good.foldl interval (fun _ => .none) hsorted fun _ _ => Nat.zero_le _

/-! ## The schedule -/

/-- Whether an attempt is admitted, by the streak of its key. -/
def admitted (policy : RequestBackoffPolicy) (t : Nat) : Option Streak → Prop
  | none => True
  | some streak =>
    streak.last + min (policy.initialDelay * 2 ^ (streak.failures - 1)) policy.maxDelay ≤ t

theorem Good.canAttempt_iff (interval : UInt64) (h : Good (.fromPollingInterval interval) s)
    (key : κ) (t : Nat) :
    (s.controller.canAttempt key t).1 = true ↔
      admitted (.fromPollingInterval interval) t (s.streaks key) := by
  unfold RequestBackoffController.canAttempt
  rcases h.key_cases key with
    ⟨hstate, hstreak⟩ | ⟨failures, last, lastSeen, _, _, _, hstate, hstreak⟩
  · simp [hstate, hstreak, admitted]
  · rw [hstate, hstreak]
    simp only [decide_eq_true_eq, admitted, RequestBackoffPolicy.delayForFailure_eq]

/-- What pruning removes has waited for longer than any delay. -/
theorem Good.admitted_of_pruned (interval : UInt64) (h : Good (.fromPollingInterval interval) s)
    {key : κ} {t : Nat} (hpruned : s.controller.pruneStale (.fromPollingInterval interval) t key = none)
    {t' : Nat} (hlater : t ≤ t') : (s.controller.canAttempt key t').1 = true := by
  unfold RequestBackoffController.canAttempt
  rcases h.key_cases key with
    ⟨hstate, _⟩ | ⟨failures, last, lastSeen, _, seen, _, hstate, _⟩
  · rw [hstate]
  · have hdelay := RequestBackoffPolicy.delayForFailure_le
      (.fromPollingInterval interval) failures
    simp only [RequestBackoffController.pruneStale, hstate, Option.filter_some,
      RequestBackoffPolicy.staleAfter_eq, ite_eq_right_iff, reduceCtorEq, imp_false,
      decide_eq_true_eq, not_not] at hpruned
    simp only [hstate, decide_eq_true_eq]
    omega

/-- A call about one key leaves the others alone. -/
theorem call_other (c : RequestBackoffController κ) (now : Nat) {call : BackoffCall κ}
    {key other : κ} (hcall : call.key = some key) (hother : other ≠ key) :
    c.call policy now call other = c other := by
  have hset : ∀ state, c.set key state other = c other := by
    intro state
    simp [RequestBackoffController.set, hother]
  have hfailure : c.recordFailure policy key now other = c other := by
    unfold RequestBackoffController.recordFailure
    exact hset _
  cases call with
  | canAttempt key' =>
    cases hcall
    simp only [RequestBackoffController.call, RequestBackoffController.canAttempt]
    split
    · rfl
    · exact hset _
  | recordFailure key' =>
    cases hcall
    exact hfailure
  | recordResult key' result =>
    cases hcall
    cases result with
    | error => exact hfailure
    | dataAvailable => exact hset _
    | noDataAvailable => exact hset _
    | unauthorized => exact hset _
    | clientError => exact hset _
  | pruneStale => cases hcall

/-- The delays of the policy: doubled with each failure up to the limit. -/
structure Delays (policy : RequestBackoffPolicy) : Prop where
  exact : ∀ k, policy.delayForFailure k = min (policy.initialDelay * 2 ^ (k - 1)) policy.maxDelay
  mono : ∀ k, policy.delayForFailure k ≤ policy.delayForFailure (k + 1)
  bounded : ∀ k, policy.delayForFailure k ≤ policy.maxDelay

/-- After every run of calls, in the order of their times, a key is
admitted by its streak, other keys do not matter to it, and pruning takes
away only states that do not matter any more. -/
theorem backoff_schedule (interval : UInt64) :
    Delays (.fromPollingInterval interval) ∧
    ∀ calls : List (Nat × BackoffCall κ), (calls.map Prod.fst).Pairwise (· ≤ ·) →
      ∀ s, s = Traced.run (.fromPollingInterval interval) calls →
      (∀ key t, (s.controller.canAttempt key t).1 = true ↔
        admitted (.fromPollingInterval interval) t (s.streaks key)) ∧
      (∀ t call key other, call.key = some key → other ≠ key →
        s.controller.call (.fromPollingInterval interval) t call other = s.controller other) ∧
      ∀ t key, s.controller.pruneStale (.fromPollingInterval interval) t key = none →
        ∀ t', t ≤ t' → (s.controller.canAttempt key t').1 = true := by
  refine ⟨⟨RequestBackoffPolicy.delayForFailure_eq interval,
    RequestBackoffPolicy.delayForFailure_mono interval,
    RequestBackoffPolicy.delayForFailure_le _⟩, ?_⟩
  intro calls hsorted s hs
  have hgood : Good (.fromPollingInterval interval) s := by
    rw [hs]
    exact good_run interval hsorted
  exact ⟨hgood.canAttempt_iff interval, fun t _ _ _ hcall hother => call_other _ t hcall hother,
    fun t _ hpruned _ hlater => hgood.admitted_of_pruned interval hpruned hlater⟩

end

/-- Two failures of one key, a second apart, and one of another. -/
def twoFailures : List (Nat × BackoffCall Nat) :=
  [(0, .recordFailure 7), (fromSecs 1, .canAttempt 7), (fromSecs 1, .recordFailure 7),
    (fromSecs 2, .recordResult 8 .error)]

theorem backoff_schedule_two_failures :
    Delays (.fromPollingInterval 1) ∧
    ∀ t, ((Traced.run (.fromPollingInterval 1) twoFailures).controller.canAttempt 7 t).1 = true ↔
      fromSecs 3 ≤ t := by
  have hschedule := backoff_schedule (κ := Nat) 1
  have hsorted : (twoFailures.map Prod.fst).Pairwise (· ≤ ·) := by
    simp [twoFailures, fromSecs]
  have hstreak : (Traced.run (.fromPollingInterval 1) twoFailures).streaks 7 =
      some ⟨2, fromSecs 1⟩ := rfl
  refine ⟨hschedule.1, ?_⟩
  intro t
  rw [(hschedule.2 twoFailures hsorted _ rfl).1 7 t, hstreak]
  simp [admitted, RequestBackoffPolicy.fromPollingInterval, fromSecs]

end ForwardProxy.Datastore
