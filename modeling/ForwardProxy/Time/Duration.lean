/-
ForwardProxy.Time.Duration — durations and instants of a machine.

Both are numbers of nanoseconds, instants counted from an instant before
all others. The operations are those that fail when a number of seconds no
longer fits its 64 bits.
-/
import Mathlib.Algebra.Group.Nat.Defs
import Mathlib.Tactic.Common

namespace ForwardProxy.Time

def fromSecs (secs : Nat) : Nat := secs * 1000000000

/-- Seconds are kept in 64 bits. -/
def durationLimit : Nat := fromSecs (2 ^ 64)

/-- The seconds of an instant are signed. -/
def instantLimit : Nat := fromSecs (2 ^ 63)

/-- A duration, `n` times. -/
def durationMul (d n : Nat) : Option Nat := if d * n < durationLimit then some (d * n) else none

/-- The instant that is `d` after `t`. -/
def instantAdd (t d : Nat) : Option Nat := if t + d < instantLimit then some (t + d) else none

theorem durationMul_of_lt {d n : Nat} (h : d * n < durationLimit) :
    durationMul d n = some (d * n) :=
  if_pos h

theorem durationMul_of_le {d n : Nat} (h : durationLimit ≤ d * n) : durationMul d n = none :=
  if_neg (Nat.not_lt.mpr h)

theorem instantAdd_of_lt {t d : Nat} (h : t + d < instantLimit) : instantAdd t d = some (t + d) :=
  if_pos h

theorem eq_of_instantAdd {t d r : Nat} (h : instantAdd t d = some r) : r = t + d := by
  simp only [instantAdd, Option.ite_none_right_eq_some, Option.some.injEq] at h
  exact h.2.symm

end ForwardProxy.Time
