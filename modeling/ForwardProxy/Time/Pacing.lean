/-
ForwardProxy.Time.Pacing — launches that wait for the one before, and for
one of those `limit` places before.

Launch `i` comes at most `spacing` after launch `i - 1`, or `timeout` after
launch `i - limit`, whichever is later. Then it comes no later than
`launchBound i`, since both waits keep the bound
(`launchBound_add_spacing`, `launchBound_add_timeout`).
-/
import Mathlib.Algebra.Group.Nat.Defs
import Mathlib.Tactic.Common
import Mathlib.Tactic.Ring

namespace ForwardProxy.Time

def launchBound (start spacing limit timeout i : Nat) : Nat :=
  start + i * spacing + i / limit * timeout

variable {start spacing limit timeout i j : Nat}

theorem launchBound_zero : launchBound start spacing limit timeout 0 = start := by
  simp [launchBound]

theorem launchBound_mono (h : i ≤ j) :
    launchBound start spacing limit timeout i ≤ launchBound start spacing limit timeout j := by
  unfold launchBound
  have hspacing : i * spacing ≤ j * spacing := Nat.mul_le_mul_right _ h
  have htimeout : i / limit * timeout ≤ j / limit * timeout :=
    Nat.mul_le_mul_right _ (Nat.div_le_div_right h)
  omega

theorem launchBound_add_spacing :
    launchBound start spacing limit timeout i + spacing ≤
      launchBound start spacing limit timeout (i + 1) := by
  unfold launchBound
  have htimeout : i / limit * timeout ≤ (i + 1) / limit * timeout :=
    Nat.mul_le_mul_right _ (Nat.div_le_div_right (Nat.le_succ i))
  have hspacing : (i + 1) * spacing = i * spacing + spacing := Nat.succ_mul i spacing
  omega

theorem launchBound_add_timeout (hlimit : 1 ≤ limit) :
    launchBound start spacing limit timeout i + timeout ≤
      launchBound start spacing limit timeout (i + limit) := by
  unfold launchBound
  have hdiv : (i + limit) / limit = i / limit + 1 := Nat.add_div_right i hlimit
  have hspacing : i * spacing ≤ (i + limit) * spacing :=
    Nat.mul_le_mul_right _ (Nat.le_add_right _ _)
  have htimeout : (i / limit + 1) * timeout = i / limit * timeout + timeout := Nat.succ_mul _ _
  rw [hdiv]
  omega

end ForwardProxy.Time
