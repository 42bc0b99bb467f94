/-
ForwardProxy.Effect.Broadcast — a bounded channel in which every receiver
sees every value.

The channel keeps the last `capacity` values. A receiver is a position: it
starts at the end, so that it sees later values only, and goes on by one
with each value. If the value at its position is gone, it is told so
(`lagged`) and would continue with the oldest one kept.

`outcome` is what a receiver that folds the values has in the end, if it
reads everything that is there for it.
-/
import Mathlib.Tactic.Common

namespace ForwardProxy.Effect

structure Broadcast (α : Type) where
  capacity : Nat
  sent : List α
  deriving DecidableEq, Repr

inductive Received (α : Type) where
  | pending
  | lagged
  | value (a : α)
  deriving DecidableEq, Repr

namespace Broadcast

variable {α β : Type} (ch : Broadcast α)

def send (a : α) : Broadcast α := { ch with sent := ch.sent ++ [a] }

/-- The position of a new receiver. -/
def subscribe : Nat := ch.sent.length

def unread (next : Nat) : List α := ch.sent.drop next

def recv (next : Nat) : Received α :=
  if ch.capacity < (ch.unread next).length then .lagged
  else match ch.unread next with
    | [] => .pending
    | a :: _ => .value a

def outcome (f : β → α → β) (next : Nat) (b : β) : β := (ch.unread next).foldl f b

variable {ch} {f : β → α → β} {next : Nat} {a : α} {b : β}

theorem unread_subscribe : ch.unread ch.subscribe = [] := by
  simp [unread, subscribe]

theorem unread_send (h : next ≤ ch.sent.length) :
    (ch.send a).unread next = ch.unread next ++ [a] := by
  simp [unread, send, List.drop_append_of_le_length h]

theorem unread_of_recv (h : ch.recv next = .value a) :
    ch.unread next = a :: ch.unread (next + 1) := by
  have hcons : ∃ rest, ch.unread next = a :: rest := by
    unfold recv at h
    split at h
    · simp at h
    · split at h
      · simp at h
      · rename_i a' rest hunread
        exact ⟨rest, by rw [hunread, Received.value.inj h]⟩
  obtain ⟨rest, hrest⟩ := hcons
  have hnext : ch.unread (next + 1) = rest := by
    rw [unread, ← List.drop_drop, show ch.sent.drop next = a :: rest from hrest]
    rfl
  rw [hnext, hrest]

theorem lt_of_recv (h : ch.recv next = .value a) : next < ch.sent.length := by
  have hunread := congrArg List.length (unread_of_recv h)
  simp only [unread, List.length_drop, List.length_cons] at hunread
  omega

/-! ## The outcome -/

theorem outcome_subscribe : ch.outcome f ch.subscribe b = b := by
  rw [outcome, unread_subscribe]
  rfl

theorem outcome_of_unread (h : ch.unread next = []) : ch.outcome f next b = b := by
  rw [outcome, h]
  rfl

theorem outcome_send (h : next ≤ ch.sent.length) :
    (ch.send a).outcome f next b = f (ch.outcome f next b) a := by
  simp [outcome, unread_send h]

theorem outcome_recv (h : ch.recv next = .value a) :
    ch.outcome f (next + 1) (f b a) = ch.outcome f next b := by
  rw [outcome, outcome, unread_of_recv h, List.foldl_cons]

end Broadcast

end ForwardProxy.Effect
