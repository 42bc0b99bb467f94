/-
ForwardProxy.Effect.Prog — programs that talk to a store one command at a
time, and what it means to stop one in the middle.

A `Prog` is a tree of commands: it returns, it fails, or it issues one
command and goes on with the reply. Nothing here says what a command
does. A `Handler` says that, as a RELATION between the state before, the
reply and the state after, because a store may answer in more than one
way (the paging of a scan, the chunking of a download).

`Exec` is the run relation. Its `stop` constructor applies to every
program in every state, so a run may end after any prefix of its
commands: this is the crash model every resume argument in this
development is about. A run that ends with `Outcome.ok` executed all of
its commands.

A `Runner` resolves the handler's choices from a script, so that a run on
a concrete input can be computed (`Runner.run`) and the relation read
off the result (`Runner.run_sound`).
-/
import Mathlib.Tactic.Common

namespace ForwardProxy.Effect

/-- A program over the commands `C` with replies `R`, errors `ε` and
result `α`. -/
inductive Prog (C : Type) (R : C → Type) (ε α : Type) where
  | pure (a : α)
  | throw (e : ε)
  | call (c : C) (k : R c → Prog C R ε α)

/-- How a run ended: with a result, with an error of the program's own, or
cut off between two commands. -/
inductive Outcome (ε α : Type) where
  | ok (a : α)
  | err (e : ε)
  | stopped
  deriving DecidableEq, Repr

variable {C : Type} {R : C → Type} {ε α β σ S : Type}

namespace Prog

def bind : Prog C R ε α → (α → Prog C R ε β) → Prog C R ε β
  | .pure a, f => f a
  | .throw e, _ => .throw e
  | .call c k, f => .call c fun r => (k r).bind f

instance : Monad (Prog C R ε) where
  pure := .pure
  bind := .bind

/-- Issue one command and return its reply. -/
def cmd (c : C) : Prog C R ε (R c) := .call c .pure

/-- Run `p` if `b`, else do nothing. -/
def when (b : Bool) (p : Prog C R ε Unit) : Prog C R ε Unit := if b then p else .pure ()

/-- Run `f` on every element in order. -/
def forEach (f : β → Prog C R ε Unit) : List β → Prog C R ε Unit
  | [] => .pure ()
  | b :: bs => (f b).bind fun _ => forEach f bs

/-- Run `f` on every element in order, threading an accumulator. -/
def fold (f : σ → β → Prog C R ε σ) : σ → List β → Prog C R ε σ
  | acc, [] => .pure acc
  | acc, b :: bs => (f acc b).bind fun acc' => fold f acc' bs

theorem bind_assoc {γ : Type} :
    ∀ (p : Prog C R ε α) (f : α → Prog C R ε β) (g : β → Prog C R ε γ),
      (p.bind f).bind g = p.bind fun a => (f a).bind g
  | .pure _, _, _ => rfl
  | .throw _, _, _ => rfl
  | .call _ k, f, g => congrArg (Prog.call _) (funext fun r => bind_assoc (k r) f g)

theorem forEach_append (f : β → Prog C R ε Unit) :
    ∀ xs ys : List β, forEach f (xs ++ ys) = (forEach f xs).bind fun _ => forEach f ys
  | [], _ => rfl
  | x :: xs, ys => by
      simp only [List.cons_append, forEach, bind_assoc]
      congr 1
      funext _
      exact forEach_append f xs ys

/-- A loop over pieces is one loop over their elements. -/
theorem forEach_flatten (f : β → Prog C R ε Unit) :
    ∀ xss : List (List β), forEach (forEach f) xss = forEach f xss.flatten
  | [] => rfl
  | xs :: xss => by
      rw [List.flatten_cons, forEach_append, ← forEach_flatten f xss]
      rfl

theorem fold_append (f : σ → β → Prog C R ε σ) :
    ∀ (xs ys : List β) (acc : σ),
      fold f acc (xs ++ ys) = (fold f acc xs).bind fun acc' => fold f acc' ys
  | [], _, _ => rfl
  | x :: xs, ys, acc => by
      simp only [List.cons_append, fold, bind_assoc]
      congr 1
      funext acc'
      exact fold_append f xs ys acc'

theorem fold_flatten (f : σ → β → Prog C R ε σ) :
    ∀ (xss : List (List β)) (acc : σ), fold (fold f) acc xss = fold f acc xss.flatten
  | [], _ => rfl
  | xs :: xss, acc => by
      rw [List.flatten_cons, fold_append, fold]
      congr 1
      funext acc'
      exact fold_flatten f xss acc'

end Prog

/-- What a command may do: the state before, the reply, the state after. -/
structure Handler (C : Type) (R : C → Type) (S : Type) where
  step : S → (c : C) → R c → S → Prop

/-- `Exec H p s s' o`: some run of `p` from `s` ends in `s'` with outcome
`o`. -/
inductive Exec (H : Handler C R S) : Prog C R ε α → S → S → Outcome ε α → Prop where
  | stop (p : Prog C R ε α) (s : S) : Exec H p s s .stopped
  | pure (a : α) (s : S) : Exec H (.pure a) s s (.ok a)
  | throw (e : ε) (s : S) : Exec H (.throw e) s s (.err e)
  | call {c : C} {k : R c → Prog C R ε α} {s s₁ s₂ : S} {r : R c} {o : Outcome ε α}
      (hstep : H.step s c r s₁) (hrest : Exec H (k r) s₁ s₂ o) :
      Exec H (.call c k) s s₂ o

/-! ## Inversion of runs -/

section

variable {H : Handler C R S} {s s' : S} {o : Outcome ε α}

theorem exec_pure_cases {a : α} (h : Exec H (.pure a) s s' o) :
    s' = s ∧ (o = .stopped ∨ o = .ok a) := by
  cases h with
  | stop => exact ⟨rfl, .inl rfl⟩
  | pure => exact ⟨rfl, .inr rfl⟩

theorem exec_throw_cases {e : ε} (h : Exec H (.throw e : Prog C R ε α) s s' o) :
    s' = s ∧ (o = .stopped ∨ o = .err e) := by
  cases h with
  | stop => exact ⟨rfl, .inl rfl⟩
  | throw => exact ⟨rfl, .inr rfl⟩

theorem exec_call_cases {c : C} {k : R c → Prog C R ε α}
    (h : Exec H (.call c k) s s' o) :
    (s' = s ∧ o = .stopped) ∨ ∃ r s₁, H.step s c r s₁ ∧ Exec H (k r) s₁ s' o := by
  cases h with
  | stop => exact .inl ⟨rfl, rfl⟩
  | call hstep hrest => exact .inr ⟨_, _, hstep, hrest⟩

/-- A run of a sequence either ends inside its first part, without a
result, or is a completed run of the first part followed by a run of the
second. -/
theorem exec_bind_cases {o : Outcome ε β} :
    ∀ {p : Prog C R ε α} {f : α → Prog C R ε β} {s s' : S},
      Exec H (p.bind f) s s' o →
      (∃ o₁ : Outcome ε α, Exec H p s s' o₁ ∧ (∀ a, o₁ ≠ .ok a) ∧ ∀ b, o ≠ .ok b) ∨
      ∃ a s₁, Exec H p s s₁ (.ok a) ∧ Exec H (f a) s₁ s' o
  | .pure a, f, s, s', h => .inr ⟨a, s, .pure a s, h⟩
  | .throw e, f, s, s', h => by
      obtain ⟨rfl, ho⟩ := exec_throw_cases h
      refine .inl ⟨.err e, .throw e s', by simp, ?_⟩
      rintro b rfl
      simp at ho
  | .call c k, f, s, s', h => by
      rcases exec_call_cases h with ⟨rfl, rfl⟩ | ⟨r, s₁, hstep, hrest⟩
      · exact .inl ⟨.stopped, .stop _ _, by simp, by simp⟩
      · rcases exec_bind_cases hrest with ⟨o₁, h₁, hne, hne'⟩ | ⟨a, s₂, h₁, h₂⟩
        · exact .inl ⟨o₁, .call hstep h₁, hne, hne'⟩
        · exact .inr ⟨a, s₂, .call hstep h₁, h₂⟩

end

/-! ## Computing a run -/

/-- An executable resolution of a handler's choices: `ω` is the script the
choices are read from, and `none` means the script does not fit. -/
structure Runner (H : Handler C R S) (ω : Type) where
  next : S → (c : C) → ω → Option (R c × S × ω)
  sound : ∀ {s c w r s' w'}, next s c w = some (r, s', w') → H.step s c r s'

/-- Run at most `n` commands of a program. -/
def Runner.run {H : Handler C R S} {ω : Type} (X : Runner H ω) :
    Nat → Prog C R ε α → S → ω → Option (S × Outcome ε α)
  | _, .pure a, s, _ => some (s, .ok a)
  | _, .throw e, s, _ => some (s, .err e)
  | 0, .call _ _, s, _ => some (s, .stopped)
  | n + 1, .call c k, s, w =>
    match X.next s c w with
    | some (r, s', w') => X.run n (k r) s' w'
    | none => none

theorem Runner.run_sound {H : Handler C R S} {ω : Type} (X : Runner H ω) :
    ∀ {n : Nat} {p : Prog C R ε α} {s s' : S} {w : ω} {o : Outcome ε α},
      X.run n p s w = some (s', o) → Exec H p s s' o
  | n, .pure a, s, s', w, o, h => by
      cases n <;> simp only [Runner.run, Option.some.injEq, Prod.mk.injEq] at h <;>
        obtain ⟨rfl, rfl⟩ := h <;> exact .pure _ _
  | n, .throw e, s, s', w, o, h => by
      cases n <;> simp only [Runner.run, Option.some.injEq, Prod.mk.injEq] at h <;>
        obtain ⟨rfl, rfl⟩ := h <;> exact .throw _ _
  | 0, .call c k, s, s', w, o, h => by
      simp only [Runner.run, Option.some.injEq, Prod.mk.injEq] at h
      obtain ⟨rfl, rfl⟩ := h
      exact .stop _ _
  | n + 1, .call c k, s, s', w, o, h => by
      rw [Runner.run] at h
      cases hn : X.next s c w with
      | none => simp [hn] at h
      | some t =>
        obtain ⟨r, s₁, w₁⟩ := t
        simp only [hn] at h
        exact .call (X.sound hn) (X.run_sound h)

/-- The state a computed run ends in, and `s` itself if the script does not
fit. -/
def Runner.after {H : Handler C R S} {ω : Type} (X : Runner H ω) (n : Nat)
    (p : Prog C R ε α) (s : S) (w : ω) : S :=
  ((X.run n p s w).map Prod.fst).getD s

theorem Runner.after_sound {H : Handler C R S} {ω : Type} (X : Runner H ω) {n : Nat}
    {p : Prog C R ε α} {s : S} {w : ω} {o : Outcome ε α}
    (h : (X.run n p s w).map Prod.snd = some o) : Exec H p s (X.after n p s w) o := by
  cases hr : X.run n p s w with
  | none => simp [hr] at h
  | some r =>
    obtain ⟨s', o'⟩ := r
    obtain rfl : o' = o := by simpa [hr] using h
    have hs : X.after n p s w = s' := by simp [Runner.after, hr]
    rw [hs]
    exact X.run_sound hr

end ForwardProxy.Effect
