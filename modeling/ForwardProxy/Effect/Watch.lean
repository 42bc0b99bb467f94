/-
ForwardProxy.Effect.Watch — programs that run side by side, with the phases
they have reached.

The log of a `Pool` says what was sent and not what was answered. A
`Watched` pool keeps beside every program the phase of its protocol, and
that does follow the replies: what a program has read, and what it is
about. The condition of a run, and what is shown of it, may speak of the
phases.

A program may also stop for good, as one does whose connection is lost. It
then rests, and no longer counts as being about anything.
-/
import ForwardProxy.Effect.Interleave

namespace ForwardProxy.Effect

variable {C : Type} {R : C → Type} {ε S Φ ι ω : Type} {α : ι → Type}

structure Watched (C : Type) (R : C → Type) (ε S ι : Type) (α : ι → Type) (Φ : Type)
    extends Pool C R ε S ι α where
  phase : ι → Φ

/-- What a run may depend on: the phases, the store and the log, and who
sends which command next. -/
abbrev Watched.Condition (C S ι Φ : Type) : Type :=
  (ι → Φ) → S → List (ι × C) → ι → C → Prop

namespace Watched

variable [DecidableEq ι]

/-- One command of one program, or a program stops. -/
inductive Step (H : Handler C R S) (δ : Protocol C R Φ) (rest : Φ) (cond : Condition C S ι Φ) :
    Watched C R ε S ι α Φ → Watched C R ε S ι α Φ → Prop
  | turn {s s' : S} {threads : (i : ι) → Prog C R ε (α i)} {log : List (ι × C)} {φ : ι → Φ} (i : ι)
      {c : C} {k : R c → Prog C R ε (α i)} {r : R c} (hthread : threads i = .call c k)
      (hcond : cond φ s log i c) (hstep : H.step s c r s') :
      Step H δ rest cond ⟨⟨s, threads, log⟩, φ⟩
        ⟨⟨s', Function.update threads i (k r), (i, c) :: log⟩,
          Function.update φ i (δ.next (φ i) c r)⟩
  | stop {s : S} {threads : (i : ι) → Prog C R ε (α i)} {log : List (ι × C)} {φ : ι → Φ} (i : ι)
      (e : ε) :
      Step H δ rest cond ⟨⟨s, threads, log⟩, φ⟩
        ⟨⟨s, Function.update threads i (.throw e), log⟩, Function.update φ i rest⟩

variable {H : Handler C R S} {δ : Protocol C R Φ} {rest : Φ} {cond : Condition C S ι Φ}

/-- A command that is sent next is one its program's phase allows. -/
theorem Step.allowed {Q : ι → Φ → Prop} {w w' : Watched C R ε S ι α Φ}
    (hfollow : Pool.Follow δ Q w.threads w.phase) (hstep : Step H δ rest cond w w') {i : ι} {c : C}
    (hlog : w'.log = (i, c) :: w.log) : δ.allows (w.phase i) c := by
  cases hstep with
  | @turn s s' threads log φ j c' k r hthread _ _ =>
    obtain ⟨heq, _⟩ := List.cons.inj hlog
    obtain ⟨rfl, rfl⟩ := Prod.mk.inj heq
    have hthis : (threads j).Follows δ (Q j) (φ j) := hfollow j
    rw [hthread] at hthis
    exact hthis.1
  | stop j e => simp at hlog

/-- **The invariant rule**: what every allowed command that meets the
condition carries over, and a program that stops does not break. -/
theorem invariant {Q : ι → Φ → Prop} {I : (ι → Φ) → S → List (ι × C) → Prop}
    {start w : Watched C R ε S ι α Φ} (hfollow : Pool.Follow δ Q start.threads start.phase)
    (hinit : I start.phase start.state start.log)
    (hturn : ∀ φ s log i c r s', I φ s log → δ.allows (φ i) c → cond φ s log i c →
      H.step s c r s' → I (Function.update φ i (δ.next (φ i) c r)) s' ((i, c) :: log))
    (hstop : ∀ φ s log i, I φ s log → I (Function.update φ i rest) s log)
    (hrun : Relation.ReflTransGen (Step H δ rest cond) start w) :
    Pool.Follow δ Q w.threads w.phase ∧ I w.phase w.state w.log := by
  induction hrun with
  | refl => exact ⟨hfollow, hinit⟩
  | tail _ hlast ih =>
    obtain ⟨hfollows, hI⟩ := ih
    cases hlast with
    | @turn s s' threads log φ i c k r hthread hcond hstep =>
      have hthis : (Prog.call c k).Follows δ (Q i) (φ i) := hthread ▸ hfollows i
      refine ⟨?_, hturn φ s log i c r s' hI hthis.1 hcond hstep⟩
      intro j
      by_cases hj : j = i
      · subst hj
        simp only [Function.update_self]
        exact hthis.2 r
      · simp only [Function.update_of_ne hj]
        exact hfollows j
    | @stop s threads log φ i e =>
      refine ⟨?_, hstop φ s log i hI⟩
      intro j
      by_cases hj : j = i
      · subst hj
        simp only [Function.update_self]
        exact .throw e
      · simp only [Function.update_of_ne hj]
        exact hfollows j

end Watched

/-! ## Computing a run -/

/-- Whose turn it is, or who stops. -/
inductive Move (ι : Type) where
  | turn (i : ι)
  | stop (i : ι)
  deriving Repr

/-- It is `i`'s turn `n` times. -/
def Move.turns (i : ι) (n : Nat) : List (Move ι) := List.replicate n (.turn i)

namespace Runner

variable [DecidableEq ι] {H : Handler C R S}

/-- Make the moves of the schedule, where a program that stops ends in
`e`. -/
def watch (X : Runner H ω) (δ : Protocol C R Φ) (rest : Φ) (cond : Watched.Condition C S ι Φ)
    [∀ φ s log i c, Decidable (cond φ s log i c)] (e : ε) :
    List (Move ι) → Watched C R ε S ι α Φ → ω → Option (Watched C R ε S ι α Φ × ω)
  | [], w, script => some (w, script)
  | .stop i :: moves, w, script =>
    watch X δ rest cond e moves
      ⟨⟨w.state, Function.update w.threads i (.throw e), w.log⟩, Function.update w.phase i rest⟩ script
  | .turn i :: moves, w, script =>
    match w.threads i with
    | .call c k =>
      if cond w.phase w.state w.log i c then
        match X.next w.state c script with
        | some (r, s', script') =>
          watch X δ rest cond e moves
            ⟨⟨s', Function.update w.threads i (k r), (i, c) :: w.log⟩,
              Function.update w.phase i (δ.next (w.phase i) c r)⟩ script'
        | none => none
      else none
    | _ => none

theorem watch_sound (X : Runner H ω) {δ : Protocol C R Φ} {rest : Φ} {cond : Watched.Condition C S ι Φ}
    [∀ φ s log i c, Decidable (cond φ s log i c)] {e : ε} {moves : List (Move ι)}
    {w w' : Watched C R ε S ι α Φ} {script script' : ω}
    (h : X.watch δ rest cond e moves w script = some (w', script')) :
    Relation.ReflTransGen (Watched.Step H δ rest cond) w w' := by
  induction moves generalizing w script with
  | nil =>
    simp only [watch, Option.some.injEq, Prod.mk.injEq] at h
    rw [h.1]
  | cons move moves ih =>
    cases move with
    | stop i => exact .head (.stop i e) (ih h)
    | turn i =>
      unfold watch at h
      split at h
      · rename_i c k hthread
        split at h
        · rename_i hcond
          split at h
          · rename_i r s' script₁ hnext
            exact .head (.turn i hthread hcond (X.sound hnext)) (ih h)
          · simp at h
        · simp at h
      · simp at h

/-- Where the moves of a schedule lead, and the start if they do not fit. -/
def watched (X : Runner H ω) (δ : Protocol C R Φ) (rest : Φ) (cond : Watched.Condition C S ι Φ)
    [∀ φ s log i c, Decidable (cond φ s log i c)] (e : ε) (moves : List (Move ι))
    (w : Watched C R ε S ι α Φ) (script : ω) : Watched C R ε S ι α Φ :=
  ((X.watch δ rest cond e moves w script).map Prod.fst).getD w

theorem watched_reached (X : Runner H ω) {δ : Protocol C R Φ} {rest : Φ}
    {cond : Watched.Condition C S ι Φ} [∀ φ s log i c, Decidable (cond φ s log i c)] {e : ε}
    {moves : List (Move ι)} {w : Watched C R ε S ι α Φ} {script : ω} :
    Relation.ReflTransGen (Watched.Step H δ rest cond) w
      (X.watched δ rest cond e moves w script) := by
  unfold watched
  cases hwatch : X.watch δ rest cond e moves w script with
  | none => exact .refl
  | some result => exact X.watch_sound hwatch

end Runner

end ForwardProxy.Effect
