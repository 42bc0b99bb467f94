/-
ForwardProxy.Effect.Interference — one program among others.

`Handler.amid` lets an environment move the store before every command of
a program; `env` says what one such move may do. A program then sees a
different store at each of its reads, and a run ends in the store its last
command saw. With `env` the equality the program is alone.

`Handler.under` lets a command through only where a guard admits it, for
statements about the runs all of whose commands meet a condition.

`Wp.readsAmid` is the rule for a command of such a program, through what
every move of the environment keeps.
-/
import ForwardProxy.Effect.Wp

namespace ForwardProxy.Effect

variable {C : Type} {R : C → Type} {ε α β S : Type} {H : Handler C R S} {env : S → S → Prop}

/-- The environment moves, then the command is answered. -/
def Handler.amid (H : Handler C R S) (env : S → S → Prop) : Handler C R S where
  step s c r s' := ∃ mid, env s mid ∧ H.step mid c r s'

/-- A command whose answer is described in every state the environment can
have moved to. -/
theorem Wp.readsAmid {c : C} {f : R c → Prog C R ε β} {Q : β → S → Prop} {I : S → Prop} {s : S}
    (henv : ∀ mid, env s mid → I mid)
    (h : ∀ mid r s', I mid → H.step mid c r s' → Wp (H.amid env) (f r) Q (fun _ => True) s') :
    Wp (H.amid env) (Prog.cmd c >>= f) Q (fun _ => True) s := by
  refine Wp.cmdBind trivial ?_
  intro r s' hstep
  obtain ⟨mid, hmid, hstep⟩ := hstep
  exact h mid r s' (henv mid hmid) hstep

/-- A program without errors of its own runs to its end, if every command
has an answer in every state. -/
theorem Exec.exists_ok (hH : ∀ s c, ∃ r s', H.step s c r s') :
    ∀ (p : Prog C R Empty α) (s : S), ∃ s' a, Exec H p s s' (.ok a)
  | .pure a, s => ⟨s, a, .pure a s⟩
  | .throw e, _ => e.elim
  | .call c k, s => by
      obtain ⟨r, s₁, hstep⟩ := hH s c
      obtain ⟨s', a, hrest⟩ := exists_ok hH (k r) s₁
      exact ⟨s', a, .call hstep hrest⟩

/-! ## Guarded runs -/

/-- Only commands the guard admits in the state they are sent in. -/
def Handler.under (H : Handler C R S) (guard : S → C → Bool) : Handler C R S where
  step s c r s' := guard s c = true ∧ H.step s c r s'

/-- The computed run, as far as the guard admits it. -/
def Runner.under {ω : Type} (X : Runner H ω) (guard : S → C → Bool) :
    Runner (H.under guard) ω where
  next s c w := if guard s c then X.next s c w else none
  sound := by
    intro s c w r s' w' h
    split at h
    · rename_i hguard
      exact ⟨hguard, X.sound h⟩
    · exact absurd h (by simp)

end ForwardProxy.Effect
