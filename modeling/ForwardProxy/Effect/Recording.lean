/-
ForwardProxy.Effect.Recording — what a run has seen and passed through.

A run ends in one state, and a statement about all of its moments, or
about the replies it was given, needs more than that state. The two
handlers here keep it beside the state: `Handler.gathering` the elements
found in the replies, `Handler.recording` an observation of every state
the run has been in.
-/
import Mathlib.Data.Finset.Basic
import ForwardProxy.Effect.Wp

namespace ForwardProxy.Effect

variable {C : Type} {R : C → Type} {ε α τ S : Type} {H : Handler C R S}

/-! ## The replies -/

section

variable [DecidableEq τ]

/-- The handler that also keeps the elements `read` finds in the replies. -/
def Handler.gathering (H : Handler C R S) (read : (c : C) → R c → Finset τ) :
    Handler C R (S × Finset τ) where
  step s c r s' := H.step s.1 c r s'.1 ∧ s'.2 = s.2 ∪ read c r

/-- What has been read stays read, whatever is known besides. -/
theorem Wp.gathering {read : (c : C) → R c → Finset τ} {seen : Finset τ} {p : Prog C R ε α}
    {Q : α → S × Finset τ → Prop} {s : S × Finset τ} (hseen : seen ⊆ s.2)
    (h : Wp (H.gathering read) p Q (fun _ => True) s) :
    Wp (H.gathering read) p (fun a t => Q a t ∧ seen ⊆ t.2) (fun _ => True) s := by
  intro s' o he
  have hkept : seen ⊆ s'.2 := by
    clear h
    induction he with
    | stop p s => exact hseen
    | pure a s => exact hseen
    | throw e s => exact hseen
    | call hstep _ ih =>
      refine ih ?_
      rw [hstep.2]
      exact hseen.trans Finset.subset_union_left
  exact ⟨fun a ha => ⟨(h s' o he).1 a ha, hkept⟩, fun _ => trivial⟩

end

/-! ## The states -/

/-- The handler that also keeps the observation `obs` of every state. -/
def Handler.recording (H : Handler C R S) (obs : S → τ) : Handler C R (S × List τ) where
  step s c r s' := H.step s.1 c r s'.1 ∧ s'.2 = s.2 ++ [obs s'.1]

/-- The computed run, with its history. -/
def Runner.recording {ω : Type} (X : Runner H ω) (obs : S → τ) : Runner (H.recording obs) ω where
  next s c w := (X.next s.1 c w).map fun t => (t.1, (t.2.1, s.2 ++ [obs t.2.1]), t.2.2)
  sound := by
    intro s c w r s' w' h
    obtain ⟨t, ht, heq⟩ := Option.map_eq_some_iff.mp h
    obtain ⟨rfl, hs, rfl⟩ : t.1 = r ∧ (t.2.1, s.2 ++ [obs t.2.1]) = s' ∧ t.2.2 = w' := by
      simpa using heq
    subst hs
    exact ⟨X.sound ht, rfl⟩

/-- Every run has a history. -/
theorem Exec.recordedAs {p : Prog C R ε α} {s s' : S} {o : Outcome ε α} (h : Exec H p s s' o)
    (obs : S → τ) (history : List τ) :
    ∃ history', Exec (H.recording obs) p (s, history) (s', history') o := by
  induction h generalizing history with
  | stop p s => exact ⟨history, .stop p _⟩
  | pure a s => exact ⟨history, .pure a _⟩
  | throw e s => exact ⟨history, .throw e _⟩
  | @call c k s s₁ s₂ r o hstep _ ih =>
    obtain ⟨history', hrest⟩ := ih (history ++ [obs s₁])
    have hrecord : (H.recording obs).step (s, history) c r (s₁, history ++ [obs s₁]) := ⟨hstep, rfl⟩
    exact ⟨history', .call hrecord hrest⟩

/-- What is recorded was the observation of some moment, at which the run
could have stopped. -/
theorem Exec.moment {obs : S → τ} {p : Prog C R ε α} {s s' : S × List τ} {o : Outcome ε α}
    (h : Exec (H.recording obs) p s s' o) :
    ∀ x ∈ s'.2, x ∈ s.2 ∨ ∃ t, Exec H p s.1 t .stopped ∧ obs t = x := by
  induction h with
  | stop p s => exact fun x hx => .inl hx
  | pure a s => exact fun x hx => .inl hx
  | throw e s => exact fun x hx => .inl hx
  | @call c k s s₁ s₂ r o hstep _ ih =>
    intro x hx
    rcases ih x hx with hx | ⟨t, ht, hobs⟩
    · rw [hstep.2] at hx
      rcases List.mem_append.mp hx with hx | hx
      · exact .inl hx
      · exact .inr ⟨s₁.1, .call hstep.1 (.stop _ _), (List.mem_singleton.mp hx).symm⟩
    · exact .inr ⟨t, .call hstep.1 ht, hobs⟩

/-- A handler on abstract states covers the recorded runs as well, if the
observation is one of the abstract state. -/
theorem Wp.simulateRecording {S' : Type} {H' : Handler C R S'} {f : S → S'} {obs : S' → τ}
    (hf : ∀ s c r s', H.step s c r s' → H'.step (f s) c r (f s')) {p : Prog C R ε α}
    {Q : α → S' × List τ → Prop} {X : S' × List τ → Prop} {s : S × List τ}
    (h : Wp (H'.recording obs) p Q X (f s.1, s.2)) :
    Wp (H.recording (obs ∘ f)) p (fun a t => Q a (f t.1, t.2)) (fun t => X (f t.1, t.2)) s := by
  have hpair : ∀ (s : S × List τ) (c : C) (r : R c) (s' : S × List τ),
      (H.recording (obs ∘ f)).step s c r s' →
      (H'.recording obs).step (f s.1, s.2) c r (f s'.1, s'.2) :=
    fun s c r s' hstep => ⟨hf s.1 c r s'.1 hstep.1, hstep.2⟩
  exact Wp.simulate (f := fun t : S × List τ => (f t.1, t.2)) hpair h

end ForwardProxy.Effect
