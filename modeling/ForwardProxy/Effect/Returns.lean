/-
ForwardProxy.Effect.Returns — programs that cannot fail.

`Wp` says what a run that returns has done, and allows it to fail.
`Returns H p Q s` is total correctness: wherever `p` gets from `s`, the
store has an answer to its next command, it never fails, and it returns
with `Q`. It goes by recursion on the program, so nothing else is needed
for termination: a program is a tree without infinite branches.
-/
import ForwardProxy.Effect.Wp

namespace ForwardProxy.Effect

variable {C : Type} {R : C → Type} {ε α β σ S : Type} {H : Handler C R S}

/-- Every run of `p` from `s` that is not cut off returns, with `Q`. -/
def Returns (H : Handler C R S) : Prog C R ε α → (α → S → Prop) → S → Prop
  | .pure a, Q, s => Q a s
  | .throw _, _, _ => False
  | .call c k, Q, s =>
    (∃ r s', H.step s c r s') ∧ ∀ r s', H.step s c r s' → Returns H (k r) Q s'

namespace Returns

variable {p : Prog C R ε α} {Q Q' : α → S → Prop} {s s' : S}

/-- The program does return. -/
theorem exists_ok : ∀ {p : Prog C R ε α} {s : S}, Returns H p Q s →
    ∃ a s', Exec H p s s' (.ok a)
  | .pure a, s, _ => ⟨a, s, .pure a s⟩
  | .throw _, _, h => h.elim
  | .call _ _, _, h => by
      obtain ⟨⟨r, s₁, hstep⟩, hrest⟩ := h
      obtain ⟨a, s', he⟩ := exists_ok (hrest r s₁ hstep)
      exact ⟨a, s', .call hstep he⟩

theorem exec {o : Outcome ε α} (h : Returns H p Q s) (he : Exec H p s s' o) :
    (∀ e, o ≠ .err e) ∧ ∀ a, o = .ok a → Q a s' := by
  induction he with
  | stop p s => exact ⟨by simp, by simp⟩
  | pure a s =>
    refine ⟨by simp, fun b hb => ?_⟩
    cases hb
    exact h
  | throw e s => exact h.elim
  | call hstep _ ih => exact ih (h.2 _ _ hstep)

theorem mono (hQ : ∀ a t, Q a t → Q' a t) :
    ∀ {p : Prog C R ε α} {s : S}, Returns H p Q s → Returns H p Q' s
  | .pure a, s, h => hQ a s h
  | .throw _, _, h => h
  | .call _ _, _, h => ⟨h.1, fun r s' hstep => mono hQ (h.2 r s' hstep)⟩

/-- A program that returns, returns with whatever its runs are known to
end in. -/
theorem andWp {X : S → Prop} :
    ∀ {p : Prog C R ε α} {s : S}, Returns H p Q s → Wp H p Q' X s →
      Returns H p (fun a t => Q a t ∧ Q' a t) s
  | .pure a, s, h, h' => ⟨h, h'.ok (.pure a s)⟩
  | .throw _, _, h, _ => h
  | .call _ _, _, h, h' => by
      refine ⟨h.1, fun r s' hstep => ?_⟩
      have hrest : Wp H _ Q' X s' := fun s'' o he => h' s'' o (.call hstep he)
      exact andWp (h.2 r s' hstep) hrest

/-! ## One rule per construct -/

theorem seq {f : α → Prog C R ε β} {P : α → S → Prop} {Q : β → S → Prop} :
    ∀ {p : Prog C R ε α} {s : S}, Returns H p P s → (∀ a t, P a t → Returns H (f a) Q t) →
      Returns H (p >>= f) Q s
  | .pure a, s, h, hf => hf a s h
  | .throw _, _, h, _ => h
  | .call _ _, _, h, hf => ⟨h.1, fun r s' hstep => seq (h.2 r s' hstep) hf⟩

theorem cmdBind {c : C} {f : R c → Prog C R ε β} {Q : β → S → Prop}
    (hc : ∃ r s', H.step s c r s') (h : ∀ r s', H.step s c r s' → Returns H (f r) Q s') :
    Returns H (Prog.cmd c >>= f) Q s :=
  ⟨hc, h⟩

theorem ite {b : Prop} [Decidable b] {p q : Prog C R ε α}
    (ht : b → Returns H p Q s) (he : ¬ b → Returns H q Q s) :
    Returns H (if b then p else q) Q s := by
  split
  · exact ht ‹_›
  · exact he ‹_›

theorem when {b : Bool} {p : Prog C R ε Unit} {Q : Unit → S → Prop}
    (ht : b = true → Returns H p Q s) (hQ : Q () s) : Returns H (Prog.when b p) Q s := by
  cases b with
  | true => exact ht rfl
  | false => exact hQ

/-! ## Loops -/

theorem forEach {f : β → Prog C R ε Unit} {I : S → Prop}
    (hf : ∀ b t, I t → Returns H (f b) (fun _ => I) t) :
    ∀ (xs : List β) (t : S), I t → Returns H (Prog.forEach f xs) (fun _ => I) t
  | [], _, h => h
  | b :: bs, t, h => seq (hf b t h) fun _ t' ht' => forEach hf bs t' ht'

/-- `I done` holds of the accumulator when the elements of `done` have been
processed. -/
theorem fold {f : σ → β → Prog C R ε σ} {I : List β → σ → S → Prop}
    (hf : ∀ done acc b t, I done acc t → Returns H (f acc b) (I (done ++ [b])) t) :
    ∀ (todo done : List β) (acc : σ) (t : S), I done acc t →
      Returns H (Prog.fold f acc todo) (I (done ++ todo)) t
  | [], done, acc, t, h => by
      rw [List.append_nil]
      exact h
  | b :: bs, done, acc, t, h => by
      refine seq (hf done acc b t h) fun acc' t' ht' => ?_
      have hrest := fold hf bs (done ++ [b]) acc' t' ht'
      rwa [List.append_assoc] at hrest

end Returns

end ForwardProxy.Effect
