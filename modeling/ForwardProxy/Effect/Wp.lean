/-
ForwardProxy.Effect.Wp — reasoning about programs that may stop anywhere.

`Wp H p Q X s` says of every run of `p` from `s`: a run that returns `a`
ends in a state with `Q a`, and a run that does not return (it failed, or
it was cut off after any of its commands) ends in a state with `X`. `X`
is the exit condition: what a later run finds when this one did not
finish. Since a run may stop before its first command, `Wp` implies `X`
of the starting state (`Wp.exit`), and a sequence never asks for `X`
twice at the same point.

`Keeps H I p` is the special case for frame conditions: `p` keeps `I`,
however far it gets.
-/
import ForwardProxy.Effect.Prog

namespace ForwardProxy.Effect

variable {C : Type} {R : C → Type} {ε α β σ S : Type} {H : Handler C R S}

/-- Every run of `p` from `s` either returns with `Q` or ends in `X`. -/
def Wp (H : Handler C R S) (p : Prog C R ε α) (Q : α → S → Prop) (X : S → Prop)
    (s : S) : Prop :=
  ∀ s' o, Exec H p s s' o → (∀ a, o = .ok a → Q a s') ∧ ((∀ a, o ≠ .ok a) → X s')

namespace Wp

variable {p : Prog C R ε α} {Q Q' : α → S → Prop} {X X' : S → Prop} {s s' : S}

theorem ok (h : Wp H p Q X s) {a : α} (he : Exec H p s s' (.ok a)) : Q a s' :=
  (h s' _ he).1 a rfl

theorem not_ok (h : Wp H p Q X s) {o : Outcome ε α} (he : Exec H p s s' o)
    (ho : ∀ a, o ≠ .ok a) : X s' :=
  (h s' o he).2 ho

theorem exit (h : Wp H p Q X s) : X s :=
  h.not_ok (.stop p s) (by simp)

/-- What is left of a program after its first command. -/
theorem step {c : C} {k : R c → Prog C R ε α} (h : Wp H (.call c k) Q X s) {r : R c}
    (hstep : H.step s c r s') : Wp H (k r) Q X s' :=
  fun s'' o he => h s'' o (.call hstep he)

/-- Where returning also implies the exit condition, every run ends in it. -/
theorem always (h : Wp H p Q X s) (hQ : ∀ a s', Q a s' → X s') {o : Outcome ε α}
    (he : Exec H p s s' o) : X s' := by
  cases o with
  | ok a => exact hQ a s' (h.ok he)
  | err e => exact h.not_ok he (by simp)
  | stopped => exact h.not_ok he (by simp)

theorem mono (h : Wp H p Q X s) (hQ : ∀ a s', Q a s' → Q' a s')
    (hX : ∀ s', X s' → X' s') : Wp H p Q' X' s :=
  fun s' o he => ⟨fun a ha => hQ a s' ((h s' o he).1 a ha),
    fun ho => hX s' ((h s' o he).2 ho)⟩

theorem and (h : Wp H p Q X s) (h' : Wp H p Q' X' s) :
    Wp H p (fun a t => Q a t ∧ Q' a t) (fun t => X t ∧ X' t) s :=
  fun s' o he => ⟨fun a ha => ⟨(h s' o he).1 a ha, (h' s' o he).1 a ha⟩,
    fun ho => ⟨(h s' o he).2 ho, (h' s' o he).2 ho⟩⟩

/-- Nothing is said of a program. -/
theorem top : Wp H p (fun _ _ => True) (fun _ => True) s :=
  fun _ _ _ => ⟨fun _ _ => trivial, fun _ => trivial⟩

/-! ## One rule per construct -/

theorem pure {a : α} (hX : X s) (hQ : Q a s) : Wp H (.pure a : Prog C R ε α) Q X s := by
  intro s' o he
  obtain ⟨rfl, rfl | rfl⟩ := exec_pure_cases he
  · exact ⟨by simp, fun _ => hX⟩
  · exact ⟨fun b hb => by cases hb; exact hQ, fun ho => absurd rfl (ho a)⟩

theorem throw {e : ε} (hX : X s) : Wp H (.throw e : Prog C R ε α) Q X s := by
  intro s' o he
  obtain ⟨rfl, rfl | rfl⟩ := exec_throw_cases he
  · exact ⟨by simp, fun _ => hX⟩
  · exact ⟨by simp, fun _ => hX⟩

theorem call {c : C} {k : R c → Prog C R ε α} (hX : X s)
    (h : ∀ r s', H.step s c r s' → Wp H (k r) Q X s') : Wp H (.call c k) Q X s := by
  intro s' o he
  rcases exec_call_cases he with ⟨rfl, rfl⟩ | ⟨r, s₁, hstep, hrest⟩
  · exact ⟨by simp, fun _ => hX⟩
  · exact h r s₁ hstep s' o hrest

theorem bind {f : α → Prog C R ε β} {Q : β → S → Prop}
    (h : Wp H p (fun a t => Wp H (f a) Q X t) X s) : Wp H (p >>= f) Q X s := by
  intro s' o he
  rcases exec_bind_cases he with ⟨o₁, h₁, hne, hne'⟩ | ⟨a, s₁, h₁, h₂⟩
  · exact ⟨fun b hb => absurd hb (hne' b), fun _ => h.not_ok h₁ hne⟩
  · exact h.ok h₁ s' o h₂

/-- Sequencing through the specification of the first part. -/
theorem seq {f : α → Prog C R ε β} {P : α → S → Prop} {Q : β → S → Prop}
    (h : Wp H p P X s) (h' : ∀ a t, P a t → Wp H (f a) Q X t) :
    Wp H (p >>= f) Q X s :=
  .bind (h.mono h' fun _ ht => ht)

theorem cmdBind {c : C} {f : R c → Prog C R ε β} {Q : β → S → Prop} (hX : X s)
    (h : ∀ r s', H.step s c r s' → Wp H (f r) Q X s') :
    Wp H (Prog.cmd c >>= f) Q X s :=
  .call hX h

theorem cmd {c : C} {Q : R c → S → Prop} (hX : X s)
    (h : ∀ r s', H.step s c r s' → X s' ∧ Q r s') :
    Wp H (Prog.cmd c : Prog C R ε (R c)) Q X s :=
  .call hX fun r s' hs => .pure (h r s' hs).1 (h r s' hs).2

theorem ite {b : Prop} [Decidable b] {p q : Prog C R ε α}
    (ht : b → Wp H p Q X s) (he : ¬ b → Wp H q Q X s) :
    Wp H (if b then p else q) Q X s := by
  split
  · exact ht ‹_›
  · exact he ‹_›

theorem when {b : Bool} {p : Prog C R ε Unit} {Q : Unit → S → Prop}
    (ht : b = true → Wp H p Q X s) (hX : b = false → X s) (hQ : b = false → Q () s) :
    Wp H (Prog.when b p) Q X s := by
  cases b with
  | true => exact ht rfl
  | false => exact .pure (hX rfl) (hQ rfl)

/-! ## Loops -/

/-- The loop rule: `I done` holds when the elements of `done` have been
processed. -/
theorem forEach {f : β → Prog C R ε Unit} {I : List β → S → Prop} {Q : Unit → S → Prop}
    (hI : ∀ done t, I done t → X t) :
    ∀ (todo done : List β) (t : S),
      (∀ done, ∀ b ∈ todo, ∀ t, I done t → Wp H (f b) (fun _ t' => I (done ++ [b]) t') X t) →
      I done t → (∀ t', I (done ++ todo) t' → Q () t') →
      Wp H (Prog.forEach f todo) Q X t
  | [], done, t, _, h, hQ => .pure (hI done t h) (hQ t (by simpa using h))
  | b :: bs, done, t, hstep, h, hQ => by
      refine Wp.seq (hstep done b (by simp) t h) fun _ t' ht' => ?_
      exact forEach hI bs (done ++ [b]) t'
        (fun done b' hb' => hstep done b' (by simp [hb'])) ht' (by simpa using hQ)

/-- The loop rule with an accumulator. -/
theorem fold {f : σ → β → Prog C R ε σ} {I : List β → σ → S → Prop}
    {Q : σ → S → Prop} (hI : ∀ done acc t, I done acc t → X t) :
    ∀ (todo done : List β) (acc : σ) (t : S),
      (∀ done acc, ∀ b ∈ todo, ∀ t, I done acc t →
        Wp H (f acc b) (fun acc' t' => I (done ++ [b]) acc' t') X t) →
      I done acc t → (∀ acc' t', I (done ++ todo) acc' t' → Q acc' t') →
      Wp H (Prog.fold f acc todo) Q X t
  | [], done, acc, t, _, h, hQ => .pure (hI done acc t h) (hQ acc t (by simpa using h))
  | b :: bs, done, acc, t, hstep, h, hQ => by
      refine Wp.seq (hstep done acc b (by simp) t h) fun acc' t' ht' => ?_
      exact fold hI bs (done ++ [b]) acc' t'
        (fun done acc b' hb' => hstep done acc b' (by simp [hb'])) ht' (by simpa using hQ)

end Wp

/-! ## Programs that keep an invariant -/

/-- However far `p` gets, `I` still holds. -/
def Keeps (H : Handler C R S) (I : S → Prop) (p : Prog C R ε α) : Prop :=
  ∀ s, I s → Wp H p (fun _ => I) I s

namespace Keeps

variable {I : S → Prop} {p : Prog C R ε α}

theorem exec (h : Keeps H I p) {s s' : S} {o : Outcome ε α} (hs : I s)
    (he : Exec H p s s' o) : I s' :=
  (h s hs).always (fun _ _ ht => ht) he

theorem pure (a : α) : Keeps H I (.pure a : Prog C R ε α) :=
  fun _ hs => .pure hs hs

theorem throw (e : ε) : Keeps H I (.throw e : Prog C R ε α) :=
  fun _ hs => .throw hs

theorem call {c : C} {k : R c → Prog C R ε α}
    (hc : ∀ s r s', I s → H.step s c r s' → I s') (hk : ∀ r, Keeps H I (k r)) :
    Keeps H I (.call c k) :=
  fun s hs => .call hs fun r s' hstep => hk r s' (hc s r s' hs hstep)

theorem cmd {c : C} (hc : ∀ s r s', I s → H.step s c r s' → I s') :
    Keeps H I (Prog.cmd c : Prog C R ε (R c)) :=
  .call hc fun r => .pure r

theorem bind {f : α → Prog C R ε β} (hp : Keeps H I p) (hf : ∀ a, Keeps H I (f a)) :
    Keeps H I (p >>= f) :=
  fun s hs => .seq (hp s hs) fun a t ht => hf a t ht

theorem ite {b : Prop} [Decidable b] {p q : Prog C R ε α}
    (hp : Keeps H I p) (hq : Keeps H I q) : Keeps H I (if b then p else q) := by
  split
  · exact hp
  · exact hq

theorem when {b : Bool} {p : Prog C R ε Unit} (hp : Keeps H I p) :
    Keeps H I (Prog.when b p) :=
  .ite hp (.pure ())

theorem forEach {f : β → Prog C R ε Unit} (hf : ∀ b, Keeps H I (f b)) :
    ∀ xs : List β, Keeps H I (Prog.forEach f xs)
  | [] => .pure ()
  | b :: bs => .bind (hf b) fun _ => forEach hf bs

end Keeps

/-! ## Passing to a smaller state -/

section

variable {S' : Type} {H' : Handler C R S'} {f : S → S'}

/-- A handler on abstract states covers `H` when every step of `H` is a
step between the abstractions; runs are then covered too. -/
theorem Exec.simulate (hf : ∀ s c r s', H.step s c r s' → H'.step (f s) c r (f s'))
    {p : Prog C R ε α} {s s' : S} {o : Outcome ε α} (h : Exec H p s s' o) :
    Exec H' p (f s) (f s') o := by
  induction h with
  | stop p s => exact .stop p (f s)
  | pure a s => exact .pure a (f s)
  | throw e s => exact .throw e (f s)
  | call hstep _ ih => exact .call (hf _ _ _ _ hstep) ih

theorem Wp.simulate (hf : ∀ s c r s', H.step s c r s' → H'.step (f s) c r (f s'))
    {p : Prog C R ε α} {Q : α → S' → Prop} {X : S' → Prop} {s : S}
    (h : Wp H' p Q X (f s)) : Wp H p (fun a t => Q a (f t)) (fun t => X (f t)) s :=
  fun s' o he => h (f s') o (he.simulate hf)

end

/-! ## The commands a program sends -/

/-- Every command `p` may send satisfies `P`, whatever the replies. -/
def Prog.Issues (P : C → Prop) : Prog C R ε α → Prop
  | .pure _ => True
  | .throw _ => True
  | .call c k => P c ∧ ∀ r, (k r).Issues P

namespace Prog.Issues

variable {P P' : C → Prop}

theorem pure (a : α) : (Prog.pure a : Prog C R ε α).Issues P := trivial

theorem throw (e : ε) : (Prog.throw e : Prog C R ε α).Issues P := trivial

theorem cmd {c : C} (h : P c) : (Prog.cmd c : Prog C R ε (R c)).Issues P :=
  ⟨h, fun _ => trivial⟩

theorem bind {f : α → Prog C R ε β} :
    ∀ {p : Prog C R ε α}, p.Issues P → (∀ a, (f a).Issues P) → (p >>= f).Issues P
  | .pure a, _, hf => hf a
  | .throw _, _, _ => trivial
  | .call _ _, hp, hf => ⟨hp.1, fun r => bind (hp.2 r) hf⟩

theorem mono (hP : ∀ c, P c → P' c) :
    ∀ {p : Prog C R ε α}, p.Issues P → p.Issues P'
  | .pure _, _ => trivial
  | .throw _, _ => trivial
  | .call c _, hp => ⟨hP c hp.1, fun r => mono hP (hp.2 r)⟩

theorem ite {b : Prop} [Decidable b] {p q : Prog C R ε α}
    (hp : p.Issues P) (hq : q.Issues P) : (if b then p else q).Issues P := by
  split
  · exact hp
  · exact hq

theorem when {b : Bool} {p : Prog C R ε Unit} (hp : p.Issues P) :
    (Prog.when b p).Issues P :=
  .ite hp (.pure ())

theorem forEachMem {f : β → Prog C R ε Unit} {xs : List β} (hf : ∀ b ∈ xs, (f b).Issues P) :
    (Prog.forEach f xs).Issues P := by
  induction xs with
  | nil => exact .pure ()
  | cons b bs ih => exact .bind (hf b (by simp)) fun _ => ih fun b' hb' => hf b' (by simp [hb'])

theorem forEach {f : β → Prog C R ε Unit} (hf : ∀ b, (f b).Issues P) (xs : List β) :
    (Prog.forEach f xs).Issues P :=
  forEachMem fun b _ => hf b

theorem foldMem {f : σ → β → Prog C R ε σ} {xs : List β}
    (hf : ∀ acc, ∀ b ∈ xs, (f acc b).Issues P) (acc : σ) : (Prog.fold f acc xs).Issues P := by
  induction xs generalizing acc with
  | nil => exact .pure acc
  | cons b bs ih =>
    exact .bind (hf acc b (by simp)) fun acc' => ih (fun acc b' hb' => hf acc b' (by simp [hb'])) acc'

theorem fold {f : σ → β → Prog C R ε σ} (hf : ∀ acc b, (f acc b).Issues P) (xs : List β)
    (acc : σ) : (Prog.fold f acc xs).Issues P :=
  foldMem (fun acc b _ => hf acc b) acc

/-- What every command satisfying `P` keeps, a program that sends only such
commands keeps. -/
theorem keeps {I : S → Prop} (hI : ∀ c, P c → ∀ s r s', I s → H.step s c r s' → I s') :
    ∀ {p : Prog C R ε α}, p.Issues P → Keeps H I p
  | .pure a, _ => .pure a
  | .throw e, _ => .throw e
  | .call c _, hp => .call (hI c hp.1) fun r => keeps hI (hp.2 r)

/-- The simulation of a program that sends only some of the commands. -/
theorem simulate {S' : Type} {H' : Handler C R S'} {f : S → S'}
    (hf : ∀ c, P c → ∀ s r s', H.step s c r s' → H'.step (f s) c r (f s'))
    {p : Prog C R ε α} {s s' : S} {o : Outcome ε α} (hp : p.Issues P) (h : Exec H p s s' o) :
    Exec H' p (f s) (f s') o := by
  induction h with
  | stop p s => exact .stop p (f s)
  | pure a s => exact .pure a (f s)
  | throw e s => exact .throw e (f s)
  | call hstep _ ih => exact .call (hf _ hp.1 _ _ _ hstep) (ih (hp.2 _))

end Prog.Issues

end ForwardProxy.Effect
