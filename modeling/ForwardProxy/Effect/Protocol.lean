/-
ForwardProxy.Effect.Protocol — the order in which a program sends its
commands.

A `Protocol` is an automaton over commands: what may be sent in a phase,
and the phase the reply leads to. `Prog.Follows δ Q p φ` says that `p`,
started in the phase `φ`, sends only what the protocol allows, and that it
returns in a phase with `Q`. Like `Prog.Issues`, of which it is the
version with phases, it speaks of the text of a program and not of its
runs; `Follows.wp` is the way from one to the other, for an invariant that
may depend on the phase.

`Prog.Yields` speaks of the results in the same way. `Handler.logged` keeps
the commands of a run beside the state, for statements about what a
particular run has sent.
-/
import ForwardProxy.Effect.Wp

namespace ForwardProxy.Effect

structure Protocol (C : Type) (R : C → Type) (Φ : Type) where
  allows : Φ → C → Prop
  next : Φ → (c : C) → R c → Φ

variable {C : Type} {R : C → Type} {Φ ε α β σ S : Type} {H : Handler C R S}

def Prog.Follows (δ : Protocol C R Φ) (Q : Φ → Prop) : Prog C R ε α → Φ → Prop
  | .pure _, φ => Q φ
  | .throw _, _ => True
  | .call c k, φ => δ.allows φ c ∧ ∀ r, (k r).Follows δ Q (δ.next φ c r)

namespace Prog.Follows

variable {δ : Protocol C R Φ} {Q Q' : Φ → Prop} {φ : Φ}

theorem pure {a : α} (h : Q φ) : (Prog.pure a : Prog C R ε α).Follows δ Q φ := h

theorem throw (e : ε) : (Prog.throw e : Prog C R ε α).Follows δ Q φ := trivial

theorem cmd {c : C} (h : δ.allows φ c) (hQ : ∀ r, Q (δ.next φ c r)) :
    (Prog.cmd c : Prog C R ε (R c)).Follows δ Q φ :=
  ⟨h, hQ⟩

theorem bind {f : α → Prog C R ε β} :
    ∀ {p : Prog C R ε α} {φ : Φ}, p.Follows δ Q φ →
      (∀ a φ', Q φ' → (f a).Follows δ Q' φ') → (p >>= f).Follows δ Q' φ
  | .pure a, φ, hp, hf => hf a φ hp
  | .throw _, _, _, _ => trivial
  | .call _ _, _, hp, hf => ⟨hp.1, fun r => bind (hp.2 r) hf⟩

theorem ite {b : Prop} [Decidable b] {p q : Prog C R ε α}
    (hp : p.Follows δ Q φ) (hq : q.Follows δ Q φ) : (if b then p else q).Follows δ Q φ := by
  split
  · exact hp
  · exact hq

/-- A program whose commands are all allowed in one phase and do not leave
it. -/
theorem of_issues {P : C → Prop} (hP : ∀ c, P c → δ.allows φ c ∧ ∀ r, δ.next φ c r = φ)
    (hQ : Q φ) : ∀ {p : Prog C R ε α}, p.Issues P → p.Follows δ Q φ
  | .pure _, _ => hQ
  | .throw _, _ => trivial
  | .call c k, hp => by
      refine ⟨(hP c hp.1).1, fun r => ?_⟩
      rw [(hP c hp.1).2 r]
      exact of_issues hP hQ (hp.2 r)

theorem stays {P : C → Prop} (hP : ∀ c, P c → δ.allows φ c ∧ ∀ r, δ.next φ c r = φ)
    {p : Prog C R ε α} (hp : p.Issues P) : p.Follows δ (· = φ) φ :=
  of_issues (Q := (· = φ)) hP rfl hp

theorem cmdBind {c : C} {f : R c → Prog C R ε β} (h : δ.allows φ c)
    (hf : ∀ r, (f r).Follows δ Q (δ.next φ c r)) : (Prog.cmd c >>= f).Follows δ Q φ :=
  ⟨h, hf⟩

/-- A loop that comes back to the phases it starts in. -/
theorem fold {f : σ → β → Prog C R ε σ} (hf : ∀ acc b φ, Q φ → (f acc b).Follows δ Q φ) :
    ∀ (xs : List β) (acc : σ) {φ : Φ}, Q φ → (Prog.fold f acc xs).Follows δ Q φ
  | [], _, _, h => h
  | x :: xs, acc, φ, h => bind (hf acc x φ h) fun acc' _ h' => fold hf xs acc' h'

/-- A program that follows the protocol sends what some phase allows. -/
theorem issues : ∀ {p : Prog C R ε α} {φ : Φ}, p.Follows δ Q φ →
    p.Issues fun c => ∃ φ, δ.allows φ c
  | .pure _, _, _ => trivial
  | .throw _, _, _ => trivial
  | .call _ _, φ, hp => ⟨⟨φ, hp.1⟩, fun r => issues (hp.2 r)⟩

/-- An invariant that every allowed command carries from its phase to the
next is kept, however far the program gets. -/
theorem wp {I : Φ → S → Prop}
    (hI : ∀ φ c, δ.allows φ c → ∀ s r s', I φ s → H.step s c r s' → I (δ.next φ c r) s') :
    ∀ {p : Prog C R ε α} {φ : Φ} {s : S}, p.Follows δ Q φ → I φ s →
      Wp H p (fun _ s' => ∃ φ', Q φ' ∧ I φ' s') (fun s' => ∃ φ', I φ' s') s
  | .pure _, φ, _, hp, hs => .pure ⟨φ, hs⟩ ⟨φ, hp, hs⟩
  | .throw _, φ, _, _, hs => .throw ⟨φ, hs⟩
  | .call c _, φ, s, hp, hs =>
      .call ⟨φ, hs⟩ fun r s' hstep => wp hI (hp.2 r) (hI φ c hp.1 s r s' hs hstep)

end Prog.Follows

/-! ## What a program returns -/

/-- Every result `p` may return satisfies `P`, whatever the replies. -/
def Prog.Yields (P : α → Prop) : Prog C R ε α → Prop
  | .pure a => P a
  | .throw _ => True
  | .call _ k => ∀ r, (k r).Yields P

namespace Prog.Yields

variable {P : α → Prop} {P' : β → Prop}

theorem top : ∀ p : Prog C R ε α, p.Yields fun _ => True
  | .pure _ => trivial
  | .throw _ => trivial
  | .call _ k => fun r => top (k r)

theorem bind {f : α → Prog C R ε β} :
    ∀ {p : Prog C R ε α}, p.Yields P → (∀ a, P a → (f a).Yields P') → (p >>= f).Yields P'
  | .pure a, hp, hf => hf a hp
  | .throw _, _, _ => trivial
  | .call _ _, hp, hf => fun r => bind (hp r) hf

/-- A loop whose accumulator keeps satisfying `P`. -/
theorem foldMem {f : σ → β → Prog C R ε σ} {P : σ → Prop} {xs : List β}
    (hf : ∀ acc, ∀ b ∈ xs, P acc → (f acc b).Yields P) :
    ∀ {acc : σ}, P acc → (Prog.fold f acc xs).Yields P := by
  induction xs with
  | nil =>
    intro acc hacc
    exact hacc
  | cons b bs ih =>
    intro acc hacc
    exact bind (hf acc b (by simp) hacc) fun acc' hacc' =>
      ih (fun acc b' hb' => hf acc b' (by simp [hb'])) hacc'

end Prog.Yields

/-- Sequencing, with what is known of the first result. -/
theorem Prog.Follows.bindYields {δ : Protocol C R Φ} {Q Q' : Φ → Prop} {P : α → Prop}
    {f : α → Prog C R ε β} :
    ∀ {p : Prog C R ε α} {φ : Φ}, p.Follows δ Q φ → p.Yields P →
      (∀ a φ', P a → Q φ' → (f a).Follows δ Q' φ') → (p >>= f).Follows δ Q' φ
  | .pure a, φ, hp, hy, hf => hf a φ hy hp
  | .throw _, _, _, _, _ => trivial
  | .call _ _, _, hp, hy, hf => ⟨hp.1, fun r => bindYields (hp.2 r) (hy r) hf⟩

/-- A loop that comes back to the phases it starts in, over elements of
which something is known. -/
theorem Prog.Follows.foldMem {δ : Protocol C R Φ} {Q : Φ → Prop} {f : σ → β → Prog C R ε σ}
    {xs : List β} (hf : ∀ acc, ∀ b ∈ xs, ∀ φ, Q φ → (f acc b).Follows δ Q φ) :
    ∀ {acc : σ} {φ : Φ}, Q φ → (Prog.fold f acc xs).Follows δ Q φ := by
  induction xs with
  | nil =>
    intro acc φ hφ
    exact hφ
  | cons b bs ih =>
    intro acc φ hφ
    exact Prog.Follows.bind (hf acc b (by simp) φ hφ) fun acc' _ h' =>
      ih (fun acc b' hb' => hf acc b' (by simp [hb'])) h'

/-! ## The commands of a run -/

/-- The handler that also keeps the commands answered so far. -/
def Handler.logged (H : Handler C R S) : Handler C R (S × List C) where
  step s c r s' := H.step s.1 c r s'.1 ∧ s'.2 = s.2 ++ [c]

/-- The computed run, with its log. -/
def Runner.logged {ω : Type} (X : Runner H ω) : Runner H.logged ω where
  next s c w := (X.next s.1 c w).map fun t => (t.1, (t.2.1, s.2 ++ [c]), t.2.2)
  sound := by
    intro s c w r s' w' h
    obtain ⟨t, ht, heq⟩ := Option.map_eq_some_iff.mp h
    obtain ⟨rfl, hs, rfl⟩ : t.1 = r ∧ (t.2.1, s.2 ++ [c]) = s' ∧ t.2.2 = w' := by
      simpa using heq
    subst hs
    exact ⟨X.sound ht, rfl⟩

/-- What is known about a program is known about its logged runs. -/
theorem Wp.logged {p : Prog C R ε α} {Q : α → S → Prop} {X : S → Prop} {s : S × List C}
    (h : Wp H p Q X s.1) : Wp H.logged p (fun a t => Q a t.1) (fun t => X t.1) s := by
  have hfst : ∀ (s : S × List C) (c : C) (r : R c) (s' : S × List C),
      H.logged.step s c r s' → H.step s.1 c r s'.1 := fun _ _ _ _ hstep => hstep.1
  exact Wp.simulate hfst h

/-- What holds of every command a program may send holds of its log. -/
theorem Prog.Issues.logged {P : C → Prop} {p : Prog C R ε α} (hp : p.Issues P) :
    Keeps H.logged (fun s => ∀ c ∈ s.2, P c) p := by
  refine hp.keeps ?_
  intro c hc s r s' hs hstep c' hc'
  rw [hstep.2] at hc'
  rcases List.mem_append.mp hc' with hc' | hc'
  · exact hs c' hc'
  · rw [List.mem_singleton.mp hc']
    exact hc

end ForwardProxy.Effect
