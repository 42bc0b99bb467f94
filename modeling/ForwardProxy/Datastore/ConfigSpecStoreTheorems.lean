/-
ForwardProxy.Datastore.ConfigSpecStoreTheorems — the served config and the
sinceTime of the next poll.

The next poll of a context asks for what is newer than the lcut of the
`SdkKeyStore`. Were the served config older than that, nothing would bring
the newer one. Any number of answers for one context run side by side
here, one map operation at a time.

An answer looks at the entry of the `ConfigSpecStore` and writes it in two
operations. A greater lcut that comes in between is overwritten
(`raisedSince`). A refused key is removed from the two stores in two
operations as well, and an answer that passes in between leaves its lcut
in the `SdkKeyStore` and loses its config (`onTheWay`). In a run that
keeps out of both windows (`orderly`) the served lcut goes back by a
removal only, and is not behind when no update is in progress.
-/
import ForwardProxy.Effect.Interleave
import ForwardProxy.Datastore.ConfigSpecStore

namespace ForwardProxy.Datastore

open Effect

/-! ## The stores at one context -/

/-- The sinceTime of the next poll. -/
def SpecStores.keyLcut (s : SpecStores) (rc : AuthorizedRequestContext) : Option Nat :=
  s.keys.getLcut rc

/-- The lcut that is served. -/
def SpecStores.specLcut (s : SpecStores) (rc : AuthorizedRequestContext) : Option Nat :=
  (s.specs.store rc).map fun record => record.lcut

@[simp]
theorem keyLcut_setSpec (s : SpecStores) (rc : AuthorizedRequestContext)
    (spec : Option ConfigSpecForCompany) : (s.setSpec rc spec).keyLcut rc = s.keyLcut rc := rfl

@[simp]
theorem specLcut_setSpec (s : SpecStores) (rc : AuthorizedRequestContext)
    (spec : Option ConfigSpecForCompany) :
    (s.setSpec rc spec).specLcut rc = spec.map fun record => record.lcut := by
  simp [SpecStores.specLcut, SpecStores.setSpec]

@[simp]
theorem keyLcut_insert (s : SpecStores) (rc : AuthorizedRequestContext) (lcut : Nat) :
    SpecStores.keyLcut ⟨s.keys.insert rc lcut, s.specs⟩ rc = some lcut := by
  simp [SpecStores.keyLcut, SdkKeyStore.getLcut, SdkKeyStore.insert]

@[simp]
theorem keyLcut_removeKey (s : SpecStores) (rc : AuthorizedRequestContext) :
    SpecStores.keyLcut ⟨s.keys.removeKey rc, s.specs⟩ rc = none := by
  simp [SpecStores.keyLcut, SdkKeyStore.getLcut, SdkKeyStore.removeKey]

/-! ## What an update does, one operation at a time -/

inductive UpdatePhase where
  | ready (result : DataProviderRequestResult) (lcut : Nat)
  /-- The key is missing or has a smaller lcut; it is written next. -/
  | keySeen (lcut : Nat)
  /-- The part of the `SdkKeyStore` is over. -/
  | specTurn (lcut : Nat)
  /-- The config is missing; it is inserted next. -/
  | unlisted (lcut : Nat)
  /-- There is a config; its lcut is read next. -/
  | listed (lcut : Nat)
  /-- The config has a smaller lcut; it is replaced next. -/
  | lower (lcut : Nat)
  /-- The key has been removed; the config is removed next. -/
  | revoked
  | done
  deriving DecidableEq

def updateProtocol (rc : AuthorizedRequestContext) :
    Protocol StoreCmd StoreCmd.Reply UpdatePhase where
  allows
    | .ready .dataAvailable _, c => c = .keyGet rc
    | .ready .error _, c => c = .specContains rc
    | .ready .unauthorized _, c => c = .keyRemove rc
    | .keySeen l, c => c = .keyInsert rc l
    | .specTurn _, c => c = .specContains rc
    | .unlisted l, c => ∃ config, c = .specInsert rc ⟨l, config⟩
    | .listed _, c => c = .specGet rc
    | .lower l, c => ∃ config, c = .specEntry rc ⟨l, config⟩
    | .revoked, c => c = .specRemove rc
    | _, _ => False
  next
    | .ready _ l, .keyGet _, held => if Option.elim held true (· < l) then .keySeen l else .specTurn l
    | .ready _ _, .keyRemove _, _ => .revoked
    | .keySeen l, .keyInsert _ _, _ => .specTurn l
    | .ready _ l, .specContains _, contained => bif contained then .listed l else .unlisted l
    | .specTurn l, .specContains _, contained => bif contained then .listed l else .unlisted l
    | .listed l, .specGet _, stored =>
      if l > (Option.map ConfigSpecForCompany.lcut stored).getD 0 then .lower l else .done
    | _, _, _ => .done

/-- An update that is not in progress. -/
def UpdatePhase.Resting (φ : UpdatePhase) : Prop :=
  φ = .done ∨ ∃ result l, φ = .ready result l

theorem next_specGet (rc : AuthorizedRequestContext) (l : Nat)
    (stored : Option ConfigSpecForCompany) :
    (updateProtocol rc).next (.listed l) (.specGet rc) stored =
      if l > (stored.map fun record => record.lcut).getD 0 then .lower l else .done := rfl

theorem next_keyGet (rc : AuthorizedRequestContext) (l : Nat) (held : Option Nat) :
    (updateProtocol rc).next (.ready .dataAvailable l) (.keyGet rc) held =
      if held.elim true (fun v => v < l) then .keySeen l else .specTurn l := rfl

theorem next_specContains (rc : AuthorizedRequestContext) {φ : UpdatePhase} {l : Nat}
    (hφ : φ = .ready .error l ∨ φ = .specTurn l) (contained : Bool) :
    (updateProtocol rc).next φ (.specContains rc) contained =
      bif contained then .listed l else .unlisted l := by
  rcases hφ with rfl | rfl
  · rfl
  · rfl

theorem specUpdate_follows (rc : AuthorizedRequestContext) (response : ResponseContext)
    (hresult : response.resultType = .error ∨ response.resultType = .dataAvailable)
    {φ : UpdatePhase} (hφ : φ = .ready .error response.lcut ∨ φ = .specTurn response.lcut) :
    (ConfigSpecStore.update rc response).Follows (updateProtocol rc) UpdatePhase.Resting φ := by
  unfold ConfigSpecStore.update
  rw [if_pos hresult]
  refine ⟨by rcases hφ with rfl | rfl <;> rfl, ?_⟩
  intro (contained : Bool)
  rw [next_specContains rc hφ contained]
  cases contained with
  | false => exact ⟨⟨response.body, rfl⟩, fun _ => .inl rfl⟩
  | true =>
    refine ⟨rfl, ?_⟩
    intro (stored : Option ConfigSpecForCompany)
    change Prog.Follows _ _ (if _ then _ else _)
      ((updateProtocol rc).next (.listed response.lcut) (.specGet rc) stored)
    rw [next_specGet]
    split
    · exact ⟨⟨response.body, rfl⟩, fun _ => .inl rfl⟩
    · exact .inl rfl

theorem notifyAll_follows (rc : AuthorizedRequestContext) (huse : rc.useLcut = true)
    (response : ResponseContext) :
    (notifyAll rc response).Follows (updateProtocol rc) UpdatePhase.Resting
      (.ready response.resultType response.lcut) := by
  unfold notifyAll SdkKeyStore.update
  cases hresult : response.resultType with
  | dataAvailable =>
    have hspec := specUpdate_follows rc response (.inr hresult) (.inr rfl)
    simp only [huse, Bool.not_true, Bool.false_eq_true, if_false]
    refine ⟨rfl, ?_⟩
    intro (held : Option Nat)
    rw [next_keyGet]
    by_cases hlower : held.elim true (fun v => decide (v < response.lcut)) = true
    · rw [if_pos hlower]
      change Prog.Follows _ _ (Prog.bind (if _ then _ else _) _) _
      rw [if_pos hlower]
      exact ⟨rfl, fun _ => hspec⟩
    · rw [if_neg hlower]
      change Prog.Follows _ _ (Prog.bind (if _ then _ else _) _) _
      rw [if_neg hlower]
      exact hspec
  | error => exact specUpdate_follows rc response (.inl hresult) (.inl rfl)
  | unauthorized =>
    refine ⟨rfl, ?_⟩
    intro _
    change Prog.Follows _ _ (ConfigSpecStore.update rc response) _
    simp only [ConfigSpecStore.update, hresult]
    exact ⟨rfl, fun _ => .inl rfl⟩
  | clientError =>
    change Prog.Follows _ _ (ConfigSpecStore.update rc response) _
    simp only [ConfigSpecStore.update, hresult]
    exact .inr ⟨_, _, rfl⟩
  | noDataAvailable =>
    change Prog.Follows _ _ (ConfigSpecStore.update rc response) _
    simp only [ConfigSpecStore.update, hresult]
    exact .inr ⟨_, _, rfl⟩

/-- One operation of an update: the lcuts of the two stores and the phase
before, and those after. -/
inductive Move (rc : AuthorizedRequestContext) : Option Nat → Option Nat → UpdatePhase → StoreCmd →
    UpdatePhase → Option Nat → Option Nat → Prop
  | keyLower {key spec : Option Nat} {l : Nat} :
      Move rc key spec (.ready .dataAvailable l) (.keyGet rc) (.keySeen l) key spec
  | keyKept {key spec : Option Nat} {l : Nat} :
      Move rc key spec (.ready .dataAvailable l) (.keyGet rc) (.specTurn l) key spec
  | keyInsert {key spec : Option Nat} {l : Nat} :
      Move rc key spec (.keySeen l) (.keyInsert rc l) (.specTurn l) (some l) spec
  | absent {key : Option Nat} {φ : UpdatePhase} {l : Nat}
      (hφ : φ = .ready .error l ∨ φ = .specTurn l) :
      Move rc key none φ (.specContains rc) (.unlisted l) key none
  | present {key spec : Option Nat} {φ : UpdatePhase} {l : Nat}
      (hφ : φ = .ready .error l ∨ φ = .specTurn l) :
      Move rc key spec φ (.specContains rc) (.listed l) key spec
  | insert {key spec : Option Nat} {l : Nat} {config : ResponsePayload} :
      Move rc key spec (.unlisted l) (.specInsert rc ⟨l, config⟩) .done key (some l)
  | stale {key spec : Option Nat} {l : Nat} (hlower : ∀ w, spec = some w → w < l) :
      Move rc key spec (.listed l) (.specGet rc) (.lower l) key spec
  | current {key spec : Option Nat} {l : Nat} (hkept : l = 0 ∨ ∃ w, spec = some w ∧ l ≤ w) :
      Move rc key spec (.listed l) (.specGet rc) .done key spec
  | replace {key spec : Option Nat} {l : Nat} {config : ResponsePayload} :
      Move rc key spec (.lower l) (.specEntry rc ⟨l, config⟩) .done key (some l)
  | revoke {key spec : Option Nat} {l : Nat} :
      Move rc key spec (.ready .unauthorized l) (.keyRemove rc) .revoked none spec
  | remove {key spec : Option Nat} :
      Move rc key spec .revoked (.specRemove rc) .done key none

theorem specLcut_eq_none {s : SpecStores} {rc : AuthorizedRequestContext}
    (h : (s.specs.store rc).isSome = false) : s.specLcut rc = none := by
  rw [Option.isSome_eq_false_iff, Option.isNone_iff_eq_none] at h
  rw [SpecStores.specLcut, h]
  rfl

/-- What the protocol allows and the stores answer is one of the moves. -/
theorem move_of_step {rc : AuthorizedRequestContext} {φ : UpdatePhase} {c : StoreCmd} {r : c.Reply}
    {s s' : SpecStores} (hallows : (updateProtocol rc).allows φ c)
    (hstep : specStores.step s c r s') :
    Move rc (s.keyLcut rc) (s.specLcut rc) φ c ((updateProtocol rc).next φ c r) (s'.keyLcut rc)
      (s'.specLcut rc) := by
  have hcontains : ∀ {φ : UpdatePhase} {l : Nat}, φ = .ready .error l ∨ φ = .specTurn l →
      ∀ contained : Bool, (s.specs.store rc).isSome = contained →
      Move rc (s.keyLcut rc) (s.specLcut rc) φ (.specContains rc)
        ((updateProtocol rc).next φ (.specContains rc) contained) (s.keyLcut rc)
        (s.specLcut rc) := by
    intro φ l hφ contained hcontained
    rw [next_specContains rc hφ]
    cases contained with
    | false =>
      rw [specLcut_eq_none hcontained]
      exact .absent hφ
    | true => exact .present hφ
  cases φ with
  | ready result l =>
    cases result with
    | dataAvailable =>
      obtain rfl := hallows
      obtain ⟨rfl, rfl⟩ := Prod.mk.inj hstep
      rw [next_keyGet]
      split
      · exact .keyLower
      · exact .keyKept
    | error =>
      obtain rfl := hallows
      obtain ⟨hr, rfl⟩ := Prod.mk.inj hstep
      exact hcontains (.inl rfl) r hr
    | unauthorized =>
      obtain rfl := hallows
      obtain ⟨_, rfl⟩ := Prod.mk.inj hstep
      rw [keyLcut_removeKey]
      exact .revoke
    | clientError => exact hallows.elim
    | noDataAvailable => exact hallows.elim
  | keySeen l =>
    obtain rfl := hallows
    obtain ⟨_, rfl⟩ := Prod.mk.inj hstep
    rw [keyLcut_insert]
    exact .keyInsert
  | specTurn l =>
    obtain rfl := hallows
    obtain ⟨hr, rfl⟩ := Prod.mk.inj hstep
    exact hcontains (.inr rfl) r hr
  | unlisted l =>
    obtain ⟨config, rfl⟩ := hallows
    obtain ⟨_, rfl⟩ := Prod.mk.inj hstep
    rw [keyLcut_setSpec, specLcut_setSpec]
    exact .insert
  | listed l =>
    obtain rfl := hallows
    obtain ⟨rfl, rfl⟩ := Prod.mk.inj hstep
    change Move rc _ _ _ _ ((updateProtocol rc).next (.listed l) (.specGet rc) (s.specs.store rc))
      (s.keyLcut rc) (s.specLcut rc)
    rw [next_specGet]
    split
    · rename_i hgt
      refine .stale ?_
      intro w hw
      rw [SpecStores.specLcut] at hw
      rw [hw] at hgt
      exact hgt
    · rename_i hle
      refine .current ?_
      cases hspec : s.specLcut rc with
      | none =>
        rw [SpecStores.specLcut] at hspec
        rw [hspec] at hle
        simp only [Option.getD_none] at hle
        exact .inl (by omega)
      | some w =>
        rw [SpecStores.specLcut] at hspec
        rw [hspec] at hle
        simp only [Option.getD_some] at hle
        exact .inr ⟨w, rfl, by omega⟩
  | lower l =>
    obtain ⟨config, rfl⟩ := hallows
    obtain ⟨_, rfl⟩ := Prod.mk.inj hstep
    rw [keyLcut_setSpec, specLcut_setSpec]
    exact .replace
  | revoked =>
    obtain rfl := hallows
    obtain ⟨_, rfl⟩ := Prod.mk.inj hstep
    rw [keyLcut_setSpec, specLcut_setSpec]
    exact .remove
  | done => exact hallows.elim

/-! ## Windows -/

/-- A greater lcut has been written to the config since the last operation
of this update, and the config has not been removed again. -/
def raisedSince (i lcut : Nat) : List (Nat × StoreCmd) → Bool
  | [] => false
  | (j, c) :: log =>
    if j = i then false
    else
      match c with
      | .specInsert _ spec | .specEntry _ spec => lcut < spec.lcut || raisedSince i lcut log
      | .specRemove _ => false
      | _ => raisedSince i lcut log

/-- The `SdkKeyStore` holds the context. -/
def keyHeld : List (Nat × StoreCmd) → Bool
  | [] => false
  | (_, .keyInsert _ _) :: _ => true
  | (_, .keyRemove _) :: _ => false
  | _ :: log => keyHeld log

/-- The update that put in the lcut of the `SdkKeyStore`, as long as it has
neither read the lcut of the config nor written it. -/
def onTheWay : List (Nat × StoreCmd) → Option Nat
  | [] => none
  | (i, .keyInsert _ _) :: _ => some i
  | (_, .keyRemove _) :: _ => none
  | (i, .specGet _) :: log | (i, .specInsert _ _) :: log | (i, .specEntry _ _) :: log =>
    if onTheWay log = some i then none else onTheWay log
  | _ :: log => onTheWay log

/-- A config is written only where no greater lcut has come in between, and
removed only where the `SdkKeyStore` does not hold the context or the update
that put it there is on its way. -/
def orderly (log : List (Nat × StoreCmd)) (i : Nat) : StoreCmd → Bool
  | .specInsert _ spec | .specEntry _ spec => !raisedSince i spec.lcut log
  | .specRemove _ => !keyHeld log || (onTheWay log).isSome
  | _ => true

/-! ## The invariant -/

/-- The update will find a config of its lcut or a greater one, or write its
own. -/
inductive UpdatePhase.Bringing (l : Nat) : UpdatePhase → Prop
  | specTurn : Bringing l (.specTurn l)
  | unlisted : Bringing l (.unlisted l)
  | listed : Bringing l (.listed l)
  | lower : Bringing l (.lower l)

structure Orderly (responses : Nat → ResponseContext) (φ : Nat → UpdatePhase)
    (key spec : Option Nat) (log : List (Nat × StoreCmd)) : Prop where
  fresh : ∀ i, i ∉ log.map Prod.fst → ∃ result l, φ i = .ready result l
  result : ∀ i result l, φ i = .ready result l → result = (responses i).resultType
  revoked : ∀ i, φ i = .revoked → (responses i).resultType = .unauthorized
  unraised : ∀ i l, φ i = .unlisted l ∨ φ i = .lower l → raisedSince i l log = false →
    ∀ w, spec = some w → w ≤ l
  held : keyHeld log = key.isSome
  onWay : ∀ j, onTheWay log = some j → ∃ l, (φ j).Bringing l ∧ key = some l
  caughtUp : ∀ v, key = some v →
    v = 0 ∨ (∃ w, spec = some w ∧ v ≤ w) ∨ ∃ j l, (φ j).Bringing l ∧ v ≤ l

section Step

variable {rc : AuthorizedRequestContext} {responses : Nat → ResponseContext}
  {φ : Nat → UpdatePhase} {key spec key' spec' : Option Nat} {log : List (Nat × StoreCmd)}
  {i : Nat} {c : StoreCmd} {next : UpdatePhase}

/-- What an operation does to the served lcut: nothing, or the update writes
its own, or it is the removal of a refused key. -/
theorem Move.spec_cases (log : List (Nat × StoreCmd))
    (hmove : Move rc key spec (φ i) c next key' spec') :
    spec' = spec ∧ (∀ j l, j ≠ i → raisedSince j l ((i, c) :: log) = raisedSince j l log) ∨
      (∃ l config, (φ i = .unlisted l ∧ c = .specInsert rc ⟨l, config⟩ ∨
        φ i = .lower l ∧ c = .specEntry rc ⟨l, config⟩) ∧ next = .done ∧ key' = key ∧
        spec' = some l) ∨
      φ i = .revoked ∧ c = .specRemove rc ∧ next = .done ∧ key' = key ∧ spec' = none := by
  generalize hφ : φ i = before at hmove
  cases hmove with
  | keyLower => exact .inl ⟨rfl, fun j l hj => by simp [raisedSince, hj.symm]⟩
  | keyKept => exact .inl ⟨rfl, fun j l hj => by simp [raisedSince, hj.symm]⟩
  | keyInsert => exact .inl ⟨rfl, fun j l hj => by simp [raisedSince, hj.symm]⟩
  | absent => exact .inl ⟨rfl, fun j l hj => by simp [raisedSince, hj.symm]⟩
  | present => exact .inl ⟨rfl, fun j l hj => by simp [raisedSince, hj.symm]⟩
  | insert => exact .inr (.inl ⟨_, _, .inl ⟨rfl, rfl⟩, rfl, rfl, rfl⟩)
  | stale => exact .inl ⟨rfl, fun j l hj => by simp [raisedSince, hj.symm]⟩
  | current => exact .inl ⟨rfl, fun j l hj => by simp [raisedSince, hj.symm]⟩
  | replace => exact .inr (.inl ⟨_, _, .inr ⟨rfl, rfl⟩, rfl, rfl, rfl⟩)
  | revoke => exact .inl ⟨rfl, fun j l hj => by simp [raisedSince, hj.symm]⟩
  | remove => exact .inr (.inr ⟨rfl, rfl, rfl, rfl, rfl⟩)

/-- An allowed write is of the greatest lcut so far. -/
theorem Orderly.write_le (h : Orderly responses φ key spec log) {l : Nat} {config : ResponsePayload}
    (hwrite : φ i = .unlisted l ∧ c = .specInsert rc ⟨l, config⟩ ∨
      φ i = .lower l ∧ c = .specEntry rc ⟨l, config⟩)
    (hguard : orderly log i c = true) : ∀ w, spec = some w → w ≤ l := by
  have hphase : φ i = .unlisted l ∨ φ i = .lower l := hwrite.imp And.left And.left
  have hraised : raisedSince i l log = false := by
    rcases hwrite with ⟨_, rfl⟩ | ⟨_, rfl⟩
    · simpa [orderly] using hguard
    · simpa [orderly] using hguard
  exact h.unraised i l hphase hraised

theorem unraised_move (h : Orderly responses φ key spec log)
    (hmove : Move rc key spec (φ i) c next key' spec') :
    ∀ j l, Function.update φ i next j = .unlisted l ∨ Function.update φ i next j = .lower l →
      raisedSince j l ((i, c) :: log) = false → ∀ w, spec' = some w → w ≤ l := by
  intro j l hphase hraised w hw
  by_cases hj : j = i
  · -- this update has just looked at the config
    subst hj
    rw [Function.update_self] at hphase
    generalize φ j = before at hmove
    cases hmove with
    | absent => simp at hw
    | stale hlower =>
      obtain rfl : _ = l := by simpa using hphase
      exact (hlower w hw).le
    | _ => simp at hphase
  · rw [Function.update_of_ne hj] at hphase
    rcases hmove.spec_cases log with ⟨rfl, hquiet⟩ | ⟨l', config, hwrite, _, _, rfl⟩ | ⟨_, _, _, _, rfl⟩
    · rw [hquiet j l hj] at hraised
      exact h.unraised j l hphase hraised w hw
    · obtain rfl := Option.some.inj hw
      have hlt : decide (l < l') = false := by
        rcases hwrite with ⟨_, rfl⟩ | ⟨_, rfl⟩
        · simp only [raisedSince, Ne.symm hj, if_false, Bool.or_eq_false_iff] at hraised
          exact hraised.1
        · simp only [raisedSince, Ne.symm hj, if_false, Bool.or_eq_false_iff] at hraised
          exact hraised.1
      simpa using hlt
    · simp at hw

theorem held_move (h : Orderly responses φ key spec log)
    (hmove : Move rc key spec (φ i) c next key' spec') :
    keyHeld ((i, c) :: log) = key'.isSome := by
  have hheld := h.held
  generalize φ i = before at hmove
  cases hmove with
  | keyInsert => rfl
  | revoke => rfl
  | _ => simpa [keyHeld] using hheld

theorem bringing_move {before : UpdatePhase} (hmove : Move rc key spec before c next key' spec')
    {l : Nat} (h : before.Bringing l) :
    next.Bringing l ∨ next = .done ∧ key' = key ∧
      (c = .specGet rc ∧ spec' = spec ∧ (l = 0 ∨ ∃ w, spec = some w ∧ l ≤ w) ∨
        spec' = some l ∧ ∃ config, c = .specInsert rc ⟨l, config⟩ ∨ c = .specEntry rc ⟨l, config⟩) := by
  cases h with
  | specTurn =>
    cases hmove with
    | absent hφ =>
      obtain rfl : l = _ := by simpa using hφ
      exact .inl .unlisted
    | present hφ =>
      obtain rfl : l = _ := by simpa using hφ
      exact .inl .listed
  | unlisted =>
    cases hmove with
    | absent hφ => simp at hφ
    | present hφ => simp at hφ
    | insert => exact .inr ⟨rfl, rfl, .inr ⟨rfl, _, .inl rfl⟩⟩
  | listed =>
    cases hmove with
    | absent hφ => simp at hφ
    | present hφ => simp at hφ
    | stale => exact .inl .lower
    | current hkept => exact .inr ⟨rfl, rfl, .inl ⟨rfl, rfl, hkept⟩⟩
  | lower =>
    cases hmove with
    | absent hφ => simp at hφ
    | present hφ => simp at hφ
    | replace => exact .inr ⟨rfl, rfl, .inr ⟨rfl, _, .inr rfl⟩⟩

theorem onWay_move (h : Orderly responses φ key spec log)
    (hmove : Move rc key spec (φ i) c next key' spec') :
    ∀ j, onTheWay ((i, c) :: log) = some j →
      ∃ l, (Function.update φ i next j).Bringing l ∧ key' = some l := by
  intro j hj
  -- an update that stays on the way while another one, or itself, moves
  have hkeep : onTheWay log = some j → key' = key →
      (j = i → ∀ l, (φ i).Bringing l → next.Bringing l) →
      ∃ l, (Function.update φ i next j).Bringing l ∧ key' = some l := by
    intro hway hkey hself
    obtain ⟨l, hbringing, hl⟩ := h.onWay j hway
    refine ⟨l, ?_, hkey.trans hl⟩
    by_cases hji : j = i
    · subst hji
      rw [Function.update_self]
      exact hself rfl l hbringing
    · rw [Function.update_of_ne hji]
      exact hbringing
  -- the mover reads or writes the config, so it is no longer counted
  have hother : (if onTheWay log = some i then none else onTheWay log) = some j → key' = key →
      ∃ l, (Function.update φ i next j).Bringing l ∧ key' = some l := by
    intro hway hkey
    split at hway
    · simp at hway
    · rename_i hne
      exact hkeep hway hkey fun hji => absurd (hji ▸ hway) hne
  have hnext : next ≠ .done → ∀ l, (φ i).Bringing l → next.Bringing l := by
    intro hdone l hl
    rcases bringing_move hmove hl with hnext | ⟨hnext, _⟩
    · exact hnext
    · exact absurd hnext hdone
  generalize φ i = before at hmove hkeep hnext
  cases hmove with
  | keyInsert =>
    obtain rfl : i = j := by simpa [onTheWay] using hj
    exact ⟨_, by rw [Function.update_self]; exact .specTurn, rfl⟩
  | revoke => simp [onTheWay] at hj
  | insert => exact hother (by simpa [onTheWay] using hj) rfl
  | stale => exact hother (by simpa [onTheWay] using hj) rfl
  | current => exact hother (by simpa [onTheWay] using hj) rfl
  | replace => exact hother (by simpa [onTheWay] using hj) rfl
  | absent => exact hkeep (by simpa [onTheWay] using hj) rfl fun _ => hnext (by simp)
  | present => exact hkeep (by simpa [onTheWay] using hj) rfl fun _ => hnext (by simp)
  | keyLower => exact hkeep (by simpa [onTheWay] using hj) rfl fun _ l hl => by cases hl
  | keyKept => exact hkeep (by simpa [onTheWay] using hj) rfl fun _ l hl => by cases hl
  | remove => exact hkeep (by simpa [onTheWay] using hj) rfl fun _ l hl => by cases hl

theorem caughtUp_move (h : Orderly responses φ key spec log)
    (hmove : Move rc key spec (φ i) c next key' spec') (hguard : orderly log i c = true) :
    ∀ v, key' = some v → v = 0 ∨ (∃ w, spec' = some w ∧ v ≤ w) ∨
      ∃ j l, (Function.update φ i next j).Bringing l ∧ v ≤ l := by
  intro v hv
  -- an update that brings `v` still does after the move of another one
  have hother : ∀ j l, j ≠ i → (φ j).Bringing l → v ≤ l →
      ∃ j l, (Function.update φ i next j).Bringing l ∧ v ≤ l := by
    intro j l hj hl hvl
    exact ⟨j, l, by rw [Function.update_of_ne hj]; exact hl, hvl⟩
  by_cases hkey : key' = key
  · subst hkey
    rcases hmove.spec_cases log with ⟨rfl, _⟩ | ⟨l', config, hwrite, _, _, rfl⟩ |
      ⟨hrevoked, rfl, _, _, rfl⟩
    · -- the config is as before
      rcases h.caughtUp v hv with hzero | hspec | ⟨j, l, hl, hvl⟩
      · exact .inl hzero
      · exact .inr (.inl hspec)
      · by_cases hj : j = i
        · subst hj
          rcases bringing_move hmove hl with hnext | ⟨_, _, hread | ⟨hw, _⟩⟩
          · exact .inr (.inr ⟨j, l, by rw [Function.update_self]; exact hnext, hvl⟩)
          · rcases hread.2.2 with hzero | ⟨w, hw, hlw⟩
            · exact .inl (by omega)
            · exact .inr (.inl ⟨w, hw, hvl.trans hlw⟩)
          · exact .inr (.inl ⟨l, hw, hvl⟩)
        · exact .inr (.inr (hother j l hj hl hvl))
    · -- the config is written, with the greatest lcut so far
      have hle := h.write_le hwrite hguard
      rcases h.caughtUp v hv with hzero | ⟨w, hw, hvw⟩ | ⟨j, l, hl, hvl⟩
      · exact .inl hzero
      · exact .inr (.inl ⟨l', rfl, hvw.trans (hle w hw)⟩)
      · by_cases hj : j = i
        · subst hj
          have hll : l = l' := by
            rcases hwrite with ⟨hφ, _⟩ | ⟨hφ, _⟩
            · rw [hφ] at hl
              cases hl
              rfl
            · rw [hφ] at hl
              cases hl
              rfl
          exact .inr (.inl ⟨l', rfl, hll ▸ hvl⟩)
        · exact .inr (.inr (hother j l hj hl hvl))
    · -- the config is removed while the update that brings it is on its way
      have hheld : keyHeld log = true := by
        rw [h.held, hv]
        rfl
      have hway : (onTheWay log).isSome = true := by simpa [orderly, hheld] using hguard
      obtain ⟨j, hj⟩ := Option.isSome_iff_exists.mp hway
      obtain ⟨l, hl, hkl⟩ := h.onWay j hj
      have hji : j ≠ i := by
        intro hji
        subst hji
        rw [hrevoked] at hl
        cases hl
      have hvl : v ≤ l := by
        rw [hv] at hkl
        exact (Option.some.inj hkl).le
      exact .inr (.inr (hother j l hji hl hvl))
  · -- the key is written, by an update that goes on to the config
    generalize φ i = before at hmove
    cases hmove with
    | keyInsert =>
      obtain rfl := Option.some.inj hv
      exact .inr (.inr ⟨i, _, by rw [Function.update_self]; exact .specTurn, le_rfl⟩)
    | revoke => simp at hv
    | _ => exact absurd rfl hkey

theorem orderly_move (h : Orderly responses φ key spec log)
    (hmove : Move rc key spec (φ i) c next key' spec') (hguard : orderly log i c = true) :
    Orderly responses (Function.update φ i next) key' spec' ((i, c) :: log) where
  fresh := by
    intro j hj
    simp only [List.map_cons, List.mem_cons, not_or] at hj
    rw [Function.update_of_ne hj.1]
    exact h.fresh j hj.2
  result := by
    intro j result l hφ
    by_cases hj : j = i
    · subst hj
      rw [Function.update_self] at hφ
      subst hφ
      generalize φ j = before at hmove
      cases hmove
    · rw [Function.update_of_ne hj] at hφ
      exact h.result j result l hφ
  revoked := by
    intro j hφ
    by_cases hj : j = i
    · subst hj
      rw [Function.update_self] at hφ
      subst hφ
      generalize hbefore : φ j = before at hmove
      cases hmove with
      | revoke => exact (h.result j _ _ hbefore).symm
    · rw [Function.update_of_ne hj] at hφ
      exact h.revoked j hφ
  unraised := unraised_move h hmove
  held := held_move h hmove
  onWay := onWay_move h hmove
  caughtUp := caughtUp_move h hmove hguard

end Step

/-! ## Runs -/

/-- The answers for one context, and what is left of their updates. -/
abbrev UpdatePool : Type := Pool StoreCmd StoreCmd.Reply Empty SpecStores Nat fun _ => Unit

def UpdatePool.start (rc : AuthorizedRequestContext) (responses : Nat → ResponseContext) :
    UpdatePool :=
  ⟨SpecStores.new, fun i => notifyAll rc (responses i), []⟩

/-- No update is in progress: each has ended or has not begun. -/
def UpdatePool.Quiescent (pool : UpdatePool) : Prop :=
  ∀ i, pool.threads i = .pure () ∨ i ∉ pool.log.map Prod.fst

/-- The served lcut goes back by the removal of a refused key only, and is
not behind the sinceTime of the next poll while no update is in progress. -/
structure ServedInStep (rc : AuthorizedRequestContext) (responses : Nat → ResponseContext)
    (guard : List (Nat × StoreCmd) → Nat → StoreCmd → Bool) (pool : UpdatePool) : Prop where
  kept : ∀ pool', Pool.Step specStores guard pool pool' → ∀ w, pool.state.specLcut rc = some w →
    (∃ w', pool'.state.specLcut rc = some w' ∧ w ≤ w') ∨
      ∃ i, pool'.log = (i, .specRemove rc) :: pool.log ∧
        (responses i).resultType = .unauthorized
  caughtUp : pool.Quiescent → ∀ v w, pool.state.keyLcut rc = some v →
    pool.state.specLcut rc = some w → v ≤ w

theorem orderly_start (rc : AuthorizedRequestContext) (responses : Nat → ResponseContext) :
    Orderly responses (fun i => .ready (responses i).resultType (responses i).lcut)
      (SpecStores.new.keyLcut rc) (SpecStores.new.specLcut rc) [] where
  fresh := fun i _ => ⟨_, _, rfl⟩
  result := by
    intro i result l h
    exact (UpdatePhase.ready.inj h).1.symm
  revoked := by simp
  unraised := by simp
  held := rfl
  onWay := by simp [onTheWay]
  caughtUp := by simp [SpecStores.new, SpecStores.keyLcut, SdkKeyStore.getLcut, SdkKeyStore.new]

/-- **The served config keeps up** with the sinceTime of the next poll, in
every run whose writes and removals are orderly. -/
theorem served_in_step {rc : AuthorizedRequestContext} (huse : rc.useLcut = true)
    {responses : Nat → ResponseContext} {pool : UpdatePool}
    (hrun : Relation.ReflTransGen (Pool.Step specStores orderly) (UpdatePool.start rc responses)
      pool) : ServedInStep rc responses orderly pool := by
  obtain ⟨φ, hfollow, horderly⟩ := Pool.invariant
    (I := fun φ s log => Orderly responses φ (s.keyLcut rc) (s.specLcut rc) log)
    (fun i => notifyAll_follows rc huse (responses i)) (orderly_start rc responses)
    (fun φ s log i c r s' h hallows hguard hstep =>
      orderly_move h (move_of_step hallows hstep) hguard) hrun
  constructor
  · intro pool' hstep w hw
    cases hstep with
    | @turn s s' threads log i c k r hthread hguard hcmd =>
      have hallows : (updateProtocol rc).allows (φ i) c := by
        have hi : (threads i).Follows (updateProtocol rc) UpdatePhase.Resting (φ i) := hfollow i
        rw [hthread] at hi
        exact hi.1
      rcases (move_of_step hallows hcmd).spec_cases log with
        ⟨hsame, _⟩ | ⟨l, config, hwrite, _, _, hl⟩ | ⟨hrevoked, rfl, _⟩
      · exact .inl ⟨w, hsame.trans hw, le_rfl⟩
      · exact .inl ⟨l, hl, horderly.write_le hwrite hguard w hw⟩
      · exact .inr ⟨i, rfl, horderly.revoked i hrevoked⟩
  · intro hquiescent v w hv hw
    rcases horderly.caughtUp v hv with hzero | ⟨w', hw', hvw⟩ | ⟨j, l, hl, _⟩
    · omega
    · rw [hw] at hw'
      exact hvw.trans (Option.some.inj hw').ge
    · -- an update that is still to bring its config is in progress
      have hresting : (φ j).Resting := by
        rcases hquiescent j with hpure | hnew
        · have hj := hfollow j
          rw [hpure] at hj
          exact hj
        · exact .inr (horderly.fresh j hnew)
      rcases hresting with hdone | ⟨result, l', hready⟩
      · rw [hdone] at hl
        cases hl
      · rw [hready] at hl
        cases hl

/-! ## Two runs -/

def specClient : AuthorizedRequestContext :=
  AuthorizedRequestContext.new "secret-key" .v2DownloadConfigSpecs []

/-- Data with the lcut, and an empty config. -/
def specAnswer (lcut : Nat) : ResponseContext :=
  ⟨.dataAvailable, lcut, 0, ⟨false, .plainText, []⟩⟩

def specRefusal : ResponseContext := ⟨.unauthorized, 0, 0, ⟨false, .plainText, []⟩⟩

/-- The first answers, and any others. -/
def answers (first : List ResponseContext) (i : Nat) : ResponseContext :=
  first.getD i (specAnswer 0)

def ended : Prog StoreCmd StoreCmd.Reply Empty Unit → Bool
  | .pure _ => true
  | _ => false

/-- The two lcuts after a schedule, and whether the updates of the first
answers have ended and no other one has begun. -/
def afterTurns (guard : List (Nat × StoreCmd) → Nat → StoreCmd → Bool)
    (first : List ResponseContext) (schedule : List Nat) : Option (Option Nat × Option Nat × Bool) :=
  (specStoresRunner.turns guard schedule (UpdatePool.start specClient (answers first)) ()).map
    fun t => (t.1.state.keyLcut specClient, t.1.state.specLcut specClient,
      (List.range first.length).all (fun i => ended (t.1.threads i)) &&
        t.1.log.all fun e => e.1 < first.length)

theorem exists_of_turns {guard : List (Nat × StoreCmd) → Nat → StoreCmd → Bool}
    {first : List ResponseContext} {schedule : List Nat} {key spec : Option Nat}
    (h : afterTurns guard first schedule = some (key, spec, true)) :
    ∃ pool : UpdatePool,
      Relation.ReflTransGen (Pool.Step specStores guard)
        (UpdatePool.start specClient (answers first)) pool ∧
      pool.Quiescent ∧ pool.state.keyLcut specClient = key ∧
      pool.state.specLcut specClient = spec := by
  obtain ⟨⟨pool, w⟩, hturns, hpool⟩ := Option.map_eq_some_iff.mp h
  simp only [Prod.mk.injEq, Bool.and_eq_true, List.all_eq_true, decide_eq_true_eq] at hpool
  obtain ⟨hkey, hspec, hfirst, hlog⟩ := hpool
  have hended : ∀ p : StoreProg Unit, ended p = true → p = .pure () := by
    intro p hp
    cases p with
    | pure a => rfl
    | throw e => exact e.elim
    | call c k => simp [ended] at hp
  refine ⟨pool, specStoresRunner.turns_sound hturns, ?_, hkey, hspec⟩
  intro i
  by_cases hi : i < first.length
  · exact .inl (hended _ (hfirst i (List.mem_range.mpr hi)))
  · right
    intro hmem
    obtain ⟨e, he, rfl⟩ := List.mem_map.mp hmem
    exact hi (hlog e he)

/-- Three answers side by side: a config, a refusal and a newer config. The
refused key is removed between the look and the write of the first, and the
config while the last is on its way. -/
theorem served_in_step_overlapping :
    ∃ pool : UpdatePool,
      Relation.ReflTransGen (Pool.Step specStores orderly)
        (UpdatePool.start specClient (answers [specAnswer 10, specRefusal, specAnswer 20])) pool ∧
      pool.Quiescent ∧ pool.state.keyLcut specClient = some 20 ∧
      pool.state.specLcut specClient = some 20 ∧
      ServedInStep specClient (answers [specAnswer 10, specRefusal, specAnswer 20]) orderly pool := by
  have hturns : afterTurns orderly [specAnswer 10, specRefusal, specAnswer 20]
      [0, 0, 0, 1, 0, 2, 2, 1, 2, 2] = some (some 20, some 20, true) := by decide +kernel
  obtain ⟨pool, hrun, hquiescent, hkey, hspec⟩ := exists_of_turns hturns
  exact ⟨pool, hrun, hquiescent, hkey, hspec, served_in_step (by decide) hrun⟩

/-- Both updates find no config; the one with the smaller lcut inserts last.
The next poll asks for what is newer than 20, and 10 is served. -/
theorem served_behind_after_race :
    ¬ ∀ (rc : AuthorizedRequestContext) (responses : Nat → ResponseContext) (pool : UpdatePool),
      rc.useLcut = true →
      Relation.ReflTransGen (Pool.Step specStores fun _ _ _ => true)
        (UpdatePool.start rc responses) pool →
      ServedInStep rc responses (fun _ _ _ => true) pool := by
  intro hall
  have hturns : afterTurns (fun _ _ _ => true) [specAnswer 20, specAnswer 10]
      [0, 0, 1, 0, 1, 0, 1] = some (some 20, some 10, true) := by decide +kernel
  obtain ⟨pool, hrun, hquiescent, hkey, hspec⟩ := exists_of_turns hturns
  have hle := (hall specClient (answers [specAnswer 20, specAnswer 10]) pool (by decide)
    hrun).caughtUp hquiescent 20 10 hkey hspec
  omega

end ForwardProxy.Datastore
