/-
ForwardProxy.Datastore.ConfigSpecStore — the configs that are served, and
how an answer of the data provider reaches the stores
(`config_spec_store.rs`, `sdk_key_store.rs`,
`http_data_provider_observer.rs`).

Both stores are observers of the config-spec loop, the `SdkKeyStore` first.
The notifier waits for each of them, and neither waits for anything inside
its `update`, so one answer is one program over the two maps: first the
part of the `SdkKeyStore`, then that of the `ConfigSpecStore`. Each map
operation takes the lock of its map for itself. Other answers may come in
between any two of them.

The observers after these two write to neither map.
-/
import ForwardProxy.Datastore.SdkKeyStore
import ForwardProxy.Effect.Prog

namespace ForwardProxy.Datastore

open Effect

structure ConfigSpecForCompany where
  lcut : Nat
  config : ResponsePayload
  deriving DecidableEq, Repr

structure ConfigSpecStore where
  store : AuthorizedRequestContext → Option ConfigSpecForCompany

structure SpecStores where
  keys : SdkKeyStore
  specs : ConfigSpecStore

def SpecStores.new : SpecStores := ⟨SdkKeyStore.new, ⟨fun _ => none⟩⟩

/-! ## Map operations -/

inductive StoreCmd where
  /-- `keystore.read().get`. -/
  | keyGet (rc : AuthorizedRequestContext)
  | keyInsert (rc : AuthorizedRequestContext) (lcut : Nat)
  | keyRemove (rc : AuthorizedRequestContext)
  | specContains (rc : AuthorizedRequestContext)
  | specGet (rc : AuthorizedRequestContext)
  | specInsert (rc : AuthorizedRequestContext) (spec : ConfigSpecForCompany)
  /-- `entry(..).and_modify(..).or_insert(..)`. -/
  | specEntry (rc : AuthorizedRequestContext) (spec : ConfigSpecForCompany)
  | specRemove (rc : AuthorizedRequestContext)
  deriving DecidableEq, Repr

def StoreCmd.Reply : StoreCmd → Type
  | .keyGet _ => Option Nat
  | .specContains _ => Bool
  | .specGet _ => Option ConfigSpecForCompany
  | _ => Unit

namespace SpecStores

variable (s : SpecStores)

/-- Put a config, whether or not there is one. -/
def setSpec (rc : AuthorizedRequestContext) (spec : Option ConfigSpecForCompany) : SpecStores :=
  { s with specs := ⟨Function.update s.specs.store rc spec⟩ }

def exec : (c : StoreCmd) → c.Reply × SpecStores
  | .keyGet rc => (s.keys.getLcut rc, s)
  | .keyInsert rc lcut => ((), { s with keys := s.keys.insert rc lcut })
  | .keyRemove rc => ((), { s with keys := s.keys.removeKey rc })
  | .specContains rc => ((s.specs.store rc).isSome, s)
  | .specGet rc => (s.specs.store rc, s)
  | .specInsert rc spec => ((), s.setSpec rc (some spec))
  | .specEntry rc spec => ((), s.setSpec rc (some spec))
  | .specRemove rc => ((), s.setSpec rc none)

end SpecStores

def specStores : Handler StoreCmd StoreCmd.Reply SpecStores where
  step s c r s' := s.exec c = (r, s')

/-- There is nothing to choose in a run: the schedule decides. -/
def specStoresRunner : Runner specStores Unit where
  next s c w := some ((s.exec c).1, (s.exec c).2, w)
  sound := by
    intro s c w r s' w' h
    simp only [Option.some.injEq, Prod.mk.injEq] at h
    obtain ⟨rfl, rfl, _⟩ := h
    rfl

/-! ## The observers -/

abbrev StoreProg (α : Type) : Type := Prog StoreCmd StoreCmd.Reply Empty α

def keyGet (rc : AuthorizedRequestContext) : StoreProg (Option Nat) :=
  Prog.cmd (StoreCmd.keyGet rc)

def specContains (rc : AuthorizedRequestContext) : StoreProg Bool :=
  Prog.cmd (StoreCmd.specContains rc)

def specGet (rc : AuthorizedRequestContext) : StoreProg (Option ConfigSpecForCompany) :=
  Prog.cmd (StoreCmd.specGet rc)

def keyInsert (rc : AuthorizedRequestContext) (lcut : Nat) : StoreProg Unit :=
  Prog.cmd (StoreCmd.keyInsert rc lcut)

def keyRemove (rc : AuthorizedRequestContext) : StoreProg Unit :=
  Prog.cmd (StoreCmd.keyRemove rc)

def specInsert (rc : AuthorizedRequestContext) (spec : ConfigSpecForCompany) : StoreProg Unit :=
  Prog.cmd (StoreCmd.specInsert rc spec)

def specEntry (rc : AuthorizedRequestContext) (spec : ConfigSpecForCompany) : StoreProg Unit :=
  Prog.cmd (StoreCmd.specEntry rc spec)

def specRemove (rc : AuthorizedRequestContext) : StoreProg Unit :=
  Prog.cmd (StoreCmd.specRemove rc)

def SdkKeyStore.update (rc : AuthorizedRequestContext) (response : ResponseContext) :
    StoreProg Unit :=
  match response.resultType with
  | .dataAvailable =>
    if !rc.useLcut then keyInsert rc response.lcut
    else do
      let held ← keyGet rc
      if held.elim true (fun v => v < response.lcut) then keyInsert rc response.lcut
      else Prog.pure ()
  | .unauthorized => keyRemove rc
  | _ => Prog.pure ()

def ConfigSpecStore.update (rc : AuthorizedRequestContext) (response : ResponseContext) :
    StoreProg Unit :=
  if response.resultType = .error ∨ response.resultType = .dataAvailable then do
    let contained ← specContains rc
    if !contained then specInsert rc ⟨response.lcut, response.body⟩
    else do
      let stored ← specGet rc
      let storedLcut := (stored.map fun record => record.lcut).getD 0
      if response.lcut > storedLcut then specEntry rc ⟨response.lcut, response.body⟩
      else Prog.pure ()
  else if response.resultType = .unauthorized then specRemove rc
  else Prog.pure ()

/-- `notify_all`, as far as it concerns the two stores. -/
def notifyAll (rc : AuthorizedRequestContext) (response : ResponseContext) : StoreProg Unit := do
  SdkKeyStore.update rc response
  ConfigSpecStore.update rc response

end ForwardProxy.Datastore
