/-
ForwardProxy.Datastore.SdkKeyStore — the contexts that are polled, each
with the lcut its next poll sends as sinceTime (`sdk_key_store.rs`).

Every operation here holds the lock of the map for its whole body, so it
is one step wherever it is used. The observer's `update` takes the lock
twice and is a program over these operations.
-/
import Mathlib.Logic.Function.Basic
import ForwardProxy.Datastore.RequestContext

namespace ForwardProxy.Datastore

structure SdkKeyStore where
  keystore : AuthorizedRequestContext → Option Nat

namespace SdkKeyStore

def new : SdkKeyStore := ⟨fun _ => none⟩

variable (keys : SdkKeyStore) (rc : AuthorizedRequestContext)

def getLcut : Option Nat := keys.keystore rc

def hasKey : Bool := (keys.keystore rc).isSome

/-- `keystore.write().insert`. -/
def insert (lcut : Nat) : SdkKeyStore := ⟨Function.update keys.keystore rc (some lcut)⟩

/-- The lcut of a key never decreases here. -/
def upsert (lcut : Nat) : SdkKeyStore :=
  match keys.keystore rc with
  | some current => if lcut > current then keys.insert rc lcut else keys
  | none => keys.insert rc lcut

def removeKey : SdkKeyStore := ⟨Function.update keys.keystore rc none⟩

end SdkKeyStore

end ForwardProxy.Datastore
