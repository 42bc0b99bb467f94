/-
ForwardProxy.IdList.ReverseToken — clearing a token from the member sets of
a company (`clear_reverse_token` of `worker/streamed_diff.rs`), on the keys
of Redis themselves.

`Worker.lean` has the same operation on the member sets of a company
(`clearReverseToken_simulates` relates the two). Here Redis is a keyspace:
byte strings, each with a set or a value of another type. The operation
knows only a pattern. It SCANs with it, page by page, and sends an SREM for
every key of a page, in pipelines of `pipeline_batch_size`. A pipeline is
sent as a whole, so an SREM that hits a key of the wrong type fails the
operation after its pipeline.

Other clients write between any two commands. They do not add the token to
a member set of the company: it is the token of a list whose claim the
worker holds.

What SCAN promises is kept in `owed`, which no command reads: the keys that
matched at the start, have been there since, and have not been returned. A
reply with cursor 0 ends the iteration and must return what is owed.
-/
import Mathlib.Data.Finset.Basic
import Mathlib.Logic.Function.Basic
import Mathlib.Logic.Relation
import ForwardProxy.IdList.KeySchema
import ForwardProxy.IdList.Worker
import ForwardProxy.Text.Glob

namespace ForwardProxy.IdList

open Text

/-! ## Redis -/

abbrev RedisKey := List UInt8

inductive RedisValue where
  | set (members : Finset String)
  | other (content : String)
  deriving DecidableEq

abbrev Keyspace := RedisKey → Option RedisValue

namespace Keyspace

/-- SMEMBERS. -/
def members (keys : Keyspace) (key : RedisKey) : Finset String :=
  match keys key with
  | some (.set ms) => ms
  | _ => ∅

/-- A set without `m`. Redis drops a set that becomes empty. -/
def without (m : String) (ms : Finset String) : Option RedisValue :=
  if ms.erase m = ∅ then none else some (.set (ms.erase m))

/-- SREM: `none` is the error of a key that holds no set. -/
def srem (keys : Keyspace) (key : RedisKey) (m : String) : Option Keyspace :=
  match keys key with
  | none => some keys
  | some (.set ms) => some (Function.update keys key (without m ms))
  | some (.other _) => none

end Keyspace

namespace IdListKeySchema

/-- The bytes of a key. -/
def keyBytes (key : String) : RedisKey := utf8 key.toList

/-- The pattern that `clear_reverse_token` builds. -/
def tokenPattern (schema : IdListKeySchema) (skh : String) : List Char :=
  (schema.memberKey skh "").toList.flatMap escapeGlob ++ ['*']

end IdListKeySchema

/-! ## The loop -/

inductive ClearPhase where
  /-- Before the SCAN from a cursor. -/
  | scanning (cursor : Nat)
  /-- Sending the SREMs of a page: what is left of the current pipeline,
  whether one of its commands failed, and the pipelines after it. -/
  | sending (cursor : Nat) (broken : Bool) (batch : List RedisKey) (batches : List (List RedisKey))
  | done
  | failed

structure ClearState where
  keys : Keyspace
  phase : ClearPhase := .scanning 0
  owed : Set RedisKey

/-- The keys a page has still to send an SREM for. -/
def ClearPhase.pending : ClearPhase → List RedisKey
  | .sending _ _ batch batches => batch ++ batches.flatten
  | _ => []

section

variable (schema : IdListKeySchema) (skh : String) (token batchSize : Nat)

/-- The key matches the pattern. -/
def Matches (key : RedisKey) : Prop := globMatch (utf8 (schema.tokenPattern skh)) key = true

/-- The start of an iteration: every key that matches is owed. -/
def clearStart (keys : Keyspace) : ClearState where
  keys := keys
  owed := {key | keys key ≠ none ∧ Matches schema skh key}

/-- A step of `clear_reverse_token`. -/
inductive ClearStep : ClearState → ClearState → Prop where
  /-- The renewal, the pool, SCAN or the reading of its reply fails. -/
  | scanFails {s : ClearState} {cursor : Nat} (phase : s.phase = .scanning cursor) :
      ClearStep s { s with phase := .failed }
  | scan {s : ClearState} {cursor next : Nat} {page : List RedisKey}
      (phase : s.phase = .scanning cursor)
      (found : ∀ key ∈ page, s.keys key ≠ none ∧ Matches schema skh key)
      (complete : next = 0 → ∀ key ∈ s.owed, key ∈ page) :
      ClearStep s
        { s with
          phase := .sending next false [] (chunks batchSize page)
          owed := {key ∈ s.owed | key ∉ page} }
  | srem {s : ClearState} {cursor : Nat} {broken : Bool} {key : RedisKey} {batch : List RedisKey}
      {batches : List (List RedisKey)} {keys : Keyspace}
      (phase : s.phase = .sending cursor broken (key :: batch) batches)
      (removed : s.keys.srem key (toString token) = some keys) :
      ClearStep s { s with keys := keys, phase := .sending cursor broken batch batches }
  | sremWrongType {s : ClearState} {cursor : Nat} {broken : Bool} {key : RedisKey}
      {batch : List RedisKey} {batches : List (List RedisKey)}
      (phase : s.phase = .sending cursor broken (key :: batch) batches)
      (wrong : s.keys.srem key (toString token) = none) :
      ClearStep s { s with phase := .sending cursor true batch batches }
  /-- The connection is lost, at any command of a pipeline. -/
  | sendFails {s : ClearState} {cursor : Nat} {broken : Bool} {batch : List RedisKey}
      {batches : List (List RedisKey)} (phase : s.phase = .sending cursor broken batch batches) :
      ClearStep s { s with phase := .failed }
  | broken {s : ClearState} {cursor : Nat} {batches : List (List RedisKey)}
      (phase : s.phase = .sending cursor true [] batches) :
      ClearStep s { s with phase := .failed }
  | nextBatch {s : ClearState} {cursor : Nat} {batch : List RedisKey}
      {batches : List (List RedisKey)}
      (phase : s.phase = .sending cursor false [] (batch :: batches)) :
      ClearStep s { s with phase := .sending cursor false batch batches }
  | pageDone {s : ClearState} {cursor : Nat} (phase : s.phase = .sending cursor false [] []) :
      ClearStep s { s with phase := if cursor = 0 then .done else .scanning cursor }

/-- A write of another client. It does not add the token to a key of the
company; keys that it deletes are owed no more. -/
inductive OtherStep : ClearState → ClearState → Prop where
  | write {s : ClearState} (keys : Keyspace)
      (adds : ∀ key, IdListKeySchema.keyBytes (schema.memberKey skh "") <+: key →
        toString token ∈ keys.members key → toString token ∈ s.keys.members key) :
      OtherStep s { s with keys := keys, owed := {key ∈ s.owed | keys key ≠ none} }

end

end ForwardProxy.IdList
