/-
ForwardProxy.IdList.Dictionary — the dictionary HASH of a company, field by
field (`schema.rs`), and its cached snapshots (`redis_membership.rs`).

`Redis.lean` keeps a dictionary as a record. Here it is what Redis holds: a
hash from strings to strings, in which the counter, the index-mode marker
and both directions of the map are told apart by the names of their fields
only.

The token script computes with Lua numbers. How Lua prints one is a
parameter, `LuaNumbers`, with what is documented of it: up to 14 digits a
whole number is printed in full.
-/
import Mathlib.Algebra.Group.Nat.Defs
import Mathlib.Logic.Function.Basic
import Mathlib.Logic.Relation
import ForwardProxy.IdList.Schema

namespace ForwardProxy.IdList

/-! ## Fields and numbers -/

abbrev RedisHash : Type := String → Option String

def dictCounterField : String := "__counter"

/-- `REVERSE_INDEX_DISABLED`. -/
def dictDisabledField : String := "__reverse_index_disabled"

def dropPlus : List Char → List Char
  | '+' :: cs => cs
  | cs => cs

/-- `str::parse::<u64>`: an optional plus sign and at least one digit. -/
def parseU64 (s : String) : Option Nat :=
  let digits := dropPlus s.toList
  if digits.isEmpty || digits.any fun c => !c.isDigit then none
  else if Nat.ofDigitChars 10 digits 0 < 2 ^ 64 then some (Nat.ofDigitChars 10 digits 0)
  else none

/-- `str::strip_prefix` of a letter and a colon. -/
def stripTag (tag : Char) (field : String) : Option String :=
  match field.toList with
  | c :: ':' :: rest => if c = tag then some (String.ofList rest) else none
  | _ => none

/-- How the Lua interpreter of the server makes a string of a whole number:
`tostring` and `..` print 14 significant digits (`%.14g`), and a number
given to `redis.call` is printed with more. -/
structure LuaNumbers where
  tostring : Nat → String
  arg : Nat → String
  tostring_eq : ∀ n, n < 10 ^ 14 → tostring n = toString n
  arg_eq : ∀ n, n < 10 ^ 14 → arg n = toString n

/-! ## Commands on the hash -/

namespace RedisHash

def hset (h : RedisHash) (field value : String) : RedisHash :=
  Function.update h field (some value)

def hdel (h : RedisHash) (fields : List String) : RedisHash :=
  fields.foldl (fun h field => Function.update h field none) h

/-- HINCRBY by one. It fails, without a write, on a value that is not a
number and at the end of the signed 64-bit range. -/
def hincrby (h : RedisHash) (field : String) : Option (Nat × RedisHash) :=
  match (match h field with
    | some value => parseU64 value
    | none => some 0) with
  | none => none
  | some n => if n + 1 < 2 ^ 63 then some (n + 1, h.hset field (toString (n + 1))) else none

/-- A reply of HGETALL: the fields, in any order. -/
structure Hgetall (h : RedisHash) (fields : List (String × String)) : Prop where
  nodup : (fields.map Prod.fst).Nodup
  mem : ∀ field value, (field, value) ∈ fields ↔ h field = some value

end RedisHash

/-! ## `DictClient` -/

namespace DictClient

def nameField (list : String) : String := "n:" ++ list

def tokenField (token : Nat) : String := "t:" ++ toString token

/-- `ALLOC_TOKEN_SCRIPT`: the reply and the hash after it, or an error. -/
def allocTokenScript (lua : LuaNumbers) (h : RedisHash) (list : String) :
    Option (String × RedisHash) :=
  match h (nameField list) with
  | some existing => some (existing, h)
  | none =>
    match h.hincrby dictCounterField with
    | none => none
    | some (token, h') =>
      some (lua.tostring token,
        (h'.hset (nameField list) (lua.arg token)).hset ("t:" ++ lua.tostring token) list)

/-- The token, unless the script failed or its reply is not a number. -/
def getOrAllocateToken (lua : LuaNumbers) (h : RedisHash) (list : String) :
    Option Nat × RedisHash :=
  match allocTokenScript lua h list with
  | some (reply, h') => (parseU64 reply, h')
  | none => (none, h)

def getToken (h : RedisHash) (list : String) : Except WorkerError (Option Nat) :=
  match h (nameField list) with
  | none => .ok none
  | some value =>
    match parseU64 value with
    | some token => .ok (some token)
    | none => .error (.redis "dictionary token was not an integer")

/-- The HDEL of a removal, under the token it looked up before. -/
def removeFields (h : RedisHash) (list : String) (token : Option Nat) : RedisHash :=
  h.hdel (nameField list :: token.toList.map tokenField)

/-- `DictSnapshot`, with both maps. -/
structure Snapshot where
  nameToToken : String → Option Nat := fun _ => none
  tokenToName : Nat → Option String := fun _ => none

/-- One field of the reply. -/
def snapshotField (snap : Snapshot) (entry : String × String) : Snapshot :=
  match stripTag 'n' entry.1 with
  | some name =>
    match parseU64 entry.2 with
    | some token => { snap with nameToToken := Function.update snap.nameToToken name (some token) }
    | none => snap
  | none =>
    match stripTag 't' entry.1 with
    | some digits =>
      match parseU64 digits with
      | some token =>
        { snap with tokenToName := Function.update snap.tokenToName token (some entry.2) }
      | none => snap
    | none => snap

def snapshot (fields : List (String × String)) : Snapshot := fields.foldl snapshotField {}

/-- The merge of a targeted refresh. -/
def Snapshot.merge (snap : Snapshot) (token : Nat) (name : String) : Snapshot :=
  ⟨Function.update snap.nameToToken name (some token),
    Function.update snap.tokenToName token (some name)⟩

end DictClient

/-! ## The dictionary and its users -/

/-- A dictionary, the removals between their look-up and their clean-up with
the token they found, the replies readers have not yet stored, the caches of
the readers, and the tokens issued so far with the names they were issued
for. -/
structure DictSystem (ι : Type) where
  hash : RedisHash := fun _ => none
  removing : String → Option (Option Nat) := fun _ => none
  loaded : List (ι × List (String × String)) := []
  found : List (ι × Nat × String) := []
  cache : ι → DictClient.Snapshot := fun _ => {}
  issued : List (Nat × String) := []

def RedisHash.counter (h : RedisHash) : Nat := ((h dictCounterField).bind parseU64).getD 0

/-- One step of any of the users. No allocation or look-up of a list happens
inside a removal of the same list, as the claim lock intends; a removal may
stop after its look-up. A reader stores or merges a reply at any later time.
`guarded` asks of every allocation of a new token that Lua prints it in
full. -/
inductive DictStep (lua : LuaNumbers) (guarded : Prop) {ι : Type} [DecidableEq ι] :
    DictSystem ι → DictSystem ι → Prop
  | alloc {s : DictSystem ι} (list : String) (hfree : s.removing list = none)
      (hguard : guarded → s.hash (DictClient.nameField list) = none →
        s.hash.counter + 1 < 10 ^ 14) :
      DictStep lua guarded s
        { s with
          hash := (DictClient.getOrAllocateToken lua s.hash list).2
          issued := ((DictClient.getOrAllocateToken lua s.hash list).1.map (·, list)).toList ++
            s.issued }
  | lookup {s : DictSystem ι} (list : String) (token : Option Nat)
      (hfree : s.removing list = none) (hget : DictClient.getToken s.hash list = .ok token) :
      DictStep lua guarded s { s with removing := Function.update s.removing list (some token) }
  | cleanup {s : DictSystem ι} (list : String) (token : Option Nat)
      (hremoving : s.removing list = some token) :
      DictStep lua guarded s
        { s with
          hash := DictClient.removeFields s.hash list token
          removing := Function.update s.removing list none }
  | abandon {s : DictSystem ι} (list : String) :
      DictStep lua guarded s { s with removing := Function.update s.removing list none }
  | mark {s : DictSystem ι} :
      DictStep lua guarded s { s with hash := s.hash.hset dictDisabledField "1" }
  | unmark {s : DictSystem ι} :
      DictStep lua guarded s { s with hash := s.hash.hdel [dictDisabledField] }
  | load {s : DictSystem ι} (reader : ι) (fields : List (String × String))
      (hreply : s.hash.Hgetall fields) :
      DictStep lua guarded s { s with loaded := (reader, fields) :: s.loaded }
  | refresh {s : DictSystem ι} (reader : ι) (fields : List (String × String))
      (hloaded : (reader, fields) ∈ s.loaded) :
      DictStep lua guarded s
        { s with cache := Function.update s.cache reader (DictClient.snapshot fields) }
  | ask {s : DictSystem ι} (reader : ι) (token : Nat) (name : String)
      (hreply : s.hash (DictClient.tokenField token) = some name) :
      DictStep lua guarded s { s with found := (reader, token, name) :: s.found }
  | merge {s : DictSystem ι} (reader : ι) (token : Nat) (name : String)
      (hfound : (reader, token, name) ∈ s.found) :
      DictStep lua guarded s
        { s with cache := Function.update s.cache reader ((s.cache reader).merge token name) }

end ForwardProxy.IdList
