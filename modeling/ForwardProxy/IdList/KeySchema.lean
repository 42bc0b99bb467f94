/-
ForwardProxy.IdList.KeySchema — the texts of the Redis keys and of the
queue entries (`schema.rs`, `apply_key_prefix` of `redis_pool.rs`).

Each key family is a definition of its own under the name of its builder.
`IdListKey` collects the ten families with the arguments their builders
take, so that "no two keys collide" is one statement about `key`.

A namespace is what `company_namespace` makes of a company: the first four
characters of the standard base64 of a SHA-256 digest. They stand for its
first three bytes, so the padding at the end of the base64 text is never
among them.
-/
import Mathlib.Data.List.DropRight
import Mathlib.Data.List.GetD
import ForwardProxy.IdList.Schema
import ForwardProxy.Text.Split

namespace ForwardProxy.IdList

open Text

/-! ## Namespaces -/

def base64Alphabet : List Char :=
  "ABCDEFGHIJKLMNOPQRSTUVWXYZabcdefghijklmnopqrstuvwxyz0123456789+/".toList

/-- A company namespace. -/
structure Namespace where
  text : String
  length_eq : text.toList.length = 4
  base64 : ∀ c ∈ text.toList, c ∈ base64Alphabet
  deriving DecidableEq

/-- The character of six bits. -/
def base64Char (n : Nat) : Char := base64Alphabet.getD (n % 64) 'A'

theorem base64Char_mem (n : Nat) : base64Char n ∈ base64Alphabet := by
  have hlength : n % 64 < base64Alphabet.length := Nat.mod_lt n (by decide)
  unfold base64Char
  rw [List.getD_eq_getElem _ _ hlength]
  exact List.getElem_mem hlength

/-- `company_namespace`, of the first three bytes of the digest. -/
def companyNamespace (b₀ b₁ b₂ : UInt8) : Namespace where
  text := String.ofList [base64Char (b₀.toNat / 4),
    base64Char (b₀.toNat % 4 * 16 + b₁.toNat / 16),
    base64Char (b₁.toNat % 16 * 4 + b₂.toNat / 64), base64Char (b₂.toNat % 64)]
  length_eq := by simp
  base64 := by
    intro c hc
    simp only [String.toList_ofList, List.mem_cons, List.not_mem_nil, or_false] at hc
    rcases hc with rfl | rfl | rfl | rfl <;> exact base64Char_mem _

/-! ## Components -/

def escapeChar (c : Char) : List Char :=
  if c = '%' then ['%', '2', '5'] else if c = ':' then ['%', '3', 'A'] else [c]

/-- `escape_component`. -/
def escapeComponent (s : String) : String := String.ofList (s.toList.flatMap escapeChar)

/-- The loop of `unescape_component`: after a `%` it takes two characters,
or what is left. -/
def unescapeChars : List Char → Option (List Char)
  | [] => some []
  | '%' :: '2' :: '5' :: rest => (unescapeChars rest).map ('%' :: ·)
  | '%' :: '3' :: 'A' :: rest => (unescapeChars rest).map (':' :: ·)
  | '%' :: _ => none
  | c :: rest => (unescapeChars rest).map (c :: ·)

/-- `unescape_component`. -/
def unescapeComponent (s : String) : Option String := (unescapeChars s.toList).map String.ofList

/-! ## The key prefix -/

/-- `char::is_whitespace`: the Unicode property White_Space. -/
def isWhitespace (c : Char) : Bool :=
  (0x09 ≤ c.toNat ∧ c.toNat ≤ 0x0d) ∨ c.toNat = 0x20 ∨ c.toNat = 0x85 ∨ c.toNat = 0xa0 ∨
    c.toNat = 0x1680 ∨ (0x2000 ≤ c.toNat ∧ c.toNat ≤ 0x200a) ∨ c.toNat = 0x2028 ∨
    c.toNat = 0x2029 ∨ c.toNat = 0x202f ∨ c.toNat = 0x205f ∨ c.toNat = 0x3000

/-- `str::trim`. -/
def trim (s : String) : String :=
  String.ofList ((s.toList.dropWhile isWhitespace).rdropWhile isWhitespace)

def applyKeyPrefix (keyPrefix key : String) : String :=
  if trim keyPrefix = "" then key
  else if (trim keyPrefix).toList.getLast? = some ':' then trim keyPrefix ++ key
  else trim keyPrefix ++ ":" ++ key

/-! ## Keys -/

structure IdListKeySchema where
  keyPrefix : String
  deriving DecidableEq

namespace IdListKeySchema

variable (schema : IdListKeySchema)

def prefixed (key : String) : String := applyKeyPrefix schema.keyPrefix key

def dictKey (skh : String) : String := schema.prefixed ("idlist::dict::" ++ skh)

def memberKey (skh lookupId : String) : String :=
  schema.prefixed ("i:" ++ skh ++ escapeComponent lookupId)

/-- The hash tag of all versions of a list. -/
def fwdHashTag (skh list : String) : String :=
  "\x7b" ++ skh ++ "::" ++ escapeComponent list ++ "\x7d"

def fwdKey (skh list ver : String) : String :=
  schema.prefixed ("idlist::fwd::" ++ fwdHashTag skh list ++ "::" ++ escapeComponent ver)

def stateKey (skh list : String) : String :=
  schema.prefixed ("idlist::" ++ skh ++ "::" ++ escapeComponent list ++ "::state")

def claimKey (skh list : String) : String :=
  schema.prefixed ("idlist::claim::" ++ skh ++ "::" ++ escapeComponent list)

def queueKey : String := schema.prefixed "idlist::queue::pending"

def taskMetaKey (skh list : String) : String :=
  schema.prefixed ("idlist::task_meta::" ++ skh ++ "::" ++ escapeComponent list)

def allListsKey (skh : String) : String := schema.prefixed ("idlist::" ++ skh ++ "::__all")

def readyKey (skh : String) : String := schema.prefixed ("idlist::" ++ skh ++ "::__ready")

def producerLockKey : String := schema.prefixed "idlist::producer_lock"

/-- `encode_task`. -/
def encodeTask (skh list : String) : String := skh ++ "::" ++ escapeComponent list

/-- `decode_task`. -/
def decodeTask (member : String) : Option (String × String) :=
  (splitOnce [':', ':'] member.toList).bind fun parts =>
    (unescapeComponent (String.ofList parts.2)).map fun list => (String.ofList parts.1, list)

end IdListKeySchema

/-- The key families and the arguments of their builders. -/
inductive IdListKey where
  | dict (skh : Namespace)
  | member (skh : Namespace) (lookupId : String)
  | fwd (skh : Namespace) (list ver : String)
  | state (skh : Namespace) (list : String)
  | claim (skh : Namespace) (list : String)
  | queue
  | taskMeta (skh : Namespace) (list : String)
  | allLists (skh : Namespace)
  | ready (skh : Namespace)
  | producerLock
  deriving DecidableEq

/-- The key a builder gives. -/
def IdListKeySchema.key (schema : IdListKeySchema) : IdListKey → String
  | .dict skh => schema.dictKey skh.text
  | .member skh lookupId => schema.memberKey skh.text lookupId
  | .fwd skh list ver => schema.fwdKey skh.text list ver
  | .state skh list => schema.stateKey skh.text list
  | .claim skh list => schema.claimKey skh.text list
  | .queue => schema.queueKey
  | .taskMeta skh list => schema.taskMetaKey skh.text list
  | .allLists skh => schema.allListsKey skh.text
  | .ready skh => schema.readyKey skh.text
  | .producerLock => schema.producerLockKey

end ForwardProxy.IdList
