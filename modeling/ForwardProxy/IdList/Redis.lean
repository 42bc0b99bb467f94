/-
ForwardProxy.IdList.Redis — the Redis contents the id-list synchronizer
works on, and the commands it sends.

One field of `Db` per key family of `IdListKeySchema`. Keys are kept as
their arguments (namespace, list, version, member) and not as strings.
The claim locks and the producer lock are not part of the contents: what
the code sees of them is the reply to a renewal, which is a choice of the
environment.

`Write` is a command that only changes the contents; the code ignores its
reply. Each is atomic. A pipeline that is not `atomic()` is a sequence of
separate commands, so a run may end inside it; `Cmd.multi` is MULTI/EXEC.

What the environment decides is left open in `redis`, the handler:

* an SSCAN or SCAN iteration answers with its pages. They contain every
  stored element at least once, in any order, with any repetition and
  any page sizes. The cursor loop of the code runs once per page, so the
  reply is the list of pages;
* the iteration order of a hash set (`iterate`) and of SMEMBERS is any;
* a download delivers the origin's bytes from an offset on in chunks of
  any sizes, or fails after a prefix of them;
* a renewal of the claim may find the claim lost.
-/
import Mathlib.Data.Finset.Card
import Mathlib.Tactic.Simps.Basic
import ForwardProxy.Effect.Wp
import ForwardProxy.IdList.Schema

namespace ForwardProxy.IdList

open Effect

/-! ## Contents -/

/-- A forward SET and whether its key carries a TTL. Redis drops an empty
set together with its TTL, so an absent key is `{}`. -/
structure FwdSet where
  members : Finset String := ∅
  ttl : Bool := false
  deriving DecidableEq

namespace FwdSet

def sadd (f : FwdSet) (m : String) : FwdSet := { f with members := insert m f.members }

def srem (f : FwdSet) (m : String) : FwdSet :=
  if f.members.erase m = ∅ then {} else { f with members := f.members.erase m }

/-- EXPIRE has no effect on a missing key. -/
def expire (f : FwdSet) : FwdSet := if f.members = ∅ then f else { f with ttl := true }

def persist (f : FwdSet) : FwdSet := { f with ttl := false }

end FwdSet

/-- A company's dictionary HASH: the counter (an absent one counts as 0),
the `n:` fields, the `t:` fields and the index-mode marker. -/
structure Dict where
  counter : Nat := 0
  token : String → Option Nat := fun _ => none
  name : Nat → Option String := fun _ => none
  reverseIndexDisabled : Bool := false

/-- `ALLOC_TOKEN_SCRIPT`: the existing token, or a new one with both
fields written. This is what the script does as long as fewer than 10^14
tokens have been given out (`Represents.alloc_new`); beyond that Lua prints
a counter with fewer digits than it has. -/
def Dict.alloc (d : Dict) (list : String) : Nat × Dict :=
  match d.token list with
  | some t => (t, d)
  | none =>
    (d.counter + 1,
      { d with
        counter := d.counter + 1
        token := Function.update d.token list (some (d.counter + 1))
        name := Function.update d.name (d.counter + 1) (some list) })

/-- `HDEL dict n:{list} [t:{token}]`. -/
def Dict.hdel (d : Dict) (list : String) (token : Option Nat) : Dict :=
  { d with
    token := Function.update d.token list none
    name := match token with
      | some t => Function.update d.name t none
      | none => d.name }

structure Db where
  /-- `idlist::dict::{skh}` -/
  dict : String → Dict := fun _ => {}
  /-- `i:{skh}{lookup_id}`: tokens, keyed by namespace and lookup id. -/
  member : String × String → Finset Nat := fun _ => ∅
  /-- `idlist::fwd::{skh::list}::{version}` -/
  fwd : ListId → String → FwdSet := fun _ _ => {}
  /-- `idlist::{skh}::{list}::state` -/
  state : ListId → StateHash := fun _ => {}
  /-- `idlist::task_meta::{skh}::{list}` -/
  taskMeta : ListId → TaskMetaHash := fun _ => {}
  /-- `idlist::{skh}::__all` -/
  all : String → Finset String := fun _ => ∅
  /-- `idlist::{skh}::__ready` -/
  ready : String → Option Nat := fun _ => none
  /-- `idlist::queue::pending`: scores and tasks. -/
  queue : List (Nat × ListId) := []

namespace Db

@[simps -fullyApplied] def setFwd (db : Db) (id : ListId) (ver : String) (f : FwdSet) : Db :=
  { db with fwd := Function.update db.fwd id (Function.update (db.fwd id) ver f) }

@[simps -fullyApplied] def setState (db : Db) (id : ListId) (h : StateHash) : Db :=
  { db with state := Function.update db.state id h }

@[simps -fullyApplied] def setTaskMeta (db : Db) (id : ListId) (h : TaskMetaHash) : Db :=
  { db with taskMeta := Function.update db.taskMeta id h }

@[simps -fullyApplied] def setMember (db : Db) (skh m : String) (ts : Finset Nat) : Db :=
  { db with member := Function.update db.member (skh, m) ts }

@[simps -fullyApplied] def setDict (db : Db) (skh : String) (d : Dict) : Db :=
  { db with dict := Function.update db.dict skh d }

@[simps -fullyApplied] def setAll (db : Db) (skh : String) (ls : Finset String) : Db :=
  { db with all := Function.update db.all skh ls }

@[simps -fullyApplied] def setReady (db : Db) (skh : String) (n : Option Nat) : Db :=
  { db with ready := Function.update db.ready skh n }

end Db

/-! ## Commands -/

inductive Write where
  | saddMember (skh m : String) (token : Nat)
  | sremMember (skh m : String) (token : Nat)
  | saddFwd (id : ListId) (ver m : String)
  | sremFwd (id : ListId) (ver m : String)
  /-- DEL and UNLINK. -/
  | delFwd (id : ListId) (ver : String)
  | expireFwd (id : ListId) (ver : String)
  | persistFwd (id : ListId) (ver : String)
  | hsetState (id : ListId) (fields : List StateField)
  | hdelState (id : ListId) (fields : List StateFieldName)
  | delState (id : ListId)
  | hsetMeta (id : ListId) (field : TaskMetaField)
  | expireMeta (id : ListId)
  | delMeta (id : ListId)
  | saddAll (id : ListId)
  | sremAll (id : ListId)
  | setReady (skh : String) (n : Nat)
  | delReady (skh : String)
  | hsetDictDisabled (skh : String)
  | hdelDictDisabled (skh : String)
  | hdelDict (id : ListId) (token : Option Nat)
  deriving DecidableEq

def Write.apply (db : Db) : Write → Db
  | .saddMember skh m t => db.setMember skh m (insert t (db.member (skh, m)))
  | .sremMember skh m t => db.setMember skh m ((db.member (skh, m)).erase t)
  | .saddFwd id v m => db.setFwd id v ((db.fwd id v).sadd m)
  | .sremFwd id v m => db.setFwd id v ((db.fwd id v).srem m)
  | .delFwd id v => db.setFwd id v {}
  | .expireFwd id v => db.setFwd id v (db.fwd id v).expire
  | .persistFwd id v => db.setFwd id v (db.fwd id v).persist
  | .hsetState id fs => db.setState id ((db.state id).setAll fs)
  | .hdelState id fs => db.setState id ((db.state id).delAll fs)
  | .delState id => db.setState id {}
  | .hsetMeta id f => db.setTaskMeta id ((db.taskMeta id).set f)
  | .expireMeta _ => db
  | .delMeta id => db.setTaskMeta id {}
  | .saddAll id => db.setAll id.skh (insert id.list (db.all id.skh))
  | .sremAll id => db.setAll id.skh ((db.all id.skh).erase id.list)
  | .setReady skh n => db.setReady skh (some n)
  | .delReady skh => db.setReady skh none
  | .hsetDictDisabled skh => db.setDict skh { db.dict skh with reverseIndexDisabled := true }
  | .hdelDictDisabled skh => db.setDict skh { db.dict skh with reverseIndexDisabled := false }
  | .hdelDict id t => db.setDict id.skh ((db.dict id.skh).hdel id.list t)

/-- The body of a download: its chunks, and the error it broke off with. -/
structure Download where
  chunks : List (List UInt8)
  fault : Option WorkerError := none
  deriving DecidableEq

inductive Cmd where
  | write (w : Write)
  | multi (ws : List Write)
  /-- HGETALL, HGET on the state hash. -/
  | hgetState (id : ListId)
  | hgetallMeta (id : ListId)
  | existsFwd (id : ListId) (ver : String)
  | scardFwd (id : ListId) (ver : String)
  | ttlFwd (id : ListId) (ver : String)
  | sscanFwd (id : ListId) (ver : String)
  | scanMembers (skh : String)
  | smembersAll (skh : String)
  | allocToken (id : ListId)
  | getToken (id : ListId)
  | zaddNx (score : Nat) (id : ListId)
  | zpopmin
  | zcard
  /-- SET NX on the claim key, and its release. -/
  | tryAcquire (id : ListId)
  | release (id : ListId)
  /-- The claim renewal: whether the claim is still held. -/
  | held
  | renew
  | fetch (url : String) (start fileSize : Nat)
  /-- Not a Redis command: the iteration order of an in-memory hash set. -/
  | iterate (s : Finset String)
  deriving DecidableEq

@[reducible] def Cmd.Reply : Cmd → Type
  | .write _ | .multi _ | .release _ => Unit
  | .hgetState _ => StateHash
  | .hgetallMeta _ => TaskMetaHash
  | .existsFwd _ _ | .tryAcquire _ | .held | .renew => Bool
  | .scardFwd _ _ | .allocToken _ | .zaddNx _ _ | .zcard => Nat
  | .ttlFwd _ _ => Int
  | .sscanFwd _ _ | .scanMembers _ => List (List String)
  | .smembersAll _ | .iterate _ => List String
  | .getToken _ => Option Nat
  | .zpopmin => Option ListId
  | .fetch _ _ _ => Download

/-! ## What the commands do -/

/-- The pages of a complete scan of `s`. -/
def PagesOf (s : Finset String) (pages : List (List String)) : Prop :=
  pages.flatten.toFinset = s

instance (s : Finset String) (pages : List (List String)) : Decidable (PagesOf s pages) :=
  inferInstanceAs (Decidable (_ = _))

/-- `d` delivers the bytes of `body` from `start` on. -/
def Delivers (body : List UInt8) (start : Nat) (d : Download) : Prop :=
  match d.fault with
  | none => start ≤ body.length ∧ d.chunks.flatten = body.drop start
  | some _ => d.chunks.flatten <+: body.drop start

instance (body : List UInt8) (start : Nat) (d : Download) : Decidable (Delivers body start d) :=
  match h : d.fault with
  | none => decidable_of_iff (start ≤ body.length ∧ d.chunks.flatten = body.drop start)
      (by simp [Delivers, h])
  | some _ => decidable_of_iff (d.chunks.flatten <+: body.drop start) (by simp [Delivers, h])

/-- ZPOPMIN takes an entry of lowest score. -/
def PopsMin (queue : List (Nat × ListId)) : Option ListId → List (Nat × ListId) → Prop
  | none, rest => queue = [] ∧ rest = []
  | some id, rest => ∃ score, (score, id) ∈ queue ∧ (∀ e ∈ queue, score ≤ e.1) ∧
      rest = queue.erase (score, id)

/-- ZADD NX: a task already queued keeps its score. -/
def zaddNxQueue (queue : List (Nat × ListId)) (score : Nat) (id : ListId) :
    List (Nat × ListId) :=
  if id ∈ queue.map Prod.snd then queue else queue ++ [(score, id)]

/-- The reply of TTL: -2 for a missing key, -1 for a key without TTL. -/
def TtlReply (f : FwdSet) (r : Int) : Prop :=
  if f.members = ∅ then r = -2 else if f.ttl then 0 ≤ r else r = -1

/-- The Redis server and the origin. `origin` holds the current body of
each URL. -/
def redis (origin : String → List UInt8) : Handler Cmd Cmd.Reply Db where
  step db c r db' :=
    match c, r with
    | .write w, _ => db' = w.apply db
    | .multi ws, _ => db' = ws.foldl Write.apply db
    | .hgetState id, r => r = db.state id ∧ db' = db
    | .hgetallMeta id, r => r = db.taskMeta id ∧ db' = db
    | .existsFwd id v, r => (r = decide ((db.fwd id v).members ≠ ∅)) ∧ db' = db
    | .scardFwd id v, r => r = (db.fwd id v).members.card ∧ db' = db
    | .ttlFwd id v, r => TtlReply (db.fwd id v) r ∧ db' = db
    | .sscanFwd id v, r => PagesOf (db.fwd id v).members r ∧ db' = db
    | .scanMembers skh, r => (∀ m, db.member (skh, m) ≠ ∅ → m ∈ r.flatten) ∧ db' = db
    | .smembersAll skh, r => (r.Nodup ∧ r.toFinset = db.all skh) ∧ db' = db
    | .allocToken id, r => r = ((db.dict id.skh).alloc id.list).1 ∧
        db' = db.setDict id.skh ((db.dict id.skh).alloc id.list).2
    | .getToken id, r => r = (db.dict id.skh).token id.list ∧ db' = db
    | .zaddNx score id, r => r = (if id ∈ db.queue.map Prod.snd then 0 else 1) ∧
        db' = { db with queue := zaddNxQueue db.queue score id }
    | .zpopmin, r => ∃ rest, PopsMin db.queue r rest ∧ db' = { db with queue := rest }
    | .zcard, r => r = db.queue.length ∧ db' = db
    | .tryAcquire _, _ => db' = db
    | .release _, _ => db' = db
    | .held, _ => db' = db
    | .renew, _ => db' = db
    | .fetch url start _, r => Delivers (origin url) start r ∧ db' = db
    | .iterate s, r => (r.Nodup ∧ r.toFinset = s) ∧ db' = db

/-! ## Programs -/

abbrev Redis (α : Type) : Type := Prog Cmd Cmd.Reply WorkerError α

def write (w : Write) : Redis Unit := Prog.cmd (Cmd.write w)
def multi (ws : List Write) : Redis Unit := Prog.cmd (Cmd.multi ws)
def hgetState (id : ListId) : Redis StateHash := Prog.cmd (Cmd.hgetState id)
def hgetallMeta (id : ListId) : Redis TaskMetaHash := Prog.cmd (Cmd.hgetallMeta id)
def keyExists (id : ListId) (ver : String) : Redis Bool := Prog.cmd (Cmd.existsFwd id ver)
def scard (id : ListId) (ver : String) : Redis Nat := Prog.cmd (Cmd.scardFwd id ver)
def ttl (id : ListId) (ver : String) : Redis Int := Prog.cmd (Cmd.ttlFwd id ver)
def sscan (id : ListId) (ver : String) : Redis (List (List String)) :=
  Prog.cmd (Cmd.sscanFwd id ver)
def scanMembers (skh : String) : Redis (List (List String)) := Prog.cmd (Cmd.scanMembers skh)
def smembersAll (skh : String) : Redis (List String) := Prog.cmd (Cmd.smembersAll skh)
def getOrAllocateToken (id : ListId) : Redis Nat := Prog.cmd (Cmd.allocToken id)
def getToken (id : ListId) : Redis (Option Nat) := Prog.cmd (Cmd.getToken id)
def zaddNx (score : Nat) (id : ListId) : Redis Nat := Prog.cmd (Cmd.zaddNx score id)
def zpopmin : Redis (Option ListId) := Prog.cmd Cmd.zpopmin
def zcard : Redis Nat := Prog.cmd Cmd.zcard
def tryAcquire (id : ListId) : Redis Bool := Prog.cmd (Cmd.tryAcquire id)
def releaseClaim (id : ListId) : Redis Unit := Prog.cmd (Cmd.release id)
def held : Redis Bool := Prog.cmd Cmd.held
def renew : Redis Bool := Prog.cmd Cmd.renew
def downloadFile (url : String) (start fileSize : Nat) : Redis Download :=
  Prog.cmd (Cmd.fetch url start fileSize)
def iterate (s : Finset String) : Redis (List String) := Prog.cmd (Cmd.iterate s)

/-- `expected && !key_exists(…)`: no command is sent when no key is
expected. -/
def keyMissing (expected : Bool) (id : ListId) (ver : String) : Redis Bool :=
  if expected then do
    let ok ← keyExists id ver
    pure (!ok)
  else pure false

/-- SCARD of a key that may not be given. -/
def scardOpt (id : ListId) (ver : Option String) : Redis Nat :=
  match ver with
  | some v => scard id v
  | none => pure 0

end ForwardProxy.IdList
