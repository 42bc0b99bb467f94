/-
ForwardProxy.Datastore.RedisCache — the backup of configs and manifests in
Redis (`redis_cache.rs`).

An update is a program over Redis transactions. The first one makes this
pod the leader if there is none and reads the leader and the stored lcut;
the write is a second transaction. Redis clients keep the commands of a
pipeline after it is sent, so the later transactions of an update repeat
the first one; what is left of that is that each of them may make this pod
the leader.

TTLs are not modelled: a key or the leader may expire at any time, and the
TTL that the first transaction reports may be anything. Metrics and the
keys kept for `touch` are left out. A transaction whose reply is an error
may have been executed or not.
-/
import Mathlib.Logic.Function.Basic
import Mathlib.Data.List.DropRight
import ForwardProxy.Datastore.RequestContext
import ForwardProxy.Effect.Prog
import ForwardProxy.IdList.KeySchema

namespace ForwardProxy.Datastore

open Effect

/-! ## Content encodings -/

/-- The decoders of the content codings, and the gzip encoder. -/
structure ContentCodecs where
  gzip : List UInt8 → List UInt8
  gunzip : List UInt8 → Option (List UInt8)
  brotliDecompress : List UInt8 → Option (List UInt8)
  inflate : List UInt8 → Option (List UInt8)
  uncompress : List UInt8 → Option (List UInt8)
  zstdDecompress : List UInt8 → Option (List UInt8)

/-- What bytes under an encoding mean; statsig-br is brotli. -/
def ContentCodecs.decode (codecs : ContentCodecs) : CompressionEncoder → List UInt8 →
    Option (List UInt8)
  | .plainText, data | .identity, data => some data
  | .gzip, data => codecs.gunzip data
  | .brotli, data | .statsigBrotli, data => codecs.brotliDecompress data
  | .deflate, data => codecs.inflate data
  | .compress, data => codecs.uncompress data
  | .zstd, data => codecs.zstdDecompress data

/-- `data_to_write`; `none` where the payload cannot be decoded. -/
def dataToWrite (codecs : ContentCodecs) (payload : ResponsePayload) : Option (List UInt8) :=
  match payload.encoding with
  | .gzip => codecs.gunzip payload.data
  | .plainText => some payload.data
  | .brotli => codecs.brotliDecompress payload.data
  | .statsigBrotli => some payload.data
  | .deflate | .compress | .identity | .zstd => some payload.data

/-! ## Keys -/

def NormalizedPath.asStr : NormalizedPath → String
  | .v1DownloadConfigSpecs => "/v1/download_config_specs/"
  | .v1GetIdLists => "/v1/get_id_lists/"
  | .v1DownloadIdListFile => "/v1/download_id_list_file/"
  | .v1LogEvent => "/v1/log_event/"
  | .v1UserEnrichment => "/v1/user_enrichment/"
  | .v2DownloadConfigSpecs => "/v2/download_config_specs/"
  | .v2DownloadConfigSpecsDeltas => "/v2/download_config_specs_deltas/"
  | .rawPath path => path

/-- `Display` of the two encodings a backup key can have. -/
def keyEncoding (useProto : Bool) : String := if useProto then "statsig-br" else "plain_text"

def trimEndSlashes (s : String) : String :=
  String.ofList (s.toList.rdropWhile (· = '/'))

/-- The characters that fit into so many bytes. -/
def takeBytes : Nat → List Char → List Char
  | _, [] => []
  | n, c :: cs => if c.utf8Size ≤ n then c :: takeBytes (n - c.utf8Size) cs else []

/-- `String::truncate`, which counts bytes. Where it would cut through a
character it panics; here the characters before that one are left. -/
def truncate (n : Nat) (s : String) : String := String.ofList (takeBytes n s.toList)

structure RedisCache where
  uuid : String
  checkLcut : Bool
  doubleWriteCacheForLegacyKey : Bool
  keyPrefix : String
  /-- SHA-256 in base64. -/
  hashKey : String → String

namespace RedisCache

variable (cache : RedisCache)

def leaderKey : String := IdList.applyKeyPrefix cache.keyPrefix "statsig_forward_proxy::leader"

/-- The key has neither the encodings of the request nor more of the SDK key
than its first 20 bytes. -/
def getRedisKey (rc : AuthorizedRequestContext) (payload : Option ResponsePayload)
    (useLegacy : Bool) : String :=
  let encoding := keyEncoding ((payload.map fun p => p.useProto).getD false)
  let sdkKey := if useLegacy then cache.hashKey rc.sdkKey
    else truncate 20 rc.sdkKey
  IdList.applyKeyPrefix cache.keyPrefix
    ("statsig|" ++ trimEndSlashes rc.path.asStr ++ "|" ++ encoding ++ "|" ++ sdkKey)

def getRedisKeysForPayload (rc : AuthorizedRequestContext) (payload : ResponsePayload) :
    List String :=
  cache.getRedisKey rc (some payload) false ::
    if cache.doubleWriteCacheForLegacyKey then [cache.getRedisKey rc (some payload) true] else []

end RedisCache

/-! ## Transactions -/

/-- The hash under a backup key. The lcut is written and read as a decimal
number. -/
structure BackupEntry where
  lcut : Nat
  config : List UInt8
  deriving DecidableEq, Repr

structure BackupRedis where
  leaders : String → Option String
  entries : String → Option BackupEntry

structure CheckReply where
  ttl : Int
  leader : String
  lcut : Option Nat
  deriving DecidableEq, Repr

/-- `leader` is the key of the leader. -/
inductive BackupCmd where
  | connect
  /-- `TTL leader; SETNX leader uuid; GET leader; HGET key lcut`. -/
  | check (leader key uuid : String)
  /-- The same, and `EXPIRE leader`. -/
  | expireLeader (leader key uuid : String)
  /-- The same, and the fields of the entry with `EXPIRE` of both keys. -/
  | write (leader key uuid : String) (entry : BackupEntry)
  | refreshTtl (key : String) (lcut : Nat)
  | del (key : String)
  | hget (key : String)
  /-- Redis removes a key whose TTL has passed. -/
  | expired (key : String)
  | leaderExpired (leader : String)
  deriving DecidableEq, Repr

def BackupCmd.Reply : BackupCmd → Type
  | .connect => Bool
  | .check _ _ _ => Option CheckReply
  | .write _ _ _ _ => Bool
  | .hget _ => Option (Option Nat × List UInt8)
  | _ => Unit

namespace BackupRedis

variable (s : BackupRedis)

def new : BackupRedis := ⟨fun _ => none, fun _ => none⟩

/-- `SETNX`. -/
def setLeader (leader uuid : String) : BackupRedis :=
  { s with leaders := Function.update s.leaders leader (some ((s.leaders leader).getD uuid)) }

def setEntry (key : String) (entry : Option BackupEntry) : BackupRedis :=
  { s with entries := Function.update s.entries key entry }

/-- The lcut stored under a key. -/
def lcut (key : String) : Option Nat := (s.entries key).map fun entry => entry.lcut

end BackupRedis

def backupRedis : Handler BackupCmd BackupCmd.Reply BackupRedis where
  step s c r s' :=
    match c, r with
    | .connect, _ => s' = s
    | .check leader key uuid, some reply =>
      reply.leader = (s.leaders leader).getD uuid ∧ reply.lcut = s.lcut key ∧
        s' = s.setLeader leader uuid
    | .check leader _ uuid, none => s' = s ∨ s' = s.setLeader leader uuid
    | .expireLeader leader _ uuid, _ => s' = s ∨ s' = s.setLeader leader uuid
    | .write leader key uuid entry, true => s' = (s.setLeader leader uuid).setEntry key (some entry)
    | .write leader key uuid entry, false =>
      s' = s ∨ s' = (s.setLeader leader uuid).setEntry key (some entry)
    | .refreshTtl _ _, _ => s' = s
    | .del key, _ => s' = s ∨ s' = s.setEntry key none
    | .hget key, some reply =>
      reply = (s.lcut key, ((s.entries key).map fun entry => entry.config).getD []) ∧ s' = s
    | .hget _, none => s' = s
    | .expired key, _ => s' = s.setEntry key none
    | .leaderExpired leader, _ => s' = { s with leaders := Function.update s.leaders leader none }

/-- A Redis that executes every command and has a leader with a TTL. -/
def BackupRedis.exec (s : BackupRedis) : (c : BackupCmd) → c.Reply × BackupRedis
  | .connect => (true, s)
  | .check leader key uuid =>
    (some ⟨60, (s.leaders leader).getD uuid, s.lcut key⟩, s.setLeader leader uuid)
  | .expireLeader leader _ uuid => ((), s.setLeader leader uuid)
  | .write leader key uuid entry => (true, (s.setLeader leader uuid).setEntry key (some entry))
  | .refreshTtl _ _ => ((), s)
  | .del key => ((), s.setEntry key none)
  | .hget key => (some (s.lcut key, ((s.entries key).map fun entry => entry.config).getD []), s)
  | .expired key => ((), s.setEntry key none)
  | .leaderExpired leader => ((), { s with leaders := Function.update s.leaders leader none })

def backupRedisRunner : Runner backupRedis Unit where
  next s c w := some ((s.exec c).1, (s.exec c).2, w)
  sound := by
    intro s c w r s' w' h
    simp only [Option.some.injEq, Prod.mk.injEq] at h
    obtain ⟨rfl, rfl, _⟩ := h
    cases c with
    | connect => rfl
    | check leader key uuid => exact ⟨rfl, rfl, rfl⟩
    | expireLeader leader key uuid => exact .inr rfl
    | write leader key uuid entry => rfl
    | refreshTtl key lcut => rfl
    | del key => exact .inr rfl
    | hget key => exact ⟨rfl, rfl⟩
    | expired key => rfl
    | leaderExpired leader => rfl

/-! ## The observer -/

abbrev BackupProg (α : Type) : Type := Prog BackupCmd BackupCmd.Reply Empty α

namespace RedisCache

variable (cache : RedisCache) (codecs : ContentCodecs)

def connect : BackupProg Bool := Prog.cmd BackupCmd.connect

def check (key : String) : BackupProg (Option CheckReply) :=
  Prog.cmd (BackupCmd.check cache.leaderKey key cache.uuid)

/-- Whether `RedisCacheWriteSucceed` is published. -/
def write (key : String) (entry : BackupEntry) : BackupProg Bool :=
  Prog.cmd (BackupCmd.write cache.leaderKey key cache.uuid entry)

/-- `should_update`: this pod is the leader and, with `check_lcut`, the
stored lcut is smaller. An abandoned leader is given a TTL. -/
def shouldUpdate (key : String) (lcut : Nat) : Option CheckReply → BackupProg Bool
  | some reply => do
    Prog.when (reply.ttl = -1 && reply.leader ≠ cache.uuid)
      (Prog.cmd (BackupCmd.expireLeader cache.leaderKey key cache.uuid))
    if cache.checkLcut then
      .pure (reply.leader = cache.uuid && reply.lcut.all fun existing => existing < lcut)
    else .pure (reply.leader = cache.uuid)
  | none => .pure false

def writeOrRefresh (key : String) (rc : AuthorizedRequestContext) (lcut : Nat)
    (data : ResponsePayload) (should : Bool) : BackupProg Bool :=
  if !rc.useLcut || should then
    match dataToWrite codecs data with
    | some config => cache.write key ⟨lcut, config⟩
    | none => .pure false
  else do
    let _ ← (Prog.cmd (BackupCmd.refreshTtl key lcut) : BackupProg Unit)
    .pure false

/-- Whether the payload was written. -/
def updateImpl (key : String) (result : DataProviderRequestResult) (rc : AuthorizedRequestContext)
    (lcut : Nat) (data : ResponsePayload) : BackupProg Bool :=
  if result = .dataAvailable then do
    let connected ← connect
    if !connected then .pure false
    else do
      let reply ← cache.check key
      let should ← cache.shouldUpdate key lcut reply
      cache.writeOrRefresh codecs key rc lcut data should
  else if result = .unauthorized then do
    let connected ← connect
    Prog.when connected (Prog.cmd (BackupCmd.del key))
    .pure false
  else .pure false

/-- The keys the payload was written to. -/
def update (rc : AuthorizedRequestContext) (response : ResponseContext) :
    BackupProg (List String) :=
  Prog.fold (fun written key => do
    let ok ← cache.updateImpl codecs key response.resultType rc response.lcut response.body
    .pure (if ok then key :: written else written)) []
    (cache.getRedisKeysForPayload rc response.body)

/-- The lcut and the payload of a backup. The encoding it declares is that
of the request. -/
def get (rc : AuthorizedRequestContext) : BackupProg (Option (Nat × ResponsePayload)) := do
  let connected ← connect
  if !connected then .pure none
  else do
    let reply ← (Prog.cmd (BackupCmd.hget (cache.getRedisKey rc none false)) :
      BackupProg (Option (Option Nat × List UInt8)))
    match reply with
    | none => .pure none
    | some (lcut, data) =>
      if data.isEmpty then .pure none
      else if CompressionEncoder.gzip ∈ rc.encodings then
        let compressed := codecs.gzip data
        if compressed.isEmpty then .pure none
        else .pure (some (lcut.getD 0, ⟨false, .gzip, compressed⟩))
      else .pure (some (lcut.getD 0, ⟨false, .plainText, data⟩))

end RedisCache

end ForwardProxy.Datastore
