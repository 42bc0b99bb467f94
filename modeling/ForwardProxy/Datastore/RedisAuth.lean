/-
ForwardProxy.Datastore.RedisAuth — the Entra token behind the connections
to Redis (`redis_auth.rs`).

What the source computes with operators that panic on overflow is `none`
here where they do.

One task refreshes the token, and connections are opened with the token
that is published at the time. `RefreshStep` is one step of that task, of
the clock, or of somebody who opens a connection. What the token endpoint
answers is not restricted.
-/
import Mathlib.Logic.Relation
import Mathlib.Tactic.Common
import ForwardProxy.Time.Duration

namespace ForwardProxy.Datastore.RedisAuth

open Time

/-! ## Constants -/

def defaultRefreshMarginDivisor : Nat := 4
def minRefreshDelay : Nat := fromSecs 30
def minRetryBackoff : Nat := fromSecs 1
def maxRetryBackoff : Nat := fromSecs 60
def minUsableTokenLifetime : Nat := fromSecs 120
def maxTokenLifetime : Nat := fromSecs (24 * 60 * 60)
def minRefreshMargin : Nat := fromSecs 60
def tokenHardExpiryMargin : Nat := fromSecs 30
def connectionLifetimeMarginNumerator : Nat := 3
def connectionLifetimeMarginDenominator : Nat := 4
def minConnectionLifetime : Nat := fromSecs (5 * 60)

/-! ## The schedule of a token -/

inductive TokenError where
  | transport (e : String)
  | endpoint (status : Nat) (body : String)
  | malformed (e : String)
  deriving DecidableEq, Repr

def usableTokenLifetime (expiresIn : UInt64) : Except TokenError Nat :=
  let lifetime := fromSecs expiresIn.toNat
  if lifetime < minUsableTokenLifetime then
    .error (.malformed ("token lifetime of " ++ toString expiresIn.toNat ++ "s is below the " ++
      toString (minUsableTokenLifetime / 1000000000) ++ "s minimum"))
  else .ok (min lifetime maxTokenLifetime)

def configuredMarginFits (lifetime configuredMargin : Nat) : Bool :=
  configuredMargin ≤ lifetime - min minRefreshDelay (lifetime / 2)

def refreshMargin (lifetime : Nat) (configuredMargin : Option Nat) : Nat :=
  let margin := max ((configuredMargin.filter (configuredMarginFits lifetime)).getD
    (lifetime / defaultRefreshMarginDivisor)) minRefreshMargin
  let shortestDelay := min minRefreshDelay (lifetime / 2)
  min margin (lifetime - shortestDelay)

def refreshDelay (lifetime : Nat) (configuredMargin : Option Nat) : Nat :=
  lifetime - refreshMargin lifetime configuredMargin

def maxConnectionLifetime (lifetime : Nat) (configuredMargin : Option Nat) : Option Nat := do
  let product ← durationMul (refreshMargin lifetime configuredMargin)
    connectionLifetimeMarginNumerator
  let target := product / connectionLifetimeMarginDenominator
  let ceiling := max (lifetime / 2) (fromSecs 1)
  some (min (max target minConnectionLifetime) ceiling)

/-- A token that is past its expiry is expiring, too. -/
def isTokenExpiring (now expiresAt margin : Nat) : Bool :=
  if now ≤ expiresAt then expiresAt - now ≤ margin else true

/-! ## Refreshing -/

structure TokenSnapshot where
  secret : String
  expiresAt : Nat
  /-- When the task should mint the next token. -/
  refreshAt : Nat
  generation : Nat
  maxConnectionLifetime : Nat
  deriving DecidableEq, Repr

structure TokenResponse where
  accessToken : String
  expiresIn : UInt64
  deriving DecidableEq, Repr

inductive Refreshed where
  | failed (e : TokenError)
  | panicked
  /-- The lifetime is not kept by the source. -/
  | minted (token : TokenSnapshot) (lifetime : Nat)
  deriving DecidableEq, Repr

/-- The next generation, in 64 bits. -/
def nextGeneration (generation : Nat) : Nat := (generation + 1) % 2 ^ 64

def mint (configuredMargin : Option Nat) (now generation lifetime : Nat) (secret : String) :
    Option TokenSnapshot := do
  let expiresAt ← instantAdd now lifetime
  let refreshAt ← instantAdd now (refreshDelay lifetime configuredMargin)
  let cap ← maxConnectionLifetime lifetime configuredMargin
  some {
    secret := secret
    expiresAt := expiresAt
    refreshAt := refreshAt
    generation := nextGeneration generation
    maxConnectionLifetime := cap }

def Refreshed.ofMint (lifetime : Nat) : Option TokenSnapshot → Refreshed
  | some token => .minted token lifetime
  | none => .panicked

def Refreshed.ofLifetime (configuredMargin : Option Nat) (now generation : Nat) (secret : String) :
    Except TokenError Nat → Refreshed
  | .error e => .failed e
  | .ok lifetime => .ofMint lifetime (mint configuredMargin now generation lifetime secret)

/-- What comes of the answer of the token endpoint at the instant `now`. -/
def refresh (configuredMargin : Option Nat) (now generation : Nat) :
    Except TokenError TokenResponse → Refreshed
  | .error e => .failed e
  | .ok response => .ofLifetime configuredMargin now generation response.accessToken
    (usableTokenLifetime response.expiresIn)

/-! ## Connections -/

structure TrackedConnection where
  generation : Nat
  tokenExpiresAt : Option Nat
  deriving DecidableEq, Repr

/-- Where connections get their credentials. The provider is its published
token. -/
inductive RedisCredentials where
  | static (username password : Option String)
  | oauth (current : TokenSnapshot)
  deriving DecidableEq, Repr

/-- The connection that is opened with the credentials. -/
def connect : RedisCredentials → TrackedConnection
  | .static _ _ => ⟨0, none⟩
  | .oauth token => ⟨token.generation, some token.expiresAt⟩

def shouldRetireConnection (credentials : RedisCredentials) (connectionGeneration : Nat) : Bool :=
  match credentials with
  | .static _ _ => false
  | .oauth current => connectionGeneration ≠ current.generation

/-- Whether `is_valid` refuses the connection before it asks Redis. -/
def refusedAsExpired (now : Nat) (conn : TrackedConnection) : Bool :=
  match conn.tokenExpiresAt with
  | some expiresAt => isTokenExpiring now expiresAt tokenHardExpiryMargin
  | none => false

/-- What the pool asks when a connection is checked in. -/
def hasBroken (credentials : RedisCredentials) (conn : TrackedConnection) : Bool :=
  shouldRetireConnection credentials conn.generation

/-! ## The refresh loop -/

/-- Where the task is. -/
inductive Phase where
  | looping
  | sleeping (wakeAt : Nat)
  | requesting (backoff : Nat)
  | backingOff (wakeAt backoff : Nat)
  /-- A token has been made and not been stored yet. -/
  | storing (token : TokenSnapshot) (lifetime : Nat)
  | panicked
  deriving DecidableEq, Repr

structure Provider where
  clock : Nat
  token : TokenSnapshot
  /-- The lifetime of the published token. -/
  lifetime : Nat
  generation : Nat
  phase : Phase
  /-- The connections opened so far. -/
  opened : List TrackedConnection
  deriving DecidableEq, Repr

/-- The outcome of a request. -/
def Provider.refreshed (s : Provider) (backoff : Nat) : Refreshed → Provider
  | .failed _ =>
    { s with phase := .backingOff (s.clock + backoff) (min (backoff * 2) maxRetryBackoff) }
  | .panicked => { s with generation := nextGeneration s.generation, phase := .panicked }
  | .minted token lifetime =>
    { s with generation := nextGeneration s.generation, phase := .storing token lifetime }

/-- The answer to a request arrives. -/
def Provider.answered (s : Provider) (configuredMargin : Option Nat) (backoff : Nat)
    (answer : Except TokenError TokenResponse) : Provider :=
  s.refreshed backoff (refresh configuredMargin s.clock s.generation answer)

/-- The token that has been made is stored. -/
def Provider.published (s : Provider) (token : TokenSnapshot) (lifetime : Nat) : Provider :=
  { s with token := token, lifetime := lifetime, phase := .looping }

inductive RefreshStep (configuredMargin : Option Nat) : Provider → Provider → Prop where
  | tick {s : Provider} {clock : Nat} (later : s.clock ≤ clock) (valid : clock < instantLimit) :
    RefreshStep configuredMargin s { s with clock := clock }
  | schedule {s : Provider} (phase : s.phase = .looping) :
    RefreshStep configuredMargin s
      { s with phase := .sleeping (s.clock + (s.token.refreshAt - s.clock)) }
  | wake {s : Provider} {wakeAt : Nat} (phase : s.phase = .sleeping wakeAt)
    (elapsed : wakeAt ≤ s.clock) :
    RefreshStep configuredMargin s { s with phase := .requesting minRetryBackoff }
  | answer {s : Provider} {backoff : Nat} (answer : Except TokenError TokenResponse)
    (phase : s.phase = .requesting backoff) :
    RefreshStep configuredMargin s (s.answered configuredMargin backoff answer)
  | retry {s : Provider} {wakeAt backoff : Nat} (phase : s.phase = .backingOff wakeAt backoff)
    (elapsed : wakeAt ≤ s.clock) :
    RefreshStep configuredMargin s { s with phase := .requesting backoff }
  | publish {s : Provider} {token : TokenSnapshot} {lifetime : Nat}
    (phase : s.phase = .storing token lifetime) :
    RefreshStep configuredMargin s (s.published token lifetime)
  | connect {s : Provider} :
    RefreshStep configuredMargin s { s with opened := RedisAuth.connect (.oauth s.token) :: s.opened }

/-- The loop is started with a token that has been fetched before, the
first one. -/
structure Started (configuredMargin : Option Nat) (s : Provider) : Prop where
  fetched : ∃ now ≤ s.clock, ∃ answer,
    refresh configuredMargin now 0 answer = .minted s.token s.lifetime
  generation : s.generation = 1
  phase : s.phase = .looping
  opened : ∀ conn ∈ s.opened, conn = connect (.oauth s.token)
  valid : s.clock < instantLimit

end ForwardProxy.Datastore.RedisAuth
