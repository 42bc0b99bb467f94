/-
ForwardProxy.Datastore.RedisCacheTheorems — the lcut of a backup over time,
and what is read back of a payload.

Any number of updates, from any pods and contexts, run side by side here,
one Redis transaction at a time. An update reads the stored lcut in its
first transaction and writes in a later one. A greater lcut that is written
in between is lost (`backupRaised`); in a run where this does not happen
(`inOrder`) the lcut under a key goes back by a removal only.

A payload is read back as it was written if its bytes were decoded first,
or need no decoding (`StoredDecoded`). The other encodings are written as
they are and read as plain text.
-/
import ForwardProxy.Effect.Interleave
import ForwardProxy.Effect.Wp
import ForwardProxy.Datastore.RedisCache

namespace ForwardProxy.Datastore

open Effect

/-! ## The stored lcut -/

section Lcut

variable {s s' : BackupRedis} {key : String}

@[simp]
theorem lcut_setEntry_self (entry : Option BackupEntry) :
    (s.setEntry key entry).lcut key = entry.map fun e => e.lcut := by
  simp [BackupRedis.lcut, BackupRedis.setEntry]

theorem lcut_setEntry_of_ne {key' : String} (h : key ≠ key') (entry : Option BackupEntry) :
    (s.setEntry key' entry).lcut key = s.lcut key := by
  simp [BackupRedis.lcut, BackupRedis.setEntry, h]

/-- The lcut under a key changes by a write of the key or by its removal. -/
theorem lcut_step (key : String) {c : BackupCmd} {r : c.Reply} (hstep : backupRedis.step s c r s') :
    s'.lcut key = s.lcut key ∨
      (∃ leader uuid entry, c = .write leader key uuid entry ∧ s'.lcut key = some entry.lcut) ∨
      (c = .del key ∨ c = .expired key) ∧ s'.lcut key = none := by
  -- an entry that is set is that of the key or of another one
  have hset : ∀ (t : BackupRedis) (key' : String) (entry : Option BackupEntry),
      key' = key ∧ (t.setEntry key' entry).lcut key = (entry.map fun e => e.lcut) ∨
        (t.setEntry key' entry).lcut key = t.lcut key := by
    intro t key' entry
    by_cases hkey : key' = key
    · subst hkey
      exact .inl ⟨rfl, lcut_setEntry_self entry⟩
    · exact .inr (lcut_setEntry_of_ne (Ne.symm hkey) entry)
  have hwrite : ∀ leader key' uuid entry,
      c = .write leader key' uuid entry →
      s' = (s.setLeader leader uuid).setEntry key' (some entry) →
      s'.lcut key = s.lcut key ∨
        ∃ leader uuid entry, c = .write leader key uuid entry ∧ s'.lcut key = some entry.lcut := by
    rintro leader key' uuid entry rfl rfl
    rcases hset (s.setLeader leader uuid) key' (some entry) with ⟨rfl, hl⟩ | hl
    · exact .inr ⟨leader, uuid, entry, rfl, hl⟩
    · exact .inl hl
  have hremove : ∀ key', c = .del key' ∨ c = .expired key' → s' = s.setEntry key' none →
      s'.lcut key = s.lcut key ∨ (c = .del key ∨ c = .expired key) ∧ s'.lcut key = none := by
    rintro key' hc rfl
    rcases hset s key' none with ⟨rfl, hl⟩ | hl
    · exact .inr ⟨hc, hl⟩
    · exact .inl hl
  cases c with
  | connect =>
    obtain rfl : s' = s := hstep
    exact .inl rfl
  | check leader key' uuid =>
    cases r with
    | none =>
      rcases (hstep : s' = s ∨ s' = s.setLeader leader uuid) with rfl | rfl
      · exact .inl rfl
      · exact .inl rfl
    | some reply =>
      obtain ⟨_, _, rfl⟩ : _ ∧ _ ∧ s' = s.setLeader leader uuid := hstep
      exact .inl rfl
  | expireLeader leader key' uuid =>
    rcases (hstep : s' = s ∨ s' = s.setLeader leader uuid) with rfl | rfl
    · exact .inl rfl
    · exact .inl rfl
  | write leader key' uuid entry =>
    cases r with
    | true => exact (hwrite leader key' uuid entry rfl hstep).imp id .inl
    | false =>
      rcases (hstep : s' = s ∨ _) with rfl | hs
      · exact .inl rfl
      · exact (hwrite leader key' uuid entry rfl hs).imp id .inl
  | refreshTtl key' lcut =>
    obtain rfl : s' = s := hstep
    exact .inl rfl
  | del key' =>
    rcases (hstep : s' = s ∨ _) with rfl | hs
    · exact .inl rfl
    · exact (hremove key' (.inl rfl) hs).imp id .inr
  | hget key' =>
    cases r with
    | none =>
      obtain rfl : s' = s := hstep
      exact .inl rfl
    | some reply =>
      obtain ⟨_, rfl⟩ : _ ∧ s' = s := hstep
      exact .inl rfl
  | expired key' => exact (hremove key' (.inr rfl) hstep).imp id .inr
  | leaderExpired leader =>
    obtain rfl : s' = { s with leaders := Function.update s.leaders leader none } := hstep
    exact .inl rfl

end Lcut

/-! ## What an update may write -/

/-- The phase is the key of the last check and the lcut it found. Only a
greater lcut may be written there. -/
def backupProtocol : Protocol BackupCmd BackupCmd.Reply (Option (String × Option Nat)) where
  allows
    | φ, .write _ key _ entry =>
      ∃ found, φ = some (key, found) ∧ ∀ w, found = some w → w < entry.lcut
    | _, _ => True
  next
    | _, .check _ key _, reply => Option.map (fun r => (key, CheckReply.lcut r)) reply
    | φ, .expireLeader _ _ _, _ => φ
    | _, _, _ => none

theorem updateImpl_follows (cache : RedisCache) (hcheck : cache.checkLcut = true)
    (codecs : ContentCodecs) (key : String) (result : DataProviderRequestResult)
    {rc : AuthorizedRequestContext} (huse : rc.useLcut = true) (lcut : Nat)
    (data : ResponsePayload) (φ : Option (String × Option Nat)) :
    (cache.updateImpl codecs key result rc lcut data).Follows backupProtocol (fun _ => True) φ := by
  -- the end of an update, in the phase of its check
  have hend : ∀ (should : Bool) (φ : Option (String × Option Nat)),
      (should = true → ∃ found, φ = some (key, found) ∧ ∀ w, found = some w → w < lcut) →
      (cache.writeOrRefresh codecs key rc lcut data should).Follows backupProtocol
        (fun _ => True) φ := by
    intro should φ hφ
    unfold RedisCache.writeOrRefresh
    cases should with
    | true =>
      simp only [huse, Bool.not_true, Bool.or_true, if_true]
      cases dataToWrite codecs data with
      | none => exact .pure trivial
      | some config => exact .cmd (hφ rfl) fun _ => trivial
    | false =>
      simp only [huse, Bool.not_true, Bool.or_self, Bool.false_eq_true, if_false]
      exact .bind (Q := fun _ => True) (.cmd trivial fun _ => trivial) fun _ _ _ => .pure trivial
  unfold RedisCache.updateImpl
  refine .ite ?_ (.ite ?_ (.pure trivial))
  · refine ⟨trivial, ?_⟩
    intro (connected : Bool)
    refine .ite (.pure trivial) ⟨trivial, ?_⟩
    intro (reply : Option CheckReply)
    cases reply with
    | none => exact hend false none (by simp)
    | some reply =>
      -- the leader's TTL may be set first, in the same phase
      have hdecide : ∀ found, found = some (key, reply.lcut) →
          Prog.Follows backupProtocol (fun _ => True)
            ((if cache.checkLcut then
              Prog.pure (reply.leader = cache.uuid &&
                reply.lcut.all fun existing => existing < lcut)
              else .pure (reply.leader = cache.uuid) : BackupProg Bool) >>=
                cache.writeOrRefresh codecs key rc lcut data) found := by
        rintro _ rfl
        rw [if_pos hcheck]
        refine hend _ _ ?_
        intro hshould
        refine ⟨reply.lcut, rfl, ?_⟩
        intro w hw
        simp only [hw, Option.all_some, Bool.and_eq_true, decide_eq_true_eq] at hshould
        exact hshould.2
      change Prog.Follows _ _ (Prog.bind (Prog.bind (Prog.when _ _) _) _) _
      rw [Prog.bind_assoc]
      cases decide (reply.ttl = -1) && decide (reply.leader ≠ cache.uuid) with
      | true => exact ⟨trivial, fun _ => hdecide _ rfl⟩
      | false => exact hdecide _ rfl
  · refine ⟨trivial, ?_⟩
    intro (connected : Bool)
    cases connected with
    | true => exact ⟨trivial, fun _ => trivial⟩
    | false => exact .pure trivial

theorem update_follows (cache : RedisCache) (hcheck : cache.checkLcut = true)
    (codecs : ContentCodecs) {rc : AuthorizedRequestContext} (huse : rc.useLcut = true)
    (response : ResponseContext) (φ : Option (String × Option Nat)) :
    (cache.update codecs rc response).Follows backupProtocol (fun _ => True) φ := by
  refine .fold ?_ _ _ trivial
  intro written key φ _
  exact .bind (updateImpl_follows cache hcheck codecs key _ huse _ _ φ) fun _ _ _ => .pure trivial

/-! ## Writes out of order -/

/-- A greater lcut has been written under the key since the last check of
the update, and has not expired. -/
def backupRaised (i : Nat) (key : String) (lcut : Nat) : List (Nat × BackupCmd) → Bool
  | [] => false
  | (j, .check _ _ _) :: log => j ≠ i && backupRaised i key lcut log
  | (_, .write _ key' _ entry) :: log =>
    key' = key && lcut < entry.lcut || backupRaised i key lcut log
  | (_, .expired key') :: log => key' ≠ key && backupRaised i key lcut log
  | (_, .connect) :: log | (_, .expireLeader _ _ _) :: log | (_, .refreshTtl _ _) :: log
  | (_, .del _) :: log | (_, .hget _) :: log | (_, .leaderExpired _) :: log =>
    backupRaised i key lcut log

/-- No write overtakes one of a greater lcut that its update has not seen. -/
def inOrder (log : List (Nat × BackupCmd)) (i : Nat) : BackupCmd → Bool
  | .write _ key _ entry => !backupRaised i key entry.lcut log
  | _ => true

/-- What another command leaves open was open before. -/
theorem backupRaised_of_cons {i j : Nat} (hij : j ≠ i) {key : String} {lcut : Nat}
    {c : BackupCmd} {log : List (Nat × BackupCmd)} (hc : c ≠ .expired key)
    (h : backupRaised i key lcut ((j, c) :: log) = false) :
    backupRaised i key lcut log = false := by
  cases c with
  | check leader key' uuid => simpa [backupRaised, hij] using h
  | write leader key' uuid entry => exact (Bool.or_eq_false_iff.mp h).2
  | expired key' =>
    have hkey : key' ≠ key := fun hkey => hc (hkey ▸ rfl)
    simpa [backupRaised, hkey] using h
  | _ => exact h

/-- An update that has seen nothing greater than `l` and has missed nothing
greater finds nothing greater. -/
def Seen (φ : Nat → Option (String × Option Nat)) (s : BackupRedis)
    (log : List (Nat × BackupCmd)) : Prop :=
  ∀ i key found, φ i = some (key, found) → ∀ l, (∀ w, found = some w → w < l) →
    backupRaised i key l log = false → ∀ w, s.lcut key = some w → w ≤ l

theorem seen_start {s : BackupRedis} : Seen (fun _ => none) s [] := by
  intro i key found hφ
  simp at hφ

theorem seen_step {φ : Nat → Option (String × Option Nat)} {s s' : BackupRedis}
    {log : List (Nat × BackupCmd)} {i : Nat} {c : BackupCmd} {r : c.Reply} (h : Seen φ s log)
    (hstep : backupRedis.step s c r s') :
    Seen (Function.update φ i (backupProtocol.next (φ i) c r)) s' ((i, c) :: log) := by
  intro j key found hφ l hfound hraised w hw
  by_cases hj : j = i
  · subst hj
    rw [Function.update_self] at hφ
    cases c with
    | check leader key' uuid =>
      cases r with
      | none => cases hφ
      | some reply =>
        obtain ⟨_, hlcut, rfl⟩ :
            _ ∧ reply.lcut = s.lcut key' ∧ s' = s.setLeader leader uuid := hstep
        obtain ⟨rfl, rfl⟩ : key' = key ∧ reply.lcut = found :=
          Prod.mk.inj (Option.some.inj hφ)
        exact (hfound w (hlcut.trans hw)).le
    | expireLeader leader key' uuid =>
      rcases (hstep : s' = s ∨ s' = s.setLeader leader uuid) with rfl | rfl
      · exact h j key found hφ l hfound hraised w hw
      · exact h j key found hφ l hfound hraised w hw
    | _ => cases hφ
  · rw [Function.update_of_ne hj] at hφ
    by_cases hc : c = .expired key
    · subst hc
      obtain rfl : s' = s.setEntry key none := hstep
      simp at hw
    · have hbefore := h j key found hφ l hfound (backupRaised_of_cons (Ne.symm hj) hc hraised)
      rcases lcut_step key hstep with hsame | ⟨leader, uuid, entry, rfl, hentry⟩ | ⟨_, hnone⟩
      · exact hbefore w (hsame ▸ hw)
      · -- a greater lcut would be counted
        obtain rfl : entry.lcut = w := Option.some.inj (hentry.symm.trans hw)
        simpa [backupRaised] using (Bool.or_eq_false_iff.mp hraised).1
      · rw [hnone] at hw
        simp at hw

/-! ## Runs -/

/-- An update of a pod that compares lcuts, for a context that has one. -/
structure LcutUpdate where
  cache : RedisCache
  rc : AuthorizedRequestContext
  response : ResponseContext
  checks : cache.checkLcut = true
  uses : rc.useLcut = true

inductive BackupParty where
  | update (u : LcutUpdate)
  | expiry (key : String)
  | leaderExpiry (leader : String)

def BackupParty.prog (codecs : ContentCodecs) : BackupParty → BackupProg Unit
  | .update u => u.cache.update codecs u.rc u.response >>= fun _ => .pure ()
  | .expiry key => Prog.cmd (BackupCmd.expired key)
  | .leaderExpiry leader => Prog.cmd (BackupCmd.leaderExpired leader)

theorem prog_follows (codecs : ContentCodecs) (party : BackupParty) :
    (party.prog codecs).Follows backupProtocol (fun _ => True) none := by
  cases party with
  | update u =>
    exact .bind (update_follows u.cache u.checks codecs u.uses u.response none) fun _ _ _ =>
      .pure trivial
  | expiry key => exact .cmd trivial fun _ => trivial
  | leaderExpiry leader => exact .cmd trivial fun _ => trivial

abbrev BackupPool : Type := Pool BackupCmd BackupCmd.Reply Empty BackupRedis Nat fun _ => Unit

def BackupPool.start (codecs : ContentCodecs) (s : BackupRedis) (parties : Nat → BackupParty) :
    BackupPool :=
  ⟨s, fun i => (parties i).prog codecs, []⟩

/-- No step makes the lcut under a key smaller, unless it removes the key. -/
def NeverBack (guard : List (Nat × BackupCmd) → Nat → BackupCmd → Bool) (pool : BackupPool) :
    Prop :=
  ∀ pool', Pool.Step backupRedis guard pool pool' → ∀ key w, pool.state.lcut key = some w →
    (∃ w', pool'.state.lcut key = some w' ∧ w ≤ w') ∨
      ∃ i, pool'.log = (i, .del key) :: pool.log ∨ pool'.log = (i, .expired key) :: pool.log

/-- **The backup never goes back**, in every run whose writes are in order. -/
theorem backup_never_back {codecs : ContentCodecs} {s : BackupRedis} {parties : Nat → BackupParty}
    {pool : BackupPool}
    (hrun : Relation.ReflTransGen (Pool.Step backupRedis inOrder)
      (BackupPool.start codecs s parties) pool) : NeverBack inOrder pool := by
  obtain ⟨φ, hfollow, hseen⟩ := Pool.invariant (I := Seen)
    (fun i => prog_follows codecs (parties i)) seen_start
    (fun φ s log i c r s' h _ _ hstep => seen_step h hstep) hrun
  intro pool' hstep key w hw
  cases hstep with
  | @turn s s' threads log i c k r hthread hguard hcmd =>
    have hallows : backupProtocol.allows (φ i) c := by
      have hi : (threads i).Follows backupProtocol (fun _ => True) (φ i) := hfollow i
      rw [hthread] at hi
      exact hi.1
    rcases lcut_step key hcmd with hsame | ⟨leader, uuid, entry, rfl, hentry⟩ | ⟨hc, _⟩
    · exact .inl ⟨w, hsame.trans hw, le_rfl⟩
    · obtain ⟨found, hφ, hfound⟩ := hallows
      have hraised : backupRaised i key entry.lcut log = false := by simpa [inOrder] using hguard
      exact .inl ⟨entry.lcut, hentry, hseen i key found hφ entry.lcut hfound hraised w hw⟩
    · rcases hc with rfl | rfl
      · exact .inr ⟨i, .inl rfl⟩
      · exact .inr ⟨i, .inr rfl⟩

/-! ## Two runs -/

def backupPod : RedisCache where
  uuid := "pod"
  checkLcut := true
  doubleWriteCacheForLegacyKey := false
  keyPrefix := ""
  hashKey := id

def backupClient (encoding : CompressionEncoder) : AuthorizedRequestContext :=
  AuthorizedRequestContext.new "secret-key" .v2DownloadConfigSpecs [encoding]

/-- The brotli stream of an empty JSON object, and no other; `gzip` is not
called for the clients here. -/
def sampleCodecs : ContentCodecs where
  gzip data := 0x1f :: data
  gunzip data := if data.head? = some 0x1f then some data.tail else none
  brotliDecompress data :=
    if data = [0x8b, 0x00, 0x80, 0x7b, 0x7d, 0x03] then some [0x7b, 0x7d] else none
  inflate _ := none
  uncompress _ := none
  zstdDecompress _ := none

/-- An update of the pod with an empty JSON object. The clients differ in
the encoding they ask for and have one backup key. -/
def backupUpdate (encoding : CompressionEncoder) (lcut : Nat) : BackupParty :=
  .update
    { cache := backupPod
      rc := backupClient encoding
      response := ⟨.dataAvailable, lcut, 0, ⟨false, .plainText, [0x7b, 0x7d]⟩⟩
      checks := rfl
      uses := rfl }

def twoUpdates (first second : Nat) (i : Nat) : BackupParty :=
  if i = 0 then backupUpdate .gzip first else backupUpdate .statsigBrotli second

def backupKey : String := backupPod.getRedisKey (backupClient .gzip) none false

def backupStart (first second : Nat) : BackupPool :=
  BackupPool.start sampleCodecs .new (twoUpdates first second)

/-- The lcut after a schedule, and after one more turn if that is a write. -/
def lcutsAfter (guard : List (Nat × BackupCmd) → Nat → BackupCmd → Bool) (first second : Nat)
    (schedule : List Nat) (i : Nat) : Option (Option Nat × Option Nat) :=
  (backupRedisRunner.turns guard schedule (backupStart first second) ()).bind fun t =>
    (backupRedisRunner.turns guard [i] t.1 t.2).bind fun t' =>
      match t'.1.log.head? with
      | some (_, .write _ _ _ _) => some (t.1.state.lcut backupKey, t'.1.state.lcut backupKey)
      | _ => none

theorem exists_of_lcutsAfter {guard : List (Nat × BackupCmd) → Nat → BackupCmd → Bool}
    {first second : Nat} {schedule : List Nat} {i : Nat} {before after : Option Nat}
    (h : lcutsAfter guard first second schedule i = some (before, after)) :
    ∃ pool pool' : BackupPool,
      Relation.ReflTransGen (Pool.Step backupRedis guard) (backupStart first second) pool ∧
      Pool.Step backupRedis guard pool pool' ∧
      (∃ j leader key uuid entry, pool'.log.head? = some (j, .write leader key uuid entry)) ∧
      pool.state.lcut backupKey = before ∧ pool'.state.lcut backupKey = after := by
  obtain ⟨⟨pool, w⟩, hturns, h⟩ := Option.bind_eq_some_iff.mp h
  obtain ⟨⟨pool', w'⟩, hturn, h⟩ := Option.bind_eq_some_iff.mp h
  split at h
  · rename_i j leader key uuid entry hhead
    simp only [Option.some.injEq, Prod.mk.injEq] at h
    exact ⟨pool, pool', backupRedisRunner.turns_sound hturns, backupRedisRunner.turn_sound hturn,
      ⟨j, leader, key, uuid, entry, hhead⟩, h⟩
  · simp at h

/-- The second update checks after the write of the first. -/
theorem backup_never_back_twice :
    ∃ pool pool' : BackupPool,
      Relation.ReflTransGen (Pool.Step backupRedis inOrder) (backupStart 10 20) pool ∧
      Pool.Step backupRedis inOrder pool pool' ∧
      pool.state.lcut backupKey = some 10 ∧ pool'.state.lcut backupKey = some 20 ∧
      NeverBack inOrder pool := by
  have hturns : lcutsAfter inOrder 10 20 [0, 0, 1, 0, 1] 1 = some (some 10, some 20) := by
    decide +kernel
  obtain ⟨pool, pool', hrun, hstep, _, hbefore, hafter⟩ := exists_of_lcutsAfter hturns
  exact ⟨pool, pool', hrun, hstep, hbefore, hafter, backup_never_back hrun⟩

/-- Both updates find no entry; the one with the smaller lcut writes last. -/
theorem backup_back_after_race :
    ¬ ∀ (codecs : ContentCodecs) (s : BackupRedis) (parties : Nat → BackupParty)
        (pool : BackupPool),
      Relation.ReflTransGen (Pool.Step backupRedis fun _ _ _ => true)
        (BackupPool.start codecs s parties) pool → NeverBack (fun _ _ _ => true) pool := by
  intro hall
  have hturns : lcutsAfter (fun _ _ _ => true) 20 10 [0, 1, 0, 1, 0] 1 =
      some (some 20, some 10) := by decide +kernel
  obtain ⟨pool, pool', hrun, hstep, ⟨j, leader, key, uuid, entry, hhead⟩, hbefore, hafter⟩ :=
    exists_of_lcutsAfter hturns
  rcases hall sampleCodecs .new (twoUpdates 20 10) pool hrun pool' hstep backupKey 20 hbefore with
    ⟨w', hw', hle⟩ | ⟨i, hdel | hexpired⟩
  · obtain rfl : w' = 10 := Option.some.inj (hw'.symm.trans hafter)
    omega
  · simp [hdel] at hhead
  · simp [hexpired] at hhead

/-! ## Reading a backup -/

/-- The encodings whose contents are stored. The bytes of the others are
stored as they came. -/
def StoredDecoded (encoding : CompressionEncoder) : Prop :=
  encoding = .gzip ∨ encoding = .brotli ∨ encoding = .plainText ∨ encoding = .identity

theorem dataToWrite_eq (codecs : ContentCodecs) (payload : ResponsePayload) :
    dataToWrite codecs payload = codecs.decode payload.encoding payload.data ∧
        StoredDecoded payload.encoding ∨
      dataToWrite codecs payload = some payload.data ∧ ¬ StoredDecoded payload.encoding := by
  unfold dataToWrite StoredDecoded
  cases payload.encoding with
  | gzip | brotli | plainText | identity => exact .inl ⟨rfl, by simp⟩
  | statsigBrotli | deflate | compress | zstd => exact .inr ⟨rfl, by simp⟩

section ReadBack

variable (codecs : ContentCodecs) (cache : RedisCache) (rc : AuthorizedRequestContext)

/-- The payload is stored under the key. -/
def Stored (lcut : Nat) (payload : ResponsePayload) (key : String) (s : BackupRedis) : Prop :=
  ∃ config, dataToWrite codecs payload = some config ∧ s.entries key = some ⟨lcut, config⟩

/-- No copy of the payload is lost. -/
def StoredMore (lcut : Nat) (payload : ResponsePayload) (s s' : BackupRedis) : Prop :=
  ∀ key, Stored codecs lcut payload key s → Stored codecs lcut payload key s'

variable {codecs} {s s' : BackupRedis} {key : String} {lcut : Nat} {payload : ResponsePayload}

theorem stored_setEntry {config : List UInt8} (hconfig : dataToWrite codecs payload = some config)
    (leader uuid : String) :
    Stored codecs lcut payload key ((s.setLeader leader uuid).setEntry key (some ⟨lcut, config⟩)) :=
  ⟨config, hconfig, Function.update_self ..⟩

theorem storedMore_setEntry {config : List UInt8}
    (hconfig : dataToWrite codecs payload = some config) (leader uuid : String) :
    StoredMore codecs lcut payload s
      ((s.setLeader leader uuid).setEntry key (some ⟨lcut, config⟩)) := by
  rintro key' ⟨config', hconfig', hentry⟩
  by_cases hkey : key' = key
  · subst hkey
    exact stored_setEntry hconfig leader uuid
  · refine ⟨config', hconfig', ?_⟩
    rw [← hentry]
    exact Function.update_of_ne hkey ..

theorem wp_writeOrRefresh (should : Bool) (hmore : StoredMore codecs lcut payload s s') :
    Wp backupRedis (cache.writeOrRefresh codecs key rc lcut payload should)
      (fun written s₂ => (written = true → Stored codecs lcut payload key s₂) ∧
        StoredMore codecs lcut payload s s₂) (fun _ => True) s' := by
  unfold RedisCache.writeOrRefresh
  split
  · cases hconfig : dataToWrite codecs payload with
    | none => exact .pure trivial ⟨by simp, hmore⟩
    | some config =>
      refine .cmd trivial ?_
      intro (ok : Bool) s₂ hstep
      have hall : s₂ = s' ∨ s₂ = (s'.setLeader cache.leaderKey cache.uuid).setEntry key
          (some ⟨lcut, config⟩) := by
        cases ok with
        | true => exact .inr hstep
        | false => exact hstep
      refine ⟨trivial, ?_, ?_⟩
      · rintro rfl
        obtain rfl : s₂ = _ := hstep
        exact stored_setEntry hconfig _ _
      · rcases hall with rfl | rfl
        · exact hmore
        · exact fun key' h => storedMore_setEntry hconfig _ _ key' (hmore key' h)
  · refine .cmdBind trivial ?_
    intro _ s₂ hstep
    obtain rfl : s₂ = s' := hstep
    exact .pure trivial ⟨by simp, hmore⟩

/-- A connection changes nothing. -/
theorem wp_connect : Wp backupRedis RedisCache.connect (fun _ s₂ => s₂ = s) (fun _ => True) s :=
  .cmd trivial fun _ _ hstep => ⟨trivial, hstep⟩

/-! Only the leader may change before the write. -/

theorem entries_check {leader uuid : String} {reply : Option CheckReply}
    (hstep : backupRedis.step s (.check leader key uuid) reply s') : s'.entries = s.entries := by
  cases reply with
  | none =>
    rcases (hstep : s' = s ∨ s' = s.setLeader leader uuid) with rfl | rfl
    · rfl
    · rfl
  | some reply =>
    obtain ⟨_, _, rfl⟩ := hstep
    rfl

theorem entries_expireLeader {leader uuid : String} {reply : Unit}
    (hstep : backupRedis.step s (.expireLeader leader key uuid) reply s') :
    s'.entries = s.entries := by
  rcases (hstep : s' = s ∨ s' = s.setLeader leader uuid) with rfl | rfl
  · rfl
  · rfl

theorem wp_check : Wp backupRedis (cache.check key) (fun _ s₂ => s₂.entries = s.entries)
    (fun _ => True) s :=
  .cmd trivial fun _ _ hstep => ⟨trivial, entries_check hstep⟩

theorem wp_shouldUpdate (reply : Option CheckReply) :
    Wp backupRedis (cache.shouldUpdate key lcut reply) (fun _ s₂ => s₂.entries = s.entries)
      (fun _ => True) s := by
  cases reply with
  | none => exact .pure trivial rfl
  | some reply =>
    refine .seq (P := fun _ s₂ => s₂.entries = s.entries) ?_ ?_
    · exact .when (fun _ => .cmd trivial fun _ _ hstep => ⟨trivial, entries_expireLeader hstep⟩)
        (fun _ => trivial) fun _ => rfl
    · intro _ s₂ hs₂
      exact .ite (fun _ => .pure trivial hs₂) fun _ => .pure trivial hs₂

/-- An update that says so has stored the payload, and one with data removes
no copy of it. -/
theorem wp_updateImpl (result : DataProviderRequestResult) :
    Wp backupRedis (cache.updateImpl codecs key result rc lcut payload)
      (fun written s₂ =>
        (written = true → result = .dataAvailable ∧ Stored codecs lcut payload key s₂) ∧
        (result = .dataAvailable → StoredMore codecs lcut payload s s₂)) (fun _ => True) s := by
  unfold RedisCache.updateImpl
  refine .ite (fun hresult => ?_) fun hresult => ?_
  · refine .seq wp_connect ?_
    rintro connected s₁ rfl
    refine .ite (fun _ => .pure trivial ⟨by simp, fun _ _ h => h⟩) fun _ => ?_
    refine .seq (wp_check cache) fun reply s₂ h₂ => ?_
    refine .seq (wp_shouldUpdate cache reply) fun should s₃ h₃ => ?_
    have hmore : StoredMore codecs lcut payload s₁ s₃ := by
      rintro key' ⟨config, hconfig, hentry⟩
      exact ⟨config, hconfig, by rw [h₃, h₂]; exact hentry⟩
    refine (wp_writeOrRefresh cache rc should hmore).mono ?_ fun _ h => h
    rintro written s₄ ⟨hwritten, hmore'⟩
    exact ⟨fun h => ⟨hresult, hwritten h⟩, fun _ => hmore'⟩
  · have hnot : ∀ s₂, (false = true → result = .dataAvailable ∧ Stored codecs lcut payload key s₂) ∧
        (result = .dataAvailable → StoredMore codecs lcut payload s s₂) :=
      fun s₂ => ⟨by simp, fun h => absurd h hresult⟩
    refine .ite (fun _ => .seq wp_connect fun connected s₁ _ => ?_)
      fun _ => .pure trivial (hnot s)
    exact .seq (P := fun _ _ => True) .top fun _ s₂ _ => .pure trivial (hnot s₂)

/-- The keys are those of an update with data, and the payload is stored
under each of them. -/
def AllStored (codecs : ContentCodecs) (response : ResponseContext) (written : List String)
    (s : BackupRedis) : Prop :=
  (written ≠ [] → response.resultType = .dataAvailable) ∧
    ∀ key ∈ written, Stored codecs response.lcut response.body key s

theorem allStored_cons {response : ResponseContext} {written : List String} {ok : Bool}
    (h : AllStored codecs response written s)
    (hkey : ok = true → response.resultType = .dataAvailable ∧
      Stored codecs response.lcut response.body key s')
    (hmore : response.resultType = .dataAvailable →
      StoredMore codecs response.lcut response.body s s') :
    AllStored codecs response (if ok then key :: written else written) s' := by
  have hkept : ∀ key' ∈ written, Stored codecs response.lcut response.body key' s' := by
    intro key' hmem
    have hdata := h.1 (List.ne_nil_of_mem hmem)
    exact hmore hdata key' (h.2 key' hmem)
  cases ok with
  | true =>
    refine ⟨fun _ => (hkey rfl).1, ?_⟩
    intro key' hmem
    rcases List.mem_cons.mp hmem with rfl | hmem
    · exact (hkey rfl).2
    · exact hkept key' hmem
  | false => exact ⟨h.1, hkept⟩

theorem wp_update (response : ResponseContext) :
    Wp backupRedis (cache.update codecs rc response)
      (fun written s₂ => AllStored codecs response written s₂) (fun _ => True) s := by
  refine .fold (I := fun _ written s₂ => AllStored codecs response written s₂)
    (fun _ _ _ _ => trivial) _ [] [] s ?_ ⟨by simp, by simp⟩ fun _ _ h => h
  intro _ written key _ s₁ h
  refine .seq (wp_updateImpl cache rc response.resultType) ?_
  rintro ok s₂ ⟨hkey, hmore⟩
  exact .pure trivial (allStored_cons h hkey hmore)

/-- What is read is in plain text, or in gzip of it. -/
theorem wp_get :
    Wp backupRedis (cache.get codecs rc)
      (fun found _ => ∀ lcut payload, found = some (lcut, payload) →
        ∃ entry, s.entries (cache.getRedisKey rc none false) = some entry ∧
          (payload = ⟨false, .gzip, codecs.gzip entry.config⟩ ∨
            payload = ⟨false, .plainText, entry.config⟩)) (fun _ => True) s := by
  unfold RedisCache.get
  refine .cmdBind trivial ?_
  intro (connected : Bool) s₁ hstep
  obtain rfl : s₁ = s := hstep
  split
  · exact .pure trivial (by simp)
  refine .cmdBind trivial ?_
  intro (reply : Option (Option Nat × List UInt8)) s₂ hstep₂
  cases reply with
  | none => exact .pure trivial (by simp)
  | some reply =>
    obtain ⟨rfl, rfl⟩ : reply = _ ∧ s₂ = s₁ := hstep₂
    cases hentry : s₂.entries (cache.getRedisKey rc none false) with
    | none => exact .pure trivial (by simp)
    | some entry =>
      simp only [Option.map_some, Option.getD_some]
      split
      · exact .pure trivial (by simp)
      split
      · split
        · exact .pure trivial (by simp)
        · refine .pure trivial ?_
          rintro lcut payload ⟨⟩
          exact ⟨entry, rfl, .inl rfl⟩
      · refine .pure trivial ?_
        rintro lcut payload ⟨⟩
        exact ⟨entry, rfl, .inr rfl⟩

end ReadBack

/-- The payload of an update, written and read again with nothing else
written under the key in between, **has its contents back exactly if** they
were stored decoded, or are their own encoding. -/
theorem read_back_iff {codecs : ContentCodecs}
    (hgzip : ∀ data, codecs.gunzip (codecs.gzip data) = some data) {cache : RedisCache}
    {rc : AuthorizedRequestContext} {response : ResponseContext}
    (hproto : response.body.useProto = false) {s s₁ s₂ s₃ : BackupRedis} {written : List String}
    (hwrite : Exec backupRedis (cache.update codecs rc response) s s₁ (.ok written))
    (hwritten : cache.getRedisKey rc (some response.body) false ∈ written)
    (hkept : s₂.entries (cache.getRedisKey rc none false) =
      s₁.entries (cache.getRedisKey rc none false)) {lcut : Nat} {payload : ResponsePayload}
    (hread : Exec backupRedis (cache.get codecs rc) s₂ s₃ (.ok (some (lcut, payload)))) :
    codecs.decode payload.encoding payload.data =
        codecs.decode response.body.encoding response.body.data ↔
      StoredDecoded response.body.encoding ∨
        codecs.decode response.body.encoding response.body.data = some response.body.data := by
  have hkey : cache.getRedisKey rc (some response.body) false =
      cache.getRedisKey rc none false := by
    simp [RedisCache.getRedisKey, hproto]
  rw [hkey] at hwritten
  obtain ⟨config, hconfig, hstored⟩ := ((wp_update cache rc response).ok hwrite).2 _ hwritten
  obtain ⟨entry, hentry, hpayload⟩ := (wp_get cache rc).ok hread lcut payload rfl
  obtain rfl : entry = ⟨response.lcut, config⟩ := by
    rw [hkept, hstored] at hentry
    exact (Option.some.inj hentry).symm
  have hdecoded : codecs.decode payload.encoding payload.data = some config := by
    rcases hpayload with rfl | rfl
    · exact hgzip config
    · rfl
  rw [hdecoded]
  rcases dataToWrite_eq codecs response.body with ⟨hdata, hencoding⟩ | ⟨hdata, hencoding⟩
  · exact ⟨fun _ => .inl hencoding, fun _ => hconfig.symm.trans hdata⟩
  · obtain rfl : config = response.body.data := Option.some.inj (hconfig.symm.trans hdata)
    exact ⟨fun h => .inr h.symm, fun h => (h.resolve_left hencoding).symm⟩

/-- A payload of the client, in the given encoding: the brotli stream of an
empty JSON object. -/
def brotliAnswer (encoding : CompressionEncoder) : ResponseContext :=
  ⟨.dataAvailable, 10, 0, ⟨false, encoding, [0x8b, 0x00, 0x80, 0x7b, 0x7d, 0x03]⟩⟩

def brotliClient : AuthorizedRequestContext :=
  AuthorizedRequestContext.new "secret-key" .v2DownloadConfigSpecs []

def writeBack (encoding : CompressionEncoder) : BackupProg (List String) :=
  backupPod.update sampleCodecs brotliClient (brotliAnswer encoding)

def readBack : BackupProg (Option (Nat × ResponsePayload)) :=
  backupPod.get sampleCodecs brotliClient

/-- Redis after the write. -/
def writtenBack (encoding : CompressionEncoder) : BackupRedis :=
  backupRedisRunner.after 3 (writeBack encoding) .new ()

theorem sampleCodecs_gzip (data : List UInt8) :
    sampleCodecs.gunzip (sampleCodecs.gzip data) = some data := by
  simp [sampleCodecs]

theorem writeBack_exec (encoding : CompressionEncoder) (written : List String)
    (h : (backupRedisRunner.run 3 (writeBack encoding) .new ()).map Prod.snd = some (.ok written)) :
    Exec backupRedis (backupPod.update sampleCodecs brotliClient (brotliAnswer encoding)) .new
      (writtenBack encoding) (.ok written) :=
  backupRedisRunner.after_sound h

theorem readBack_exec {s : BackupRedis} {found : Option (Nat × ResponsePayload)}
    (h : (backupRedisRunner.run 2 readBack s ()).map Prod.snd = some (.ok found)) :
    Exec backupRedis (backupPod.get sampleCodecs brotliClient) s
      (backupRedisRunner.after 2 readBack s ()) (.ok found) :=
  backupRedisRunner.after_sound h

/-- Brotli is decoded before it is stored. -/
theorem read_back_brotli :
    StoredDecoded .brotli ∧
      sampleCodecs.decode .plainText [0x7b, 0x7d] =
        sampleCodecs.decode .brotli (brotliAnswer .brotli).body.data := by
  have hwrite := writeBack_exec .brotli [backupKey] (by decide +kernel)
  have hread : Exec backupRedis (backupPod.get sampleCodecs brotliClient) (writtenBack .brotli) _
      (.ok (some (10, ⟨false, .plainText, [0x7b, 0x7d]⟩))) := readBack_exec (by decide +kernel)
  have hstored : StoredDecoded .brotli := by simp [StoredDecoded]
  exact ⟨hstored, (read_back_iff sampleCodecs_gzip rfl hwrite (by decide +kernel) rfl hread).mpr
    (.inl hstored)⟩

/-- A payload in statsig-br is stored as it came and read as plain text. -/
theorem read_back_raw :
    ¬ ∀ (codecs : ContentCodecs) (cache : RedisCache) (rc : AuthorizedRequestContext)
        (response : ResponseContext) (s s₁ s₃ : BackupRedis) (written : List String) (lcut : Nat)
        (payload : ResponsePayload),
      (∀ data, codecs.gunzip (codecs.gzip data) = some data) →
      response.body.useProto = false →
      Exec backupRedis (cache.update codecs rc response) s s₁ (.ok written) →
      cache.getRedisKey rc (some response.body) false ∈ written →
      Exec backupRedis (cache.get codecs rc) s₁ s₃ (.ok (some (lcut, payload))) →
      codecs.decode payload.encoding payload.data =
        codecs.decode response.body.encoding response.body.data := by
  intro hall
  have hwrite := writeBack_exec .statsigBrotli [backupKey] (by decide +kernel)
  have hread : Exec backupRedis (backupPod.get sampleCodecs brotliClient)
      (writtenBack .statsigBrotli) _
      (.ok (some (10, ⟨false, .plainText, [0x8b, 0x00, 0x80, 0x7b, 0x7d, 0x03]⟩))) :=
    readBack_exec (by decide +kernel)
  have hsame := hall sampleCodecs backupPod brotliClient (brotliAnswer .statsigBrotli) _ _ _ _ _ _
    sampleCodecs_gzip rfl hwrite (by decide +kernel) hread
  simp [ContentCodecs.decode, sampleCodecs, brotliAnswer] at hsame

end ForwardProxy.Datastore
