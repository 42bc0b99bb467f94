/-
ForwardProxy.Datastore.RedisAuthTheorems — the token of a timely refresh
loop never expires.

A token is refreshed one margin before it expires, and the margin is at
least a minute, so a cycle that publishes within the margin, less the half
minute at which connections are refused, publishes before that half minute
begins. The statement about a state is therefore proved from the next
publication backwards (`not_expiring_of_publish`).

Generations count in 64 bits. They do not wrap, since tokens are made at
least half a minute apart and the instants of the machine do not reach as
far (`Good.next`).
-/
import ForwardProxy.Datastore.RedisAuth

namespace ForwardProxy.Datastore.RedisAuth

open Time

variable {cm : Option Nat} {s s' : Provider}

/-! ## The schedule -/

/-- What `usable_token_lifetime` lets pass. -/
def Usable (lifetime : Nat) : Prop :=
  minUsableTokenLifetime ≤ lifetime ∧ lifetime ≤ maxTokenLifetime

theorem usable_of_ok {expiresIn : UInt64} {lifetime : Nat}
    (h : usableTokenLifetime expiresIn = .ok lifetime) : Usable lifetime := by
  simp only [usableTokenLifetime] at h
  split at h
  · cases h
  · rename_i hmin
    simp only [Except.ok.injEq] at h
    simp only [Usable, minUsableTokenLifetime, maxTokenLifetime, fromSecs] at *
    omega

/-- A usable lifetime is long enough for the shortest delay. -/
theorem shortestDelay_eq {lifetime : Nat} (h : Usable lifetime) :
    min minRefreshDelay (lifetime / 2) = minRefreshDelay := by
  simp only [Usable, minUsableTokenLifetime, minRefreshDelay, fromSecs] at *
  omega

theorem refreshMargin_bounds {lifetime : Nat} (h : Usable lifetime) (cm : Option Nat) :
    minRefreshMargin ≤ refreshMargin lifetime cm ∧
      refreshMargin lifetime cm ≤ lifetime - minRefreshDelay := by
  simp only [refreshMargin, shortestDelay_eq h]
  simp only [Usable, minUsableTokenLifetime, minRefreshDelay, minRefreshMargin, fromSecs] at *
  omega

theorem refreshDelay_bounds {lifetime : Nat} (h : Usable lifetime) (cm : Option Nat) :
    minRefreshDelay ≤ refreshDelay lifetime cm ∧
      refreshDelay lifetime cm + refreshMargin lifetime cm = lifetime := by
  have hmargin := refreshMargin_bounds h cm
  simp only [Usable, refreshDelay, minUsableTokenLifetime, minRefreshDelay, fromSecs] at *
  omega

theorem maxConnectionLifetime_bounds {lifetime : Nat} (h : Usable lifetime) (cm : Option Nat) :
    ∃ cap, maxConnectionLifetime lifetime cm = some cap ∧ 0 < cap ∧ 2 * cap ≤ lifetime := by
  have hmargin := refreshMargin_bounds h cm
  have hmul : durationMul (refreshMargin lifetime cm) connectionLifetimeMarginNumerator =
      some (refreshMargin lifetime cm * connectionLifetimeMarginNumerator) := by
    apply durationMul_of_lt
    simp only [Usable, durationLimit, maxTokenLifetime, connectionLifetimeMarginNumerator,
      fromSecs] at *
    omega
  simp only [maxConnectionLifetime, hmul, Option.bind_eq_bind, Option.bind_some, Option.some.injEq,
    exists_eq_left']
  simp only [Usable, minUsableTokenLifetime, minConnectionLifetime, fromSecs] at *
  omega

/-! ## Tokens -/

/-- The token has been made at `issued`. -/
structure Scheduled (cm : Option Nat) (token : TokenSnapshot) (lifetime issued : Nat) : Prop where
  usable : Usable lifetime
  expiresAt : token.expiresAt = issued + lifetime
  refreshAt : token.refreshAt = issued + refreshDelay lifetime cm

theorem mint_spec {now generation lifetime : Nat} {secret : String} {token : TokenSnapshot}
    (h : mint cm now generation lifetime secret = some token) :
    token.expiresAt = now + lifetime ∧ token.refreshAt = now + refreshDelay lifetime cm ∧
      token.generation = nextGeneration generation := by
  simp only [mint, Option.bind_eq_bind, Option.bind_eq_some_iff, Option.some.injEq] at h
  obtain ⟨expiresAt, hexpires, refreshAt, hrefresh, cap, _, rfl⟩ := h
  exact ⟨eq_of_instantAdd hexpires, eq_of_instantAdd hrefresh, rfl⟩

theorem scheduled_of_minted {now generation lifetime : Nat} {token : TokenSnapshot}
    {answer : Except TokenError TokenResponse}
    (h : refresh cm now generation answer = .minted token lifetime) :
    Scheduled cm token lifetime now ∧ token.generation = nextGeneration generation := by
  cases answer with
  | error e => simp [refresh] at h
  | ok response =>
    rw [refresh] at h
    cases hlifetime : usableTokenLifetime response.expiresIn with
    | error e =>
      rw [hlifetime, Refreshed.ofLifetime] at h
      cases h
    | ok usable =>
      rw [hlifetime, Refreshed.ofLifetime] at h
      cases hmint : mint cm now generation usable response.accessToken with
      | none => simp [hmint, Refreshed.ofMint] at h
      | some minted =>
        rw [hmint, Refreshed.ofMint, Refreshed.minted.injEq] at h
        obtain ⟨rfl, rfl⟩ := h
        obtain ⟨hexpires, hrefresh, hgeneration⟩ := mint_spec hmint
        exact ⟨⟨usable_of_ok hlifetime, hexpires, hrefresh⟩, hgeneration⟩

/-- A token can be made at every instant that is a day away from the last
one. -/
theorem refresh_not_panicked {now : Nat} (h : now + maxTokenLifetime < instantLimit)
    (generation : Nat) (answer : Except TokenError TokenResponse) :
    refresh cm now generation answer ≠ .panicked := by
  cases answer with
  | error e => simp [refresh]
  | ok response =>
    rw [refresh]
    cases hlifetime : usableTokenLifetime response.expiresIn with
    | error e => simp [Refreshed.ofLifetime]
    | ok lifetime =>
      have husable := usable_of_ok hlifetime
      have hdelay := (refreshDelay_bounds husable cm).2
      obtain ⟨cap, hcap, _⟩ := maxConnectionLifetime_bounds husable cm
      have hle := husable.2
      have hexpires : instantAdd now lifetime = some (now + lifetime) :=
        instantAdd_of_lt (by omega)
      have hrefresh : instantAdd now (refreshDelay lifetime cm) =
          some (now + refreshDelay lifetime cm) := instantAdd_of_lt (by omega)
      simp [Refreshed.ofLifetime, mint, hexpires, hrefresh, hcap, Refreshed.ofMint]

/-! ## Runs -/

/-- What is known in each phase. From the wake-up on the refresh is due. -/
def PhaseGood (cm : Option Nat) (s : Provider) : Phase → Prop
  | .looping => s.generation = s.token.generation
  | .sleeping wakeAt => s.generation = s.token.generation ∧ s.token.refreshAt ≤ wakeAt
  | .requesting _ => s.generation = s.token.generation ∧ s.token.refreshAt ≤ s.clock
  | .backingOff _ _ => s.generation = s.token.generation ∧ s.token.refreshAt ≤ s.clock
  | .storing token lifetime => s.generation = token.generation ∧
    token.generation = s.token.generation + 1 ∧
    ∃ issued, s.token.refreshAt ≤ issued ∧ issued ≤ s.clock ∧ Scheduled cm token lifetime issued
  | .panicked => True

/-- The tokens up to `generation`, the last of which was made at `issued`,
were made at least half a minute apart. -/
def Spaced (generation issued : Nat) : Prop :=
  0 < generation ∧ (generation - 1) * minRefreshDelay ≤ issued

theorem Spaced.next {generation issued later : Nat} (h : Spaced generation issued)
    (hlater : issued + minRefreshDelay ≤ later) : Spaced (generation + 1) later := by
  obtain ⟨hpos, hle⟩ := h
  cases generation with
  | zero => omega
  | succ n =>
    refine ⟨by omega, ?_⟩
    rw [Nat.add_sub_cancel] at hle ⊢
    rw [Nat.succ_mul]
    omega

structure Good (cm : Option Nat) (s : Provider) : Prop where
  issued : ∃ issued ≤ s.clock, Scheduled cm s.token s.lifetime issued ∧
    Spaced s.token.generation issued
  phase : PhaseGood cm s s.phase
  opened : ∀ conn ∈ s.opened, conn.generation ≤ s.token.generation ∧
    (conn.generation = s.token.generation → conn.tokenExpiresAt = some s.token.expiresAt)
  valid : s.clock < instantLimit

/-- There is a next generation. -/
theorem Good.next (h : Good cm s) :
    nextGeneration s.token.generation = s.token.generation + 1 := by
  obtain ⟨issued, hle, _, hpos, hspaced⟩ := h.issued
  have hvalid := h.valid
  simp only [nextGeneration, instantLimit, minRefreshDelay, fromSecs] at *
  omega

theorem Started.good (h : Started cm s) : Good cm s := by
  obtain ⟨now, hle, answer, hrefresh⟩ := h.fetched
  obtain ⟨hscheduled, hgeneration⟩ := scheduled_of_minted hrefresh
  have hone : s.token.generation = 1 := hgeneration
  refine ⟨⟨now, hle, hscheduled, by simp [hone], by simp [hone]⟩, ?_, ?_, h.valid⟩
  · rw [h.phase]
    exact h.generation.trans hone.symm
  · intro conn hconn
    rw [h.opened conn hconn]
    exact ⟨Nat.le_refl _, fun _ => rfl⟩

/-- The answer to a request that is due. -/
theorem Good.answered (h : Good cm s) {backoff : Nat} (hphase : s.phase = .requesting backoff)
    (answer : Except TokenError TokenResponse) : Good cm (s.answered cm backoff answer) := by
  have hdue := h.phase
  rw [hphase] at hdue
  obtain ⟨hgeneration, hclock⟩ := hdue
  rw [Provider.answered]
  cases hrefresh : refresh cm s.clock s.generation answer with
  | failed e =>
    rw [Provider.refreshed]
    exact ⟨h.issued, ⟨hgeneration, hclock⟩, h.opened, h.valid⟩
  | panicked =>
    rw [Provider.refreshed]
    exact ⟨h.issued, trivial, h.opened, h.valid⟩
  | minted token lifetime =>
    obtain ⟨hscheduled, hminted⟩ := scheduled_of_minted hrefresh
    rw [Provider.refreshed]
    rw [hgeneration] at hminted
    refine ⟨h.issued, ⟨?_, hminted.trans h.next, s.clock, hclock, Nat.le_refl _, hscheduled⟩,
      h.opened, h.valid⟩
    rw [hgeneration, hminted]

/-- The new token becomes the published one. -/
theorem Good.published (h : Good cm s) {token : TokenSnapshot} {lifetime : Nat}
    (hphase : s.phase = .storing token lifetime) : Good cm (s.published token lifetime) := by
  have hstoring := h.phase
  rw [hphase] at hstoring
  obtain ⟨hgeneration, hnext, issued, hdue, hle, hscheduled⟩ := hstoring
  obtain ⟨before, _, hbefore, hspaced⟩ := h.issued
  have hdelay := (refreshDelay_bounds hbefore.usable cm).1
  have hrefreshAt := hbefore.refreshAt
  refine ⟨⟨issued, hle, hscheduled, ?_⟩, hgeneration, ?_, h.valid⟩
  · simp only [Provider.published, hnext]
    exact hspaced.next (by omega)
  · intro conn hconn
    have hold := (h.opened conn hconn).1
    simp only [Provider.published]
    exact ⟨by omega, fun heq => absurd heq (by omega)⟩

theorem Good.step (h : Good cm s) (hstep : RefreshStep cm s s') : Good cm s' := by
  cases hstep with
  | tick later valid =>
    obtain ⟨issued, hle, hscheduled⟩ := h.issued
    refine ⟨⟨issued, Nat.le_trans hle later, hscheduled⟩, ?_, h.opened, valid⟩
    have hphase := h.phase
    cases hcase : s.phase with
    | looping => simpa [hcase, PhaseGood] using hphase
    | sleeping wakeAt => simpa [hcase, PhaseGood] using hphase
    | requesting backoff =>
      simp only [hcase, PhaseGood] at hphase ⊢
      exact ⟨hphase.1, Nat.le_trans hphase.2 later⟩
    | backingOff wakeAt backoff =>
      simp only [hcase, PhaseGood] at hphase ⊢
      exact ⟨hphase.1, Nat.le_trans hphase.2 later⟩
    | storing token lifetime =>
      simp only [hcase, PhaseGood] at hphase ⊢
      obtain ⟨hgeneration, hnext, made, hdue, hle, hscheduled⟩ := hphase
      exact ⟨hgeneration, hnext, made, hdue, Nat.le_trans hle later, hscheduled⟩
    | panicked => trivial
  | schedule phase =>
    have hphase := h.phase
    rw [phase] at hphase
    refine ⟨h.issued, ⟨hphase, ?_⟩, h.opened, h.valid⟩
    simp only
    omega
  | wake phase elapsed =>
    have hphase := h.phase
    rw [phase] at hphase
    exact ⟨h.issued, ⟨hphase.1, Nat.le_trans hphase.2 elapsed⟩, h.opened, h.valid⟩
  | answer answer phase => exact h.answered phase answer
  | retry phase elapsed =>
    have hphase := h.phase
    rw [phase] at hphase
    exact ⟨h.issued, hphase, h.opened, h.valid⟩
  | publish phase => exact h.published phase
  | connect =>
    refine ⟨h.issued, h.phase, ?_, h.valid⟩
    intro conn hconn
    rcases List.mem_cons.mp hconn with rfl | hold
    · exact ⟨Nat.le_refl _, fun _ => rfl⟩
    · exact h.opened conn hold

/-! ## Timely runs -/

/-- The step stores the token that has been made. -/
def Publishes (s s' : Provider) : Prop :=
  ∃ token lifetime, s.phase = .storing token lifetime ∧ s' = s.published token lifetime

/-- A publication in less than the margin, less the half minute before the
expiry, after the time it was scheduled for. -/
def InTime (cm : Option Nat) (s : Provider) : Prop :=
  s.clock < s.token.refreshAt + (refreshMargin s.lifetime cm - tokenHardExpiryMargin)

def TimelyStep (cm : Option Nat) (s s' : Provider) : Prop :=
  RefreshStep cm s s' ∧ (Publishes s s' → InTime cm s)

/-- All cycles that have come to their publication were in time. -/
def TimelyRun (cm : Option Nat) : Provider → Provider → Prop :=
  Relation.ReflTransGen (TimelyStep cm)

theorem TimelyRun.good (h : Good cm s) (hrun : TimelyRun cm s s') : Good cm s' := by
  induction hrun with
  | refl => exact h
  | tail _ hstep ih => exact ih.step hstep.1

/-- More than half a minute is left of the published token. -/
def NotExpiring (s : Provider) : Prop := s.clock + tokenHardExpiryMargin < s.token.expiresAt

theorem Good.not_expiring (h : Good cm s) (hin : InTime cm s) : NotExpiring s := by
  obtain ⟨issued, _, hscheduled, _⟩ := h.issued
  have hdelay := (refreshDelay_bounds hscheduled.usable cm).2
  have hmargin := (refreshMargin_bounds hscheduled.usable cm).1
  have hexpires := hscheduled.expiresAt
  have hrefresh := hscheduled.refreshAt
  simp only [InTime, NotExpiring, minRefreshMargin, tokenHardExpiryMargin, fromSecs] at *
  omega

/-- A step stores a token, or leaves the published one as it is. -/
theorem step_token (hstep : RefreshStep cm s s') :
    Publishes s s' ∨ (s'.token = s.token ∧ s.clock ≤ s'.clock) := by
  cases hstep with
  | tick later valid => exact .inr ⟨rfl, later⟩
  | schedule phase => exact .inr ⟨rfl, Nat.le_refl _⟩
  | wake phase elapsed => exact .inr ⟨rfl, Nat.le_refl _⟩
  | answer answer phase =>
    rw [Provider.answered]
    cases refresh cm s.clock s.generation answer <;> exact .inr ⟨rfl, Nat.le_refl _⟩
  | retry phase elapsed => exact .inr ⟨rfl, Nat.le_refl _⟩
  | publish phase => exact .inl ⟨_, _, phase, rfl⟩
  | connect => exact .inr ⟨rfl, Nat.le_refl _⟩

/-- From a publication back to the states of its cycle. -/
theorem not_expiring_of_publish {last : Provider} (h : Good cm s) (hrun : TimelyRun cm s last)
    (hin : InTime cm last) : NotExpiring s := by
  induction hrun using Relation.ReflTransGen.head_induction_on with
  | refl => exact h.not_expiring hin
  | head hstep _ ih =>
    rcases step_token hstep.1 with hpublish | ⟨htoken, hclock⟩
    · exact h.not_expiring (hstep.2 hpublish)
    · have hnext := ih (h.step hstep.1)
      simp only [NotExpiring, htoken] at hnext ⊢
      omega

theorem Good.generation_lt (h : Good cm s) (hpublish : Publishes s s') :
    s.token.generation < s'.token.generation := by
  obtain ⟨token, lifetime, hphase, rfl⟩ := hpublish
  have hstoring := h.phase
  rw [hphase] at hstoring
  have hnext := hstoring.2.1
  simp only [Provider.published]
  omega

theorem TimelyRun.generation_le (h : Good cm s) (hrun : TimelyRun cm s s') :
    s.token.generation ≤ s'.token.generation := by
  induction hrun with
  | refl => exact Nat.le_refl _
  | tail hrun hstep ih =>
    rcases step_token hstep.1 with hpublish | ⟨htoken, _⟩
    · exact Nat.le_trans ih (Nat.le_of_lt ((TimelyRun.good h hrun).generation_lt hpublish))
    · rw [htoken]
      exact ih

/-! ## No outage -/

/-- The schedule of a token that lives for `lifetime`. -/
structure Schedule (cm : Option Nat) (lifetime : Nat) : Prop where
  margin : minRefreshMargin ≤ refreshMargin lifetime cm ∧
    refreshMargin lifetime cm ≤ lifetime - minRefreshDelay
  delay : minRefreshDelay ≤ refreshDelay lifetime cm
  cap : ∃ cap, maxConnectionLifetime lifetime cm = some cap ∧ 0 < cap ∧ 2 * cap ≤ lifetime

/-- The published token serves, and connections with an older one go. -/
structure Serving (s : Provider) : Prop where
  alive : isTokenExpiring s.clock s.token.expiresAt tokenHardExpiryMargin = false
  accepted : ∀ conn ∈ s.opened, conn.generation = s.token.generation →
    refusedAsExpired s.clock conn = false
  retired : ∀ conn ∈ s.opened, conn.generation ≠ s.token.generation →
    conn.generation < s.token.generation ∧ hasBroken (.oauth s.token) conn = true

theorem Good.serving (h : Good cm s) (halive : NotExpiring s) : Serving s := by
  have hexpiring : isTokenExpiring s.clock s.token.expiresAt tokenHardExpiryMargin = false := by
    simp only [NotExpiring] at halive
    simp only [isTokenExpiring, show s.clock ≤ s.token.expiresAt by omega, if_true,
      decide_eq_false_iff_not]
    omega
  refine ⟨hexpiring, ?_, ?_⟩
  · intro conn hconn hsame
    rw [refusedAsExpired, (h.opened conn hconn).2 hsame]
    exact hexpiring
  · intro conn hconn hother
    have hle := (h.opened conn hconn).1
    exact ⟨by omega, by simp [hasBroken, shouldRetireConnection, hother]⟩

/-- Every accepted lifetime has a schedule, and nothing in it overflows. In
a run whose cycles publish in time the published token serves at every
moment up to the next publication, which is of a later generation. -/
theorem token_schedule_leaves_no_outage (cm : Option Nat) :
    (∀ expiresIn lifetime, usableTokenLifetime expiresIn = .ok lifetime → Schedule cm lifetime) ∧
    (∀ now generation answer, now + maxTokenLifetime < instantLimit →
      refresh cm now generation answer ≠ .panicked) ∧
    ∀ start s last next, Started cm start → TimelyRun cm start s → TimelyRun cm s last →
      TimelyStep cm last next → Publishes last next →
      Serving s ∧ s.token.generation < next.token.generation := by
  refine ⟨?_, fun now generation answer h => refresh_not_panicked h generation answer, ?_⟩
  · intro expiresIn lifetime h
    have husable := usable_of_ok h
    exact ⟨refreshMargin_bounds husable cm, (refreshDelay_bounds husable cm).1,
      maxConnectionLifetime_bounds husable cm⟩
  · intro start s last next hstart hbefore hrun hstep hpublish
    have hgood := TimelyRun.good hstart.good hbefore
    have hlast := TimelyRun.good hgood hrun
    have halive := not_expiring_of_publish hgood hrun (hstep.2 hpublish)
    exact ⟨hgood.serving halive,
      Nat.lt_of_le_of_lt (TimelyRun.generation_le hgood hrun) (hlast.generation_lt hpublish)⟩

/-- A token of an hour. -/
def hourToken (now generation : Nat) : TokenSnapshot where
  secret := "token"
  expiresAt := now + fromSecs 3600
  refreshAt := now + fromSecs 2700
  generation := generation
  maxConnectionLifetime := fromSecs 675

/-- A provider with the first token, and a connection that was opened with
it. -/
def hourProvider (phase : Phase) (clock generation : Nat) : Provider where
  clock := clock
  token := hourToken 0 1
  lifetime := fromSecs 3600
  generation := generation
  phase := phase
  opened := [⟨1, some (0 + fromSecs 3600)⟩]

theorem usableTokenLifetime_hour : usableTokenLifetime 3600 = .ok (fromSecs 3600) := by
  simp [usableTokenLifetime, minUsableTokenLifetime, maxTokenLifetime, fromSecs]

theorem refreshMargin_hour : refreshMargin (fromSecs 3600) none = fromSecs 900 := by
  simp [refreshMargin, defaultRefreshMarginDivisor, minRefreshMargin, minRefreshDelay, fromSecs]

theorem refresh_hour {now : Nat} (h : now ≤ fromSecs 3600) (generation : Nat) :
    refresh none now generation (.ok ⟨"token", 3600⟩) =
      .minted (hourToken now (nextGeneration generation)) (fromSecs 3600) := by
  have hdelay : refreshDelay (fromSecs 3600) none = fromSecs 2700 := by
    rw [refreshDelay, refreshMargin_hour]
    simp [fromSecs]
  have hcap : maxConnectionLifetime (fromSecs 3600) none = some (fromSecs 675) := by
    rw [maxConnectionLifetime, refreshMargin_hour]
    simp [durationMul, durationLimit, connectionLifetimeMarginNumerator,
      connectionLifetimeMarginDenominator, minConnectionLifetime, fromSecs]
  have hadd : ∀ d ≤ fromSecs 3600, instantAdd now d = some (now + d) := by
    intro d hd
    apply instantAdd_of_lt
    simp only [instantLimit, fromSecs] at *
    omega
  have hmint : mint none now generation (fromSecs 3600) "token" =
      some (hourToken now (nextGeneration generation)) := by
    rw [mint, hdelay, hcap, hadd _ (Nat.le_refl _), hadd _ (by simp [fromSecs])]
    rfl
  rw [refresh, usableTokenLifetime_hour, Refreshed.ofLifetime, hmint, Refreshed.ofMint]

/-- The second token has been made, a minute late. -/
def hourStoring : Provider :=
  hourProvider (.storing (hourToken (fromSecs 2760) 2) (fromSecs 3600)) (fromSecs 2760) 2

/-- The run of a first refresh. -/
theorem token_schedule_leaves_no_outage_hour :
    Schedule none (fromSecs 3600) ∧
    refresh none 0 0 (.ok ⟨"token", 3600⟩) ≠ .panicked ∧
    Serving (hourProvider .looping 0 1) ∧
    Serving hourStoring := by
  have htheorem := token_schedule_leaves_no_outage none
  have quiet : ∀ {s s' : Provider}, RefreshStep none s s' →
      (∀ token lifetime, s.phase ≠ .storing token lifetime) → TimelyStep none s s' := by
    intro s s' hstep hphase
    refine ⟨hstep, ?_⟩
    rintro ⟨token, lifetime, hstoring, _⟩
    exact absurd hstoring (hphase token lifetime)
  have hstart : Started none (hourProvider .looping 0 1) :=
    ⟨⟨0, Nat.le_refl _, _, refresh_hour (by simp) 0⟩, rfl, rfl,
      by simp [hourProvider, connect, hourToken], by simp [hourProvider, instantLimit, fromSecs]⟩
  have hsleep : RefreshStep none (hourProvider .looping 0 1)
      (hourProvider (.sleeping (fromSecs 2700)) 0 1) := by
    have hstep : RefreshStep none (hourProvider .looping 0 1) _ := .schedule rfl
    simpa [hourProvider, hourToken] using hstep
  have htick : RefreshStep none (hourProvider (.sleeping (fromSecs 2700)) 0 1)
      (hourProvider (.sleeping (fromSecs 2700)) (fromSecs 2760) 1) :=
    .tick (Nat.zero_le _) (by simp [instantLimit, fromSecs])
  have hwake : RefreshStep none (hourProvider (.sleeping (fromSecs 2700)) (fromSecs 2760) 1)
      (hourProvider (.requesting minRetryBackoff) (fromSecs 2760) 1) :=
    .wake rfl (by simp [hourProvider, fromSecs])
  have hanswer : RefreshStep none (hourProvider (.requesting minRetryBackoff) (fromSecs 2760) 1)
      hourStoring := by
    have hstep : RefreshStep none (hourProvider (.requesting minRetryBackoff) (fromSecs 2760) 1) _ :=
      .answer (.ok ⟨"token", 3600⟩) rfl
    rw [Provider.answered] at hstep
    simp only [hourProvider, refresh_hour (show fromSecs 2760 ≤ fromSecs 3600 by simp [fromSecs])]
      at hstep
    exact hstep
  have hrun : TimelyRun none (hourProvider .looping 0 1) hourStoring := by
    refine .head (quiet hsleep ?_) (.head (quiet htick ?_) (.head (quiet hwake ?_)
      (.head (quiet hanswer ?_) .refl))) <;> simp [hourProvider]
  have hpublish : Publishes hourStoring _ := ⟨_, _, rfl, rfl⟩
  have hlast : InTime none hourStoring := by
    simp only [InTime, hourStoring, hourProvider, refreshMargin_hour]
    simp [hourToken, tokenHardExpiryMargin, fromSecs]
  exact ⟨htheorem.1 3600 _ usableTokenLifetime_hour,
    htheorem.2.1 0 0 _ (by simp [maxTokenLifetime, instantLimit, fromSecs]),
    (htheorem.2.2 _ _ _ _ hstart .refl hrun ⟨.publish rfl, fun _ => hlast⟩ hpublish).1,
    (htheorem.2.2 _ _ _ _ hstart hrun .refl ⟨.publish rfl, fun _ => hlast⟩ hpublish).1⟩

end ForwardProxy.Datastore.RedisAuth
