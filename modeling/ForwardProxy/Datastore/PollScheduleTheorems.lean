/-
ForwardProxy.Datastore.PollScheduleTheorems — how long a poll takes, and how
far apart polls are.

With the clock left out, a cycle is a run of the executor
(`TimedGood.untimed`). Its launches wait for their slots, and for a request
to end once as many are in flight as the config allows; both waits are
bounded by the place of the launch, as in `Time.launchBound`.
-/
import Mathlib.Tactic.Linarith
import ForwardProxy.Datastore.PollSchedule
import ForwardProxy.Time.Pacing

namespace ForwardProxy.Datastore

open Time

/-! ## A cycle -/

/-- A sublist has one of the elements that come early enough to leave room
for the rest of it. -/
theorem exists_getElem_of_sublist {β : Type} {xs ys : List β} (h : xs.Sublist ys) (hne : xs ≠ []) :
    ∃ (i : Nat) (hi : i < ys.length), ys[i] ∈ xs ∧ i + xs.length ≤ ys.length := by
  induction h with
  | slnil => exact absurd rfl hne
  | @cons xs ys y hsub ih =>
    obtain ⟨i, hi, hmem, hle⟩ := ih hne
    exact ⟨i + 1, by simpa using hi, by simpa using hmem, by simp only [List.length_cons]; omega⟩
  | @cons_cons xs ys x hsub =>
    have hlength := hsub.length_le
    exact ⟨0, by simp, by simp, by simpa using hlength⟩

section Cycle

variable {α : Type} {config : PreparedFetchExecutionConfig} {items : List α} {start : Nat}
  {s s' : TimedExecutor α}

abbrev PreparedFetchExecutionConfig.bound (config : PreparedFetchExecutionConfig)
    (start i : Nat) : Nat :=
  launchBound start config.launchSpacing config.maxInFlight config.requestGuardTimeout i

/-- What is true throughout a cycle. The clock is at a launch, or at the
end of a request: the `k`-th to be joined was one of the first `k`. -/
structure TimedGood (config : PreparedFetchExecutionConfig) (items : List α) (start : Nat)
    (s : TimedExecutor α) : Prop where
  untimed : ExecReach config.maxInFlight items s.untimed
  running : s.inFlight.Sublist s.launches
  spaced : s.launches.Pairwise fun a b => a.2 + config.launchSpacing ≤ b.2
  past : ∀ launch ∈ s.launches, start ≤ launch.2 ∧ launch.2 ≤ s.now
  next : config.launchSpacing ≠ 0 →
    ∀ launch ∈ s.launches, launch.2 + config.launchSpacing ≤ s.nextLaunchAt
  slot : s.nextLaunchAt ≤ config.bound start s.launches.length
  onTime : ∀ (i : Nat) (hi : i < s.launches.length), s.launches[i].2 ≤ config.bound start i
  started : start ≤ s.now
  clock : s.now ≤ config.bound start (s.launches.length - 1) ∨
    ∃ k < s.reports.length, s.now ≤ config.bound start k + config.requestGuardTimeout
  refilled : s.phase = .filling → s.pendingItems ≠ [] → s.reports ≠ [] →
    s.reports.length + config.maxInFlight ≤ s.launches.length + 1

theorem TimedGood.new (config : PreparedFetchExecutionConfig) (items : List α) (start : Nat) :
    TimedGood config items start (.new items start) := by
  constructor <;> simp [TimedExecutor.new, launchBound_zero]
  exact Relation.ReflTransGen.refl

theorem TimedGood.counted (h : TimedGood config items start s) :
    s.inFlight.length + s.reports.length = s.launches.length := by
  simpa [TimedExecutor.untimed] using (h.untimed.good config.maxInFlight_pos).reported

theorem waitForLaunchSlot_spec (nextLaunchAt launchSpacing now : Nat) :
    let slot := waitForLaunchSlot nextLaunchAt launchSpacing now
    now ≤ slot.1 ∧ slot.1 ≤ max nextLaunchAt now ∧
      slot.2 ≤ max nextLaunchAt (slot.1 + launchSpacing) ∧
      (launchSpacing ≠ 0 → nextLaunchAt ≤ slot.1 ∧ slot.2 = slot.1 + launchSpacing) := by
  unfold waitForLaunchSlot
  split <;> simp_all

/-- When there is room for a launch, the requests that it has waited for
came at least `maxInFlight` places before. -/
theorem TimedGood.clock_le (h : TimedGood config items start s) (phase : s.phase = .filling)
    (next : s.pendingItems ≠ []) : s.now ≤ config.bound start s.launches.length := by
  rcases h.clock with hclock | ⟨k, hk, hclock⟩
  · exact hclock.trans (launchBound_mono (Nat.sub_le _ _))
  · have hroom := h.refilled phase next (List.ne_nil_of_length_pos (Nat.zero_lt_of_lt hk))
    calc s.now ≤ config.bound start k + config.requestGuardTimeout := hclock
      _ ≤ config.bound start (k + config.maxInFlight) :=
        launchBound_add_timeout config.maxInFlight_pos
      _ ≤ config.bound start s.launches.length := launchBound_mono (by omega)

theorem TimedGood.spawn (h : TimedGood config items start s) {item : α} {rest : List α}
    (phase : s.phase = .filling) (room : s.inFlight.length < config.maxInFlight)
    (next : s.pendingItems = item :: rest) :
    TimedGood config items start
      (s.spawn item rest (waitForLaunchSlot s.nextLaunchAt config.launchSpacing s.now)) := by
  obtain ⟨hnow, hslot, hnext, hspaced⟩ :=
    waitForLaunchSlot_spec s.nextLaunchAt config.launchSpacing s.now
  have hclock := h.clock_le phase (by rw [next]; exact List.cons_ne_nil _ _)
  generalize waitForLaunchSlot s.nextLaunchAt config.launchSpacing s.now = slot at *
  have hbound : slot.1 ≤ config.bound start s.launches.length :=
    hslot.trans (max_le h.slot hclock)
  -- no launch is less than the spacing before this one
  have hlast : ∀ launch ∈ s.launches, launch.2 + config.launchSpacing ≤ slot.1 := by
    intro launch hmem
    by_cases hzero : config.launchSpacing = 0
    · rw [hzero, Nat.add_zero]
      exact (h.past launch hmem).2.trans hnow
    · exact (h.next hzero launch hmem).trans (hspaced hzero).1
  constructor
  · refine h.untimed.tail ?_
    have hstep : ExecStep config.maxInFlight s.untimed (s.untimed.spawn item rest) :=
      .spawn phase (by simpa [TimedExecutor.untimed] using room) next
    simpa [TimedExecutor.untimed, TimedExecutor.spawn, Executor.spawn] using hstep
  · exact h.running.append (List.Sublist.refl _)
  · refine List.pairwise_append.mpr ⟨h.spaced, List.pairwise_singleton _ _, ?_⟩
    intro launch hmem last hlastmem
    rw [List.mem_singleton.mp hlastmem]
    exact hlast launch hmem
  · intro launch hmem
    rcases List.mem_append.mp hmem with hmem | hmem
    · exact ⟨(h.past launch hmem).1, (h.past launch hmem).2.trans hnow⟩
    · rw [List.mem_singleton.mp hmem]
      exact ⟨h.started.trans hnow, le_rfl⟩
  · intro hzero launch hmem
    have hnext' : slot.2 = slot.1 + config.launchSpacing := (hspaced hzero).2
    show launch.2 + config.launchSpacing ≤ slot.2
    rcases List.mem_append.mp hmem with hmem | hmem
    · have := hlast launch hmem
      omega
    · rw [List.mem_singleton.mp hmem, hnext']
  · simp only [TimedExecutor.spawn, List.length_append, List.length_singleton]
    refine hnext.trans (max_le (h.slot.trans (launchBound_mono (Nat.le_succ _))) ?_)
    exact (Nat.add_le_add_right hbound _).trans launchBound_add_spacing
  · intro i hi
    simp only [TimedExecutor.spawn, List.length_append, List.length_singleton] at hi ⊢
    rcases Nat.lt_succ_iff_lt_or_eq.mp hi with hi | rfl
    · rw [List.getElem_append_left hi]
      exact h.onTime i hi
    · simpa using hbound
  · exact h.started.trans hnow
  · exact .inl (by simpa [TimedExecutor.spawn] using hbound)
  · intro hphase hpending hreports
    have hroom := h.refilled phase (by rw [next]; exact List.cons_ne_nil _ _) hreports
    simp only [TimedExecutor.spawn, List.length_append, List.length_singleton]
    omega

theorem TimedGood.join (h : TimedGood config items start s) {before after : List (α × Nat)}
    {task : α × Nat} (outcome : JoinOutcome) (endsAt : Nat) (phase : s.phase = .waiting)
    (running : s.inFlight = before ++ task :: after) (later : s.now ≤ endsAt)
    (soon : ∀ other ∈ s.inFlight, endsAt ≤ max s.now (other.2 + config.requestGuardTimeout)) :
    TimedGood config items start (s.joined (before ++ after) outcome endsAt) := by
  have hcounted := h.counted
  have hsub : (before ++ after).Sublist s.inFlight := by
    rw [running]
    exact (List.Sublist.refl before).append (List.sublist_cons_self _ _)
  constructor
  · refine h.untimed.tail ?_
    have hstep : ExecStep config.maxInFlight s.untimed
        (s.untimed.joined (before.map Prod.fst ++ after.map Prod.fst) outcome) :=
      @ExecStep.join _ _ _ _ _ task.1 outcome phase (by simp [TimedExecutor.untimed, running])
    simpa [TimedExecutor.untimed, TimedExecutor.joined, Executor.joined] using hstep
  · exact hsub.trans h.running
  · exact h.spaced
  · exact fun launch hmem => ⟨(h.past launch hmem).1, (h.past launch hmem).2.trans later⟩
  · exact h.next
  · exact h.slot
  · exact h.onTime
  · exact h.started.trans later
  · -- one of those in flight is among the first, and its timeout is the first to pass
    obtain ⟨i, hi, hmem, hle⟩ := exists_getElem_of_sublist h.running (by simp [running])
    have hends := soon _ hmem
    have honTime := h.onTime i hi
    simp only [TimedExecutor.joined, List.length_append, List.length_singleton]
    rcases le_max_iff.mp hends with hends | hends
    · rcases h.clock with hclock | ⟨k, hk, hclock⟩
      · exact .inl (hends.trans hclock)
      · exact .inr ⟨k, by omega, hends.trans hclock⟩
    · exact .inr ⟨i, by omega, by omega⟩
  · intro _ hpending _
    have hfull := ((h.untimed.good config.maxInFlight_pos).filled phase).resolve_right hpending
    have hfull' : s.inFlight.length = config.maxInFlight := by
      simpa [TimedExecutor.untimed] using hfull
    simp only [TimedExecutor.joined, List.length_append, List.length_singleton]
    omega

/-- A phase that ends takes no time. -/
theorem TimedGood.pass (h : TimedGood config items start s) {phase : ExecPhase}
    (hne : phase ≠ .filling)
    (hstep : ExecStep config.maxInFlight s.untimed { s.untimed with phase := phase }) :
    TimedGood config items start { s with phase := phase } where
  untimed := h.untimed.tail hstep
  running := h.running
  spaced := h.spaced
  past := h.past
  next := h.next
  slot := h.slot
  onTime := h.onTime
  started := h.started
  clock := h.clock
  refilled hphase := absurd hphase hne

theorem TimedGood.step (h : TimedGood config items start s) (hstep : TimedStep config s s') :
    TimedGood config items start s' := by
  cases hstep with
  | spawn phase room next => exact h.spawn phase room next
  | full phase noRoom =>
    exact h.pass (by simp) (.full phase (by simpa [TimedExecutor.untimed] using noRoom))
  | exhausted phase room next =>
    exact h.pass (by simp) (.exhausted phase (by simpa [TimedExecutor.untimed] using room) next)
  | finish phase empty =>
    exact h.pass (by simp) (.finish phase (by simp [TimedExecutor.untimed, empty]))
  | join outcome endsAt phase running later soon =>
    exact h.join outcome endsAt phase running later soon

theorem TimedReach.good (h : TimedReach config items start s) : TimedGood config items start s := by
  induction h with
  | refl => exact .new config items start
  | tail _ hstep ih => exact ih.step hstep

/-- The longest that a cycle of `n` requests takes. -/
def PreparedFetchExecutionConfig.cycleTime (config : PreparedFetchExecutionConfig) (n : Nat) :
    Nat :=
  if n = 0 then 0
  else (n - 1) * config.launchSpacing + ((n - 1) / config.maxInFlight + 1) *
    config.requestGuardTimeout

theorem TimedGood.now_le (h : TimedGood config items start s) :
    s.now ≤ start + config.cycleTime items.length := by
  have hlaunched : s.launches.length ≤ items.length := by
    have horder := congrArg List.length (h.untimed.good config.maxInFlight_pos).inOrder
    simp only [TimedExecutor.untimed, List.length_append, List.length_map] at horder
    omega
  have hcounted := h.counted
  unfold PreparedFetchExecutionConfig.cycleTime
  split
  · rename_i hzero
    rcases h.clock with hclock | ⟨k, hk, -⟩
    · have hbound : config.bound start (s.launches.length - 1) = start := by
        rw [show s.launches.length - 1 = 0 by omega]
        exact launchBound_zero
      omega
    · omega
  · have hend : s.now ≤ config.bound start (items.length - 1) + config.requestGuardTimeout := by
      rcases h.clock with hclock | ⟨k, hk, hclock⟩
      · exact (hclock.trans (launchBound_mono (by omega))).trans (Nat.le_add_right _ _)
      · exact hclock.trans (Nat.add_le_add_right (launchBound_mono (by omega)) _)
    have hbound : config.bound start (items.length - 1) + config.requestGuardTimeout =
        start + ((items.length - 1) * config.launchSpacing +
          ((items.length - 1) / config.maxInFlight + 1) * config.requestGuardTimeout) := by
      simp only [PreparedFetchExecutionConfig.bound, launchBound, Nat.succ_mul]
      omega
    omega

/-- A cycle that has not ended goes on, now or when the next request ends. -/
theorem exists_timedStep (h : s.phase ≠ .ended) : ∃ s', TimedStep config s s' := by
  cases hphase : s.phase with
  | ended => exact absurd hphase h
  | filling =>
    by_cases hroom : s.inFlight.length < config.maxInFlight
    · cases hnext : s.pendingItems with
      | nil => exact ⟨_, .exhausted hphase hroom hnext⟩
      | cons item rest => exact ⟨_, .spawn hphase hroom hnext⟩
    · exact ⟨_, .full hphase hroom⟩
  | waiting =>
    cases htasks : s.inFlight with
    | nil => exact ⟨_, .finish hphase htasks⟩
    | cons task others =>
      exact ⟨_, @TimedStep.join _ _ _ [] others task .completed s.now hphase htasks le_rfl
        fun _ _ => le_max_left _ _⟩

/-- However long the requests take, they are launched in their order, one
`launchSpacing` apart or more, the `i`-th no later than `i` spacings and one
timeout for every `maxInFlight` requests before it; and the cycle is over
one timeout after the last can have been launched. -/
theorem cycle_on_time (config : PreparedFetchExecutionConfig) (items : List α) (start : Nat) :
    (∀ s, TimedReach config items start s →
      ExecReach config.maxInFlight items s.untimed ∧
      (s.launches.Pairwise fun a b => a.2 + config.launchSpacing ≤ b.2) ∧
      (∀ (i : Nat) (hi : i < s.launches.length), start ≤ s.launches[i].2 ∧
        s.launches[i].2 ≤ start + i * config.launchSpacing +
          i / config.maxInFlight * config.requestGuardTimeout) ∧
      s.now ≤ start + config.cycleTime items.length) ∧
    ∀ s, TimedReach config items start s → s.phase ≠ .ended → ∃ s', TimedStep config s s' := by
  refine ⟨fun s hreach => ?_, fun s _ h => exists_timedStep h⟩
  have hgood := hreach.good
  exact ⟨hgood.untimed, hgood.spaced,
    fun i hi => ⟨(hgood.past _ (List.getElem_mem hi)).1, hgood.onTime i hi⟩, hgood.now_le⟩

theorem TimedReach.launches_of_ended (h : TimedReach config items start s)
    (hended : s.phase = .ended) : s.launches.map Prod.fst = items := by
  have hexec := h.good.untimed.good config.maxInFlight_pos
  have horder := hexec.inOrder
  rw [(hexec.ended hended).2, List.append_nil] at horder
  exact horder

end Cycle

/-! ## The intervals -/

namespace BackgroundPollDispatchConfig

variable (config : BackgroundPollDispatchConfig) {baseInterval : Nat}

def baseIntervalMs (baseInterval : Nat) : Nat := min (max (baseInterval / 1000000) 1) u64Max

def jitterWindowMs (baseInterval : Nat) : Nat := max (baseIntervalMs baseInterval / 10) 1

end BackgroundPollDispatchConfig

/-! ## The loop -/

section Loop

variable {config : PollConfig} {start : Nat} {l l' : PollLoop}

abbrev PollReach (config : PollConfig) (start : Nat) : PollLoop → Prop :=
  Relation.ReflTransGen (PollLoopStep config) (.new start)

namespace PollConfig

variable (config : PollConfig)

/-- The instant that poll `k` is to start at. -/
def schedule (start : Nat) : Nat → Nat
  | 0 => start
  | k + 1 => schedule start k +
    config.dispatch.pollIntervalForCycle config.basePollInterval (BitVec.ofNat 64 (k + 1))

end PollConfig

theorem dispatchOrder_perm (dispatch : BackgroundPollDispatchConfig)
    (keyHash : AuthorizedRequestContext → BitVec 64) (pollCycle : BitVec 64)
    (prepared : List SdkKeyStoreItem) :
    (dispatchOrder dispatch keyHash pollCycle prepared).Perm prepared := by
  unfold dispatchOrder
  split
  · exact List.perm_insertionSort _ _
  · exact List.Perm.refl _

/-- What a record says of its cycle. -/
structure PollRecord.Sound (config : PollConfig) (c : PollRecord) : Prop where
  ended : c.startedAt ≤ c.endedAt
  time : c.endedAt ≤ c.startedAt + config.execution.cycleTime c.prepared.length
  launched : (c.launches.map Prod.fst).Perm c.prepared
  within : ∀ launch ∈ c.launches, c.startedAt ≤ launch.2 ∧ launch.2 ≤ c.endedAt

/-- What is true throughout. -/
structure PollGood (config : PollConfig) (start : Nat) (l : PollLoop) : Prop where
  cycle : l.pollCycle = BitVec.ofNat 64 l.cycles.length
  next : l.nextPollAt = config.schedule start l.cycles.length
  now : l.now = ((l.cycles.getLast?).map PollRecord.endedAt).getD start
  sound : ∀ c ∈ l.cycles, c.Sound config
  first : ∀ c ∈ l.cycles.head?, c.startedAt = start
  follow : ∀ (k : Nat) (hk : k + 1 < l.cycles.length),
    l.cycles[k + 1].startedAt = max (config.schedule start (k + 1)) l.cycles[k].endedAt

theorem PollGood.new (config : PollConfig) (start : Nat) : PollGood config start (.new start) := by
  constructor <;> simp [PollLoop.new, PollConfig.schedule]

theorem PollGood.step (h : PollGood config start l) (hstep : PollLoopStep config l l') :
    PollGood config start l' := by
  cases hstep with
  | @poll prepared s run ended =>
    have hgood := run.good
    have hperm := dispatchOrder_perm config.dispatch config.keyHash l.pollCycle prepared
    have hsound : PollRecord.Sound config
        ⟨max l.nextPollAt l.now, s.now, prepared, s.launches⟩ := by
      refine ⟨hgood.started, ?_, ?_, hgood.past⟩
      · rw [← hperm.length_eq]
        exact hgood.now_le
      · rw [run.launches_of_ended ended]
        exact hperm
    constructor
    · simp [h.cycle, BitVec.ofNat_add]
    · have hcycle : l.pollCycle + 1 = BitVec.ofNat 64 (l.cycles.length + 1) := by
        rw [h.cycle, BitVec.ofNat_add]
        rfl
      simp only [h.next, hcycle, List.length_append, List.length_singleton, PollConfig.schedule]
    · simp
    · intro c hc
      rcases List.mem_append.mp hc with hc | hc
      · exact h.sound c hc
      · rw [List.mem_singleton.mp hc]
        exact hsound
    · intro c hc
      cases hcycles : l.cycles with
      | nil =>
        have hnext := h.next
        have hnow := h.now
        simp only [hcycles, List.length_nil, PollConfig.schedule, List.getLast?_nil,
          Option.map_none, Option.getD_none] at hnext hnow
        simp only [hcycles, List.nil_append, List.head?_cons, Option.mem_some_iff] at hc
        rw [← hc, hnext, hnow, max_self]
      | cons first rest =>
        exact h.first c (by simpa [hcycles] using hc)
    · intro k hk
      simp only [List.length_append, List.length_singleton, Nat.add_lt_add_iff_right] at hk
      rcases Nat.lt_or_eq_of_le (Nat.succ_le_of_lt hk) with hlt | heq
      · rw [List.getElem_append_left (by omega), List.getElem_append_left (by omega)]
        exact h.follow k hlt
      · have hlast : l.now = l.cycles[k].endedAt := by
          rw [h.now, List.getLast?_eq_getElem?]
          simp [← heq]
        rw [List.getElem_append_left (show k < l.cycles.length from hk), ← hlast]
        simp only [List.getElem_concat_length heq]
        rw [h.next, ← heq]

theorem PollReach.good (h : PollReach config start l) : PollGood config start l := by
  induction h with
  | refl => exact .new config start
  | tail _ hstep ih => exact ih.step hstep

end Loop

section Gates

variable {policy : RequestBackoffPolicy} {s s' : GateSystem}

theorem shouldMakeRequest_other (gates : RequestGates) {rc : AuthorizedRequestContext}
    (h : rc.path ≠ .v1GetIdLists) (now : Nat) :
    gates.shouldMakeRequest rc now = (true, gates) :=
  if_neg h

theorem shouldMakeRequest_idLists (gates : RequestGates) {rc : AuthorizedRequestContext}
    (h : rc.path = .v1GetIdLists) (now : Nat) :
    gates.shouldMakeRequest rc now =
      if ∀ last ∈ gates.lastRequestByKey rc, fromSecs 60 < now - last then
        (true, { gates with
          lastRequestByKey := Function.update gates.lastRequestByKey rc (some now) })
      else (false, gates) := by
  unfold RequestGates.shouldMakeRequest
  rw [if_pos h]
  cases gates.lastRequestByKey rc <;> simp

theorem canAttempt_eq_true {backoff : RequestBackoffController AuthorizedRequestContext}
    {rc : AuthorizedRequestContext} {now : Nat} :
    (backoff.canAttempt rc now).1 = true ↔ ∀ state ∈ backoff rc, state.retryAfter ≤ now := by
  unfold RequestBackoffController.canAttempt
  cases backoff rc <;> simp

theorem prepare_lastRequestByKey (gates : RequestGates) (item : SdkKeyStoreItem) (now : Nat) :
    (gates.prepare item now).2.lastRequestByKey =
      (gates.shouldMakeRequest item.requestContext now).2.lastRequestByKey := by
  unfold RequestGates.prepare
  dsimp only
  split <;> rfl

theorem prepare_eq_true {gates : RequestGates} {item : SdkKeyStoreItem} {now : Nat} :
    (gates.prepare item now).1 = true ↔
      (gates.shouldMakeRequest item.requestContext now).1 = true ∧
        ∀ state ∈ gates.backoff item.requestContext, state.retryAfter ≤ now := by
  have hbackoff : (gates.shouldMakeRequest item.requestContext now).2.backoff = gates.backoff := by
    by_cases hpath : item.requestContext.path = .v1GetIdLists
    · rw [shouldMakeRequest_idLists gates hpath]
      split <;> rfl
    · rw [shouldMakeRequest_other gates hpath]
  unfold RequestGates.prepare
  dsimp only
  split
  · rename_i hshould
    simp only [hbackoff, canAttempt_eq_true, hshould, true_and]
  · rename_i hshould
    simp [hshould]

/-- Requests for the id lists of one context lie more than a minute apart. -/
def IdListsSpaced (requests : List (AuthorizedRequestContext × Nat)) : Prop :=
  requests.Pairwise fun later earlier =>
    later.1 = earlier.1 → later.1.path = .v1GetIdLists → earlier.2 + fromSecs 60 < later.2

/-- What is true throughout. The last request of a context is its newest. -/
structure GateGood (s : GateSystem) : Prop where
  past : ∀ request ∈ s.asked, request.2 ≤ s.clock
  last : ∀ rc, rc.path = .v1GetIdLists →
    ∀ t, (rc, t) ∈ s.asked → ∃ last ∈ s.gates.lastRequestByKey rc, t ≤ last
  asked : ∀ rc, ∀ t ∈ s.gates.lastRequestByKey rc, (rc, t) ∈ s.asked
  spaced : IdListsSpaced s.asked
  prepared : s.prepared.Sublist s.asked

theorem GateGood.new : GateGood .new := by
  constructor <;> simp [GateSystem.new, RequestGates.new, IdListsSpaced]

/-- The first check looks at all the requests there have been. -/
theorem GateGood.should_iff (h : GateGood s) (rc : AuthorizedRequestContext) :
    (s.gates.shouldMakeRequest rc s.clock).1 = true ↔
      (rc.path = .v1GetIdLists → ∀ t, (rc, t) ∈ s.asked → t + fromSecs 60 < s.clock) := by
  by_cases hpath : rc.path = .v1GetIdLists
  · rw [shouldMakeRequest_idLists s.gates hpath]
    constructor
    · intro hshould _ t hmem
      split at hshould
      · rename_i hlate
        obtain ⟨last, hlast, hle⟩ := h.last rc hpath t hmem
        have := hlate last hlast
        omega
      · simp at hshould
    · intro hlate
      rw [if_pos fun last hlast => ?_]
      have := hlate hpath last (h.asked rc last hlast)
      omega
  · simp [shouldMakeRequest_other s.gates hpath, hpath]

theorem GateGood.prepare (h : GateGood s) (item : SdkKeyStoreItem) : GateGood (s.prepare item) := by
  have hshould_iff := h.should_iff item.requestContext
  have hprepare : (s.gates.prepare item s.clock).1 = true →
      (s.gates.shouldMakeRequest item.requestContext s.clock).1 = true :=
    fun hprepare => (prepare_eq_true.mp hprepare).1
  have hlastRequest := prepare_lastRequestByKey s.gates item s.clock
  simp only [GateSystem.prepare]
  cases hshould : (s.gates.shouldMakeRequest item.requestContext s.clock).1 with
  | false =>
    have hsame : (s.gates.shouldMakeRequest item.requestContext s.clock).2 = s.gates := by
      by_cases hpath : item.requestContext.path = .v1GetIdLists
      · rw [shouldMakeRequest_idLists s.gates hpath] at hshould ⊢
        split at hshould
        · simp at hshould
        · rename_i hlate
          rw [if_neg hlate]
      · rw [shouldMakeRequest_other s.gates hpath]
    have hcannot : (s.gates.prepare item s.clock).1 = false := by
      rw [hshould] at hprepare
      exact Bool.eq_false_iff.mpr fun hcan => by simpa using hprepare hcan
    rw [hsame] at hlastRequest
    simp only [hcannot, Bool.false_eq_true, if_false]
    exact ⟨h.past, by rw [hlastRequest]; exact h.last, by rw [hlastRequest]; exact h.asked,
      h.spaced, h.prepared⟩
  | true =>
    have hnew := hshould_iff.mp hshould
    have hlast (rc : AuthorizedRequestContext) :
        (s.gates.prepare item s.clock).2.lastRequestByKey rc =
          if rc = item.requestContext ∧ rc.path = .v1GetIdLists then some s.clock
          else s.gates.lastRequestByKey rc := by
      rw [hlastRequest]
      by_cases hpath : item.requestContext.path = .v1GetIdLists
      · rw [shouldMakeRequest_idLists s.gates hpath] at hshould ⊢
        split at hshould
        · rename_i hlate
          rw [if_pos hlate]
          by_cases hrc : rc = item.requestContext
          · simp [hrc, hpath]
          · simp [hrc]
        · simp at hshould
      · rw [shouldMakeRequest_other s.gates hpath]
        by_cases hrc : rc = item.requestContext <;> simp [hrc, hpath]
    simp only [if_true]
    constructor
    · intro request hmem
      rcases List.mem_cons.mp hmem with rfl | hmem
      · exact le_rfl
      · exact h.past request hmem
    · intro rc hpath t hmem
      rw [hlast rc]
      rcases List.mem_cons.mp hmem with heq | hmem
      · obtain ⟨rfl, rfl⟩ := Prod.mk.inj heq
        exact ⟨s.clock, by simp [hpath], le_rfl⟩
      · split
        · exact ⟨s.clock, rfl, h.past _ hmem⟩
        · exact h.last rc hpath t hmem
    · intro rc t ht
      rw [hlast rc] at ht
      split at ht
      · rename_i hrc
        simp only [Option.mem_some_iff] at ht
        simp [hrc.1, ht]
      · exact List.mem_cons_of_mem _ (h.asked rc t ht)
    · refine List.pairwise_cons.mpr ⟨fun earlier hmem heq hpath => ?_, h.spaced⟩
      have hcontext : item.requestContext = earlier.1 := heq
      exact hnew hpath earlier.2 (hcontext ▸ hmem)
    · split
      · exact h.prepared.cons_cons _
      · exact h.prepared.cons _

theorem GateGood.step (h : GateGood s) (hstep : GateStep policy s s') : GateGood s' := by
  cases hstep with
  | tick clock later =>
    exact ⟨fun request hmem => (h.past request hmem).trans later, h.last, h.asked, h.spaced,
      h.prepared⟩
  | prepare item => exact h.prepare item
  | backoff call => exact ⟨h.past, h.last, h.asked, h.spaced, h.prepared⟩

theorem GateReach.good (h : GateReach policy s) : GateGood s := by
  induction h with
  | refl => exact .new
  | tail _ hstep ih => exact ih.step hstep

/-- Whatever polls and fetches check their items, and however the requests
end, no two requests for the id lists of one context are prepared within a
minute. An item is prepared if its context does not back off and, for id
lists, has not passed the first check in the last minute, whether or not it
was prepared then. -/
theorem id_list_requests_spaced (h : GateReach policy s) :
    IdListsSpaced s.prepared ∧
    ∀ item : SdkKeyStoreItem, (s.gates.prepare item s.clock).1 = true ↔
      (item.requestContext.path = .v1GetIdLists →
        ∀ t, (item.requestContext, t) ∈ s.asked → t + fromSecs 60 < s.clock) ∧
      ∀ state ∈ s.gates.backoff item.requestContext, state.retryAfter ≤ s.clock := by
  have hgood := GateReach.good h
  refine ⟨hgood.spaced.sublist hgood.prepared, fun item => ?_⟩
  rw [prepare_eq_true, hgood.should_iff]

/-- A context that is asked for twice, the second time 61 seconds later. -/
theorem id_list_requests_after_a_minute :
    let rc : AuthorizedRequestContext := .new "secret-a" .v1GetIdLists [.gzip]
    let policy := RequestBackoffPolicy.fromPollingInterval 10
    ∃ s, GateReach policy s ∧ s.prepared = [(rc, fromSecs 61), (rc, 0)] ∧
      IdListsSpaced s.prepared := by
  intro rc policy
  have hfirst : GateReach policy (GateSystem.new.prepare ⟨rc, 0⟩) := .tail .refl (.prepare _)
  have hlater : GateReach policy { GateSystem.new.prepare ⟨rc, 0⟩ with clock := fromSecs 61 } :=
    .tail hfirst (.tick _ (Nat.zero_le _))
  have hsecond := hlater.tail (.prepare ⟨rc, 0⟩)
  exact ⟨_, hsecond, by decide +kernel, (id_list_requests_spaced hsecond).1⟩

end Gates

end ForwardProxy.Datastore
