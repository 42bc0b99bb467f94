/-
ForwardProxy.IdList.WorkLeaseTheorems — one run at a time works on a list.

A claim whose run is at work is kept alive by its background task, as long
as the renewals reach Redis in time. `LeaseGood` says so of every live claim
at once: Redis holds its id, with enough time left, and no release under
that id is to come. What makes it hold through an acquisition is that a key
which is held cannot be acquired.

Nothing is assumed about the replies: a renewal may fail at any time, and
its run has then lost the claim, whether or not Redis thinks so.
-/
import ForwardProxy.IdList.WorkLease
import ForwardProxy.IdList.WorkLockTheorems

namespace ForwardProxy.IdList

variable {ttl slack : Nat} {l l' : WorkLease} {a b : Nat} {c c' : ClaimRenewal}

/-! ## Claims -/

/-- What any step makes of a claim. -/
structure ClaimRenewal.Evolves (c c' : ClaimRenewal) : Prop where
  lock : c'.lock = c.lock
  ttl : c'.ttl = c.ttl
  live : c'.Live → c.Live
  settled : c.Settled → c'.Settled
  stopped : (c.inFlight ≠ 0 ∨ c.released = true → c.stop = true) →
    c'.inFlight ≠ 0 ∨ c'.released = true → c'.stop = true

theorem ClaimRenewal.Evolves.refl (c : ClaimRenewal) : c.Evolves c :=
  ⟨rfl, rfl, id, id, id⟩

theorem claims_modifyClaim {st : LockState} {f : ClaimRenewal → ClaimRenewal}
    (h : (st.modifyClaim b f).claims[a]? = some c') :
    ∃ c, st.claims[a]? = some c ∧ c' = if b = a then f c else c := by
  simp only [LockState.modifyClaim, List.getElem?_modify] at h
  obtain ⟨c, hclaim, heq⟩ := Option.map_eq_some_iff.mp h
  refine ⟨c, hclaim, ?_⟩
  split <;> simp_all

/-- A step that changes one claim. -/
theorem evolves_modifyClaim (st : LockState) {f : ClaimRenewal → ClaimRenewal}
    (hf : ∀ c, st.claims[b]? = some c → c.Evolves (f c)) :
    ∀ (a : Nat) (c' : ClaimRenewal), (st.modifyClaim b f).claims[a]? = some c' →
      ∃ c, st.claims[a]? = some c ∧ c.Evolves c' := by
  intro a c' h
  obtain ⟨c, hclaim, rfl⟩ := claims_modifyClaim h
  refine ⟨c, hclaim, ?_⟩
  by_cases hab : b = a
  · subst hab
    simpa using hf c hclaim
  · simpa [hab] using ClaimRenewal.Evolves.refl c

/-! ## The invariant -/

/-- The key is that of the acquisition, and it does not go before the next
renewal is due. -/
def WorkLease.Held (ttl slack : Nat) (l : WorkLease) (a : Nat) (id : String) : Prop :=
  ∃ left, l.lock.value = some (id, left) ∧ l.lock.owners = [a] ∧
    l.renewedAt a + ttl ≤ l.now + left ∧ l.renewedAt a ≤ l.now ∧
    l.now ≤ l.renewedAt a + renewInterval ttl + slack

structure LeaseGood (ttl slack : Nat) (l : WorkLease) : Prop where
  lock : LockInv l.lock
  ttl_eq : ∀ (a : Nat) (c : ClaimRenewal), l.lock.claims[a]? = some c → c.ttl = ttl
  stopped : ∀ (a : Nat) (c : ClaimRenewal), l.lock.claims[a]? = some c →
    c.inFlight ≠ 0 ∨ c.released = true → c.stop = true
  held : ∀ (a : Nat) (c : ClaimRenewal), l.lock.claims[a]? = some c → c.Live →
    l.Held ttl slack a c.lock.holderId
  /-- Other acquisitions under the id of a live one are over. -/
  alone : ∀ (a : Nat) (c : ClaimRenewal), l.lock.claims[a]? = some c → c.Live →
    ∀ (b : Nat) (c' : ClaimRenewal), b ≠ a → l.lock.claims[b]? = some c' →
      c'.lock.holderId = c.lock.holderId → c'.Settled

theorem LeaseGood.start : LeaseGood ttl slack WorkLease.start where
  lock := .inl ⟨rfl, rfl⟩
  ttl_eq _ _ h := by simp [WorkLease.start] at h
  stopped _ _ h := by simp [WorkLease.start] at h
  held _ _ h := by simp [WorkLease.start] at h
  alone _ _ h := by simp [WorkLease.start] at h

/-- A step without an acquisition: the live claims have been live, and what
they hold is left to show. -/
theorem LeaseGood.evolve (h : LeaseGood ttl slack l) (hlock : LockInv l'.lock)
    (hclaims : ∀ (a : Nat) (c' : ClaimRenewal), l'.lock.claims[a]? = some c' →
      ∃ c, l.lock.claims[a]? = some c ∧ c.Evolves c')
    (hheld : ∀ (a : Nat) (c' : ClaimRenewal), l'.lock.claims[a]? = some c' → c'.Live →
      l.Held ttl slack a c'.lock.holderId → l'.Held ttl slack a c'.lock.holderId) :
    LeaseGood ttl slack l' where
  lock := hlock
  ttl_eq a c' hclaim := by
    obtain ⟨c, hold, hevolves⟩ := hclaims a c' hclaim
    exact hevolves.ttl.trans (h.ttl_eq a c hold)
  stopped a c' hclaim := by
    obtain ⟨c, hold, hevolves⟩ := hclaims a c' hclaim
    exact hevolves.stopped (h.stopped a c hold)
  held a c' hclaim hlive := by
    obtain ⟨c, hold, hevolves⟩ := hclaims a c' hclaim
    refine hheld a c' hclaim hlive ?_
    rw [hevolves.lock]
    exact h.held a c hold (hevolves.live hlive)
  alone a c' hclaim hlive b other hne hother hid := by
    obtain ⟨c, hold, hevolves⟩ := hclaims a c' hclaim
    obtain ⟨c₂, hold₂, hevolves₂⟩ := hclaims b other hother
    rw [hevolves.lock, hevolves₂.lock] at hid
    exact hevolves₂.settled (h.alone a c hold (hevolves.live hlive) b c₂ hne hold₂ hid)

/-- A live claim is not settled. -/
theorem LeaseGood.not_settled (h : LeaseGood ttl slack l) (hclaim : l.lock.claims[a]? = some c)
    (hworking : c.stop = false) : ¬ c.Settled := by
  intro hsettled
  have hstop := h.stopped a c hclaim (.inr hsettled.1)
  rw [hworking] at hstop
  cases hstop

/-! ## Steps -/

theorem LeaseGood.tryAcquire (h : LeaseGood ttl slack l) {lock : RedisWorkLock}
    (hsettled : ∀ c ∈ l.lock.claims, c.lock.holderId = lock.holderId → c.Settled) :
    LeaseGood ttl slack
      { l with
        lock := l.lock.exec (.tryAcquire lock ttl)
        renewedAt := Function.update l.renewedAt l.lock.claims.length l.now } := by
  have hlock := lockInv_exec h.lock (.tryAcquire lock ttl)
  cases hvalue : l.lock.value with
  | some value =>
    have hexec : l.lock.exec (.tryAcquire lock ttl) = l.lock := by
      simp [LockState.exec, RedisWorkLock.tryAcquire, hvalue]
    rw [hexec]
    refine h.evolve h.lock (fun a c hclaim => ⟨c, hclaim, .refl c⟩) fun a c hclaim _ hheld => ?_
    have hne : a ≠ l.lock.claims.length := by
      have hlt : a < l.lock.claims.length := (List.getElem?_eq_some_iff.mp hclaim).1
      omega
    simpa [WorkLease.Held, hne] using hheld
  | none =>
    -- Nobody holds the key, so no claim is live.
    have hdead : ∀ (a : Nat) (c : ClaimRenewal), l.lock.claims[a]? = some c → ¬ c.Live := by
      intro a c hclaim hlive
      obtain ⟨left, hsome, -⟩ := h.held a c hclaim hlive
      rw [hvalue] at hsome
      cases hsome
    by_cases hpos : 0 < ttl
    · have howners : l.lock.owners = [] := by
        rcases h.lock with ⟨-, howners⟩ | ⟨_, _, _, _, hne⟩
        · exact howners
        · exact absurd hvalue hne
      have hexec : l.lock.exec (.tryAcquire lock ttl) =
          { value := some (lock.holderId, ttl)
            claims := l.lock.claims ++ [{ lock, ttl }]
            history := .acquired l.lock.claims.length :: l.lock.history } := by
        simp [LockState.exec, RedisWorkLock.tryAcquire, hvalue, hpos]
      rw [hexec] at hlock ⊢
      have hclaims : ∀ (a : Nat) (c : ClaimRenewal),
          (l.lock.claims ++ [({ lock, ttl } : ClaimRenewal)])[a]? = some c →
          l.lock.claims[a]? = some c ∨ (a = l.lock.claims.length ∧ c = { lock, ttl }) := by
        intro a c hclaim
        rw [List.getElem?_append] at hclaim
        split at hclaim
        · exact .inl hclaim
        · obtain ⟨hlt, heq⟩ := List.getElem?_eq_some_iff.mp hclaim
          simp only [List.length_singleton, Nat.lt_one_iff] at hlt
          refine .inr ⟨by omega, ?_⟩
          simpa [hlt] using heq.symm
      refine ⟨hlock, fun a c hclaim => ?_, fun a c hclaim => ?_, fun a c hclaim hlive => ?_,
        fun a c hclaim hlive b c' hne hother hid => ?_⟩
      · rcases hclaims a c hclaim with hold | ⟨-, rfl⟩
        · exact h.ttl_eq a c hold
        · rfl
      · rcases hclaims a c hclaim with hold | ⟨-, rfl⟩
        · exact h.stopped a c hold
        · simp
      · rcases hclaims a c hclaim with hold | ⟨rfl, rfl⟩
        · exact absurd hlive (hdead a c hold)
        · refine ⟨ttl, rfl, ?_, by simp, by simp, ?_⟩
          · simpa [LockState.owners, ownersOf] using howners
          · simp only [Function.update_self]
            omega
      · rcases hclaims a c hclaim with hold | ⟨rfl, rfl⟩
        · exact absurd hlive (hdead a c hold)
        · rcases hclaims b c' hother with hold | ⟨rfl, -⟩
          · exact hsettled c' (List.mem_of_getElem? hold) hid
          · exact absurd rfl hne
    · have hexec : l.lock.exec (.tryAcquire lock ttl) = l.lock := by
        simp [LockState.exec, RedisWorkLock.tryAcquire, hvalue, hpos]
      rw [hexec]
      exact h.evolve h.lock (fun a c hclaim => ⟨c, hclaim, .refl c⟩)
        fun a c hclaim hlive _ => absurd hlive (hdead a c hclaim)

/-- A step that changes one claim and nothing in Redis. -/
theorem LeaseGood.modifyClaim (h : LeaseGood ttl slack l) {f : ClaimRenewal → ClaimRenewal}
    (hlock : ∀ c, (f c).lock = c.lock)
    (hf : ∀ c, l.lock.claims[b]? = some c → c.Evolves (f c)) :
    LeaseGood ttl slack { l with lock := l.lock.modifyClaim b f } :=
  h.evolve (h.lock.modifyClaim hlock) (evolves_modifyClaim _ hf) fun _ _ _ _ hheld => hheld

theorem LeaseGood.stopAndRelease (h : LeaseGood ttl slack l) (hclaim : l.lock.claims[b]? = some c)
    (hworking : c.stop = false) :
    LeaseGood ttl slack { l with lock := l.lock.exec (.stopAndRelease b) } := by
  refine h.modifyClaim (fun _ => rfl) fun c' hclaim' => ?_
  obtain rfl : c = c' := Option.some.inj (hclaim.symm.trans hclaim')
  exact ⟨rfl, rfl, fun hlive => absurd hlive.1 (by simp),
    fun hsettled => absurd hsettled (h.not_settled hclaim hworking), fun _ _ => rfl⟩

theorem LeaseGood.releaseReturned (h : LeaseGood ttl slack l)
    (hclaim : l.lock.claims[b]? = some c) (hstopped : c.stop = true) :
    LeaseGood ttl slack { l with lock := l.lock.exec (.releaseReturned b) } := by
  refine h.modifyClaim (fun _ => rfl) fun c' hclaim' => ?_
  obtain rfl : c = c' := Option.some.inj (hclaim.symm.trans hclaim')
  exact ⟨rfl, rfl, fun hlive => hlive, fun hsettled => ⟨rfl, hsettled.2⟩, fun _ _ => hstopped⟩

theorem LeaseGood.drop (h : LeaseGood ttl slack l) :
    LeaseGood ttl slack { l with lock := l.lock.exec (.drop b) } := by
  cases hclaim : l.lock.claims[b]? with
  | none =>
    have hexec : l.lock.exec (.drop b) = l.lock := by simp [LockState.exec, hclaim]
    rw [hexec]
    exact h
  | some c =>
    have hexec : l.lock.exec (.drop b) = l.lock.dropClaim b c := by simp [LockState.exec, hclaim]
    rw [hexec]
    unfold LockState.dropClaim
    split
    · refine h.modifyClaim (fun _ => rfl) fun c' hclaim' => ?_
      exact ⟨rfl, rfl, fun hlive => absurd hlive.1 (by simp), fun hsettled => hsettled,
        fun _ _ => rfl⟩
    · rename_i hunreleased
      refine h.modifyClaim (fun _ => rfl) fun c' hclaim' => ?_
      obtain rfl : c = c' := Option.some.inj (hclaim.symm.trans hclaim')
      exact ⟨rfl, rfl, fun hlive => absurd hlive.1 (by simp),
        fun hsettled => absurd hsettled.1 hunreleased, fun _ _ => rfl⟩

/-- One release of a claim is over, whether or not Redis has executed it. -/
theorem evolves_released (c : ClaimRenewal) :
    c.Evolves { c with inFlight := c.inFlight - 1 } := by
  refine ⟨rfl, rfl, fun hlive => hlive, fun hsettled => ⟨hsettled.1, ?_⟩, fun hstop hover => ?_⟩
  · show c.inFlight - 1 = 0
    rw [hsettled.2]
  · refine hstop (hover.imp_left fun hflight hzero => hflight ?_)
    show c.inFlight - 1 = 0
    rw [hzero]

/-- A value that keeps the holder keeps the owner. -/
theorem owners_setValue {value : LockValue} (hvalue : value ≠ none) :
    (l.lock.setValue value).owners = l.lock.owners := by
  rw [LockState.owners, LockState.history_setValue (.inl hvalue)]
  rfl

/-- A renewal of a held key: it lasts the whole TTL again if it is the
caller's. -/
theorem RedisWorkLock.renew_some (lock : RedisWorkLock) (hpos : 0 < ttl) (id : String)
    (left : Nat) : (lock.renew (some (id, left)) ttl).2 =
      some (id, if id = lock.holderId then ttl else left) := by
  simp only [RedisWorkLock.renew, if_pos hpos]
  split_ifs <;> rfl

theorem LeaseGood.renew (h : LeaseGood ttl slack l) (hpos : 0 < ttl) :
    LeaseGood ttl slack
      { l with
        lock := l.lock.exec (.renew b)
        renewedAt := Function.update l.renewedAt b l.now } := by
  have hlock := lockInv_exec h.lock (.renew b)
  -- Where the renewal is not sent, the claim is not live.
  have hunsent : (∀ c, l.lock.claims[b]? = some c → c.lost = true) →
      LeaseGood ttl slack { l with renewedAt := Function.update l.renewedAt b l.now } := by
    intro hlost
    refine h.evolve h.lock (fun a c hclaim => ⟨c, hclaim, .refl c⟩) fun a c hclaim hlive hheld => ?_
    have hne : a ≠ b := by
      rintro rfl
      have := hlost c hclaim
      rw [hlive.2] at this
      cases this
    simpa [WorkLease.Held, hne] using hheld
  cases hclaim : l.lock.claims[b]? with
  | none =>
    have hexec : l.lock.exec (.renew b) = l.lock := by simp [LockState.exec, hclaim]
    rw [hexec]
    exact hunsent (by simp [hclaim])
  | some c =>
    have hexec : l.lock.exec (.renew b) = l.lock.renewClaim b c := by simp [LockState.exec, hclaim]
    rw [hexec] at hlock ⊢
    unfold LockState.renewClaim at hlock ⊢
    split at hlock
    · rename_i hlost
      rw [if_pos hlost]
      exact hunsent (by simp [hclaim, hlost])
    · rename_i hkept
      rw [if_neg hkept]
      refine h.evolve hlock (fun a c' => evolves_modifyClaim (l.lock.setValue _)
        (fun c' hclaim' => ?_) a c') fun a c' hclaim' hlive hheld => ?_
      · obtain rfl : c = c' := Option.some.inj (hclaim.symm.trans hclaim')
        exact ⟨rfl, rfl, fun hlive => ⟨hlive.1, by simpa using hkept⟩, fun hsettled => hsettled,
          fun hstop => hstop⟩
      · obtain ⟨left, hvalue, howners, hleft, hpast, hdue⟩ := hheld
        have hrenewed : (c.lock.renew l.lock.value c.ttl).2 =
            some (c'.lock.holderId, if c'.lock.holderId = c.lock.holderId then ttl else left) := by
          rw [hvalue, h.ttl_eq b c hclaim]
          exact c.lock.renew_some hpos _ _
        refine ⟨_, hrenewed, ?_, ?_⟩
        · exact (owners_setValue (hrenewed ▸ Option.some_ne_none _)).trans howners
        · by_cases hab : a = b
          · subst hab
            obtain ⟨c₂, hclaim₂, heq⟩ := claims_modifyClaim hclaim'
            obtain rfl : c = c₂ := Option.some.inj (hclaim.symm.trans hclaim₂)
            have hid : c'.lock.holderId = c.lock.holderId := by simp [heq]
            simp only [Function.update_self, if_pos hid]
            omega
          · simp only [Function.update_of_ne hab]
            split_ifs <;> omega

/-- A release spares the claims that are live. -/
theorem LeaseGood.runRelease (h : LeaseGood ttl slack l) :
    LeaseGood ttl slack { l with lock := l.lock.exec (.runRelease b) } := by
  have hlock := lockInv_exec h.lock (.runRelease b)
  cases hclaim : l.lock.claims[b]? with
  | none =>
    have hexec : l.lock.exec (.runRelease b) = l.lock := by simp [LockState.exec, hclaim]
    rw [hexec]
    exact h
  | some c =>
    have hexec : l.lock.exec (.runRelease b) = l.lock.releaseClaim b c := by
      simp [LockState.exec, hclaim]
    rw [hexec] at hlock ⊢
    unfold LockState.releaseClaim at hlock ⊢
    split at hlock
    · rename_i hnone
      rw [if_pos hnone]
      exact h
    · rename_i hflight
      rw [if_neg hflight]
      refine h.evolve hlock (evolves_modifyClaim (l.lock.setValue _)
        fun c' _ => evolves_released c') fun a c' hclaim' hlive hheld => ?_
      obtain ⟨left, hvalue, howners, hrest⟩ := hheld
      obtain ⟨c₂, hclaim₂, hevolves⟩ := evolves_modifyClaim (l.lock.setValue _)
        (fun c' _ => evolves_released c') a c' hclaim'
      have hlive₂ := hevolves.live hlive
      have hother : c.lock.holderId ≠ c'.lock.holderId := by
        rw [hevolves.lock]
        intro hid
        by_cases hab : b = a
        · subst hab
          obtain rfl : c = c₂ := Option.some.inj (hclaim.symm.trans hclaim₂)
          have hstop := h.stopped b c hclaim (.inl hflight)
          rw [hlive₂.1] at hstop
          cases hstop
        · exact hflight (h.alone a c₂ hclaim₂ hlive₂ b c hab hclaim hid).2
      have hspared : c.lock.release l.lock.value = some (c'.lock.holderId, left) := by
        rw [RedisWorkLock.release_of_ne (by simpa [hvalue] using hother.symm), hvalue]
      exact ⟨left, hspared, (owners_setValue (by simp [hspared])).trans howners, hrest⟩

theorem LeaseGood.elapse (h : LeaseGood ttl slack l) (hslack : renewInterval ttl + slack < ttl)
    {d : Nat} (htimely : ∀ a c, l.lock.claims[a]? = some c → c.Live →
      l.now + d ≤ l.renewedAt a + renewInterval ttl + slack) :
    LeaseGood ttl slack { l with lock := l.lock.exec (.elapse d), now := l.now + d } := by
  refine h.evolve (lockInv_exec h.lock (.elapse d)) (fun a c hclaim => ⟨c, hclaim, .refl c⟩)
    fun a c hclaim hlive hheld => ?_
  obtain ⟨left, hvalue, howners, hleft, hpast, hdue⟩ := hheld
  have hd := htimely a c hclaim hlive
  have hlater : elapsed d l.lock.value = some (c.lock.holderId, left - d) := by
    rw [hvalue]
    exact if_neg (by omega)
  refine ⟨left - d, hlater, (owners_setValue (by simp [hlater])).trans howners, ?_, ?_, hd⟩
  · simp only
    omega
  · simp only
    omega

theorem LeaseGood.step (hslack : renewInterval ttl + slack < ttl) (h : LeaseGood ttl slack l)
    (hstep : LeaseStep ttl slack l l') : LeaseGood ttl slack l' := by
  cases hstep with
  | tryAcquire lock settled => exact h.tryAcquire settled
  | renew a => exact h.renew (by omega)
  | renewError a =>
    refine h.modifyClaim (fun _ => rfl) fun c _ => ?_
    exact ⟨rfl, rfl, fun hlive => absurd hlive.2 (by simp), fun hsettled => hsettled,
      fun hstop => hstop⟩
  | stopAndRelease a c hclaim working => exact h.stopAndRelease hclaim working
  | releaseReturned a c hclaim stopped => exact h.releaseReturned hclaim stopped
  | drop a => exact h.drop
  | runRelease a => exact h.runRelease
  | releaseError a => exact h.modifyClaim (fun _ => rfl) fun c _ => evolves_released c
  | elapse d timely => exact h.elapse hslack timely

theorem LeaseGood.run (hslack : renewInterval ttl + slack < ttl)
    (hrun : LeaseRun ttl slack .start l) : LeaseGood ttl slack l := by
  induction hrun with
  | refl => exact .start
  | tail _ hstep ih => exact ih.step hslack hstep

end ForwardProxy.IdList
