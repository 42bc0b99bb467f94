/-
ForwardProxy.IdList.WorkLockTheorems — who owns the claim.

`LockInv` ties the value in Redis to the acquisitions: the key is there
exactly while one acquisition owns it, and it holds that acquisition's
holder id. It is kept by every operation, in any order.

The scripts compare holder ids, so a release reaches the lock of a later
acquisition exactly when that one was made with the same id.
-/
import ForwardProxy.IdList.WorkLock

namespace ForwardProxy.IdList

variable {st : LockState} {lock : RedisWorkLock} {a b ttl : Nat} {value : LockValue}

/-! ## The scripts -/

/-- A holder whose id is not stored changes nothing. -/
theorem RedisWorkLock.renew_of_ne (h : value.map Prod.fst ≠ some lock.holderId) :
    lock.renew value ttl = (false, value) := by
  cases value with
  | none => rfl
  | some held =>
    obtain ⟨holder, left⟩ := held
    have hne : holder ≠ lock.holderId := by simpa using h
    simp [RedisWorkLock.renew, hne]

theorem RedisWorkLock.release_of_ne (h : value.map Prod.fst ≠ some lock.holderId) :
    lock.release value = value := by
  cases value with
  | none => rfl
  | some held =>
    obtain ⟨holder, left⟩ := held
    have hne : holder ≠ lock.holderId := by simpa using h
    simp [RedisWorkLock.release, hne]

theorem RedisWorkLock.release_of_eq (h : value.map Prod.fst = some lock.holderId) :
    lock.release value = none := by
  cases value with
  | none => simp at h
  | some held =>
    obtain ⟨holder, left⟩ := held
    have heq : holder = lock.holderId := by simpa using h
    simp [RedisWorkLock.release, heq]

/-- What a value may become other than through an acquisition: it goes, or
it keeps its holder. -/
def Fades (value value' : LockValue) : Prop :=
  value' = none ∨ value'.map Prod.fst = value.map Prod.fst

theorem fades_renew : Fades value (lock.renew value ttl).2 := by
  cases value with
  | none => exact .inl rfl
  | some held =>
    obtain ⟨holder, left⟩ := held
    simp only [RedisWorkLock.renew]
    split_ifs <;> simp [Fades]

theorem fades_release : Fades value (lock.release value) := by
  cases value with
  | none => exact .inl rfl
  | some held =>
    obtain ⟨holder, left⟩ := held
    simp only [RedisWorkLock.release]
    split_ifs <;> simp [Fades]

theorem fades_elapsed {d : Nat} : Fades value (elapsed d value) := by
  cases value with
  | none => exact .inl rfl
  | some held =>
    obtain ⟨holder, left⟩ := held
    simp only [elapsed]
    split_ifs <;> simp [Fades]

/-! ## The invariant -/

/-- The key is free and nobody owns it, or it holds the id of its one
owner. -/
def LockInv (st : LockState) : Prop :=
  (st.value = none ∧ st.owners = []) ∨
    ∃ a, st.owners = [a] ∧ a < st.claims.length ∧ st.holderOf a = st.holder ∧ st.value ≠ none

theorem LockInv.owners_length (h : LockInv st) : st.owners.length ≤ 1 := by
  rcases h with ⟨_, howners⟩ | ⟨a, howners, _⟩ <;> simp [howners]

/-- An owner's id is the stored one. -/
theorem LockInv.holderOf_owner (h : LockInv st) (ha : a ∈ st.owners) :
    st.holderOf a = st.holder ∧ st.value ≠ none := by
  rcases h with ⟨_, howners⟩ | ⟨b, howners, _, hholder, hvalue⟩
  · simp [howners] at ha
  · obtain rfl : a = b := by simpa [howners] using ha
    exact ⟨hholder, hvalue⟩

namespace LockState

theorem owners_setValue_none (h : st.value ≠ none) : (st.setValue none).owners = [] := by
  have hsome : st.value.isSome = true := Option.isSome_iff_ne_none.2 h
  simp [owners, setValue, hsome, ownersOf]

theorem history_setValue (h : value ≠ none ∨ st.value = none) :
    (st.setValue value).history = st.history := by
  have hcond : (st.value.isSome && value.isNone) = false := by
    rcases h with h | h
    · simp [Option.isSome_iff_ne_none.2 h]
    · simp [h]
  simp [setValue, hcond]

theorem holderOf_modifyClaim {f : ClaimRenewal → ClaimRenewal} (hf : ∀ c, (f c).lock = c.lock) :
    (st.modifyClaim a f).holderOf b = st.holderOf b := by
  simp only [holderOf, modifyClaim, List.getElem?_modify]
  split
  · cases st.claims[b]? with
    | none => rfl
    | some c => simp [hf]
  · simp

end LockState

theorem LockInv.modifyClaim (h : LockInv st) {f : ClaimRenewal → ClaimRenewal}
    (hf : ∀ c, (f c).lock = c.lock) : LockInv (st.modifyClaim a f) := by
  rcases h with hfree | ⟨b, howners, hlt, hholder, hvalue⟩
  · exact .inl hfree
  · refine .inr ⟨b, howners, ?_, ?_, hvalue⟩
    · simpa [LockState.modifyClaim] using hlt
    · rw [LockState.holderOf_modifyClaim hf]
      exact hholder

theorem LockInv.setValue (h : LockInv st) (hfades : Fades st.value value) :
    LockInv (st.setValue value) := by
  rcases h with ⟨hvalue, howners⟩ | ⟨b, howners, hlt, hholder, hvalue⟩
  · have hnone : value = none := by
      rcases hfades with hnone | hsame
      · exact hnone
      · simpa [hvalue] using hsame
    refine .inl ⟨hnone, ?_⟩
    rw [LockState.owners, LockState.history_setValue (.inr hvalue)]
    exact howners
  · by_cases hnone : value = none
    · subst hnone
      exact .inl ⟨rfl, LockState.owners_setValue_none hvalue⟩
    · have hsame : value.map Prod.fst = st.value.map Prod.fst := hfades.resolve_left hnone
      refine .inr ⟨b, ?_, hlt, hholder.trans hsame.symm, hnone⟩
      rw [LockState.owners, LockState.history_setValue (.inl hnone)]
      exact howners

theorem lockInv_exec (h : LockInv st) (op : LockOp) : LockInv (st.exec op) := by
  cases op with
  | tryAcquire lock ttl =>
    simp only [LockState.exec]
    split
    · rename_i hacquired
      cases hvalue : st.value with
      | some held => simp [RedisWorkLock.tryAcquire, hvalue] at hacquired
      | none =>
        have howners : st.owners = [] := by
          rcases h with ⟨_, howners⟩ | ⟨_, _, _, _, hne⟩
          · exact howners
          · exact absurd hvalue hne
        have hpos : 0 < ttl := by
          by_contra hzero
          simp [RedisWorkLock.tryAcquire, hvalue, hzero] at hacquired
        refine .inr ⟨st.claims.length, ?_, ?_, ?_, ?_⟩
        · simpa [LockState.owners, ownersOf] using howners
        · simp
        · simp [LockState.holderOf, LockState.holder, RedisWorkLock.tryAcquire, hpos]
        · simp [RedisWorkLock.tryAcquire, hpos]
    · exact h
  | renew a =>
    simp only [LockState.exec]
    cases st.claims[a]? with
    | none => exact h
    | some c =>
      simp only [Option.elim_some, LockState.renewClaim]
      split
      · exact h
      · exact (h.setValue fades_renew).modifyClaim fun _ => rfl
  | stopAndRelease a => exact h.modifyClaim fun _ => rfl
  | releaseReturned a => exact h.modifyClaim fun _ => rfl
  | drop a =>
    simp only [LockState.exec]
    cases st.claims[a]? with
    | none => exact h
    | some c =>
      simp only [Option.elim_some, LockState.dropClaim]
      split
      · exact h.modifyClaim fun _ => rfl
      · exact h.modifyClaim fun _ => rfl
  | runRelease a =>
    simp only [LockState.exec]
    cases st.claims[a]? with
    | none => exact h
    | some c =>
      simp only [Option.elim_some, LockState.releaseClaim]
      split
      · exact h
      · exact (h.setValue fades_release).modifyClaim fun _ => rfl
  | elapse d => exact h.setValue fades_elapsed

theorem lockInv_run (ops : List LockOp) : LockInv (LockState.run ops) := by
  have hfold : ∀ st, LockInv st → LockInv (ops.foldl LockState.exec st) := by
    induction ops with
    | nil => exact fun _ h => h
    | cons op ops ih => exact fun st h => ih _ (lockInv_exec h op)
  exact hfold {} (.inl ⟨rfl, rfl⟩)

/-! ## Releases of earlier acquisitions -/

/-- The release of `a` leaves the lock of every later acquisition. -/
def LockState.ReleaseKeepsLater (st : LockState) (a : Nat) : Prop :=
  ∀ b ∈ st.owners, a < b → b ∈ (st.exec (.runRelease a)).owners

instance (st : LockState) (a : Nat) : Decidable (st.ReleaseKeepsLater a) :=
  inferInstanceAs (Decidable (∀ b ∈ st.owners, _))

theorem owners_runRelease {c : ClaimRenewal} (hclaim : st.claims[a]? = some c)
    (hflight : c.inFlight ≠ 0) :
    (st.exec (.runRelease a)).owners = (st.setValue (c.lock.release st.value)).owners := by
  simp only [LockState.exec, hclaim, Option.elim_some, LockState.releaseClaim, if_neg hflight]
  rfl

/-- The release reaches exactly the locks with its own id. -/
theorem releaseKeepsLater_iff (h : LockInv st) {c : ClaimRenewal} (hclaim : st.claims[a]? = some c)
    (hflight : c.inFlight ≠ 0) :
    st.ReleaseKeepsLater a ↔ ∀ b ∈ st.owners, a < b → st.holderOf b ≠ st.holderOf a := by
  have hid : st.holderOf a = some c.lock.holderId := by simp [LockState.holderOf, hclaim]
  unfold LockState.ReleaseKeepsLater
  rw [owners_runRelease hclaim hflight, hid]
  constructor
  · intro hkeeps b hb hlt heq
    obtain ⟨hholder, hvalue⟩ := h.holderOf_owner hb
    have hnone : c.lock.release st.value = none :=
      RedisWorkLock.release_of_eq (hholder.symm.trans heq)
    have hmem := hkeeps b hb hlt
    rw [hnone, LockState.owners_setValue_none hvalue] at hmem
    simp at hmem
  · intro hne b hb hlt
    obtain ⟨hholder, hvalue⟩ := h.holderOf_owner hb
    have hsame : c.lock.release st.value = st.value := by
      refine RedisWorkLock.release_of_ne ?_
      intro heq
      exact hne b hb hlt (hholder.trans heq)
    rw [hsame, LockState.owners, LockState.history_setValue (.inl hvalue)]
    exact hb

/-- **The claim belongs to a holder id.** In every interleaving: a renewal
or a release under an id that is not stored changes nothing; at most one
acquisition owns the key, and its id is the stored one; and a release that
was sent off for one acquisition spares the lock of a later one exactly
when that one was made with another id. -/
theorem lock_ownership (ops : List LockOp) :
    (∀ (lock : RedisWorkLock) (ttl : Nat), (LockState.run ops).holder ≠ some lock.holderId →
      (lock.renew (LockState.run ops).value ttl).2 = (LockState.run ops).value ∧
      lock.release (LockState.run ops).value = (LockState.run ops).value) ∧
    (LockState.run ops).owners.length ≤ 1 ∧
    (∀ a ∈ (LockState.run ops).owners,
      (LockState.run ops).holderOf a = (LockState.run ops).holder) ∧
    ∀ a c, (LockState.run ops).claims[a]? = some c → c.inFlight ≠ 0 →
      ((LockState.run ops).ReleaseKeepsLater a ↔ ∀ b ∈ (LockState.run ops).owners, a < b →
        (LockState.run ops).holderOf b ≠ (LockState.run ops).holderOf a) := by
  have hinv := lockInv_run ops
  refine ⟨?_, hinv.owners_length, fun a ha => (hinv.holderOf_owner ha).1, ?_⟩
  · intro lock ttl hne
    exact ⟨congrArg Prod.snd (RedisWorkLock.renew_of_ne hne), RedisWorkLock.release_of_ne hne⟩
  · intro a c hclaim hflight
    exact releaseKeepsLater_iff hinv hclaim hflight

/-! A claim is dropped, its detached release is slow, the key expires, and
a worker acquires it again: another process, or the same one. -/

def lateRelease (again : RedisWorkLock) : List LockOp :=
  [.tryAcquire ⟨"p"⟩ 3, .drop 0, .elapse 3, .tryAcquire again 3]

theorem lock_ownership_other_process : (LockState.run (lateRelease ⟨"q"⟩)).ReleaseKeepsLater 0 :=
  ((lock_ownership (lateRelease ⟨"q"⟩)).2.2.2 0 ⟨⟨"p"⟩, 3, true, false, true, 1⟩ (by decide)
    (by decide)).2 (by decide)

/-- A late release deletes the lock of the same process's next acquisition. -/
theorem late_release_of_same_process : ¬ ∀ (ops : List LockOp) (a : Nat) (c : ClaimRenewal),
    (LockState.run ops).claims[a]? = some c → c.inFlight ≠ 0 →
    (LockState.run ops).ReleaseKeepsLater a := by
  intro hclaim
  have hkeeps := hclaim (lateRelease ⟨"p"⟩) 0 ⟨⟨"p"⟩, 3, true, false, true, 1⟩ (by decide) (by decide)
  exact absurd hkeeps (by decide)

end ForwardProxy.IdList
