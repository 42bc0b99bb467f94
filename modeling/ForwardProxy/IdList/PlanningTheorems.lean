/-
ForwardProxy.IdList.PlanningTheorems — what a plan says about the state it
was made from.

One inversion per answer of the planner. No other proof unfolds it.
-/
import ForwardProxy.IdList.Worker

namespace ForwardProxy.IdList

variable {state : Option ListSyncState} {s : ListSyncState} {md target : IdListMetadata}
  {fwdExists enabled : Bool}

/-- Why a version is loaded in full: nothing is committed, a newer file
has come, or the committed file must be recovered. -/
inductive FullLoadReason (s : ListSyncState) (target : IdListMetadata) (fwdExists enabled : Bool) :
    Prop
  | initial (h : s.version = "")
  | rotation (hfile : target.fileId ≠ s.fileId) (hnewer : s.creationTime < target.creationTime)
  | reindex (hfile : target.fileId = s.fileId) (henabled : enabled = true)
      (h : s.reverseIndexDisabled = true)
  | pending (hfile : target.fileId = s.fileId) (h : s.loadingVersion ≠ none)
  | lost (hfile : target.fileId = s.fileId) (hcard : 0 < s.cardinality.getD s.size)
      (h : fwdExists = false)

theorem plan_fullLoad
    (h : planSyncWithReverseIndex (some s) md fwdExists enabled = some (.fullLoad, target)) :
    FullLoadReason s target fwdExists enabled := by
  unfold planSyncWithReverseIndex at h
  simp only [Option.map_eq_some_iff, Prod.mk.injEq] at h
  obtain ⟨action, hwork, rfl, rfl⟩ := h
  unfold needsWorkWithReverseIndex at hwork
  simp only at hwork
  split at hwork
  · exact .initial ‹_›
  split at hwork
  · split at hwork
    · exact .rotation ‹_› ‹_›
    · simp at hwork
  rename_i hfile
  have hfile := not_not.mp hfile
  split at hwork
  · rename_i hdis
    simp only [Bool.and_eq_true] at hdis
    exact .reindex hfile hdis.1 hdis.2
  split at hwork
  · rename_i hload
    exact .pending hfile (Option.isSome_iff_ne_none.mp hload)
  split at hwork
  · rename_i hlost
    exact .lost hfile hlost.1 hlost.2
  split at hwork <;> simp at hwork

/-- The file a delta appends to is committed, complete, and of the same
name. -/
theorem plan_delta {lag : Nat}
    (h : planSyncWithReverseIndex (some s) md fwdExists enabled = some (.delta lag, target)) :
    s.version ≠ "" ∧ target = md ∧ md.fileId = s.fileId ∧
      (enabled = true → s.reverseIndexDisabled = false) ∧ s.loadingVersion = none ∧
      (0 < s.cardinality.getD s.size → fwdExists = true) ∧ s.size < md.size := by
  unfold planSyncWithReverseIndex at h
  simp only [Option.map_eq_some_iff, Prod.mk.injEq] at h
  obtain ⟨action, hwork, rfl, rfl⟩ := h
  unfold needsWorkWithReverseIndex at hwork
  simp only at hwork
  split at hwork
  · simp at hwork
  rename_i hver
  split at hwork
  · split at hwork <;> simp at hwork
  rename_i hfile
  have hfile := not_not.mp hfile
  split at hwork
  · simp at hwork
  rename_i hdis
  split at hwork
  · simp at hwork
  rename_i hload
  split at hwork
  · simp at hwork
  rename_i hlost
  split at hwork
  · rename_i hsize
    have hdis : enabled = true → s.reverseIndexDisabled = false := by
      intro he
      simpa [he] using hdis
    have htarget : planTarget (some s) md enabled = md := by
      unfold planTarget
      refine if_neg fun hcond => ?_
      simp only [Bool.and_eq_true, decide_eq_true_iff] at hcond
      have := hdis hcond.1.1.1.1
      simp [hcond.1.1.1.2] at this
    rw [htarget] at hfile hsize
    refine ⟨hver, htarget, hfile, hdis, ?_, fun hcard => ?_, hsize⟩
    · simpa using hload
    · by_contra hne
      exact hlost ⟨hcard, by simpa using hne⟩
  · simp at hwork

/-- No work for an entry of the committed file: nothing is pending, lost
or skipped, and the file has not grown. -/
theorem plan_none (hfile : md.fileId = s.fileId)
    (h : planSyncWithReverseIndex (some s) md fwdExists enabled = none) :
    s.version ≠ "" ∧ (enabled = true → s.reverseIndexDisabled = false) ∧
      s.loadingVersion = none ∧ (0 < s.cardinality.getD s.size → fwdExists = true) ∧
      md.size ≤ s.size := by
  have htarget : planTarget (some s) md enabled = md := by
    unfold planTarget
    refine if_neg fun hcond => ?_
    simp [hfile] at hcond
  unfold planSyncWithReverseIndex at h
  simp only [Option.map_eq_none_iff, htarget] at h
  unfold needsWorkWithReverseIndex at h
  simp only at h
  split at h
  · simp at h
  rename_i hver
  rw [if_neg (not_not.mpr hfile)] at h
  split at h
  · simp at h
  rename_i hdis
  split at h
  · simp at h
  rename_i hload
  split at h
  · simp at h
  rename_i hlost
  split at h
  · simp at h
  rename_i hsize
  refine ⟨hver, fun he => by simpa [he] using hdis, by simpa using hload, fun hcard => ?_,
    Nat.not_lt.mp hsize⟩
  by_contra hne
  exact hlost ⟨hcard, by simpa using hne⟩

/-- The worker's delta is the planner's. -/
theorem planAction_delta {w : IdListSyncWorker} {stateExists : Bool} {task : TaskMetadata}
    {plan : TaskMetadata}
    (h : w.planAction stateExists s task fwdExists = .ok (some (.delta, plan))) :
    stateExists = true ∧ ∃ lag, planSyncWithReverseIndex (some s) task.asIdListMetadata fwdExists
      w.config.enableReverseIndex = some (.delta lag, plan.asIdListMetadata) := by
  unfold IdListSyncWorker.planAction at h
  split at h
  · simp at h
  · simp at h
  · rename_i lag entry hsync
    simp only [Except.ok.injEq, Option.some.injEq, Prod.mk.injEq, true_and] at h
    subst h
    cases stateExists with
    | false => simp [planSyncWithReverseIndex, needsWorkWithReverseIndex] at hsync
    | true =>
      rw [if_pos rfl] at hsync
      exact ⟨rfl, lag, hsync⟩
  · simp at h

end ForwardProxy.IdList
