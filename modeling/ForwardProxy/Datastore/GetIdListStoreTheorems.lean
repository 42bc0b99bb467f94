/-
ForwardProxy.Datastore.GetIdListStoreTheorems — what is served after a poll
that succeeds.

The recorded hash says which body the next response is compared with; a
repetition is answered as if it were already served. So a recorded hash
must be that of the payload that is served (`Recorded`). Two polls break
this: one that fails and serves a backup of another body, since the hash
is not forgotten there as it is for a refused key, and one that is ended
between the recording of a hash and the write of its payload. In runs
without such polls (`KeepsRecord`) every success is served.
-/
import Mathlib.Logic.Relation
import ForwardProxy.Effect.Protocol
import ForwardProxy.Datastore.GetIdListStore

namespace ForwardProxy.Datastore

open Effect BackgroundDataProvider HttpDataProvider

variable {η : Type} {sha256 : List UInt8 → η}

/-! ## The record -/

/-- A recorded hash is that of the payload that is served. -/
def Recorded (sha256 : List UInt8 → η) (s : IdListPolls η) : Prop :=
  ∀ rc h, s.lastResponseHash rc = some h → ∃ p, s.store rc = some p ∧ sha256 p.data = h

theorem recorded_new : Recorded sha256 IdListPolls.new := by
  intro rc h hrc
  simp [IdListPolls.new] at hrc

theorem Recorded.forget {s : IdListPolls η} (hs : Recorded sha256 s)
    (rc : AuthorizedRequestContext) :
    Recorded sha256 { s with lastResponseHash := Function.update s.lastResponseHash rc none } := by
  intro rc' h hrc
  by_cases heq : rc' = rc
  · subst heq
    simp at hrc
  · simp only [Function.update_of_ne heq] at hrc
    exact hs rc' h hrc

theorem Recorded.insert {s : IdListPolls η} (hs : Recorded sha256 s)
    {rc : AuthorizedRequestContext} {p : ResponsePayload}
    (hp : ∀ h, s.lastResponseHash rc = some h → sha256 p.data = h) :
    Recorded sha256 { s with store := Function.update s.store rc (some p) } := by
  intro rc' h hrc
  by_cases heq : rc' = rc
  · subst heq
    exact ⟨p, Function.update_self .., hp h hrc⟩
  · obtain ⟨q, hq, hh⟩ := hs rc' h hrc
    exact ⟨q, by rw [← hq]; exact Function.update_of_ne heq .., hh⟩

theorem Recorded.remove {s : IdListPolls η} (hs : Recorded sha256 s)
    {rc : AuthorizedRequestContext} (hrc : s.lastResponseHash rc = none) :
    Recorded sha256 { s with store := Function.update s.store rc none } := by
  intro rc' h hh
  by_cases heq : rc' = rc
  · subst heq
    rw [hrc] at hh
    simp at hh
  · obtain ⟨q, hq, hhash⟩ := hs rc' h hh
    exact ⟨q, by rw [← hq]; exact Function.update_of_ne heq .., hhash⟩

/-! ## One poll -/

/-- The commands of a poll that leave the record as it should be. A backup
is of the body the recorded hash is of, and a body whose hash is recorded is
stored, unless it was recorded before or is served already. -/
structure KeepsRecord (sha256 : List UInt8 → η) (s : IdListPolls η)
    (rc : AuthorizedRequestContext) (log : List PollCmd) : Prop where
  backup : .backupGet rc ∈ log → ∀ p, .storeInsert rc p ∈ log →
    ∀ h, s.lastResponseHash rc = some h → sha256 p.data = h
  stored : ∀ body, .isAnUpdate rc body ∈ log →
    s.lastResponseHash rc = some (sha256 body) ∨ (∃ p, s.store rc = some p ∧ p.data = body) ∨
      ∃ p, .storeInsert rc p ∈ log

/-- What a poll leaves, if it keeps the record. -/
def LeavesRecord (sha256 : List UInt8 → η) (s : IdListPolls η) (rc : AuthorizedRequestContext)
    (t : IdListPolls η × List PollCmd) : Prop :=
  KeepsRecord sha256 s rc t.2 → Recorded sha256 t.1

section Poll

variable [DecidableEq η] {rc : AuthorizedRequestContext} {lcut : Nat} {clear : Bool}
  {s : IdListPolls η}

/-- The failure of a poll: a backup is served, if there is one. -/
theorem wp_notifyError (hs : Recorded sha256 s) {dp : DataProviderResult}
    (hdp : dp.result = .error) :
    Wp (idListPolls sha256).logged (notifyResult idlistRequestBuilder rc lcut clear dp)
      (fun _ => LeavesRecord sha256 s rc) (LeavesRecord sha256 s rc) (s, []) := by
  unfold notifyResult
  rw [hdp]
  have hstart : LeavesRecord sha256 s rc (s, []) := fun _ => hs
  refine .cmdBind hstart ?_
  intro (backup : Option (Nat × ResponsePayload)) t hstep
  obtain ⟨hstate, hlog⟩ := hstep
  have hread : LeavesRecord sha256 s rc t := by
    intro _
    rw [show t.1 = s from hstate]
    exact hs
  cases backup with
  | none => exact .pure hread hread
  | some data =>
    obtain ⟨backupLcut, config⟩ := data
    refine .cmd hread ?_
    intro _ t' hstep'
    obtain ⟨hstate', hlog'⟩ := hstep'
    have hend : LeavesRecord sha256 s rc t' := by
      intro hkeeps
      rw [show t'.1 = _ from hstate', show t.1 = s from hstate]
      refine hs.insert (hkeeps.backup ?_ config ?_)
      · simp [hlog', hlog]
      · simp [hlog', hlog]
    exact ⟨hend, hend⟩

/-- A refused key: its hash is forgotten, and its manifest as well if the
flag says so. -/
theorem wp_refused (hs : Recorded sha256 s) {dp : DataProviderResult}
    (hdp : dp.result = .unauthorized) :
    Wp (idListPolls sha256).logged
      (Prog.cmd (PollCmd.forgetHash rc) >>= fun _ =>
        notifyResult idlistRequestBuilder rc lcut clear dp)
      (fun _ => LeavesRecord sha256 s rc) (LeavesRecord sha256 s rc) (s, []) := by
  refine .cmdBind (fun _ => hs) ?_
  intro _ t hstep
  obtain ⟨hstate, _⟩ := hstep
  have hforgotten : Recorded sha256 t.1 := by
    rw [show t.1 = _ from hstate]
    exact hs.forget rc
  have hnone : t.1.lastResponseHash rc = none := by
    rw [show t.1 = _ from hstate]
    exact Function.update_self ..
  unfold notifyResult
  rw [hdp]
  refine .when ?_ (fun _ _ => hforgotten) (fun _ _ => hforgotten)
  intro _
  refine .cmd (fun _ => hforgotten) ?_
  intro _ t' hstep'
  have hend : Recorded sha256 t'.1 := by
    rw [show t'.1 = _ from hstep'.1]
    exact hforgotten.remove hnone
  exact ⟨fun _ => hend, fun _ => hend⟩

/-- A success: the hash of an update is recorded, then its payload is
stored. A repetition is served already. -/
theorem wp_success (hsha : Function.Injective sha256) (huse : rc.useLcut = false)
    (hs : Recorded sha256 s) (sinceTime : Option Nat) (p : ResponsePayload) :
    Wp (idListPolls sha256).logged
      (Prog.cmd (PollCmd.isAnUpdate rc p.data) >>= fun update : Bool =>
        (if !update then Prog.pure handleNoData
          else Prog.pure ⟨.dataAvailable, some p, parseSinceTime rc lcut sinceTime⟩) >>=
        processResult idlistRequestBuilder rc lcut clear)
      (fun _ t => LeavesRecord sha256 s rc t ∧ (t.1.store rc).map (fun q => q.data) = some p.data)
      (LeavesRecord sha256 s rc) (s, []) := by
  refine .cmdBind (fun _ => hs) ?_
  intro (update : Bool) t hstep
  obtain ⟨hstate, hlog⟩ := hstep
  have hcheck : s.isAnUpdate sha256 rc p.data = (update, t.1) := hstate
  unfold IdListPolls.isAnUpdate at hcheck
  split at hcheck
  · -- the recorded hash is that of the payload that is served
    rename_i hsame
    obtain ⟨rfl, ht⟩ := Prod.mk.inj hcheck
    have hrecorded : LeavesRecord sha256 s rc t := fun _ => ht ▸ hs
    obtain ⟨q, hq, hhash⟩ := hs rc _ hsame
    have hserved : (t.1.store rc).map (fun q => q.data) = some p.data := by
      rw [← ht, hq, Option.map_some, hsha hhash]
    exact .bind (.pure hrecorded (.bind (.pure hrecorded (.pure hrecorded ⟨hrecorded, hserved⟩))))
  · obtain ⟨rfl, ht⟩ := Prod.mk.inj hcheck
    rename_i hother
    have hrecording : LeavesRecord sha256 s rc t := by
      intro hkeeps
      -- the poll ends here, so the body must be served already
      have hcases := hkeeps.stored p.data (by simp [hlog])
      rw [hlog] at hcases
      rcases hcases with hsame | ⟨q, hq, hdata⟩ | ⟨q, hq⟩
      · exact absurd hsame hother
      · intro rc' h hh
        rw [← ht] at hh ⊢
        by_cases heq : rc' = rc
        · subst heq
          simp only [Function.update_self, Option.some.injEq] at hh
          exact ⟨q, hq, by rw [hdata, hh]⟩
        · simp only [Function.update_of_ne heq] at hh
          exact hs rc' h hh
      · simp at hq
    refine .bind (.pure hrecording (.bind ?_))
    have hwhen : (!rc.useLcut || decide (lcut ≠ parseSinceTime rc lcut sinceTime)) = true := by
      simp [huse]
    refine .when ?_ (fun h => absurd (hwhen.symm.trans h) (by simp))
      (fun h => absurd (hwhen.symm.trans h) (by simp))
    intro _
    refine .cmd hrecording ?_
    intro _ t' hstep'
    obtain ⟨hstate', _⟩ := hstep'
    have hend : Recorded sha256 t'.1 := by
      intro rc' h hh
      rw [show t'.1 = _ from hstate', ← ht] at hh ⊢
      by_cases heq : rc' = rc
      · subst heq
        simp only [Function.update_self, Option.some.injEq] at hh
        exact ⟨p, Function.update_self .., hh⟩
      · simp only [Function.update_of_ne heq] at hh ⊢
        exact hs rc' h hh
    have hserved : (t'.1.store rc).map (fun q => q.data) = some p.data := by
      rw [show t'.1 = _ from hstate']
      simp
    exact ⟨fun _ => hend, .pure (fun _ => hend) ⟨fun _ => hend, hserved⟩⟩

/-- A response that is no success, of a key that is not refused. -/
theorem wp_failed (hs : Recorded sha256 s) {dp : DataProviderResult}
    (hdp : dp.result ≠ .dataAvailable ∧ dp.result ≠ .unauthorized) :
    Wp (idListPolls sha256).logged (processResult idlistRequestBuilder rc lcut clear dp)
      (fun _ => LeavesRecord sha256 s rc) (LeavesRecord sha256 s rc) (s, []) := by
  have hstart : LeavesRecord sha256 s rc (s, []) := fun _ => hs
  have hnotify : Wp (idListPolls sha256).logged (notifyResult idlistRequestBuilder rc lcut clear dp)
      (fun _ => LeavesRecord sha256 s rc) (LeavesRecord sha256 s rc) (s, []) := by
    cases hresult : dp.result with
    | dataAvailable => exact absurd hresult hdp.1
    | unauthorized => exact absurd hresult hdp.2
    | error => exact wp_notifyError hs hresult
    | noDataAvailable =>
      unfold notifyResult
      rw [hresult]
      exact .pure hstart hstart
    | clientError =>
      unfold notifyResult
      rw [hresult]
      exact .pure hstart hstart
  exact .seq hnotify fun _ t ht => .pure ht ht

/-- **One poll**: it leaves the record as it should be if its commands keep
it, and serves the payload of a success. -/
theorem wp_pollIdLists (hsha : Function.Injective sha256) (huse : rc.useLcut = false)
    (hs : Recorded sha256 s) (lcut : Nat) (clear : Bool) (first second : Attempt) :
    Wp (idListPolls sha256).logged (pollIdLists rc lcut clear first second)
      (fun _ t => LeavesRecord sha256 s rc t ∧
        ∀ p, (answered first second).succeeded = some p →
          (t.1.store rc).map (fun q => q.data) = some p.data)
      (LeavesRecord sha256 s rc) (s, []) := by
  unfold pollIdLists processRequest
  rw [get_eq]
  generalize answered first second = attempt
  have hstart : LeavesRecord sha256 s rc (s, []) := fun _ => hs
  have hfailed : ∀ dp : DataProviderResult, attempt.succeeded = none →
      dp.result ≠ .dataAvailable ∧ dp.result ≠ .unauthorized →
      Wp (idListPolls sha256).logged (processResult idlistRequestBuilder rc lcut clear dp)
        (fun _ t => LeavesRecord sha256 s rc t ∧ ∀ p, attempt.succeeded = some p →
          (t.1.store rc).map (fun q => q.data) = some p.data)
        (LeavesRecord sha256 s rc) (s, []) := by
    intro dp hnone hdp
    exact (wp_failed hs hdp).mono (fun _ t ht => ⟨ht, by simp [hnone]⟩) fun _ ht => ht
  cases attempt with
  | connectError => exact .bind (.pure hstart (hfailed _ rfl (by simp [handleError])))
  | otherError => exact .bind (.pure hstart (hfailed _ rfl (by simp [handleError])))
  | response status sinceTime payload =>
    by_cases hrefused : status = 401 ∨ status = 403
    · have hresult : (handleError (some status)).result = .unauthorized := if_pos hrefused
      have hnone : (Attempt.response status sinceTime payload).succeeded = none := by
        cases payload with
        | none => rfl
        | some p => rcases hrefused with rfl | rfl <;> rfl
      have hsettle : settle idlistRequestBuilder rc lcut (.response status sinceTime payload) =
          Prog.cmd (PollCmd.forgetHash rc) >>= fun _ => Prog.pure (handleError (some status)) := by
        rcases hrefused with rfl | rfl
        · cases payload <;> rfl
        · cases payload <;> rfl
      rw [hsettle]
      change Wp _ ((Prog.cmd (PollCmd.forgetHash rc) >>= fun _ =>
        notifyResult idlistRequestBuilder rc lcut clear (handleError (some status))) >>= fun _ =>
          Prog.pure (handleError (some status)).result) _ _ _
      refine .seq (wp_refused hs hresult) ?_
      intro _ t ht
      exact .pure ht ⟨ht, by simp [hnone]⟩
    · have hsettle : settle idlistRequestBuilder rc lcut (.response status sinceTime payload) =
          handleResponse idlistRequestBuilder rc lcut status sinceTime payload := by
        have hstatus : idlistRequestBuilder.onStatus rc status = Prog.pure () := if_neg hrefused
        change (idlistRequestBuilder.onStatus rc status >>= fun _ => _) = _
        rw [hstatus]
        rfl
      have herror : (handleError (some status)).result ≠ .dataAvailable ∧
          (handleError (some status)).result ≠ .unauthorized := by
        simp only [handleError, if_neg hrefused]
        split <;> simp
      rw [hsettle]
      unfold handleResponse
      split
      · rename_i hnoContent
        refine .bind (.pure hstart (hfailed _ ?_ (by simp [handleNoData])))
        cases payload <;> simp [Attempt.succeeded, hnoContent]
      · rename_i hcontent
        cases payload with
        | none => exact .bind (.pure hstart (hfailed _ rfl herror))
        | some p =>
          by_cases hsuccess : isSuccess status = true
          · simp only [hsuccess, Bool.not_true, Bool.false_eq_true, if_false]
            refine (wp_success hsha huse hs sinceTime p).mono ?_ fun _ ht => ht
            intro _ t ht
            refine ⟨ht.1, ?_⟩
            intro q hq
            simp only [Attempt.succeeded, ne_eq, hcontent, not_false_eq_true, hsuccess, and_self,
              if_true, Option.some.injEq] at hq
            rw [← hq]
            exact ht.2
          · have hfalse : isSuccess status = false := by simpa using hsuccess
            simp only [hfalse, Bool.not_false, if_true]
            refine .bind (.pure hstart (hfailed _ ?_ herror))
            simp [Attempt.succeeded, hfalse]

end Poll

/-! ## Runs of polls -/

section Runs

variable [DecidableEq η] (sha256)

/-- A poll of any context, to its end or cut off, whose commands keep the
record. `keeps` is the condition asked of it. -/
inductive PollStep (keeps : IdListPolls η → AuthorizedRequestContext → List PollCmd → Prop) :
    IdListPolls η → IdListPolls η → Prop
  | poll {s s' : IdListPolls η} {rc : AuthorizedRequestContext} (hpath : rc.path = .v1GetIdLists)
      (lcut : Nat) (clear : Bool) (first second : Attempt) {log : List PollCmd}
      {o : Outcome Empty DataProviderRequestResult}
      (hexec : Exec (idListPolls sha256).logged (pollIdLists rc lcut clear first second) (s, [])
        (s', log) o) (hkeeps : keeps s rc log) : PollStep keeps s s'

variable {sha256}

theorem useLcut_of_path {rc : AuthorizedRequestContext} (h : rc.path = .v1GetIdLists) :
    rc.useLcut = false := by
  simp [AuthorizedRequestContext.useLcut, h]

theorem recorded_step (hsha : Function.Injective sha256) {s s' : IdListPolls η}
    (hs : Recorded sha256 s) (hstep : PollStep sha256 (KeepsRecord sha256) s s') :
    Recorded sha256 s' := by
  cases hstep with
  | poll hpath lcut clear first second hexec hkeeps =>
    have hwp := wp_pollIdLists hsha (useLcut_of_path hpath) hs lcut clear first second
    exact hwp.always (fun _ _ h => h.1) hexec hkeeps

theorem reach_recorded (hsha : Function.Injective sha256) {s : IdListPolls η}
    (hrun : Relation.ReflTransGen (PollStep sha256 (KeepsRecord sha256)) IdListPolls.new s) :
    Recorded sha256 s := by
  induction hrun with
  | refl => exact recorded_new
  | tail _ hlast ih => exact recorded_step hsha ih hlast

/-- **A success is served.** After polls that keep the record, a poll that
receives a success response and completes leaves the body of that response
being served. -/
theorem success_served (hsha : Function.Injective sha256) {s s' : IdListPolls η}
    (hrun : Relation.ReflTransGen (PollStep sha256 (KeepsRecord sha256)) IdListPolls.new s)
    {rc : AuthorizedRequestContext} (hpath : rc.path = .v1GetIdLists) {lcut : Nat} {clear : Bool}
    {first second : Attempt} {p : ResponsePayload}
    (hsuccess : (answered first second).succeeded = some p) {log : List PollCmd}
    {result : DataProviderRequestResult}
    (hexec : Exec (idListPolls sha256).logged (pollIdLists rc lcut clear first second) (s, [])
      (s', log) (.ok result)) :
    (s'.store rc).map (fun q => q.data) = some p.data := by
  have hwp := wp_pollIdLists hsha (useLcut_of_path hpath) (reach_recorded hsha hrun) lcut clear
    first second
  exact (hwp.ok hexec).2 p hsuccess

end Runs

/-! ## Two runs -/

/-- The backup cache answers from a list. -/
def backupRunner [DecidableEq η] (sha256 : List UInt8 → η) :
    Runner (idListPolls sha256) (List (Option (Nat × ResponsePayload))) where
  next s c w :=
    match c, w with
    | .forgetHash rc, w =>
      some ((), { s with lastResponseHash := Function.update s.lastResponseHash rc none }, w)
    | .isAnUpdate rc body, w =>
      some ((s.isAnUpdate sha256 rc body).1, (s.isAnUpdate sha256 rc body).2, w)
    | .backupGet _, backup :: w => some (backup, s, w)
    | .backupGet _, [] => none
    | .storeInsert rc p, w => some ((), { s with store := Function.update s.store rc (some p) }, w)
    | .storeRemove rc, w => some ((), { s with store := Function.update s.store rc none }, w)
  sound := by
    intro s c w r s' w' h
    cases c with
    | backupGet rc =>
      cases w with
      | nil => simp at h
      | cons backup w =>
        cases h
        rfl
    | _ =>
      cases h
      rfl

def manifestClient : AuthorizedRequestContext :=
  AuthorizedRequestContext.new "secret-key" .v1GetIdLists []

def manifest (n : UInt8) : ResponsePayload := ⟨false, .plainText, [n]⟩

/-- A poll that ends; the bodies stand for their hashes. -/
def polled (s : IdListPolls (List UInt8)) (attempt : Attempt)
    (backups : List (Option (Nat × ResponsePayload))) : IdListPolls (List UInt8) × List PollCmd :=
  (backupRunner id).logged.after 10 (pollIdLists manifestClient 0 false attempt attempt) (s, [])
    backups

def repeated : Attempt := .response 200 none (some (manifest 2))

def polledOnce : IdListPolls (List UInt8) × List PollCmd := polled .new repeated []

theorem polled_exec (s : IdListPolls (List UInt8)) (attempt : Attempt)
    (backups : List (Option (Nat × ResponsePayload))) (result : DataProviderRequestResult)
    (h : ((backupRunner id).logged.run 10 (pollIdLists manifestClient 0 false attempt attempt)
      (s, []) backups).map Prod.snd = some (.ok result)) :
    Exec (idListPolls (id : List UInt8 → List UInt8)).logged
      (pollIdLists manifestClient 0 false attempt attempt) (s, [])
      ((polled s attempt backups).1, (polled s attempt backups).2) (.ok result) :=
  (backupRunner id).logged.after_sound h

theorem success_served_again :
    ((polled polledOnce.1 repeated []).1.store manifestClient).map (fun q => q.data) =
      some [2] := by
  have hlog : (polled .new repeated []).2 = [.isAnUpdate manifestClient [2],
      .storeInsert manifestClient (manifest 2)] := by decide +kernel
  have hkeeps : KeepsRecord id .new manifestClient (polled .new repeated []).2 := by
    rw [hlog]
    constructor
    · intro hbackup
      simp at hbackup
    · intro body _
      exact .inr (.inr ⟨manifest 2, by simp⟩)
  have hfirst : PollStep id (KeepsRecord id) .new polledOnce.1 :=
    .poll rfl 0 false _ _ (polled_exec .new repeated [] .dataAvailable (by decide +kernel)) hkeeps
  exact success_served Function.injective_id (.single hfirst) rfl rfl
    (polled_exec polledOnce.1 repeated [] .noDataAvailable (by decide +kernel))

/-- A success, a failure with an older backup, and the same success again:
the older one is served. -/
theorem backup_served_after_success :
    ¬ ∀ (η : Type) [DecidableEq η] (sha256 : List UInt8 → η), Function.Injective sha256 →
      ∀ (s s' : IdListPolls η) (rc : AuthorizedRequestContext) (lcut : Nat) (clear : Bool)
        (first second : Attempt) (p : ResponsePayload) (log : List PollCmd)
        (result : DataProviderRequestResult),
      Relation.ReflTransGen (PollStep sha256 fun _ _ _ => True) IdListPolls.new s →
      rc.path = .v1GetIdLists → (answered first second).succeeded = some p →
      Exec (idListPolls sha256).logged (pollIdLists rc lcut clear first second) (s, []) (s', log)
        (.ok result) →
      (s'.store rc).map (fun q => q.data) = some p.data := by
  intro hall
  have hfirst : PollStep id (fun _ _ _ => True) .new polledOnce.1 :=
    .poll rfl 0 false _ _ (polled_exec .new repeated [] .dataAvailable (by decide +kernel)) trivial
  have hsecond : PollStep id (fun _ _ _ => True) polledOnce.1
      (polled polledOnce.1 .otherError [some (0, manifest 1)]).1 :=
    .poll rfl 0 false _ _ (polled_exec polledOnce.1 .otherError [some (0, manifest 1)] .error
      (by decide +kernel)) trivial
  have hserved := hall (List UInt8) id Function.injective_id _ _ manifestClient 0 false _ _
    (manifest 2) _ .noDataAvailable (.tail (.single hfirst) hsecond) rfl rfl
    (polled_exec _ repeated [] .noDataAvailable (by decide +kernel))
  revert hserved
  decide +kernel

end ForwardProxy.Datastore
