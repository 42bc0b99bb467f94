/-
ForwardProxy.IdList.StaleRemovalTheorems — queued removals and the
manifests seen since.

A queued task keeps its metadata until a tick has work for its list. So a
removal that was queued while the list was absent is executed even though
a later tick has seen the list again, if that tick had no work for it; a
worker may have popped the removal before that tick, and read it after; it
may read the removal of a tick that never completes; and a load task whose
metadata expires becomes a removal when the list carries the fan-out marker
of a removal that was cut off.

Any number of ticks, workers and expiries run side by side here, one
command at a time, and any of them may stop anywhere. `lastSnapshot` reads
off the log what the last completed tick with a complete manifest saw. A
run that stays clear of the cases above (`Timely`) executes no stale
removal.
-/
import Mathlib.Data.Fintype.Basic
import ForwardProxy.Effect.Watch
import ForwardProxy.IdList.TornTaskTheorems

namespace ForwardProxy.IdList

open Effect

/-! ## What the ticks have seen -/

namespace IdListSyncProducer

variable (p : IdListSyncProducer)

/-- The complete manifest of a company, when the tick has one. -/
def snapshot (skh : String) : Option IdListManifest :=
  match p.namespaces.companyManifests with
  | .error _ => none
  | .ok (companies, _) =>
    match companies.lookup skh with
    | some company => if company.incomplete then none else some company.lists
    | none => none

/-- The lists of its complete manifests. -/
def listed : List ListId :=
  match p.namespaces.companyManifests with
  | .error _ => []
  | .ok (companies, _) => companies.flatMap fun company =>
      if company.2.incomplete then [] else company.2.lists.map fun list => ⟨company.1, list.1⟩

/-- The tick has a complete manifest of the list's company, and the list is
not in it. -/
def SeesAbsent (id : ListId) : Prop :=
  ∃ lists, p.snapshot id.skh = some lists ∧ lists.lookup id.list = none

theorem snapshot_of_mem {companies : List (String × CompanyManifest)} {unavailable : Nat}
    (h : p.namespaces.companyManifests = .ok (companies, unavailable)) {skh : String}
    {company : CompanyManifest} (hmem : (skh, company) ∈ companies)
    (hcomplete : company.incomplete = false) : p.snapshot skh = some company.lists := by
  have hlookup := IdListNamespaces.lookup_companyManifests h hmem
  unfold snapshot
  rw [h]
  simp [hlookup, hcomplete]

theorem mem_of_snapshot {companies : List (String × CompanyManifest)} {unavailable : Nat}
    (h : p.namespaces.companyManifests = .ok (companies, unavailable)) {skh : String}
    {lists : IdListManifest} (hsnapshot : p.snapshot skh = some lists) :
    ∃ company, (skh, company) ∈ companies ∧ company.lists = lists := by
  unfold snapshot at hsnapshot
  rw [h] at hsnapshot
  simp only at hsnapshot
  split at hsnapshot
  · rename_i company hlookup
    split at hsnapshot
    · simp at hsnapshot
    · exact ⟨company, mem_of_lookup hlookup, Option.some.inj hsnapshot⟩
  · simp at hsnapshot

/-- A complete manifest that does not lack the list has it. -/
theorem mem_listed {id : ListId} {lists : IdListManifest} (hsnapshot : p.snapshot id.skh = some lists)
    (hlookup : lists.lookup id.list ≠ none) : id ∈ p.listed := by
  unfold snapshot at hsnapshot
  unfold listed
  split at hsnapshot
  · simp at hsnapshot
  · rename_i companies unavailable hcompanies
    split at hsnapshot
    · rename_i company hcompany
      split at hsnapshot
      · simp at hsnapshot
      · rename_i hcomplete
        obtain rfl := Option.some.inj hsnapshot
        obtain ⟨md, hmd⟩ := Option.ne_none_iff_exists'.mp hlookup
        refine List.mem_flatMap.mpr ⟨_, mem_of_lookup hcompany, ?_⟩
        rw [if_neg hcomplete]
        exact List.mem_map.mpr ⟨_, mem_of_lookup hmd, rfl⟩
    · simp at hsnapshot

end IdListSyncProducer

variable {ι : Type}

def TaskParty.snapshot : TaskParty → String → Option IdListManifest
  | .producer p, skh => p.snapshot skh
  | _, _ => none

/-- What the last completed tick with a complete manifest of the company
saw in it. A tick completes with its ZCARD. -/
def lastSnapshot (parties : ι → TaskParty) (skh : String) : List (ι × Cmd) → Option IdListManifest
  | [] => none
  | (i, .zcard) :: log =>
    match (parties i).snapshot skh with
    | some lists => some lists
    | none => lastSnapshot parties skh log
  | _ :: log => lastSnapshot parties skh log

/-- The last completed tick with a complete manifest of the company saw the
list absent from it. -/
def LastSawAbsent (parties : ι → TaskParty) (log : List (ι × Cmd)) (id : ListId) : Prop :=
  ∃ lists, lastSnapshot parties id.skh log = some lists ∧ lists.lookup id.list = none

/-- The party that has written the operation of the list's task last. -/
def opWriter (id : ListId) : List (ι × Cmd) → Option ι
  | [] => none
  | (i, .write (.hsetMeta j (.op _))) :: log => if j = id then some i else opWriter id log
  | _ :: log => opWriter id log

/-- That party has not completed. -/
def Unconfirmed (log : List (ι × Cmd)) (id : ListId) : Prop :=
  ∃ i, opWriter id log = some i ∧ (i, Cmd.zcard) ∉ log

/-! ## What the parties are about -/

/-- A worker that finds this metadata and this state removes the list. -/
def comesToRemoval (metaFields : TaskMetaHash) (stateFields : StateHash) : Bool :=
  match IdListSyncWorker.taskMetadata metaFields stateFields with
  | .ok (some md) => md.op = .remove
  | _ => false

/-- How far a party has come: a tick, the enqueue of one task in it, a
worker, or an expiry. `holding` is a worker that has no removal to come. -/
inductive TaskPhase where
  | tick (p : IdListSyncProducer)
  | enqueuing (p : IdListSyncProducer) (id : ListId)
  | idle
  | popped (id : ListId)
  | read (id : ListId) (metaFields : TaskMetaHash)
  | removing (id : ListId)
  | holding (id : ListId)
  | expiring
  | finished

def TaskParty.phase : TaskParty → TaskPhase
  | .producer p => .tick p
  | .worker _ => .idle
  | .expiry _ => .expiring

/-- The final pipeline of a removal. -/
def Cmd.Removes (id : ListId) : Cmd → Prop
  | .write (.hdelDict i _) | .write (.sremAll i) | .write (.delState i) => i = id
  | _ => False

def TaskMetaField.isOp : TaskMetaField → Bool
  | .op _ => true
  | _ => false

/-- What the parties send, and what the replies lead to. -/
def taskWatch : Protocol Cmd Cmd.Reply TaskPhase where
  allows
    | .tick p, c => c.Surveys ∨ c = .zcard ∨
        ∃ id o, c = .write (.hsetMeta id (.op o)) ∧ (o = .remove → p.SeesAbsent id)
    | .enqueuing _ id, c => (∃ field, c = .write (.hsetMeta id field) ∧ field.isOp = false) ∨
        c = .write (.expireMeta id) ∨ ∃ score, c = .zaddNx score id
    | .idle, c => c = .zpopmin
    | .popped id, c => c = .tryAcquire id ∨ c = .hgetallMeta id
    | .read id _, c => c = .hgetState id
    | .removing id, c => (∃ tok, c.OfTask id none tok) ∨
        c = .write (.hsetState id [.removalFanoutComplete]) ∨ c = .write (.delMeta id) ∨ c.Removes id
    | .holding id, c => c = .allocToken id ∨ ∃ target tok, c.OfTask id target tok
    | .expiring, c => ∃ id, c = .write (.delMeta id)
    | .finished, _ => False
  next
    | .tick p, .write (.hsetMeta id (.op _)), _ => .enqueuing p id
    | .tick _, .zcard, _ => .finished
    | .enqueuing p _, .zaddNx _ _, _ => .tick p
    | .idle, .zpopmin, some id => .popped id
    | .idle, .zpopmin, none => .finished
    | .popped _, .tryAcquire _, false => .finished
    | .popped id, .hgetallMeta _, metaFields => .read id metaFields
    | .read id metaFields, .hgetState _, stateFields =>
      if comesToRemoval metaFields stateFields then .removing id else .holding id
    | .removing id, .write (.delState _), _ => .holding id
    | phase, _, _ => phase

/-- The lists of the tick a party is in. -/
def TaskPhase.listed : TaskPhase → List ListId
  | .tick p => p.listed
  | _ => []

def TaskPhase.expires : TaskPhase → Bool
  | .expiring => true
  | _ => false

/-- The list is on its way to a worker that has yet to read its task. -/
def TaskPhase.handles (id : ListId) : TaskPhase → Bool
  | .enqueuing _ j | .popped j => j = id
  | _ => false

/-- The worker has read the task of the list, and it comes to a removal. -/
def TaskPhase.decides (id : ListId) (stateFields : StateHash) : TaskPhase → Bool
  | .read j metaFields => j = id && comesToRemoval metaFields stateFields
  | .removing j => j = id
  | _ => false

def Db.Queued (db : Db) (id : ListId) : Prop := id ∈ db.queue.map Prod.snd

/-- The list is queued, or was popped and not read yet, or is about to be
queued. -/
def Pending (φ : ι → TaskPhase) (db : Db) (id : ListId) : Prop :=
  db.Queued id ∨ ∃ i, (φ i).handles id = true

/-- A pending list whose task comes to a removal, as it stands. -/
def RemovalPending (φ : ι → TaskPhase) (db : Db) (id : ListId) : Prop :=
  Pending φ db id ∧ comesToRemoval (db.taskMeta id) (db.state id) = true

/-- A worker is at a removal of the list. -/
def RemovalDecided (φ : ι → TaskPhase) (db : Db) (id : ListId) : Prop :=
  ∃ i, (φ i).decides id (db.state id) = true

/-! ## Runs -/

/-- The condition on a run. A tick completes only when no removal of a list
it has seen is pending, or under way; a worker reads the removal of a tick
only when that tick has completed; and the metadata of a pending list with
a fan-out marker does not expire. The last two may happen to lists last
seen absent. -/
def Timely (parties : ι → TaskParty) : Effect.Watched.Condition Cmd Db ι TaskPhase :=
  fun φ db log i c =>
    match c with
    | .zcard => ∀ id ∈ (φ i).listed, ¬ RemovalPending φ db id ∧ ¬ RemovalDecided φ db id
    | .hgetallMeta id => (db.taskMeta id).op = some .remove → Unconfirmed log id →
      LastSawAbsent parties log id
    | .write (.delMeta id) => (φ i).expires = true → Pending φ db id →
      (db.state id).removalFanoutComplete = true → LastSawAbsent parties log id
    | _ => True

/-- What the parties leave, one command at a time, with their phases. -/
abbrev TaskRun (parties : ι → TaskParty) : Type :=
  Effect.Watched Cmd Cmd.Reply WorkerError Db ι (fun i => (parties i).Result) TaskPhase

def TaskRun.start (parties : ι → TaskParty) : TaskRun parties :=
  ⟨⟨{}, fun i => (parties i).prog, []⟩, fun i => (parties i).phase⟩

/-- One command of one party, under the condition, or a party stops. -/
abbrev TaskRun.Step [DecidableEq ι] {parties : ι → TaskParty} (origin : String → List UInt8)
    (cond : Effect.Watched.Condition Cmd Db ι TaskPhase) :
    TaskRun parties → TaskRun parties → Prop :=
  Effect.Watched.Step (redis origin) taskWatch .finished cond

/-! ## The parties follow their phases -/

theorem comesToRemoval_iff {metaFields : TaskMetaHash} {stateFields : StateHash} :
    comesToRemoval metaFields stateFields = true ↔ metaFields.op = some .remove ∨
      (metaFields = {} ∧ stateFields.removalFanoutComplete = true) := by
  unfold comesToRemoval IdListSyncWorker.taskMetadata
  by_cases hempty : metaFields = {}
  · subst hempty
    cases stateFields.removalFanoutComplete <;> simp [TaskMetaHash.isEmpty]
  · have hisEmpty : metaFields.isEmpty = false := by simpa [TaskMetaHash.isEmpty] using hempty
    simp only [hisEmpty, Bool.false_and, Bool.false_eq_true, if_false, hempty, false_and, or_false]
    unfold TaskMetadata.fromHash
    cases hop : metaFields.op with
    | none => simp [Except.map]
    | some op =>
      cases op with
      | remove => simp [Except.map]
      | load =>
        simp only [Option.some.injEq, reduceCtorEq, iff_false, Bool.not_eq_true]
        cases metaFields.creationTime with
        | none => simp [Except.map]
        | some time =>
          cases metaFields.url.filter (· ≠ "") with
          | none => simp [Except.map]
          | some url =>
            cases metaFields.size with
            | none => simp [Except.map]
            | some size => simp [Except.map]

/-- The operation a task is queued with. -/
def SyncAction.op : SyncAction → TaskOp
  | .remove => .remove
  | _ => .load

theorem SyncAction.eq_remove {action : SyncAction} (h : action.op = .remove) : action = .remove := by
  cases action with
  | remove => rfl
  | fullLoad => simp [SyncAction.op] at h
  | delta lag => simp [SyncAction.op] at h

namespace IdListSyncProducer

variable (p : IdListSyncProducer)

/-- A task of the tick: a removal is of a list the tick does not see. -/
def Sound (task : DerivedTask) : Prop := task.action = .remove → p.SeesAbsent task.id

/-- Whatever it reads, the survey of a company comes to tasks of the tick. -/
theorem produceCompany_yields {companies : List (String × CompanyManifest)} {unavailable : Nat}
    (h : p.namespaces.companyManifests = .ok (companies, unavailable))
    (acc : List DerivedTask × Nat) (item : String × CompanyManifest) (hitem : item ∈ companies)
    (hacc : ∀ task ∈ acc.1, p.Sound task) :
    (p.produceCompany acc item).Yields fun acc' => ∀ task ∈ acc'.1, p.Sound task := by
  have hplan : ∀ list, (p.planList item.1 list).Yields fun r => ∀ task ∈ r.2, p.Sound task := by
    intro list
    refine .bind (.top _) fun state _ => .bind (.top _) fun fwdExists _ => ?_
    cases hplan : planSyncWithReverseIndex (parseState state) list.2 fwdExists
      p.enableReverseIndex with
    | none => exact fun task htask => absurd htask (by simp)
    | some plan =>
      intro task htask hremove
      unfold planSyncWithReverseIndex at hplan
      obtain ⟨action, haction, rfl⟩ := Option.map_eq_some_iff.mp hplan
      obtain rfl := List.mem_singleton.mp htask
      obtain rfl : action = .remove := hremove
      exact absurd haction needsWork_ne_remove
  refine .bind (P := fun found => ∀ task ∈ found.2, p.Sound task) ?_ fun found hfound => ?_
  · refine .foldMem (fun found list _ hfound => .bind (hplan list) fun r hr => ?_) ?_
    · intro task htask
      rcases List.mem_append.mp htask with htask | htask
      · exact hfound task htask
      · exact hr task htask
    · simp
  · refine .bind (.top _) fun known _ => .bind (.top _) fun _ _ => ?_
    intro task htask
    rcases List.mem_append.mp htask with htask | htask
    · rcases List.mem_append.mp htask with htask | htask
      · exact hacc task htask
      · exact hfound task htask
    · intro _
      unfold removals at htask
      obtain ⟨name, hname, rfl⟩ := List.mem_map.mp htask
      simp only [List.mem_filter, Bool.and_eq_true, Bool.not_eq_true', Option.isNone_iff_eq_none]
        at hname
      exact ⟨item.2.lists, p.snapshot_of_mem h hitem hname.2.1, hname.2.2⟩

theorem enqueueWrites_cons (task : DerivedTask) : ∃ rest,
    enqueueWrites task = .hsetMeta task.id (.op task.action.op) :: rest ∧
      ∀ wr ∈ rest, (∃ field, wr = .hsetMeta task.id field ∧ field.isOp = false) ∨
        wr = .expireMeta task.id := by
  obtain ⟨id, action, md⟩ := task
  cases action with
  | remove => exact ⟨[.expireMeta id], rfl, by simp⟩
  | fullLoad =>
    cases md with
    | none => exact ⟨[.expireMeta id], rfl, by simp⟩
    | some md => exact ⟨_, rfl, by simp [TaskMetaField.isOp]⟩
  | delta lag =>
    cases md with
    | none => exact ⟨[.expireMeta id], rfl, by simp⟩
    | some md => exact ⟨_, rfl, by simp [TaskMetaField.isOp]⟩

theorem enqueueTask_watched (added : Nat) (item : Nat × DerivedTask) (hitem : p.Sound item.2) :
    (enqueueTask added item).Follows taskWatch (· = .tick p) (.tick p) := by
  obtain ⟨rest, hwrites, hrest⟩ := enqueueWrites_cons item.2
  have hwritten : (Prog.forEach write (enqueueWrites item.2)).Follows taskWatch
      (· = .enqueuing p item.2.id) (.tick p) := by
    rw [hwrites]
    have hissues : (Prog.forEach write rest).Issues fun c =>
        (∃ field, c = .write (.hsetMeta item.2.id field) ∧ field.isOp = false) ∨
          c = .write (.expireMeta item.2.id) := by
      refine .forEachMem fun wr hwr => .cmd ?_
      rcases hrest wr hwr with ⟨field, rfl, hfield⟩ | rfl
      · exact .inl ⟨field, rfl, hfield⟩
      · exact .inr rfl
    have hfields : (Prog.forEach write rest).Follows taskWatch (· = .enqueuing p item.2.id)
        (.enqueuing p item.2.id) := by
      refine .stays (fun c hc => ?_) hissues
      rcases hc with ⟨field, rfl, hfield⟩ | rfl
      · exact ⟨Or.inl ⟨field, rfl, hfield⟩, fun _ => rfl⟩
      · exact ⟨Or.inr (.inl rfl), fun _ => rfl⟩
    exact ⟨.inr (.inr ⟨_, _, rfl, fun h => hitem (SyncAction.eq_remove h)⟩), fun _ => hfields⟩
  refine .bind hwritten fun _ φ hφ => ?_
  subst hφ
  exact ⟨.inr (.inr ⟨item.1, rfl⟩), fun _ => rfl⟩

theorem produceLocked_watched :
    p.produceLocked.Follows taskWatch (fun _ => True) (.tick p) := by
  unfold produceLocked
  cases hcompanies : p.namespaces.companyManifests with
  | error e => exact .throw _
  | ok result =>
    obtain ⟨companies, unavailable⟩ := result
    have hsurvey : (Prog.fold p.produceCompany ([], 0) companies).Follows taskWatch
        (· = .tick p) (.tick p) := by
      refine .stays (fun c hc => ⟨Or.inl hc, fun r => ?_⟩)
        (.fold (fun acc item => p.produceCompany_issues acc item) _ _)
      cases c with
      | write wr =>
        cases wr with
        | hsetMeta id field => exact hc.elim
        | _ => rfl
      | zcard => exact hc.elim
      | _ => rfl
    have hyields : (Prog.fold p.produceCompany ([], 0) companies).Yields
        fun derived => ∀ task ∈ derived.1, p.Sound task :=
      .foldMem (fun acc item hitem hacc => p.produceCompany_yields hcompanies acc item hitem hacc)
        (by simp)
    refine .bindYields hsurvey hyields fun derived φ hderived hφ => ?_
    subst hφ
    have henqueue : (enqueueTasks (orderAndDedupeTasks derived.1)).Follows taskWatch
        (· = .tick p) (.tick p) := by
      rw [enqueueTasks_eq]
      refine Prog.Follows.foldMem (fun added item hitem φ hφ => ?_) rfl
      rw [hφ]
      exact p.enqueueTask_watched added item (hderived _ (mem_ordered hitem))
    refine .bind henqueue fun _ φ hφ => ?_
    subst hφ
    exact ⟨.inr (.inl rfl), fun _ => trivial⟩

end IdListSyncProducer

theorem holding_of_issues {β : Type} {p : Redis β} {id : ListId}
    (h : p.Issues fun c => c = .allocToken id ∨ ∃ target tok, c.OfTask id target tok) :
    p.Follows taskWatch (· = .holding id) (.holding id) :=
  .stays (fun _ hc => ⟨hc, fun _ => rfl⟩) h

theorem next_removing {c : Cmd} {id : ListId} (h : (∃ tok, c.OfTask id none tok) ∨
    c = .write (.hsetState id [.removalFanoutComplete]) ∨ c = .write (.delMeta id) ∨
      (c.Removes id ∧ c ≠ .write (.delState id))) (r : c.Reply) :
    taskWatch.next (.removing id) c r = .removing id := by
  cases c with
  | write wr =>
    cases wr with
    | delState i =>
      rcases h with ⟨_, hof⟩ | h | h | ⟨hi, hne⟩
      · exact hof.elim
      · simp at h
      · simp at h
      · obtain rfl : i = id := hi
        exact absurd rfl hne
    | _ => rfl
  | _ => rfl

theorem removing_of_issues {β : Type} {p : Redis β} {id : ListId}
    (h : p.Issues fun c => (∃ tok, c.OfTask id none tok) ∨
      c = .write (.hsetState id [.removalFanoutComplete]) ∨ c = .write (.delMeta id) ∨
        (c.Removes id ∧ c ≠ .write (.delState id))) :
    p.Follows taskWatch (· = .removing id) (.removing id) := by
  refine .stays (fun c hc => ⟨?_, next_removing hc⟩) h
  exact hc.imp_right fun hc => hc.imp_right fun hc => hc.imp_right fun hc => hc.1

namespace IdListSyncWorker

variable (w : IdListSyncWorker) {id : ListId}

/-- A removal is under way until its state is deleted. -/
theorem runPlanned_removing {state : ListSyncState} {md : TaskMetadata} :
    (w.runPlanned id state .remove md).Follows taskWatch (· = .holding id) (.removing id) := by
  have hmark : (w.markForwardOnly id).Issues (Cmd.OfTask id none none) := w.markForwardOnly_issues
  refine .bind (removing_of_issues (hmark.mono fun _ hc => .inl ⟨none, hc⟩)) fun _ φ hφ => ?_
  subst hφ
  have hremove : (w.applyRemove id state).Follows taskWatch (· = .holding id) (.removing id) := by
    rw [applyRemove_eq]
    refine Prog.Follows.bind (removing_of_issues (w.clearIndex_issues.mono ?_)) fun token φ hφ => ?_
    · exact fun c hc => hc.imp_right Or.inl
    · subst hφ
      have hlocal : ∀ ver, (write (.delFwd id ver)).Follows taskWatch (· = .removing id)
          (.removing id) := fun ver => ⟨.inl ⟨none, rfl⟩, fun _ => rfl⟩
      refine .bind (removing_of_issues (.forEach (fun ver => .cmd (.inl ⟨none, rfl⟩)) _)) ?_
      rintro _ φ rfl
      refine .bind (hlocal _) ?_
      rintro _ φ rfl
      refine .bind (Q := (· = .removing id)) (.cmd (.inr (.inr (.inl rfl))) fun _ => rfl) ?_
      rintro _ φ rfl
      refine .bind (Q := (· = .removing id)) (.cmd (.inr (.inr (.inr rfl))) fun _ => rfl) ?_
      rintro _ φ rfl
      refine .bind (Q := (· = .removing id)) (.cmd (.inr (.inr (.inr rfl))) fun _ => rfl) ?_
      rintro _ φ rfl
      exact .cmd (.inr (.inr (.inr rfl))) fun _ => rfl
  exact .bind hremove fun _ φ hφ => hφ

theorem runPlanned_holding {state : ListSyncState} {action : WorkerAction} {md : TaskMetadata}
    (h : action ≠ .remove) :
    (w.runPlanned id state action md).Follows taskWatch (· = .holding id) (.holding id) := by
  have hfollows : (w.runPlanned id state action md).Follows (taskProtocol id (action.commits md))
      (fun _ => True) none := w.runPlanned_follows h
  refine holding_of_issues (hfollows.issues.mono ?_)
  rintro c ⟨tok, hc⟩
  exact hc.imp_right fun hc => ⟨_, tok, hc⟩

/-- A load task is never planned as a removal. -/
theorem planWork_yields {stateExists : Bool} {state : ListSyncState} {md : TaskMetadata} :
    (w.planWork id stateExists state md).Yields fun plan => ∀ p ∈ plan, p.1 ≠ .remove := by
  refine .bind (.top _) fun fwdExists _ => ?_
  cases hplan : w.planAction stateExists state md fwdExists with
  | error e => exact trivial
  | ok plan =>
    cases plan with
    | none =>
      refine .bind (.top _) fun _ _ => ?_
      intro p hp
      simp at hp
    | some plan =>
      intro p hp
      obtain rfl := Option.mem_some.mp hp
      unfold planAction at hplan
      split at hplan
      all_goals simp only [Except.ok.injEq, Option.some.injEq, reduceCtorEq] at hplan
      · rw [← hplan]
        simp
      · rw [← hplan]
        simp

theorem runClaimed_watched :
    (w.runClaimed id).Follows taskWatch (· = .holding id) (.popped id) := by
  refine .cmdBind (.inr rfl) fun metaFields => .cmdBind rfl fun stateFields => ?_
  show Prog.Follows taskWatch _ _
    (if comesToRemoval metaFields stateFields then .removing id else .holding id)
  unfold comesToRemoval
  cases taskMetadata metaFields stateFields with
  | error e => exact .throw _
  | ok task =>
    cases task with
    | none => exact rfl
    | some md =>
      obtain ⟨op, fileId, creationTime, url, size⟩ := md
      cases op with
      | remove => exact w.runPlanned_removing
      | load =>
        have hplan : (w.planWork id (!StateHash.isEmpty stateFields)
            (ListSyncState.fromHashFields stateFields)
            ⟨.load, fileId, creationTime, url, size⟩).Issues (Cmd.OfTask id none none) :=
          w.planWork_issues
        refine .bindYields (holding_of_issues (hplan.mono fun _ hc => .inr ⟨none, none, hc⟩))
          w.planWork_yields ?_
        rintro plan φ hne rfl
        cases plan with
        | none => exact rfl
        | some plan => exact w.runPlanned_holding (hne plan rfl)

theorem runOnce_watched : w.runOnce.Follows taskWatch (fun _ => True) .idle := by
  refine .cmdBind rfl fun popped => ?_
  cases popped with
  | none => exact trivial
  | some id =>
    refine .cmdBind (.inl rfl) fun claimed => ?_
    cases claimed with
    | false => exact trivial
    | true =>
      refine .bind w.runClaimed_watched ?_
      rintro outcome φ rfl
      exact .cmdBind (.inr ⟨none, none, trivial⟩) fun _ => trivial

end IdListSyncWorker

theorem TaskParty.prog_watched (party : TaskParty) :
    party.prog.Follows taskWatch (fun _ => True) party.phase := by
  cases party with
  | producer p => exact p.produceLocked_watched
  | worker w => exact w.runOnce_watched
  | expiry id => exact ⟨⟨id, rfl⟩, fun _ => trivial⟩

/-! ## What the commands change -/

/-- Task metadata and the queue are as before, and no list has got a fan-out
marker. -/
structure Quiet (db db' : Db) : Prop where
  taskMeta : db'.taskMeta = db.taskMeta
  queue : db'.queue = db.queue
  marker : ∀ id, (db'.state id).removalFanoutComplete = true →
    (db.state id).removalFanoutComplete = true

theorem Quiet.refl (db : Db) : Quiet db db := ⟨rfl, rfl, fun _ h => h⟩

theorem Quiet.of_same {db db' : Db} (hmeta : db'.taskMeta = db.taskMeta)
    (hqueue : db'.queue = db.queue) (hstate : db'.state = db.state) : Quiet db db' := by
  refine ⟨hmeta, hqueue, ?_⟩
  intro id h
  rwa [hstate] at h

theorem Quiet.setState {db₀ db : Db} (h : Quiet db₀ db) {id : ListId} {state : StateHash}
    (hstate : state.removalFanoutComplete = true → (db.state id).removalFanoutComplete = true) :
    Quiet db₀ (db.setState id state) := by
  refine ⟨h.taskMeta, h.queue, ?_⟩
  intro j hj
  rw [Db.setState_state, Function.update_apply] at hj
  split at hj
  · rename_i heq
    rw [heq]
    exact h.marker id (hstate hj)
  · exact h.marker j hj

theorem marker_setAll : ∀ (fs : List StateField) (state : StateHash),
    .removalFanoutComplete ∉ fs →
      (state.setAll fs).removalFanoutComplete = state.removalFanoutComplete := by
  intro fs
  induction fs with
  | nil =>
    intro state _
    rfl
  | cons field fs ih =>
    intro state hfs
    simp only [List.mem_cons, not_or] at hfs
    have hset : (state.set field).removalFanoutComplete = state.removalFanoutComplete := by
      cases field <;> first | rfl | exact absurd rfl hfs.1
    exact (ih (state.set field) hfs.2).trans hset

theorem marker_delAll : ∀ (names : List StateFieldName) (state : StateHash),
    (state.delAll names).removalFanoutComplete = true → state.removalFanoutComplete = true := by
  intro names
  induction names with
  | nil => exact fun _ h => h
  | cons name names ih =>
    intro state h
    have hdel := ih (state.del name) h
    cases name <;> first | exact hdel | simp [StateHash.del] at hdel

variable {origin : String → List UInt8} {db db' : Db} {id : ListId} {c : Cmd}

theorem quiet_write {db₀ : Db} {target : Option TaskMetadata} {tok : Option Nat} {wr : Write}
    (hwr : wr.OfTask id target tok) (h : Quiet db₀ db) : Quiet db₀ (wr.apply db) := by
  cases wr with
  | hsetState i fs =>
    refine h.setState fun hmarker => ?_
    have hfs : StateField.removalFanoutComplete ∉ fs := by
      obtain ⟨_, hfs | ⟨md, size, card, _, rfl⟩⟩ := hwr
      · intro hmem
        have hprogress := List.all_eq_true.mp hfs _ hmem
        simp [StateField.progress] at hprogress
      · simp
    rwa [marker_setAll fs _ hfs] at hmarker
  | hdelState i names => exact h.setState (marker_delAll names _)
  | hsetMeta i field => exact hwr.elim
  | delMeta i => exact hwr.elim
  | delState i => exact hwr.elim
  | _ => exact ⟨h.taskMeta, h.queue, h.marker⟩

theorem quiet_ofTask {target : Option TaskMetadata} {tok : Option Nat} (hc : c.OfTask id target tok)
    {r : c.Reply} (hstep : (redis origin).step db c r db') : Quiet db db' :=
  task_keeps quiet_write hc db r db' (.refl db) hstep

theorem quiet_surveys (hc : c.Surveys) {r : c.Reply} (hstep : (redis origin).step db c r db') :
    Quiet db db' := by
  have hsurveyed := surveyed_step hc db r db' (Surveyed.refl db) hstep
  exact .of_same hsurveyed.taskMeta hsurveyed.queue hsurveyed.state

theorem quiet_removes (hc : c.Removes id) {r : c.Reply} (hstep : (redis origin).step db c r db') :
    Quiet db db' := by
  unfold Cmd.Removes at hc
  split at hc
  · exact hstep ▸ .of_same rfl rfl rfl
  · exact hstep ▸ .of_same rfl rfl rfl
  · exact hstep ▸ (Quiet.refl db).setState (by simp)
  · exact hc.elim

theorem comesToRemoval_mono {metaFields : TaskMetaHash} {state state' : StateHash}
    (hmarker : state'.removalFanoutComplete = true → state.removalFanoutComplete = true)
    (h : comesToRemoval metaFields state' = true) : comesToRemoval metaFields state = true :=
  comesToRemoval_iff.mpr ((comesToRemoval_iff.mp h).imp_right fun h => ⟨h.1, hmarker h.2⟩)

theorem decides_mono {ph : TaskPhase} {state state' : StateHash}
    (hmarker : state'.removalFanoutComplete = true → state.removalFanoutComplete = true)
    (h : ph.decides id state' = true) : ph.decides id state = true := by
  cases ph with
  | read j metaFields =>
    simp only [TaskPhase.decides, Bool.and_eq_true] at h ⊢
    exact ⟨h.1, comesToRemoval_mono hmarker h.2⟩
  | _ => exact h

/-! ## No stale removal is decided -/

/-- The tick a party is in. -/
def TaskPhase.ofTick : TaskPhase → Option IdListSyncProducer
  | .tick p | .enqueuing p _ => some p
  | _ => none

/-- Every decided removal is of a list last seen absent, and every pending
one too, unless the tick that enqueued it has not completed. -/
structure Fresh (parties : ι → TaskParty) (φ : ι → TaskPhase) (db : Db) (log : List (ι × Cmd)) :
    Prop where
  tick : ∀ i p, (φ i).ofTick = some p → parties i = .producer p ∧ (i, Cmd.zcard) ∉ log
  writer : ∀ id, (db.taskMeta id).op = some .remove → ∃ i, opWriter id log = some i ∧
    ∃ lists, (parties i).snapshot id.skh = some lists ∧ lists.lookup id.list = none
  pending : ∀ id, RemovalPending φ db id → LastSawAbsent parties log id ∨
    ((db.taskMeta id).op = some .remove ∧ Unconfirmed log id)
  decided : ∀ id, RemovalDecided φ db id → LastSawAbsent parties log id

variable {parties : ι → TaskParty} {φ : ι → TaskPhase} {log : List (ι × Cmd)} {i : ι} {ph : TaskPhase}

theorem lastSnapshot_cons (hc : c ≠ .zcard) (skh : String) :
    lastSnapshot parties skh ((i, c) :: log) = lastSnapshot parties skh log := by
  cases c with
  | zcard => exact absurd rfl hc
  | _ => rfl

theorem opWriter_cons (hc : ∀ o, c ≠ .write (.hsetMeta id (.op o))) :
    opWriter id ((i, c) :: log) = opWriter id log := by
  cases c with
  | write wr =>
    cases wr with
    | hsetMeta j field =>
      cases field with
      | op o =>
        have hj : j ≠ id := by
          rintro rfl
          exact hc o rfl
        simp [opWriter, hj]
      | _ => rfl
    | _ => rfl
  | _ => rfl

theorem fresh_start : Fresh parties (fun i => (parties i).phase) {} [] := by
  refine ⟨?_, ?_, ?_, ?_⟩
  · intro i p hi
    refine ⟨?_, by simp⟩
    cases hparty : parties i with
    | producer q =>
      simp only [hparty] at hi
      exact congrArg TaskParty.producer (Option.some.inj hi)
    | worker w => simp [hparty, TaskParty.phase, TaskPhase.ofTick] at hi
    | expiry id => simp [hparty, TaskParty.phase, TaskPhase.ofTick] at hi
  · intro id hid
    simp at hid
  · rintro id ⟨hqueued | ⟨i, hi⟩, _⟩
    · simp [Db.Queued] at hqueued
    · cases hparty : parties i <;> simp [hparty, TaskParty.phase, TaskPhase.handles] at hi
  · rintro id ⟨i, hi⟩
    cases hparty : parties i <;> simp [hparty, TaskParty.phase, TaskPhase.decides] at hi

variable [DecidableEq ι]

theorem Pending.of_update (h : Pending (Function.update φ i ph) db' id)
    (hqueue : db'.Queued id → Pending φ db id) (hph : ph.handles id = true → Pending φ db id) :
    Pending φ db id := by
  rcases h with h | ⟨j, hj⟩
  · exact hqueue h
  · by_cases hji : j = i
    · subst hji
      rw [Function.update_self] at hj
      exact hph hj
    · rw [Function.update_of_ne hji] at hj
      exact .inr ⟨j, hj⟩

/-- A removal decided after one more command: the sender decides it, or it
was decided before, as far as the fan-out marker goes. -/
theorem RemovalDecided.of_update (h : RemovalDecided (Function.update φ i ph) db' id) :
    ph.decides id (db'.state id) = true ∨ ∃ j, (φ j).decides id (db'.state id) = true := by
  obtain ⟨j, hj⟩ := h
  by_cases hji : j = i
  · subst hji
    rw [Function.update_self] at hj
    exact .inl hj
  · rw [Function.update_of_ne hji] at hj
    exact .inr ⟨j, hj⟩

/-- A command that neither completes a tick nor writes an operation. -/
theorem Fresh.plain (h : Fresh parties φ db log) (hzcard : c ≠ .zcard)
    (hop : ∀ j o, c ≠ .write (.hsetMeta j (.op o)))
    (htick : ∀ p, ph.ofTick = some p → (φ i).ofTick = some p)
    (hmeta : ∀ id, (db'.taskMeta id).op = some .remove → (db.taskMeta id).op = some .remove)
    (hpending : ∀ id, RemovalPending (Function.update φ i ph) db' id →
      LastSawAbsent parties log id ∨
        (RemovalPending φ db id ∧ (db'.taskMeta id).op = (db.taskMeta id).op))
    (hdecided : ∀ id, RemovalDecided (Function.update φ i ph) db' id →
      LastSawAbsent parties log id) :
    Fresh parties (Function.update φ i ph) db' ((i, c) :: log) := by
  have hsaw : ∀ id, LastSawAbsent parties log id → LastSawAbsent parties ((i, c) :: log) id := by
    intro id hid
    unfold LastSawAbsent
    rw [lastSnapshot_cons hzcard]
    exact hid
  have hnot : ∀ j, (j, Cmd.zcard) ∉ log → (j, Cmd.zcard) ∉ (i, c) :: log := by
    intro j hj hmem
    rcases List.mem_cons.mp hmem with heq | hmem
    · exact hzcard (Prod.mk.inj heq).2.symm
    · exact hj hmem
  refine ⟨?_, ?_, ?_, fun id hid => hsaw id (hdecided id hid)⟩
  · intro j p hj
    by_cases hji : j = i
    · subst hji
      rw [Function.update_self] at hj
      obtain ⟨hparty, hmem⟩ := h.tick j p (htick p hj)
      exact ⟨hparty, hnot j hmem⟩
    · rw [Function.update_of_ne hji] at hj
      obtain ⟨hparty, hmem⟩ := h.tick j p hj
      exact ⟨hparty, hnot j hmem⟩
  · intro id hid
    rw [opWriter_cons (hop id)]
    exact h.writer id (hmeta id hid)
  · intro id hid
    rcases hpending id hid with hseen | ⟨hbefore, hsame⟩
    · exact .inl (hsaw id hseen)
    · rcases h.pending id hbefore with hseen | ⟨hremove, j, hwriter, hmem⟩
      · exact .inl (hsaw id hseen)
      · exact .inr ⟨hsame.trans hremove, j, (opWriter_cons (hop id)).trans hwriter, hnot j hmem⟩

/-- A quiet command. -/
theorem Fresh.quiet (h : Fresh parties φ db log) (hquiet : Quiet db db') (hzcard : c ≠ .zcard)
    (hop : ∀ j o, c ≠ .write (.hsetMeta j (.op o)))
    (htick : ∀ p, ph.ofTick = some p → (φ i).ofTick = some p)
    (hhandles : ∀ id, ph.handles id = true → Pending φ db id)
    (hdecides : ∀ id, ph.decides id (db.state id) = true → LastSawAbsent parties log id) :
    Fresh parties (Function.update φ i ph) db' ((i, c) :: log) := by
  refine h.plain hzcard hop htick ?_ ?_ ?_
  · intro id hid
    rwa [hquiet.taskMeta] at hid
  · rintro id ⟨hpend, hcomes⟩
    rw [hquiet.taskMeta] at hcomes ⊢
    refine .inr ⟨⟨hpend.of_update (fun hq => .inl ?_) (hhandles id), ?_⟩, rfl⟩
    · unfold Db.Queued at hq ⊢
      rwa [hquiet.queue] at hq
    · exact comesToRemoval_mono (hquiet.marker id) hcomes
  · intro id hid
    rcases hid.of_update with hdec | ⟨j, hj⟩
    · exact hdecides id (decides_mono (hquiet.marker id) hdec)
    · exact h.decided id ⟨j, decides_mono (hquiet.marker id) hj⟩

/-- A tick writes the operation of a task. -/
theorem fresh_op {p : IdListSyncProducer} {o : TaskOp} (h : Fresh parties φ db log)
    (hphase : φ i = .tick p) (ho : o = .remove → p.SeesAbsent id) :
    Fresh parties (Function.update φ i (.enqueuing p id)) ((Write.hsetMeta id (.op o)).apply db)
      ((i, .write (.hsetMeta id (.op o))) :: log) := by
  obtain ⟨hparty, hmem⟩ := h.tick i p (by rw [hphase]; rfl)
  have hnot : ∀ j, (j, Cmd.zcard) ∉ log →
      (j, Cmd.zcard) ∉ (i, Cmd.write (.hsetMeta id (.op o))) :: log := by
    intro j hj
    simpa using hj
  have hother : ∀ j, j ≠ id → ((Write.hsetMeta id (.op o)).apply db).taskMeta j = db.taskMeta j := by
    intro j hj
    simp [Write.apply, hj]
  have hself : ((Write.hsetMeta id (.op o)).apply db).taskMeta id = (db.taskMeta id).set (.op o) := by
    simp [Write.apply]
  have hwriter : ∀ j, j ≠ id → opWriter j ((i, Cmd.write (.hsetMeta id (.op o))) :: log) =
      opWriter j log := by
    intro j hj
    simp [opWriter, Ne.symm hj]
  refine ⟨?_, ?_, ?_, ?_⟩
  · intro j q hj
    by_cases hji : j = i
    · subst hji
      rw [Function.update_self] at hj
      obtain rfl : p = q := Option.some.inj hj
      exact ⟨hparty, hnot j hmem⟩
    · rw [Function.update_of_ne hji] at hj
      exact (h.tick j q hj).imp_right (hnot j)
  · intro j hj
    by_cases hji : j = id
    · subst hji
      refine ⟨i, by simp [opWriter], ?_⟩
      rw [hself] at hj
      rw [hparty]
      exact ho (Option.some.inj hj)
    · rw [hother j hji] at hj
      rw [hwriter j hji]
      exact h.writer j hj
  · rintro j ⟨hpend, hcomes⟩
    by_cases hji : j = id
    · subst hji
      -- The operation is the tick's own, and it has not completed.
      rw [hself] at hcomes
      have hremove : o = .remove := by
        rcases comesToRemoval_iff.mp hcomes with hop | ⟨hempty, _⟩
        · exact Option.some.inj hop
        · have hop := congrArg TaskMetaHash.op hempty
          simp [TaskMetaHash.set] at hop
      refine .inr ⟨?_, i, by simp [opWriter], hnot i hmem⟩
      rw [hself, hremove]
      rfl
    · rw [hother j hji] at hcomes ⊢
      have hbefore : RemovalPending φ db j := by
        refine ⟨hpend.of_update (fun hq => .inl hq) fun hph => ?_, hcomes⟩
        simp only [TaskPhase.handles, decide_eq_true_eq] at hph
        exact absurd hph.symm hji
      rcases h.pending j hbefore with hseen | ⟨hremove, k, hk, hkmem⟩
      · exact .inl hseen
      · exact .inr ⟨hremove, k, (hwriter j hji).trans hk, hnot k hkmem⟩
  · intro j hj
    rcases hj.of_update with hdec | ⟨k, hk⟩
    · simp [TaskPhase.decides] at hdec
    · exact h.decided j ⟨k, hk⟩

/-- A tick completes: its lists have no removal pending or decided, and the
lists it does not see are last seen absent now. -/
theorem fresh_zcard {p : IdListSyncProducer} (h : Fresh parties φ db log) (hphase : φ i = .tick p)
    (htimely : ∀ id ∈ p.listed, ¬ RemovalPending φ db id ∧ ¬ RemovalDecided φ db id) :
    Fresh parties (Function.update φ i .finished) db ((i, .zcard) :: log) := by
  obtain ⟨hparty, hmem⟩ := h.tick i p (by rw [hphase]; rfl)
  have hpendings : ∀ id, RemovalPending (Function.update φ i .finished) db id →
      RemovalPending φ db id :=
    fun id ⟨hpend, hcomes⟩ => ⟨hpend.of_update .inl (by simp [TaskPhase.handles]), hcomes⟩
  have hdecideds : ∀ id, RemovalDecided (Function.update φ i .finished) db id →
      RemovalDecided φ db id := by
    intro id hid
    rcases hid.of_update with hdec | hj
    · simp [TaskPhase.decides] at hdec
    · exact hj
  -- Without a complete manifest of its company nothing changes for a list.
  have hsaw : ∀ id, RemovalPending φ db id ∨ RemovalDecided φ db id →
      LastSawAbsent parties ((i, .zcard) :: log) id ∨ p.snapshot id.skh = none ∧
        (LastSawAbsent parties log id → LastSawAbsent parties ((i, .zcard) :: log) id) := by
    intro id hid
    cases hsnapshot : p.snapshot id.skh with
    | none =>
      refine .inr ⟨rfl, ?_⟩
      unfold LastSawAbsent
      simp [lastSnapshot, hparty, TaskParty.snapshot, hsnapshot]
    | some lists =>
      left
      refine ⟨lists, by simp [lastSnapshot, hparty, TaskParty.snapshot, hsnapshot], ?_⟩
      by_contra hlookup
      obtain ⟨hnp, hnd⟩ := htimely id (p.mem_listed hsnapshot hlookup)
      exact hid.elim hnp hnd
  refine ⟨?_, h.writer, ?_, ?_⟩
  · intro j q hj
    by_cases hji : j = i
    · subst hji
      rw [Function.update_self] at hj
      simp [TaskPhase.ofTick] at hj
    · rw [Function.update_of_ne hji] at hj
      obtain ⟨hp, hm⟩ := h.tick j q hj
      exact ⟨hp, by simp [hji, hm]⟩
  · intro id hid
    rcases hsaw id (.inl (hpendings id hid)) with hseen | ⟨hnone, hkeep⟩
    · exact .inl hseen
    · rcases h.pending id (hpendings id hid) with hseen | ⟨hremove, j, hj, hjmem⟩
      · exact .inl (hkeep hseen)
      · -- The tick that wrote the removal has the manifest this one lacks.
        have hji : j ≠ i := by
          rintro rfl
          obtain ⟨k, hk, lists, hlists, _⟩ := h.writer id hremove
          obtain rfl : k = j := Option.some.inj (hk.symm.trans hj)
          rw [hparty] at hlists
          simp [TaskParty.snapshot, hnone] at hlists
        exact .inr ⟨hremove, j, hj, by simp [hji, hjmem]⟩
  · intro id hid
    rcases hsaw id (.inr (hdecideds id hid)) with hseen | ⟨_, hkeep⟩
    · exact hseen
    · exact hkeep (h.decided id (hdecideds id hid))

/-- Metadata and marker of one list change, as far as its task may come to a
removal; nothing else does. -/
theorem Fresh.ofOne (id : ListId) (h : Fresh parties φ db log) (hzcard : c ≠ .zcard)
    (hop : ∀ j o, c ≠ .write (.hsetMeta j (.op o)))
    (htick : ∀ p, ph.ofTick = some p → (φ i).ofTick = some p)
    (hhandles : ∀ j, ph.handles j = true → (φ i).handles j = true)
    (hdecides : ∀ j, ph.decides j (db'.state j) = true → LastSawAbsent parties log j)
    (hqueue : db'.queue = db.queue) (hmeta : ∀ j, j ≠ id → db'.taskMeta j = db.taskMeta j)
    (hstate : ∀ j, j ≠ id → db'.state j = db.state j)
    (hremove : (db'.taskMeta id).op = some .remove → (db.taskMeta id).op = some .remove)
    (hcomes : Pending φ db id → comesToRemoval (db'.taskMeta id) (db'.state id) = true →
      LastSawAbsent parties log id ∨ (comesToRemoval (db.taskMeta id) (db.state id) = true ∧
        (db'.taskMeta id).op = (db.taskMeta id).op))
    (hmarker : ∀ k, (φ k).decides id (db'.state id) = true → LastSawAbsent parties log id) :
    Fresh parties (Function.update φ i ph) db' ((i, c) :: log) := by
  refine h.plain hzcard hop htick ?_ ?_ ?_
  · intro j hj
    by_cases hji : j = id
    · subst hji
      exact hremove hj
    · rwa [hmeta j hji] at hj
  · rintro j ⟨hpend, hdue⟩
    have hbefore : Pending φ db j := by
      refine hpend.of_update (fun hq => .inl ?_) fun hph => .inr ⟨i, hhandles j hph⟩
      unfold Db.Queued at hq ⊢
      rwa [hqueue] at hq
    by_cases hji : j = id
    · subst hji
      exact (hcomes hbefore hdue).imp_right fun hd => ⟨⟨hbefore, hd.1⟩, hd.2⟩
    · rw [hmeta j hji] at hdue ⊢
      rw [hstate j hji] at hdue
      exact .inr ⟨⟨hbefore, hdue⟩, rfl⟩
  · intro j hj
    rcases hj.of_update with hdec | ⟨k, hk⟩
    · exact hdecides j hdec
    · by_cases hji : j = id
      · subst hji
        exact hmarker k hk
      · rw [hstate j hji] at hk
        exact h.decided j ⟨k, hk⟩

/-- The metadata of a list is deleted, by its removal or because it expires:
what is pending of it comes to a removal if it has the marker. -/
theorem fresh_delMeta (h : Fresh parties φ db log) (hph : ph = φ i)
    (hmarked : Pending φ db id → (db.state id).removalFanoutComplete = true →
      LastSawAbsent parties log id) :
    Fresh parties (Function.update φ i ph) ((Write.delMeta id).apply db)
      ((i, .write (.delMeta id)) :: log) := by
  subst hph
  refine h.ofOne id (by simp) (by simp) (fun _ hp => hp) (fun _ hj => hj) ?_ rfl ?_
    (fun _ _ => rfl) ?_ ?_ ?_
  · exact fun j hj => h.decided j ⟨i, hj⟩
  · intro j hj
    simp [Write.apply, hj]
  · simp [Write.apply]
  · intro hpend hcomes
    rcases comesToRemoval_iff.mp hcomes with hop | ⟨_, hmarker⟩
    · simp [Write.apply] at hop
    · exact .inl (hmarked hpend hmarker)
  · exact fun k hk => h.decided id ⟨k, hk⟩

/-- Another field of a task that is being enqueued. -/
theorem fresh_field {p : IdListSyncProducer} {field : TaskMetaField} (h : Fresh parties φ db log)
    (hphase : φ i = .enqueuing p id) (hfield : field.isOp = false) :
    Fresh parties (Function.update φ i (.enqueuing p id)) ((Write.hsetMeta id field).apply db)
      ((i, .write (.hsetMeta id field)) :: log) := by
  have hself : ((Write.hsetMeta id field).apply db).taskMeta id = (db.taskMeta id).set field := by
    simp [Write.apply]
  have hopsame : ((db.taskMeta id).set field).op = (db.taskMeta id).op := by
    cases field with
    | op o => simp [TaskMetaField.isOp] at hfield
    | _ => rfl
  have hop : ∀ j o, Cmd.write (.hsetMeta id field) ≠ .write (.hsetMeta j (.op o)) := by
    intro j o heq
    simp only [Cmd.write.injEq, Write.hsetMeta.injEq] at heq
    rw [heq.2] at hfield
    simp [TaskMetaField.isOp] at hfield
  refine h.ofOne id (by simp) hop ?_ ?_ ?_ rfl ?_ (fun _ _ => rfl) ?_ ?_ ?_
  · intro q hq
    rwa [hphase]
  · intro j hj
    rwa [hphase]
  · intro j hj
    simp [TaskPhase.decides] at hj
  · intro j hj
    simp [Write.apply, hj]
  · rw [hself, hopsame]
    exact fun hr => hr
  · intro _ hcomes
    rw [hself] at hcomes ⊢
    rcases comesToRemoval_iff.mp hcomes with hremove | ⟨hempty, _⟩
    · rw [hopsame] at hremove
      exact .inr ⟨comesToRemoval_iff.mpr (.inl hremove), hopsame⟩
    · cases field <;> simp [TaskMetaHash.set] at hempty
  · exact fun k hk => h.decided id ⟨k, hk⟩

/-- A removal sets the fan-out marker. -/
theorem fresh_marker (h : Fresh parties φ db log) (hphase : φ i = .removing id) :
    Fresh parties (Function.update φ i (.removing id))
      ((Write.hsetState id [.removalFanoutComplete]).apply db)
      ((i, .write (.hsetState id [.removalFanoutComplete])) :: log) := by
  have hseen : LastSawAbsent parties log id := by
    refine h.decided id ⟨i, ?_⟩
    rw [hphase]
    simp [TaskPhase.decides]
  refine h.ofOne id (by simp) (by simp) ?_ ?_ ?_ rfl (fun _ _ => rfl) ?_ (fun hr => hr)
    (fun _ _ => .inl hseen) fun _ _ => hseen
  · simp [TaskPhase.ofTick]
  · simp [TaskPhase.handles]
  · intro j hj
    simp only [TaskPhase.decides, decide_eq_true_eq] at hj
    exact hj ▸ hseen
  · intro j hj
    simp [Write.apply, hj]

/-- A task that was written is queued. -/
theorem fresh_zaddNx {p : IdListSyncProducer} {score : Nat} (h : Fresh parties φ db log)
    (hphase : φ i = .enqueuing p id) :
    Fresh parties (Function.update φ i (.tick p))
      { db with queue := zaddNxQueue db.queue score id } ((i, .zaddNx score id) :: log) := by
  refine h.plain (by simp) (by simp) ?_ (fun _ hr => hr) ?_ ?_
  · intro q hq
    rwa [hphase]
  · rintro j ⟨hpend, hcomes⟩
    refine .inr ⟨⟨hpend.of_update (fun hq => ?_) (by simp [TaskPhase.handles]), hcomes⟩, rfl⟩
    unfold Db.Queued zaddNxQueue at hq
    simp only at hq
    split at hq
    · exact .inl hq
    · simp only [List.map_append, List.mem_append, List.map_cons, List.map_nil,
        List.mem_singleton] at hq
      rcases hq with hq | rfl
      · exact .inl hq
      · refine .inr ⟨i, ?_⟩
        rw [hphase]
        simp [TaskPhase.handles]
  · intro j hj
    rcases hj.of_update with hdec | ⟨k, hk⟩
    · simp [TaskPhase.decides] at hdec
    · exact h.decided j ⟨k, hk⟩

/-- A worker pops a list, or finds the queue empty. -/
theorem fresh_zpopmin {popped : Option ListId} {rest : List (Nat × ListId)}
    (h : Fresh parties φ db log) (hpop : PopsMin db.queue popped rest) :
    Fresh parties (Function.update φ i (taskWatch.next .idle .zpopmin popped))
      { db with queue := rest } ((i, .zpopmin) :: log) := by
  have hphase : (taskWatch.next .idle .zpopmin popped).ofTick = none ∧
      (∀ j, (taskWatch.next .idle .zpopmin popped).handles j = true → db.Queued j) ∧
        ∀ j state, (taskWatch.next .idle .zpopmin popped).decides j state = false := by
    cases popped with
    | none => exact ⟨rfl, fun j hj => absurd hj (by simp [taskWatch, TaskPhase.handles]), fun _ _ => rfl⟩
    | some id =>
      refine ⟨rfl, fun j hj => ?_, fun _ _ => rfl⟩
      obtain ⟨score, hmem, _⟩ := hpop
      have hid : id = j := by simpa [taskWatch, TaskPhase.handles] using hj
      exact hid ▸ List.mem_map_of_mem hmem
  have hqueue : ∀ j, ({ db with queue := rest } : Db).Queued j → db.Queued j := by
    intro j hj
    cases popped with
    | none =>
      obtain ⟨_, rfl⟩ := hpop
      simp [Db.Queued] at hj
    | some id =>
      obtain ⟨score, _, _, rfl⟩ := hpop
      exact (List.erase_sublist.map _).mem hj
  refine h.plain (by simp) (by simp) (by simp [hphase.1]) (fun _ hr => hr) ?_ ?_
  · rintro j ⟨hpend, hcomes⟩
    refine .inr ⟨⟨hpend.of_update (fun hq => .inl (hqueue j hq)) fun hph => .inl ?_, hcomes⟩, rfl⟩
    exact hphase.2.1 j hph
  · intro j hj
    rcases hj.of_update with hdec | ⟨k, hk⟩
    · rw [hphase.2.2] at hdec
      simp at hdec
    · exact h.decided j ⟨k, hk⟩

/-- A quiet command that leaves the sender with no more than it was about. -/
theorem Fresh.same (h : Fresh parties φ db log) (hquiet : Quiet db db') (hzcard : c ≠ .zcard)
    (hop : ∀ j o, c ≠ .write (.hsetMeta j (.op o)))
    (htick : ∀ p, ph.ofTick = some p → (φ i).ofTick = some p)
    (hhandles : ∀ id, ph.handles id = true → (φ i).handles id = true)
    (hdecides : ∀ id state, ph.decides id state = true → (φ i).decides id state = true) :
    Fresh parties (Function.update φ i ph) db' ((i, c) :: log) :=
  h.quiet hquiet hzcard hop htick (fun id hid => .inr ⟨i, hhandles id hid⟩)
    fun id hid => h.decided id ⟨i, hdecides id _ hid⟩

theorem ofTask_ne {target : Option TaskMetadata} {tok : Option Nat} (hc : c.OfTask id target tok) :
    c ≠ .zcard ∧ ∀ j o, c ≠ .write (.hsetMeta j (.op o)) := by
  constructor
  · rintro rfl
    exact hc
  · rintro j o rfl
    exact hc

theorem Cmd.Surveys.next {p : IdListSyncProducer} (hc : c.Surveys) (r : c.Reply) :
    taskWatch.next (.tick p) c r = .tick p := by
  cases c with
  | write wr =>
    cases wr with
    | hsetMeta id field => exact hc.elim
    | _ => rfl
  | zcard => exact hc.elim
  | _ => rfl

/-- A worker reads the task of the list it has popped. -/
theorem fresh_hgetallMeta (h : Fresh parties φ db log) (hphase : φ i = .popped id)
    (htimely : (db.taskMeta id).op = some .remove → Unconfirmed log id →
      LastSawAbsent parties log id) :
    Fresh parties (Function.update φ i (.read id (db.taskMeta id))) db
      ((i, .hgetallMeta id) :: log) := by
  refine h.quiet (.refl db) (by simp) (by simp) (by simp [TaskPhase.ofTick])
    (by simp [TaskPhase.handles]) fun j hj => ?_
  simp only [TaskPhase.decides, Bool.and_eq_true, decide_eq_true_eq] at hj
  obtain ⟨rfl, hcomes⟩ := hj
  have hpending : RemovalPending φ db id := by
    refine ⟨.inr ⟨i, ?_⟩, hcomes⟩
    rw [hphase]
    simp [TaskPhase.handles]
  rcases h.pending id hpending with hseen | ⟨hremove, hunconfirmed⟩
  · exact hseen
  · exact htimely hremove hunconfirmed

/-- A worker reads the state, and with that its plan is settled. -/
theorem fresh_hgetState {metaFields : TaskMetaHash} (h : Fresh parties φ db log)
    (hphase : φ i = .read id metaFields) :
    Fresh parties (Function.update φ i
      (if comesToRemoval metaFields (db.state id) then .removing id else .holding id)) db
      ((i, .hgetState id) :: log) := by
  cases hcomes : comesToRemoval metaFields (db.state id) with
  | false =>
    refine h.same (.refl db) (by simp) (by simp) ?_ ?_ ?_ <;>
      simp [TaskPhase.ofTick, TaskPhase.handles, TaskPhase.decides]
  | true =>
    refine h.quiet (.refl db) (by simp) (by simp) (by simp [TaskPhase.ofTick])
      (by simp [TaskPhase.handles]) fun j hj => h.decided j ⟨i, ?_⟩
    simp only [if_true, TaskPhase.decides, decide_eq_true_eq] at hj
    subst hj
    rw [hphase]
    simp [TaskPhase.decides, hcomes]

/-- A command of a removal, up to the deletion of the state and with it. -/
theorem fresh_removing {r : c.Reply} (h : Fresh parties φ db log) (hphase : φ i = .removing id)
    (hallows : taskWatch.allows (.removing id) c) (hstep : (redis origin).step db c r db') :
    Fresh parties (Function.update φ i (taskWatch.next (.removing id) c r)) db' ((i, c) :: log) := by
  have hseen : LastSawAbsent parties log id := by
    refine h.decided id ⟨i, ?_⟩
    rw [hphase]
    simp [TaskPhase.decides]
  -- Once the state is deleted the worker has no removal to come.
  have hsame : ∀ {c : Cmd} {ph : TaskPhase}, ph = .removing id ∨ ph = .holding id → Quiet db db' →
      c ≠ .zcard → (∀ j o, c ≠ .write (.hsetMeta j (.op o))) →
        Fresh parties (Function.update φ i ph) db' ((i, c) :: log) := by
    intro c ph hph hquiet hzcard hop
    rcases hph with rfl | rfl
    · exact h.same hquiet hzcard hop (fun q hq => hphase ▸ hq) (fun j hj => hphase ▸ hj)
        fun j state hj => hphase ▸ hj
    · refine h.same hquiet hzcard hop ?_ ?_ ?_ <;>
        simp [TaskPhase.ofTick, TaskPhase.handles, TaskPhase.decides]
  rcases hallows with ⟨tok, hc⟩ | rfl | rfl | hc
  · exact hsame (.inl (next_removing (.inl ⟨tok, hc⟩) r)) (quiet_ofTask hc hstep) (ofTask_ne hc).1
      (ofTask_ne hc).2
  · obtain rfl : db' = (Write.hsetState id [.removalFanoutComplete]).apply db := hstep
    exact fresh_marker h hphase
  · obtain rfl : db' = (Write.delMeta id).apply db := hstep
    exact fresh_delMeta h hphase.symm fun _ _ => hseen
  · have hne : c ≠ .zcard ∧ ∀ j o, c ≠ .write (.hsetMeta j (.op o)) := by
      constructor
      · rintro rfl
        exact hc
      · rintro j o rfl
        exact hc
    refine hsame ?_ (quiet_removes hc hstep) hne.1 hne.2
    by_cases hlast : c = .write (.delState id)
    · subst hlast
      exact .inr rfl
    · exact .inl (next_removing (.inr (.inr (.inr ⟨hc, hlast⟩))) r)

theorem fresh_step {r : c.Reply} (h : Fresh parties φ db log) (hallows : taskWatch.allows (φ i) c)
    (htimely : Timely parties φ db log i c) (hstep : (redis origin).step db c r db') :
    Fresh parties (Function.update φ i (taskWatch.next (φ i) c r)) db' ((i, c) :: log) := by
  cases hphase : φ i with
  | tick p =>
    rw [hphase] at hallows
    rcases hallows with hsurveys | rfl | ⟨id, o, rfl, ho⟩
    · rw [hsurveys.next]
      refine h.same (quiet_surveys hsurveys hstep) ?_ ?_ (fun q hq => hphase ▸ hq)
        (fun j hj => hphase ▸ hj) fun j state hj => hphase ▸ hj
      · rintro rfl
        exact hsurveys
      · rintro id o rfl
        exact hsurveys
    · obtain ⟨_, rfl⟩ := hstep
      have hlisted : (φ i).listed = p.listed := by
        rw [hphase]
        rfl
      have htimely : ∀ id ∈ (φ i).listed, ¬ RemovalPending φ db' id ∧ ¬ RemovalDecided φ db' id :=
        htimely
      rw [hlisted] at htimely
      exact fresh_zcard h hphase htimely
    · obtain rfl : db' = (Write.hsetMeta id (.op o)).apply db := hstep
      exact fresh_op h hphase ho
  | enqueuing p id =>
    rw [hphase] at hallows
    rcases hallows with ⟨field, rfl, hfield⟩ | rfl | ⟨score, rfl⟩
    · obtain rfl : db' = (Write.hsetMeta id field).apply db := hstep
      exact fresh_field h hphase hfield
    · obtain rfl : db' = db := hstep
      refine h.same (.refl db') (by simp) (by simp) (fun q hq => hphase ▸ hq)
        (fun j hj => hphase ▸ hj) fun j state hj => hphase ▸ hj
    · obtain ⟨_, rfl⟩ := hstep
      exact fresh_zaddNx h hphase
  | idle =>
    rw [hphase] at hallows
    obtain rfl : c = .zpopmin := hallows
    obtain ⟨rest, hpop, rfl⟩ := hstep
    exact fresh_zpopmin h hpop
  | popped id =>
    rw [hphase] at hallows
    rcases hallows with rfl | rfl
    · obtain rfl : db' = db := hstep
      cases r with
      | false =>
        refine h.same (.refl db') (by simp) (by simp) ?_ ?_ ?_ <;>
          simp [taskWatch, TaskPhase.ofTick, TaskPhase.handles, TaskPhase.decides]
      | true =>
        exact h.same (.refl db') (by simp) (by simp) (fun q hq => hphase ▸ hq)
          (fun j hj => hphase ▸ hj) fun j state hj => hphase ▸ hj
    · obtain ⟨rfl, rfl⟩ := hstep
      exact fresh_hgetallMeta h hphase htimely
  | read id metaFields =>
    rw [hphase] at hallows
    obtain rfl : c = .hgetState id := hallows
    obtain ⟨rfl, rfl⟩ := hstep
    exact fresh_hgetState h hphase
  | removing id =>
    rw [hphase] at hallows
    exact fresh_removing h hphase hallows hstep
  | holding id =>
    rw [hphase] at hallows
    have hquiet : Quiet db db' ∧ c ≠ .zcard ∧ ∀ j o, c ≠ .write (.hsetMeta j (.op o)) := by
      rcases hallows with rfl | ⟨target, tok, hc⟩
      · obtain ⟨_, rfl⟩ := hstep
        exact ⟨.of_same rfl rfl rfl, by simp, by simp⟩
      · exact ⟨quiet_ofTask hc hstep, ofTask_ne hc⟩
    exact h.same hquiet.1 hquiet.2.1 hquiet.2.2 (fun q hq => hphase ▸ hq)
      (fun j hj => hphase ▸ hj) fun j state hj => hphase ▸ hj
  | expiring =>
    rw [hphase] at hallows
    obtain ⟨id, rfl⟩ := hallows
    obtain rfl : db' = (Write.delMeta id).apply db := hstep
    refine fresh_delMeta h hphase.symm (htimely ?_)
    rw [hphase]
    rfl
  | finished =>
    rw [hphase] at hallows
    exact hallows.elim

/-- A party that stops is about nothing any more. -/
theorem fresh_stop (h : Fresh parties φ db log) (i : ι) :
    Fresh parties (Function.update φ i .finished) db log := by
  refine ⟨?_, h.writer, ?_, ?_⟩
  · intro j q hj
    by_cases hji : j = i
    · subst hji
      rw [Function.update_self] at hj
      simp [TaskPhase.ofTick] at hj
    · rw [Function.update_of_ne hji] at hj
      exact h.tick j q hj
  · rintro id ⟨hpend, hcomes⟩
    exact h.pending id ⟨hpend.of_update .inl (by simp [TaskPhase.handles]), hcomes⟩
  · intro id hid
    rcases hid.of_update with hdec | hj
    · simp [TaskPhase.decides] at hdec
    · exact h.decided id hj

theorem Cmd.Removes.cases (hc : c.Removes id) : (∃ tok, c = .write (.hdelDict id tok)) ∨
    c = .write (.sremAll id) ∨ c = .write (.delState id) := by
  unfold Cmd.Removes at hc
  split at hc
  · exact .inl ⟨_, by rw [hc]⟩
  · exact .inr (.inl (by rw [hc]))
  · exact .inr (.inr (by rw [hc]))
  · exact hc.elim

/-- The final pipeline of a removal is sent in a removal only. -/
theorem removing_of_allows {ph : TaskPhase} (hallows : taskWatch.allows ph c)
    (hc : c.Removes id) : ph = .removing id := by
  have htask : ∀ i target tok, ¬ c.OfTask i target tok := by
    intro i target tok h
    rcases hc.cases with ⟨_, rfl⟩ | rfl | rfl <;> exact h
  cases ph with
  | tick p =>
    rcases hallows with h | rfl | ⟨j, o, rfl, _⟩
    · rcases hc.cases with ⟨_, rfl⟩ | rfl | rfl <;> exact h.elim
    · exact hc.elim
    · exact hc.elim
  | enqueuing p j => rcases hallows with ⟨field, rfl, _⟩ | rfl | ⟨score, rfl⟩ <;> exact hc.elim
  | idle =>
    obtain rfl : c = .zpopmin := hallows
    exact hc.elim
  | popped j => rcases hallows with rfl | rfl <;> exact hc.elim
  | read j metaFields =>
    obtain rfl : c = .hgetState j := hallows
    exact hc.elim
  | removing j =>
    rcases hallows with ⟨tok, h⟩ | rfl | rfl | h
    · exact absurd h (htask _ _ _)
    · exact hc.elim
    · exact hc.elim
    · rcases hc.cases with ⟨_, rfl⟩ | rfl | rfl
      all_goals
        have h : id = j := h
        rw [h]
  | holding j =>
    rcases hallows with rfl | ⟨target, tok, h⟩
    · exact hc.elim
    · exact absurd h (htask _ _ _)
  | expiring =>
    obtain ⟨j, rfl⟩ := hallows
    exact hc.elim
  | finished => exact hallows.elim

/-- **No stale removal**: in a timely run a worker that is at the removal of
a list, from its decision to the deletion of the list's state, removes a
list that the last completed tick with a complete manifest of its company
saw absent; and nobody else sends the final pipeline of a removal. -/
theorem no_stale_removal {origin : String → List UInt8} {parties : ι → TaskParty}
    {run : TaskRun parties}
    (hrun : Relation.ReflTransGen (TaskRun.Step origin (Timely parties)) (TaskRun.start parties)
      run) :
    (∀ i id, run.phase i = .removing id → LastSawAbsent parties run.log id) ∧
      ∀ run' i c id, TaskRun.Step origin (Timely parties) run run' →
        run'.log = (i, c) :: run.log → c.Removes id → LastSawAbsent parties run.log id := by
  obtain ⟨hfollow, hfresh⟩ := Effect.Watched.invariant (I := Fresh parties)
    (fun i => (parties i).prog_watched) fresh_start
    (fun φ s log i c r s' h hallows htimely hstep => fresh_step h hallows htimely hstep)
    (fun φ s log i h => fresh_stop h i) hrun
  have hremoving : ∀ i id, run.phase i = .removing id → LastSawAbsent parties run.log id := by
    intro i id hi
    refine hfresh.decided id ⟨i, ?_⟩
    rw [hi]
    simp [TaskPhase.decides]
  refine ⟨hremoving, ?_⟩
  intro run' i c id hstep hlog hc
  exact hremoving i id (removing_of_allows (hstep.allowed hfollow hlog) hc)

/-! ## A tick that has work for a list

`Timely` asks that a tick leaves no removal pending of the lists it has
seen. It does not, on its own, where it has work for the list: its task
takes the place of the one that was queued. -/

/-- One task is enqueued: its operation is written, and of no other list
anything. -/
structure Enqueued (id : ListId) (o : TaskOp) (db db' : Db) : Prop where
  taskMeta : ∀ j, j ≠ id → db'.taskMeta j = db.taskMeta j
  op : (db'.taskMeta id).op = some o

theorem Enqueued.hsetMeta {o : TaskOp} (h : Enqueued id o db db') {field : TaskMetaField}
    (hfield : field.isOp = false) : Enqueued id o db ((Write.hsetMeta id field).apply db') := by
  constructor
  · intro j hj
    simp only [Write.apply, Db.setTaskMeta_taskMeta, Function.update_of_ne hj]
    exact h.taskMeta j hj
  · simp only [Write.apply, Db.setTaskMeta_taskMeta, Function.update_self]
    cases field with
    | op o' => simp [TaskMetaField.isOp] at hfield
    | _ => exact h.op

namespace IdListSyncProducer

theorem wp_enqueueTask (added : Nat) (item : Nat × DerivedTask) :
    Wp (redis origin) (enqueueTask added item)
      (fun _ t => Enqueued item.2.id item.2.action.op db t) (fun _ => True) db := by
  obtain ⟨rest, hwrites, hrest⟩ := enqueueWrites_cons item.2
  unfold enqueueTask
  rw [hwrites]
  refine Wp.seq (P := fun _ t => Enqueued item.2.id item.2.action.op db t) ?_ ?_
  · refine Wp.cmdBind trivial fun _ t hstep => ?_
    have hfirst : Enqueued item.2.id item.2.action.op db t := by
      obtain rfl : t = (Write.hsetMeta item.2.id (.op item.2.action.op)).apply db := hstep
      constructor
      · intro j hj
        simp [Write.apply, Function.update_of_ne hj]
      · simp [Write.apply, TaskMetaHash.set]
    refine Wp.forEach (I := fun _ t => Enqueued item.2.id item.2.action.op db t)
      (fun _ _ _ => trivial) rest [] t ?_ hfirst fun _ h => h
    intro _ wr hwr t ht
    refine Wp.cmd trivial fun _ t' hstep => ⟨trivial, ?_⟩
    obtain rfl : t' = wr.apply t := hstep
    rcases hrest wr hwr with ⟨field, rfl, hfield⟩ | rfl
    · exact ht.hsetMeta hfield
    · exact ht
  · intro _ t ht
    refine Wp.cmdBind trivial fun n t' hstep => ?_
    obtain ⟨_, rfl⟩ := hstep
    exact .pure trivial ⟨ht.taskMeta, ht.op⟩

/-- Every list with a task has the operation of one of its tasks in the
end. -/
theorem wp_enqueueTasks (tasks : List (Nat × DerivedTask)) :
    Wp (redis origin) (enqueueTasks tasks)
      (fun _ t => ∀ item ∈ tasks, ∃ item' ∈ tasks, item'.2.id = item.2.id ∧
        (t.taskMeta item.2.id).op = some item'.2.action.op) (fun _ => True) db := by
  rw [enqueueTasks_eq]
  -- `done` is a prefix of the tasks; its last write for a list stands.
  have hwp : Wp (redis origin) (Prog.fold enqueueTask 0 tasks) (fun _ t => ∀ item ∈ tasks,
      ∃ item' ∈ tasks, item'.2.id = item.2.id ∧
        (t.taskMeta item.2.id).op = some item'.2.action.op) (fun _ => True) db := by
    refine Wp.fold (I := fun done _ t => ∀ item ∈ done, ∃ item' ∈ tasks,
      item'.2.id = item.2.id ∧ (t.taskMeta item.2.id).op = some item'.2.action.op)
      (fun _ _ _ _ => trivial) tasks [] 0 db ?_ (by simp) ?_
    · intro done added item hitem t hdone
      refine (wp_enqueueTask added item).mono ?_ fun _ _ => trivial
      intro _ t' ht' item' hitem'
      by_cases hid : item'.2.id = item.2.id
      · exact ⟨item, hitem, hid.symm, hid ▸ ht'.op⟩
      · have hmem : item' ∈ done := by
          rcases List.mem_append.mp hitem' with h | h
          · exact h
          · exact absurd (congrArg (·.2.id) (List.mem_singleton.mp h)) hid
        rw [ht'.taskMeta _ hid]
        exact hdone item' hmem
    · intro _ t h
      exact h
  exact hwp

variable (p : IdListSyncProducer)

/-- **A tick takes back the removals it has work against**: a list in a
complete manifest that the planner has work for has a load task when the
tick completes. -/
theorem superseded_of_work {stats : ProducerTickStats} {lists : IdListManifest}
    {md : IdListMetadata} (he : Exec (redis origin) p.produceLocked db db' (.ok stats))
    (hsnapshot : p.snapshot id.skh = some lists) (hlookup : lists.lookup id.list = some md)
    (hplan : p.plans db id md ≠ none) :
    comesToRemoval (db'.taskMeta id) (db'.state id) = false := by
  have hwp : Wp (redis origin) p.produceLocked
      (fun _ t => (t.taskMeta id).op = some .load) (fun _ => True) db := by
    unfold produceLocked
    cases hcompanies : p.namespaces.companyManifests with
    | error e => exact .throw trivial
    | ok result =>
      obtain ⟨companies, unavailable⟩ := result
      refine Wp.seq ((p.wp_survey companies).mono (fun _ _ h => h) fun _ _ => trivial) ?_
      rintro derived t ⟨_, hderived⟩
      obtain ⟨company, hmem, hlists⟩ := p.mem_of_snapshot hcompanies hsnapshot
      obtain ⟨task, htask, htaskid⟩ := hderived.work id.skh company hmem id.list md
        (hlists ▸ mem_of_lookup hlookup) hplan
      obtain ⟨item, hitem, hitemid⟩ := exists_mem_ordered htask
      refine Wp.seq (wp_enqueueTasks _) fun _ t' ht' => Wp.cmdBind trivial fun _ t'' hstep => ?_
      obtain ⟨_, rfl⟩ := hstep
      refine .pure trivial ?_
      obtain ⟨item', hitem', hid', hop⟩ := ht' item hitem
      have hid : item.2.id = id := hitemid.trans htaskid
      rw [hid] at hid' hop
      rw [hop]
      -- Were the task that stands a removal, the list would be absent.
      cases hload : item'.2.action.op with
      | load => rfl
      | remove =>
        obtain ⟨company', hmem', hcomplete, habsent, _⟩ :=
          hderived.removal _ (mem_ordered hitem') (SyncAction.eq_remove hload)
        have hsnapshot' := p.snapshot_of_mem hcompanies hmem' hcomplete
        rw [hid', hsnapshot] at hsnapshot'
        rw [hid', ← Option.some.inj hsnapshot', hlookup] at habsent
        simp at habsent
  have hload := hwp.ok he
  rw [← Bool.not_eq_true, comesToRemoval_iff]
  rintro (hremove | ⟨hempty, _⟩)
  · simp [hload] at hremove
  · simp [hempty] at hload

end IdListSyncProducer

/-! The list is loaded, and its removal is popped before the tick that found
it absent has completed. The worker reads it afterwards, and stops. The list
comes back grown, so the tick has work for it; and it leaves again. -/

instance (parties : ι → TaskParty) (log : List (ι × Cmd)) (id : ListId) :
    Decidable (LastSawAbsent parties log id) :=
  match h : lastSnapshot parties id.skh log with
  | none => isFalse (by simp [LastSawAbsent, h])
  | some lists => decidable_of_iff (lists.lookup id.list = none) (by simp [LastSawAbsent, h])

instance (log : List (ι × Cmd)) (id : ListId) : Decidable (Unconfirmed log id) :=
  match h : opWriter id log with
  | none => isFalse (by simp [Unconfirmed, h])
  | some i => decidable_of_iff ((i, Cmd.zcard) ∉ log) (by simp [Unconfirmed, h])

instance [Fintype ι] (φ : ι → TaskPhase) (db : Db) (id : ListId) : Decidable (Pending φ db id) :=
  inferInstanceAs (Decidable (id ∈ db.queue.map Prod.snd ∨ ∃ i, (φ i).handles id = true))

instance [Fintype ι] (φ : ι → TaskPhase) (db : Db) (id : ListId) :
    Decidable (RemovalPending φ db id) :=
  inferInstanceAs (Decidable (_ ∧ _ = true))

instance [Fintype ι] (φ : ι → TaskPhase) (db : Db) (id : ListId) :
    Decidable (RemovalDecided φ db id) :=
  inferInstanceAs (Decidable (∃ i, (φ i).decides id (db.state id) = true))

instance [Fintype ι] (parties : ι → TaskParty) (φ : ι → TaskPhase) (db : Db)
    (log : List (ι × Cmd)) (i : ι) (c : Cmd) : Decidable (Timely parties φ db log i c) := by
  cases c with
  | zcard => exact inferInstanceAs (Decidable (∀ id ∈ (φ i).listed, _ ∧ _))
  | hgetallMeta id => exact inferInstanceAs (Decidable (_ = _ → _ → LastSawAbsent parties log id))
  | write wr =>
    cases wr with
    | delMeta id =>
      exact inferInstanceAs (Decidable (_ = true → Pending φ db id → _ = true → _))
    | _ => exact isTrue trivial
  | _ => exact isTrue trivial

def staleParties : Fin 8 → TaskParty
  | 0 => .producer (smallProducer manifestF)
  | 2 => .producer (smallProducer [])
  | 4 => .expiry smallList
  | 5 => .producer (smallProducer grownF)
  | 6 => .producer (smallProducer [])
  | _ => .worker (smallWorker true)

def timelyMoves : List (Move (Fin 8)) :=
  [Move.turns 0 10, Move.turns 1 30, Move.turns 2 4, Move.turns 3 2, Move.turns 2 1,
    Move.turns 3 3, [.stop 3], Move.turns 4 1, Move.turns 5 11, Move.turns 6 5,
    Move.turns 7 4].flatten

def timelyScript : List Answer :=
  [.order [], .popped (some smallList), .body ⟨[[43, 97, 10]], none⟩, .pages [["a"]], .order ["l"],
    .popped (some smallList), .order ["l"], .order ["l"], .popped (some smallList)]

def timelyRun : TaskRun staleParties :=
  (scripted smallOrigin).watched taskWatch .finished (Timely staleParties) (.redis "connection lost")
    timelyMoves (TaskRun.start staleParties) timelyScript

def TaskPhase.removes : TaskPhase → Option ListId
  | .removing id => some id
  | _ => none

theorem removing_of_removes {ph : TaskPhase} (h : ph.removes = some id) : ph = .removing id := by
  cases ph with
  | removing j => rw [Option.some.inj h]
  | _ => simp [TaskPhase.removes] at h

theorem no_stale_removal_absent : LastSawAbsent staleParties timelyRun.log smallList := by
  have hremoves : (timelyRun.phase 7).removes = some smallList := by decide +kernel
  have hreached : Relation.ReflTransGen (TaskRun.Step smallOrigin (Timely staleParties))
      (TaskRun.start staleParties) timelyRun := (scripted smallOrigin).watched_reached
  exact (no_stale_removal hreached).1 7 smallList (removing_of_removes hremoves)

/-! The list comes back unchanged while its removal is queued. -/

def relistedParties : Fin 5 → TaskParty
  | 0 | 3 => .producer (smallProducer manifestF)
  | 2 => .producer (smallProducer [])
  | _ => .worker (smallWorker true)

def relistedRun : TaskRun relistedParties :=
  (scripted smallOrigin).watched taskWatch .finished (fun _ _ _ _ _ => True)
    (.redis "connection lost")
    [Move.turns 0 10, Move.turns 1 30, Move.turns 2 5, Move.turns 3 6, Move.turns 4 4].flatten
    (TaskRun.start relistedParties)
    [.order [], .popped (some smallList), .body ⟨[[43, 97, 10]], none⟩, .pages [["a"]], .order ["l"],
      .order ["l"], .popped (some smallList)]

/-- Without the condition a worker removes a list that the last tick saw in
the manifest. -/
theorem stale_removal_of_relisted : ¬ ∀ (origin : String → List UInt8)
    (parties : Fin 5 → TaskParty) (run : TaskRun parties),
    Relation.ReflTransGen (TaskRun.Step origin fun _ _ _ _ _ => True) (TaskRun.start parties) run →
    ∀ i id, run.phase i = .removing id → LastSawAbsent parties run.log id := by
  intro hclaim
  have hremoves : (relistedRun.phase 4).removes = some smallList := by decide +kernel
  have hreached : Relation.ReflTransGen (TaskRun.Step smallOrigin fun _ _ _ _ _ => True)
      (TaskRun.start relistedParties) relistedRun := (scripted smallOrigin).watched_reached
  have hlisted : ¬ LastSawAbsent relistedParties relistedRun.log smallList := by decide +kernel
  exact hlisted (hclaim smallOrigin relistedParties relistedRun hreached 4 smallList
    (removing_of_removes hremoves))

end ForwardProxy.IdList
