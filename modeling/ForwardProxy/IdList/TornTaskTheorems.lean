/-
ForwardProxy.IdList.TornTaskTheorems — task metadata that is read while it
is written.

The producer writes the fields of a load task one command at a time, and a
worker reads the hash whenever it pops the list. Between the URL of one
enqueue and its size the hash mixes two tasks. Here any number of ticks,
workers and expiries run side by side, one command at a time. `openBy` reads
off the log which tick is between its URL and its size; a run in which no
worker reads the hash there, and no other tick writes it there, gives
workers whole tasks only. A tick that stops there leaves its window open
until the next enqueue of the list is complete.
-/
import ForwardProxy.Effect.Interleave
import ForwardProxy.IdList.ReentryTheorems

namespace ForwardProxy.IdList

open Effect

/-! ## The parties -/

/-- Who writes and reads task metadata. An expiry removes the hash as DEL
does. -/
inductive TaskParty where
  | producer (p : IdListSyncProducer)
  | worker (w : IdListSyncWorker)
  | expiry (id : ListId)

def TaskParty.Result : TaskParty → Type
  | .producer _ => ProducerTickStats
  | .worker _ => IdListSyncWorker.WorkerRunOutcome
  | .expiry _ => Unit

def TaskParty.prog : (party : TaskParty) → Redis party.Result
  | .producer p => p.produceLocked
  | .worker w => w.runOnce
  | .expiry id => write (.delMeta id)

/-- What the parties leave, one command at a time. -/
abbrev TaskPool (parties : Nat → TaskParty) : Type :=
  Pool Cmd Cmd.Reply WorkerError Db Nat fun i => (parties i).Result

def TaskPool.start (parties : Nat → TaskParty) : TaskPool parties :=
  ⟨{}, fun i => (parties i).prog, []⟩

/-! ## Windows -/

/-- The tick that has written the URL of the list last, if it has not
written its size since. -/
def openBy (id : ListId) : List (Nat × Cmd) → Option Nat
  | [] => none
  | (i, .write (.hsetMeta j (.url _))) :: log => if j = id then some i else openBy id log
  | (i, .write (.hsetMeta j (.size _))) :: log =>
    if j = id ∧ openBy id log = some i then none else openBy id log
  | _ :: log => openBy id log

/-- The metadata of a list is read only while no enqueue of it is half
written, and the rest of a half-written enqueue is written only while it is
the last one begun. -/
def outsideWindows (log : List (Nat × Cmd)) (i : Nat) : Cmd → Bool
  | .hgetallMeta id => openBy id log = none
  | .write (.hsetMeta id (.fileId _)) | .write (.hsetMeta id (.creationTime _))
  | .write (.hsetMeta id (.size _)) => openBy id log = some i
  | _ => true

/-- The fields of a load task, in the pipeline's order. -/
def loadWrites (id : ListId) (md : IdListMetadata) : List Write :=
  [.hsetMeta id (.op .load), .hsetMeta id (.url md.url), .hsetMeta id (.fileId md.fileId),
    .hsetMeta id (.creationTime md.creationTime), .hsetMeta id (.size md.size)]

theorem enqueueWrites_load {task : DerivedTask} (h : task.action ≠ .remove) {md : IdListMetadata}
    (hmd : task.md = some md) :
    IdListSyncProducer.enqueueWrites task = loadWrites task.id md ++ [.expireMeta task.id] := by
  obtain ⟨id, action, entry⟩ := task
  obtain rfl : entry = some md := hmd
  cases action with
  | remove => exact absurd rfl h
  | fullLoad => rfl
  | delta lag => rfl

/-- One party has sent the fields of the task one after the other. -/
def EnqueuedOnce (log : List (Nat × Cmd)) (id : ListId) (md : IdListMetadata) : Prop :=
  ∃ i, (loadWrites id md).map Cmd.write <:+: sentBy i log

theorem EnqueuedOnce.cons {log : List (Nat × Cmd)} {id : ListId} {md : IdListMetadata}
    (h : EnqueuedOnce log id md) (i : Nat) (c : Cmd) : EnqueuedOnce ((i, c) :: log) id md := by
  obtain ⟨j, hj⟩ := h
  refine ⟨j, ?_⟩
  by_cases hij : i = j
  · subst hij
    rw [sentBy_self]
    exact hj.trans (List.prefix_append _ _).isInfix
  · rw [sentBy_of_ne hij]
    exact hj

/-! ## The protocol of an enqueue -/

/-- How far a party is with the fields of a load task. -/
inductive EnqueuePhase where
  | idle
  | op (id : ListId)
  | url (id : ListId) (u : String)
  | fileId (id : ListId) (u f : String)
  | creationTime (id : ListId) (u f : String) (c : Nat)

def Write.SetsMeta : Write → Prop
  | .hsetMeta _ _ => True
  | _ => False

def Cmd.SetsMeta : Cmd → Prop
  | .write w => w.SetsMeta
  | .multi ws => ∃ w ∈ ws, w.SetsMeta
  | _ => False

def enqueueProtocol : Protocol Cmd Cmd.Reply EnqueuePhase where
  allows
    | .idle, c => (∃ id o, c = .write (.hsetMeta id (.op o))) ∨ ¬ c.SetsMeta
    | .op id, c => (∃ u, c = .write (.hsetMeta id (.url u))) ∨ c = .write (.expireMeta id)
    | .url id _, c => ∃ f, c = .write (.hsetMeta id (.fileId f))
    | .fileId id _ _, c => ∃ n, c = .write (.hsetMeta id (.creationTime n))
    | .creationTime id _ _ _, c => ∃ n, c = .write (.hsetMeta id (.size n))
  next
    | .idle, .write (.hsetMeta id (.op .load)), _ => .op id
    | .op id, .write (.hsetMeta _ (.url u)), _ => .url id u
    | .url id u, .write (.hsetMeta _ (.fileId f)), _ => .fileId id u f
    | .fileId id u f, .write (.hsetMeta _ (.creationTime n)), _ => .creationTime id u f n
    | _, _, _ => .idle

theorem next_idle {c : Cmd} (hc : ¬ c.SetsMeta) (r : c.Reply) :
    enqueueProtocol.next .idle c r = .idle := by
  cases c with
  | write w =>
    cases w with
    | hsetMeta id field => exact absurd trivial hc
    | _ => rfl
  | _ => rfl

theorem follows_idle {β : Type} {p : Redis β} (h : p.Issues fun c => ¬ c.SetsMeta) :
    p.Follows enqueueProtocol (· = .idle) .idle := by
  refine .of_issues (Q := (· = .idle)) (fun c hc => ⟨?_, next_idle hc⟩) rfl h
  exact Or.inr hc

/-! ## Ticks follow it -/

theorem Cmd.Surveys.not_setsMeta {c : Cmd} (h : c.Surveys) : ¬ c.SetsMeta := by
  unfold Cmd.Surveys at h
  split at h <;> simp_all [Cmd.SetsMeta, Write.SetsMeta]

theorem enqueueTask_follows (added : Nat) (item : Nat × DerivedTask) :
    (IdListSyncProducer.enqueueTask added item).Follows enqueueProtocol (· = .idle) .idle := by
  have hlast : (zaddNx item.1 item.2.id >>= fun n => pure (added + n) : Redis Nat).Follows
      enqueueProtocol (· = .idle) .idle :=
    follows_idle (.bind (.cmd fun h => h) fun _ => .pure _)
  have hwrites : (Prog.forEach write (IdListSyncProducer.enqueueWrites item.2)).Follows
      enqueueProtocol (· = .idle) .idle := by
    obtain ⟨score, id, action, md⟩ := item
    have hremove : (Prog.forEach write [.hsetMeta id (.op .remove), .expireMeta id]).Follows
        enqueueProtocol (· = .idle) .idle :=
      ⟨.inl ⟨id, .remove, rfl⟩, fun _ => ⟨.inr fun h => h, fun _ => rfl⟩⟩
    -- A load task without an entry has its operation alone.
    have hbare : (Prog.forEach write [.hsetMeta id (.op .load), .expireMeta id]).Follows
        enqueueProtocol (· = .idle) .idle :=
      ⟨.inl ⟨id, .load, rfl⟩, fun _ => ⟨.inr rfl, fun _ => rfl⟩⟩
    have hload : ∀ entry : IdListMetadata, (Prog.forEach write
        (loadWrites id entry ++ [.expireMeta id])).Follows enqueueProtocol (· = .idle) .idle :=
      fun entry => ⟨.inl ⟨id, .load, rfl⟩, fun _ => ⟨.inl ⟨entry.url, rfl⟩, fun _ =>
        ⟨⟨entry.fileId, rfl⟩, fun _ => ⟨⟨entry.creationTime, rfl⟩, fun _ =>
          ⟨⟨entry.size, rfl⟩, fun _ => ⟨.inr fun h => h, fun _ => rfl⟩⟩⟩⟩⟩⟩
    cases action with
    | remove => exact hremove
    | fullLoad =>
      cases md with
      | none => exact hbare
      | some entry => exact hload entry
    | delta lag =>
      cases md with
      | none => exact hbare
      | some entry => exact hload entry
  refine .bind hwrites fun _ φ hφ => ?_
  rw [hφ]
  exact hlast

theorem produceLocked_follows (p : IdListSyncProducer) :
    p.produceLocked.Follows enqueueProtocol (· = .idle) .idle := by
  unfold IdListSyncProducer.produceLocked
  cases p.namespaces.companyManifests with
  | error e => exact .throw _
  | ok result =>
    obtain ⟨companies, unavailable⟩ := result
    have hsurvey : (Prog.fold p.produceCompany ([], 0) companies).Follows enqueueProtocol
        (· = .idle) .idle := by
      refine follows_idle (.fold (fun acc item => ?_) _ _)
      exact (p.produceCompany_issues acc item).mono fun _ h => h.not_setsMeta
    refine .bind hsurvey fun derived φ hφ => ?_
    subst hφ
    have henqueue : (IdListSyncProducer.enqueueTasks (orderAndDedupeTasks derived.1)).Follows
        enqueueProtocol (· = .idle) .idle := by
      rw [IdListSyncProducer.enqueueTasks_eq]
      refine .fold (fun added item φ hφ => ?_) _ _ rfl
      rw [hφ]
      exact enqueueTask_follows added item
    refine .bind henqueue fun _ φ hφ => ?_
    rw [hφ]
    exact follows_idle (.bind (.cmd fun h => h) fun _ => .pure _)

/-! ## Workers do not write task metadata -/

theorem not_setsMeta_of_ofTask {id : ListId} {target : Option TaskMetadata} {tok : Option Nat}
    {c : Cmd} (h : c.OfTask id target tok) : ¬ c.SetsMeta := by
  cases c with
  | write wr => cases wr <;> simp_all [Cmd.SetsMeta, Write.SetsMeta, Cmd.OfTask, Write.OfTask]
  | multi ws =>
    intro ⟨wr, hwr, hsets⟩
    have hof := h wr hwr
    cases wr <;> simp_all [Write.SetsMeta, Write.OfTask]
  | _ => exact fun h => h

theorem not_setsMeta_of_follows {id : ListId} {target : Option TaskMetadata} {tok : Option Nat}
    {β : Type} {p : Redis β} (h : p.Follows (taskProtocol id target) (fun _ => True) tok) :
    p.Issues fun c => ¬ c.SetsMeta := by
  refine h.issues.mono ?_
  intro c ⟨tok', hc⟩
  rcases hc with rfl | hc
  · exact fun h => h
  · exact not_setsMeta_of_ofTask hc

namespace IdListSyncWorker

variable (w : IdListSyncWorker) {id : ListId}

theorem removeCleanup_setsNoMeta {state : ListSyncState} {token : Option Nat} :
    (removeCleanup id state token).Issues fun c => ¬ c.SetsMeta :=
  .bind (.forEach (fun _ => .cmd fun h => h) _) fun _ => .bind (.cmd fun h => h) fun _ =>
    .bind (.cmd fun h => h) fun _ => .bind (.cmd fun h => h) fun _ =>
      .bind (.cmd fun h => h) fun _ => .cmd fun h => h

theorem applyRemove_setsNoMeta {state : ListSyncState} :
    (w.applyRemove id state).Issues fun c => ¬ c.SetsMeta := by
  refine .bind (.cmd fun h => h) fun h => .bind (.cmd fun h => h) fun token => ?_
  refine .ite (.throw _) (.bind (.when (.forEach (fun t => ?_) _)) fun _ => ?_)
  · have hfanout : (w.removeFanout id state t).Issues (Cmd.OfTask id none (some t)) :=
      w.removeFanout_issues
    exact hfanout.mono fun _ => not_setsMeta_of_ofTask
  · exact .bind (.when (.cmd fun h => h)) fun _ => removeCleanup_setsNoMeta

theorem runPlanned_setsNoMeta {state : ListSyncState} {action : WorkerAction} {md : TaskMetadata} :
    (w.runPlanned id state action md).Issues fun c => ¬ c.SetsMeta := by
  by_cases haction : action = .remove
  · subst haction
    have hmark : (w.markForwardOnly id).Issues (Cmd.OfTask id none none) := w.markForwardOnly_issues
    exact .bind (hmark.mono fun _ => not_setsMeta_of_ofTask) fun _ =>
      .bind w.applyRemove_setsNoMeta fun _ => .pure _
  · have hfollows : (w.runPlanned id state action md).Follows
        (taskProtocol id (action.commits md)) (fun _ => True) none := w.runPlanned_follows haction
    exact not_setsMeta_of_follows hfollows

theorem runClaimed_setsNoMeta : (w.runClaimed id).Issues fun c => ¬ c.SetsMeta := by
  refine .bind (.cmd fun h => h) fun metaFields => .bind (.cmd fun h => h) fun stateFields => ?_
  cases taskMetadata metaFields stateFields with
  | error e => exact .throw _
  | ok task =>
    cases task with
    | none => exact .pure _
    | some md =>
      simp only
      cases md.op with
      | remove => exact w.runPlanned_setsNoMeta
      | load =>
        have hplan : (w.planWork id (!stateFields.isEmpty)
            (ListSyncState.fromHashFields stateFields) md).Issues (Cmd.OfTask id none none) :=
          w.planWork_issues
        refine .bind (hplan.mono fun _ => not_setsMeta_of_ofTask) fun plan => ?_
        cases plan with
        | none => exact .pure _
        | some plan => exact w.runPlanned_setsNoMeta

theorem runOnce_setsNoMeta : w.runOnce.Issues fun c => ¬ c.SetsMeta := by
  refine .bind (.cmd fun h => h) fun popped => ?_
  cases popped with
  | none => exact .pure _
  | some id =>
    refine .bind (.cmd fun h => h) fun claimed => .ite ?_ (.pure _)
    exact .bind w.runClaimed_setsNoMeta fun _ => .bind (.cmd fun h => h) fun _ => .pure _

end IdListSyncWorker

theorem TaskParty.prog_follows (party : TaskParty) :
    party.prog.Follows enqueueProtocol (· = .idle) .idle := by
  cases party with
  | producer p => exact produceLocked_follows p
  | worker w => exact follows_idle w.runOnce_setsNoMeta
  | expiry id => exact follows_idle (.cmd fun h => h)

/-! ## Whole tasks outside windows -/

/-- The hash has the fields of one entry, or no URL. -/
def TaskMetaHash.HoldsEntry (h : TaskMetaHash) (md : IdListMetadata) : Prop :=
  h.url = some md.url ∧ h.fileId = some md.fileId ∧ h.creationTime = some md.creationTime ∧
    h.size = some md.size

/-- What the fields written so far say of the hash of `id`: they are in it,
unless the hash was deleted meanwhile. -/
def EnqueuePhase.Wrote (id : ListId) (h : TaskMetaHash) : EnqueuePhase → Prop
  | .idle | .op _ => False
  | .url j u => j = id ∧ (h.url = none ∨ h.url = some u)
  | .fileId j u f => j = id ∧ (h.url = none ∨ (h.url = some u ∧ h.fileId = some f))
  | .creationTime j u f c => j = id ∧
      (h.url = none ∨ (h.url = some u ∧ h.fileId = some f ∧ h.creationTime = some c))

/-- The writes of the enqueue a party is in. -/
def EnqueuePhase.sent : EnqueuePhase → List Write
  | .idle => []
  | .op id => [.hsetMeta id (.op .load)]
  | .url id u => [.hsetMeta id (.op .load), .hsetMeta id (.url u)]
  | .fileId id u f =>
    [.hsetMeta id (.op .load), .hsetMeta id (.url u), .hsetMeta id (.fileId f)]
  | .creationTime id u f c =>
    [.hsetMeta id (.op .load), .hsetMeta id (.url u), .hsetMeta id (.fileId f),
      .hsetMeta id (.creationTime c)]

/-- In a window the hash has the fields written so far; outside of windows
it has a whole entry, or no URL. -/
def EntrySound (φ : Nat → EnqueuePhase) (log : List (Nat × Cmd)) (id : ListId)
    (h : TaskMetaHash) : Prop :=
  match openBy id log with
  | some i => (φ i).Wrote id h
  | none => h.url = none ∨ ∃ md, EnqueuedOnce log id md ∧ h.HoldsEntry md

structure Untorn (φ : Nat → EnqueuePhase) (db : Db) (log : List (Nat × Cmd)) : Prop where
  sent : ∀ i, (φ i).sent.map Cmd.write <:+ sentBy i log
  entry : ∀ id, EntrySound φ log id (db.taskMeta id)

/-- The entry in the hash is as before, or without URL. -/
def SameEntry (h h' : TaskMetaHash) : Prop :=
  h'.url = none ∨ (h'.url = h.url ∧ h'.fileId = h.fileId ∧ h'.creationTime = h.creationTime ∧
    h'.size = h.size)

variable {φ : Nat → EnqueuePhase} {db db' : Db} {log : List (Nat × Cmd)} {i : Nat} {c : Cmd}
  {id : ListId} {h h' : TaskMetaHash}

theorem SameEntry.refl (h : TaskMetaHash) : SameEntry h h := .inr ⟨rfl, rfl, rfl, rfl⟩

theorem SameEntry.wrote {ph : EnqueuePhase} (hsame : SameEntry h h') (hw : ph.Wrote id h) :
    ph.Wrote id h' := by
  rcases hsame with hnone | ⟨hurl, hfile, htime, _⟩
  · cases ph with
    | idle => exact hw
    | op j => exact hw
    | url j u => exact ⟨hw.1, .inl hnone⟩
    | fileId j u f => exact ⟨hw.1, .inl hnone⟩
    | creationTime j u f n => exact ⟨hw.1, .inl hnone⟩
  · cases ph with
    | idle => exact hw
    | op j => exact hw
    | url j u => simpa [EnqueuePhase.Wrote, hurl] using hw
    | fileId j u f => simpa [EnqueuePhase.Wrote, hurl, hfile] using hw
    | creationTime j u f n => simpa [EnqueuePhase.Wrote, hurl, hfile, htime] using hw

/-- A command of a party that is not in the window of the list, and leaves
the entry as it is. -/
theorem EntrySound.keep (hs : EntrySound φ log id h) (hsame : SameEntry h h')
    (hopen : openBy id ((i, c) :: log) = openBy id log) (hne : openBy id log ≠ some i)
    (ph : EnqueuePhase) : EntrySound (Function.update φ i ph) ((i, c) :: log) id h' := by
  unfold EntrySound at hs ⊢
  rw [hopen]
  cases hlog : openBy id log with
  | some j =>
    rw [hlog] at hs hne
    have hj : j ≠ i := by
      intro hj
      exact hne (congrArg some hj)
    simp only [Function.update_of_ne hj]
    exact hsame.wrote hs
  | none =>
    rw [hlog] at hs
    rcases hsame with hnone | ⟨hurl, hfile, htime, hsize⟩
    · exact .inl hnone
    · simp only at hs ⊢
      rw [hurl]
      refine hs.imp_right ?_
      intro ⟨md, hmd, hholds⟩
      refine ⟨md, hmd.cons i c, ?_⟩
      unfold TaskMetaHash.HoldsEntry at hholds ⊢
      rw [hurl, hfile, htime, hsize]
      exact hholds

/-- A party in a window has written the list of that window. -/
theorem Untorn.wrote (hs : Untorn φ db log) (hopen : openBy id log = some i) :
    (φ i).Wrote id (db.taskMeta id) := by
  have hentry := hs.entry id
  unfold EntrySound at hentry
  rw [hopen] at hentry
  exact hentry

theorem Untorn.ne_of_idle (hs : Untorn φ db log) (hidle : ¬ (φ i).Wrote id (db.taskMeta id)) :
    openBy id log ≠ some i :=
  fun hopen => hidle (hs.wrote hopen)

/-! ## One command -/

/-- The commands that do not write the metadata leave it, or delete it. -/
theorem sameEntry_step {origin : String → List UInt8} (hc : ¬ c.SetsMeta) {r : c.Reply}
    (hstep : (redis origin).step db c r db') (id : ListId) :
    SameEntry (db.taskMeta id) (db'.taskMeta id) := by
  have hwrite : ∀ (wr : Write) (a : Db), ¬ wr.SetsMeta →
      (wr.apply a).taskMeta id = a.taskMeta id ∨ (wr.apply a).taskMeta id = {} := by
    intro wr a hwr
    cases wr with
    | hsetMeta j field => exact absurd trivial hwr
    | delMeta j =>
      by_cases hj : id = j
      · simp [Write.apply, hj]
      · simp [Write.apply, hj]
    | _ => exact .inl rfl
  have hsame : db'.taskMeta id = db.taskMeta id ∨ db'.taskMeta id = {} := by
    rcases redis_step_cases hstep with
      ⟨wr, rfl, rfl⟩ | ⟨ws, rfl, rfl⟩ | ⟨j, _, rfl⟩ | ⟨queue, _, rfl⟩ | rfl
    · exact hwrite wr db hc
    · have hws : ∀ wr ∈ ws, ¬ wr.SetsMeta := fun wr hwr hsets => hc ⟨wr, hwr, hsets⟩
      refine List.foldlRecOn
        (motive := fun a => a.taskMeta id = db.taskMeta id ∨ a.taskMeta id = {})
        ws Write.apply (.inl rfl) ?_
      intro a ha wr hwr
      rcases hwrite wr a (hws wr hwr) with hkept | hgone
      · rw [hkept]
        exact ha
      · exact .inr hgone
    · exact .inl rfl
    · exact .inl rfl
    · exact .inl rfl
  rcases hsame with hsame | hsame
  · rw [hsame]
    exact .refl _
  · rw [hsame]
    exact .inl rfl

theorem openBy_of_not_setsMeta (hc : ¬ c.SetsMeta) : openBy id ((i, c) :: log) = openBy id log := by
  cases c with
  | write wr =>
    cases wr with
    | hsetMeta j field => exact absurd trivial hc
    | _ => rfl
  | _ => rfl

theorem sent_next {ph : EnqueuePhase} {r : c.Reply} {sent : List Cmd}
    (hallows : enqueueProtocol.allows ph c) (hsent : ph.sent.map Cmd.write <:+ sent) :
    (enqueueProtocol.next ph c r).sent.map Cmd.write <:+ sent ++ [c] := by
  have hone : ∀ ph' : EnqueuePhase, ph'.sent.map Cmd.write = ph.sent.map Cmd.write ++ [c] →
      ph'.sent.map Cmd.write <:+ sent ++ [c] := by
    intro ph' hph'
    obtain ⟨before, rfl⟩ := hsent
    rw [hph']
    exact ⟨before, by simp⟩
  have hidle : EnqueuePhase.idle.sent.map Cmd.write <:+ sent ++ [c] := List.nil_suffix
  cases ph with
  | idle =>
    rcases hallows with ⟨id, o, rfl⟩ | hc
    · cases o with
      | load => exact hone (.op id) rfl
      | remove => exact hidle
    · rw [next_idle hc]
      exact hidle
  | op id =>
    rcases hallows with ⟨u, rfl⟩ | rfl
    · exact hone (.url id u) rfl
    · exact hidle
  | url id u =>
    obtain ⟨f, rfl⟩ := hallows
    exact hone (.fileId id u f) rfl
  | fileId id u f =>
    obtain ⟨n, rfl⟩ := hallows
    exact hone (.creationTime id u f n) rfl
  | creationTime id u f n =>
    obtain ⟨size, rfl⟩ := hallows
    exact hidle

/-- One more command of a party. -/
theorem Untorn.sent_cons (hs : Untorn φ db log) {ph : EnqueuePhase}
    (hsent : ph.sent.map Cmd.write <:+ sentBy i log ++ [c]) (j : Nat) :
    (Function.update φ i ph j).sent.map Cmd.write <:+ sentBy j ((i, c) :: log) := by
  by_cases hj : j = i
  · subst hj
    rw [Function.update_self, sentBy_self]
    exact hsent
  · rw [Function.update_of_ne hj, sentBy_of_ne (Ne.symm hj)]
    exact hs.sent j

/-- A party outside of the windows, with a command that sets no field. -/
theorem untorn_plain {origin : String → List UInt8} {r : c.Reply} {ph : EnqueuePhase}
    (hs : Untorn φ db log) (hstep : (redis origin).step db c r db') (hc : ¬ c.SetsMeta)
    (hidle : ∀ id, ¬ (φ i).Wrote id (db.taskMeta id))
    (hsent : ph.sent.map Cmd.write <:+ sentBy i log ++ [c]) :
    Untorn (Function.update φ i ph) db' ((i, c) :: log) := by
  refine ⟨hs.sent_cons hsent, fun id => ?_⟩
  exact (hs.entry id).keep (sameEntry_step hc hstep id) (openBy_of_not_setsMeta hc)
    (hs.ne_of_idle (hidle id)) ph

/-- The entry of the list a field is written of. -/
theorem untorn_write {ph : EnqueuePhase} {field : TaskMetaField} (hs : Untorn φ db log)
    (hsent : ph.sent.map Cmd.write <:+ sentBy i log ++ [.write (.hsetMeta id field)])
    (hown : EntrySound (Function.update φ i ph) ((i, .write (.hsetMeta id field)) :: log) id
      ((db.taskMeta id).set field))
    (hopen : ∀ j, j ≠ id → openBy j ((i, .write (.hsetMeta id field)) :: log) = openBy j log)
    (hother : ∀ j, j ≠ id → ¬ (φ i).Wrote j (db.taskMeta j)) :
    Untorn (Function.update φ i ph) ((Write.hsetMeta id field).apply db)
      ((i, .write (.hsetMeta id field)) :: log) := by
  refine ⟨hs.sent_cons hsent, fun j => ?_⟩
  by_cases hj : j = id
  · subst hj
    simpa [Write.apply] using hown
  · have hmeta : ((Write.hsetMeta id field).apply db).taskMeta j = db.taskMeta j := by
      simp [Write.apply, hj]
    rw [hmeta]
    exact (hs.entry j).keep (.refl _) (hopen j hj) (hs.ne_of_idle (hother j hj)) ph

theorem untorn_step {origin : String → List UInt8} {r : c.Reply} (hs : Untorn φ db log)
    (hallows : enqueueProtocol.allows (φ i) c) (hguard : outsideWindows log i c = true)
    (hstep : (redis origin).step db c r db') :
    Untorn (Function.update φ i (enqueueProtocol.next (φ i) c r)) db' ((i, c) :: log) := by
  have hsent := sent_next (r := r) hallows (hs.sent i)
  cases hphase : φ i with
  | idle =>
    rw [hphase] at hallows hsent
    have hidle : ∀ id, ¬ (φ i).Wrote id (db.taskMeta id) := by
      intro id
      rw [hphase]
      exact fun h => h
    rcases hallows with ⟨id, o, rfl⟩ | hc
    · obtain rfl : db' = (Write.hsetMeta id (.op o)).apply db := hstep
      refine untorn_write hs hsent ?_ (fun _ _ => rfl) fun j _ => hidle j
      exact (hs.entry id).keep (.inr ⟨rfl, rfl, rfl, rfl⟩) rfl (hs.ne_of_idle (hidle id)) _
    · exact untorn_plain hs hstep hc hidle hsent
  | op id =>
    rw [hphase] at hallows hsent
    have hidle : ∀ j, ¬ (φ i).Wrote j (db.taskMeta j) := by
      intro j
      rw [hphase]
      exact fun h => h
    rcases hallows with ⟨u, rfl⟩ | rfl
    · obtain rfl : db' = (Write.hsetMeta id (.url u)).apply db := hstep
      refine untorn_write hs hsent ?_ (fun j hj => ?_) fun j _ => hidle j
      · unfold EntrySound
        simp only [openBy, if_true, Function.update_self]
        exact ⟨rfl, .inr rfl⟩
      · simp [openBy, Ne.symm hj]
    · exact untorn_plain hs hstep (fun h => h) hidle hsent
  | url id u =>
    rw [hphase] at hallows hsent
    obtain ⟨f, rfl⟩ := hallows
    obtain rfl : db' = (Write.hsetMeta id (.fileId f)).apply db := hstep
    have hopen : openBy id log = some i := by simpa [outsideWindows] using hguard
    have hwrote := hs.wrote hopen
    rw [hphase] at hwrote
    refine untorn_write hs hsent ?_ (fun _ _ => rfl) fun j hj => ?_
    · unfold EntrySound
      simp only [openBy, hopen, Function.update_self]
      exact ⟨rfl, hwrote.2.imp_right fun h => ⟨h, rfl⟩⟩
    · rw [hphase]
      exact fun h => hj h.1.symm
  | fileId id u f =>
    rw [hphase] at hallows hsent
    obtain ⟨n, rfl⟩ := hallows
    obtain rfl : db' = (Write.hsetMeta id (.creationTime n)).apply db := hstep
    have hopen : openBy id log = some i := by simpa [outsideWindows] using hguard
    have hwrote := hs.wrote hopen
    rw [hphase] at hwrote
    refine untorn_write hs hsent ?_ (fun _ _ => rfl) fun j hj => ?_
    · unfold EntrySound
      simp only [openBy, hopen, Function.update_self]
      exact ⟨rfl, hwrote.2.imp_right fun h => ⟨h.1, h.2, rfl⟩⟩
    · rw [hphase]
      exact fun h => hj h.1.symm
  | creationTime id u f n =>
    rw [hphase] at hallows hsent
    obtain ⟨size, rfl⟩ := hallows
    obtain rfl : db' = (Write.hsetMeta id (.size size)).apply db := hstep
    have hopen : openBy id log = some i := by simpa [outsideWindows] using hguard
    have hwrote := hs.wrote hopen
    rw [hphase] at hwrote
    refine untorn_write hs hsent ?_ (fun j hj => ?_) fun j hj => ?_
    · -- The window closes, and the enqueue is complete.
      unfold EntrySound
      simp only [openBy, hopen, and_self, if_true]
      refine hwrote.2.imp_right fun h => ⟨⟨f, n, u, size⟩, ⟨i, ?_⟩, h.1, h.2.1, h.2.2, rfl⟩
      have hsent := hs.sent i
      rw [hphase] at hsent
      obtain ⟨before, hbefore⟩ := hsent
      rw [sentBy_self, ← hbefore]
      exact ⟨before, [], by simp [loadWrites, EnqueuePhase.sent]⟩
    · simp [openBy, Ne.symm hj]
    · rw [hphase]
      exact fun h => hj h.1.symm

theorem untorn_start : Untorn (fun _ => .idle) {} [] :=
  ⟨fun _ => List.nil_suffix, fun _ => .inl rfl⟩

/-- The fields a load task is read from. -/
theorem fields_of_fromHash {md : TaskMetadata} (hmd : TaskMetadata.fromHash h = .ok md)
    (hload : md.op = .load) : h.url = some md.url ∧ md.fileId = h.fileId.getD "" ∧
      h.creationTime = some md.creationTime ∧ h.size = some md.size := by
  unfold TaskMetadata.fromHash at hmd
  split at hmd
  · simp at hmd
  · simp only [Except.ok.injEq] at hmd
    subst hmd
    simp at hload
  split at hmd
  · simp at hmd
  rename_i time htime
  split at hmd
  · simp at hmd
  rename_i url hurl
  split at hmd
  · simp at hmd
  rename_i size hsize
  simp only [Except.ok.injEq] at hmd
  subst hmd
  obtain ⟨hurl, _⟩ := Option.filter_eq_some_iff.mp hurl
  exact ⟨hurl, rfl, htime, hsize⟩

/-- A Delta is of the committed file, and of the entry it was planned for. -/
theorem delta_of_planAction {w : IdListSyncWorker} {stateExists : Bool} {state : ListSyncState}
    {md target : TaskMetadata} {fwdExists : Bool}
    (hplan : w.planAction stateExists state md fwdExists = .ok (some (.delta, target))) :
    target.asIdListMetadata = md.asIdListMetadata ∧ md.fileId = state.fileId := by
  obtain ⟨_, _, hsync⟩ := planAction_delta hplan
  obtain ⟨_, htarget, hfile, _⟩ := plan_delta hsync
  exact ⟨htarget, hfile⟩

/-- **Task metadata is whole outside of windows**: in a run whose reads and
writes keep out of the windows, a worker that reads the metadata of a list
gets the fields of one enqueue; and a Delta planned from them downloads from
the URL that was enqueued with the committed file. -/
theorem task_untorn {origin : String → List UInt8} {parties : Nat → TaskParty}
    {pool pool' : TaskPool parties}
    (hrun : Relation.ReflTransGen (Pool.Step (redis origin) outsideWindows)
      (TaskPool.start parties) pool)
    (hread : Pool.Step (redis origin) outsideWindows pool pool')
    (hlog : pool'.log = (i, .hgetallMeta id) :: pool.log) {md : TaskMetadata}
    (hmd : TaskMetadata.fromHash (pool.state.taskMeta id) = .ok md) (hload : md.op = .load) :
    EnqueuedOnce pool.log id md.asIdListMetadata ∧
      ∀ (w : IdListSyncWorker) (stateExists fwdExists : Bool) (state : ListSyncState)
        (target : TaskMetadata),
        w.planAction stateExists state md fwdExists = .ok (some (.delta, target)) →
        ∃ entry, EnqueuedOnce pool.log id entry ∧ target.url = entry.url ∧
          entry.fileId = state.fileId := by
  obtain ⟨φ, _, hs⟩ := Pool.invariant (I := Untorn)
    (fun i => (parties i).prog_follows) untorn_start
    (fun φ s log i c r s' hs hallows hguard hstep => untorn_step hs hallows hguard hstep) hrun
  have hopen : openBy id pool.log = none := by
    cases hread with
    | turn j hthread hguard hstep =>
      obtain ⟨heq, _⟩ := List.cons.inj hlog
      obtain ⟨rfl, rfl⟩ := Prod.mk.inj heq
      simpa [outsideWindows] using hguard
  have hentry := hs.entry id
  unfold EntrySound at hentry
  rw [hopen] at hentry
  have honce : EnqueuedOnce pool.log id md.asIdListMetadata := by
    obtain ⟨hurl, hfile, htime, hsize⟩ := fields_of_fromHash hmd hload
    rcases hentry with hnone | ⟨entry, honce, hurl', hfile', htime', hsize'⟩
    · simp [hnone] at hurl
    · rw [hurl', Option.some.injEq] at hurl
      rw [htime', Option.some.injEq] at htime
      rw [hsize', Option.some.injEq] at hsize
      rw [hfile', Option.getD_some] at hfile
      unfold TaskMetadata.asIdListMetadata
      rw [hfile, ← hurl, ← htime, ← hsize]
      exact honce
  refine ⟨honce, ?_⟩
  intro w stateExists fwdExists state target hplan
  obtain ⟨htarget, hfile⟩ := delta_of_planAction hplan
  exact ⟨_, honce, congrArg IdListMetadata.url htarget, hfile⟩

/-! Two ticks and two workers: the file F is loaded, a tick finds it grown,
and the next one finds another file. -/

def grownF : IdListManifest := [("l", ⟨"F", 1, "u", 6⟩)]

def manifestG : IdListManifest := [("l", ⟨"G", 2, "v", 3⟩)]

def tornParties : Nat → TaskParty
  | 0 => .producer (smallProducer manifestF)
  | 2 => .producer (smallProducer grownF)
  | 3 => .producer (smallProducer manifestG)
  | _ => .worker (smallWorker true)

/-- The turns of the first tick, of the worker that loads the list, and of
the tick that finds the file grown. -/
def grownTurns : List Nat := List.replicate 10 0 ++ List.replicate 30 1 ++ List.replicate 11 2

def grownScript : List Answer :=
  [.order [], .popped (some smallList), .body ⟨[[43, 97, 10]], none⟩, .pages [["a"]], .order ["l"]]

/-- The pool after the turns of a schedule. -/
def poolAfter (guard : List (Nat × Cmd) → Nat → Cmd → Bool) (schedule : List Nat)
    (script : List Answer) : TaskPool tornParties :=
  (((scripted smallOrigin).turns guard schedule (TaskPool.start tornParties) script).map
    Prod.fst).getD (TaskPool.start tornParties)

theorem poolAfter_reached {guard : List (Nat × Cmd) → Nat → Cmd → Bool} {schedule : List Nat}
    {script : List Answer} :
    Relation.ReflTransGen (Pool.Step (redis smallOrigin) guard) (TaskPool.start tornParties)
      (poolAfter guard schedule script) := by
  unfold poolAfter
  cases hturns : (scripted smallOrigin).turns guard schedule (TaskPool.start tornParties) script with
  | none => exact .refl
  | some result => exact (scripted smallOrigin).turns_sound hturns

/-- The second worker has popped the list and is about to read its task. -/
def wholePool : TaskPool tornParties :=
  poolAfter outsideWindows (grownTurns ++ List.replicate 2 4) (grownScript ++ [.popped smallList])

/-- As before, but the tick that finds the other file has come as far as
its URL. -/
def tornPool : TaskPool tornParties :=
  poolAfter (fun _ _ _ => true) (grownTurns ++ List.replicate 5 3 ++ List.replicate 2 4)
    (grownScript ++ [.order ["l"], .popped smallList])

/-- What a party is about to send. -/
def nextCmd (pool : TaskPool tornParties) (i : Nat) : Option Cmd :=
  match pool.threads i with
  | .call c _ => some c
  | _ => none

theorem read_of_nextCmd (guard : List (Nat × Cmd) → Nat → Cmd → Bool)
    (pool : TaskPool tornParties) (i : Nat) (id : ListId)
    (hnext : nextCmd pool i = some (.hgetallMeta id))
    (hguard : guard pool.log i (.hgetallMeta id) = true) :
    ∃ pool', Pool.Step (redis smallOrigin) guard pool pool' ∧
      pool'.log = (i, .hgetallMeta id) :: pool.log := by
  unfold nextCmd at hnext
  split at hnext
  · rename_i c k hthread
    obtain rfl := Option.some.inj hnext
    exact ⟨_, .turn i hthread hguard ⟨rfl, rfl⟩, rfl⟩
  · simp at hnext

theorem task_untorn_grown : EnqueuedOnce wholePool.log smallList ⟨"F", 1, "u", 6⟩ := by
  obtain ⟨_, hread, hlog⟩ := read_of_nextCmd outsideWindows wholePool 4 smallList
    (by decide +kernel) (by decide +kernel)
  have hmd : TaskMetadata.fromHash (wholePool.state.taskMeta smallList) =
      .ok ⟨.load, "F", 1, "u", 6⟩ := by decide +kernel
  exact (task_untorn poolAfter_reached hread hlog hmd rfl).1

/-- Without the condition a worker plans a Delta of one file from the URL of
another. -/
theorem torn_task : ¬ ∀ (origin : String → List UInt8) (parties : Nat → TaskParty)
    (pool pool' : TaskPool parties) (i : Nat) (id : ListId) (md : TaskMetadata),
    Relation.ReflTransGen (Pool.Step (redis origin) fun _ _ _ => true)
      (TaskPool.start parties) pool →
    Pool.Step (redis origin) (fun _ _ _ => true) pool pool' →
    pool'.log = (i, .hgetallMeta id) :: pool.log →
    TaskMetadata.fromHash (pool.state.taskMeta id) = .ok md → md.op = .load →
    EnqueuedOnce pool.log id md.asIdListMetadata := by
  intro hclaim
  obtain ⟨_, hread, hlog⟩ := read_of_nextCmd (fun _ _ _ => true) tornPool 4 smallList
    (by decide +kernel) rfl
  have hmd : TaskMetadata.fromHash (tornPool.state.taskMeta smallList) =
      .ok ⟨.load, "F", 1, "v", 6⟩ := by decide +kernel
  obtain ⟨i, honce⟩ := hclaim smallOrigin tornParties tornPool _ 4 smallList _ poolAfter_reached
    hread hlog hmd rfl
  have hnone : ∀ i ∈ tornPool.log.map Prod.fst,
      ¬ (loadWrites smallList ⟨"F", 1, "v", 6⟩).map Cmd.write <:+: sentBy i tornPool.log := by
    decide +kernel
  by_cases hi : i ∈ tornPool.log.map Prod.fst
  · exact hnone i hi honce
  · rw [sentBy_eq_nil hi] at honce
    simp [loadWrites] at honce

end ForwardProxy.IdList
