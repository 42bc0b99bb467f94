/-
ForwardProxy.IdList.ProducerTheorems — one producer tick.

A tick first surveys the companies and derives tasks, and then enqueues
them. The survey writes readiness markers only; the enqueue writes task
metadata and the queue. Nothing of a list's data is written at all
(`Ticked`). `Derived` says which tasks the survey comes to: removals only
for lists that are registered and absent from a complete manifest, and a
task for every listed list the planner has work for.
-/
import ForwardProxy.Effect.Protocol
import ForwardProxy.IdList.ManifestTheorems
import ForwardProxy.IdList.Script
import ForwardProxy.IdList.TaskTheorems

namespace ForwardProxy.IdList

open Effect

variable {origin : String → List UInt8} {db₀ db db' : Db}

/-! ## What a tick writes -/

/-- The commands of the survey. -/
def Cmd.Surveys : Cmd → Prop
  | .write (.setReady _ _) | .write (.delReady _) | .write (.hdelDictDisabled _) => True
  | .hgetState _ | .existsFwd _ _ | .smembersAll _ => True
  | _ => False

/-- The commands of a tick. -/
def Cmd.OfTick : Cmd → Prop
  | .write (.setReady _ _) | .write (.delReady _) | .write (.hdelDictDisabled _) => True
  | .write (.hsetMeta _ _) | .write (.expireMeta _) => True
  | .hgetState _ | .existsFwd _ _ | .smembersAll _ => True
  | .zaddNx _ _ | .zcard => True
  | _ => False

theorem Cmd.Surveys.ofTick {c : Cmd} (h : c.Surveys) : c.OfTick := by
  unfold Cmd.Surveys at h
  split at h <;> first | exact h.elim | trivial

/-- The lists have the data they had: a tick writes task metadata, the
queue, readiness markers and the index-mode marker of a dictionary. -/
structure Ticked (db₀ db : Db) : Prop where
  state : db.state = db₀.state
  fwd : db.fwd = db₀.fwd
  member : db.member = db₀.member
  all : db.all = db₀.all
  token : ∀ skh, (db.dict skh).token = (db₀.dict skh).token
  name : ∀ skh, (db.dict skh).name = (db₀.dict skh).name
  counter : ∀ skh, (db.dict skh).counter = (db₀.dict skh).counter

/-- A write beside the lists' data. -/
theorem Ticked.of_same (hstate : db.state = db₀.state) (hfwd : db.fwd = db₀.fwd)
    (hmember : db.member = db₀.member) (hall : db.all = db₀.all) (hdict : db.dict = db₀.dict) :
    Ticked db₀ db :=
  ⟨hstate, hfwd, hmember, hall, fun _ => by rw [hdict], fun _ => by rw [hdict],
    fun _ => by rw [hdict]⟩

theorem Ticked.refl (db : Db) : Ticked db db := .of_same rfl rfl rfl rfl rfl

theorem Ticked.trans {db₁ : Db} (h : Ticked db₀ db₁) (h' : Ticked db₁ db) : Ticked db₀ db where
  state := h'.state.trans h.state
  fwd := h'.fwd.trans h.fwd
  member := h'.member.trans h.member
  all := h'.all.trans h.all
  token skh := (h'.token skh).trans (h.token skh)
  name skh := (h'.name skh).trans (h.name skh)
  counter skh := (h'.counter skh).trans (h.counter skh)

theorem Ticked.view (h : Ticked db₀ db) (id : ListId) : db.view id = db₀.view id := by
  have htok : db.tokenOf id = db₀.tokenOf id := by
    unfold Db.tokenOf
    rw [h.token, h.counter]
  unfold Db.view Db.tagged
  rw [h.state, h.fwd, h.member, htok]

theorem Ticked.ok (h : Ticked db₀ db) (hok : db₀.Ok) : db.Ok := by
  intro skh
  have hdict := hok skh
  refine ⟨?_, ?_, ?_, ?_⟩
  · rw [h.token, h.name]
    exact hdict.name_of_token
  · rw [h.token, h.name]
    exact hdict.token_of_name
  · rw [h.token, h.counter]
    exact hdict.token_le
  · rw [h.member, h.counter]
    exact hdict.member_le

/-- The index-mode marker is the only field of a dictionary a tick writes. -/
theorem ticked_setDisabled (db : Db) (skh : String) (b : Bool) :
    Ticked db (db.setDict skh { db.dict skh with reverseIndexDisabled := b }) := by
  have hfield : ∀ {β : Type} (g : Dict → β), g { db.dict skh with reverseIndexDisabled := b } =
      g (db.dict skh) → ∀ s, g ((db.setDict skh { db.dict skh with reverseIndexDisabled := b }).dict
        s) = g (db.dict s) := by
    intro β g hg s
    rw [Db.setDict_dict, Function.update_apply]
    split
    · rename_i hs
      rw [hs]
      exact hg
    · rfl
  exact ⟨rfl, rfl, rfl, rfl, hfield Dict.token rfl, hfield Dict.name rfl, hfield Dict.counter rfl⟩

theorem ticked_step {c : Cmd} (hc : c.OfTick) (db : Db) (r : c.Reply) (db' : Db)
    (h : Ticked db₀ db) (hstep : (redis origin).step db c r db') : Ticked db₀ db' := by
  refine h.trans ?_
  unfold Cmd.OfTick at hc
  split at hc
  · exact hstep ▸ .of_same rfl rfl rfl rfl rfl
  · exact hstep ▸ .of_same rfl rfl rfl rfl rfl
  · exact hstep ▸ ticked_setDisabled db _ false
  · exact hstep ▸ .of_same rfl rfl rfl rfl rfl
  · exact hstep ▸ .refl db
  · exact hstep.2 ▸ .refl db
  · exact hstep.2 ▸ .refl db
  · exact hstep.2 ▸ .refl db
  · exact hstep.2 ▸ .of_same rfl rfl rfl rfl rfl
  · exact hstep.2 ▸ .refl db
  · exact hc.elim

/-- After the survey the task metadata and the queue are as before, too. -/
structure Surveyed (db₀ db : Db) : Prop extends Ticked db₀ db where
  taskMeta : db.taskMeta = db₀.taskMeta
  queue : db.queue = db₀.queue

theorem Surveyed.refl (db : Db) : Surveyed db db := ⟨Ticked.refl db, rfl, rfl⟩

theorem surveyed_step {c : Cmd} (hc : c.Surveys) (db : Db) (r : c.Reply) (db' : Db)
    (h : Surveyed db₀ db) (hstep : (redis origin).step db c r db') : Surveyed db₀ db' := by
  have hticked := ticked_step hc.ofTick db r db' h.toTicked hstep
  have hsame : db'.taskMeta = db.taskMeta ∧ db'.queue = db.queue := by
    unfold Cmd.Surveys at hc
    split at hc
    · exact hstep ▸ ⟨rfl, rfl⟩
    · exact hstep ▸ ⟨rfl, rfl⟩
    · exact hstep ▸ ⟨rfl, rfl⟩
    · exact hstep.2 ▸ ⟨rfl, rfl⟩
    · exact hstep.2 ▸ ⟨rfl, rfl⟩
    · exact hstep.2 ▸ ⟨rfl, rfl⟩
    · exact hc.elim
  exact ⟨hticked, hsame.1.trans h.taskMeta, hsame.2.trans h.queue⟩

theorem surveyed_keeps {α : Type} {p : Redis α} (hp : p.Issues Cmd.Surveys) :
    Keeps (redis origin) (Surveyed db₀) p :=
  hp.keeps fun _ hc => surveyed_step hc

namespace IdListSyncProducer

variable (p : IdListSyncProducer)

theorem planList_issues (skh : String) (item : String × IdListMetadata) :
    (p.planList skh item).Issues Cmd.Surveys := by
  refine .bind (.cmd trivial) fun h => .bind (.ite (.cmd trivial) (.pure _)) fun fwdExists => ?_
  cases planSyncWithReverseIndex (parseState h) item.2 fwdExists p.enableReverseIndex with
  | none => exact .pure _
  | some plan => exact .pure _

theorem markReady_issues (skh : String) (company : CompanyManifest) (pending : Bool) :
    (p.markReady skh company pending).Issues Cmd.Surveys :=
  .ite (.cmd trivial) (.bind (.when (.cmd trivial)) fun _ => .cmd trivial)

theorem produceCompany_issues (acc : List DerivedTask × Nat) (item : String × CompanyManifest) :
    (p.produceCompany acc item).Issues Cmd.Surveys :=
  .bind (.fold (fun _ list => .bind (p.planList_issues _ list) fun _ => .pure _) _ _) fun _ =>
    .bind (.cmd trivial) fun _ => .bind (.when (p.markReady_issues _ _ _)) fun _ => .pure _

/-! ## The tasks a tick derives -/

/-- What the planner has for an entry of the manifest, in the contents
`db`. -/
def plans (db : Db) (id : ListId) (md : IdListMetadata) : Option (SyncAction × IdListMetadata) :=
  planSyncWithReverseIndex (parseState (db.state id)) md (db.forwardExists id)
    p.enableReverseIndex

/-- The task of one entry of a manifest. -/
def planned (db : Db) (skh : String) (item : String × IdListMetadata) : List DerivedTask :=
  (p.plans db ⟨skh, item.1⟩ item.2).toList.map fun plan => ⟨⟨skh, item.1⟩, plan.1, some plan.2⟩

theorem plans_ticked (h : Ticked db₀ db) (id : ListId) (md : IdListMetadata) :
    p.plans db id md = p.plans db₀ id md := by
  unfold plans Db.forwardExists Db.version
  rw [h.state, h.fwd]

theorem wp_planList (skh : String) (item : String × IdListMetadata) :
    Wp (redis origin) (p.planList skh item) (fun r t => t = db ∧ r.2 = p.planned db skh item)
      (fun t => t = db) db := by
  refine Wp.cmdBind rfl fun h t hstep => ?_
  obtain ⟨rfl, rfl⟩ := hstep
  refine IdListSyncWorker.wp_forwardExists ?_
  have hplanned : p.planned t skh item = (planSyncWithReverseIndex
      (parseState (t.state ⟨skh, item.1⟩)) item.2 (t.forwardExists ⟨skh, item.1⟩)
      p.enableReverseIndex).toList.map fun plan => ⟨⟨skh, item.1⟩, plan.1, some plan.2⟩ := rfl
  rw [hplanned]
  cases planSyncWithReverseIndex (parseState (t.state ⟨skh, item.1⟩)) item.2
    (t.forwardExists ⟨skh, item.1⟩) p.enableReverseIndex with
  | none => exact .pure rfl ⟨rfl, rfl⟩
  | some plan => exact .pure rfl ⟨rfl, rfl⟩

/-- One company: its planned tasks, and its removals. -/
theorem wp_produceCompany (acc : List DerivedTask × Nat) (item : String × CompanyManifest) :
    Wp (redis origin) (p.produceCompany acc item)
      (fun acc' t => Surveyed db t ∧ ∃ known : List String, known.toFinset = db.all item.1 ∧
        acc'.1 = acc.1 ++ item.2.lists.flatMap (p.planned db item.1) ++ removals item.1 item.2 known)
      (Surveyed db) db := by
  have hexit : ∀ t, t = db → Surveyed db t := by
    intro t ht
    rw [ht]
    exact Surveyed.refl db
  refine Wp.seq (P := fun found t => t = db ∧
    found.2 = item.2.lists.flatMap (p.planned db item.1)) ?_ ?_
  · refine Wp.fold (I := fun done found t => t = db ∧ found.2 = done.flatMap (p.planned db item.1))
      (fun _ _ t ht => hexit t ht.1) item.2.lists [] (false, []) db ?_ ⟨rfl, rfl⟩
      (fun _ _ h => h)
    intro done found list _ t ⟨ht, hfound⟩
    subst ht
    refine Wp.seq ((p.wp_planList item.1 list).mono (fun _ _ h => h) hexit) ?_
    intro r t' ⟨ht', hr⟩
    obtain ⟨pending, tasks⟩ := r
    refine .pure (hexit t' ht') ⟨ht', ?_⟩
    have hr : tasks = p.planned t item.1 list := hr
    simp [hfound, hr]
  · intro found t ⟨ht, hfound⟩
    subst ht
    refine Wp.cmdBind (Surveyed.refl t) fun known t' hstep => ?_
    obtain ⟨⟨_, hknown⟩, rfl⟩ := hstep
    have hready : (Prog.when (!item.2.incomplete && (found.2 ++ removals item.1 item.2 known).isEmpty)
        (p.markReady item.1 item.2 found.1)).Issues Cmd.Surveys := .when (p.markReady_issues _ _ _)
    refine Wp.seq (surveyed_keeps hready t' (Surveyed.refl t')) ?_
    intro _ t'' ht''
    refine .pure ht'' ⟨ht'', known, hknown, ?_⟩
    rw [hfound]

/-- What is known of the tasks derived from the companies `done`: a removal
is of a registered list that a complete manifest does not have, and there
is a task for every entry the planner has work for. -/
structure Derived (db : Db) (done : List (String × CompanyManifest)) (tasks : List DerivedTask) :
    Prop where
  removal : ∀ task ∈ tasks, task.action = .remove → ∃ company, (task.id.skh, company) ∈ done ∧
    company.incomplete = false ∧ company.lists.lookup task.id.list = none ∧
    task.id.list ∈ db.all task.id.skh
  work : ∀ skh company, (skh, company) ∈ done → ∀ name md, (name, md) ∈ company.lists →
    p.plans db ⟨skh, name⟩ md ≠ none → ∃ task ∈ tasks, task.id = ⟨skh, name⟩

theorem needsWork_ne_remove {state : Option ListSyncState} {md : IdListMetadata}
    {fwdExists enabled : Bool} :
    needsWorkWithReverseIndex state md fwdExists enabled ≠ some .remove := by
  unfold needsWorkWithReverseIndex
  repeat' split
  all_goals simp

theorem planned_ne_remove {skh : String} {item : String × IdListMetadata} {task : DerivedTask}
    (h : task ∈ p.planned db skh item) : task.action ≠ .remove := by
  unfold planned plans planSyncWithReverseIndex at h
  simp only [List.mem_map, Option.mem_toList, Option.map_eq_some_iff] at h
  obtain ⟨plan, ⟨action, haction, rfl⟩, rfl⟩ := h
  intro hremove
  have hremove : action = .remove := hremove
  rw [hremove] at haction
  exact needsWork_ne_remove haction

theorem derived_step {done : List (String × CompanyManifest)} {tasks : List DerivedTask}
    {item : String × CompanyManifest} {known : List String} (h : p.Derived db done tasks)
    (hknown : known.toFinset = db.all item.1) :
    p.Derived db (done ++ [item])
      (tasks ++ item.2.lists.flatMap (p.planned db item.1) ++ removals item.1 item.2 known) := by
  constructor
  · intro task htask hremove
    rcases List.mem_append.mp htask with htask | htask
    · rcases List.mem_append.mp htask with htask | htask
      · obtain ⟨company, hmem, hrest⟩ := h.removal task htask hremove
        exact ⟨company, by simp [hmem], hrest⟩
      · obtain ⟨list, _, hplanned⟩ := List.mem_flatMap.mp htask
        exact absurd hremove (p.planned_ne_remove hplanned)
    · unfold removals at htask
      obtain ⟨name, hname, rfl⟩ := List.mem_map.mp htask
      simp only [List.mem_filter, Bool.and_eq_true, Bool.not_eq_true', Option.isNone_iff_eq_none]
        at hname
      refine ⟨item.2, by simp, hname.2.1, hname.2.2, ?_⟩
      rw [← hknown]
      exact List.mem_toFinset.mpr hname.1
  · intro skh company hmem name md hentry hplan
    rcases List.mem_append.mp hmem with hmem | hmem
    · obtain ⟨task, htask, hid⟩ := h.work skh company hmem name md hentry hplan
      exact ⟨task, by simp [htask], hid⟩
    · obtain rfl := List.mem_singleton.mp hmem
      obtain ⟨plan, hplan⟩ := Option.ne_none_iff_exists'.mp hplan
      refine ⟨⟨⟨skh, name⟩, plan.1, some plan.2⟩, ?_, rfl⟩
      refine List.mem_append.mpr (.inl (List.mem_append.mpr (.inr ?_)))
      refine List.mem_flatMap.mpr ⟨(name, md), hentry, ?_⟩
      unfold planned
      simp [hplan]

theorem derived_ticked (h : Ticked db₀ db) {done : List (String × CompanyManifest)}
    {tasks : List DerivedTask} : p.Derived db done tasks ↔ p.Derived db₀ done tasks := by
  have hplans : ∀ id md, p.plans db id md = p.plans db₀ id md := p.plans_ticked h
  constructor
  · intro hd
    refine ⟨?_, ?_⟩
    · rw [← h.all]
      exact hd.removal
    · intro skh company hmem name md hentry hplan
      rw [← hplans] at hplan
      exact hd.work skh company hmem name md hentry hplan
  · intro hd
    refine ⟨?_, ?_⟩
    · rw [h.all]
      exact hd.removal
    · intro skh company hmem name md hentry hplan
      rw [hplans] at hplan
      exact hd.work skh company hmem name md hentry hplan

/-- **The survey**: the loop over the companies. -/
theorem wp_survey (companies : List (String × CompanyManifest)) :
    Wp (redis origin) (Prog.fold p.produceCompany ([], 0) companies)
      (fun derived t => Surveyed db t ∧ p.Derived db companies derived.1) (Surveyed db) db := by
  refine Wp.fold (I := fun done derived t => Surveyed db t ∧ p.Derived db done derived.1)
    (fun _ _ _ h => h.1) companies [] ([], 0) db ?_ ?_ ?_
  · intro done derived item _ t ⟨ht, hderived⟩
    have hkeeps : Keeps (redis origin) (Surveyed db) (p.produceCompany derived item) :=
      surveyed_keeps (p.produceCompany_issues derived item)
    have hderived' := (p.derived_ticked ht.toTicked).mpr hderived
    refine ((p.wp_produceCompany derived item).and (hkeeps t ht)).mono ?_ fun _ h => h.2
    intro derived' t' ⟨⟨_, known, hknown, htasks⟩, ht'⟩
    refine ⟨ht', ?_⟩
    rw [htasks]
    exact (p.derived_ticked ht.toTicked).mp (p.derived_step hderived' hknown)
  · refine ⟨Surveyed.refl db, ?_, ?_⟩
    · intro task htask
      simp at htask
    · intro skh company hmem
      simp at hmem
  · intro derived t h
    exact h

/-! ## What a tick enqueues -/

theorem mem_dedupeTasks {item : Nat × DerivedTask} {tasks : List DerivedTask} :
    ∀ {seen : List ListId} {seqByClass : Nat → Nat}, item ∈ dedupeTasks seen seqByClass tasks →
      item.2 ∈ tasks := by
  induction tasks with
  | nil =>
    intro seen seqByClass h
    simp [dedupeTasks] at h
  | cons task tasks ih =>
    intro seen seqByClass h
    unfold dedupeTasks at h
    split at h
    · exact List.mem_cons_of_mem _ (ih h)
    · rcases List.mem_cons.mp h with rfl | h
      · exact List.mem_cons_self
      · exact List.mem_cons_of_mem _ (ih h)

/-- Every list with a task keeps one. -/
theorem exists_mem_dedupeTasks {task : DerivedTask} {tasks : List DerivedTask} :
    ∀ {seen : List ListId} {seqByClass : Nat → Nat}, task ∈ tasks → task.id ∉ seen →
      ∃ item ∈ dedupeTasks seen seqByClass tasks, item.2.id = task.id := by
  induction tasks with
  | nil =>
    intro seen seqByClass h
    simp at h
  | cons first tasks ih =>
    intro seen seqByClass h hseen
    unfold dedupeTasks
    split
    · rename_i hfirst
      rcases List.mem_cons.mp h with rfl | h
      · exact absurd hfirst hseen
      · exact ih h hseen
    · by_cases hid : first.id = task.id
      · exact ⟨_, List.mem_cons_self, hid⟩
      · have htask : task ∈ tasks := by
          rcases List.mem_cons.mp h with rfl | h
          · exact absurd rfl hid
          · exact h
        have hseen' : task.id ∉ first.id :: seen := by simp [Ne.symm hid, hseen]
        obtain ⟨item, hitem, hitemid⟩ := ih htask hseen'
        exact ⟨item, List.mem_cons_of_mem _ hitem, hitemid⟩

theorem mem_ordered {item : Nat × DerivedTask} {tasks : List DerivedTask}
    (h : item ∈ orderAndDedupeTasks tasks) : item.2 ∈ tasks :=
  (List.mem_insertionSort _).mp (mem_dedupeTasks h)

theorem exists_mem_ordered {task : DerivedTask} {tasks : List DerivedTask} (h : task ∈ tasks) :
    ∃ item ∈ orderAndDedupeTasks tasks, item.2.id = task.id :=
  exists_mem_dedupeTasks ((List.mem_insertionSort _).mpr h) (by simp)

/-- The chunks of the pipeline are one sequence of commands. -/
theorem enqueueTasks_eq (tasks : List (Nat × DerivedTask)) :
    enqueueTasks tasks = Prog.fold enqueueTask 0 tasks := by
  unfold enqueueTasks
  rw [Prog.fold_flatten, chunks_flatten]

/-- The command with which the removal of a list is enqueued. -/
def removeCmd (id : ListId) : Cmd := .write (.hsetMeta id (.op .remove))

theorem mem_enqueueWrites {task : DerivedTask} {wr : Write} (h : wr ∈ enqueueWrites task) :
    (∃ field, wr = .hsetMeta task.id field ∧ (field = .op .remove → task.action = .remove)) ∨
      wr = .expireMeta task.id := by
  unfold enqueueWrites at h
  rcases List.mem_append.mp h with h | h
  · split at h
    · rename_i haction
      obtain rfl := List.mem_singleton.mp h
      exact .inl ⟨_, rfl, fun _ => haction⟩
    · simp only [List.mem_cons, List.not_mem_nil, or_false] at h
      rcases h with rfl | rfl | rfl | rfl | rfl
      all_goals exact .inl ⟨_, rfl, by simp⟩
    · obtain rfl := List.mem_singleton.mp h
      exact .inl ⟨_, rfl, by simp⟩
  · exact .inr (List.mem_singleton.mp h)

/-- The commands of one task; the removal of a list is enqueued for a
removal task of it only. -/
theorem enqueueTask_issues (added : Nat) (item : Nat × DerivedTask) :
    (enqueueTask added item).Issues fun c => c.OfTick ∧
      ∀ id, c = removeCmd id → item.2.id = id ∧ item.2.action = .remove := by
  refine .bind (.forEachMem fun wr hwr => .cmd ?_) fun _ => .bind (.cmd ?_) fun _ => .pure _
  · rcases mem_enqueueWrites hwr with ⟨field, rfl, hremove⟩ | rfl
    · refine ⟨trivial, fun id hid => ?_⟩
      simp only [removeCmd, Cmd.write.injEq, Write.hsetMeta.injEq] at hid
      exact ⟨hid.1, hremove hid.2⟩
    · exact ⟨trivial, by simp [removeCmd]⟩
  · exact ⟨trivial, by simp [removeCmd]⟩

theorem produceLocked_issues : p.produceLocked.Issues Cmd.OfTick := by
  unfold produceLocked
  cases p.namespaces.companyManifests with
  | error e => exact .throw _
  | ok result =>
    obtain ⟨companies, unavailable⟩ := result
    refine .bind (.fold (fun acc item => ?_) _ _) fun derived => ?_
    · exact (p.produceCompany_issues acc item).mono fun _ h => h.ofTick
    · refine .bind ?_ fun _ => .bind (.cmd trivial) fun _ => .pure _
      rw [enqueueTasks_eq]
      exact .fold (fun added item => (enqueueTask_issues added item).mono fun _ h => h.1) _ _

/-- **A tick leaves the lists' data alone**, however far it gets. -/
theorem ticked_produceLocked {o : Outcome WorkerError ProducerTickStats}
    (he : Exec (redis origin) p.produceLocked db db' o) : Ticked db db' :=
  (p.produceLocked_issues.keeps fun _ hc => ticked_step hc).exec (Ticked.refl db) he

/-! ## Removals rest on complete evidence -/

/-- The evidence a removal of `id` is derived from. -/
structure RemovalEvidence (ns : IdListNamespaces) (db : Db) (id : ListId) : Prop where
  /-- Every configured key has a company. -/
  discovered : ∀ key ∈ ns.serverKeys, ∃ company, ns.companyId key = some company
  /-- The namespace belongs to a company, and every key of that company has
  a manifest, none of which has the list. -/
  absent : ∃ company, ns.hashCompanyId company = id.skh ∧
    (∃ key ∈ ns.serverKeys, ns.companyId key = some company) ∧
    ∀ key ∈ ns.serverKeys, ns.companyId key = some company →
      ∃ manifest, ns.manifests key = some manifest ∧ manifest.lookup id.list = none
  registered : id.list ∈ db.all id.skh
  /-- No two companies share a namespace. -/
  distinct : ∀ key ∈ ns.serverKeys, ∀ key' ∈ ns.serverKeys, ∀ company company',
    ns.companyId key = some company → ns.companyId key' = some company' →
      ns.hashCompanyId company = ns.hashCompanyId company' → company = company'

theorem evidence_of_derived {companies : List (String × CompanyManifest)} {unavailable : Nat}
    (hcompanies : p.namespaces.companyManifests = .ok (companies, unavailable))
    {tasks : List DerivedTask} (h : p.Derived db companies tasks) {task : DerivedTask}
    (htask : task ∈ tasks) (hremove : task.action = .remove) :
    RemovalEvidence p.namespaces db task.id := by
  obtain ⟨company, hmem, hincomplete, hlookup, hregistered⟩ := h.removal task htask hremove
  have hcomplete :=
    IdListNamespaces.complete_of_companyManifests hcompanies hmem hincomplete
  obtain ⟨c, hskh, hkey, hmanifests⟩ := hcomplete.owner
  refine ⟨hcomplete.discovered, ⟨c, hskh, hkey, ?_⟩, hregistered, hcomplete.distinct⟩
  intro key hkeys hc
  obtain ⟨manifest, hmanifest, hnames⟩ := hmanifests key hkeys hc
  refine ⟨manifest, hmanifest, ?_⟩
  by_contra hne
  have hlisted : IdListManifest.Lists company.lists task.id.list :=
    hnames _ (Option.isSome_iff_ne_none.mpr hne)
  unfold IdListManifest.Lists at hlisted
  simp [hlookup] at hlisted

/-- **Removal is derived on complete evidence only**: a tick that enqueues
the removal of a list has it; and a tick that finds two companies behind
one namespace fails without sending a command. -/
theorem removal_evidence (log : List Cmd) (o : Outcome WorkerError ProducerTickStats)
    (he : Exec (redis origin).logged p.produceLocked (db, []) (db', log) o) :
    (∀ id, removeCmd id ∈ log → RemovalEvidence p.namespaces db id) ∧
    (∀ key ∈ p.namespaces.serverKeys, ∀ key' ∈ p.namespaces.serverKeys, ∀ company company',
      p.namespaces.companyId key = some company → p.namespaces.companyId key' = some company' →
      company ≠ company' →
      p.namespaces.hashCompanyId company = p.namespaces.hashCompanyId company' →
        log = [] ∧ db' = db ∧ (o = .stopped ∨
          o = .err (.redis "ID-list namespace collision; task generation aborted"))) := by
  constructor
  · have hwp : Wp (redis origin).logged p.produceLocked
        (fun _ s => ∀ c ∈ s.2, ∀ id, c = removeCmd id → RemovalEvidence p.namespaces db id)
        (fun s => ∀ c ∈ s.2, ∀ id, c = removeCmd id → RemovalEvidence p.namespaces db id)
        (db, []) := by
      unfold produceLocked
      cases hcompanies : p.namespaces.companyManifests with
      | error e => exact .throw (by simp)
      | ok result =>
        obtain ⟨companies, unavailable⟩ := result
        have hsurvey : Keeps (redis origin).logged
            (fun s => ∀ c ∈ s.2, ∀ id, c = removeCmd id → RemovalEvidence p.namespaces db id)
            (Prog.fold p.produceCompany ([], 0) companies) := by
          have hissues : (Prog.fold p.produceCompany ([], 0) companies).Issues fun c =>
              ∀ id, c = removeCmd id → RemovalEvidence p.namespaces db id := by
            refine .fold (fun acc item => (p.produceCompany_issues acc item).mono ?_) _ _
            intro c hc id hid
            rw [hid] at hc
            exact hc.elim
          exact hissues.logged
        refine Wp.seq (((p.wp_survey companies).logged.and (hsurvey (db, []) (by simp))).mono
          (fun _ _ h => h) fun _ h => h.2) ?_
        intro derived s ⟨⟨_, hderived⟩, hlog⟩
        have hissues : (enqueueTasks (orderAndDedupeTasks derived.1)).Issues fun c =>
            ∀ id, c = removeCmd id → RemovalEvidence p.namespaces db id := by
          rw [enqueueTasks_eq]
          refine .foldMem (fun added item hitem => (enqueueTask_issues added item).mono ?_) _
          intro c hc id hid
          obtain ⟨rfl, hremove⟩ := hc.2 id hid
          exact p.evidence_of_derived hcompanies hderived (mem_ordered hitem) hremove
        have hrest : (do
            let enqueued ← enqueueTasks (orderAndDedupeTasks derived.1)
            let depth ← zcard
            pure (⟨enqueued, derived.2, depth, unavailable,
              (orderAndDedupeTasks derived.1).length⟩ : ProducerTickStats) :
              Redis ProducerTickStats).Issues fun c =>
            ∀ id, c = removeCmd id → RemovalEvidence p.namespaces db id :=
          .bind hissues fun _ => .bind (.cmd (by simp [removeCmd])) fun _ => .pure _
        exact hrest.logged s hlog
    intro id hid
    exact hwp.always (fun _ _ h => h) he _ hid id rfl
  · intro key hkey key' hkey' c c' hc hc' hne hhash
    have hcollision := IdListNamespaces.companyManifests_collision hkey hkey' hc hc' hne hhash
    unfold produceLocked at he
    rw [hcollision] at he
    obtain ⟨heq, ho⟩ := exec_throw_cases he
    obtain ⟨rfl, rfl⟩ := Prod.mk.inj heq
    exact ⟨rfl, rfl, ho⟩

/-- The tick that no longer finds the loaded list in the manifest. -/
def removalTick : Db × List Cmd :=
  (scripted smallOrigin).logged.after 100 (smallProducer []).produceLocked (smallLoaded, [])
    [.order ["l"]]

theorem removal_evidence_absent :
    RemovalEvidence (smallProducer []).namespaces smallLoaded smallList := by
  have he : Exec (redis smallOrigin).logged (smallProducer []).produceLocked (smallLoaded, [])
      removalTick (.ok ⟨1, 1, 1, 0, 1⟩) :=
    (scripted smallOrigin).logged.after_sound (by decide +kernel)
  exact ((smallProducer []).removal_evidence removalTick.2 _ he).1 smallList (by decide +kernel)

end IdListSyncProducer

end ForwardProxy.IdList
