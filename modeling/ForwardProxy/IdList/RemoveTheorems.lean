/-
ForwardProxy.IdList.RemoveTheorems — a removal, command by command.

A removal is a fan-out over the reverse index with its marker
(`clearIndex`), followed by a pipeline of deletions whose last one is the
state hash. The fan-out is described on the view of the list. The
pipeline takes the list's token from the dictionary, so it is described on
the contents: a run that stops in it leaves what a prefix of its writes
leaves (`exec_applyRemove`).
-/
import ForwardProxy.IdList.StreamedDiffTheorems
import ForwardProxy.IdList.TaskLocalityTheorems

namespace ForwardProxy.IdList

open Effect

variable {id : ListId} {origin : String → List UInt8} {db db' : Db}

/-! ## Pipelines of writes -/

/-- A pipeline that stops leaves what a prefix of it leaves. -/
theorem exec_writes : ∀ {ws : List Write} {db db' : Db} {o : Outcome WorkerError Unit},
    Exec (redis origin) (Prog.forEach write ws) db db' o →
      ∃ k ≤ ws.length, db' = (ws.take k).foldl Write.apply db ∧ (∀ a, o = .ok a → k = ws.length)
  | [], db, db', o, he => by
      obtain ⟨rfl, _⟩ := exec_pure_cases he
      exact ⟨0, Nat.le_refl 0, rfl, fun _ _ => rfl⟩
  | w :: ws, db, db', o, he => by
      rcases exec_call_cases he with ⟨rfl, rfl⟩ | ⟨_, db₁, hs, he⟩
      · exact ⟨0, Nat.zero_le _, rfl, by simp⟩
      · obtain rfl : db₁ = w.apply db := hs
        obtain ⟨k, hk, hdb, ho⟩ := exec_writes he
        exact ⟨k + 1, Nat.succ_le_succ hk, hdb, fun a ha => congrArg Nat.succ (ho a ha)⟩

namespace IdListSyncWorker

variable (w : IdListSyncWorker)

/-- The final pipeline of a removal. -/
def cleanupWrites (id : ListId) (state : ListSyncState) (token : Option Nat) : List Write :=
  state.loadingVersion.toList.map (Write.delFwd id) ++
    [.delFwd id state.version, .delMeta id, .hdelDict id token, .sremAll id, .delState id]

theorem removeCleanup_eq (state : ListSyncState) (token : Option Nat) :
    removeCleanup id state token = Prog.forEach write (cleanupWrites id state token) := by
  unfold cleanupWrites removeCleanup
  rw [Prog.forEach_append]
  cases state.loadingVersion <;> rfl

/-- A removal stops in its fan-out, or in its final pipeline. -/
theorem exec_applyRemove (hok : db.Ok) {state : ListSyncState} {o : Outcome WorkerError Unit}
    (he : Exec (redis origin) (w.applyRemove id state) db db' o) :
    ((∀ b, o ≠ .ok b) ∧ ∃ o₁ : Outcome WorkerError (Option Nat), (∀ a, o₁ ≠ .ok a) ∧
      Exec (redis origin) (w.clearIndex id state) db db' o₁) ∨
    ∃ db₁, Exec (redis origin) (w.clearIndex id state) db db₁
        (.ok ((db.dict id.skh).token id.list)) ∧
      Local id db ((db.dict id.skh).token id.list) db₁ ∧
      (db₁.dict id.skh).token id.list = (db.dict id.skh).token id.list ∧
      ∃ k ≤ (cleanupWrites id state ((db.dict id.skh).token id.list)).length,
        db' = ((cleanupWrites id state ((db.dict id.skh).token id.list)).take k).foldl
          Write.apply db₁ ∧
        (∀ b, o = .ok b →
          k = (cleanupWrites id state ((db.dict id.skh).token id.list)).length) := by
  rw [applyRemove_eq] at he
  rcases exec_bind_cases he with ⟨o₁, he₁, hne₁, hne⟩ | ⟨token, db₁, he₁, he⟩
  · exact .inl ⟨hne, o₁, hne₁, he₁⟩
  · obtain ⟨rfl, hlocal, htoken⟩ := (w.local_clearIndex hok).ok he₁
    rw [removeCleanup_eq] at he
    exact .inr ⟨db₁, he₁, hlocal, htoken, exec_writes he⟩

/-! ## The fan-out -/

variable {v : ListView}

/-- The removal does not trust the forward set, and scans all member keys. -/
def removalScans (v : ListView) : Bool :=
  (decide (0 < v.state.cardinality.getD (v.state.size.getD 0)) &&
      decide (v.fwd (v.state.version.getD "") = ∅)) ||
    v.state.reverseIndexDisabled || decide (v.state.version.getD "" = "") ||
    v.state.loadingVersion.isSome || v.state.reconcileRequired

/-- The reverse index after the fan-out of a removal. -/
def fannedOut (v : ListView) : Set String :=
  if removalScans v then ∅ else v.tag \ v.fwd (v.state.version.getD "")

theorem wp_removeFanout :
    Wp (listRedis origin id)
      (w.removeFanout id (ListSyncState.fromHashFields v.state) v.tok)
      (fun _ v' => v' = v.setTag (fannedOut v)) (fun v' => ∃ s ⊆ v.tag, v' = v.setTag s) v := by
  unfold fannedOut
  refine wp_keyMissing (Wp.ite (fun hscan => ?_) fun hscan => wp_scard ?_)
  · have hscan : removalScans v = true := hscan
    rw [if_pos hscan]
    exact w.wp_clearReverseToken
  · have hscan : ¬ removalScans v = true := hscan
    rw [if_neg hscan]
    refine (w.wp_fanoutScan _ false _).mono ?_ ?_
    · rintro _ v' rfl
      rfl
    · rintro v' ⟨s, hs, rfl⟩
      refine ⟨s, fun m hm => ?_, rfl⟩
      rcases ((mem_uIcc_iff.mp hs) m).2 hm with h | h
      · exact h
      · exact h.1

theorem fannedOut_subset (v : ListView) : fannedOut v ⊆ v.tag := by
  unfold fannedOut
  split
  · exact Set.empty_subset _
  · exact Set.sdiff_subset

/-- The view when the fan-out of a removal is recorded as complete. -/
def cleared (v : ListView) (s : Set String) : ListView :=
  (v.setTag s).setState { v.state with removalFanoutComplete := true }

/-- The fan-out and its marker. A run that stops in it has changed nothing
but the index and the marker. -/
theorem wp_clearIndex (hrev : w.config.enableReverseIndex = true) :
    Wp (listRedis origin id) (w.clearIndex id (ListSyncState.fromHashFields v.state))
      (fun token v' => v' = cleared v
        (if v.state.removalFanoutComplete = true ∨ token = none then v.tag else fannedOut v))
      (fun v' => ∃ s ⊆ v.tag, ∃ removal,
        v' = (v.setTag s).setState { v.state with removalFanoutComplete := removal }) v := by
  have hself : ∀ s ⊆ v.tag, ∃ s' ⊆ v.tag, ∃ removal, v.setTag s =
      (v.setTag s').setState { v.state with removalFanoutComplete := removal } :=
    fun s hs => ⟨s, hs, v.state.removalFanoutComplete, rfl⟩
  have hstart := hself v.tag subset_rfl
  refine wp_hgetState (wp_getToken hstart fun token htoken => ?_)
  refine Wp.ite (fun _ => .throw hstart) fun _ => ?_
  have hsub : (if token = none then v.tag else fannedOut v) ⊆ v.tag := by
    split
    · exact subset_rfl
    · exact fannedOut_subset v
  cases hmark : v.state.removalFanoutComplete with
  | true =>
    -- The marker is there: both steps are skipped.
    have hsame : v = cleared v v.tag := by
      unfold cleared
      rw [← hmark]
      rfl
    simp only [hrev, Bool.not_true, Bool.and_false]
    refine .pure hstart ?_
    simpa using hsame
  | false =>
    simp only [hrev, Bool.not_false, Bool.and_true, Bool.false_eq_true, false_or]
    refine Wp.seq (P := fun _ v' => v' = v.setTag (if token = none then v.tag else fannedOut v))
      ?_ ?_
    · refine Wp.when (fun _ => ?_) (fun h => by simp at h) fun h => by simp at h
      cases token with
      | none => exact .pure hstart rfl
      | some t =>
        obtain rfl := htoken t rfl
        refine Wp.seq (w.wp_removeFanout.mono (fun _ _ h => h) ?_) ?_
        · rintro v' ⟨s, hs, rfl⟩
          exact hself s hs
        · rintro _ v' rfl
          exact .pure (hself _ (fannedOut_subset v)) rfl
    · rintro _ v' rfl
      refine Wp.seq (P := fun _ v' =>
        v' = cleared v (if token = none then v.tag else fannedOut v)) ?_ ?_
      · have hafter : ListView.after id (v.setTag (if token = none then v.tag else fannedOut v))
            (.hsetState id [.removalFanoutComplete]) =
            cleared v (if token = none then v.tag else fannedOut v) := by
          rw [ListView.after_hsetState]
          rfl
        exact wp_write_end rfl (hself _ hsub) (hafter ▸ ⟨_, hsub, true, rfl⟩) hafter
      · rintro _ v' rfl
        exact .pure ⟨_, hsub, true, rfl⟩ rfl

/-! ## The final pipeline -/

variable {state : ListSyncState} {token : Option Nat}

/-- What the final pipeline leaves of a list. -/
structure Erased (id : ListId) (s : ListSyncState) (tok : Option Nat) (db : Db) : Prop where
  state : db.state id = {}
  taskMeta : db.taskMeta id = {}
  fwd : ∀ ver, ver = s.version ∨ s.loadingVersion = some ver → db.fwd id ver = {}
  token : (db.dict id.skh).token id.list = none
  name : ∀ t, tok = some t → (db.dict id.skh).name t = none
  all : id.list ∉ db.all id.skh

theorem cleanup_erased (db : Db) :
    Erased id state token ((cleanupWrites id state token).foldl Write.apply db) ∧
      ((cleanupWrites id state token).foldl Write.apply db).member = db.member := by
  unfold cleanupWrites
  rw [List.foldl_append]
  generalize hfirst : (state.loadingVersion.toList.map (Write.delFwd id)).foldl Write.apply db = db₁
  have hmember : db₁.member = db.member := by
    subst hfirst
    cases state.loadingVersion <;> rfl
  have hload : ∀ ver, state.loadingVersion = some ver → db₁.fwd id ver = {} := by
    intro ver hver
    subst hfirst
    rw [hver]
    simp [Write.apply]
  refine ⟨⟨?_, ?_, ?_, ?_, ?_, ?_⟩, ?_⟩
  · simp [Write.apply]
  · simp [Write.apply]
  · intro ver hver
    simp only [List.foldl_cons, List.foldl_nil, Write.apply, Db.setState_fwd, Db.setAll_fwd,
      Db.setDict_fwd, Db.setTaskMeta_fwd, Db.setFwd_fwd, Function.update_self, Function.update_apply]
    split
    · rfl
    · rename_i hne
      exact hload ver (hver.resolve_left hne)
  · simp [Write.apply, Dict.hdel]
  · intro t ht
    subst ht
    simp [Write.apply, Dict.hdel]
  · simp [Write.apply]
  · rw [← hmember]
    rfl

/-- Deletions of the list's own sets and metadata show in its view as
empty sets only. -/
theorem view_deletions : ∀ (ws : List Write) (db : Db),
    (∀ wr ∈ ws, (∃ ver, wr = .delFwd id ver) ∨ wr = .delMeta id) →
      ∃ fwd : String → Finset String, (∀ ver, fwd ver = (db.fwd id ver).members ∨ fwd ver = ∅) ∧
        (ws.foldl Write.apply db).view id = { db.view id with fwd := fwd } := by
  intro ws
  induction ws with
  | nil =>
    intro db _
    exact ⟨(db.view id).fwd, fun _ => .inl rfl, rfl⟩
  | cons wr ws ih =>
    intro db hws
    obtain ⟨fwd, hfwd, hview⟩ := ih (wr.apply db) fun wr' h => hws wr' (by simp [h])
    rw [List.foldl_cons]
    rcases hws wr (by simp) with ⟨ver, rfl⟩ | rfl
    · refine ⟨fwd, fun ver' => ?_, ?_⟩
      · rcases hfwd ver' with h | h
        · by_cases hv : ver' = ver
          · subst hv
            refine .inr (h.trans ?_)
            simp [Write.apply]
          · refine .inl (h.trans ?_)
            simp [Write.apply, Function.update_of_ne hv]
        · exact .inr h
      · rw [hview, view_write db id _ rfl, ListView.after_delFwd]
        rfl
    · exact ⟨fwd, hfwd, hview⟩

/-- Where the final pipeline may stop: before the dictionary fields are
deleted, with some forward sets gone, or after. -/
theorem cleanup_stopped (db : Db) (k : Nat) :
    (∃ fwd : String → Finset String, (∀ ver, fwd ver = (db.fwd id ver).members ∨ fwd ver = ∅) ∧
      (((cleanupWrites id state token).take k).foldl Write.apply db).view id =
        { db.view id with fwd := fwd }) ∨
    (((((cleanupWrites id state token).take k).foldl Write.apply db).dict id.skh).token id.list =
        none ∧
      ((((cleanupWrites id state token).take k).foldl Write.apply db).fwd id
        state.version).members = ∅ ∧
      ((((cleanupWrites id state token).take k).foldl Write.apply db).state id = db.state id ∨
        (((cleanupWrites id state token).take k).foldl Write.apply db).state id = {})) := by
  have hsplit : cleanupWrites id state token =
      (state.loadingVersion.toList.map (Write.delFwd id) ++ [.delFwd id state.version, .delMeta id]) ++
        [.hdelDict id token, .sremAll id, .delState id] := by
    simp [cleanupWrites]
  rw [hsplit, List.take_append]
  generalize hdel : state.loadingVersion.toList.map (Write.delFwd id) ++
    [Write.delFwd id state.version, Write.delMeta id] = dels
  have hdels : ∀ wr ∈ dels, (∃ ver, wr = .delFwd id ver) ∨ wr = .delMeta id := by
    intro wr hwr
    subst hdel
    simp only [List.mem_append, List.mem_map, List.mem_cons, List.not_mem_nil, or_false] at hwr
    rcases hwr with ⟨ver, _, rfl⟩ | rfl | rfl
    · exact .inl ⟨ver, rfl⟩
    · exact .inl ⟨_, rfl⟩
    · exact .inr rfl
  cases hj : k - dels.length with
  | zero =>
    left
    simpa using view_deletions (dels.take k) db fun wr h => hdels wr (List.mem_of_mem_take h)
  | succ j =>
    right
    rw [List.take_of_length_le (by omega), List.foldl_append]
    have hview := view_deletions dels db hdels
    obtain ⟨fwd, _, hview⟩ := hview
    have hstate : (dels.foldl Write.apply db).state id = db.state id := congrArg ListView.state hview
    have hempty : ((dels.foldl Write.apply db).fwd id state.version).members = ∅ := by
      subst hdel
      simp [List.foldl_append, Write.apply]
    rcases j with _ | _ | j
    · simp [Write.apply, Dict.hdel, hstate, hempty]
    · simp [Write.apply, Dict.hdel, hstate, hempty]
    · simp [Write.apply, Dict.hdel, hempty]

end IdListSyncWorker

end ForwardProxy.IdList
