/-
ForwardProxy.IdList.Script — running the worker and the producer on
concrete contents.

`scripted` answers what the store leaves open from a script: the pages of
a scan, the order of a set, the body of a download. The claim is always
held. It is how a particular run is exhibited in this development, as a
witness or as a counterexample.

`scripted` has no answer to SCAN over the member keys, for it cannot see
from the contents which of these exist. `scanned` has: it runs on contents
whose member keys are among some names, and keeps them so.
-/
import ForwardProxy.IdList.Producer

namespace ForwardProxy.IdList

open Effect

/-- One choice of the environment. -/
inductive Answer where
  | pages (ps : List (List String))
  | order (xs : List String)
  | body (d : Download)
  | popped (id : Option ListId)
  deriving DecidableEq

/-- The lowest entry of the queue, if it is the one the script names. -/
def popEntry (queue : List (Nat × ListId)) (id : ListId) : Option (List (Nat × ListId)) :=
  match queue.find? fun e => e.2 = id ∧ ∀ e' ∈ queue, e.1 ≤ e'.1 with
  | some e => some (queue.erase e)
  | none => none

/-- The answer to one command. -/
def scriptedNext (origin : String → List UInt8) (db : Db) :
    (c : Cmd) → List Answer → Option (c.Reply × Db × List Answer)
  | .write w, as => some ((), w.apply db, as)
  | .multi ws, as => some ((), ws.foldl Write.apply db, as)
  | .hgetState id, as => some (db.state id, db, as)
  | .hgetallMeta id, as => some (db.taskMeta id, db, as)
  | .existsFwd id v, as => some (decide ((db.fwd id v).members ≠ ∅), db, as)
  | .scardFwd id v, as => some ((db.fwd id v).members.card, db, as)
  | .ttlFwd id v, as =>
      some (if (db.fwd id v).members = ∅ then (-2 : Int) else if (db.fwd id v).ttl then 60 else -1,
        db, as)
  | .sscanFwd id v, .pages ps :: as =>
      if PagesOf (db.fwd id v).members ps then some (ps, db, as) else none
  | .smembersAll skh, .order xs :: as =>
      if xs.Nodup ∧ xs.toFinset = db.all skh then some (xs, db, as) else none
  | .allocToken id, as =>
      some (((db.dict id.skh).alloc id.list).1,
        db.setDict id.skh ((db.dict id.skh).alloc id.list).2, as)
  | .getToken id, as => some ((db.dict id.skh).token id.list, db, as)
  | .zaddNx score id, as =>
      some (if id ∈ db.queue.map Prod.snd then 0 else 1,
        { db with queue := zaddNxQueue db.queue score id }, as)
  | .zpopmin, .popped none :: as =>
      if db.queue = [] then some (none, { db with queue := [] }, as) else none
  | .zpopmin, .popped (some id) :: as =>
      (popEntry db.queue id).map fun rest => (some id, { db with queue := rest }, as)
  | .zcard, as => some (db.queue.length, db, as)
  | .tryAcquire _, as => some (true, db, as)
  | .release _, as => some ((), db, as)
  | .held, as => some (true, db, as)
  | .renew, as => some (true, db, as)
  | .fetch url start _, .body d :: as =>
      if Delivers (origin url) start d then some (d, db, as) else none
  | .iterate s, .order xs :: as =>
      if xs.Nodup ∧ xs.toFinset = s then some (xs, db, as) else none
  | _, _ => none

theorem popEntry_sound {queue rest : List (Nat × ListId)} {id : ListId}
    (h : popEntry queue id = some rest) : PopsMin queue (some id) rest := by
  unfold popEntry at h
  split at h
  · rename_i e he
    have hmem := List.mem_of_find?_eq_some he
    have hmin := List.find?_some he
    obtain ⟨score, i⟩ := e
    simp only [decide_eq_true_iff] at hmin
    obtain ⟨rfl, hmin⟩ := hmin
    exact ⟨score, hmem, hmin, (Option.some.inj h).symm⟩
  · simp at h

theorem scriptedNext_sound {origin : String → List UInt8} {db db' : Db} {c : Cmd}
    {w w' : List Answer} {r : c.Reply} (h : scriptedNext origin db c w = some (r, db', w')) :
    (redis origin).step db c r db' := by
  unfold scriptedNext at h
  split at h
  all_goals
    simp only [Option.some.injEq, Prod.mk.injEq, Option.ite_none_right_eq_some,
      Option.map_eq_some_iff, reduceCtorEq] at h
  case h_1 => exact h.2.1.symm
  case h_2 => exact h.2.1.symm
  case h_3 => exact ⟨h.1.symm, h.2.1.symm⟩
  case h_4 => exact ⟨h.1.symm, h.2.1.symm⟩
  case h_5 => exact ⟨h.1.symm, h.2.1.symm⟩
  case h_6 => exact ⟨h.1.symm, h.2.1.symm⟩
  case h_7 id v as =>
    refine ⟨?_, h.2.1.symm⟩
    rw [← h.1]
    unfold TtlReply
    split
    · rfl
    · split <;> simp
  case h_8 =>
    obtain ⟨hp, rfl, hdb, _⟩ := h
    exact ⟨hp, hdb.symm⟩
  case h_9 =>
    obtain ⟨hp, rfl, hdb, _⟩ := h
    exact ⟨hp, hdb.symm⟩
  case h_10 => exact ⟨h.1.symm, h.2.1.symm⟩
  case h_11 => exact ⟨h.1.symm, h.2.1.symm⟩
  case h_12 => exact ⟨h.1.symm, h.2.1.symm⟩
  case h_13 =>
    obtain ⟨hq, rfl, hdb, _⟩ := h
    exact ⟨[], ⟨hq, rfl⟩, hdb.symm⟩
  case h_14 =>
    obtain ⟨rest, hrest, rfl, hdb, _⟩ := h
    exact ⟨rest, popEntry_sound hrest, hdb.symm⟩
  case h_15 => exact ⟨h.1.symm, h.2.1.symm⟩
  case h_16 => exact h.2.1.symm
  case h_17 => exact h.2.1.symm
  case h_18 => exact h.2.1.symm
  case h_19 => exact h.2.1.symm
  case h_20 =>
    obtain ⟨hp, rfl, hdb, _⟩ := h
    exact ⟨hp, hdb.symm⟩
  case h_21 =>
    obtain ⟨hp, rfl, hdb, _⟩ := h
    exact ⟨hp, hdb.symm⟩

/-! ## The setting of the exhibited runs -/

deriving instance DecidableEq for IdListSyncWorker.StreamApplyResult

theorem ten_pos : 0 < 10 := by decide

/-- A worker whose batches hold two changes, with one partition. -/
def smallWorker (enableReverseIndex : Bool) : IdListSyncWorker where
  config := ⟨enableReverseIndex, 2, 10, 10, Nat.two_pos, ten_pos, ten_pos⟩
  digest _ := 0
  fwdKey _ ver := ver

def smallList : ListId := ⟨"n", "l"⟩

/-- The metadata hash a load task of `md` is queued with. -/
def loadMeta (md : IdListMetadata) : TaskMetaHash :=
  ⟨some .load, some md.url, some md.fileId, some md.creationTime, some md.size⟩

/-- A producer with one key, whose company has the namespace of
`smallList`. -/
def smallProducer (manifest : IdListManifest) : IdListSyncProducer where
  enableReverseIndex := true
  namespaces := ⟨["k"], fun _ => some "c", fun _ => some manifest, fun _ => "n"⟩

/-- The scripted store is one resolution of the store's choices. -/
def scripted (origin : String → List UInt8) : Runner (redis origin) (List Answer) where
  next := scriptedNext origin
  sound := scriptedNext_sound

/-! ## Runs that scan the member keys -/

/-- No other member has tokens. -/
def Db.MembersIn (names : List String) (db : Db) : Prop := ∀ key, db.member key ≠ ∅ → key.2 ∈ names

theorem Db.MembersIn.congr {names : List String} {db db' : Db} (h : db.MembersIn names)
    (hmember : db'.member = db.member) : db'.MembersIn names := by
  intro key hkey
  rw [hmember] at hkey
  exact h key hkey

theorem membersIn_empty (names : List String) : Db.MembersIn names {} :=
  fun _ h => absurd rfl h

def Write.membersIn (names : List String) : Write → Bool
  | .saddMember _ m _ => m ∈ names
  | _ => true

def Cmd.membersIn (names : List String) : Cmd → Bool
  | .write wr => wr.membersIn names
  | .multi wrs => wrs.all (Write.membersIn names)
  | _ => true

theorem membersIn_setMember {names : List String} {db : Db} {skh m : String} {ts : Finset Nat}
    (h : db.MembersIn names) (hm : ts ≠ ∅ → m ∈ names) : (db.setMember skh m ts).MembersIn names := by
  intro key hkey
  rw [Db.setMember_member, Function.update_apply] at hkey
  split at hkey
  · rename_i heq
    rw [heq]
    exact hm hkey
  · exact h key hkey

theorem membersIn_write {names : List String} {wr : Write} {db : Db}
    (hwr : wr.membersIn names = true) (h : db.MembersIn names) : (wr.apply db).MembersIn names := by
  cases wr with
  | saddMember skh m t => exact membersIn_setMember h fun _ => of_decide_eq_true hwr
  | sremMember skh m t =>
    refine membersIn_setMember h fun hne => h (skh, m) ?_
    intro hempty
    simp [hempty] at hne
  | _ => exact h

theorem membersIn_multi {names : List String} (wrs : List Write) {db : Db}
    (hwrs : wrs.all (Write.membersIn names) = true) (h : db.MembersIn names) :
    (wrs.foldl Write.apply db).MembersIn names := by
  induction wrs generalizing db with
  | nil => exact h
  | cons wr wrs ih =>
    rw [List.all_cons, Bool.and_eq_true] at hwrs
    exact ih hwrs.2 (membersIn_write hwrs.1 h)

theorem membersIn_step {names : List String} {origin : String → List UInt8} {db db' : Db} {c : Cmd}
    {r : c.Reply} (hc : c.membersIn names = true) (h : db.MembersIn names)
    (hstep : (redis origin).step db c r db') : db'.MembersIn names := by
  cases c with
  | write wr =>
    obtain rfl : db' = wr.apply db := hstep
    exact membersIn_write hc h
  | multi wrs =>
    obtain rfl : db' = wrs.foldl Write.apply db := hstep
    exact membersIn_multi wrs hc h
  | allocToken id =>
    obtain ⟨_, rfl⟩ := hstep
    exact h
  | zaddNx score id =>
    obtain ⟨_, rfl⟩ := hstep
    exact h
  | zpopmin =>
    obtain ⟨rest, _, rfl⟩ := hstep
    exact h
  | tryAcquire id =>
    obtain rfl : db' = db := hstep
    exact h
  | release id =>
    obtain rfl : db' = db := hstep
    exact h
  | held =>
    obtain rfl : db' = db := hstep
    exact h
  | renew =>
    obtain rfl : db' = db := hstep
    exact h
  | _ =>
    obtain rfl : db' = db := hstep.2
    exact h

/-- The store, on such contents. -/
def redisIn (origin : String → List UInt8) (names : List String) :
    Handler Cmd Cmd.Reply { db : Db // db.MembersIn names } where
  step s c r s' := (redis origin).step s.1 c r s'.1

/-- The script answers a SCAN with pages that hold all the names. -/
def scannedNext (origin : String → List UInt8) (names : List String)
    (s : { db : Db // db.MembersIn names }) :
    (c : Cmd) → List Answer → Option (c.Reply × { db : Db // db.MembersIn names } × List Answer)
  | .scanMembers _, .pages ps :: w => if names ⊆ ps.flatten then some (ps, s, w) else none
  | c, w =>
    if hc : c.membersIn names = true then
      match hnext : scriptedNext origin s.1 c w with
      | some (r, db', w') => some (r, ⟨db', membersIn_step hc s.2 (scriptedNext_sound hnext)⟩, w')
      | none => none
    else none

def scanned (origin : String → List UInt8) (names : List String) :
    Runner (redisIn origin names) (List Answer) where
  next := scannedNext origin names
  sound := by
    intro s c w r s' w' h
    unfold scannedNext at h
    split at h
    · rename_i ps w
      rw [Option.ite_none_right_eq_some] at h
      obtain ⟨hnames, heq⟩ := h
      obtain ⟨rfl, rfl, _⟩ : ps = r ∧ s = s' ∧ w = w' := by simpa using heq
      exact ⟨fun m hm => hnames (s.2 _ hm), rfl⟩
    · split at h
      · split at h
        · rename_i hnext
          obtain ⟨rfl, hs, _⟩ : _ ∧ _ ∧ _ := by simpa using h
          rw [← hs]
          exact scriptedNext_sound hnext
        · simp at h
      · simp at h

/-- The contents after a scripted run. -/
def scannedAfter {α : Type} (origin : String → List UInt8) {names : List String} (n : Nat)
    (p : Redis α) (db : { db : Db // db.MembersIn names }) (w : List Answer) :
    { db : Db // db.MembersIn names } :=
  (scanned origin names).after n p db w

theorem scannedAfter_exec {α : Type} {origin : String → List UInt8} {names : List String} {n : Nat}
    {p : Redis α} {db : { db : Db // db.MembersIn names }} {w : List Answer}
    {o : Outcome WorkerError α}
    (h : ((scanned origin names).run n p db w).map Prod.snd = some o) :
    Exec (redis origin) p db.1 (scannedAfter origin n p db w).1 o := by
  have hval : ∀ (s : { db : Db // db.MembersIn names }) (c : Cmd) (r : c.Reply) s',
      (redisIn origin names).step s c r s' → (redis origin).step s.1 c r s'.1 :=
    fun _ _ _ _ hstep => hstep
  exact Exec.simulate hval ((scanned origin names).after_sound h)

/-! ## A first load -/

/-- One line, which adds `a`. -/
def smallOrigin : String → List UInt8 := fun _ => [43, 97, 10]

/-- The list has a load task. -/
def smallStart : Db := Db.setTaskMeta {} smallList (loadMeta ⟨"F", 1, "u", 3⟩)

/-- The list is loaded. -/
def smallLoaded : Db :=
  (scripted smallOrigin).after 100 ((smallWorker true).runClaimed smallList) smallStart
    [.body ⟨[[43, 97, 10]], none⟩, .pages [["a"]]]

theorem small_load : Exec (redis smallOrigin) ((smallWorker true).runClaimed smallList) smallStart
    smallLoaded (.ok (.completed .fullReload)) :=
  (scripted smallOrigin).after_sound (by decide +kernel)

end ForwardProxy.IdList
