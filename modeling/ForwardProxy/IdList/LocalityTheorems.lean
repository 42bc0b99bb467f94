/-
ForwardProxy.IdList.LocalityTheorems — a task touches its own list only.

`Write.LocalTo id tok` are the writes that keep to the list `id`: of the
list's own keys, of its company's flags, and of the reverse index under
the list's own token, once it has one. `Cmd.OfTask` are the commands a
task on the list may send, whose writes are local; every function of the
worker sends only such commands (the `_issues` lemmas; the token
allocation and the final pipeline of a removal are treated apart).

What such commands keep is proved once: the dictionary stays a bijection
whose tokens the counter bounds (`Db.Ok`), and everything that belongs to
another list or another company stays as it was (`Frame`).
-/
import ForwardProxy.IdList.ListViewTheorems

namespace ForwardProxy.IdList

open Effect

/-! ## The dictionary invariant -/

/-- Tokens and names are inverse to each other, and the counter bounds
every token in use, in the dictionary and in the member sets. -/
structure Dict.Ok (d : Dict) (member : String → Finset Nat) : Prop where
  name_of_token : ∀ list t, d.token list = some t → d.name t = some list
  token_of_name : ∀ t list, d.name t = some list → d.token list = some t
  token_le : ∀ list t, d.token list = some t → t ≤ d.counter
  member_le : ∀ m, ∀ t ∈ member m, t ≤ d.counter

def Db.Ok (db : Db) : Prop := ∀ skh, (db.dict skh).Ok fun m => db.member (skh, m)

/-- An allocation keeps the invariant: a new token is larger than all. -/
theorem Dict.Ok.alloc {d : Dict} {member : String → Finset Nat} (h : d.Ok member)
    (list : String) : (d.alloc list).2.Ok member := by
  unfold Dict.alloc
  cases hd : d.token list with
  | some t => exact h
  | none =>
    refine ⟨?_, ?_, ?_, fun m t ht => Nat.le_succ_of_le (h.member_le m t ht)⟩
    · intro l t ht
      simp only [Function.update_apply] at ht ⊢
      split at ht
      · rename_i hl
        obtain rfl := Option.some.inj ht
        rw [if_pos rfl, hl]
      · have hle := h.token_le l t ht
        rw [if_neg (by omega)]
        exact h.name_of_token l t ht
    · intro t l ht
      simp only [Function.update_apply] at ht ⊢
      split at ht
      · rename_i ht'
        obtain rfl := Option.some.inj ht
        rw [if_pos rfl, ht']
      · have hl : l ≠ list := by
          rintro rfl
          have := h.token_of_name t _ ht
          simp [hd] at this
        rw [if_neg hl]
        exact h.token_of_name t l ht
    · intro l t ht
      simp only [Function.update_apply] at ht
      split at ht
      · obtain rfl := Option.some.inj ht
        exact Nat.le_refl _
      · exact Nat.le_succ_of_le (h.token_le l t ht)

/-- Deleting a list's own two fields keeps the invariant. -/
theorem Dict.Ok.hdel {d : Dict} {member : String → Finset Nat} (h : d.Ok member)
    (list : String) : (d.hdel list (d.token list)).Ok member := by
  refine ⟨?_, ?_, ?_, h.member_le⟩
  · intro l t ht
    simp only [Dict.hdel, Function.update_apply] at ht ⊢
    split at ht
    · simp at ht
    · rename_i hl
      have hn := h.name_of_token l t ht
      cases hd : d.token list with
      | none => exact hn
      | some t' =>
        have hne : t ≠ t' := by
          rintro rfl
          have := h.name_of_token _ _ hd
          rw [hn] at this
          exact hl (Option.some.inj this)
        simp only [Function.update_of_ne hne]
        exact hn
  · intro t l ht
    have hn : d.name t = some l ∧ l ≠ list := by
      cases hd : d.token list with
      | none =>
        simp only [Dict.hdel, hd] at ht
        refine ⟨ht, ?_⟩
        rintro rfl
        have := h.token_of_name t _ ht
        simp [hd] at this
      | some t' =>
        simp only [Dict.hdel, hd, Function.update_apply] at ht
        split at ht
        · simp at ht
        · rename_i hne
          refine ⟨ht, ?_⟩
          rintro rfl
          have := h.token_of_name t _ ht
          rw [hd] at this
          exact hne (Option.some.inj this).symm
    simp only [Dict.hdel, Function.update_of_ne hn.2]
    exact h.token_of_name t l hn.1
  · intro l t ht
    simp only [Dict.hdel, Function.update_apply] at ht
    split at ht
    · simp at ht
    · exact h.token_le l t ht

theorem empty_ok : ({} : Db).Ok := fun _ => ⟨by simp, by simp, by simp, by simp⟩

/-- A token that is not in the dictionary yet is in no member set. -/
theorem tagged_tokenOf_none {db : Db} (hok : db.Ok) {id : ListId}
    (h : (db.dict id.skh).token id.list = none) : db.tagged id.skh (db.tokenOf id) = ∅ := by
  ext m
  simp only [Db.tagged, Db.tokenOf, h, Option.getD_none, Set.mem_ofPred_eq,
    Set.mem_empty_iff_false, iff_false]
  intro hm
  have := (hok id.skh).member_le m _ hm
  omega

/-- The view's index is the reverse index of the list. -/
theorem view_tag {db : Db} (hok : db.Ok) (id : ListId) : (db.view id).tag = db.tag id := by
  cases h : (db.dict id.skh).token id.list with
  | none =>
    have hview : (db.view id).tag = ∅ := tagged_tokenOf_none hok h
    rw [hview]
    ext m
    simp [Db.tag, h]
  | some t =>
    have htok : db.tokenOf id = t := by simp [Db.tokenOf, h]
    ext m
    simp [Db.view, Db.tagged, Db.tag, h, htok]

/-! ## The frame -/

/-- Whatever belongs to another list than `id`, or is a member set's entry
of another token than `tok`, is the same in `db'`. -/
structure Frame (id : ListId) (tok : Nat) (db db' : Db) : Prop where
  state : ∀ i, i ≠ id → db'.state i = db.state i
  fwd : ∀ i, i ≠ id → db'.fwd i = db.fwd i
  taskMeta : ∀ i, i ≠ id → db'.taskMeta i = db.taskMeta i
  member : ∀ skh m t, (skh = id.skh → t ≠ tok) →
    (t ∈ db'.member (skh, m) ↔ t ∈ db.member (skh, m))
  dict : ∀ skh, skh ≠ id.skh → db'.dict skh = db.dict skh
  token : ∀ list, list ≠ id.list → (db'.dict id.skh).token list = (db.dict id.skh).token list
  name : ∀ t, t ≠ tok → (db'.dict id.skh).name t = (db.dict id.skh).name t
  all : ∀ skh list, (skh = id.skh → list ≠ id.list) → (list ∈ db'.all skh ↔ list ∈ db.all skh)
  ready : ∀ skh, skh ≠ id.skh → db'.ready skh = db.ready skh
  queue : db'.queue = db.queue

theorem Frame.refl (id : ListId) (tok : Nat) (db : Db) : Frame id tok db db := by
  constructor <;> intros <;> rfl

theorem Frame.trans {id : ListId} {tok : Nat} {a b c : Db} (h : Frame id tok a b)
    (h' : Frame id tok b c) : Frame id tok a c where
  state i hi := (h'.state i hi).trans (h.state i hi)
  fwd i hi := (h'.fwd i hi).trans (h.fwd i hi)
  taskMeta i hi := (h'.taskMeta i hi).trans (h.taskMeta i hi)
  member skh m t ht := (h'.member skh m t ht).trans (h.member skh m t ht)
  dict skh hs := (h'.dict skh hs).trans (h.dict skh hs)
  token list hl := (h'.token list hl).trans (h.token list hl)
  name t ht := (h'.name t ht).trans (h.name t ht)
  all skh list hl := (h'.all skh list hl).trans (h.all skh list hl)
  ready skh hs := (h'.ready skh hs).trans (h.ready skh hs)
  queue := h'.queue.trans h.queue

namespace Frame

variable (id : ListId) (tok : Nat) (db : Db)

theorem setState (h : StateHash) : Frame id tok db (db.setState id h) :=
  { Frame.refl id tok db with
    state := fun i hi => by simp [Function.update_of_ne hi] }

theorem setFwd (ver : String) (f : FwdSet) : Frame id tok db (db.setFwd id ver f) :=
  { Frame.refl id tok db with
    fwd := fun i hi => by simp [Function.update_of_ne hi] }

theorem setTaskMeta (h : TaskMetaHash) : Frame id tok db (db.setTaskMeta id h) :=
  { Frame.refl id tok db with
    taskMeta := fun i hi => by simp [Function.update_of_ne hi] }

theorem setReady (n : Option Nat) : Frame id tok db (db.setReady id.skh n) :=
  { Frame.refl id tok db with
    ready := fun skh hs => by simp [Function.update_of_ne hs] }

theorem setAll (ls : Finset String)
    (h : ∀ list, list ≠ id.list → (list ∈ ls ↔ list ∈ db.all id.skh)) :
    Frame id tok db (db.setAll id.skh ls) :=
  { Frame.refl id tok db with
    all := fun skh list hl => by
      rw [Db.setAll_all, Function.update_apply]
      split
      · rename_i hs
        subst hs
        exact h list (hl rfl)
      · rfl }

theorem setMember (m : String) (ts : Finset Nat)
    (h : ∀ t, t ≠ tok → (t ∈ ts ↔ t ∈ db.member (id.skh, m))) :
    Frame id tok db (db.setMember id.skh m ts) :=
  { Frame.refl id tok db with
    member := fun skh m' t ht => by
      rw [Db.setMember_member, Function.update_apply]
      split
      · rename_i hk
        obtain ⟨rfl, rfl⟩ := Prod.mk.inj hk
        exact h t (ht rfl)
      · rfl }

theorem setDict (d : Dict)
    (htoken : ∀ list, list ≠ id.list → d.token list = (db.dict id.skh).token list)
    (hname : ∀ t, t ≠ tok → d.name t = (db.dict id.skh).name t) :
    Frame id tok db (db.setDict id.skh d) :=
  { Frame.refl id tok db with
    dict := fun skh hs => by simp [Function.update_of_ne hs]
    token := fun list hl => by simpa using htoken list hl
    name := fun t ht => by simpa using hname t ht }

end Frame

/-! ## Local commands -/

/-- The token of a reverse-index write: `none` allows no such write. -/
def Write.LocalTo (id : ListId) (tok : Option Nat) : Write → Prop
  | .saddMember skh _ t | .sremMember skh _ t => skh = id.skh ∧ tok = some t
  | .saddFwd i _ _ | .sremFwd i _ _ | .delFwd i _ | .expireFwd i _ | .persistFwd i _ => i = id
  | .hsetState i _ | .hdelState i _ | .delState i => i = id
  | .hsetMeta i _ | .expireMeta i | .delMeta i => i = id
  | .saddAll i | .sremAll i => i = id
  | .setReady skh _ | .delReady skh => skh = id.skh
  | .hsetDictDisabled skh | .hdelDictDisabled skh => skh = id.skh
  | .hdelDict _ _ => False

/-! ## The commands of a task -/

/-- A field that a task may write at any time; the others name the
committed file, or are the marker of a removal. -/
def StateField.progress : StateField → Bool
  | .version _ | .fileId _ | .url _ | .creationTime _ | .removalFanoutComplete => false
  | _ => true

/-- The writes of a task on `id`, up to the final pipeline of a removal.
`target` is the file it may commit. -/
def Write.OfTask (id : ListId) (target : Option TaskMetadata) (tok : Option Nat) : Write → Prop
  | .saddMember skh _ t | .sremMember skh _ t => skh = id.skh ∧ tok = some t
  | .saddFwd i _ _ | .sremFwd i _ _ | .delFwd i _ | .expireFwd i _ | .persistFwd i _ => i = id
  | .hsetState i fs => i = id ∧ (fs.all StateField.progress = true ∨
      ∃ md size cardinality, target = some md ∧
        fs = [.version md.versionTag, .fileId md.fileId, .url md.url,
          .creationTime md.creationTime, .size size, .cardinality cardinality])
  | .hdelState i _ | .saddAll i => i = id
  | .delReady skh | .hsetDictDisabled skh => skh = id.skh
  | _ => False

def Cmd.OfTask (id : ListId) (target : Option TaskMetadata) (tok : Option Nat) : Cmd → Prop
  | .write w => w.OfTask id target tok
  | .multi ws => ∀ w ∈ ws, w.OfTask id target tok
  | .allocToken _ | .zaddNx _ _ | .zpopmin | .zcard => False
  | _ => True

/-- The commands that bring the reverse index of `id` to a forward set:
reads of sets, renewals, entries under the list's token, and the diff
cursor. -/
def Cmd.Indexes (id : ListId) (token : Nat) : Cmd → Prop
  | .write (.saddMember skh _ t) | .write (.sremMember skh _ t) => skh = id.skh ∧ t = token
  | .write (.hsetState i [.diffPartition _]) => i = id
  | .write _ | .multi _ | .allocToken _ | .getToken _ | .zaddNx _ _ | .zpopmin | .zcard => False
  | _ => True

theorem Cmd.Indexes.ofTask {id : ListId} {target : Option TaskMetadata} {token : Nat} (c : Cmd)
    (h : c.Indexes id token) : c.OfTask id target (some token) := by
  unfold Cmd.Indexes at h
  split at h
  · exact ⟨h.1, congrArg some h.2.symm⟩
  · exact ⟨h.1, congrArg some h.2.symm⟩
  · exact ⟨h, .inl rfl⟩
  · exact h.elim
  · exact h.elim
  · exact h.elim
  · exact h.elim
  · exact h.elim
  · exact h.elim
  · exact h.elim
  · unfold Cmd.OfTask
    split <;> simp_all

theorem Write.OfTask.localTo {id : ListId} {target : Option TaskMetadata} {tok : Option Nat}
    {w : Write} (h : w.OfTask id target tok) : w.LocalTo id tok := by
  cases w <;> first | exact h | exact h.1 | exact h.elim

/-- The state of a run on `id` that started in `db₀`. -/
structure Local (id : ListId) (db₀ : Db) (tok : Option Nat) (db : Db) : Prop where
  ok : db.Ok
  frame : Frame id (db₀.tokenOf id) db₀ db
  tokenOf : db.tokenOf id = db₀.tokenOf id
  token : ∀ t, tok = some t → (db.dict id.skh).token id.list = some t

variable {id : ListId} {tok : Option Nat} {db₀ db : Db}

/-- The invariant is about dictionaries and member sets only. -/
theorem Db.Ok.congr {db' : Db} (h : db.Ok) (hd : db'.dict = db.dict)
    (hm : db'.member = db.member) : db'.Ok := by
  intro skh
  rw [hd, hm]
  exact h skh

theorem Db.Ok.setDict (h : db.Ok) {skh : String} {d : Dict}
    (hd : d.Ok fun m => db.member (skh, m)) : (db.setDict skh d).Ok := by
  intro s
  rw [Db.setDict_dict, Db.setDict_member, Function.update_apply]
  split
  · rename_i hs
    rw [hs]
    exact hd
  · exact h s

/-- The index-mode marker of a dictionary is not in the invariant. -/
theorem Db.Ok.setDisabled (h : db.Ok) (skh : String) (b : Bool) :
    (db.setDict skh { db.dict skh with reverseIndexDisabled := b }).Ok :=
  h.setDict ⟨(h skh).name_of_token, (h skh).token_of_name, (h skh).token_le, (h skh).member_le⟩

theorem Db.Ok.setMember (h : db.Ok) (skh m : String) (ts : Finset Nat)
    (hts : ∀ t ∈ ts, t ≤ (db.dict skh).counter) : (db.setMember skh m ts).Ok := by
  intro s
  refine ⟨(h s).name_of_token, (h s).token_of_name, (h s).token_le, ?_⟩
  intro m' t ht
  simp only [Db.setMember_member, Function.update_apply, Prod.mk.injEq] at ht
  split at ht
  · rename_i hk
    rw [hk.1]
    exact hts t ht
  · exact (h s).member_le m' t ht

/-- Every local write keeps to its list. -/
theorem frame_write {t : Nat} {w : Write} (hw : w.LocalTo id tok) (ht : ∀ t', tok = some t' → t' = t) :
    Frame id t db (w.apply db) := by
  cases w with
  | saddMember skh m t' =>
    obtain ⟨rfl, htok⟩ := hw
    refine Frame.setMember id t db m _ fun t'' hne => ?_
    simp [ht t' htok, hne]
  | sremMember skh m t' =>
    obtain ⟨rfl, htok⟩ := hw
    refine Frame.setMember id t db m _ fun t'' hne => ?_
    simp [ht t' htok, hne]
  | saddFwd i ver m => exact hw ▸ Frame.setFwd id t db ver _
  | sremFwd i ver m => exact hw ▸ Frame.setFwd id t db ver _
  | delFwd i ver => exact hw ▸ Frame.setFwd id t db ver _
  | expireFwd i ver => exact hw ▸ Frame.setFwd id t db ver _
  | persistFwd i ver => exact hw ▸ Frame.setFwd id t db ver _
  | hsetState i fs => exact hw ▸ Frame.setState id t db _
  | hdelState i fs => exact hw ▸ Frame.setState id t db _
  | delState i => exact hw ▸ Frame.setState id t db _
  | hsetMeta i f => exact hw ▸ Frame.setTaskMeta id t db _
  | expireMeta i => exact Frame.refl id t db
  | delMeta i => exact hw ▸ Frame.setTaskMeta id t db _
  | saddAll i =>
    obtain rfl := hw
    exact Frame.setAll _ t db _ fun list hne => by simp [hne]
  | sremAll i =>
    obtain rfl := hw
    exact Frame.setAll _ t db _ fun list hne => by simp [hne]
  | setReady skh n => exact hw ▸ Frame.setReady id t db _
  | delReady skh => exact hw ▸ Frame.setReady id t db _
  | hsetDictDisabled skh =>
    obtain rfl := hw
    exact Frame.setDict id t db _ (fun _ _ => rfl) fun _ _ => rfl
  | hdelDictDisabled skh =>
    obtain rfl := hw
    exact Frame.setDict id t db _ (fun _ _ => rfl) fun _ _ => rfl
  | hdelDict i t' => exact hw.elim

/-- A local write changes no dictionary entry. -/
theorem token_write {w : Write} (hw : w.LocalTo id tok) (skh list : String) :
    ((w.apply db).dict skh).token list = (db.dict skh).token list := by
  cases w with
  | hsetDictDisabled s =>
    simp only [Write.apply, Db.setDict_dict, Function.update_apply]
    split
    · rename_i h
      rw [h]
    · rfl
  | hdelDictDisabled s =>
    simp only [Write.apply, Db.setDict_dict, Function.update_apply]
    split
    · rename_i h
      rw [h]
    · rfl
  | hdelDict i t' => exact hw.elim
  | _ => rfl

theorem tokenOf_write {w : Write} (hw : w.LocalTo id tok) :
    (w.apply db).tokenOf id = db.tokenOf id := by
  have hview := congrArg ListView.tok (view_write db id w (by cases w <;> first | rfl | exact hw.elim))
  have hafter : ((db.view id).after id w).tok = (db.view id).tok := by
    cases w <;> simp only [ListView.after] <;> try split
    all_goals rfl
  exact hview.trans hafter

theorem ok_write {w : Write} (hw : w.LocalTo id tok) (hok : db.Ok)
    (ht : ∀ t, tok = some t → (db.dict id.skh).token id.list = some t) : (w.apply db).Ok := by
  cases w with
  | saddMember skh m t =>
    obtain ⟨rfl, htok⟩ := hw
    refine hok.setMember _ _ _ fun t' ht' => ?_
    rcases Finset.mem_insert.mp ht' with rfl | hmem
    · exact (hok id.skh).token_le id.list _ (ht _ htok)
    · exact (hok id.skh).member_le m t' hmem
  | sremMember skh m t =>
    refine hok.setMember _ _ _ fun t' ht' => ?_
    exact (hok skh).member_le m t' (Finset.mem_of_mem_erase ht')
  | hsetDictDisabled skh => exact hok.setDisabled skh true
  | hdelDictDisabled skh => exact hok.setDisabled skh false
  | hdelDict i t => exact hw.elim
  | _ => exact hok.congr rfl rfl

theorem Local.eq_tokenOf (h : Local id db₀ tok db) {t : Nat} (ht : tok = some t) :
    t = db₀.tokenOf id := by
  rw [← h.tokenOf, Db.tokenOf, h.token t ht, Option.getD_some]

theorem Local.write (h : Local id db₀ tok db) {w : Write} (hw : w.LocalTo id tok) :
    Local id db₀ tok (w.apply db) where
  ok := ok_write hw h.ok h.token
  frame := h.frame.trans (frame_write hw fun _ ht => h.eq_tokenOf ht)
  tokenOf := (tokenOf_write hw).trans h.tokenOf
  token t ht := (token_write hw _ _).trans (h.token t ht)

/-- What a command can do to the contents. -/
theorem redis_step_cases {origin : String → List UInt8} {db db' : Db} {c : Cmd} {r : c.Reply}
    (hstep : (redis origin).step db c r db') :
    (∃ w, c = .write w ∧ db' = w.apply db) ∨
      (∃ ws, c = .multi ws ∧ db' = ws.foldl Write.apply db) ∨
      (∃ i, c = .allocToken i ∧ db' = db.setDict i.skh ((db.dict i.skh).alloc i.list).2) ∨
      (∃ queue, ((∃ score i, c = .zaddNx score i) ∨ c = .zpopmin) ∧ db' = { db with queue }) ∨
      db' = db := by
  cases c with
  | write w => exact .inl ⟨w, rfl, hstep⟩
  | multi ws => exact .inr (.inl ⟨ws, rfl, hstep⟩)
  | allocToken i => exact .inr (.inr (.inl ⟨i, rfl, hstep.2⟩))
  | zaddNx score i => exact .inr (.inr (.inr (.inl ⟨_, .inl ⟨score, i, rfl⟩, hstep.2⟩)))
  | zpopmin =>
    obtain ⟨rest, _, hdb⟩ := hstep
    exact .inr (.inr (.inr (.inl ⟨rest, .inr rfl, hdb⟩)))
  | tryAcquire i => exact .inr (.inr (.inr (.inr hstep)))
  | release i => exact .inr (.inr (.inr (.inr hstep)))
  | held => exact .inr (.inr (.inr (.inr hstep)))
  | renew => exact .inr (.inr (.inr (.inr hstep)))
  | _ => exact .inr (.inr (.inr (.inr hstep.2)))

/-- A command of a task does what some of its writes do; a read does what
none of them does. -/
theorem task_step {origin : String → List UInt8} {target : Option TaskMetadata} {c : Cmd}
    (hc : c.OfTask id target tok) {db : Db} {r : c.Reply} {db' : Db}
    (hstep : (redis origin).step db c r db') :
    ∃ ws : List Write, (∀ w ∈ ws, w.OfTask id target tok) ∧ db' = ws.foldl Write.apply db := by
  rcases redis_step_cases hstep with
    ⟨w, rfl, rfl⟩ | ⟨ws, rfl, rfl⟩ | ⟨i, rfl, _⟩ | ⟨_, ⟨score, i, rfl⟩ | rfl, _⟩ | rfl
  · exact ⟨[w], fun w' hw' => List.mem_singleton.mp hw' ▸ hc, rfl⟩
  · exact ⟨ws, hc, rfl⟩
  · exact hc.elim
  · exact hc.elim
  · exact hc.elim
  · exact ⟨[], by simp, rfl⟩

/-- What every write of a task keeps, each of its commands keeps. -/
theorem task_keeps {origin : String → List UInt8} {target : Option TaskMetadata} {I : Db → Prop}
    (hI : ∀ {w : Write} {db : Db}, w.OfTask id target tok → I db → I (w.apply db)) {c : Cmd}
    (hc : c.OfTask id target tok) (db : Db) (r : c.Reply) (db' : Db) (h : I db)
    (hstep : (redis origin).step db c r db') : I db' := by
  obtain ⟨ws, hws, rfl⟩ := task_step hc hstep
  exact List.foldlRecOn ws Write.apply h fun _ hdb w hw => hI (hws w hw) hdb

theorem Local.step {origin : String → List UInt8} {target : Option TaskMetadata} {c : Cmd}
    (hc : c.OfTask id target tok) (db : Db) (r : c.Reply) (db' : Db) (h : Local id db₀ tok db)
    (hstep : (redis origin).step db c r db') : Local id db₀ tok db' :=
  task_keeps (fun hw h => h.write hw.localTo) hc db r db' h hstep

/-- The allocation of the list's own token. -/
theorem Local.alloc (h : Local id db₀ none db) :
    Local id db₀ (some (db₀.tokenOf id))
      (db.setDict id.skh ((db.dict id.skh).alloc id.list).2) := by
  have hkeep := (tokenOf_alloc db id).trans h.tokenOf
  have hok := h.ok.setDict ((h.ok id.skh).alloc id.list)
  have hframe : Frame id (db₀.tokenOf id) db
      (db.setDict id.skh ((db.dict id.skh).alloc id.list).2) := by
    rw [← h.tokenOf]
    refine Frame.setDict id _ db _ ?_ ?_
    · intro list hl
      unfold Dict.alloc
      split
      · rfl
      · exact Function.update_of_ne hl _ _
    · intro t ht
      unfold Dict.alloc
      split
      · rfl
      · rename_i hd
        have hnew : t ≠ (db.dict id.skh).counter + 1 := by
          simpa [Db.tokenOf, hd] using ht
        exact Function.update_of_ne hnew _ _
  refine ⟨hok, h.frame.trans hframe, hkeep, ?_⟩
  intro t ht
  obtain rfl := Option.some.inj ht
  rw [← h.tokenOf]
  unfold Db.tokenOf Dict.alloc
  cases hd : (db.dict id.skh).token id.list <;> simp [hd]

/-- The dictionary clean-up of a removal. -/
theorem Local.hdelDict (h : Local id db₀ ((db.dict id.skh).token id.list) db) :
    ((Write.hdelDict id ((db.dict id.skh).token id.list)).apply db).Ok ∧
      Frame id (db₀.tokenOf id) db₀
        ((Write.hdelDict id ((db.dict id.skh).token id.list)).apply db) := by
  refine ⟨h.ok.setDict ((h.ok id.skh).hdel id.list), h.frame.trans ?_⟩
  refine Frame.setDict id _ db _ (fun list hl => Function.update_of_ne hl _ _) ?_
  intro t ht
  unfold Dict.hdel
  cases hd : (db.dict id.skh).token id.list with
  | none => rfl
  | some t' =>
    rw [hd] at h
    rw [← h.eq_tokenOf rfl] at ht
    exact Function.update_of_ne ht _ _

end ForwardProxy.IdList
