/-
ForwardProxy.IdList.ListView — what the Redis contents say about ONE
list, and the store as that list sees it.

The abstract state of a list is its state hash, its forward sets without
their TTLs, its dictionary token and the set of members that carry the
token. A list without a token is given the one it would be allocated
next, so that an allocation does not change its view.

`listRedis` is the store on views. It covers the commands of `redis`
step by step (`redis_step_view`), so a property of every run of a
program on views is a property of every run on the contents
(`wp_of_view`). The only commands it leaves open are those that change
another list's or this list's dictionary entry.
-/
import Mathlib.Data.Set.Insert
import ForwardProxy.IdList.Redis

namespace ForwardProxy.IdList

open Effect

/-! ## The view -/

structure ListView where
  state : StateHash
  fwd : String → Finset String
  tok : Nat
  tag : Set String

namespace Db

/-- The members of a company whose member set holds a token. -/
def tagged (db : Db) (skh : String) (tok : Nat) : Set String :=
  {m | tok ∈ db.member (skh, m)}

/-- The token of a list, or the one an allocation would give it. -/
def tokenOf (db : Db) (id : ListId) : Nat :=
  ((db.dict id.skh).token id.list).getD ((db.dict id.skh).counter + 1)

def view (db : Db) (id : ListId) : ListView where
  state := db.state id
  fwd ver := (db.fwd id ver).members
  tok := db.tokenOf id
  tag := db.tagged id.skh (db.tokenOf id)

/-- The reverse index of a list: the members whose set holds the list's
token. -/
def tag (db : Db) (id : ListId) : Set String :=
  {m | ∃ t, (db.dict id.skh).token id.list = some t ∧ t ∈ db.member (id.skh, m)}

/-- The committed version tag, `""` when there is none. -/
def version (db : Db) (id : ListId) : String := (db.state id).version.getD ""

/-- The committed forward set, empty when there is none. -/
def committed (db : Db) (id : ListId) : Finset String :=
  if db.version id = "" then ∅ else (db.fwd id (db.version id)).members

end Db

namespace ListView

@[simps -fullyApplied] def setFwd (v : ListView) (ver : String) (s : Finset String) : ListView :=
  { v with fwd := Function.update v.fwd ver s }

@[simps -fullyApplied] def setState (v : ListView) (h : StateHash) : ListView :=
  { v with state := h }

@[simps -fullyApplied] def setTag (v : ListView) (s : Set String) : ListView :=
  { v with tag := s }

/-- What a write does to the view of `id`. -/
def after (id : ListId) (v : ListView) : Write → ListView
  | .saddMember skh m t => if skh = id.skh ∧ t = v.tok then v.setTag (insert m v.tag) else v
  | .sremMember skh m t => if skh = id.skh ∧ t = v.tok then v.setTag (v.tag \ {m}) else v
  | .saddFwd i ver m => if i = id then v.setFwd ver (insert m (v.fwd ver)) else v
  | .sremFwd i ver m => if i = id then v.setFwd ver ((v.fwd ver).erase m) else v
  | .delFwd i ver => if i = id then v.setFwd ver ∅ else v
  | .hsetState i fs => if i = id then v.setState (v.state.setAll fs) else v
  | .hdelState i fs => if i = id then v.setState (v.state.delAll fs) else v
  | .delState i => if i = id then v.setState {} else v
  | _ => v

end ListView

/-- The one write that changes which token a list has. -/
def Write.isHdelDict : Write → Bool
  | .hdelDict _ _ => true
  | _ => false

/-- The store as the list `id` sees it. -/
def listRedis (origin : String → List UInt8) (id : ListId) :
    Handler Cmd Cmd.Reply ListView where
  step v c r v' :=
    match c, r with
    | .write w, _ =>
        if w.isHdelDict then v'.state = v.state ∧ v'.fwd = v.fwd else v' = v.after id w
    | .multi ws, _ => (∀ w ∈ ws, w.isHdelDict = false) → v' = ws.foldl (ListView.after id) v
    | .hgetState i, r => (i = id → r = v.state) ∧ v' = v
    | .existsFwd i ver, r => (i = id → r = decide (v.fwd ver ≠ ∅)) ∧ v' = v
    | .scardFwd i ver, r => (i = id → r = (v.fwd ver).card) ∧ v' = v
    | .sscanFwd i ver, r => (i = id → PagesOf (v.fwd ver) r) ∧ v' = v
    | .scanMembers skh, r => (skh = id.skh → v.tag ⊆ {m | m ∈ r.flatten}) ∧ v' = v
    | .allocToken i, r =>
        if i = id then r = v.tok ∧ v' = v else v'.state = v.state ∧ v'.fwd = v.fwd
    | .getToken i, r => (i = id → ∀ t, r = some t → t = v.tok) ∧ v' = v
    | .fetch url start _, r => Delivers (origin url) start r ∧ v' = v
    | .iterate s, r => (r.Nodup ∧ r.toFinset = s) ∧ v' = v
    | _, _ => v' = v

/-! ## The contents refine the view -/

/-- Two contents that agree on the list's own keys and on its company's
dictionary and member sets have the same view. -/
theorem view_congr {db db' : Db} {id : ListId} (hs : db'.state id = db.state id)
    (hf : ∀ ver, (db'.fwd id ver).members = (db.fwd id ver).members)
    (hd : db'.dict = db.dict) (hm : db'.member = db.member) : db'.view id = db.view id := by
  simp only [Db.view, Db.tokenOf, Db.tagged, hs, hf, hd, hm]

theorem srem_members (f : FwdSet) (m : String) : (f.srem m).members = f.members.erase m := by
  unfold FwdSet.srem
  split
  · rename_i h
    exact h.symm
  · rfl

theorem expire_members (f : FwdSet) : f.expire.members = f.members := by
  unfold FwdSet.expire
  split <;> rfl

theorem expire_ttl (f : FwdSet) (h : f.expire.members ≠ ∅) : f.expire.ttl = true := by
  unfold FwdSet.expire at h ⊢
  split
  · rename_i hempty
    simp [hempty] at h
  · rfl

theorem view_setState (db : Db) (i id : ListId) (h : StateHash) :
    (db.setState i h).view id = if i = id then (db.view id).setState h else db.view id := by
  by_cases hi : i = id
  · subst hi
    simp [Db.view, ListView.setState, Db.setState, Db.tokenOf, Db.tagged]
  · rw [if_neg hi]
    have hne : id ≠ i := fun h => hi h.symm
    exact view_congr (by simp [Function.update_of_ne hne]) (by simp) rfl rfl

theorem view_setFwd (db : Db) (i id : ListId) (ver : String) (f : FwdSet) :
    (db.setFwd i ver f).view id =
      if i = id then (db.view id).setFwd ver f.members else db.view id := by
  by_cases hi : i = id
  · subst hi
    have hfwd : (fun v => ((db.setFwd i ver f).fwd i v).members) =
        Function.update (fun v => (db.fwd i v).members) ver f.members := by
      funext v
      by_cases hv : v = ver
      · subst hv
        simp
      · simp [Function.update_of_ne hv]
    rw [if_pos rfl]
    simp only [Db.view, hfwd]
    rfl
  · rw [if_neg hi]
    have hne : id ≠ i := fun h => hi h.symm
    exact view_congr rfl (by simp [Function.update_of_ne hne]) rfl rfl

/-- Only an update under the list's own token moves its reverse index. -/
theorem view_setMember (db : Db) (id : ListId) (skh m : String) (ts : Finset Nat)
    (add : Bool) (t : Nat) (hne : ∀ t', t' ≠ t → (t' ∈ ts ↔ t' ∈ db.member (skh, m)))
    (ht : t ∈ ts ↔ add = true) :
    (db.setMember skh m ts).view id =
      if skh = id.skh ∧ t = (db.view id).tok then
        (db.view id).setTag (if add then insert m (db.view id).tag else (db.view id).tag \ {m})
      else db.view id := by
  have htag : ∀ m', m' ∈ ((db.setMember skh m ts).view id).tag ↔
      if skh = id.skh ∧ m' = m then (db.view id).tok ∈ ts else m' ∈ (db.view id).tag := by
    intro m'
    have hkey : (id.skh, m') = (skh, m) ↔ skh = id.skh ∧ m' = m := by
      rw [Prod.mk.injEq, eq_comm (a := id.skh)]
    show (db.tokenOf id) ∈ Function.update db.member (skh, m) ts (id.skh, m') ↔ _
    rw [Function.update_apply]
    simp only [hkey]
    split <;> rfl
  have hrest : (db.setMember skh m ts).view id =
      (db.view id).setTag ((db.setMember skh m ts).view id).tag := rfl
  rw [hrest]
  split
  · rename_i h
    obtain ⟨hskh, htok⟩ := h
    congr 1
    ext m'
    rw [htag, ← htok]
    by_cases hm : m' = m
    · subst hm
      cases add <;> simp [hskh, ht]
    · cases add <;> simp [hm]
  · rename_i h
    have hsame : ((db.setMember skh m ts).view id).tag = (db.view id).tag := by
      ext m'
      rw [htag]
      split
      · rename_i hm
        obtain ⟨hskh, rfl⟩ := hm
        have hk : (db.view id).tok ≠ t := fun hk => h ⟨hskh, hk.symm⟩
        rw [hne _ hk, hskh]
        rfl
      · rfl
    rw [hsame]
    rfl

theorem tokenOf_alloc (db : Db) (id : ListId) :
    (db.setDict id.skh ((db.dict id.skh).alloc id.list).2).tokenOf id = db.tokenOf id := by
  unfold Db.tokenOf Dict.alloc
  cases h : (db.dict id.skh).token id.list with
  | some t => simp [h]
  | none => simp

theorem alloc_token (db : Db) (id : ListId) :
    ((db.dict id.skh).alloc id.list).1 = db.tokenOf id := by
  unfold Db.tokenOf Dict.alloc
  cases h : (db.dict id.skh).token id.list with
  | some t => simp
  | none => simp

/-- The index-mode marker of a dictionary is no part of a list's view. -/
theorem view_setDisabled (db : Db) (id : ListId) (skh : String) (b : Bool) :
    (db.setDict skh { db.dict skh with reverseIndexDisabled := b }).view id = db.view id := by
  have htok : (db.setDict skh { db.dict skh with reverseIndexDisabled := b }).tokenOf id =
      db.tokenOf id := by
    unfold Db.tokenOf
    by_cases h : id.skh = skh
    · simp [h]
    · simp [Function.update_of_ne h]
  simp only [Db.view, htok]
  rfl

/-- A write moves the view of every list as `ListView.after` says. -/
theorem view_write (db : Db) (id : ListId) (w : Write) (hw : w.isHdelDict = false) :
    (w.apply db).view id = (db.view id).after id w := by
  cases w with
  | saddMember skh m t =>
    rw [Write.apply, view_setMember db id skh m _ true t]
    · rfl
    · intro t' ht'
      simp [ht']
    · simp
  | sremMember skh m t =>
    rw [Write.apply, view_setMember db id skh m _ false t]
    · rfl
    · intro t' ht'
      simp [ht']
    · simp
  | saddFwd i ver m =>
    rw [Write.apply, view_setFwd, ListView.after]
    split
    · rename_i h
      subst h
      rfl
    · rfl
  | sremFwd i ver m =>
    rw [Write.apply, view_setFwd, ListView.after, srem_members]
    split
    · rename_i h
      subst h
      rfl
    · rfl
  | delFwd i ver => rw [Write.apply, view_setFwd, ListView.after]
  | expireFwd i ver =>
    rw [Write.apply, view_setFwd, expire_members]
    split
    · rename_i h
      subst h
      simp [ListView.setFwd, ListView.after, Db.view]
    · rfl
  | persistFwd i ver =>
    rw [Write.apply, view_setFwd]
    split
    · rename_i h
      subst h
      simp [ListView.setFwd, ListView.after, Db.view, FwdSet.persist]
    · rfl
  | hsetState i fs =>
    rw [Write.apply, view_setState, ListView.after]
    split
    · rename_i h
      subst h
      rfl
    · rfl
  | hdelState i fs =>
    rw [Write.apply, view_setState, ListView.after]
    split
    · rename_i h
      subst h
      rfl
    · rfl
  | delState i => rw [Write.apply, view_setState, ListView.after]
  | hsetDictDisabled skh => exact view_setDisabled db id skh true
  | hdelDictDisabled skh => exact view_setDisabled db id skh false
  | hdelDict i t => simp [Write.isHdelDict] at hw
  | hsetMeta i f => rfl
  | expireMeta i => rfl
  | delMeta i => rfl
  | saddAll i => rfl
  | sremAll i => rfl
  | setReady skh n => rfl
  | delReady skh => rfl

theorem view_writes (id : ListId) :
    ∀ (ws : List Write) (db : Db), (∀ w ∈ ws, w.isHdelDict = false) →
      (ws.foldl Write.apply db).view id = ws.foldl (ListView.after id) (db.view id)
  | [], _, _ => rfl
  | w :: ws, db, h => by
      rw [List.foldl_cons, List.foldl_cons, ← view_write db id w (h w (by simp))]
      exact view_writes id ws (w.apply db) fun w' hw' => h w' (by simp [hw'])

/-- Every step of the store is a step of the list's view. -/
theorem redis_step_view (origin : String → List UInt8) (id : ListId) (db : Db) (c : Cmd)
    (r : c.Reply) (db' : Db) (h : (redis origin).step db c r db') :
    (listRedis origin id).step (db.view id) c r (db'.view id) := by
  cases c with
  | write w =>
    change db' = w.apply db at h
    subst h
    change if w.isHdelDict then _ else _
    split
    · rename_i hw
      cases w with
      | hdelDict i t => exact ⟨rfl, rfl⟩
      | _ => simp [Write.isHdelDict] at hw
    · rename_i hw
      exact view_write db id w (by simpa using hw)
  | multi ws =>
    change db' = ws.foldl Write.apply db at h
    subst h
    exact view_writes id ws db
  | hgetState i =>
    obtain ⟨rfl, rfl⟩ := h
    exact ⟨fun hi => by rw [hi]; rfl, rfl⟩
  | existsFwd i ver =>
    obtain ⟨hr, rfl⟩ := h
    exact ⟨fun hi => by rw [hr, hi]; rfl, rfl⟩
  | scardFwd i ver =>
    obtain ⟨hr, rfl⟩ := h
    exact ⟨fun hi => by rw [hr, hi]; rfl, rfl⟩
  | sscanFwd i ver =>
    obtain ⟨hr, rfl⟩ := h
    exact ⟨fun hi => by rw [hi] at hr; exact hr, rfl⟩
  | scanMembers skh =>
    obtain ⟨hr, rfl⟩ := h
    refine ⟨fun hs m hm => hr m ?_, rfl⟩
    rw [hs]
    exact Finset.ne_empty_of_mem hm
  | allocToken i =>
    obtain ⟨hr, rfl⟩ := h
    change if i = id then _ else _
    split
    · rename_i hi
      subst hi
      refine ⟨hr.trans (alloc_token db i), ?_⟩
      simp only [Db.view, tokenOf_alloc]
      rfl
    · exact ⟨rfl, rfl⟩
  | getToken i =>
    obtain ⟨hr, rfl⟩ := h
    refine ⟨fun hi t ht => ?_, rfl⟩
    subst hi
    rw [ht] at hr
    simp [Db.view, Db.tokenOf, ← hr]
  | zpopmin =>
    obtain ⟨rest, _, rfl⟩ := h
    rfl
  | zaddNx score i =>
    obtain ⟨_, rfl⟩ := h
    rfl
  | fetch url start size =>
    obtain ⟨hr, rfl⟩ := h
    exact ⟨hr, rfl⟩
  | iterate s =>
    obtain ⟨hr, rfl⟩ := h
    exact ⟨hr, rfl⟩
  | hgetallMeta i => exact congrArg (Db.view · id) h.2
  | ttlFwd i ver => exact congrArg (Db.view · id) h.2
  | smembersAll skh => exact congrArg (Db.view · id) h.2
  | zcard => exact congrArg (Db.view · id) h.2
  | tryAcquire i => exact congrArg (Db.view · id) h
  | release i => exact congrArg (Db.view · id) h
  | held => exact congrArg (Db.view · id) h
  | renew => exact congrArg (Db.view · id) h

/-- What holds of every run on views holds of every run on the contents. -/
theorem wp_of_view {origin : String → List UInt8} {id : ListId} {α : Type} {p : Redis α}
    {Q : α → ListView → Prop} {X : ListView → Prop} {db : Db}
    (h : Wp (listRedis origin id) p Q X (db.view id)) :
    Wp (redis origin) p (fun a t => Q a (t.view id)) (fun t => X (t.view id)) db :=
  Wp.simulate (redis_step_view origin id) h

end ForwardProxy.IdList
