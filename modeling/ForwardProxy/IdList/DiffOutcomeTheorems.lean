/-
ForwardProxy.IdList.DiffOutcomeTheorems — the partitioned diff is the set
difference.

`StreamedDiffTheorems` says what a diff that returns has done to the
index. Here the diff does return, when nothing disturbs it: the claim is
held throughout (`heldRedis`) and every scan is complete. The checks on
the way then pass, because no command of the diff touches a forward set,
and the counts of the partitions add up to the cardinality of the old
set (`sum_partitions`).

With scans that are not complete (`anyScanRedis`) the same count is what
fails: it never exceeds the number of members the scans have returned.
-/
import Mathlib.Algebra.GroupWithZero.Nat
import Mathlib.Algebra.Order.BigOperators.Group.List
import Mathlib.Algebra.Order.Group.Nat
import ForwardProxy.Effect.Recording
import ForwardProxy.Effect.Returns
import ForwardProxy.IdList.Script
import ForwardProxy.IdList.TaskLocalityTheorems
import ForwardProxy.IdList.StreamedDiffTheorems

namespace ForwardProxy.IdList

open Effect

/-! ## Two stores -/

/-- A renewal finds the claim. -/
def Cmd.FindsClaim : (c : Cmd) → c.Reply → Prop
  | .held, r => r = true
  | .renew, r => r = true
  | _, _ => True

/-- The store while the claim is held. -/
def heldRedis (origin : String → List UInt8) : Handler Cmd Cmd.Reply Db where
  step db c r db' := (redis origin).step db c r db' ∧ c.FindsClaim r

/-- The store when a scan may answer with any pages. -/
def anyScanRedis (origin : String → List UInt8) : Handler Cmd Cmd.Reply Db where
  step db c r db' :=
    match c, r with
    | .sscanFwd _ _, _ => db' = db
    | c, r => (redis origin).step db c r db'

/-- The members in the reply to a scan of one forward set. -/
def Cmd.scanned (id : ListId) (ver : String) : (c : Cmd) → c.Reply → Finset String
  | .sscanFwd i v, pages => if i = id ∧ v = ver then pages.flatten.toFinset else ∅
  | _, _ => ∅

/-! ## The commands of a diff -/

variable {origin : String → List UInt8} {id : ListId} {token : Nat} {db db' : Db}

/-- The two kinds of writes. -/
theorem indexes_write {w : Write} (hw : (Cmd.write w).Indexes id token) :
    (∃ add m, w = IdListSyncWorker.memberWrite id.skh token add m) ∨
      ∃ n, w = .hsetState id [.diffPartition n] := by
  unfold Cmd.Indexes at hw
  split at hw
  · rename_i skh m t heq
    obtain ⟨rfl, rfl⟩ := hw
    exact .inl ⟨true, m, Cmd.write.inj heq⟩
  · rename_i skh m t heq
    obtain ⟨rfl, rfl⟩ := hw
    exact .inl ⟨false, m, Cmd.write.inj heq⟩
  · rename_i i n heq
    obtain rfl := hw
    exact .inr ⟨n, Cmd.write.inj heq⟩
  all_goals simp_all

/-- A command is one of these writes or changes nothing. -/
theorem indexes_step {c : Cmd} (hc : c.Indexes id token) {r : c.Reply}
    (hstep : (redis origin).step db c r db') :
    db' = db ∨ ∃ w, (Cmd.write w).Indexes id token ∧ db' = w.apply db := by
  rcases redis_step_cases hstep with
    ⟨w, rfl, rfl⟩ | ⟨ws, rfl, _⟩ | ⟨i, rfl, _⟩ | ⟨_, ⟨score, i, rfl⟩ | rfl, _⟩ | hsame
  · exact .inr ⟨w, hc, rfl⟩
  · exact hc.elim
  · exact hc.elim
  · exact hc.elim
  · exact hc.elim
  · exact .inl hsame

/-! ## What a diff leaves alone -/

/-- Nothing differs but the entries of one token in the member sets of the
list's company, and the diff cursor of the list. -/
structure IndexFrame (id : ListId) (token : Nat) (db db' : Db) : Prop where
  member : ∀ skh m t, ¬ (skh = id.skh ∧ t = token) →
    (t ∈ db'.member (skh, m) ↔ t ∈ db.member (skh, m))
  state : ∀ i, i ≠ id → db'.state i = db.state i
  cursor : db'.state id =
    { db.state id with diffPartition := (db'.state id).diffPartition }
  fwd : db'.fwd = db.fwd
  dict : db'.dict = db.dict
  taskMeta : db'.taskMeta = db.taskMeta
  all : db'.all = db.all
  ready : db'.ready = db.ready
  queue : db'.queue = db.queue

namespace IndexFrame

theorem refl (id : ListId) (token : Nat) (db : Db) : IndexFrame id token db db :=
  ⟨fun _ _ _ _ => Iff.rfl, fun _ _ => rfl, rfl, rfl, rfl, rfl, rfl, rfl, rfl⟩

theorem setMember (h : IndexFrame id token db db') (m : String) {ts : Finset Nat}
    (hts : ∀ t, t ≠ token → (t ∈ ts ↔ t ∈ db'.member (id.skh, m))) :
    IndexFrame id token db (db'.setMember id.skh m ts) := by
  refine ⟨?_, h.state, h.cursor, h.fwd, h.dict, h.taskMeta, h.all, h.ready, h.queue⟩
  intro skh m' t ht
  rw [← h.member skh m' t ht, Db.setMember_member, Function.update_apply]
  split
  · rename_i hk
    obtain ⟨rfl, rfl⟩ := Prod.mk.inj hk
    exact hts t fun heq => ht ⟨rfl, heq⟩
  · rfl

theorem setCursor (h : IndexFrame id token db db') (n : Nat) :
    IndexFrame id token db
      (db'.setState id ((db'.state id).setAll [.diffPartition n])) := by
  refine ⟨h.member, ?_, ?_, h.fwd, h.dict, h.taskMeta, h.all, h.ready, h.queue⟩
  · intro i hi
    rw [Db.setState_state, Function.update_of_ne hi]
    exact h.state i hi
  · rw [Db.setState_state, Function.update_self]
    show { db'.state id with diffPartition := some n } = _
    rw [h.cursor]
    rfl

theorem write {w : Write} (hw : (Cmd.write w).Indexes id token)
    (h : IndexFrame id token db db') : IndexFrame id token db (w.apply db') := by
  rcases indexes_write hw with ⟨add, m, rfl⟩ | ⟨n, rfl⟩
  · cases add with
    | true => exact h.setMember m fun t ht => by simp [ht]
    | false => exact h.setMember m fun t ht => by simp [ht]
  · exact h.setCursor n

end IndexFrame

theorem keeps_indexFrame {α : Type} {p : Redis α} (hp : p.Issues (Cmd.Indexes id token)) (db : Db) :
    Keeps (heldRedis origin) (IndexFrame id token db) p := by
  refine hp.keeps ?_
  intro c hc s r s' h hstep
  rcases indexes_step hc hstep.1 with rfl | ⟨w, hw, rfl⟩
  · exact h
  · exact h.write hw

/-! ## The view under any token -/

/-- The contents in which the list has the token `token`. -/
def Db.withToken (db : Db) (id : ListId) (token : Nat) : Db :=
  db.setDict id.skh
    { db.dict id.skh with token := Function.update (db.dict id.skh).token id.list (some token) }

theorem withToken_tok : (db.withToken id token).tokenOf id = token := by
  simp [Db.withToken, Db.tokenOf]

theorem withToken_tag : ((db.withToken id token).view id).tag = db.tagged id.skh token := by
  show (db.withToken id token).tagged id.skh ((db.withToken id token).tokenOf id) = _
  rw [withToken_tok]
  rfl

/-- The diff does not look at the dictionary, so it does the same whatever
token the list has. -/
theorem withToken_step {c : Cmd} (hc : c.Indexes id token) {r : c.Reply}
    (hstep : (redis origin).step db c r db') :
    (redis origin).step (db.withToken id token) c r (db'.withToken id token) := by
  cases c with
  | write w =>
    obtain rfl : db' = w.apply db := hstep
    rcases indexes_write hc with ⟨add, m, rfl⟩ | ⟨n, rfl⟩
    · cases add <;> rfl
    · rfl
  | multi ws => exact hc.elim
  | allocToken i => exact hc.elim
  | getToken i => exact hc.elim
  | zaddNx score i => exact hc.elim
  | zpopmin => exact hc.elim
  | tryAcquire i => exact congrArg (Db.withToken · id token) hstep
  | release i => exact congrArg (Db.withToken · id token) hstep
  | held => exact congrArg (Db.withToken · id token) hstep
  | renew => exact congrArg (Db.withToken · id token) hstep
  | _ => exact ⟨hstep.1, congrArg (Db.withToken · id token) hstep.2⟩

/-- What holds of every run on views holds of a diff under any token. -/
theorem wp_of_withToken {α : Type} {p : Redis α} {Q : α → ListView → Prop}
    (hp : p.Issues (Cmd.Indexes id token))
    (h : Wp (listRedis origin id) p Q (fun _ => True) ((db.withToken id token).view id)) :
    Wp (heldRedis origin) p (fun a t => Q a ((t.withToken id token).view id)) (fun _ => True)
      db := by
  intro db' o he
  have hview : ∀ c : Cmd, c.Indexes id token → ∀ s r s', (heldRedis origin).step s c r s' →
      (listRedis origin id).step ((s.withToken id token).view id) c r
        ((s'.withToken id token).view id) := by
    intro c hc s r s' hstep
    exact redis_step_view origin id _ c r _ (withToken_step hc hstep.1)
  exact h _ o (hp.simulate hview he)

namespace IdListSyncWorker

variable (w : IdListSyncWorker) {ver : String} {card part partitions : Nat}

/-! ## Every check passes -/

theorem returns_write {wr : Write} {Q : Unit → Db → Prop} (h : Q () (wr.apply db)) :
    Returns (heldRedis origin) (write wr) Q db := by
  refine ⟨⟨(), wr.apply db, rfl, trivial⟩, ?_⟩
  intro r s' hstep
  obtain rfl : s' = wr.apply db := hstep.1
  exact h

theorem returns_renewNow : Returns (heldRedis origin) renewNow (fun _ t => t = db) db := by
  have hheld : Returns (heldRedis origin) ensureHeld (fun _ t => t = db) db := by
    refine .cmdBind ⟨true, db, rfl, rfl⟩ ?_
    intro r s' hstep
    obtain ⟨hs', hr⟩ := hstep
    exact .ite (fun _ => hs') fun hr' => absurd hr hr'
  refine .seq hheld ?_
  intro _ t ht
  subst ht
  refine .cmdBind ⟨true, t, rfl, rfl⟩ ?_
  intro r s' hstep
  obtain ⟨hs', hr⟩ := hstep
  exact .ite (fun _ => hs') fun hr' => absurd hr hr'

theorem returns_foldPages {σ : Type} {body : σ → List String → Redis σ}
    {I : List String → σ → Db → Prop}
    (hbody : ∀ done acc page t, I done acc t →
      Returns (heldRedis origin) (body acc page) (I (done ++ page)) t) :
    ∀ (pages : List (List String)) (n : Nat) (done : List String) (acc : σ) (t : Db),
      I done acc t →
      Returns (heldRedis origin) (foldPages body acc n pages) (I (done ++ pages.flatten)) t
  | [], n, done, acc, t, h => by
      rw [List.flatten_nil, List.append_nil]
      exact h
  | page :: pages, n, done, acc, t, h => by
      refine .seq (hbody done acc page t h) ?_
      intro acc' t' ht'
      refine .seq (P := fun _ t'' => t'' = t') (.when (fun _ => returns_renewNow) rfl) ?_
      intro _ t'' heq
      subst heq
      have hrest := returns_foldPages hbody pages (n + 1) (done ++ page) acc' t'' ht'
      rwa [List.append_assoc, ← List.flatten_cons] at hrest

theorem returns_keyExists {f : Bool → Redis Unit} {Q : Unit → Db → Prop}
    (h : Returns (heldRedis origin) (f (decide ((db.fwd id ver).members ≠ ∅))) Q db) :
    Returns (heldRedis origin) (keyExists id ver >>= f) Q db := by
  refine .cmdBind ⟨_, db, ⟨rfl, rfl⟩, trivial⟩ ?_
  intro r s' hstep
  obtain ⟨⟨rfl, rfl⟩, _⟩ := hstep
  exact h

theorem returns_sscan {α : Type} {f : List (List String) → Redis α} {Q : α → Db → Prop}
    (h : ∀ pages, PagesOf (db.fwd id ver).members pages →
      Returns (heldRedis origin) (f pages) Q db) :
    Returns (heldRedis origin) (sscan id ver >>= f) Q db := by
  refine .cmdBind ⟨[(db.fwd id ver).members.toList], db, ⟨?_, rfl⟩, trivial⟩ ?_
  · simp [PagesOf]
  · intro r s' hstep
    obtain ⟨⟨hr, rfl⟩, _⟩ := hstep
    exact h r hr

/-- A set of the expected size exists if anything is expected. -/
theorem returns_keyCheck (hcard : card = (db.fwd id ver).members.card) (e : WorkerError) :
    Returns (heldRedis origin)
      (if 0 < card then do
        let ok ← keyExists id ver
        if ok then pure () else .throw e
      else pure ()) (fun _ t => t = db) db := by
  refine .ite (fun hpos => returns_keyExists ?_) fun _ => rfl
  have hne : (db.fwd id ver).members ≠ ∅ := by
    intro heq
    rw [hcard, heq] at hpos
    exact absurd hpos (by simp)
  exact .ite (fun _ => rfl) fun hno => absurd hne (by simpa using hno)

theorem returns_verifyScanKeyBefore (hcard : card = (db.fwd id ver).members.card) :
    Returns (heldRedis origin) (w.verifyScanKeyBefore id ver card) (fun _ t => t = db) db :=
  returns_keyCheck hcard _

/-- A complete scan returns at least as many elements as the set has. -/
theorem returns_verifyScanComplete (hcard : card = (db.fwd id ver).members.card)
    {pages : List (List String)} (hpages : PagesOf (db.fwd id ver).members pages) :
    Returns (heldRedis origin) (w.verifyScanComplete id ver card pages.flatten.length)
      (fun _ t => t = db) db := by
  have hle : card ≤ pages.flatten.length := by
    rw [hcard, ← hpages]
    exact List.toFinset_card_le _
  refine .ite (fun hlt => absurd hlt (Nat.not_lt.mpr hle)) fun _ => ?_
  exact returns_keyCheck hcard _

theorem returns_fanoutMembers {fwd : ListId → String → FwdSet} (members : List String) (add : Bool)
    (h : db.fwd = fwd) :
    Returns (heldRedis origin) (w.fanoutMembers id.skh members token add)
      (fun _ t => t.fwd = fwd) db := by
  rw [fanoutMembers_eq]
  refine Returns.forEach (I := fun t => t.fwd = fwd) ?_ members db h
  intro m t ht
  refine returns_write ?_
  cases add <;> exact ht

theorem returns_fanoutScan (hcard : card = (db.fwd id ver).members.card) (add : Bool) :
    Returns (heldRedis origin) (w.fanoutScan id ver token add card)
      (fun _ t => t.fwd = db.fwd) db := by
  refine .seq (w.returns_verifyScanKeyBefore hcard) ?_
  intro _ t ht
  subst ht
  refine returns_sscan fun pages hpages => ?_
  refine .seq (returns_foldPages (I := fun _ _ t' => t'.fwd = t.fwd)
    (fun _ _ page t' ht' => w.returns_fanoutMembers page add ht') pages 0 [] () t rfl) ?_
  intro _ t' ht'
  rw [← ht'] at hcard hpages
  refine (w.returns_verifyScanComplete hcard hpages).mono ?_
  intro _ t'' heq
  rw [heq, ht']

/-- The members of one partition. -/
theorem returns_scanPartition (hcard : card = (db.fwd id ver).members.card) :
    Returns (heldRedis origin) (w.scanPartition id ver card part partitions)
      (fun members t => members = (db.fwd id ver).members.filter
        (fun m => w.partOf partitions m = part) ∧ t = db) db := by
  refine .seq (w.returns_verifyScanKeyBefore hcard) ?_
  intro _ t ht
  subst ht
  refine returns_sscan fun pages hpages => ?_
  refine .seq (returns_foldPages
    (I := fun done members t' => members = (done.toFinset.filter
      fun m => w.partOf partitions m = part) ∧ t' = t) ?_ pages 0 [] ∅ t ⟨rfl, rfl⟩) ?_
  · intro done members page t' ht'
    obtain ⟨rfl, rfl⟩ := ht'
    refine ⟨?_, rfl⟩
    ext m
    simp only [List.toFinset_append, Finset.filter_union, Finset.mem_union, List.mem_toFinset,
      List.mem_filter, Finset.mem_filter, decide_eq_true_eq]
    exact Iff.rfl
  · intro members t' ht'
    obtain ⟨rfl, rfl⟩ := ht'
    refine .seq (w.returns_verifyScanComplete hcard hpages) ?_
    intro _ t'' heq
    rw [List.nil_append, hpages]
    exact ⟨rfl, heq⟩

theorem returns_drainMember {fwd : ListId → String → FwdSet} (acc : Finset String × List String)
    (m : String) (h : db.fwd = fwd) :
    Returns (heldRedis origin) (w.drainMember id.skh token part partitions acc m)
      (fun _ t => t.fwd = fwd) db := by
  refine .ite (fun _ => h) fun _ => .ite (fun _ => h) fun _ => .ite (fun _ => ?_) fun _ => h
  exact .seq (w.returns_fanoutMembers _ true h) fun _ _ ht => ht

theorem returns_diffPartition {oldVer newVer : String} {oldCard newCard : Nat}
    (hold : oldCard = (db.fwd id oldVer).members.card)
    (hnew : newCard = (db.fwd id newVer).members.card) :
    Returns (heldRedis origin)
      (w.diffPartition id oldVer newVer token oldCard newCard partitions part)
      (fun n t => n = ((db.fwd id oldVer).members.filter
        fun m => w.partOf partitions m = part).card ∧ t.fwd = db.fwd) db := by
  refine .seq (w.returns_scanPartition hold) ?_
  intro existing t ht
  obtain ⟨rfl, rfl⟩ := ht
  refine .seq (w.returns_verifyScanKeyBefore hnew) ?_
  intro _ t' heq
  subst heq
  refine returns_sscan fun pages hpages => ?_
  refine .seq (returns_foldPages (I := fun _ _ t => t.fwd = t'.fwd) ?_ pages 0 [] _ t' rfl) ?_
  · intro done acc page t ht
    refine (Returns.fold (I := fun _ _ t => t.fwd = t'.fwd) ?_ page [] acc t ht)
    intro _ acc m t ht
    exact w.returns_drainMember acc m ht
  intro acc t ht
  rw [← ht] at hnew hpages
  refine .seq (w.returns_verifyScanComplete hnew hpages) ?_
  intro _ t₁ heq
  subst heq
  refine .seq (P := fun _ t => t.fwd = t'.fwd)
    (.when (fun _ => w.returns_fanoutMembers _ true ht) ht) ?_
  intro _ t₂ ht₂
  refine .cmdBind ⟨acc.1.toList, t₂, ⟨⟨Finset.nodup_toList _, by simp⟩, rfl⟩, trivial⟩ ?_
  intro removals t₃ hstep
  obtain ⟨⟨_, rfl⟩, _⟩ := hstep
  refine .seq (Returns.forEach (I := fun t => t.fwd = t'.fwd)
    (fun chunk t ht => w.returns_fanoutMembers chunk false ht) _ t₃ ht₂) ?_
  intro _ t₄ ht₄
  refine .seq (returns_write (Q := fun _ t => t.fwd = t'.fwd) ht₄) ?_
  intro _ t₅ ht₅
  refine .seq returns_renewNow ?_
  intro _ t₆ heq
  subst heq
  exact ⟨rfl, ht₅⟩

/-! ## The counts -/

/-- How many members of `s` lie in a partition. -/
def countIn (s : Finset String) (partitions part : Nat) : Nat :=
  (s.filter fun m => w.partOf partitions m = part).card

theorem sum_countIn (s : Finset String) (partitions k : Nat) :
    ((List.range k).map (w.countIn s partitions)).sum =
      (s.filter fun m => w.partOf partitions m < k).card := by
  induction k with
  | zero => simp
  | succ k ih =>
    have hsplit : s.filter (fun m => w.partOf partitions m < k + 1) =
        s.filter (fun m => w.partOf partitions m < k) ∪
          s.filter (fun m => w.partOf partitions m = k) := by
      rw [← Finset.filter_or]
      refine Finset.filter_congr fun m _ => ?_
      omega
    have hdisj : Disjoint (s.filter fun m => w.partOf partitions m < k)
        (s.filter fun m => w.partOf partitions m = k) := by
      refine Finset.disjoint_filter.mpr fun m _ hlt => ?_
      omega
    rw [List.range_succ, List.map_append, List.sum_append, ih, hsplit,
      Finset.card_union_of_disjoint hdisj]
    simp [countIn]

/-- The partitions of the plan hold every member once. -/
theorem sum_countIn_all (s : Finset String) {partitions : Nat} (h : 0 < partitions) :
    ((List.range partitions).map (w.countIn s partitions)).sum = s.card := by
  rw [sum_countIn, Finset.filter_true_of_mem fun m _ => w.partOf_lt h m]

/-- A loop over partitions that counts the old members of each. -/
theorem returns_counts {f : Nat → Nat → Redis Nat} (count : Nat → Nat)
    (fwd : ListId → String → FwdSet)
    (hf : ∀ total part t, t.fwd = fwd →
      Returns (heldRedis origin) (f total part)
        (fun n t' => n = total + count part ∧ t'.fwd = fwd) t)
    (parts : List Nat) (start : Nat) {t : Db} (ht : t.fwd = fwd) :
    Returns (heldRedis origin) (Prog.fold f start parts)
      (fun n t' => n = start + (parts.map count).sum ∧ t'.fwd = fwd) t := by
  refine Returns.fold (I := fun done n t' => n = start + (done.map count).sum ∧ t'.fwd = fwd)
    ?_ parts [] start t ⟨rfl, ht⟩
  intro done n part t' ht'
  refine (hf n part t' ht'.2).mono ?_
  intro n' t'' ht''
  refine ⟨?_, ht''.2⟩
  rw [ht''.1, ht'.1]
  simp [Nat.add_assoc]

theorem range_append_range' {j k : Nat} (h : j ≤ k) :
    List.range j ++ List.range' j (k - j) = List.range k := by
  rw [List.range_eq_range', List.range_eq_range']
  simpa [h] using @List.range'_append_1 0 j (k - j)

/-- The diff from any cursor on returns. -/
theorem returns_applyStreamedDiff {oldVer : Option String} {newVer : String} {resume : Nat}
    {old new : Finset String} (hold : old = oldVer.elim ∅ fun ver => (db.fwd id ver).members)
    (hnew : new = (db.fwd id newVer).members)
    (hresume : resume ≤ w.partitionCount old.card new.card) :
    Returns (heldRedis origin)
      (w.applyStreamedDiff id oldVer newVer token resume old.card new.card)
      (fun _ _ => True) db := by
  refine .ite (fun _ => ?_) fun hzero => ?_
  · exact (w.returns_fanoutScan (congrArg Finset.card hnew) true).mono fun _ _ _ => trivial
  cases oldVer with
  | none => exact absurd (congrArg Finset.card hold) hzero
  | some oldVer =>
    obtain rfl : old = (db.fwd id oldVer).members := hold
    refine .ite (fun hlt => absurd hlt (Nat.not_lt.mpr hresume)) fun _ => ?_
    have hpos := w.partitionCount_pos (db.fwd id oldVer).members.card new.card
    generalize w.partitionCount (db.fwd id oldVer).members.card new.card = partitions
      at hresume hpos ⊢
    refine .seq (returns_counts (w.countIn (db.fwd id oldVer).members partitions) db.fwd ?_
      (List.range resume) 0 rfl) ?_
    · intro total part t ht
      refine .seq (w.returns_scanPartition (by rw [ht])) ?_
      intro members t' ht'
      obtain ⟨rfl, rfl⟩ := ht'
      rw [ht]
      exact ⟨rfl, ht⟩
    intro verified t ht
    refine .seq (returns_counts (w.countIn (db.fwd id oldVer).members partitions) db.fwd ?_
      (List.range' resume (partitions - resume)) verified ht.2) ?_
    · intro total part t ht
      refine .seq (w.returns_diffPartition (by rw [ht]) (by rw [ht, hnew])) ?_
      intro n t' ht'
      obtain ⟨rfl, ht'⟩ := ht'
      rw [ht]
      exact ⟨rfl, ht'.trans ht⟩
    intro total t' ht'
    have htotal : total = (db.fwd id oldVer).members.card := by
      rw [ht'.1, ht.1, Nat.zero_add, ← List.sum_append, ← List.map_append,
        range_append_range' hresume, w.sum_countIn_all _ hpos]
    exact .ite (fun hne => absurd htotal hne) fun _ => trivial

/-! ## Scans that are not complete -/

section

variable {S : Type} {H : Handler Cmd Cmd.Reply S} {s : S × Finset String}

theorem countIn_mono {a b : Finset String} (h : a ⊆ b) (partitions part : Nat) :
    w.countIn a partitions part ≤ w.countIn b partitions part :=
  Finset.card_le_card (Finset.filter_subset_filter _ h)

/-- What a scan collects of a partition comes from its pages. -/
theorem wp_foldPages_filter {T : Type} {H : Handler Cmd Cmd.Reply T} :
    ∀ (pages : List (List String)) (n : Nat) (acc : Finset String) (s : T),
      Wp H (foldPages (fun acc page => pure (acc ∪
          (page.filter fun m => partitionFor w.digest m partitions = part).toFinset)) acc n pages)
        (fun members _ => ∀ m ∈ members,
          m ∈ acc ∨ m ∈ pages.flatten ∧ w.partOf partitions m = part) (fun _ => True) s
  | [], n, acc, s => .pure trivial fun m hm => .inl hm
  | page :: pages, n, acc, s => by
      refine Wp.seq (P := fun acc' _ => acc' = acc ∪
        (page.filter fun m => partitionFor w.digest m partitions = part).toFinset)
        (.pure trivial rfl) ?_
      intro acc' s₁ hacc
      refine Wp.seq Wp.top ?_
      intro _ s₂ _
      refine (wp_foldPages_filter pages (n + 1) acc' s₂).mono ?_ fun _ _ => trivial
      intro members _ h m hm
      rcases h m hm with hm | ⟨hm, hpart⟩
      · rw [hacc, Finset.mem_union, List.mem_toFinset, List.mem_filter] at hm
        refine hm.imp_right fun hpage => ⟨?_, of_decide_eq_true hpage.2⟩
        simp [hpage.1]
      · exact .inr ⟨by simp [hm], hpart⟩

/-- The count of a partition is at most that of the members returned so
far. -/
theorem wp_scanPartition_seen :
    Wp (H.gathering (Cmd.scanned id ver)) (w.scanPartition id ver card part partitions)
      (fun members t => members.card ≤ w.countIn t.2 partitions part ∧ s.2 ⊆ t.2)
      (fun _ => True) s := by
  refine Wp.seq (Wp.top.gathering (subset_refl s.2)) ?_
  intro _ t ht
  refine Wp.cmdBind trivial ?_
  intro pages t' hstep
  have hpages : t'.2 = t.2 ∪ pages.flatten.toFinset := by
    simpa [Cmd.scanned] using hstep.2
  have hsub : s.2 ∪ pages.flatten.toFinset ⊆ t'.2 := by
    rw [hpages]
    exact Finset.union_subset_union_left ht.2
  refine Wp.seq ((w.wp_foldPages_filter pages 0 ∅ t').gathering hsub) ?_
  intro members t₁ ht₁
  refine Wp.seq (Wp.top.gathering ht₁.2) ?_
  intro _ t₂ ht₂
  refine .pure trivial ⟨Finset.card_le_card ?_, Finset.union_subset_left ht₂.2⟩
  intro m hm
  obtain ⟨hpage, hpart⟩ := (ht₁.1 m hm).resolve_left (Finset.notMem_empty m)
  exact Finset.mem_filter.mpr
    ⟨ht₂.2 (Finset.mem_union_right _ (List.mem_toFinset.mpr hpage)), hpart⟩

theorem wp_diffPartition_seen {newVer : String} {newCard : Nat} :
    Wp (H.gathering (Cmd.scanned id ver))
      (w.diffPartition id ver newVer token card newCard partitions part)
      (fun n t => n ≤ w.countIn t.2 partitions part ∧ s.2 ⊆ t.2) (fun _ => True) s := by
  refine Wp.seq w.wp_scanPartition_seen ?_
  intro existing t ht
  -- Everything else only adds to what has been returned.
  have hrest : ∀ {β : Type} {q : Redis β} {u : S × Finset String}, t.2 ⊆ u.2 →
      Wp (H.gathering (Cmd.scanned id ver)) q (fun _ u' => True ∧ t.2 ⊆ u'.2)
        (fun _ => True) u := fun hu => Wp.top.gathering hu
  refine Wp.seq (hrest subset_rfl) fun _ t₁ h₁ => ?_
  refine Wp.seq (hrest h₁.2) fun pages t₂ h₂ => ?_
  refine Wp.seq (hrest h₂.2) fun acc t₃ h₃ => ?_
  refine Wp.seq (hrest h₃.2) fun _ t₄ h₄ => ?_
  refine Wp.seq (hrest h₄.2) fun _ t₅ h₅ => ?_
  refine Wp.seq (hrest h₅.2) fun removals t₆ h₆ => ?_
  refine Wp.seq (hrest h₆.2) fun _ t₇ h₇ => ?_
  refine Wp.seq (hrest h₇.2) fun _ t₈ h₈ => ?_
  refine Wp.seq (hrest h₈.2) fun _ t₉ h₉ => ?_
  exact .pure trivial ⟨ht.1.trans (w.countIn_mono h₉.2 partitions part), ht.2.trans h₉.2⟩

/-- The counts of a loop over partitions. -/
theorem wp_counts_seen (partitions : Nat) {f : Nat → Nat → Redis Nat}
    (hf : ∀ total part (s : S × Finset String), Wp (H.gathering (Cmd.scanned id ver)) (f total part)
      (fun n t => n ≤ total + w.countIn t.2 partitions part ∧ s.2 ⊆ t.2) (fun _ => True) s)
    (done parts : List Nat) {total : Nat}
    (htotal : total ≤ (done.map (w.countIn s.2 partitions)).sum) :
    Wp (H.gathering (Cmd.scanned id ver)) (Prog.fold f total parts)
      (fun n t => n ≤ ((done ++ parts).map (w.countIn t.2 partitions)).sum) (fun _ => True) s := by
  refine Wp.fold
    (I := fun done n t => n ≤ (done.map (w.countIn t.2 partitions)).sum)
    (fun _ _ _ _ => trivial) parts done total s ?_ htotal fun _ _ h => h
  intro done n part _ t ht
  refine (hf n part t).mono ?_ fun _ _ => trivial
  intro n' t' ht'
  have hmono : (done.map (w.countIn t.2 partitions)).sum ≤
      (done.map (w.countIn t'.2 partitions)).sum :=
    List.sum_le_sum fun part _ => w.countIn_mono ht'.2 partitions part
  simp only [List.map_append, List.sum_append, List.map_cons, List.map_nil, List.sum_singleton]
  omega

/-- A diff that returns has seen as many old members as it was told
there are, whatever the store has answered. -/
theorem wp_applyStreamedDiff_seen {oldCard newCard resume : Nat} {newVer : String} :
    Wp (H.gathering (Cmd.scanned id ver))
      (w.applyStreamedDiff id (some ver) newVer token resume oldCard newCard)
      (fun _ t => oldCard ≤ t.2.card) (fun _ => True) s := by
  refine Wp.ite (fun hzero => ?_) fun _ => ?_
  · refine Wp.top.mono ?_ fun _ _ => trivial
    intro _ t _
    rw [hzero]
    exact Nat.zero_le _
  refine Wp.ite (fun _ => .throw trivial) fun hle => ?_
  have hpos := w.partitionCount_pos oldCard newCard
  generalize w.partitionCount oldCard newCard = partitions at hle hpos ⊢
  refine Wp.seq (w.wp_counts_seen partitions ?_ [] (List.range resume) (Nat.zero_le _)) ?_
  · intro total part s'
    refine Wp.seq w.wp_scanPartition_seen fun members t ht => .pure trivial ⟨?_, ht.2⟩
    exact Nat.add_le_add_left ht.1 total
  intro verified t ht
  refine Wp.seq (w.wp_counts_seen partitions ?_ (List.range resume)
    (List.range' resume (partitions - resume)) ht) ?_
  · intro total part s'
    refine Wp.seq w.wp_diffPartition_seen fun n t ht => .pure trivial ⟨?_, ht.2⟩
    exact Nat.add_le_add_left ht.1 total
  intro total t' ht'
  rw [range_append_range' (Nat.not_lt.mp hle), w.sum_countIn_all _ hpos] at ht'
  refine Wp.ite (fun _ => .throw trivial) fun heq => .pure trivial ?_
  rwa [not_not.mp heq] at ht'

end

/-! ## The diff is the set difference -/

/-- What a diff that returns has made of the index, under any token. -/
theorem wp_applyStreamedDiff_tagged {oldVer : Option String} {newVer : String} {resume : Nat}
    {old new : Finset String} (hold : old = oldVer.elim ∅ fun ver => (db.fwd id ver).members)
    (hnew : new = (db.fwd id newVer).members)
    (htag : ∀ m, m ∈ db.tagged id.skh token ↔
      if w.partOf (w.partitionCount old.card new.card) m < resume then m ∈ new else m ∈ old) :
    Wp (heldRedis origin) (w.applyStreamedDiff id oldVer newVer token resume old.card new.card)
      (fun _ db' => db'.tagged id.skh token = new) (fun _ => True) db := by
  have hstart : ∀ m, m ∈ ((db.withToken id token).view id).tag ↔
      if w.partOf (w.partitionCount old.card new.card) m < resume then m ∈ new else m ∈ old := by
    intro m
    rw [withToken_tag]
    exact htag m
  have hmem : ((db.withToken id token).view id).tag ∈ Set.uIcc (old : Set String) new := by
    rw [mem_uIcc_iff]
    intro m
    rw [hstart]
    split
    · exact ⟨fun _ hn => hn, .inr⟩
    · exact ⟨fun ho _ => ho, .inl⟩
  have hlt := w.partOf_lt (w.partitionCount_pos old.card new.card)
  have htok : ((db.withToken id token).view id).tok = token := withToken_tok
  have hview : ((db.withToken id token).view id).fwd newVer = new := hnew.symm
  have hrun : Wp (listRedis origin id)
      (w.applyStreamedDiff id oldVer newVer ((db.withToken id token).view id).tok resume old.card
        new.card) _ _ ((db.withToken id token).view id) :=
    w.wp_applyStreamedDiff_takenUp hold (hview.symm ▸ hmem)
  rw [htok, hview] at hrun
  refine (wp_of_withToken w.applyStreamedDiff_indexes hrun).mono ?_ fun _ _ => trivial
  intro _ db' hdone
  rw [withToken_tag] at hdone
  rcases hdone with ⟨_, hdone⟩ | ⟨_, hdone⟩
  · exact hdone
  · refine (hdone.eq_new_iff hlt).mpr fun m hm => ?_
    rw [hstart, if_pos hm]
    rfl

/-- For every paging of the scans, the partitioned diff from the partition
`k` on makes the members tagged with `token` those of the new forward set,
if below `k` it has been made so before; it fails when its scans miss a
member of the old set. -/
theorem streamed_diff_is_set_difference (origin : String → List UInt8) (id : ListId)
    (oldVer : Option String) (newVer : String) (token k : Nat) (db : Db) (old new : Finset String)
    (hold : old = oldVer.elim ∅ fun ver => (db.fwd id ver).members)
    (hnew : new = (db.fwd id newVer).members)
    (hk : k ≤ w.partitionCount old.card new.card)
    (htag : ∀ m, token ∈ db.member (id.skh, m) ↔
      if partitionFor w.digest m (w.partitionCount old.card new.card) < k then m ∈ new
      else m ∈ old) :
    Returns (heldRedis origin)
        (w.applyStreamedDiff id oldVer newVer token k old.card new.card)
        (fun _ db' => {m | token ∈ db'.member (id.skh, m)} = new ∧ IndexFrame id token db db') db ∧
      (∀ m, m ∈ old ∨ m ∈ new → ∃! part, part ∈ List.range (w.partitionCount old.card new.card) ∧
        partitionFor w.digest m (w.partitionCount old.card new.card) = part) ∧
      ∀ ver db' seen o, oldVer = some ver →
        Exec ((anyScanRedis origin).gathering (Cmd.scanned id ver))
          (w.applyStreamedDiff id oldVer newVer token k old.card new.card) (db, ∅) (db', seen) o →
        seen.card < old.card → o ≠ .stopped → ∃ e, o = .err e := by
  refine ⟨?_, ?_, ?_⟩
  · have hreturns : Returns (heldRedis origin)
        (w.applyStreamedDiff id oldVer newVer token k old.card new.card) (fun _ _ => True) db :=
      w.returns_applyStreamedDiff hold hnew hk
    have htagged := hreturns.andWp (w.wp_applyStreamedDiff_tagged hold hnew htag)
    refine (htagged.andWp (keeps_indexFrame w.applyStreamedDiff_indexes db db
      (.refl id token db))).mono ?_
    intro _ db' h
    exact ⟨h.1.2, h.2⟩
  · intro m _
    refine ⟨_, ⟨List.mem_range.mpr ?_, rfl⟩, fun part hpart => hpart.2.symm⟩
    exact w.partOf_lt (w.partitionCount_pos _ _) m
  · intro ver db' seen o hver he hlt hne
    subst hver
    cases o with
    | ok a =>
      have hle := w.wp_applyStreamedDiff_seen.ok he
      exact absurd hlt (Nat.not_lt.mpr hle)
    | err e => exact ⟨e, rfl⟩
    | stopped => exact absurd rfl hne

end IdListSyncWorker

/-- A worker whose partitions hold one member; a member's partition goes by
its length. -/
def lengthWorker : IdListSyncWorker where
  config := ⟨true, 2, 10, 1, Nat.two_pos, ten_pos, Nat.one_pos⟩
  digest := String.length
  fwdKey _ ver := ver

/-- The rotation from `{a, c}` to `{bb, c}`, with the partition of `bb`
applied. -/
def halfRotated : Db :=
  [.saddFwd smallList "v1" "a", .saddFwd smallList "v1" "c", .saddFwd smallList "v2" "bb",
    .saddFwd smallList "v2" "c", .saddMember "n" "a" 7, .saddMember "n" "bb" 7,
    .saddMember "n" "c" 7].foldl Write.apply {}

/-- The rest of the rotation removes `a`. -/
theorem half_rotated_diff : ∃ db', Exec (heldRedis smallOrigin)
    (lengthWorker.applyStreamedDiff smallList (some "v1") "v2" 7 1 2 2) halfRotated db' (.ok ()) ∧
      {m | 7 ∈ db'.member (smallList.skh, m)} = {"bb", "c"} := by
  have hreturns := (lengthWorker.streamed_diff_is_set_difference smallOrigin smallList (some "v1")
    "v2" 7 1 halfRotated {"a", "c"} {"bb", "c"} (by decide) (by decide) (by decide) ?_).1
  · obtain ⟨_, db', he⟩ := hreturns.exists_ok
    refine ⟨db', he, ?_⟩
    have hdone := ((hreturns.exec he).2 () rfl).1
    simpa using hdone
  · intro m
    by_cases ha : m = "a"
    · subst ha
      decide
    by_cases hb : m = "bb"
    · subst hb
      decide
    by_cases hc : m = "c"
    · subst hc
      decide
    have hnone : halfRotated.member (smallList.skh, m) = ∅ := by
      simp [halfRotated, smallList, Write.apply, ha, hb, hc]
    simp [hnone, ha, hb, hc]

end ForwardProxy.IdList
