/-
ForwardProxy.IdList.StreamedDiffTheorems — what the fan-out, the rebuild
and the partitioned diff do to the reverse index of a list.

Each of them touches nothing but the list's reverse index (and, for the
diff, its cursor), so the result of a run is the view it started from
with another tag set. A run that does not finish leaves a tag set between
the one it found and the one it was making for.

The page lists of the scans may repeat a member. A repeated member of
both forward sets is drained from the old ones once and queued as an
addition after that; this is harmless because such a member already
carries the token, which is where `Set.uIcc` is used.
-/
import ForwardProxy.Effect.PartitionedDiff
import ForwardProxy.IdList.ListViewTheorems

namespace ForwardProxy.IdList

open Effect

theorem chunksGo_flatten {α : Type} (n : Nat) :
    ∀ xs acc : List α, (chunksGo n acc xs).flatten = acc ++ xs
  | [], acc => by
      unfold chunksGo
      split
      · rename_i h
        simp [List.isEmpty_iff.mp h]
      · simp
  | x :: xs, acc => by
      unfold chunksGo
      split
      · simp [chunksGo_flatten n xs []]
      · simp [chunksGo_flatten n xs (acc ++ [x])]

theorem chunks_flatten {α : Type} (n : Nat) (xs : List α) : (chunks n xs).flatten = xs :=
  chunksGo_flatten n xs []

/-- The tag set after a fan-out of `ms`. -/
def fanned (add : Bool) (s ms : Set String) : Set String := if add then s ∪ ms else s \ ms

theorem fanned_fanned (add : Bool) (s a b : Set String) :
    fanned add (fanned add s a) b = fanned add s (a ∪ b) := by
  cases add with
  | true => exact Set.union_assoc s a b
  | false => exact Set.sdiff_sdiff

/-- One page more taken away. -/
theorem fanned_page (s : Set String) (done : List (List String)) (page : List String) :
    fanned false (s \ {m | m ∈ done.flatten}) {m | m ∈ page} =
      s \ {m | m ∈ (done ++ [page]).flatten} := by
  have hall : ({m | m ∈ (done ++ [page]).flatten} : Set String) =
      {m | m ∈ done.flatten} ∪ {m | m ∈ page} := by
    ext m
    simp
  rw [hall, ← Set.sdiff_sdiff]
  rfl

/-- A fan-out of some of the members is on the way to the fan-out of all. -/
theorem fanned_mem_uIcc (add : Bool) (s : Set String) {a b : Set String} (h : a ⊆ b) :
    fanned add s a ∈ Set.uIcc s (fanned add s b) := by
  cases add with
  | true => exact union_mem_uIcc (h.trans Set.subset_union_right)
  | false => exact sdiff_mem_uIcc fun m hm hn => hn.2 (h hm)

/-- A fan-out goes towards `new` when it adds members of `new` or removes
others. -/
theorem fanned_toward {add : Bool} {s ms new : Set String}
    (h : ∀ m ∈ ms, (m ∈ new ↔ add = true)) : fanned add s ms ∈ Set.uIcc s new := by
  cases add with
  | true => exact union_mem_uIcc fun m hm => (h m hm).2 rfl
  | false => exact sdiff_mem_uIcc fun m hm hn => by simpa using (h m hm).1 hn

theorem pagesOf_mem {s : Finset String} {pages : List (List String)} (h : PagesOf s pages)
    (m : String) : m ∈ pages.flatten ↔ m ∈ s := by
  rw [← h, List.mem_toFinset]

/-- A view with another reverse index and another diff cursor. -/
def ListView.diffed (v : ListView) (s : Set String) (cursor : Nat) : ListView :=
  (v.setTag s).setState { v.state with diffPartition := some cursor }

theorem ListView.diffed_self {v : ListView} {cursor : Nat}
    (h : v.state.diffPartition = some cursor) (s : Set String) : v.diffed s cursor = v.setTag s := by
  have hstate : { v.state with diffPartition := some cursor } = v.state := by
    rw [← h]
  rw [diffed, hstate]
  rfl

namespace IdListSyncWorker

variable (w : IdListSyncWorker) {origin : String → List UInt8} {id : ListId} {β : Type}
  {X : ListView → Prop} {v : ListView}

/-! ## Fan-out -/

/-- The batching of a fan-out does not change its commands. -/
theorem fanoutMembers_eq (skh : String) (members : List String) (token : Nat) (add : Bool) :
    w.fanoutMembers skh members token add =
      Prog.forEach (fun m => write (memberWrite skh token add m)) members := by
  have h := Prog.forEach_flatten (fun m => write (memberWrite skh token add m))
    (chunks w.config.pipelineBatchSize members)
  rw [chunks_flatten] at h
  exact h

theorem after_memberWrite (add : Bool) (m : String) :
    v.after id (memberWrite id.skh v.tok add m) = v.setTag (fanned add v.tag {m}) := by
  cases add with
  | true =>
    rw [fanned, if_pos rfl, Set.union_singleton]
    exact v.after_saddMember m
  | false => exact v.after_sremMember m

theorem memberWrite_isHdelDict (skh m : String) (token : Nat) (add : Bool) :
    (memberWrite skh token add m).isHdelDict = false := by
  cases add <;> rfl

/-- Whatever list the token is of, only the index can change. -/
theorem after_memberWrite_frame (id : ListId) (skh m : String) (token : Nat) (add : Bool)
    (v : ListView) :
    (v.after id (memberWrite skh token add m)).fwd = v.fwd ∧
      (v.after id (memberWrite skh token add m)).state = v.state ∧
      (v.after id (memberWrite skh token add m)).tok = v.tok := by
  have hsame : ∀ (b : Prop) [Decidable b] (s : Set String),
      (if b then v.setTag s else v).fwd = v.fwd ∧ (if b then v.setTag s else v).state = v.state ∧
        (if b then v.setTag s else v).tok = v.tok := by
    intro b _ s
    split <;> exact ⟨rfl, rfl, rfl⟩
  cases add with
  | true => exact hsame _ _
  | false => exact hsame _ _

theorem wp_fanoutMembers (members : List String) (add : Bool) :
    Wp (listRedis origin id) (w.fanoutMembers id.skh members v.tok add)
      (fun _ v' => v' = v.setTag (fanned add v.tag {m | m ∈ members}))
      (fun v' => ∃ s ∈ Set.uIcc v.tag (fanned add v.tag {m | m ∈ members}), v' = v.setTag s)
      v := by
  rw [fanoutMembers_eq]
  have hexit : ∀ done : List String, done ⊆ members →
      fanned add v.tag {m | m ∈ done} ∈ Set.uIcc v.tag (fanned add v.tag {m | m ∈ members}) :=
    fun done hd => fanned_mem_uIcc add v.tag hd
  refine Wp.forEach
    (I := fun done v' => done ⊆ members ∧ v' = v.setTag (fanned add v.tag {m | m ∈ done}))
    ?_ members [] v ?_ ?_ ?_
  · rintro done v' ⟨hd, rfl⟩
    exact ⟨_, hexit done hd, rfl⟩
  · rintro done m hm v' ⟨hd, rfl⟩
    have hsub : done ++ [m] ⊆ members := by simpa [hd] using hm
    have hnext : (v.setTag (fanned add v.tag {m | m ∈ done})).after id
        (memberWrite id.skh v.tok add m) = v.setTag (fanned add v.tag {a | a ∈ done ++ [m]}) := by
      have hset : ({a | a ∈ done ++ [m]} : Set String) = {a | a ∈ done} ∪ {m} := by
        ext a
        simp [or_comm]
      rw [hset, ← fanned_fanned]
      exact after_memberWrite (v := v.setTag (fanned add v.tag {m | m ∈ done})) add m
    refine wp_write_end (memberWrite_isHdelDict _ _ _ _) ⟨_, hexit done hd, rfl⟩ ?_ ?_
    · exact ⟨_, hexit _ hsub, hnext⟩
    · exact ⟨hsub, hnext⟩
  · refine ⟨by simp, ?_⟩
    cases add <;> simp [fanned]
  · rintro v' ⟨_, rfl⟩
    rfl

theorem wp_verifyScanKeyBefore {ver : String} {card : Nat} {Q : Unit → ListView → Prop}
    (hX : X v) (hQ : Q () v) :
    Wp (listRedis origin id) (w.verifyScanKeyBefore id ver card) Q X v := by
  refine Wp.ite (fun _ => wp_keyExists ?_) fun _ => .pure hX hQ
  exact Wp.ite (fun _ => .pure hX hQ) fun _ => .throw hX

theorem wp_verifyScanComplete {ver : String} {card scanned : Nat} {Q : Unit → ListView → Prop}
    (hX : X v) (hQ : Q () v) :
    Wp (listRedis origin id) (w.verifyScanComplete id ver card scanned) Q X v := by
  refine Wp.ite (fun _ => .throw hX) fun _ => ?_
  refine Wp.ite (fun _ => wp_keyExists ?_) fun _ => .pure hX hQ
  exact Wp.ite (fun _ => .pure hX hQ) fun _ => .throw hX

/-- A fan-out over a forward set reaches every member of it, whatever the
paging. -/
theorem wp_fanoutScan (ver : String) (add : Bool) (card : Nat) :
    Wp (listRedis origin id) (w.fanoutScan id ver v.tok add card)
      (fun _ v' => v' = v.setTag (fanned add v.tag (v.fwd ver)))
      (fun v' => ∃ s ∈ Set.uIcc v.tag (fanned add v.tag (v.fwd ver)), v' = v.setTag s) v := by
  have hstart : ∃ s ∈ Set.uIcc v.tag (fanned add v.tag (v.fwd ver)), v = v.setTag s :=
    ⟨v.tag, Set.left_mem_uIcc, rfl⟩
  refine Wp.bind (w.wp_verifyScanKeyBefore hstart ?_)
  refine wp_sscan hstart fun pages hpages => ?_
  have hexit : ∀ done : List String, done ⊆ pages.flatten →
      fanned add v.tag {m | m ∈ done} ∈ Set.uIcc v.tag (fanned add v.tag (v.fwd ver)) :=
    fun done hd => fanned_mem_uIcc add v.tag fun m hm => (pagesOf_mem hpages m).1 (hd hm)
  refine Wp.seq (P := fun _ v' => v' = v.setTag (fanned add v.tag (v.fwd ver))) ?_ ?_
  · refine wp_foldPages
      (I := fun done _ v' => done ⊆ pages.flatten ∧
        v' = v.setTag (fanned add v.tag {m | m ∈ done})) ?_ pages 0 [] () v ?_ ?_ ?_
    · rintro done _ v' ⟨hd, rfl⟩
      exact ⟨_, hexit done hd, rfl⟩
    · rintro done _ page hpage v' ⟨hd, rfl⟩
      have hsub : done ++ page ⊆ pages.flatten := by
        intro m hm
        rcases List.mem_append.mp hm with hm | hm
        · exact hd hm
        · exact List.mem_flatten.mpr ⟨page, hpage, hm⟩
      have hset : ({m | m ∈ done ++ page} : Set String) = {m | m ∈ done} ∪ {m | m ∈ page} := by
        ext m
        simp
      have hnext : fanned add (fanned add v.tag {m | m ∈ done}) {m | m ∈ page} =
          fanned add v.tag {m | m ∈ done ++ page} := by
        rw [hset, fanned_fanned]
      refine (w.wp_fanoutMembers (v := v.setTag (fanned add v.tag {m | m ∈ done})) page add).mono
        ?_ ?_
      · rintro _ v' rfl
        exact ⟨hsub, congrArg v.setTag hnext⟩
      · rintro v' ⟨s, hs, rfl⟩
        refine ⟨s, ?_, rfl⟩
        refine Set.uIcc_subset_uIcc (hexit done hd) ?_ hs
        exact hnext ▸ hexit _ hsub
    · refine ⟨by simp, ?_⟩
      cases add <;> simp [fanned]
    · rintro _ v' ⟨_, rfl⟩
      have hall : ({m | m ∈ [] ++ pages.flatten} : Set String) = v.fwd ver := by
        ext m
        simpa using pagesOf_mem hpages m
      rw [hall]
  · rintro _ v' rfl
    exact w.wp_verifyScanComplete ⟨_, Set.right_mem_uIcc, rfl⟩ rfl

/-- The rebuild's first half: no member of the company keeps the token. -/
theorem wp_clearReverseToken :
    Wp (listRedis origin id) (w.clearReverseToken id.skh v.tok)
      (fun _ v' => v' = v.setTag ∅) (fun v' => ∃ s ⊆ v.tag, v' = v.setTag s) v := by
  refine wp_scanMembers ⟨v.tag, subset_rfl, rfl⟩ fun pages hpages => ?_
  refine Wp.forEach (I := fun done v' => v' = v.setTag (v.tag \ {m | m ∈ done.flatten}))
    ?_ pages [] v ?_ (by simp) ?_
  · rintro done v' rfl
    exact ⟨_, Set.sdiff_subset, rfl⟩
  · rintro done page _ v' rfl
    refine wp_renewNow ?_
    refine (w.wp_fanoutMembers (v := v.setTag (v.tag \ {m | m ∈ done.flatten})) page
      false).mono ?_ ?_
    · rintro _ v' rfl
      exact congrArg v.setTag (fanned_page v.tag done page)
    · rintro v' ⟨s, hs, rfl⟩
      refine ⟨s, fun m hm => ?_, rfl⟩
      rcases ((mem_uIcc_iff.mp hs) m).2 hm with h | h
      · exact h.1
      · exact h.1.1
  · rintro v' rfl
    refine congrArg v.setTag ?_
    ext m
    simp only [List.nil_append, Set.mem_sdiff, Set.mem_ofPred_eq, Set.mem_empty_iff_false,
      iff_false, not_and, not_not]
    exact hpages m

/-! ## The partitioned diff -/

/-- The partition of a member. -/
def partOf (partitions : Nat) (m : String) : Nat := partitionFor w.digest m partitions

theorem wp_scanPartition {ver : String} {card part partitions : Nat}
    {Q : Finset String → ListView → Prop} (hX : X v)
    (hQ : Q ((v.fwd ver).filter fun m => w.partOf partitions m = part) v) :
    Wp (listRedis origin id) (w.scanPartition id ver card part partitions) Q X v := by
  refine Wp.bind (w.wp_verifyScanKeyBefore hX ?_)
  refine wp_sscan hX fun pages hpages => ?_
  refine Wp.seq (P := fun members v' =>
    v' = v ∧ members = (v.fwd ver).filter fun m => w.partOf partitions m = part) ?_ ?_
  · refine wp_foldPages (I := fun done members v' =>
      v' = v ∧ members = (done.filter fun m => w.partOf partitions m = part).toFinset)
      ?_ pages 0 [] ∅ v ?_ (by simp) ?_
    · rintro done acc v' ⟨rfl, _⟩
      exact hX
    · rintro done acc page _ v' ⟨rfl, rfl⟩
      refine .pure hX ⟨rfl, ?_⟩
      rw [List.filter_append, List.toFinset_append]
      rfl
    · rintro members v' ⟨rfl, rfl⟩
      refine ⟨rfl, ?_⟩
      ext m
      rw [List.mem_toFinset, List.mem_filter, Finset.mem_filter, List.nil_append,
        pagesOf_mem hpages, decide_eq_true_iff]
  · rintro members v' ⟨rfl, rfl⟩
    exact Wp.bind (w.wp_verifyScanComplete hX (.pure hX hQ))

section

variable {oldVer newVer : String} {token oldCard newCard partitions part : Nat}

/-- The accumulator of the drain after the members `done` of the new set:
the old members of the partition not met yet, and members of the new set
to be added. Every new member met is tagged or waits in the additions. -/
structure Draining (v : ListView) (oldVer newVer : String) (partitions part : Nat)
    (done : List String) (acc : Finset String × List String) (s : Set String) : Prop where
  within : Within (w.partOf partitions) part (v.fwd newVer) v.tag s
  existing : ∀ m, m ∈ acc.1 ↔ m ∈ v.fwd oldVer ∧ w.partOf partitions m = part ∧ m ∉ done
  additions : ∀ m ∈ acc.2, m ∈ v.fwd newVer ∧ w.partOf partitions m = part
  met : ∀ m ∈ done, w.partOf partitions m = part → m ∈ v.fwd newVer → m ∈ s ∨ m ∈ acc.2

/-- Adding new members of a partition, or removing others, stays within
it. -/
theorem fanned_within {add : Bool} {s ms new : Set String}
    (h : ∀ m ∈ ms, (m ∈ new ↔ add = true) ∧ w.partOf partitions m = part) :
    Within (w.partOf partitions) part new s (fanned add s ms) := by
  refine ⟨fanned_toward fun m hm => (h m hm).1, fun m hm => ?_⟩
  have hnot : m ∉ ms := fun hms => hm (h m hms).2
  cases add with
  | true => simp [fanned, hnot]
  | false => simp [fanned, hnot]

/-- Members of the partition that are not new can be taken away. -/
theorem sdiff_within {ms : List String} {s new : Set String}
    (h : ∀ m ∈ ms, m ∉ new ∧ w.partOf partitions m = part) :
    Within (w.partOf partitions) part new s (s \ {m | m ∈ ms}) := by
  have hfanned : Within (w.partOf partitions) part new s (fanned false s {m | m ∈ ms}) := by
    refine w.fanned_within fun m hm => ?_
    obtain ⟨hnew, hpart⟩ := h m hm
    exact ⟨⟨fun hn => absurd hn hnew, by simp⟩, hpart⟩
  exact hfanned

variable {w} in
/-- Sending additions moves the index towards the new set. -/
theorem Draining.sent {done : List String} {acc : Finset String × List String} {s t : Set String}
    (h : w.Draining v oldVer newVer partitions part done acc s)
    (ht : t ∈ Set.uIcc s (fanned true s {m | m ∈ acc.2})) :
    Within (w.partOf partitions) part (v.fwd newVer) v.tag t := by
  refine h.within.trans (Within.between (w.fanned_within fun m hm => ?_) ht)
  exact ⟨⟨fun _ => rfl, fun _ => (h.additions m hm).1⟩, (h.additions m hm).2⟩

variable {w} in
/-- All additions sent. -/
theorem Draining.flushed {done : List String} {acc : Finset String × List String} {s : Set String}
    (h : w.Draining v oldVer newVer partitions part done acc s) :
    w.Draining v oldVer newVer partitions part done (acc.1, [])
      (fanned true s {m | m ∈ acc.2}) := by
  refine ⟨h.sent Set.right_mem_uIcc, h.existing, by simp, ?_⟩
  intro m hm hp hn
  exact .inl ((h.met m hm hp hn).elim (fun hs => .inl hs) fun ha => .inr ha)

/-- The exit condition inside one partition: the index has moved only
there. -/
def PartitionExit (v : ListView) (newVer : String) (partitions part : Nat) (v' : ListView) : Prop :=
  ∃ s, Within (w.partOf partitions) part (v.fwd newVer) v.tag s ∧ v' = v.setTag s

theorem wp_drainMember {done : List String} {acc : Finset String × List String} {s : Set String}
    {m : String} (hmem : v.tag ∈ Set.uIcc (v.fwd oldVer : Set String) (v.fwd newVer))
    (h : w.Draining v oldVer newVer partitions part done acc s) (hm : m ∈ v.fwd newVer) :
    Wp (listRedis origin id) (w.drainMember id.skh v.tok part partitions acc m)
      (fun acc' v' => ∃ s', w.Draining v oldVer newVer partitions part (done ++ [m]) acc' s' ∧
        v' = v.setTag s')
      (w.PartitionExit v newVer partitions part) (v.setTag s) := by
  have hexit : w.PartitionExit v newVer partitions part (v.setTag s) := ⟨s, h.within, rfl⟩
  refine Wp.ite (fun hpart => ?_) fun hpart => ?_
  · -- A member of another partition.
    refine .pure hexit ⟨s, ⟨h.within, ?_, h.additions, ?_⟩, rfl⟩
    · intro m'
      rw [h.existing]
      have hne : w.partOf partitions m' = part → m' ≠ m := fun hp he => hpart (he ▸ hp)
      constructor
      · rintro ⟨ho, hp, hd⟩
        exact ⟨ho, hp, by simp [hd, hne hp]⟩
      · rintro ⟨ho, hp, hd⟩
        exact ⟨ho, hp, fun hd' => hd (by simp [hd'])⟩
    · intro m' hm' hp hn
      rcases List.mem_append.mp hm' with hd | hd
      · exact h.met m' hd hp hn
      · obtain rfl : m' = m := by simpa using hd
        exact absurd hp hpart
  have hpart : w.partOf partitions m = part := not_not.mp hpart
  refine Wp.ite (fun hold => ?_) fun hold => ?_
  · -- Still to be met: it is in both sets, and so it carries the token.
    refine .pure hexit ⟨s, ⟨h.within, ?_, h.additions, ?_⟩, rfl⟩
    · intro m'
      simp only [Finset.mem_erase, h.existing, List.mem_append, List.mem_singleton]
      tauto
    · intro m' hm' hp hn
      rcases List.mem_append.mp hm' with hd | hd
      · exact h.met m' hd hp hn
      · obtain rfl : m' = m := by simpa using hd
        have hs := Set.uIcc_subset_uIcc_right hmem h.within.mem
        exact .inl ((mem_uIcc_iff.mp hs m').1 ((h.existing m').1 hold).1 hn)
  have hexisting : ∀ m', m' ∈ acc.1 ↔
      m' ∈ v.fwd oldVer ∧ w.partOf partitions m' = part ∧ m' ∉ done ++ [m] := by
    intro m'
    rw [h.existing]
    constructor
    · rintro ⟨ho, hp, hd⟩
      have hne : m' ≠ m := by
        rintro rfl
        exact hold ((h.existing m').2 ⟨ho, hp, hd⟩)
      exact ⟨ho, hp, by simp [hd, hne]⟩
    · rintro ⟨ho, hp, hd⟩
      exact ⟨ho, hp, fun hd' => hd (by simp [hd'])⟩
  have hnext : w.Draining v oldVer newVer partitions part (done ++ [m])
      (acc.1, acc.2 ++ [m]) s := by
    refine ⟨h.within, hexisting, ?_, ?_⟩
    · intro m' hm'
      rcases List.mem_append.mp hm' with ha | ha
      · exact h.additions m' ha
      · obtain rfl : m' = m := by simpa using ha
        exact ⟨hm, hpart⟩
    · intro m' hm' hp hn
      rcases List.mem_append.mp hm' with hd | hd
      · exact (h.met m' hd hp hn).imp (fun hs => hs) fun ha => by simp [ha]
      · exact .inr (by simpa using .inr (List.mem_singleton.mp hd))
  refine Wp.ite (fun _ => ?_) fun _ => .pure hexit ⟨s, hnext, rfl⟩
  refine Wp.seq ((w.wp_fanoutMembers (v := v.setTag s) (acc.2 ++ [m]) true).mono
    (fun _ _ h => h) ?_) ?_
  · rintro v' ⟨t, ht, rfl⟩
    exact ⟨t, hnext.sent ht, rfl⟩
  · rintro _ v' rfl
    exact .pure ⟨_, hnext.flushed.within, rfl⟩ ⟨_, hnext.flushed, rfl⟩

/-- The scan of the new set. -/
theorem wp_drainPages {pages : List (List String)}
    (hmem : v.tag ∈ Set.uIcc (v.fwd oldVer : Set String) (v.fwd newVer))
    (hpages : PagesOf (v.fwd newVer) pages) :
    Wp (listRedis origin id)
      (foldPages (fun acc page => Prog.fold (w.drainMember id.skh v.tok part partitions) acc page)
        ((v.fwd oldVer).filter fun m => w.partOf partitions m = part, []) 0 pages)
      (fun acc v' => ∃ s,
        w.Draining v oldVer newVer partitions part pages.flatten acc s ∧ v' = v.setTag s)
      (w.PartitionExit v newVer partitions part) v := by
  refine wp_foldPages (I := fun done acc v' => ∃ s,
    w.Draining v oldVer newVer partitions part done acc s ∧ v' = v.setTag s)
    ?_ pages 0 [] _ v ?_ ⟨v.tag, ⟨.refl _, by simp, by simp, by simp⟩, rfl⟩ fun _ _ h => h
  · rintro done acc v' ⟨s, hs, rfl⟩
    exact ⟨s, hs.within, rfl⟩
  · intro done acc page hpage v' hv'
    refine Wp.fold (I := fun seen acc v' => ∃ s,
      w.Draining v oldVer newVer partitions part (done ++ seen) acc s ∧ v' = v.setTag s)
      ?_ page [] acc v' ?_ (by simpa using hv') fun _ _ h => h
    · rintro seen acc v' ⟨s, hs, rfl⟩
      exact ⟨s, hs.within, rfl⟩
    · rintro seen acc m hm v' ⟨s, hs, rfl⟩
      have hnew : m ∈ v.fwd newVer :=
        (pagesOf_mem hpages m).1 (List.mem_flatten.mpr ⟨page, hpage, hm⟩)
      refine (w.wp_drainMember hmem hs hnew).mono ?_ fun _ h => h
      rintro acc' v' ⟨s', hs', rfl⟩
      exact ⟨s', by simpa using hs', rfl⟩

/-- The additions that are left. -/
theorem wp_flushAdditions {done : List String} {acc : Finset String × List String} {s : Set String}
    (h : w.Draining v oldVer newVer partitions part done acc s) :
    Wp (listRedis origin id) (w.flushAdditions id.skh v.tok acc.2)
      (fun _ v' => ∃ s', w.Draining v oldVer newVer partitions part done (acc.1, []) s' ∧
        v' = v.setTag s')
      (w.PartitionExit v newVer partitions part) (v.setTag s) := by
  refine Wp.when (fun _ => ?_) (fun _ => ⟨s, h.within, rfl⟩) fun hempty => ?_
  · refine (w.wp_fanoutMembers (v := v.setTag s) acc.2 true).mono ?_ ?_
    · rintro _ v' rfl
      exact ⟨_, h.flushed, rfl⟩
    · rintro v' ⟨t, ht, rfl⟩
      exact ⟨t, h.sent ht, rfl⟩
  · have hnil : acc.2 = [] := by simpa using hempty
    refine ⟨s, ⟨h.within, h.existing, by simp, ?_⟩, rfl⟩
    intro m hm hp hn
    exact hnil ▸ h.met m hm hp hn

/-- The old members of the partition that are not new. -/
theorem wp_sendRemovals {removals : List String} {s : Set String}
    (hs : Within (w.partOf partitions) part (v.fwd newVer) v.tag s)
    (hgone : ∀ m ∈ removals, m ∉ v.fwd newVer ∧ w.partOf partitions m = part) :
    Wp (listRedis origin id)
      (Prog.forEach (fun chunk => w.fanoutMembers id.skh chunk v.tok false)
        (chunks w.config.scanCount removals))
      (fun _ v' => v' = v.setTag (s \ {m | m ∈ removals}))
      (w.PartitionExit v newVer partitions part) (v.setTag s) := by
  have hmoved : ∀ {ms : List String} {t : Set String}, ms ⊆ removals →
      Within (w.partOf partitions) part (v.fwd newVer) t (t \ {m | m ∈ ms}) :=
    fun hms => w.sdiff_within fun m hm => hgone m (hms hm)
  refine Wp.forEach (I := fun done v' => done.flatten ⊆ removals ∧
    v' = v.setTag (s \ {m | m ∈ done.flatten})) ?_ _ [] _ ?_ (by simp) ?_
  · rintro done v' ⟨hd, rfl⟩
    exact ⟨_, hs.trans (hmoved hd), rfl⟩
  · rintro done chunk hchunk v' ⟨hd, rfl⟩
    have hc : chunk ⊆ removals := by
      intro m hm
      rw [← chunks_flatten w.config.scanCount removals]
      exact List.mem_flatten.mpr ⟨chunk, hchunk, hm⟩
    refine (w.wp_fanoutMembers (v := v.setTag (s \ {m | m ∈ done.flatten})) chunk
      false).mono ?_ ?_
    · rintro _ v' rfl
      exact ⟨by simpa [hd] using hc, congrArg v.setTag (fanned_page s done chunk)⟩
    · rintro v' ⟨t, ht, rfl⟩
      exact ⟨t, (hs.trans (hmoved hd)).trans (Within.between (hmoved hc) ht), rfl⟩
  · rintro v' ⟨_, rfl⟩
    rw [List.nil_append, chunks_flatten]

/-- One partition: its members carry the token exactly when they are in
the new set, and no other member has changed. -/
theorem wp_diffPartition {β : Type} {f : Nat → Redis β} {Q : β → ListView → Prop}
    (hmem : v.tag ∈ Set.uIcc (v.fwd oldVer : Set String) (v.fwd newVer))
    (hX : ∀ v', w.PartitionExit v newVer partitions part v' → X v')
    (hQ : ∀ n s, Within (w.partOf partitions) part (v.fwd newVer) v.tag s →
      (∀ m, w.partOf partitions m = part → (m ∈ s ↔ m ∈ v.fwd newVer)) →
      Wp (listRedis origin id) (f n) Q X
        ((v.setTag s).setState { v.state with diffPartition := some (part + 1) })) :
    Wp (listRedis origin id)
      (w.diffPartition id oldVer newVer v.tok oldCard newCard partitions part >>= f) Q X v := by
  have hself : X v := hX v ⟨v.tag, .refl _, rfl⟩
  refine Wp.bind (Wp.bind (w.wp_scanPartition hself ?_))
  refine Wp.bind (w.wp_verifyScanKeyBefore hself ?_)
  refine wp_sscan hself fun pages hpages => ?_
  refine Wp.seq ((w.wp_drainPages hmem hpages).mono (fun _ _ h => h) hX) ?_
  rintro acc v' ⟨s, hs, rfl⟩
  refine Wp.bind (w.wp_verifyScanComplete (hX _ ⟨s, hs.within, rfl⟩) ?_)
  refine Wp.seq ((w.wp_flushAdditions hs).mono (fun _ _ h => h) hX) ?_
  rintro _ v' ⟨s, hs, rfl⟩
  -- Every new member of the partition is tagged now.
  refine wp_iterate (hX _ ⟨s, hs.within, rfl⟩) fun removals hremovals => ?_
  have hold : ∀ m, m ∈ removals ↔
      m ∈ v.fwd oldVer ∧ w.partOf partitions m = part ∧ m ∉ v.fwd newVer := by
    intro m
    rw [← List.mem_toFinset, hremovals, hs.existing, pagesOf_mem hpages]
  have hgone : ∀ m ∈ removals, m ∉ v.fwd newVer ∧ w.partOf partitions m = part :=
    fun m hm => ⟨((hold m).1 hm).2.2, ((hold m).1 hm).2.1⟩
  refine Wp.seq ((w.wp_sendRemovals hs.within hgone).mono (fun _ _ h => h) hX) ?_
  rintro _ v' rfl
  have hdone : ∀ m, w.partOf partitions m = part →
      (m ∈ s \ {m | m ∈ removals} ↔ m ∈ v.fwd newVer) := by
    intro m hm
    constructor
    · rintro ⟨hms, hmr⟩
      by_contra hn
      refine hmr ((hold m).2 ⟨?_, hm, hn⟩)
      have hs' := Set.uIcc_subset_uIcc_right hmem hs.within.mem
      exact ((mem_uIcc_iff.mp hs' m).2 hms).resolve_right hn
    · intro hn
      refine ⟨?_, fun hmr => (hgone m hmr).1 hn⟩
      exact (hs.met m ((pagesOf_mem hpages m).2 hn) hm hn).resolve_right (by simp)
  have hwithin := hs.within.trans (w.sdiff_within hgone)
  have hcont := hQ ((v.fwd oldVer).filter fun m => w.partOf partitions m = part).card _ hwithin
    hdone
  refine wp_write rfl (hX _ ⟨_, hwithin, rfl⟩) ?_
  rw [ListView.after_hsetState]
  refine wp_renewNow (.pure hcont.exit ?_)
  exact hcont

end

/-- There is always at least one partition. -/
theorem partitionCount_pos (oldCard newCard : Nat) : 0 < w.partitionCount oldCard newCard := by
  have hpos := w.config.diffPartitionMaxMembers_pos
  refine Nat.div_pos ?_ hpos
  omega

theorem partOf_lt {partitions : Nat} (h : 0 < partitions) (m : String) :
    w.partOf partitions m < partitions := by
  have hmax : max partitions 1 = partitions := by omega
  unfold partOf partitionFor
  rw [hmax]
  exact Nat.mod_lt _ h

/-- What is asked of the index at each value `j` of the cursor: moves within
the partition `j` keep it, and when that partition is complete it holds at
the next value. -/
structure PartitionInv (v : ListView) (oldVer newVer : String) (partitions : Nat)
    (A : Nat → Set String → Prop) : Prop where
  mem : ∀ {j s}, A j s → s ∈ Set.uIcc (v.fwd oldVer : Set String) (v.fwd newVer)
  moved : ∀ {j s t}, A j s → Within (w.partOf partitions) j (v.fwd newVer) s t → A j t
  passed : ∀ {j s t}, A j s → Within (w.partOf partitions) j (v.fwd newVer) s t →
    (∀ m, w.partOf partitions m = j → (m ∈ t ↔ m ∈ v.fwd newVer)) → A (j + 1) t

theorem partitionInv_diffAt {oldVer newVer : String} {partitions : Nat} :
    w.PartitionInv v oldVer newVer partitions
      (DiffAt (w.partOf partitions) (v.fwd oldVer) (v.fwd newVer)) where
  mem := fun h => h.mem
  moved := fun h hw => h.toward hw.mem
  passed := fun h hw hdone => (h.toward hw.mem).succ hdone

theorem partitionInv_takenUp {oldVer newVer : String} {partitions start : Nat} {s₀ : Set String} :
    w.PartitionInv v oldVer newVer partitions
      (TakenUp (w.partOf partitions) (v.fwd oldVer) (v.fwd newVer) s₀ start) where
  mem := fun h => h.mem
  moved := fun h hw => h.within hw
  passed := fun h hw hdone => (h.within hw).succ hdone

/-- The loop over the partitions from `cursor` on. -/
theorem wp_diffPartitions (origin : String → List UInt8) (id : ListId) {oldVer newVer : String}
    (oldCard newCard : Nat) {partitions : Nat} {A : Nat → Set String → Prop}
    (hA : w.PartitionInv v oldVer newVer partitions A) :
    ∀ (k cursor total : Nat) (s : Set String), A cursor s →
      Wp (listRedis origin id)
        (Prog.fold (fun total part => do
          let n ← w.diffPartition id oldVer newVer v.tok oldCard newCard partitions part
          pure (total + n)) total (List.range' cursor k))
        (fun _ v' => ∃ s', A (cursor + k) s' ∧ v' = v.diffed s' (cursor + k))
        (fun v' => ∃ j s', A j s' ∧ v' = v.diffed s' j)
        (v.diffed s cursor)
  | 0, cursor, total, s, h => .pure ⟨cursor, s, h, rfl⟩ ⟨s, h, rfl⟩
  | k + 1, cursor, total, s, h => by
      rw [List.range'_succ]
      refine Wp.seq (P := fun _ v' => ∃ s', A (cursor + 1) s' ∧ v' = v.diffed s' (cursor + 1)) ?_ ?_
      · refine w.wp_diffPartition (v := v.diffed s cursor) (hA.mem h) ?_ ?_
        · rintro v' ⟨s', hs', rfl⟩
          exact ⟨cursor, s', hA.moved h hs', rfl⟩
        · intro n s' hs' hdone
          have hnext := hA.passed h hs' hdone
          exact .pure ⟨cursor + 1, s', hnext, rfl⟩ ⟨s', hnext, rfl⟩
      · rintro total' v' ⟨s', hs', rfl⟩
        have hrest := wp_diffPartitions origin id oldCard newCard hA k (cursor + 1) total' s' hs'
        rw [Nat.add_right_comm] at hrest
        exact hrest

/-- The same loop when the stored cursor is not the one it starts at: what
it leaves of the index does not depend on it. -/
theorem wp_diffPartitions_tag (origin : String → List UInt8) (id : ListId)
    {oldVer newVer : String} (oldCard newCard : Nat) {partitions : Nat}
    {A : Nat → Set String → Prop} (hA : w.PartitionInv v oldVer newVer partitions A)
    (k cursor total : Nat) (h : A cursor v.tag) :
    Wp (listRedis origin id)
      (Prog.fold (fun total part => do
        let n ← w.diffPartition id oldVer newVer v.tok oldCard newCard partitions part
        pure (total + n)) total (List.range' cursor k))
      (fun _ v' => A (cursor + k) v'.tag) (fun _ => True) v := by
  cases k with
  | zero => exact .pure trivial h
  | succ k =>
    rw [List.range'_succ]
    refine Wp.seq (P := fun _ v' => ∃ s', A (cursor + 1) s' ∧ v' = v.diffed s' (cursor + 1)) ?_ ?_
    · refine w.wp_diffPartition (hA.mem h) (fun _ _ => trivial) ?_
      intro n s' hs' hdone
      exact .pure trivial ⟨s', hA.passed h hs' hdone, rfl⟩
    · intro total' v' hv'
      obtain ⟨s', hs', rfl⟩ := hv'
      have hrest := w.wp_diffPartitions origin id oldCard newCard hA k (cursor + 1) total' s' hs'
      rw [Nat.add_right_comm] at hrest
      refine hrest.mono ?_ fun _ _ => trivial
      intro _ v'' hv''
      obtain ⟨s'', hs'', rfl⟩ := hv''
      exact hs''

/-- The diff from a cursor on: it ends with the new set's members tagged,
and can be taken up again from wherever it stopped. -/
theorem wp_applyStreamedDiff {oldVer : Option String} {newVer : String} {resume newCard : Nat}
    {old : Finset String} (hold : old = oldVer.elim ∅ v.fwd)
    (hcursor : v.state.diffPartition = some resume)
    (h : DiffAt (w.partOf (w.partitionCount old.card newCard)) old (v.fwd newVer) resume v.tag) :
    Wp (listRedis origin id)
      (w.applyStreamedDiff id oldVer newVer v.tok resume old.card newCard)
      (fun _ v' => ∃ j, v' = v.diffed (v.fwd newVer) j)
      (fun v' => ∃ j s, (DiffAt (w.partOf (w.partitionCount old.card newCard)) old
        (v.fwd newVer) j s ∧ (old = ∅ → s ∈ Set.uIcc v.tag (v.fwd newVer))) ∧
        v' = v.diffed s j) v := by
  have hself := ListView.diffed_self hcursor
  refine Wp.ite (fun hzero => ?_) fun hzero => ?_
  · -- Nothing to compare with: the index holds only members of the new set.
    have hempty : old = ∅ := Finset.card_eq_zero.mp hzero
    have hsub : v.tag ⊆ v.fwd newVer := by
      intro m hm
      exact ((mem_uIcc_iff.mp h.mem m).2 hm).resolve_left (by simp [hempty])
    have hfan : fanned true v.tag (v.fwd newVer) = v.fwd newVer := Set.union_eq_right.mpr hsub
    refine (w.wp_fanoutScan newVer true newCard).mono ?_ ?_
    · rintro _ v' rfl
      exact ⟨resume, by rw [hself, hfan]⟩
    · rintro v' ⟨s, hs, rfl⟩
      rw [hfan] at hs
      exact ⟨resume, s, ⟨h.toward hs, fun _ => hs⟩, (hself s).symm⟩
  have hne : old ≠ ∅ := fun hempty => hzero (Finset.card_eq_zero.mpr hempty)
  have hexit : ∃ j s, (DiffAt (w.partOf (w.partitionCount old.card newCard)) old
      (v.fwd newVer) j s ∧ (old = ∅ → s ∈ Set.uIcc v.tag (v.fwd newVer))) ∧ v = v.diffed s j :=
    ⟨resume, v.tag, ⟨h, fun _ => Set.left_mem_uIcc⟩, (hself v.tag).symm⟩
  cases oldVer with
  | none => exact .throw hexit
  | some oldVer =>
    obtain rfl : old = v.fwd oldVer := hold
    refine Wp.ite (fun _ => .throw hexit) fun hle => ?_
    -- The partitions already applied are only read.
    refine Wp.seq (P := fun _ v' => v' = v) ?_ ?_
    · refine Wp.fold (I := fun _ _ v' => v' = v) ?_ _ [] 0 v ?_ rfl fun _ _ h => h
      · rintro done acc v' rfl
        exact hexit
      · rintro done acc part _ v' rfl
        exact Wp.bind (w.wp_scanPartition hexit (.pure hexit rfl))
    rintro verified v' rfl
    have hloop := w.wp_diffPartitions (v := v') origin id (v'.fwd oldVer).card newCard
      w.partitionInv_diffAt (w.partitionCount (v'.fwd oldVer).card newCard - resume) resume verified
      v'.tag h
    rw [hself, Nat.add_sub_cancel' (Nat.not_lt.mp hle)] at hloop
    refine Wp.seq (hloop.mono (fun _ _ h => h) ?_) ?_
    · rintro v'' ⟨j, s, hs, rfl⟩
      exact ⟨j, s, ⟨hs, fun hempty => absurd hempty hne⟩, rfl⟩
    rintro total v'' ⟨s, hs, rfl⟩
    have hexit' := (⟨_, s, ⟨hs, fun hempty => absurd hempty hne⟩, rfl⟩ :
      ∃ j s', (DiffAt (w.partOf (w.partitionCount (v'.fwd oldVer).card newCard)) (v'.fwd oldVer)
        (v'.fwd newVer) j s' ∧ (v'.fwd oldVer = ∅ → s' ∈ Set.uIcc v'.tag (v'.fwd newVer))) ∧
        v'.diffed s (w.partitionCount (v'.fwd oldVer).card newCard) = v'.diffed s' j)
    refine Wp.ite (fun _ => .throw hexit') fun _ => ?_
    have hall : s = v'.fwd newVer :=
      hs.eq_new (w.partOf_lt (w.partitionCount_pos _ newCard))
    exact .pure hexit' ⟨_, by rw [hall]⟩

/-- The diff from a cursor on, when nothing is known of the members below
it: they keep what they have. -/
theorem wp_applyStreamedDiff_takenUp {oldVer : Option String} {newVer : String}
    {resume newCard : Nat} {old : Finset String} (hold : old = oldVer.elim ∅ v.fwd)
    (hmem : v.tag ∈ Set.uIcc (old : Set String) (v.fwd newVer)) :
    Wp (listRedis origin id)
      (w.applyStreamedDiff id oldVer newVer v.tok resume old.card newCard)
      (fun _ v' => old = ∅ ∧ v'.tag = v.fwd newVer ∨ old ≠ ∅ ∧
        TakenUp (w.partOf (w.partitionCount old.card newCard)) old (v.fwd newVer) v.tag resume
          (w.partitionCount old.card newCard) v'.tag) (fun _ => True) v := by
  refine Wp.ite (fun hzero => ?_) fun hzero => ?_
  · have hempty : old = ∅ := Finset.card_eq_zero.mp hzero
    have hsub : v.tag ⊆ v.fwd newVer := by
      intro m hm
      exact ((mem_uIcc_iff.mp hmem m).2 hm).resolve_left (by simp [hempty])
    refine (w.wp_fanoutScan newVer true newCard).mono ?_ fun _ _ => trivial
    intro _ v' hv'
    rw [hv']
    exact .inl ⟨hempty, Set.union_eq_right.mpr hsub⟩
  have hne : old ≠ ∅ := fun hempty => hzero (Finset.card_eq_zero.mpr hempty)
  cases oldVer with
  | none => exact .throw trivial
  | some oldVer =>
    obtain rfl : old = v.fwd oldVer := hold
    refine Wp.ite (fun _ => .throw trivial) fun hle => ?_
    refine Wp.seq (P := fun _ v' => v' = v) ?_ ?_
    · refine Wp.fold (I := fun _ _ v' => v' = v) (fun _ _ _ _ => trivial) _ [] 0 v ?_ rfl
        fun _ _ h => h
      intro done acc part _ v' hv'
      subst hv'
      exact Wp.bind (w.wp_scanPartition trivial (.pure trivial rfl))
    intro verified v' hv'
    subst hv'
    have hstart : TakenUp (w.partOf (w.partitionCount (v'.fwd oldVer).card newCard))
        (v'.fwd oldVer) (v'.fwd newVer) v'.tag resume resume v'.tag := .start_self hmem
    have hloop := w.wp_diffPartitions_tag (v := v') origin id (v'.fwd oldVer).card newCard
      w.partitionInv_takenUp (w.partitionCount (v'.fwd oldVer).card newCard - resume) resume verified
      hstart
    rw [Nat.add_sub_cancel' (Nat.not_lt.mp hle)] at hloop
    refine Wp.seq hloop ?_
    intro total v'' hs
    exact Wp.ite (fun _ => .throw trivial) fun _ => .pure trivial (.inr ⟨hne, hs⟩)

end IdListSyncWorker

end ForwardProxy.IdList
