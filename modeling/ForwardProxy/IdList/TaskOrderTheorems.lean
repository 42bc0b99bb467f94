/-
ForwardProxy.IdList.TaskOrderTheorems — the order and the scores of the
tasks of a tick (`order_and_dedupe_tasks`).

`taskLe` is the lexicographic order of `taskKey`, so it is a total order
up to ties. The loop then runs over a sorted list. Its first task of a
list is one of that list's highest class and largest lag
(`dedupeTasks_first`), what it keeps is a sublist and stays sorted, and
its scores count upwards in each class (`dedupeTasks_score`).
-/
import Mathlib.Data.Prod.Lex
import Mathlib.Data.String.Basic
import Mathlib.Order.OrderDual
import ForwardProxy.IdList.ProducerTheorems

namespace ForwardProxy.IdList

/-! ## The order -/

/-- What the tasks are sorted by: class, lag downwards, namespace, name. -/
def taskKey (t : DerivedTask) : ℕ ×ₗ ℕᵒᵈ ×ₗ String ×ₗ String :=
  toLex (t.action.class, toLex (OrderDual.toDual t.action.lag, toLex (t.id.skh, t.id.list)))

theorem taskLe_iff (a b : DerivedTask) : taskLe a b = true ↔ taskKey a ≤ taskKey b := by
  unfold taskLe taskKey
  simp only [Prod.Lex.toLex_le_toLex]
  by_cases hclass : a.action.class = b.action.class
  · by_cases hlag : a.action.lag = b.action.lag
    · by_cases hskh : a.id.skh = b.id.skh
      · simp [hclass, hlag, hskh]
      · simp [hclass, hlag, hskh]
    · simp [hclass, hlag]
  · simp [hclass]

instance : Std.Total fun a b : DerivedTask => taskLe a b = true where
  total a b := by
    rw [taskLe_iff, taskLe_iff]
    exact le_total _ _

instance : IsTrans DerivedTask fun a b => taskLe a b = true where
  trans a b c hab hbc := by
    rw [taskLe_iff] at *
    exact hab.trans hbc

theorem taskLe_refl (a : DerivedTask) : taskLe a a = true := (taskLe_iff a a).mpr le_rfl

/-- The order in terms of classes and lags. -/
theorem class_lag_of_taskLe {a b : DerivedTask} (h : taskLe a b = true) :
    a.action.class ≤ b.action.class ∧
      (b.action.class = a.action.class → b.action.lag ≤ a.action.lag) := by
  unfold taskLe at h
  split at h
  · rename_i hne
    simp only [decide_eq_true_eq] at h
    exact ⟨h.le, fun heq => absurd heq.symm hne⟩
  · rename_i hclass
    rw [not_not] at hclass
    refine ⟨hclass.le, fun _ => ?_⟩
    split at h
    · simp only [decide_eq_true_eq] at h
      exact h.le
    · rename_i hlag
      rw [not_not] at hlag
      exact hlag.ge

/-! ## The loop -/

section Loop

variable {seen : List ListId} {seqByClass : Nat → Nat} {tasks : List DerivedTask}

theorem dedupeTasks_not_seen {item : Nat × DerivedTask}
    (h : item ∈ dedupeTasks seen seqByClass tasks) : item.2.id ∉ seen := by
  induction tasks generalizing seen seqByClass with
  | nil => simp [dedupeTasks] at h
  | cons task tasks ih =>
    rw [dedupeTasks] at h
    split at h
    · exact ih h
    · rename_i hnew
      rcases List.mem_cons.mp h with rfl | h
      · exact hnew
      · exact fun hseen => ih h (List.mem_cons_of_mem _ hseen)

theorem dedupeTasks_nodup : ((dedupeTasks seen seqByClass tasks).map (·.2.id)).Nodup := by
  induction tasks generalizing seen seqByClass with
  | nil => simp [dedupeTasks]
  | cons task tasks ih =>
    rw [dedupeTasks]
    split
    · exact ih
    · rw [List.map_cons, List.nodup_cons]
      refine ⟨?_, ih⟩
      intro hmem
      obtain ⟨item, hitem, hid⟩ := List.mem_map.mp hmem
      exact dedupeTasks_not_seen hitem (by simp [hid])

theorem dedupeTasks_sublist : ((dedupeTasks seen seqByClass tasks).map Prod.snd).Sublist tasks := by
  induction tasks generalizing seen seqByClass with
  | nil => simp [dedupeTasks]
  | cons task tasks ih =>
    rw [dedupeTasks]
    split
    · exact ih.cons task
    · exact ih.cons_cons task

/-- The task that is kept comes before the others of its list. -/
theorem dedupeTasks_first (hsorted : tasks.Pairwise fun a b => taskLe a b = true)
    {item : Nat × DerivedTask} (h : item ∈ dedupeTasks seen seqByClass tasks)
    {task : DerivedTask} (htask : task ∈ tasks) (hid : task.id = item.2.id) :
    taskLe item.2 task = true := by
  induction tasks generalizing seen seqByClass with
  | nil => simp at htask
  | cons first tasks ih =>
    obtain ⟨hfirst, hsorted⟩ := List.pairwise_cons.mp hsorted
    rw [dedupeTasks] at h
    split at h
    · rename_i hseen
      rcases List.mem_cons.mp htask with rfl | htask
      · exact absurd (hid ▸ hseen) (dedupeTasks_not_seen h)
      · exact ih hsorted h htask
    · rcases List.mem_cons.mp h with rfl | h
      · rcases List.mem_cons.mp htask with rfl | htask
        · exact taskLe_refl task
        · exact hfirst task htask
      · rcases List.mem_cons.mp htask with rfl | htask
        · exact absurd (by simp [hid]) (dedupeTasks_not_seen h)
        · exact ih hsorted h htask

/-- The tasks of a class. -/
def classCount (tasks : List DerivedTask) (cls : Nat) : Nat :=
  tasks.countP fun t => t.action.class = cls

theorem classCount_cons (task : DerivedTask) (tasks : List DerivedTask) (cls : Nat) :
    classCount (task :: tasks) cls =
      classCount tasks cls + if task.action.class = cls then 1 else 0 := by
  simp [classCount, List.countP_cons]

/-- A score counts from the number that its class had reached. -/
theorem dedupeTasks_score {item : Nat × DerivedTask}
    (h : item ∈ dedupeTasks seen seqByClass tasks) :
    ∃ seq, item.1 = taskScore item.2.action.class seq ∧ seqByClass item.2.action.class ≤ seq ∧
      seq < seqByClass item.2.action.class + classCount tasks item.2.action.class := by
  induction tasks generalizing seen seqByClass with
  | nil => simp [dedupeTasks] at h
  | cons task tasks ih =>
    rw [dedupeTasks] at h
    rw [classCount_cons]
    split at h
    · obtain ⟨seq, hseq, hlow, hhigh⟩ := ih h
      exact ⟨seq, hseq, hlow, by omega⟩
    · rcases List.mem_cons.mp h with rfl | h
      · refine ⟨_, rfl, le_rfl, ?_⟩
        simp only [if_true]
        omega
      · obtain ⟨seq, hseq, hlow, hhigh⟩ := ih h
        refine ⟨seq, hseq, ?_⟩
        by_cases hclass : task.action.class = item.2.action.class
        · rw [hclass, Function.update_self] at hlow hhigh
          rw [if_pos hclass]
          omega
        · rw [Function.update_of_ne (Ne.symm hclass)] at hlow hhigh
          rw [if_neg hclass]
          omega

/-- With room for its tasks in every class, the scores of sorted tasks
increase. -/
theorem dedupeTasks_increasing (hsorted : tasks.Pairwise fun a b => taskLe a b = true)
    (hroom : ∀ cls, seqByClass cls + classCount tasks cls ≤ classScoreBase) :
    ((dedupeTasks seen seqByClass tasks).map Prod.fst).Pairwise (· < ·) := by
  induction tasks generalizing seen seqByClass with
  | nil => simp [dedupeTasks]
  | cons task tasks ih =>
    obtain ⟨hfirst, hsorted⟩ := List.pairwise_cons.mp hsorted
    have hcount := classCount_cons task tasks
    rw [dedupeTasks]
    split
    · refine ih hsorted fun cls => ?_
      have := hroom cls
      rw [hcount] at this
      omega
    · rw [List.map_cons, List.pairwise_cons]
      constructor
      · intro score hscore
        obtain ⟨item, hitem, rfl⟩ := List.mem_map.mp hscore
        obtain ⟨seq, hseq, hlow, _⟩ := dedupeTasks_score hitem
        have hclass := (class_lag_of_taskLe (hfirst item.2 (IdListSyncProducer.mem_dedupeTasks hitem))).1
        rw [hseq]
        unfold taskScore
        rcases hclass.eq_or_lt with heq | hlt
        · rw [← heq, Function.update_self] at hlow
          rw [heq] at hlow ⊢
          omega
        · -- The next class starts after the last number of this one.
          have hband := hroom task.action.class
          rw [hcount, if_pos rfl] at hband
          have hnext : (task.action.class + 1) * classScoreBase ≤
              item.2.action.class * classScoreBase := Nat.mul_le_mul_right _ hlt
          rw [Nat.succ_mul] at hnext
          omega
      · refine ih hsorted fun cls => ?_
        have := hroom cls
        rw [hcount] at this
        by_cases hclass : task.action.class = cls
        · rw [hclass, Function.update_self]
          rw [if_pos hclass] at this
          omega
        · rw [Function.update_of_ne (Ne.symm hclass)]
          omega

end Loop

/-! ## The tasks of a tick -/

theorem class_le_two (action : SyncAction) : action.class ≤ 2 := by
  cases action <;> simp [SyncAction.class]

/-- What two tasks tie on. -/
def tieKey (t : DerivedTask) : Nat × Nat × ListId := (t.action.class, t.action.lag, t.id)

theorem tieKey_of_taskKey {a b : DerivedTask} (h : taskKey a = taskKey b) :
    tieKey a = tieKey b := by
  unfold taskKey at h
  simp only [EmbeddingLike.apply_eq_iff_eq, Prod.mk.injEq] at h
  obtain ⟨hclass, hlag, hskh, hlist⟩ := h
  have hid : a.id = b.id := by
    cases ha : a.id
    cases hb : b.id
    simp_all
  rw [tieKey, tieKey, hclass, hlag, hid]

/-- The sorted tasks do not depend on their order if no two tie. -/
theorem sorted_perm {tasks tasks' : List DerivedTask} (hperm : tasks.Perm tasks')
    (hties : (tasks.map tieKey).Nodup) :
    (tasks.insertionSort fun a b => taskLe a b = true) =
      tasks'.insertionSort fun a b => taskLe a b = true := by
  refine List.Perm.eq_of_pairwise ?_ (List.pairwise_insertionSort _ tasks)
    (List.pairwise_insertionSort _ tasks') ?_
  · intro a b ha hb hab hba
    rw [taskLe_iff] at hab hba
    rw [List.mem_insertionSort] at ha hb
    exact List.inj_on_of_nodup_map hties ha (hperm.mem_iff.mpr hb)
      (tieKey_of_taskKey (le_antisymm hab hba))
  · exact (List.perm_insertionSort _ tasks).trans
      (hperm.trans (List.perm_insertionSort _ tasks').symm)

/-- For fewer than 2^40 tasks of every class: one entry for each list with
a task, with an action of its highest class and of the largest lag there;
the scores increase, each lies in the band of its class and in the range
that a double holds exactly; so classes come in order, and in a class the
larger lags first. Without ties the order of the input does not show. -/
theorem tasks_ordered_and_deduped (tasks : List DerivedTask)
    (hcount : ∀ cls, classCount tasks cls < classScoreBase) :
    ((orderAndDedupeTasks tasks).map (·.2.id)).Nodup ∧
    (∀ id, id ∈ (orderAndDedupeTasks tasks).map (·.2.id) ↔ id ∈ tasks.map (·.id)) ∧
    (∀ item ∈ orderAndDedupeTasks tasks, item.2 ∈ tasks ∧
      ∀ task ∈ tasks, task.id = item.2.id →
        item.2.action.class ≤ task.action.class ∧
          (task.action.class = item.2.action.class → task.action.lag ≤ item.2.action.lag)) ∧
    ((orderAndDedupeTasks tasks).map Prod.fst).Pairwise (· < ·) ∧
    (∀ item ∈ orderAndDedupeTasks tasks,
      item.2.action.class * classScoreBase ≤ item.1 ∧
        item.1 < (item.2.action.class + 1) * classScoreBase ∧ item.1 < 2 ^ 53) ∧
    ((orderAndDedupeTasks tasks).Pairwise fun a b =>
      a.2.action.class ≤ b.2.action.class ∧
        (b.2.action.class = a.2.action.class → b.2.action.lag ≤ a.2.action.lag)) ∧
    ∀ tasks', tasks.Perm tasks' → (tasks.map tieKey).Nodup →
      orderAndDedupeTasks tasks' = orderAndDedupeTasks tasks := by
  have hsorted := List.pairwise_insertionSort (fun a b : DerivedTask => taskLe a b = true) tasks
  have hperm := List.perm_insertionSort (fun a b : DerivedTask => taskLe a b = true) tasks
  have hclasses : ∀ cls, classCount
      (tasks.insertionSort fun a b : DerivedTask => taskLe a b = true) cls = classCount tasks cls :=
    fun cls => hperm.countP_eq _
  refine ⟨dedupeTasks_nodup, ?_, ?_, ?_, ?_, ?_, ?_⟩
  · intro id
    simp only [List.mem_map]
    constructor
    · rintro ⟨item, hitem, rfl⟩
      exact ⟨item.2, IdListSyncProducer.mem_ordered hitem, rfl⟩
    · rintro ⟨task, htask, rfl⟩
      exact IdListSyncProducer.exists_mem_ordered htask
  · intro item hitem
    refine ⟨IdListSyncProducer.mem_ordered hitem, fun task htask hid => ?_⟩
    exact class_lag_of_taskLe
      (dedupeTasks_first hsorted hitem (hperm.mem_iff.mpr htask) hid)
  · refine dedupeTasks_increasing hsorted fun cls => ?_
    rw [hclasses, Nat.zero_add]
    exact (hcount cls).le
  · intro item hitem
    obtain ⟨seq, hseq, _, hhigh⟩ := dedupeTasks_score hitem
    have hlt := hcount item.2.action.class
    have hclass := class_le_two item.2.action
    rw [hclasses, Nat.zero_add] at hhigh
    rw [hseq]
    unfold taskScore classScoreBase at *
    omega
  · have hkept : ((orderAndDedupeTasks tasks).map Prod.snd).Pairwise fun a b => taskLe a b = true :=
      hsorted.sublist dedupeTasks_sublist
    rw [List.pairwise_map] at hkept
    exact hkept.imp class_lag_of_taskLe
  · intro tasks' hperm' hties
    unfold orderAndDedupeTasks
    rw [sorted_perm hperm' hties]

/-- A full load wins over a delta of the same list, and a larger lag goes
first. -/
theorem tasks_ordered_and_deduped_four :
    let tasks : List DerivedTask := [⟨⟨"skh", "x"⟩, .delta 5, none⟩, ⟨⟨"skh", "y"⟩, .delta 9, none⟩,
      ⟨⟨"skh", "x"⟩, .fullLoad, none⟩, ⟨⟨"skh", "z"⟩, .delta 10, none⟩]
    ((orderAndDedupeTasks tasks).map (·.2.id)).Nodup ∧
      (orderAndDedupeTasks tasks).map (fun item => (item.1, item.2.id.list)) =
        [(0, "x"), (2 ^ 40, "z"), (2 ^ 40 + 1, "y")] := by
  intro tasks
  have hcount : ∀ cls, classCount tasks cls < classScoreBase := fun cls =>
    lt_of_le_of_lt List.countP_le_length (by decide)
  exact ⟨(tasks_ordered_and_deduped tasks hcount).1, by decide⟩

end ForwardProxy.IdList
