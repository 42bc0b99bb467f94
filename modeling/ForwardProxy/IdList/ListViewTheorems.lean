/-
ForwardProxy.IdList.ListViewTheorems — one proof rule per command, on the
view of the list the command is about.

A read asks for nothing but its continuation at the reply; a write also
asks for the exit condition before it. The renewals of the claim never
change the view, and where they fail the run ends in it.
-/
import ForwardProxy.IdList.ListView
import ForwardProxy.IdList.Worker

namespace ForwardProxy.IdList

open Effect

variable {origin : String → List UInt8} {id : ListId} {α β σ : Type}
  {Q : β → ListView → Prop} {X : ListView → Prop} {v : ListView}

/-! ## Writes -/

namespace ListView

@[simp]
theorem after_saddMember (m : String) :
    v.after id (.saddMember id.skh m v.tok) = v.setTag (insert m v.tag) := by
  simp [after]

@[simp]
theorem after_sremMember (m : String) :
    v.after id (.sremMember id.skh m v.tok) = v.setTag (v.tag \ {m}) := by
  simp [after]

@[simp]
theorem after_saddFwd (ver m : String) :
    v.after id (.saddFwd id ver m) = v.setFwd ver (insert m (v.fwd ver)) := by
  simp [after]

@[simp]
theorem after_sremFwd (ver m : String) :
    v.after id (.sremFwd id ver m) = v.setFwd ver ((v.fwd ver).erase m) := by
  simp [after]

@[simp]
theorem after_delFwd (ver : String) : v.after id (.delFwd id ver) = v.setFwd ver ∅ := by
  simp [after]

@[simp]
theorem after_hsetState (fs : List StateField) :
    v.after id (.hsetState id fs) = v.setState (v.state.setAll fs) := by
  simp [after]

@[simp]
theorem after_hdelState (fs : List StateFieldName) :
    v.after id (.hdelState id fs) = v.setState (v.state.delAll fs) := by
  simp [after]

@[simp]
theorem after_expireFwd (ver : String) : v.after id (.expireFwd id ver) = v := rfl

@[simp]
theorem after_persistFwd (ver : String) : v.after id (.persistFwd id ver) = v := rfl

@[simp]
theorem after_saddAll : v.after id (.saddAll id) = v := rfl

@[simp]
theorem after_delReady (skh : String) : v.after id (.delReady skh) = v := rfl

@[simp]
theorem after_hsetDictDisabled (skh : String) : v.after id (.hsetDictDisabled skh) = v := rfl

@[simp]
theorem setTag_setTag (s t : Set String) : (v.setTag s).setTag t = v.setTag t := rfl

@[simp]
theorem setTag_self : v.setTag v.tag = v := rfl

end ListView

theorem wp_write {w : Write} {f : Unit → Redis β} (hw : w.isHdelDict = false) (hX : X v)
    (h : Wp (listRedis origin id) (f ()) Q X (v.after id w)) :
    Wp (listRedis origin id) (write w >>= f) Q X v := by
  refine Wp.cmdBind hX fun r v' hstep => ?_
  have hv' : v' = v.after id w := by
    change if w.isHdelDict then _ else _ at hstep
    simpa [hw] using hstep
  subst hv'
  exact h

/-- A write at the end of a program. -/
theorem wp_write_end {w : Write} {Q : Unit → ListView → Prop} (hw : w.isHdelDict = false)
    (hX : X v) (hX' : X (v.after id w)) (hQ : Q () (v.after id w)) :
    Wp (listRedis origin id) (write w) Q X v := by
  refine Wp.cmd hX fun r v' hstep => ?_
  have hv' : v' = v.after id w := by
    change if w.isHdelDict then _ else _ at hstep
    simpa [hw] using hstep
  subst hv'
  exact ⟨hX', hQ⟩

theorem wp_multi {ws : List Write} {f : Unit → Redis β} (hws : ∀ w ∈ ws, w.isHdelDict = false)
    (hX : X v) (h : Wp (listRedis origin id) (f ()) Q X (ws.foldl (ListView.after id) v)) :
    Wp (listRedis origin id) (multi ws >>= f) Q X v := by
  refine Wp.cmdBind hX fun r v' hstep => ?_
  obtain rfl := hstep hws
  exact h

/-! ## Reads -/

theorem wp_hgetState {f : StateHash → Redis β}
    (h : Wp (listRedis origin id) (f v.state) Q X v) :
    Wp (listRedis origin id) (hgetState id >>= f) Q X v := by
  refine Wp.cmdBind h.exit fun r v' hstep => ?_
  obtain ⟨hr, rfl⟩ := hstep
  obtain rfl := hr rfl
  exact h

theorem wp_keyExists {ver : String} {f : Bool → Redis β}
    (h : Wp (listRedis origin id) (f (decide (v.fwd ver ≠ ∅))) Q X v) :
    Wp (listRedis origin id) (keyExists id ver >>= f) Q X v := by
  refine Wp.cmdBind h.exit fun r v' hstep => ?_
  obtain ⟨hr, rfl⟩ := hstep
  obtain rfl := hr rfl
  exact h

theorem wp_scard {ver : String} {f : Nat → Redis β}
    (h : Wp (listRedis origin id) (f (v.fwd ver).card) Q X v) :
    Wp (listRedis origin id) (scard id ver >>= f) Q X v := by
  refine Wp.cmdBind h.exit fun r v' hstep => ?_
  obtain ⟨hr, rfl⟩ := hstep
  obtain rfl := hr rfl
  exact h

theorem wp_ttl {ver : String} {f : Int → Redis β} (hX : X v)
    (h : ∀ t, Wp (listRedis origin id) (f t) Q X v) :
    Wp (listRedis origin id) (ttl id ver >>= f) Q X v := by
  refine Wp.cmdBind hX fun r v' hstep => ?_
  obtain rfl : v' = v := hstep
  exact h r

theorem wp_sscan {ver : String} {f : List (List String) → Redis β} (hX : X v)
    (h : ∀ pages, PagesOf (v.fwd ver) pages → Wp (listRedis origin id) (f pages) Q X v) :
    Wp (listRedis origin id) (sscan id ver >>= f) Q X v := by
  refine Wp.cmdBind hX fun r v' hstep => ?_
  obtain ⟨hr, rfl⟩ := hstep
  exact h r (hr rfl)

theorem wp_scanMembers {f : List (List String) → Redis β} (hX : X v)
    (h : ∀ pages : List (List String), (∀ m ∈ v.tag, m ∈ pages.flatten) →
      Wp (listRedis origin id) (f pages) Q X v) :
    Wp (listRedis origin id) (scanMembers id.skh >>= f) Q X v := by
  refine Wp.cmdBind hX fun r v' hstep => ?_
  obtain ⟨hr, rfl⟩ := hstep
  exact h r (hr rfl)

theorem wp_getOrAllocateToken {f : Nat → Redis β}
    (h : Wp (listRedis origin id) (f v.tok) Q X v) :
    Wp (listRedis origin id) (getOrAllocateToken id >>= f) Q X v := by
  refine Wp.cmdBind h.exit fun r v' hstep => ?_
  change if id = id then _ else _ at hstep
  rw [if_pos rfl] at hstep
  obtain ⟨rfl, rfl⟩ := hstep
  exact h

theorem wp_getToken {f : Option Nat → Redis β} (hX : X v)
    (h : ∀ r, (∀ t, r = some t → t = v.tok) → Wp (listRedis origin id) (f r) Q X v) :
    Wp (listRedis origin id) (getToken id >>= f) Q X v := by
  refine Wp.cmdBind hX fun r v' hstep => ?_
  obtain ⟨hr, rfl⟩ := hstep
  exact h r (hr rfl)

theorem wp_iterate {s : Finset String} {f : List String → Redis β} (hX : X v)
    (h : ∀ xs : List String, xs.toFinset = s → Wp (listRedis origin id) (f xs) Q X v) :
    Wp (listRedis origin id) (iterate s >>= f) Q X v := by
  refine Wp.cmdBind hX fun r v' hstep => ?_
  obtain ⟨hr, rfl⟩ := hstep
  exact h r hr.2

theorem wp_keyMissing {expected : Bool} {ver : String} {f : Bool → Redis β}
    (h : Wp (listRedis origin id) (f (expected && decide (v.fwd ver = ∅))) Q X v) :
    Wp (listRedis origin id) (keyMissing expected id ver >>= f) Q X v := by
  cases expected with
  | false => exact h
  | true =>
    have hexists : (true && decide (v.fwd ver = ∅)) = !decide (v.fwd ver ≠ ∅) := by simp
    rw [hexists] at h
    exact wp_keyExists h

theorem wp_scardOpt {ver : Option String} {f : Nat → Redis β}
    (h : Wp (listRedis origin id) (f (ver.elim 0 fun x => (v.fwd x).card)) Q X v) :
    Wp (listRedis origin id) (scardOpt id ver >>= f) Q X v := by
  cases ver with
  | none => exact h
  | some x => exact wp_scard h

/-! ## The claim -/

theorem wp_ensureHeld {f : Unit → Redis β} (h : Wp (listRedis origin id) (f ()) Q X v) :
    Wp (listRedis origin id) (ensureHeld >>= f) Q X v := by
  refine Wp.seq (P := fun _ v' => v' = v) ?_ fun _ v' hv' => hv' ▸ h
  refine Wp.cmdBind h.exit fun r v' hstep => ?_
  obtain rfl : v' = v := hstep
  exact Wp.ite (fun _ => .pure h.exit rfl) fun _ => .throw h.exit

theorem wp_renewNow {f : Unit → Redis β} (h : Wp (listRedis origin id) (f ()) Q X v) :
    Wp (listRedis origin id) (renewNow >>= f) Q X v := by
  refine Wp.seq (P := fun _ v' => v' = v) ?_ fun _ v' hv' => hv' ▸ h
  refine wp_ensureHeld (Wp.cmdBind h.exit fun r v' hstep => ?_)
  obtain rfl : v' = v := hstep
  exact Wp.ite (fun _ => .pure h.exit rfl) fun _ => .throw h.exit

theorem wp_renewEvery {n : Nat} {f : Unit → Redis β}
    (h : Wp (listRedis origin id) (f ()) Q X v) :
    Wp (listRedis origin id) (renewEvery n >>= f) Q X v := by
  unfold renewEvery Prog.when
  split
  · exact wp_renewNow h
  · exact h

/-- The loop over the pages of a scan: `I done` holds when the elements of
`done` have been processed. -/
theorem wp_foldPages {body : σ → List String → Redis σ} {I : List String → σ → ListView → Prop}
    {Q : σ → ListView → Prop} (hI : ∀ done acc v, I done acc v → X v) :
    ∀ (pages : List (List String)) (n : Nat) (done : List String) (acc : σ) (v : ListView),
      (∀ done acc, ∀ page ∈ pages, ∀ v, I done acc v →
        Wp (listRedis origin id) (body acc page) (fun acc' v' => I (done ++ page) acc' v') X v) →
      I done acc v → (∀ acc' v', I (done ++ pages.flatten) acc' v' → Q acc' v') →
      Wp (listRedis origin id) (foldPages body acc n pages) Q X v
  | [], n, done, acc, v, _, h, hQ => .pure (hI done acc v h) (hQ acc v (by simpa using h))
  | page :: pages, n, done, acc, v, hstep, h, hQ => by
      refine Wp.seq (hstep done acc page (by simp) v h) fun acc' v' hv' => wp_renewEvery ?_
      exact wp_foldPages hI pages (n + 1) (done ++ page) acc' v'
        (fun done acc page' hp => hstep done acc page' (by simp [hp])) hv' (by simpa using hQ)

/-- A PERSIST does not show in the view. -/
theorem wp_ensureCurrentVersionPersisted {state : ListSyncState} {f : Unit → Redis β}
    (h : Wp (listRedis origin id) (f ()) Q X v) :
    Wp (listRedis origin id) (IdListSyncWorker.ensureCurrentVersionPersisted id state >>= f)
      Q X v := by
  refine Wp.seq (P := fun _ v' => v' = v) ?_ fun _ v' hv' => hv' ▸ h
  refine Wp.ite (fun _ => .pure h.exit rfl) fun _ => wp_ttl h.exit fun t => ?_
  exact Wp.when (fun _ => wp_write_end rfl h.exit h.exit rfl) (fun _ => h.exit) fun _ => rfl

end ForwardProxy.IdList
