/-
ForwardProxy.Datastore.LogEventStoreTheorems — what a dropped exposure is a
duplicate of.

A request judges its events in order and sends those it retains. In every
run there are verdicts on the events of every batch that agree with the keys
it has looked up and with the body it has sent (`BatchReport`). A run loses
nothing if every duplicate among them is one of an event that the same batch
retains, or of one in a body that upstream has accepted (`LosesNothing`).

A key is recorded when it is looked up, long before the batch is sent, and
stays recorded if the batch does not arrive. So an exposure may be dropped
whose only other copy is lost. `settledFirst` is the order of look-ups and
outcomes in which that does not happen, and no other has the property.
-/
import Mathlib.Data.List.Forall2
import ForwardProxy.Effect.Interleave
import ForwardProxy.Datastore.LogEventStore

namespace ForwardProxy.Datastore

open Effect

/-! ## What becomes of an event -/

inductive Verdict where
  | invalid
  /-- It is no exposure. -/
  | keyless
  | kept (key : String)
  | duplicate (key : String)
  deriving DecidableEq, Repr

def Verdict.retains : Verdict → Bool
  | .keyless | .kept _ => true
  | .invalid | .duplicate _ => false

/-- The look-up it took. -/
def Verdict.lookUp : Verdict → Option (String × Bool)
  | .kept key => some (key, true)
  | .duplicate key => some (key, false)
  | .invalid | .keyless => none

/-- The verdict is one on this event. -/
def Judges (sdkKey : String) (globalMetadata : Option StatsigMetadata) :
    PossiblyLogEvent → Verdict → Prop
  | .invalidLogEvent, .invalid => True
  | .validLogEvent event, .keyless => ∃ now, computeKey sdkKey event globalMetadata now = none
  | .validLogEvent event, .kept key | .validLogEvent event, .duplicate key =>
    ∃ now, computeKey sdkKey event globalMetadata now = some key
  | _, _ => False

/-- The events that stay. -/
def retained (events : List PossiblyLogEvent) (verdicts : List Verdict) :
    List PossiblyLogEvent :=
  ((events.zip verdicts).filter fun p => p.2.retains).map Prod.fst

theorem retained_concat {events : List PossiblyLogEvent} {verdicts : List Verdict}
    (h : events.length = verdicts.length) (event : PossiblyLogEvent) (verdict : Verdict) :
    retained (events ++ [event]) (verdicts ++ [verdict]) =
      if verdict.retains then retained events verdicts ++ [event]
      else retained events verdicts := by
  unfold retained
  rw [List.zip_append h]
  cases hretains : verdict.retains <;> simp [hretains]

/-- A key that is kept is that of an event that stays. -/
theorem mem_retained {sdkKey : String} {globalMetadata : Option StatsigMetadata}
    {events : List PossiblyLogEvent} {verdicts : List Verdict} {key : String}
    (h : List.Forall₂ (Judges sdkKey globalMetadata) events verdicts)
    (hkey : .kept key ∈ verdicts) :
    ∃ event, .validLogEvent event ∈ retained events verdicts ∧
      ∃ now, computeKey sdkKey event globalMetadata now = some key := by
  induction h with
  | nil => simp at hkey
  | @cons event verdict events verdicts hjudges _ ih =>
    rcases List.mem_cons.mp hkey with rfl | hkey
    · cases event with
      | invalidLogEvent => exact absurd hjudges (by simp [Judges])
      | validLogEvent e => exact ⟨e, by simp [retained, Verdict.retains], hjudges⟩
    · obtain ⟨e, hmem, hcompute⟩ := ih hkey
      refine ⟨e, ?_, hcompute⟩
      unfold retained at hmem ⊢
      cases hretains : verdict.retains with
      | true => simpa [hretains] using .inr (by simpa using hmem)
      | false => simpa [hretains] using hmem

/-! ## The history -/

def lookUpBy (batch : Nat) : EventFact → Option (String × Bool)
  | .lookedUp batch' key new => if batch' = batch then some (key, new) else none
  | .cleared | .sent _ _ _ => none

/-- The look-ups of a batch, in order. -/
def lookUps (batch : Nat) (history : List EventFact) : List (String × Bool) :=
  (history.filterMap (lookUpBy batch)).reverse

def sendBy (batch : Nat) : EventFact → Option (LogEventRequest × SendOutcome)
  | .sent batch' data outcome => if batch' = batch then some (data, outcome) else none
  | .cleared | .lookedUp _ _ _ => none

/-- The sends of a batch. -/
def sends (batch : Nat) (history : List EventFact) : List (LogEventRequest × SendOutcome) :=
  history.filterMap (sendBy batch)

theorem lookUpBy_eq_some {batch : Nat} {fact : EventFact} {key : String} {new : Bool} :
    lookUpBy batch fact = some (key, new) ↔ fact = .lookedUp batch key new := by
  cases fact with
  | lookedUp batch' key' new' =>
    by_cases hbatch : batch' = batch <;> simp [lookUpBy, hbatch]
  | cleared => simp [lookUpBy]
  | sent batch' data outcome => simp [lookUpBy]

theorem sendBy_eq_some {batch : Nat} {fact : EventFact} {data : LogEventRequest}
    {outcome : SendOutcome} :
    sendBy batch fact = some (data, outcome) ↔ fact = .sent batch data outcome := by
  cases fact with
  | sent batch' data' outcome' =>
    by_cases hbatch : batch' = batch <;> simp [sendBy, hbatch]
  | cleared => simp [sendBy]
  | lookedUp batch' key new => simp [sendBy]

theorem mem_lookUps {batch : Nat} {key : String} {new : Bool} {history : List EventFact} :
    (key, new) ∈ lookUps batch history ↔ .lookedUp batch key new ∈ history := by
  simp [lookUps, lookUpBy_eq_some]

theorem mem_sends {batch : Nat} {data : LogEventRequest} {outcome : SendOutcome}
    {history : List EventFact} :
    (data, outcome) ∈ sends batch history ↔ .sent batch data outcome ∈ history := by
  simp [sends, sendBy_eq_some]

section

variable (batch batch' : Nat) (key : String) (new : Bool) (data : LogEventRequest)
  (outcome : SendOutcome) (history : List EventFact)

@[simp] theorem lookUps_lookedUp :
    lookUps batch (.lookedUp batch' key new :: history) =
      if batch' = batch then lookUps batch history ++ [(key, new)] else lookUps batch history := by
  by_cases hbatch : batch' = batch <;> simp [lookUps, lookUpBy, hbatch]

@[simp] theorem lookUps_cleared : lookUps batch (.cleared :: history) = lookUps batch history :=
  rfl

@[simp] theorem lookUps_sent :
    lookUps batch (.sent batch' data outcome :: history) = lookUps batch history :=
  rfl

@[simp] theorem sends_lookedUp :
    sends batch (.lookedUp batch' key new :: history) = sends batch history :=
  rfl

@[simp] theorem sends_cleared : sends batch (.cleared :: history) = sends batch history :=
  rfl

@[simp] theorem sends_sent :
    sends batch (.sent batch' data outcome :: history) =
      if batch' = batch then (data, outcome) :: sends batch history else sends batch history := by
  by_cases hbatch : batch' = batch <;> simp [sends, sendBy, hbatch]

end

/-- Where a look-up is in the history, and what came before it. -/
theorem lookUps_split {batch : Nat} {key : String} {new : Bool} {history : List EventFact}
    {before after : List (String × Bool)}
    (h : lookUps batch history = before ++ (key, new) :: after) :
    ∃ later earlier, history = later ++ .lookedUp batch key new :: earlier ∧
      lookUps batch earlier = before := by
  have hreverse : history.filterMap (lookUpBy batch) =
      after.reverse ++ (key, new) :: before.reverse := by
    rw [← List.reverse_reverse (history.filterMap _), ← lookUps, h]
    simp
  obtain ⟨newer, older, rfl, _, holder⟩ := List.filterMap_eq_append_iff.mp hreverse
  obtain ⟨others, fact, earlier, rfl, _, hfact, hearlier⟩ := List.filterMap_eq_cons_iff.mp holder
  rw [lookUpBy_eq_some] at hfact
  refine ⟨newer ++ others, earlier, by simp [hfact], ?_⟩
  rw [lookUps, hearlier, List.reverse_reverse]

/-- What the run shows of a batch: verdicts on its first events, or on all of
them once it is sent. -/
structure BatchReport (batch : Nat) (sdkKey : String) (request : LogEventRequest)
    (verdicts : List Verdict) (history : List EventFact) : Prop where
  judged : List.Forall₂ (Judges sdkKey request.statsigMetadata)
    (request.events.take verdicts.length) verdicts
  lookedUp : lookUps batch history = verdicts.filterMap Verdict.lookUp
  sent : ∀ data outcome, .sent batch data outcome ∈ history →
    verdicts.length = request.events.length ∧
      data = { request with events := retained request.events verdicts }

namespace BatchReport

variable {batch : Nat} {sdkKey : String} {request data : LogEventRequest}
  {verdicts : List Verdict} {history : List EventFact} {key : String}

theorem mem_verdicts (h : BatchReport batch sdkKey request verdicts history)
    {verdict : Verdict} {new : Bool} (hverdict : verdict.lookUp = some (key, new))
    (hmem : verdict ∈ verdicts) : .lookedUp batch key new ∈ history := by
  rw [← mem_lookUps, h.lookedUp]
  exact List.mem_filterMap.mpr ⟨verdict, hmem, hverdict⟩

theorem kept_of_lookedUp (h : BatchReport batch sdkKey request verdicts history)
    (hmem : .lookedUp batch key true ∈ history) : .kept key ∈ verdicts := by
  rw [← mem_lookUps, h.lookedUp] at hmem
  obtain ⟨verdict, hverdict, hlookUp⟩ := List.mem_filterMap.mp hmem
  cases verdict <;> simp_all [Verdict.lookUp]

/-- The event with a key that is kept is in the body that was sent. -/
theorem mem_sent (h : BatchReport batch sdkKey request verdicts history)
    {outcome : SendOutcome} (hkey : .kept key ∈ verdicts)
    (hsent : .sent batch data outcome ∈ history) :
    ∃ event, .validLogEvent event ∈ data.events ∧
      ∃ now, computeKey sdkKey event request.statsigMetadata now = some key := by
  obtain ⟨hlength, rfl⟩ := h.sent data outcome hsent
  have hjudged := h.judged
  rw [hlength, List.take_length] at hjudged
  exact mem_retained hjudged hkey

end BatchReport

section

variable (requests : Nat → String × LogEventRequest)

/-- An event with the key was in a body that upstream has accepted. -/
def Arrived (verdicts : Nat → List Verdict) (key : String) (history : List EventFact) : Prop :=
  ∃ batch data event, .sent batch data .accepted ∈ history ∧ .kept key ∈ verdicts batch ∧
    .validLogEvent event ∈ data.events ∧
    ∃ now, computeKey (requests batch).1 event (requests batch).2.statsigMetadata now = some key

/-- Every duplicate is one of an event that is there. -/
def LosesNothing (history : List EventFact) : Prop :=
  ∃ verdicts : Nat → List Verdict,
    (∀ batch, BatchReport batch (requests batch).1 (requests batch).2 (verdicts batch) history) ∧
    ∀ batch earlier key later, verdicts batch = earlier ++ .duplicate key :: later →
      .kept key ∈ earlier ∨ Arrived requests verdicts key history

end

/-! ## The condition -/

/-- What has happened since the set was last cleared. -/
def sinceClear : List EventFact → List EventFact
  | [] => []
  | .cleared :: _ => []
  | .lookedUp batch key new :: history => .lookedUp batch key new :: sinceClear history
  | .sent batch data outcome :: history => .sent batch data outcome :: sinceClear history

/-- The batches that have looked the key up. -/
def lookersOf (key : String) (history : List EventFact) : List Nat :=
  history.filterMap fun
    | .lookedUp batch key' _ => if key' = key then some batch else none
    | .cleared | .sent _ _ _ => none

def acceptedIn (batch : Nat) (history : List EventFact) : Bool :=
  (sends batch history).any fun p => p.2 = .accepted

/-- A key is looked up for the first time since the set was cleared, or some
look-up of it was by the same batch, or by one that upstream has accepted. -/
def settledFirst {η : Type} (s : EventServer η) : EventCmd → Bool
  | .insert batch key =>
    (lookersOf key (sinceClear s.history)).isEmpty ||
      (lookersOf key s.history).any fun batch' => batch' = batch || acceptedIn batch' s.history
  | .now | .len | .clear | .send _ _ => true

theorem mem_lookersOf {key : String} {batch : Nat} {history : List EventFact} :
    batch ∈ lookersOf key history ↔ ∃ new, .lookedUp batch key new ∈ history := by
  unfold lookersOf
  rw [List.mem_filterMap]
  constructor
  · rintro ⟨fact, hfact, hbatch⟩
    cases fact with
    | lookedUp batch' key' new =>
      obtain ⟨rfl, rfl⟩ : key' = key ∧ batch' = batch := by simpa using hbatch
      exact ⟨new, hfact⟩
    | cleared => simp at hbatch
    | sent batch' data outcome => simp at hbatch
  · rintro ⟨new, hfact⟩
    exact ⟨.lookedUp batch key new, hfact, by simp⟩

theorem acceptedIn_iff {batch : Nat} {history : List EventFact} :
    acceptedIn batch history = true ↔ ∃ data, .sent batch data .accepted ∈ history := by
  simp [acceptedIn, mem_sends]

theorem settledFirst_insert {η : Type} {s : EventServer η} {batch : Nat} {key : String} :
    settledFirst s (.insert batch key) = true ↔
      (∀ batch' new, .lookedUp batch' key new ∉ sinceClear s.history) ∨
      ∃ batch' new, .lookedUp batch' key new ∈ s.history ∧
        (batch' = batch ∨ ∃ data, .sent batch' data .accepted ∈ s.history) := by
  simp only [settledFirst, Bool.or_eq_true, List.isEmpty_iff, List.any_eq_true,
    decide_eq_true_eq, acceptedIn_iff, mem_lookersOf, List.eq_nil_iff_forall_not_mem, not_exists]
  constructor
  · rintro (hnone | ⟨batch', ⟨new, hmem⟩, hsettled⟩)
    · exact .inl hnone
    · exact .inr ⟨batch', new, hmem, hsettled⟩
  · rintro (hnone | ⟨batch', new, hmem, hsettled⟩)
    · exact .inl hnone
    · exact .inr ⟨batch', ⟨new, hmem⟩, hsettled⟩

section

variable {η : Type} [DecidableEq η] {hash : String → η}

/-! ## One command -/

/-- The set holds the hashes of the keys looked up since it was cleared. -/
def CacheSound (hash : String → η) (s : EventServer η) : Prop :=
  ∀ h, h ∈ s.dedupeCache ↔ ∃ batch key new,
    .lookedUp batch key new ∈ sinceClear s.history ∧ hash key = h

theorem cacheSound_step {s s' : EventServer η} {c : EventCmd} {r : c.Reply}
    (h : CacheSound hash s) (hstep : (eventServer hash).step s c r s') :
    CacheSound hash s' := by
  cases c with
  | now =>
    obtain rfl : s' = s := hstep
    exact h
  | len =>
    obtain ⟨_, rfl⟩ : _ ∧ s' = s := hstep
    exact h
  | clear =>
    obtain rfl : s' = ⟨∅, .cleared :: s.history⟩ := hstep
    simp [CacheSound, sinceClear]
  | insert batch key =>
    have hs' : (s.insert hash batch key).2 = s' := congrArg Prod.snd hstep
    rw [← hs', EventServer.insert]
    intro x
    simp only [Finset.mem_insert, h x, sinceClear, List.mem_cons]
    constructor
    · rintro (rfl | ⟨batch', key', new, hmem, hhash⟩)
      · exact ⟨batch, key, _, .inl rfl, rfl⟩
      · exact ⟨batch', key', new, .inr hmem, hhash⟩
    · rintro ⟨batch', key', new, hfact | hmem, hhash⟩
      · obtain ⟨-, rfl, -⟩ := EventFact.lookedUp.inj hfact
        exact .inl hhash.symm
      · exact .inr ⟨batch', key', new, hmem, hhash⟩
  | send batch data =>
    obtain rfl : s' = { s with history := .sent batch data r :: s.history } := hstep
    simpa [CacheSound, sinceClear] using h

/-- The reply to a look-up, by what has been looked up. -/
theorem insert_reply (hinj : Function.Injective hash) {s s' : EventServer η}
    (hsound : CacheSound hash s) {batch : Nat} {key : String} {new : Bool}
    (hstep : (eventServer hash).step s (.insert batch key) new s') :
    s'.history = .lookedUp batch key new :: s.history ∧
      (new = true ↔ ∀ batch' new', .lookedUp batch' key new' ∉ sinceClear s.history) := by
  have hinsert : s.insert hash batch key = (new, s') := hstep
  obtain ⟨rfl, rfl⟩ := Prod.mk.inj hinsert
  refine ⟨rfl, ?_⟩
  rw [decide_eq_true_eq, hsound]
  constructor
  · intro hnone batch' new' hmem
    exact hnone ⟨batch', key, new', hmem, rfl⟩
  · rintro hnone ⟨batch', key', new', hmem, hhash⟩
    exact hnone batch' new' (hinj hhash ▸ hmem)

/-- A key that was found is one of a look-up that found none, by the same
batch, or by one that upstream has accepted. -/
def Backed (history : List EventFact) : Prop :=
  ∀ later earlier batch key, history = later ++ .lookedUp batch key false :: earlier →
    .lookedUp batch key true ∈ earlier ∨
      ∃ batch' data, .lookedUp batch' key true ∈ earlier ∧ .sent batch' data .accepted ∈ earlier

theorem Backed.cons {fact : EventFact} {history : List EventFact} (h : Backed history)
    (hfact : ∀ batch key, fact = .lookedUp batch key false →
      .lookedUp batch key true ∈ history ∨ ∃ batch' data,
        .lookedUp batch' key true ∈ history ∧ .sent batch' data .accepted ∈ history) :
    Backed (fact :: history) := by
  intro later earlier batch key heq
  cases later with
  | nil =>
    obtain ⟨rfl, rfl⟩ : fact = .lookedUp batch key false ∧ history = earlier := by simpa using heq
    exact hfact batch key rfl
  | cons first later =>
    obtain ⟨_, hrest⟩ : fact = first ∧ history = later ++ .lookedUp batch key false :: earlier := by
      simpa using heq
    exact h later earlier batch key hrest

/-- Whoever has looked a key up, someone's look-up found none. -/
theorem Backed.origin {history : List EventFact} (h : Backed history) {batch : Nat} {key : String}
    {new : Bool} (hmem : .lookedUp batch key new ∈ history) :
    .lookedUp batch key true ∈ history ∨ ∃ batch' data,
      .lookedUp batch' key true ∈ history ∧ .sent batch' data .accepted ∈ history := by
  cases new with
  | true => exact .inl hmem
  | false =>
    obtain ⟨later, earlier, rfl⟩ := List.append_of_mem hmem
    rcases h later earlier batch key rfl with hsame | ⟨batch', data, hkept, hsent⟩
    · exact .inl (by simp [hsame])
    · exact .inr ⟨batch', data, by simp [hkept], by simp [hsent]⟩

theorem backed_step (hinj : Function.Injective hash) {s s' : EventServer η} {c : EventCmd}
    {r : c.Reply} (hsound : CacheSound hash s) (h : Backed s.history)
    (hstep : ((eventServer hash).under settledFirst).step s c r s') : Backed s'.history := by
  obtain ⟨hguard, hstep⟩ := hstep
  cases c with
  | now =>
    obtain rfl : s' = s := hstep
    exact h
  | len =>
    obtain ⟨_, rfl⟩ : _ ∧ s' = s := hstep
    exact h
  | clear =>
    obtain rfl : s' = ⟨∅, .cleared :: s.history⟩ := hstep
    exact h.cons (by simp)
  | insert batch key =>
    obtain ⟨hhistory, hnew⟩ := insert_reply hinj hsound hstep
    rw [hhistory]
    refine h.cons ?_
    intro batch' key' hfact
    obtain ⟨rfl, rfl, rfl⟩ := EventFact.lookedUp.inj hfact
    rcases settledFirst_insert.mp hguard with hnone | ⟨batch', new, hmem, hsettled⟩
    · exact absurd (hnew.mpr hnone) (by simp)
    · -- the look-up the guard speaks of may itself have found the key
      rcases h.origin hmem with hkept | hother
      · rcases hsettled with rfl | ⟨data, haccepted⟩
        · exact .inl hkept
        · exact .inr ⟨batch', data, hkept, haccepted⟩
      · exact .inr hother
  | send batch data =>
    obtain rfl : s' = { s with history := .sent batch data r :: s.history } := hstep
    exact h.cons (by simp)

/-! ## One request -/

/-- The batch has made these look-ups, and is not sent. -/
def Judging (batch : Nat) (before : List (String × Bool)) (s : EventServer η) : Prop :=
  lookUps batch s.history = before ∧ sends batch s.history = []

/-- What the other requests may do. -/
def Spares (batch : Nat) (s s' : EventServer η) : Prop :=
  lookUps batch s'.history = lookUps batch s.history ∧
    sends batch s'.history = sends batch s.history

omit [DecidableEq η] in
theorem Judging.spares {batch : Nat} {before : List (String × Bool)} {s s' : EventServer η}
    (h : Judging batch before s) (hspares : Spares batch s s') : Judging batch before s' :=
  ⟨hspares.1.trans h.1, hspares.2.trans h.2⟩

theorem spares_of_step {batch : Nat} {s s' : EventServer η} {c : EventCmd} {r : c.Reply}
    (hinsert : ∀ key, c ≠ .insert batch key) (hsend : ∀ data, c ≠ .send batch data)
    (hstep : (eventServer hash).step s c r s') : Spares batch s s' := by
  cases c with
  | now =>
    obtain rfl : s' = s := hstep
    exact ⟨rfl, rfl⟩
  | len =>
    obtain ⟨_, rfl⟩ : _ ∧ s' = s := hstep
    exact ⟨rfl, rfl⟩
  | clear =>
    obtain rfl : s' = ⟨∅, .cleared :: s.history⟩ := hstep
    exact ⟨rfl, rfl⟩
  | insert batch' key =>
    have hbatch : batch' ≠ batch := fun heq => hinsert key (by rw [heq])
    have hs' : (s.insert hash batch' key).2 = s' := congrArg Prod.snd hstep
    rw [← hs', EventServer.insert]
    simp [Spares, hbatch]
  | send batch' data =>
    have hbatch : batch' ≠ batch := fun heq => hsend data (by rw [heq])
    obtain rfl : s' = { s with history := .sent batch' data r :: s.history } := hstep
    exact ⟨rfl, (sends_sent batch batch' data r s.history).trans (if_neg hbatch)⟩

theorem judging_amid {batch : Nat} {before : List (String × Bool)} {s s' : EventServer η}
    {c : EventCmd} {r : c.Reply} (h : Judging batch before s)
    (hinsert : ∀ key, c ≠ .insert batch key) (hsend : ∀ data, c ≠ .send batch data)
    (hstep : ((eventServer hash).amid (Spares batch)).step s c r s') :
    Judging batch before s' := by
  obtain ⟨mid, hmid, hcmd⟩ := hstep
  exact (h.spares hmid).spares (spares_of_step hinsert hsend hcmd)

variable {limit batch : Nat} {before : List (String × Bool)} {X : EventServer η → Prop}

theorem wp_checkKey {key : String} {s : EventServer η} (hs : Judging batch before s)
    (hX : ∀ t, Judging batch before t → X t)
    (hX' : ∀ new t, Judging batch (before ++ [(key, new)]) t → X t) :
    Wp ((eventServer hash).amid (Spares batch)) (LogEventStore.checkKey limit batch key)
      (fun new => Judging batch (before ++ [(key, new)])) X s := by
  unfold LogEventStore.checkKey
  refine .cmdBind (hX s hs) ?_
  intro size s₁ hlen
  have hs₁ := judging_amid hs (by simp) (by simp) hlen
  refine .seq (P := fun _ => Judging batch before) ?_ ?_
  · refine .when ?_ (fun _ => hX s₁ hs₁) (fun _ => hs₁)
    intro _
    refine .cmd (hX s₁ hs₁) ?_
    intro _ s₂ hclear
    have hs₂ := judging_amid hs₁ (by simp) (by simp) hclear
    exact ⟨hX s₂ hs₂, hs₂⟩
  · intro _ s₂ hs₂
    refine .cmd (hX s₂ hs₂) ?_
    rintro (new : Bool) s₃ ⟨mid, hmid, hstep⟩
    have hinsert : mid.insert hash batch key = (new, s₃) := hstep
    obtain ⟨hnew, rfl⟩ := Prod.mk.inj hinsert
    have hs₃ : Judging batch (before ++ [(key, new)]) (mid.insert hash batch key).2 := by
      have hmid' := hs₂.spares hmid
      refine ⟨?_, ?_⟩
      · simp [EventServer.insert, hmid'.1, ← hnew]
      · simpa [EventServer.insert] using hmid'.2
    exact ⟨hX' new _ hs₃, hs₃⟩

theorem wp_processEvent {sdkKey : String} {globalMetadata : Option StatsigMetadata}
    {event : PossiblyLogEvent} {s : EventServer η} (hs : Judging batch before s)
    (hX : ∀ t, Judging batch before t → X t)
    (hX' : ∀ verdict t, Judges sdkKey globalMetadata event verdict →
      Judging batch (before ++ verdict.lookUp.toList) t → X t) :
    Wp ((eventServer hash).amid (Spares batch))
      (LogEventStore.processEvent limit batch sdkKey globalMetadata event)
      (fun keep t => ∃ verdict, Judges sdkKey globalMetadata event verdict ∧
        verdict.retains = keep ∧ Judging batch (before ++ verdict.lookUp.toList) t) X s := by
  unfold LogEventStore.processEvent
  cases event with
  | invalidLogEvent =>
    refine .pure (hX s hs) ⟨.invalid, trivial, rfl, ?_⟩
    simpa [Verdict.lookUp] using hs
  | validLogEvent e =>
    refine .cmdBind (hX s hs) ?_
    intro (now : Nat) s₁ hnow
    have hs₁ := judging_amid hs (by simp) (by simp) hnow
    cases hkey : computeKey sdkKey e globalMetadata now with
    | none =>
      refine .pure (hX s₁ hs₁) ⟨.keyless, ⟨now, hkey⟩, rfl, ?_⟩
      simpa [Verdict.lookUp] using hs₁
    | some key =>
      refine (wp_checkKey hs₁ hX ?_).mono ?_ fun _ ht => ht
      · intro new t ht
        cases new with
        | true => exact hX' (.kept key) t ⟨now, hkey⟩ ht
        | false => exact hX' (.duplicate key) t ⟨now, hkey⟩ ht
      · intro new t ht
        cases new with
        | true => exact ⟨.kept key, ⟨now, hkey⟩, rfl, ht⟩
        | false => exact ⟨.duplicate key, ⟨now, hkey⟩, rfl, ht⟩

/-- The events of `done` have been judged, and `kept` are those that stay. -/
def Progress (batch : Nat) (sdkKey : String) (globalMetadata : Option StatsigMetadata)
    (done kept : List PossiblyLogEvent) (s : EventServer η) : Prop :=
  ∃ verdicts, List.Forall₂ (Judges sdkKey globalMetadata) done verdicts ∧
    kept = retained done verdicts ∧ Judging batch (verdicts.filterMap Verdict.lookUp) s

def Reported (batch : Nat) (sdkKey : String) (request : LogEventRequest) (s : EventServer η) :
    Prop :=
  ∃ verdicts, BatchReport batch sdkKey request verdicts s.history

variable {sdkKey : String} {request : LogEventRequest}

omit [DecidableEq η] in
theorem Progress.next {globalMetadata : Option StatsigMetadata} {done : List PossiblyLogEvent}
    {verdicts : List Verdict} {event : PossiblyLogEvent} {verdict : Verdict} {s : EventServer η}
    (hjudged : List.Forall₂ (Judges sdkKey globalMetadata) done verdicts)
    (hjudges : Judges sdkKey globalMetadata event verdict)
    (hs : Judging batch (verdicts.filterMap Verdict.lookUp ++ verdict.lookUp.toList) s) :
    Progress batch sdkKey globalMetadata (done ++ [event])
      (if verdict.retains then retained done verdicts ++ [event] else retained done verdicts) s := by
  refine ⟨verdicts ++ [verdict], List.rel_append hjudged (.cons hjudges .nil), ?_, ?_⟩
  · rw [retained_concat hjudged.length_eq]
  · have hlookUps : (verdicts ++ [verdict]).filterMap Verdict.lookUp =
        verdicts.filterMap Verdict.lookUp ++ verdict.lookUp.toList := by
      cases verdict <;> simp [Verdict.lookUp]
    rwa [hlookUps]

omit [DecidableEq η] in
theorem Progress.reported {done kept : List PossiblyLogEvent} {s : EventServer η}
    (hdone : done <+: request.events)
    (h : Progress batch sdkKey request.statsigMetadata done kept s) :
    Reported batch sdkKey request s := by
  obtain ⟨verdicts, hjudged, _, hlookUps, hsends⟩ := h
  refine ⟨verdicts, ?_, hlookUps, ?_⟩
  · rwa [← hjudged.length_eq, ← List.prefix_iff_eq_take.mp hdone]
  · intro data outcome hsent
    rw [← mem_sends, hsends] at hsent
    simp at hsent

omit [DecidableEq η] in
theorem Progress.send {kept : List PossiblyLogEvent} {s mid : EventServer η}
    (h : Progress batch sdkKey request.statsigMetadata request.events kept s)
    (hmid : Spares batch s mid) (outcome : SendOutcome) :
    Reported batch sdkKey request { mid with
      history := .sent batch { request with events := kept } outcome :: mid.history } := by
  obtain ⟨verdicts, hjudged, rfl, hjudging⟩ := h
  obtain ⟨hlookUps, hsends⟩ := hjudging.spares hmid
  refine ⟨verdicts, ?_, by simpa using hlookUps, ?_⟩
  · rwa [← hjudged.length_eq, List.take_length]
  · intro data outcome' hmem
    rw [← mem_sends, sends_sent, if_pos rfl, hsends] at hmem
    obtain ⟨rfl, -⟩ := Prod.mk.inj (List.mem_singleton.mp hmem)
    exact ⟨hjudged.length_eq.symm, rfl⟩

/-- The loop over the events. -/
theorem wp_retain (todo : List PossiblyLogEvent) :
    ∀ (done kept : List PossiblyLogEvent) (s : EventServer η), request.events = done ++ todo →
      Progress batch sdkKey request.statsigMetadata done kept s →
      Wp ((eventServer hash).amid (Spares batch))
        (Prog.fold (fun kept event => do
          let keep ← LogEventStore.processEvent limit batch sdkKey request.statsigMetadata event
          .pure (if keep then kept ++ [event] else kept)) kept todo)
        (fun kept t => Progress batch sdkKey request.statsigMetadata request.events kept t)
        (Reported batch sdkKey request) s := by
  induction todo with
  | nil =>
    intro done kept s hevents hs
    rw [List.append_nil] at hevents
    exact .pure (hs.reported (hevents ▸ List.prefix_refl _)) (hevents ▸ hs)
  | cons event todo ih =>
    intro done kept s hevents hs
    have hdone : done <+: request.events := ⟨event :: todo, hevents.symm⟩
    have hnext : request.events = (done ++ [event]) ++ todo := by simp [hevents]
    obtain ⟨verdicts, hjudged, rfl, hjudging⟩ := hs
    have hX : ∀ t : EventServer η, Judging batch (verdicts.filterMap Verdict.lookUp) t →
        Reported batch sdkKey request t :=
      fun t ht => Progress.reported hdone ⟨verdicts, hjudged, rfl, ht⟩
    have hX' : ∀ verdict (t : EventServer η),
        Judges sdkKey request.statsigMetadata event verdict →
        Judging batch (verdicts.filterMap Verdict.lookUp ++ verdict.lookUp.toList) t →
        Reported batch sdkKey request t :=
      fun verdict t hjudges ht =>
        Progress.reported ⟨todo, hnext.symm⟩ (Progress.next hjudged hjudges ht)
    refine Wp.bind (.seq (wp_processEvent hjudging hX hX') ?_)
    rintro keep t ⟨verdict, hjudges, rfl, ht⟩
    exact .pure (hX' verdict t hjudges ht)
      (ih _ _ t hnext (Progress.next hjudged hjudges ht))

/-- A request leaves a report, wherever it is cut off. -/
theorem wp_postLogEvent {s : EventServer η} (hs : Judging batch [] s) :
    Wp ((eventServer hash).amid (Spares batch)) (postLogEvent limit batch sdkKey request)
      (fun _ => Reported batch sdkKey request) (Reported batch sdkKey request) s := by
  unfold postLogEvent LogEventStore.logEvent LogEventStore.dedupeEventsForSdkKey
  have hstart : Progress batch sdkKey request.statsigMetadata [] [] s := ⟨[], .nil, rfl, hs⟩
  refine .seq (P := fun _ => Reported batch sdkKey request) ?_ ?_
  · refine .seq (P := fun repackaged t => ∃ kept, repackaged = { request with events := kept } ∧
      Progress batch sdkKey request.statsigMetadata request.events kept t) ?_ ?_
    · refine .seq (wp_retain request.events [] [] s rfl hstart) ?_
      intro kept t ht
      exact .pure (ht.reported (List.prefix_refl _)) ⟨kept, rfl, ht⟩
    · rintro _ t ⟨kept, rfl, ht⟩
      have hreported := ht.reported (List.prefix_refl _)
      refine .cmdBind hreported ?_
      rintro (outcome : SendOutcome) s' ⟨mid, hmid, hstep⟩
      obtain rfl : s' = { mid with
        history := .sent batch { request with events := kept } outcome :: mid.history } := hstep
      have hsent := ht.send hmid outcome
      cases outcome with
      | transportError => exact .pure hsent hsent
      | accepted => exact .pure hsent hsent
      | refused status => exact .pure hsent hsent
  · intro _ t ht
    exact .pure ht ht

end

/-! ## Runs -/

abbrev EventPool (η : Type) : Type :=
  Pool EventCmd EventCmd.Reply Empty (EventServer η) Nat fun _ => Unit

/-- The requests, each with its key. -/
def EventPool.start (η : Type) [DecidableEq η] (limit : Nat)
    (requests : Nat → String × LogEventRequest) : EventPool η :=
  ⟨EventServer.new, fun batch => postLogEvent limit batch (requests batch).1 (requests batch).2, []⟩

section

variable {η : Type} [DecidableEq η] {hash : String → η} {limit : Nat}
  {requests : Nat → String × LogEventRequest} {pool : EventPool η}

/-- One step of the requests, under a guard. -/
abbrev EventStep (hash : String → η) (guard : EventServer η → EventCmd → Bool) :
    EventPool η → EventPool η → Prop :=
  Pool.Step ((eventServer hash).under guard) fun _ _ _ => true

/-- A command of the batch, if it is one of a batch. -/
def EventCmd.OfBatch (batch : Nat) : EventCmd → Prop
  | .insert batch' _ | .send batch' _ => batch' = batch
  | .now | .len | .clear => True

theorem postLogEvent_ofBatch (batch : Nat) (sdkKey : String) (request : LogEventRequest) :
    (postLogEvent limit batch sdkKey request).Issues (EventCmd.OfBatch batch) := by
  unfold postLogEvent LogEventStore.logEvent LogEventStore.dedupeEventsForSdkKey
  refine .bind (.bind (.bind (.fold ?_ _ _) fun _ => .pure _) ?_) fun _ => .pure _
  · intro kept event
    refine .bind ?_ fun _ => .pure _
    unfold LogEventStore.processEvent
    cases event with
    | invalidLogEvent => exact .pure _
    | validLogEvent e =>
      refine .bind (.cmd trivial) ?_
      intro now
      split
      · exact .bind (.cmd trivial) fun size => .bind (.when (.cmd trivial)) fun _ => .cmd rfl
      · exact .pure _
  · intro repackaged
    refine .bind (.cmd rfl) ?_
    intro outcome
    split
    · exact .pure _
    · exact .pure _
    · exact .pure _

/-- Every run leaves a report of every batch. -/
theorem reported {guard : EventServer η → EventCmd → Bool}
    (hrun : Relation.ReflTransGen (EventStep hash guard) (EventPool.start η limit requests) pool)
    (batch : Nat) : Reported batch (requests batch).1 (requests batch).2 pool.state := by
  have hothers : ∀ batch', batch' ≠ batch → ∀ c, EventCmd.OfBatch batch' c →
      ∀ (s : EventServer η) (r : c.Reply) (s' : EventServer η),
        ((eventServer hash).under guard).step s c r s' → Spares batch s s' := by
    intro batch' hbatch c hc s r s' hstep
    refine spares_of_step ?_ ?_ hstep.2
    · rintro key rfl
      exact hbatch hc.symm
    · rintro data rfl
      exact hbatch hc.symm
  have hwp : Wp (((eventServer hash).under guard).amid (Spares batch))
      (postLogEvent limit batch (requests batch).1 (requests batch).2)
      (fun _ => Reported batch (requests batch).1 (requests batch).2)
      (Reported batch (requests batch).1 (requests batch).2) (EventServer.new : EventServer η) := by
    have hunguarded : ∀ (s : EventServer η) (c : EventCmd) (r : c.Reply) (s' : EventServer η),
        (((eventServer hash).under guard).amid (Spares batch)).step s c r s' →
        ((eventServer hash).amid (Spares batch)).step s c r s' :=
      fun s c r s' ⟨mid, hmid, hstep⟩ => ⟨mid, hmid, hstep.2⟩
    exact Wp.simulate hunguarded (wp_postLogEvent ⟨rfl, rfl⟩)
  obtain ⟨_, s, hspares, hleft⟩ := Pool.amid (fun _ => ⟨rfl, rfl⟩)
    (fun _ _ _ h h' => ⟨h'.1.trans h.1, h'.2.trans h.2⟩)
    (fun batch => postLogEvent_ofBatch batch _ _) hothers hwp hrun
  obtain ⟨verdicts, hreport⟩ := hleft.exit
  refine ⟨verdicts, hreport.judged, hspares.1.trans hreport.lookedUp, ?_⟩
  intro data outcome hsent
  rw [← mem_sends, hspares.2, mem_sends] at hsent
  exact hreport.sent data outcome hsent

/-- What is backed by the look-ups is backed by events. -/
theorem losesNothing_of_backed {history : List EventFact} (hbacked : Backed history)
    {verdicts : Nat → List Verdict}
    (hreports : ∀ batch,
      BatchReport batch (requests batch).1 (requests batch).2 (verdicts batch) history) :
    LosesNothing requests history := by
  refine ⟨verdicts, hreports, ?_⟩
  intro batch earlier key later hverdicts
  have hlookUps : lookUps batch history = earlier.filterMap Verdict.lookUp ++
      (key, false) :: later.filterMap Verdict.lookUp := by
    rw [(hreports batch).lookedUp, hverdicts]
    simp [Verdict.lookUp]
  obtain ⟨newer, older, rfl, holder⟩ := lookUps_split hlookUps
  rcases hbacked newer older batch key rfl with hsame | ⟨batch', data, hlookedUp, hsent⟩
  · rw [← mem_lookUps, holder] at hsame
    obtain ⟨verdict, hmem, hlookUp⟩ := List.mem_filterMap.mp hsame
    cases verdict <;> simp_all [Verdict.lookUp]
  · have hlookedUp' : .lookedUp batch' key true ∈ newer ++ .lookedUp batch key false :: older := by
      simp [hlookedUp]
    have hsent' : .sent batch' data .accepted ∈ newer ++ .lookedUp batch key false :: older := by
      simp [hsent]
    have hkept := (hreports batch').kept_of_lookedUp hlookedUp'
    obtain ⟨event, hevent, hcompute⟩ := (hreports batch').mem_sent hkept hsent'
    exact .inr ⟨batch', data, event, hsent', hkept, hevent, hcompute⟩

/-- A look-up against the condition finds a key whose events have neither
stayed in the batch nor arrived. -/
theorem not_losesNothing {s s' : EventServer η} {batch : Nat} {key : String} {new : Bool}
    (hinj : Function.Injective hash) (hsound : CacheSound hash s)
    (hguard : settledFirst s (.insert batch key) = false)
    (hstep : (eventServer hash).step s (.insert batch key) new s') :
    ¬ LosesNothing requests s'.history := by
  rintro ⟨verdicts, hreports, hduplicates⟩
  obtain ⟨hhistory, hnew⟩ := insert_reply hinj hsound hstep
  have hunsettled : ¬ settledFirst s (.insert batch key) = true := by simp [hguard]
  rw [settledFirst_insert, not_or] at hunsettled
  obtain ⟨hcurrent, hothers⟩ := hunsettled
  obtain rfl : new = false := Bool.eq_false_iff.mpr fun htrue => hcurrent (hnew.mp htrue)
  have hlookUps := (hreports batch).lookedUp
  rw [hhistory, lookUps_lookedUp, if_pos rfl] at hlookUps
  obtain ⟨earlier, rest, hverdicts, hearlier, hrest⟩ :=
    List.filterMap_eq_append_iff.mp hlookUps.symm
  obtain ⟨others, verdict, later, rfl, hnone, hverdict, _⟩ := List.filterMap_eq_cons_iff.mp hrest
  obtain rfl : verdict = .duplicate key := by
    cases verdict <;> simp_all [Verdict.lookUp]
  rw [← List.append_assoc] at hverdicts
  rcases hduplicates batch _ key later hverdicts with hkept | harrived
  · rcases List.mem_append.mp hkept with hkept | hkept
    · have hmem : (key, true) ∈ lookUps batch s.history := by
        rw [← hearlier]
        exact List.mem_filterMap.mpr ⟨_, hkept, rfl⟩
      exact hothers ⟨batch, true, mem_lookUps.mp hmem, .inl rfl⟩
    · exact absurd (hnone _ hkept) (by simp [Verdict.lookUp])
  · obtain ⟨batch', data, _, hsent, hkept, _⟩ := harrived
    have hmem := (hreports batch').mem_verdicts rfl hkept
    rw [hhistory] at hmem hsent
    have hmem' : .lookedUp batch' key true ∈ s.history := by simpa using hmem
    have hsent' : .sent batch' data .accepted ∈ s.history := by simpa using hsent
    exact hothers ⟨batch', true, hmem', .inr ⟨data, hsent'⟩⟩

/-- **De-duplication loses nothing** in a run whose look-ups all meet the
condition, and loses an exposure in the first step that does not. -/
theorem dedupe_loses_nothing (hinj : Function.Injective hash)
    (hrun : Relation.ReflTransGen (EventStep hash settledFirst)
      (EventPool.start η limit requests) pool) :
    LosesNothing requests pool.state.history ∧
      ∀ pool', EventStep hash (fun _ _ => true) pool pool' →
        ¬ EventStep hash settledFirst pool pool' → ¬ LosesNothing requests pool'.state.history := by
  have hstart : CacheSound hash (EventServer.new : EventServer η) ∧
      Backed (EventServer.new : EventServer η).history := by
    refine ⟨by simp [CacheSound, EventServer.new, sinceClear], ?_⟩
    intro later earlier batch key heq
    simp [EventServer.new] at heq
  have hkeeps : ∀ (s : EventServer η) (c : EventCmd) (r : c.Reply) (s' : EventServer η),
      CacheSound hash s ∧ Backed s.history →
      ((eventServer hash).under settledFirst).step s c r s' →
      CacheSound hash s' ∧ Backed s'.history := by
    rintro s c r s' ⟨hsound, hbacked⟩ hstep
    exact ⟨cacheSound_step hsound hstep.2, backed_step hinj hsound hbacked hstep⟩
  obtain ⟨hsound, hbacked⟩ := Pool.stateInvariant hstart hkeeps hrun
  constructor
  · choose verdicts hreports using reported hrun
    exact losesNothing_of_backed hbacked hreports
  · intro pool' hstep hunguarded
    cases hstep with
    | @turn s s' threads log batch c k r hthread hlog hcmd =>
      have hguard : settledFirst s c = false := by
        rw [Bool.eq_false_iff]
        exact fun hsettled => hunguarded (.turn batch hthread hlog ⟨hsettled, hcmd.2⟩)
      cases c with
      | insert batch' key => exact not_losesNothing hinj hsound hguard hcmd.2
      | now => simp [settledFirst] at hguard
      | len => simp [settledFirst] at hguard
      | clear => simp [settledFirst] at hguard
      | send batch' data => simp [settledFirst] at hguard

end

/-- An exposure of a gate. -/
def gateExposure : LogEvent where
  eventName := .gateExposure
  user := some ⟨some "user", none⟩
  time := some 0
  metadata := some [("gate", "g")]
  statsigMetadata := none

/-- Every request has this event, twice, with one between them that is no
event. -/
def sameExposure (_ : Nat) : String × LogEventRequest :=
  ("secret-key", ⟨[.validLogEvent gateExposure, .invalidLogEvent, .validLogEvent gateExposure],
    none⟩)

def exposureKey : String := "k:secret-key;u:user;s:;n:g;r:;v:;t0"

/-- The history after a schedule. -/
def historyAfter (guard : EventServer String → EventCmd → Bool) (schedule : List Nat)
    (outcomes : List SendOutcome) : Option (List EventFact) :=
  (((eventRunner id).under guard).turns (fun _ _ _ => true) schedule
    (EventPool.start String 10 sameExposure) outcomes).map fun t => t.1.state.history

theorem exists_of_historyAfter {guard : EventServer String → EventCmd → Bool}
    {schedule : List Nat} {outcomes : List SendOutcome} {history : List EventFact}
    (h : historyAfter guard schedule outcomes = some history) :
    ∃ pool : EventPool String,
      Relation.ReflTransGen (EventStep id guard) (EventPool.start String 10 sameExposure) pool ∧
        pool.state.history = history := by
  obtain ⟨⟨pool, w⟩, hturns, hhistory⟩ := Option.map_eq_some_iff.mp h
  exact ⟨pool, Runner.turns_sound _ hturns, hhistory⟩

/-- The first event of the first batch goes out and is accepted; the second
batch goes out empty. -/
theorem dedupe_loses_nothing_accepted :
    ∃ pool : EventPool String,
      Relation.ReflTransGen (EventStep id settledFirst)
        (EventPool.start String 10 sameExposure) pool ∧
      pool.state.history =
        [.sent 1 ⟨[], none⟩ .accepted,
          .lookedUp 1 exposureKey false, .lookedUp 1 exposureKey false,
          .sent 0 ⟨[.validLogEvent gateExposure], none⟩ .accepted,
          .lookedUp 0 exposureKey false, .lookedUp 0 exposureKey true] ∧
      LosesNothing sameExposure pool.state.history := by
  have hturns : historyAfter settledFirst [0, 0, 1, 0, 0, 0, 0, 0, 1, 1, 1, 1, 1, 1]
      [.accepted, .accepted] = some
        [.sent 1 ⟨[], none⟩ .accepted,
          .lookedUp 1 exposureKey false, .lookedUp 1 exposureKey false,
          .sent 0 ⟨[.validLogEvent gateExposure], none⟩ .accepted,
          .lookedUp 0 exposureKey false, .lookedUp 0 exposureKey true] := by decide +kernel
  obtain ⟨pool, hrun, hhistory⟩ := exists_of_historyAfter hturns
  exact ⟨pool, hrun, hhistory, (dedupe_loses_nothing Function.injective_id hrun).1⟩

/-- The first batch does not arrive, and the event of the second is dropped
as its duplicate. -/
theorem dedupe_of_lost_event :
    ¬ ∀ (hash : String → String) (limit : Nat) (requests : Nat → String × LogEventRequest)
        (pool : EventPool String), Function.Injective hash →
      Relation.ReflTransGen (EventStep hash fun _ _ => true)
        (EventPool.start String limit requests) pool →
      LosesNothing requests pool.state.history := by
  intro hall
  have hturns : historyAfter (fun _ _ => true) [0, 0, 0, 0, 0, 0, 0, 1, 1, 1] [.transportError] =
      some [.lookedUp 1 exposureKey false,
        .sent 0 ⟨[.validLogEvent gateExposure], none⟩ .transportError,
        .lookedUp 0 exposureKey false, .lookedUp 0 exposureKey true] := by decide +kernel
  obtain ⟨pool, hrun, hhistory⟩ := exists_of_historyAfter hturns
  obtain ⟨verdicts, hreports, hduplicates⟩ := hall id 10 sameExposure pool Function.injective_id hrun
  rw [hhistory] at hreports hduplicates
  have hlookUps := (hreports 1).lookedUp
  obtain ⟨earlier, verdict, later, hverdicts, hnone, hverdict, _⟩ :=
    List.filterMap_eq_cons_iff.mp hlookUps.symm
  obtain rfl : verdict = .duplicate exposureKey := by
    cases verdict <;> simp_all [Verdict.lookUp]
  rcases hduplicates 1 earlier exposureKey later hverdicts with hkept | ⟨_, _, _, haccepted, _⟩
  · exact absurd (hnone _ hkept) (by simp [Verdict.lookUp])
  · simp at haccepted

end ForwardProxy.Datastore
