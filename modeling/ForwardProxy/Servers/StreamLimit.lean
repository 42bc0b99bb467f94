/-
ForwardProxy.Servers.StreamLimit — the count of open streams and its limit
(`stream_config_spec` in `grpc_server.rs`).

A request for a stream reads the counter, sets the stream up, and starts a
task; the task sends the first answer and increments the counter. It
decrements the counter after its loop, however it left it. Requests are
handled concurrently, so these steps interleave.

The counter is that of the streams whose task is in its loop or behind it
(`LimitedServer.Balanced`). Between its check and its increment a stream is
not counted, so several can pass the check for the last place. `reserved`
counts these streams too: the limit is kept where no check lets a stream
pass that would bring `reserved` over it.

The channel of a context is never removed from its cache, so the task finds
it when it subscribes again.
-/
import Mathlib.Data.List.Count
import Mathlib.Logic.Relation
import Mathlib.Tactic.Common

namespace ForwardProxy.Servers

/-! ## Streams -/

/-- How the loop of a task is left. -/
inductive CloseReason where
  | updateNotSent
  | noUpdateNotSent
  | endMessage
  deriving DecidableEq, Repr

/-- A send fails if the receiver is gone, and only then. -/
def CloseReason.needsDisconnect : CloseReason → Bool
  | .updateNotSent | .noUpdateNotSent => true
  | .endMessage => false

inductive StreamStage where
  /-- The limit has not been checked yet. -/
  | requested
  /-- `Max concurrent streams reached`. -/
  | refused
  /-- The check is passed, and the first config is being read. -/
  | settingUp
  /-- There is no config, or the client is gone: there is no stream. -/
  | abandoned
  /-- The task sends the first answer. -/
  | starting
  /-- The task is in its loop. That the client has disconnected is noticed
  by the next send only. -/
  | streaming (connected : Bool)
  | closing (reason : CloseReason)
  | closed
  deriving DecidableEq, Repr

/-- Past the check and not counted. -/
def StreamStage.opening : StreamStage → Bool
  | .settingUp | .starting => true
  | _ => false

def StreamStage.isOpen : StreamStage → Bool
  | .streaming connected => connected
  | _ => false

/-- The close is in progress: the client has disconnected, or the task has
left its loop. -/
def StreamStage.isClosing : StreamStage → Bool
  | .streaming connected => !connected
  | .closing _ => true
  | _ => false

/-! ## The server -/

structure LimitedServer where
  connectionCounter : Nat
  streams : List StreamStage
  deriving DecidableEq, Repr

namespace LimitedServer

def new : LimitedServer := ⟨0, []⟩

/-- The streams that are counted, and those that are going to be. -/
def reserved (s : LimitedServer) : Nat :=
  s.connectionCounter + s.streams.countP StreamStage.opening

def openStreams (s : LimitedServer) : Nat := s.streams.countP StreamStage.isOpen

end LimitedServer

/-- One step of one stream, with the counter before and after it. -/
inductive StreamMove (maxConcurrentStreams : Nat) :
    Nat → StreamStage → Nat → StreamStage → Prop where
  | refuse {counter : Nat} (full : maxConcurrentStreams ≤ counter) :
    StreamMove maxConcurrentStreams counter .requested counter .refused
  | pass {counter : Nat} (room : counter < maxConcurrentStreams) :
    StreamMove maxConcurrentStreams counter .requested counter .settingUp
  | abandon {counter : Nat} :
    StreamMove maxConcurrentStreams counter .settingUp counter .abandoned
  | spawn {counter : Nat} :
    StreamMove maxConcurrentStreams counter .settingUp counter .starting
  -- the outcome of the first send is ignored
  | increment {counter : Nat} (connected : Bool) :
    StreamMove maxConcurrentStreams counter .starting (counter + 1) (.streaming connected)
  | disconnect {counter : Nat} :
    StreamMove maxConcurrentStreams counter (.streaming true) counter (.streaming false)
  | leave {counter : Nat} {connected : Bool} (reason : CloseReason)
    (failed : reason.needsDisconnect = true → connected = false) :
    StreamMove maxConcurrentStreams counter (.streaming connected) counter (.closing reason)
  | decrement {counter : Nat} {reason : CloseReason} :
    StreamMove maxConcurrentStreams counter (.closing reason) (counter - 1) .closed

inductive LimitStep (maxConcurrentStreams : Nat) : LimitedServer → LimitedServer → Prop where
  | request {s : LimitedServer} :
    LimitStep maxConcurrentStreams s { s with streams := s.streams ++ [.requested] }
  | move {counter counter' : Nat} {before after : List StreamStage} {stage stage' : StreamStage}
    (move : StreamMove maxConcurrentStreams counter stage counter' stage') :
    LimitStep maxConcurrentStreams ⟨counter, before ++ stage :: after⟩
      ⟨counter', before ++ stage' :: after⟩

/-- The step is that of a stream that passes the check. -/
def Admits (s s' : LimitedServer) : Prop :=
  ∃ before after, s.streams = before ++ .requested :: after ∧
    s' = { s with streams := before ++ .settingUp :: after }

/-- A stream passes the check only if those past it leave room for one
more. -/
def Uncontended (maxConcurrentStreams : Nat) (s s' : LimitedServer) : Prop :=
  LimitStep maxConcurrentStreams s s' ∧ (Admits s s' → s.reserved < maxConcurrentStreams)

abbrev LimitRun (maxConcurrentStreams : Nat) : LimitedServer → LimitedServer → Prop :=
  Relation.ReflTransGen (LimitStep maxConcurrentStreams)

abbrev UncontendedRun (maxConcurrentStreams : Nat) : LimitedServer → LimitedServer → Prop :=
  Relation.ReflTransGen (Uncontended maxConcurrentStreams)

variable {limit : Nat} {s s' : LimitedServer}

/-! ## The balance -/

/-- What a stream adds to the counter. -/
def StreamStage.counted : StreamStage → Bool
  | .streaming _ | .closing _ => true
  | _ => false

theorem StreamStage.counted_eq (stage : StreamStage) :
    stage.counted.toNat = stage.isOpen.toNat + stage.isClosing.toNat := by
  cases stage with
  | streaming connected => cases connected <;> rfl
  | _ => rfl

/-- The counter counts the streams in their loop and behind it. -/
def LimitedServer.Balanced (s : LimitedServer) : Prop :=
  s.connectionCounter = s.streams.countP StreamStage.counted

theorem countP_between (p : StreamStage → Bool) (before after : List StreamStage)
    (stage : StreamStage) :
    (before ++ stage :: after).countP p =
      before.countP p + after.countP p + (p stage).toNat := by
  rw [List.countP_append, List.countP_cons]
  cases p stage <;> simp [Nat.add_assoc]

theorem LimitedServer.Balanced.step (h : s.Balanced) (hstep : LimitStep limit s s') :
    s'.Balanced := by
  unfold LimitedServer.Balanced at *
  cases hstep with
  | request => simpa [StreamStage.counted] using h
  | move move =>
    simp only [countP_between] at h ⊢
    cases move <;> simp only [StreamStage.counted, Bool.toNat_true, Bool.toNat_false] at h ⊢ <;>
      omega

theorem LimitRun.balanced (hrun : LimitRun limit .new s) : s.Balanced := by
  induction hrun with
  | refl => rfl
  | tail _ hstep ih => exact LimitedServer.Balanced.step ih hstep

theorem countP_counted (streams : List StreamStage) :
    streams.countP StreamStage.counted =
      streams.countP StreamStage.isOpen + streams.countP StreamStage.isClosing := by
  induction streams with
  | nil => rfl
  | cons stage streams ih =>
    have hstage := stage.counted_eq
    have hcons : ∀ p : StreamStage → Bool,
        (stage :: streams).countP p = streams.countP p + (p stage).toNat :=
      fun p => by simpa using countP_between p [] streams stage
    rw [hcons, hcons, hcons, ih]
    omega

/-- The counter is the number of the open streams and of those being
closed. -/
theorem LimitRun.counter_eq (hrun : LimitRun limit .new s) :
    s.connectionCounter = s.openStreams + s.streams.countP StreamStage.isClosing :=
  (LimitRun.balanced hrun).trans (countP_counted s.streams)

/-! ## The limit -/

/-- A step that lets no stream pass the check reserves nothing. -/
theorem reserved_step (h : s.Balanced) (hstep : LimitStep limit s s') :
    Admits s s' ∧ s'.reserved = s.reserved + 1 ∨ s'.reserved ≤ s.reserved := by
  cases hstep with
  | request => simp [LimitedServer.reserved, StreamStage.opening]
  | @move counter counter' before after stage stage' move =>
    cases move with
    | pass room =>
      have hadmits : Admits ⟨counter, before ++ .requested :: after⟩
          ⟨counter, before ++ .settingUp :: after⟩ := ⟨before, after, rfl, rfl⟩
      refine .inl ⟨hadmits, ?_⟩
      simp only [LimitedServer.reserved, countP_between, StreamStage.opening, Bool.toNat_true,
        Bool.toNat_false]
      omega
    | _ =>
      right
      simp only [LimitedServer.reserved, countP_between, StreamStage.opening, Bool.toNat_true,
        Bool.toNat_false]
      omega

theorem UncontendedRun.toRun (hrun : UncontendedRun limit s s') : LimitRun limit s s' :=
  Relation.ReflTransGen.mono (fun _ _ hstep => hstep.1) _ _ hrun

theorem UncontendedRun.reserved_le (hrun : UncontendedRun limit .new s) : s.reserved ≤ limit := by
  induction hrun with
  | refl => exact Nat.zero_le _
  | tail hrun hstep ih =>
    rcases reserved_step (LimitRun.balanced (UncontendedRun.toRun hrun)) hstep.1 with
      ⟨hadmits, heq⟩ | hno
    · have hroom := hstep.2 hadmits
      omega
    · omega

/-! ## Too many reservations -/

/-- All reserved streams can come to be counted. -/
theorem exists_counted (limit : Nat) (s : LimitedServer) :
    ∃ t, LimitRun limit s t ∧ t.connectionCounter = s.reserved := by
  obtain ⟨counter, streams⟩ := s
  induction hn : streams.countP StreamStage.opening generalizing counter streams with
  | zero => exact ⟨_, .refl, by simp [LimitedServer.reserved, hn]⟩
  | succ n ih =>
    obtain ⟨stage, hmem, hopening⟩ := List.countP_pos_iff.mp (Nat.lt_of_lt_of_eq n.succ_pos hn.symm)
    obtain ⟨before, after, rfl⟩ := List.append_of_mem hmem
    have hcount : (before ++ .streaming true :: after).countP StreamStage.opening = n := by
      rw [countP_between, hopening] at hn
      simp only [Bool.toNat_true] at hn
      simp only [countP_between, StreamStage.opening, Bool.toNat_false]
      omega
    have hstart : LimitRun limit ⟨counter, before ++ stage :: after⟩
        ⟨counter + 1, before ++ .streaming true :: after⟩ := by
      cases stage with
      | settingUp => exact .head (.move .spawn) (.single (.move (.increment true)))
      | starting => exact .single (.move (.increment true))
      | _ => simp [StreamStage.opening] at hopening
    obtain ⟨t, ht, hcounter⟩ := ih _ _ hcount
    refine ⟨t, hstart.trans ht, ?_⟩
    rw [hcounter]
    simp only [LimitedServer.reserved, hcount, hn]
    omega

/-- The counter keeps the limit in every run in which a stream passes the
check only if there is room for all that have passed it, and in every run
it is the number of open streams whenever none is being closed. A check
that is passed without that room can be followed by steps after which there
are more streams than the limit. -/
theorem stream_limit (limit : Nat) :
    (∀ s, UncontendedRun limit .new s →
      s.connectionCounter ≤ limit ∧
      s.connectionCounter = s.openStreams + s.streams.countP StreamStage.isClosing) ∧
    (∀ s, LimitRun limit .new s →
      ((∀ stage ∈ s.streams, stage.isClosing = false) → s.connectionCounter = s.openStreams) ∧
      ((∀ stage ∈ s.streams, stage.isClosing = false ∧ stage.isOpen = false) →
        s.connectionCounter = 0)) ∧
    ∀ s s', LimitStep limit s s' → Admits s s' → limit ≤ s.reserved →
      ∃ t, LimitRun limit s' t ∧ limit < t.connectionCounter := by
  refine ⟨?_, ?_, ?_⟩
  · intro s hrun
    have hcounter : s.connectionCounter ≤ s.reserved := Nat.le_add_right _ _
    exact ⟨Nat.le_trans hcounter (UncontendedRun.reserved_le hrun),
      LimitRun.counter_eq (UncontendedRun.toRun hrun)⟩
  · intro s hrun
    have hcounter := LimitRun.counter_eq hrun
    have hnone : (∀ stage ∈ s.streams, stage.isClosing = false) →
        s.connectionCounter = s.openStreams := by
      intro hclosing
      have hzero : s.streams.countP StreamStage.isClosing = 0 :=
        List.countP_eq_zero.mpr fun stage hs => by simp [hclosing stage hs]
      rw [hcounter, hzero, Nat.add_zero]
    refine ⟨hnone, ?_⟩
    intro hclosed
    rw [hnone fun stage hs => (hclosed stage hs).1]
    exact List.countP_eq_zero.mpr fun stage hs => by simp [(hclosed stage hs).2]
  · intro s s' hstep hadmits hfull
    obtain ⟨before, after, hstreams, rfl⟩ := hadmits
    obtain ⟨t, hrun, hcounter⟩ := exists_counted limit
      { s with streams := before ++ .settingUp :: after }
    refine ⟨t, hrun, ?_⟩
    rw [hcounter]
    simp only [LimitedServer.reserved, hstreams, countP_between, StreamStage.opening,
      Bool.toNat_true, Bool.toNat_false] at hfull ⊢
    omega

/-- Where no stream is at the check, none passes it. -/
theorem Uncontended.of_not_mem (hstep : LimitStep limit s s') (h : .requested ∉ s.streams) :
    Uncontended limit s s' := by
  refine ⟨hstep, ?_⟩
  rintro ⟨before, after, hstreams, -⟩
  rw [hstreams] at h
  simp at h

/-- Two streams are opened side by side. -/
theorem two_opened : UncontendedRun 2 .new ⟨2, [.streaming true, .streaming true]⟩ := by
  have hchecked : UncontendedRun 2 .new ⟨0, [.settingUp, .settingUp]⟩ :=
    .head ⟨.request, fun _ => by decide⟩ <| .head ⟨.request, fun _ => by decide⟩ <|
    .head ⟨@LimitStep.move 2 _ _ [] [.requested] _ _ (.pass Nat.two_pos), fun _ => by decide⟩ <|
    .single ⟨@LimitStep.move 2 _ _ [.settingUp] [] _ _ (.pass Nat.two_pos), fun _ => by decide⟩
  have hspawn : LimitStep 2 ⟨0, [.settingUp, .settingUp]⟩ ⟨0, [.settingUp, .starting]⟩ :=
    @LimitStep.move 2 _ _ [.settingUp] [] _ _ .spawn
  have hspawn' : LimitStep 2 ⟨0, [.settingUp, .starting]⟩ ⟨0, [.starting, .starting]⟩ :=
    @LimitStep.move 2 _ _ [] [.starting] _ _ .spawn
  have hincrement : LimitStep 2 ⟨0, [.starting, .starting]⟩ ⟨1, [.starting, .streaming true]⟩ :=
    @LimitStep.move 2 _ _ [.starting] [] _ _ (.increment true)
  have hincrement' : LimitStep 2 ⟨1, [.starting, .streaming true]⟩
      ⟨2, [.streaming true, .streaming true]⟩ :=
    @LimitStep.move 2 _ _ [] [.streaming true] _ _ (.increment true)
  exact hchecked.trans (.head (.of_not_mem hspawn (by decide)) <|
    .head (.of_not_mem hspawn' (by decide)) <| .head (.of_not_mem hincrement (by decide)) <|
    .single (.of_not_mem hincrement' (by decide)))

/-- A third stream is refused, and the first is closed. -/
theorem one_closed : UncontendedRun 2 ⟨2, [.streaming true, .streaming true]⟩
    ⟨1, [.closed, .streaming true, .refused]⟩ := by
  have hrequest : LimitStep 2 ⟨2, [.streaming true, .streaming true]⟩
      ⟨2, [.streaming true, .streaming true, .requested]⟩ := .request
  have hrefuse : LimitStep 2 ⟨2, [.streaming true, .streaming true, .requested]⟩
      ⟨2, [.streaming true, .streaming true, .refused]⟩ :=
    @LimitStep.move 2 _ _ [.streaming true, .streaming true] [] _ _ (.refuse (Nat.le_refl 2))
  have hadmits : ¬ Admits ⟨2, [.streaming true, .streaming true, .requested]⟩
      ⟨2, [.streaming true, .streaming true, .refused]⟩ := by
    rintro ⟨before, after, _, heq⟩
    have hstreams : [.streaming true, .streaming true, .refused] = before ++ .settingUp :: after :=
      congrArg LimitedServer.streams heq
    have hmem : .settingUp ∈ [StreamStage.streaming true, .streaming true, .refused] := by
      simp [hstreams]
    exact absurd hmem (by decide)
  have hdisconnect : LimitStep 2 ⟨2, [.streaming true, .streaming true, .refused]⟩
      ⟨2, [.streaming false, .streaming true, .refused]⟩ :=
    @LimitStep.move 2 _ _ [] [.streaming true, .refused] _ _ .disconnect
  have hleave : LimitStep 2 ⟨2, [.streaming false, .streaming true, .refused]⟩
      ⟨2, [.closing .updateNotSent, .streaming true, .refused]⟩ :=
    @LimitStep.move 2 _ _ [] [.streaming true, .refused] _ _ (.leave .updateNotSent fun _ => rfl)
  have hdecrement : LimitStep 2 ⟨2, [.closing .updateNotSent, .streaming true, .refused]⟩
      ⟨1, [.closed, .streaming true, .refused]⟩ :=
    @LimitStep.move 2 _ _ [] [.streaming true, .refused] _ _ .decrement
  exact .head (.of_not_mem hrequest (by decide)) <| .head ⟨hrefuse, fun h => absurd h hadmits⟩ <|
    .head (.of_not_mem hdisconnect (by decide)) <| .head (.of_not_mem hleave (by decide)) <|
    .single (.of_not_mem hdecrement (by decide))

/-- One of the two streams is left. Had the third passed the check while the
two were being set up, all three could have come to be counted. -/
theorem stream_limit_two :
    ((⟨1, [.closed, .streaming true, .refused]⟩ : LimitedServer).connectionCounter ≤ 2 ∧
      (⟨1, [.closed, .streaming true, .refused]⟩ : LimitedServer).connectionCounter =
        (⟨1, [.closed, .streaming true, .refused]⟩ : LimitedServer).openStreams) ∧
    ∃ t, LimitRun 2 ⟨0, [.settingUp, .settingUp, .settingUp]⟩ t ∧ 2 < t.connectionCounter := by
  have hrun : UncontendedRun 2 .new ⟨1, [.closed, .streaming true, .refused]⟩ :=
    two_opened.trans one_closed
  have hthird : LimitStep 2 ⟨0, [.settingUp, .settingUp, .requested]⟩
      ⟨0, [.settingUp, .settingUp, .settingUp]⟩ :=
    @LimitStep.move 2 _ _ [.settingUp, .settingUp] [] _ _ (.pass Nat.two_pos)
  obtain ⟨hbound, hbalance, hnecessary⟩ := stream_limit 2
  exact ⟨⟨(hbound _ hrun).1, (hbalance _ (UncontendedRun.toRun hrun)).1 (by decide)⟩,
    hnecessary _ _ hthird ⟨[.settingUp, .settingUp], [], rfl, rfl⟩ (by decide)⟩

/-- Two streams pass the check for the only place. -/
theorem stream_limit_exceeded :
    ¬ ∀ s, LimitRun 1 .new s → s.connectionCounter ≤ 1 := by
  have hadmitted : LimitRun 1 .new ⟨0, [.settingUp, .settingUp]⟩ :=
    .head .request <| .head .request <|
    .head (@LimitStep.move 1 _ _ [] [.requested] _ _ (.pass Nat.one_pos)) <|
    .single (@LimitStep.move 1 _ _ [.settingUp] [] _ _ (.pass Nat.one_pos))
  have hfirst : LimitRun 1 ⟨0, [.settingUp, .settingUp]⟩ ⟨1, [.streaming true, .settingUp]⟩ :=
    .head (@LimitStep.move 1 _ _ [] [.settingUp] _ _ .spawn) <|
    .single (@LimitStep.move 1 _ _ [] [.settingUp] _ _ (.increment true))
  have hsecond : LimitRun 1 ⟨1, [.streaming true, .settingUp]⟩
      ⟨2, [.streaming true, .streaming true]⟩ :=
    .head (@LimitStep.move 1 _ _ [.streaming true] [] _ _ .spawn) <|
    .single (@LimitStep.move 1 _ _ [.streaming true] [] _ _ (.increment true))
  intro hlimit
  exact absurd (hlimit _ (hadmitted.trans (hfirst.trans hsecond))) (by decide)

end ForwardProxy.Servers
