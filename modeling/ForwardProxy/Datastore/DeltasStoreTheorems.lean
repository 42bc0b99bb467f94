/-
ForwardProxy.Datastore.DeltasStoreTheorems — what interval a combined delta
covers.

A cached delta stands for the changes of the times from the since-time it
was polled with up to its lcut. A client at `s` is sent every delta whose
lcut is at least `s`, and the lcut of the last one; it misses nothing when
these deltas leave no gap between `s` and that lcut.

`build_combined_delta_proto_payload` compares `s` with the earliest
since-time only, so the cached deltas themselves must leave no gap
(`Chained`). Popping at the retention limit keeps that: the popped delta
is the one with the least lcut. A new delta keeps it when it joins the ones
it is kept with (`joins`), and nothing in the source makes it do so: the
since-time of a poll comes from the `SdkKeyStore`, which a client moves
ahead by registering a later sinceTime (`combined_with_gap`), and which
moves on when a payload does not parse.
-/
import ForwardProxy.Datastore.DeltasStore
import ForwardProxy.Order.IntervalChain
import ForwardProxy.Order.Retention

namespace ForwardProxy.Datastore

open IntervalChain Retention

/-! ## The records of one SDK key -/

/-- The lcuts in the order of the records. -/
def SortedByLcut (records : List DeltaCacheEntry) : Prop :=
  records.Pairwise fun a b => a.lcut ≤ b.lcut

theorem insertByLcut_cons (entry r : DeltaCacheEntry) (rest : List DeltaCacheEntry) :
    insertByLcut entry (r :: rest) =
      if r.lcut > entry.lcut then entry :: r :: rest else r :: insertByLcut entry rest := by
  unfold insertByLcut
  by_cases h : r.lcut > entry.lcut
  · simp [List.findIdx?_cons, h]
  · rw [List.findIdx?_cons, if_neg (by simpa using h), if_neg h]
    cases rest.findIdx? (fun r => r.lcut > entry.lcut) with
    | none => simp [List.insertIdx_succ_cons]
    | some i => simp [List.insertIdx_succ_cons]

theorem insertByLcut_eq (entry : DeltaCacheEntry) (records : List DeltaCacheEntry) :
    insertByLcut entry records = insertAfter DeltaCacheEntry.lcut entry records := by
  induction records with
  | nil => simp [insertByLcut, insertAfter]
  | cons r rest ih => rw [insertByLcut_cons, insertAfter, ih]

theorem mem_insertByLcut {entry x : DeltaCacheEntry} {records : List DeltaCacheEntry} :
    x ∈ insertByLcut entry records ↔ x = entry ∨ x ∈ records := by
  rw [insertByLcut_eq, (insertAfter_perm _ entry records).mem_iff, List.mem_cons]

theorem length_insertByLcut (entry : DeltaCacheEntry) (records : List DeltaCacheEntry) :
    (insertByLcut entry records).length = records.length + 1 := by
  rw [insertByLcut_eq]
  exact (insertAfter_perm _ entry records).length_eq

theorem SortedByLcut.insert {entry : DeltaCacheEntry} {records : List DeltaCacheEntry}
    (h : SortedByLcut records) : SortedByLcut (insertByLcut entry records) := by
  rw [insertByLcut_eq]
  exact pairwise_le_insertAfter h

theorem popExcess_eq (max : Nat) (records : List DeltaCacheEntry) :
    popExcess max records = records.drop (records.length - max) := by
  induction records with
  | nil => simp [popExcess]
  | cons r rest ih =>
    unfold popExcess
    split
    · rename_i hlong
      rw [ih, show (r :: rest).length - max = (rest.length - max) + 1 by simp at hlong ⊢; omega,
        List.drop_succ_cons]
    · rename_i hshort
      rw [Nat.sub_eq_zero_of_le (by omega), List.drop_zero]

theorem popExcess_of_le {max : Nat} {records : List DeltaCacheEntry} (h : records.length ≤ max) :
    popExcess max records = records := by
  rw [popExcess_eq, Nat.sub_eq_zero_of_le h, List.drop_zero]

theorem popExcess_cons {max : Nat} {r : DeltaCacheEntry} {rest : List DeltaCacheEntry}
    (h : rest.length = max) : popExcess max (r :: rest) = rest := by
  rw [popExcess_eq, List.length_cons, h, Nat.add_sub_cancel_left, List.drop_one, List.tail_cons]

/-! ## Records without a gap -/

structure Chained (max : Nat) (records : List DeltaCacheEntry) : Prop where
  sorted : SortedByLcut records
  short : records.length ≤ max
  gapless : Gapless DeltaCacheEntry.sinceTimeRequested DeltaCacheEntry.lcut records

theorem chained_nil (max : Nat) : Chained max [] where
  sorted := List.Pairwise.nil
  short := by simp
  gapless := gapless_nil

/-- The entry meets the records that stay when it is added, or is itself
the one that is popped. -/
def joins (max : Nat) (records : List DeltaCacheEntry) (entry : DeltaCacheEntry) : Bool :=
  let kept := popExcess (max - 1) records
  kept.isEmpty
    || (kept.any (fun r => entry.sinceTimeRequested ≤ r.lcut)
      && kept.any fun r => r.sinceTimeRequested ≤ entry.lcut)
    || (max ≤ records.length && records.all fun r => entry.lcut < r.lcut)

theorem meets_or_popped {max : Nat} {records : List DeltaCacheEntry} {entry : DeltaCacheEntry}
    (h : joins max records entry = true) :
    Meets DeltaCacheEntry.sinceTimeRequested DeltaCacheEntry.lcut (popExcess (max - 1) records)
        entry ∨
      max ≤ records.length ∧ ∀ r ∈ records, entry.lcut < r.lcut := by
  simp only [joins, Bool.or_eq_true, Bool.and_eq_true, List.isEmpty_iff, List.any_eq_true,
    List.all_eq_true, decide_eq_true_eq] at h
  rcases h with (hempty | hmeets) | hpopped
  · exact .inl (.inl hempty)
  · exact .inl (.inr hmeets)
  · exact .inr hpopped

theorem gapless_insertByLcut {records : List DeltaCacheEntry} {entry : DeltaCacheEntry}
    (h : Gapless DeltaCacheEntry.sinceTimeRequested DeltaCacheEntry.lcut records)
    (hmeets : Meets DeltaCacheEntry.sinceTimeRequested DeltaCacheEntry.lcut records entry) :
    Gapless DeltaCacheEntry.sinceTimeRequested DeltaCacheEntry.lcut
      (insertByLcut entry records) := by
  apply (h.cons hmeets).of_mem_iff
  intro r
  rw [mem_insertByLcut, List.mem_cons]

/-- The records after `persist_delta` of an entry that joins them. -/
theorem Chained.persist {max : Nat} (hmax : 0 < max) {records : List DeltaCacheEntry}
    {entry : DeltaCacheEntry} (h : Chained max records) (hjoins : joins max records entry = true) :
    Chained max (popExcess max (insertByLcut entry records)) := by
  have hspec := meets_or_popped hjoins
  by_cases hroom : records.length < max
  · -- nothing is popped
    rw [popExcess_of_le (by omega)] at hspec
    have hmeets := hspec.resolve_right (by omega)
    have hlen := length_insertByLcut entry records
    rw [popExcess_of_le (by omega)]
    exact ⟨h.sorted.insert, by omega, gapless_insertByLcut h.gapless hmeets⟩
  · -- there is one too many: the entry itself, or the first of the records
    have hshort := h.short
    cases records with
    | nil => simp at hroom; omega
    | cons r rest =>
      simp only [List.length_cons] at hroom hshort
      obtain ⟨hfirst, hrest⟩ := List.pairwise_cons.mp h.sorted
      rw [insertByLcut_cons]
      split
      · rw [popExcess_cons (by simp; omega)]
        exact h
      · rename_i hge
        rw [popExcess_cons (by omega)] at hspec
        have hmeets : Meets DeltaCacheEntry.sinceTimeRequested DeltaCacheEntry.lcut rest entry := by
          rcases hspec with hmeets | ⟨_, hpopped⟩
          · exact hmeets
          · exact absurd (hpopped r (by simp)) hge
        have hlen := length_insertByLcut entry rest
        rw [popExcess_cons (by omega)]
        refine ⟨SortedByLcut.insert hrest, by omega, gapless_insertByLcut ?_ hmeets⟩
        exact h.gapless.of_cons hfirst

/-! ## Calls and runs -/

variable (codec : SpecsCodec)

/-- What an update can do to the cache. -/
theorem DeltasStore.update_cases (deltas : DeltasStore) (rc : AuthorizedRequestContext)
    (response : ResponseContext) :
    (deltas.update codec rc response).maxResponsesToPersist = deltas.maxResponsesToPersist ∧
      ((deltas.update codec rc response).store = deltas.store ∨
        (deltas.update codec rc response).store = Function.update deltas.store rc.sdkKey [] ∨
        rc.path = .v2DownloadConfigSpecsDeltas ∧ response.resultType = .dataAvailable ∧
          ∃ envelopes topLevel,
            parsePayloadToProtos codec response.body = some (envelopes, topLevel) ∧
            (deltas.update codec rc response).store = Function.update deltas.store rc.sdkKey
              (popExcess deltas.maxResponsesToPersist
                (insertByLcut ⟨response.requestSinceTime, topLevel.time, topLevel, envelopes⟩
                  (deltas.store rc.sdkKey)))) := by
  unfold update
  split
  · -- the full config loop
    split
    · exact ⟨rfl, .inl rfl⟩
    · split
      · split
        · exact ⟨rfl, .inl rfl⟩
        · exact ⟨rfl, .inl rfl⟩
      · exact ⟨rfl, .inr (.inl rfl)⟩
      · exact ⟨rfl, .inr (.inl rfl)⟩
      · exact ⟨rfl, .inl rfl⟩
      · exact ⟨rfl, .inl rfl⟩
  · -- the delta loop
    rename_i hpath
    split
    · rename_i hresult
      cases hparse : parsePayloadToProtos codec response.body with
      | none =>
        simp only [persistDelta, hparse]
        exact ⟨trivial, .inl trivial⟩
      | some parsed =>
        obtain ⟨envelopes, topLevel⟩ := parsed
        simp only [persistDelta, hparse]
        exact ⟨trivial, .inr (.inr ⟨hpath, hresult, envelopes, topLevel, rfl, rfl⟩)⟩
    · exact ⟨rfl, .inr (.inl rfl)⟩
    · exact ⟨rfl, .inr (.inl rfl)⟩
    · exact ⟨rfl, .inl rfl⟩
    · exact ⟨rfl, .inl rfl⟩
  · exact ⟨rfl, .inl rfl⟩

/-- A delta that a call brings joins the cached ones of its SDK key. -/
def DeltaSystem.joining (sys : DeltaSystem) : DeltaCall → Bool
  | .update rc response =>
    if rc.path = .v2DownloadConfigSpecsDeltas ∧ response.resultType = .dataAvailable then
      match parsePayloadToProtos codec response.body with
      | none => true
      | some (envelopes, topLevel) =>
        joins sys.deltas.maxResponsesToPersist (sys.deltas.store rc.sdkKey)
          ⟨response.requestSinceTime, topLevel.time, topLevel, envelopes⟩
    else true
  | _ => true

def AllChained (deltas : DeltasStore) : Prop :=
  ∀ key, Chained deltas.maxResponsesToPersist (deltas.store key)

variable {codec}

theorem allChained_update {sys : DeltaSystem} {rc : AuthorizedRequestContext}
    {response : ResponseContext} (hjoining : sys.joining codec (.update rc response) = true)
    (h : AllChained sys.deltas) : AllChained (sys.deltas.update codec rc response) := by
  obtain ⟨hmax, hstore⟩ := DeltasStore.update_cases codec sys.deltas rc response
  intro key
  rw [hmax]
  rcases hstore with hsame | hremoved | ⟨hpath, hresult, envelopes, topLevel, hparse, hpersisted⟩
  · rw [hsame]
    exact h key
  · rw [hremoved]
    by_cases hkey : key = rc.sdkKey
    · rw [hkey, Function.update_self]
      exact chained_nil _
    · rw [Function.update_of_ne hkey]
      exact h key
  · rw [hpersisted]
    by_cases hkey : key = rc.sdkKey
    · rw [hkey, Function.update_self]
      simp only [DeltaSystem.joining, hpath, hresult, and_self, if_true, hparse] at hjoining
      exact (h rc.sdkKey).persist sys.deltas.max_pos hjoining
    · rw [Function.update_of_ne hkey]
      exact h key

theorem allChained_step {sys sys' : DeltaSystem} (h : AllChained sys.deltas)
    (hstep : DeltaSystem.Step codec (DeltaSystem.joining codec) sys sys') :
    AllChained sys'.deltas := by
  obtain ⟨c, hjoining, hcall⟩ := hstep
  cases c with
  | registerSdkKey rc sinceTime =>
    obtain rfl := Option.some.inj hcall
    exact h
  | poll rc =>
    simp only [DeltaSystem.call] at hcall
    split at hcall
    · obtain rfl := Option.some.inj hcall
      exact h
    · simp at hcall
  | update rc response =>
    simp only [DeltaSystem.call] at hcall
    split at hcall
    · split at hcall
      · obtain rfl := Option.some.inj hcall
        exact allChained_update hjoining h
      · simp at hcall
    · obtain rfl := Option.some.inj hcall
      exact allChained_update hjoining h

theorem reach_allChained {max : Nat} {sys : DeltaSystem}
    (hrun : Relation.ReflTransGen (DeltaSystem.Step codec (DeltaSystem.joining codec))
      (DeltaSystem.new max) sys) : AllChained sys.deltas := by
  induction hrun with
  | refl =>
    intro key
    exact chained_nil _
  | tail _ hlast ih => exact allChained_step ih hlast

/-! ## The combined delta -/

/-- When there is a combined delta: the client is not behind the earliest
since-time, and the lcut is that of the last record. -/
theorem combined_cases {deltas : DeltasStore} {rc : AuthorizedRequestContext} {s L : Nat}
    {payload : List UInt8}
    (h : deltas.buildCombinedDeltaProtoPayload codec rc s = .combined L payload) :
    (∃ d ∈ deltas.getCachedDeltas rc, d.sinceTimeRequested ≤ s) ∧
      (∃ d ∈ deltas.getCachedDeltas rc, d.lcut = L) ∧
      assembleEnvelopesInDeltaOrder codec (selectDeltas (deltas.getCachedDeltas rc) s) =
        some payload := by
  have hmapped : deltas.getCachedDeltas (toDeltaRequestContext rc) = deltas.getCachedDeltas rc :=
    rfl
  unfold DeltasStore.buildCombinedDeltaProtoPayload at h
  simp only [hmapped] at h
  split at h
  · simp at h
  split at h
  · simp at h
  rename_i hcached
  split at h
  · simp at h
  rename_i hearliest
  split at h
  · simp at h
  split at h
  · rename_i payload' hpayload
    simp only [DeltaProtoBuildResult.combined.injEq] at h
    obtain ⟨hL, rfl⟩ := h
    have hne : deltas.getCachedDeltas rc ≠ [] := by simpa using hcached
    refine ⟨?_, ?_, hpayload⟩
    · -- the least since-time is that of some record
      cases hmin : ((deltas.getCachedDeltas rc).map fun d => d.sinceTimeRequested).min? with
      | none => simp [hne] at hmin
      | some m =>
        rw [hmin, Option.getD_some, Nat.not_lt] at hearliest
        obtain ⟨d, hd, rfl⟩ := List.mem_map.mp (List.min?_mem hmin)
        exact ⟨d, hd, hearliest⟩
    · refine ⟨(deltas.getCachedDeltas rc).getLast hne, List.getLast_mem hne, ?_⟩
      rw [← hL, List.getLast?_eq_getLast_of_ne_nil hne]
      rfl
  · simp at h

/-- **A combined delta covers what it claims**, in every run in which each
delta joins the ones it is kept with: every time from the client's
since-time up to the lcut it is told lies in a delta of the payload. -/
theorem combined_covers {max : Nat} {sys : DeltaSystem}
    (hrun : Relation.ReflTransGen (DeltaSystem.Step codec (DeltaSystem.joining codec))
      (DeltaSystem.new max) sys)
    {rc : AuthorizedRequestContext} {s L : Nat} {payload : List UInt8}
    (hbuild : sys.deltas.buildCombinedDeltaProtoPayload codec rc s = .combined L payload) :
    assembleEnvelopesInDeltaOrder codec (selectDeltas (sys.deltas.getCachedDeltas rc) s) =
        some payload ∧
      ∀ t, s ≤ t → t < L → ∃ d ∈ selectDeltas (sys.deltas.getCachedDeltas rc) s,
        d.sinceTimeRequested ≤ t ∧ t < d.lcut := by
  obtain ⟨⟨first, hfirst, hsince⟩, ⟨last, hlast, hL⟩, hpayload⟩ := combined_cases hbuild
  have hgapless := (reach_allChained hrun rc.sdkKey).gapless
  refine ⟨hpayload, ?_⟩
  intro t hst htL
  obtain ⟨d, hd, hlo, hhi⟩ := hgapless t ⟨first, hfirst, hsince.trans hst⟩
    ⟨last, hlast, by omega⟩
  refine ⟨d, ?_, hlo, hhi⟩
  -- `d` ends after `t`, so it is one of those selected at `s`
  simp only [selectDeltas, List.mem_filter, decide_eq_true_eq]
  exact ⟨hd, by omega⟩

/-! ## Two runs -/

/-- Envelopes of one byte of data: their length, the kind and the data. A
top-level message is its time. -/
def byteCodec : SpecsCodec where
  number
    | .topLevel => 1
    | .copyPrev => 2
    | .checksums => 3
    | .done => 4
  decodeLengthDelimited
    | 2 :: kind :: datum :: rest => some (⟨kind.toNat, "", "", some [datum]⟩, rest)
    | _ => none
  decodeEnvelope
    | [kind, datum] => some ⟨kind.toNat, "", "", some [datum]⟩
    | _ => none
  decodeTopLevel
    | [time] => some ⟨time.toNat⟩
    | _ => none
  encodeLengthDelimited e := e.data.map fun data => 2 :: UInt8.ofNat e.kind.toNat :: data
  brotliDecompress := some
  gzipDecompress := some

def deltaClient : AuthorizedRequestContext :=
  (AuthorizedRequestContext.new "secret-key" .v2DownloadConfigSpecsDeltas []).withRequestCapabilities
    true true

/-- The answer to a poll at `since`: a delta up to `lcut` with one datum. -/
def deltaAnswer (since : Nat) (lcut datum : UInt8) : DeltaCall :=
  .update deltaClient
    ⟨.dataAvailable, lcut.toNat, since, ⟨true, .plainText, [2, 1, lcut, 2, 7, datum]⟩⟩

/-- A client registers at 10, and two polls bring the deltas up to 20 and
up to 120. -/
def steadyCalls : List DeltaCall :=
  [.registerSdkKey deltaClient 10, .poll deltaClient, deltaAnswer 10 20 1,
    .poll deltaClient, deltaAnswer 20 120 2]

theorem combined_covers_steady :
    ∃ sys payload,
      Relation.ReflTransGen (DeltaSystem.Step byteCodec (DeltaSystem.joining byteCodec))
        (DeltaSystem.new 10) sys ∧
      sys.deltas.buildCombinedDeltaProtoPayload byteCodec deltaClient 15 = .combined 120 payload ∧
      ∀ t, 15 ≤ t → t < 120 → ∃ d ∈ selectDeltas (sys.deltas.getCachedDeltas deltaClient) 15,
        d.sinceTimeRequested ≤ t ∧ t < d.lcut := by
  have hstate : (DeltaSystem.calls byteCodec (DeltaSystem.joining byteCodec) steadyCalls
      (DeltaSystem.new 10)).map (fun sys : DeltaSystem =>
        sys.deltas.buildCombinedDeltaProtoPayload byteCodec deltaClient 15) =
      some (.combined 120 [2, 1, 120, 2, 7, 1, 2, 7, 2]) := by decide +kernel
  obtain ⟨sys, hrun, hbuild⟩ := DeltaSystem.exists_of_calls hstate
  exact ⟨sys, _, hrun, hbuild, (combined_covers hrun hbuild).2⟩

/-- Between the two polls another client registers at 100. -/
def aheadCalls : List DeltaCall :=
  [.registerSdkKey deltaClient 10, .poll deltaClient, deltaAnswer 10 20 1,
    .registerSdkKey deltaClient 100, .poll deltaClient, deltaAnswer 100 120 2]

/-- The client at 15 is told it is at 120 and is sent nothing of the times
from 20 up to 100. -/
theorem combined_with_gap :
    ¬ ∀ (codec : SpecsCodec) (max : Nat) (sys : DeltaSystem),
      Relation.ReflTransGen (DeltaSystem.Step codec fun _ _ => true) (DeltaSystem.new max) sys →
      ∀ (rc : AuthorizedRequestContext) (s L : Nat) (payload : List UInt8), s < L →
        sys.deltas.buildCombinedDeltaProtoPayload codec rc s = .combined L payload →
        ∀ t, s ≤ t → t < L → ∃ d ∈ selectDeltas (sys.deltas.getCachedDeltas rc) s,
          d.sinceTimeRequested ≤ t ∧ t < d.lcut := by
  intro hall
  have hstate : (DeltaSystem.calls byteCodec (fun _ _ => true) aheadCalls
      (DeltaSystem.new 10)).map (fun sys : DeltaSystem =>
        (sys.deltas.buildCombinedDeltaProtoPayload byteCodec deltaClient 15,
          decide (∃ d ∈ selectDeltas (sys.deltas.getCachedDeltas deltaClient) 15,
            d.sinceTimeRequested ≤ 50 ∧ 50 < d.lcut))) =
      some (.combined 120 [2, 1, 120, 2, 7, 1, 2, 7, 2], false) := by decide +kernel
  obtain ⟨sys, hrun, hsys⟩ := DeltaSystem.exists_of_calls hstate
  obtain ⟨hbuild, hgap⟩ := Prod.mk.inj hsys
  exact of_decide_eq_false hgap
    (hall byteCodec 10 sys hrun deltaClient 15 120 _ (by decide) hbuild 50 (by decide) (by decide))

end ForwardProxy.Datastore
