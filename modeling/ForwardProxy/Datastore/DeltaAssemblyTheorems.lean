/-
ForwardProxy.Datastore.DeltaAssemblyTheorems — which deltas the store keeps,
and what a client reads from a combined one.

`persist_delta` is an insertion by lcut with the front cut off, so what is
kept is given by `Order.Retention`. A payload that does not parse is no
arrival.

The encoding of a message with its length is that of a crate. It is assumed
to be read back, whatever follows it, and to take a byte at least
(`SpecsCodec.RoundTrips`); then neither the fallback to a single message nor
the exit without progress is taken on an assembled payload.
-/
import ForwardProxy.Datastore.DeltasStoreTheorems

namespace ForwardProxy.Datastore

open Retention

/-! ## Retention -/

structure PersistCall where
  rc : AuthorizedRequestContext
  payload : ResponsePayload
  sinceTimeRequested : Nat
  deriving DecidableEq, Repr

section Codec

variable (codec : SpecsCodec)

/-- The entry of a payload that parses. -/
def PersistCall.entry (call : PersistCall) : Option DeltaCacheEntry :=
  (parsePayloadToProtos codec call.payload).map fun (envelopes, topLevel) =>
    ⟨call.sinceTimeRequested, topLevel.time, topLevel, envelopes⟩

/-- The entries of an SDK key in the order of their arrival. -/
def parsedDeltas (sdkKey : String) (calls : List PersistCall) : List DeltaCacheEntry :=
  (calls.filter fun call => call.rc.sdkKey = sdkKey).filterMap (PersistCall.entry codec)

def DeltasStore.persistDeltas (deltas : DeltasStore) (calls : List PersistCall) : DeltasStore :=
  calls.foldl (fun deltas call =>
    deltas.persistDelta codec call.rc call.payload call.sinceTimeRequested) deltas

end Codec

variable {codec : SpecsCodec}

/-- One call is one arrival, or none. -/
theorem persistDelta_store (deltas : DeltasStore) (call : PersistCall) (sdkKey : String) :
    (deltas.persistDelta codec call.rc call.payload call.sinceTimeRequested).store sdkKey =
      (parsedDeltas codec sdkKey [call]).foldl
        (retain DeltaCacheEntry.lcut deltas.maxResponsesToPersist) (deltas.store sdkKey) := by
  unfold DeltasStore.persistDelta parsedDeltas PersistCall.entry
  by_cases hkey : call.rc.sdkKey = sdkKey
  · cases hparse : parsePayloadToProtos codec call.payload with
    | none => simp [hkey, hparse]
    | some parsed =>
      simp [hkey, hparse, retain, popExcess_eq, insertByLcut_eq]
  · cases hparse : parsePayloadToProtos codec call.payload with
    | none => simp [hkey]
    | some parsed => simp [hkey, Function.update_of_ne (Ne.symm hkey)]

theorem persistDelta_max (deltas : DeltasStore) (call : PersistCall) :
    (deltas.persistDelta codec call.rc call.payload call.sinceTimeRequested).maxResponsesToPersist =
      deltas.maxResponsesToPersist := by
  unfold DeltasStore.persistDelta
  split <;> rfl

theorem parsedDeltas_cons (sdkKey : String) (call : PersistCall) (calls : List PersistCall) :
    parsedDeltas codec sdkKey (call :: calls) =
      parsedDeltas codec sdkKey [call] ++ parsedDeltas codec sdkKey calls := by
  rw [parsedDeltas, parsedDeltas, parsedDeltas, ← List.filterMap_append, ← List.filter_append]
  rfl

/-- The calls as a whole: the arrivals of the SDK key, one after the other. -/
theorem persistDeltas_eq (codec : SpecsCodec) (deltas : DeltasStore) (calls : List PersistCall)
    (sdkKey : String) :
    (deltas.persistDeltas codec calls).maxResponsesToPersist = deltas.maxResponsesToPersist ∧
    (deltas.persistDeltas codec calls).store sdkKey =
      (parsedDeltas codec sdkKey calls).foldl
        (retain DeltaCacheEntry.lcut deltas.maxResponsesToPersist) (deltas.store sdkKey) := by
  unfold DeltasStore.persistDeltas
  induction calls generalizing deltas with
  | nil => exact ⟨rfl, rfl⟩
  | cons call rest ih =>
    rw [List.foldl_cons, parsedDeltas_cons, List.foldl_append, ← persistDelta_store,
      ← persistDelta_max deltas call]
    exact ih _

/-! ## Envelopes written and read back -/

/-- The envelope is read back from what is written for it, whatever
follows. The length takes at least one byte. -/
def SpecsCodec.RoundTrips (codec : SpecsCodec) (e : SpecsEnvelope) : Prop :=
  ∃ bytes, codec.encodeLengthDelimited e = some bytes ∧ bytes ≠ [] ∧
    ∀ rest, codec.decodeLengthDelimited (bytes ++ rest) = some (e, rest)

theorem decodeEnvelopesFrom_nil (payload : List UInt8) (rounds : Nat)
    (envelopes : List SpecsEnvelope) :
    decodeEnvelopesFrom codec payload rounds [] envelopes = some envelopes := by
  cases rounds <;> rfl

theorem decodeEnvelopesFrom_append {payload bytes rest : List UInt8} {rounds : Nat}
    {e : SpecsEnvelope} {envelopes : List SpecsEnvelope} (hne : bytes ≠ [])
    (hdecode : codec.decodeLengthDelimited (bytes ++ rest) = some (e, rest)) :
    decodeEnvelopesFrom codec payload (rounds + 1) (bytes ++ rest) envelopes =
      decodeEnvelopesFrom codec payload rounds rest (envelopes ++ [e]) := by
  have hpos : 0 < bytes.length := List.length_pos_iff.mpr hne
  rw [decodeEnvelopesFrom, if_neg (by simp [hne]), hdecode]
  simp only [List.length_append]
  rw [if_neg (by omega)]

theorem writeEnvelopes_cons (e : SpecsEnvelope) (es : List SpecsEnvelope) :
    writeEnvelopes codec (e :: es) =
      (codec.encodeLengthDelimited e).bind fun bytes =>
        (writeEnvelopes codec es).map fun rest => bytes ++ rest := by
  simp only [writeEnvelopes, List.mapM_cons]
  cases codec.encodeLengthDelimited e with
  | none => rfl
  | some bytes => cases List.mapM codec.encodeLengthDelimited es <;> rfl

theorem writeEnvelopes_append (xs ys : List SpecsEnvelope) :
    writeEnvelopes codec (xs ++ ys) =
      (writeEnvelopes codec xs).bind fun written =>
        (writeEnvelopes codec ys).map fun rest => written ++ rest := by
  induction xs with
  | nil =>
    have hnil : writeEnvelopes codec [] = some [] := rfl
    simp [hnil]
  | cons x xs ih =>
    rw [List.cons_append, writeEnvelopes_cons, writeEnvelopes_cons, ih]
    cases codec.encodeLengthDelimited x <;> cases writeEnvelopes codec xs <;>
      cases writeEnvelopes codec ys <;> simp

/-- The loop reads the envelopes one after the other. -/
theorem decode_written {es : List SpecsEnvelope} (h : ∀ e ∈ es, codec.RoundTrips e) :
    ∃ bytes, writeEnvelopes codec es = some bytes ∧
      ∀ payload rounds envelopes, bytes.length ≤ rounds →
        decodeEnvelopesFrom codec payload rounds bytes envelopes = some (envelopes ++ es) := by
  induction es with
  | nil => exact ⟨[], rfl, by simp [decodeEnvelopesFrom_nil]⟩
  | cons e es ih =>
    obtain ⟨bytes, hencode, hne, hdecode⟩ := h e (by simp)
    obtain ⟨rest, hwrite, hread⟩ := ih fun x hx => h x (by simp [hx])
    refine ⟨bytes ++ rest, by simp [writeEnvelopes_cons, hencode, hwrite], ?_⟩
    intro payload rounds envelopes hrounds
    have hpos : 0 < bytes.length := List.length_pos_iff.mpr hne
    rw [List.length_append] at hrounds
    obtain ⟨r, rfl⟩ : ∃ r, rounds = r + 1 := ⟨rounds - 1, by omega⟩
    rw [decodeEnvelopesFrom_append hne (hdecode rest), hread payload r _ (by omega),
      List.append_assoc, List.singleton_append]

/-! ## The groups of an assembled payload -/

section Groups

variable (codec : SpecsCodec)

/-- The meta envelopes other than checksums and done. -/
def controlEnvelopes (delta : DeltaCacheEntry) : List SpecsEnvelope :=
  delta.envelopes.filter fun e => isMetaEnvelope codec e.kind &&
    !(e.kind = codec.number .checksums || e.kind = codec.number .done)

def dataEnvelopes (delta : DeltaCacheEntry) : List SpecsEnvelope :=
  delta.envelopes.filter fun e => !isMetaEnvelope codec e.kind

/-- Checksums and done. -/
def closingEnvelopes (delta : DeltaCacheEntry) : List SpecsEnvelope :=
  delta.envelopes.filter fun e =>
    e.kind = codec.number .checksums || e.kind = codec.number .done

/-- What the deltas up to `latest` are combined to. -/
def combinedEnvelopes (earlier : List DeltaCacheEntry) (latest : DeltaCacheEntry) :
    List SpecsEnvelope :=
  controlEnvelopes codec latest ++ (earlier ++ [latest]).flatMap (dataEnvelopes codec) ++
    closingEnvelopes codec latest

end Groups

theorem assemble_eq (earlier : List DeltaCacheEntry) (latest : DeltaCacheEntry) :
    assembleEnvelopesInDeltaOrder codec (earlier ++ [latest]) =
      writeEnvelopes codec (combinedEnvelopes codec earlier latest) := by
  have hcontrol : (latest.envelopes.filter fun e => isMetaEnvelope codec e.kind &&
      e.kind ≠ codec.number .checksums && e.kind ≠ codec.number .done) =
      controlEnvelopes codec latest := by
    simp [controlEnvelopes, Bool.and_assoc]
  have hlast : (earlier ++ [latest]).getLast? = some latest := by simp
  rw [combinedEnvelopes, writeEnvelopes_append, writeEnvelopes_append,
    assembleEnvelopesInDeltaOrder, hlast]
  simp only [hcontrol]
  change (writeEnvelopes codec (controlEnvelopes codec latest)).bind _ = _
  cases writeEnvelopes codec (controlEnvelopes codec latest) with
  | none => rfl
  | some control =>
    change (writeEnvelopes codec ((earlier ++ [latest]).flatMap (dataEnvelopes codec))).bind _ = _
    cases writeEnvelopes codec ((earlier ++ [latest]).flatMap (dataEnvelopes codec)) with
    | none => rfl
    | some data =>
      change (writeEnvelopes codec (closingEnvelopes codec latest)).bind _ = _
      cases writeEnvelopes codec (closingEnvelopes codec latest) with
      | none => rfl
      | some closing => rfl

/-- Every envelope of a delta is in one of the groups. -/
theorem groups_perm (codec : SpecsCodec) (delta : DeltaCacheEntry) :
    (controlEnvelopes codec delta ++ dataEnvelopes codec delta ++
      closingEnvelopes codec delta).Perm delta.envelopes := by
  let closing := fun e : SpecsEnvelope =>
    (e.kind = codec.number .checksums || e.kind = codec.number .done : Bool)
  let others := delta.envelopes.filter fun e => !closing e
  have hcontrol : controlEnvelopes codec delta =
      others.filter fun e => isMetaEnvelope codec e.kind := by
    rw [List.filter_filter]
    rfl
  have hdata : dataEnvelopes codec delta = others.filter fun e => !isMetaEnvelope codec e.kind := by
    -- an envelope that is no meta envelope is not a closing one
    rw [List.filter_filter]
    refine List.filter_congr fun e _ => ?_
    simp only [isMetaEnvelope, closing]
    grind
  calc (controlEnvelopes codec delta ++ dataEnvelopes codec delta ++
        closingEnvelopes codec delta)
      |>.Perm (others ++ delta.envelopes.filter closing) := by
        rw [hcontrol, hdata]
        exact (List.filter_append_perm _ others).append_right _
    _ |>.Perm (delta.envelopes.filter closing ++ others) := List.perm_append_comm
    _ |>.Perm delta.envelopes := List.filter_append_perm closing delta.envelopes

theorem combinedEnvelopes_perm (earlier : List DeltaCacheEntry) (latest : DeltaCacheEntry) :
    (combinedEnvelopes codec earlier latest).Perm
      (earlier.flatMap (dataEnvelopes codec) ++ latest.envelopes) := by
  have hfront : (controlEnvelopes codec latest ++ earlier.flatMap (dataEnvelopes codec)).Perm
      (earlier.flatMap (dataEnvelopes codec) ++ controlEnvelopes codec latest) :=
    List.perm_append_comm
  have hmoved := hfront.append_right
    (dataEnvelopes codec latest ++ closingEnvelopes codec latest)
  have hlatest := (groups_perm codec latest).append_left
    (earlier.flatMap (dataEnvelopes codec))
  simp only [combinedEnvelopes, List.flatMap_append, List.flatMap_singleton, List.append_assoc]
    at hmoved hlatest ⊢
  exact hmoved.trans hlatest

theorem mem_of_mem_combined {earlier : List DeltaCacheEntry} {latest : DeltaCacheEntry}
    {e : SpecsEnvelope} (he : e ∈ combinedEnvelopes codec earlier latest) :
    ∃ delta ∈ earlier ++ [latest], e ∈ delta.envelopes := by
  rcases List.mem_append.mp ((combinedEnvelopes_perm earlier latest).mem_iff.mp he) with he | he
  · obtain ⟨delta, hdelta, he⟩ := List.mem_flatMap.mp he
    exact ⟨delta, by simp [hdelta], (List.mem_filter.mp he).1⟩
  · exact ⟨latest, by simp, he⟩

/-- The records are sorted by lcut, they are not too many, and they are
those of the parsed deltas that come last by lcut and, among equal lcuts, by
their arrival. A combined delta is read as the control envelopes of the
latest, the data of all deltas in their order, and the closing envelopes of
the latest: these are the envelopes of the latest and the data of the
others, each once. -/
theorem delta_assembly (codec : SpecsCodec) :
    (∀ (sdkKeyStore : SdkKeyStore) (max : Nat) (calls : List PersistCall) (sdkKey : String),
      let deltas := (DeltasStore.new sdkKeyStore max).persistDeltas codec calls
      SortedByLcut (deltas.store sdkKey) ∧
      (deltas.store sdkKey).length ≤ deltas.maxResponsesToPersist ∧
      Retains DeltaCacheEntry.lcut deltas.maxResponsesToPersist
        (parsedDeltas codec sdkKey calls) (deltas.store sdkKey)) ∧
    ∀ (earlier : List DeltaCacheEntry) (latest : DeltaCacheEntry),
      (∀ delta ∈ earlier ++ [latest], ∀ e ∈ delta.envelopes, codec.RoundTrips e) →
      (assembleEnvelopesInDeltaOrder codec (earlier ++ [latest])).bind (decodeEnvelopes codec) =
        some (combinedEnvelopes codec earlier latest) ∧
      (combinedEnvelopes codec earlier latest).Perm
        (earlier.flatMap (dataEnvelopes codec) ++ latest.envelopes) := by
  refine ⟨?_, ?_⟩
  · intro sdkKeyStore max calls sdkKey
    obtain ⟨hmax, hstore⟩ :=
      persistDeltas_eq codec (DeltasStore.new sdkKeyStore max) calls sdkKey
    have hretains := (retains_nil DeltaCacheEntry.lcut
      (DeltasStore.new sdkKeyStore max).maxResponsesToPersist).foldl
      (parsedDeltas codec sdkKey calls)
    rw [List.nil_append] at hretains
    simp only
    rw [hmax, hstore]
    exact ⟨hretains.sorted, hretains.length_le, hretains⟩
  · intro earlier latest h
    have hgroups : ∀ e ∈ combinedEnvelopes codec earlier latest, codec.RoundTrips e := by
      intro e he
      obtain ⟨delta, hdelta, he⟩ := mem_of_mem_combined he
      exact h delta hdelta e he
    obtain ⟨bytes, hwrite, hread⟩ := decode_written hgroups
    refine ⟨?_, combinedEnvelopes_perm earlier latest⟩
    rw [assemble_eq, hwrite]
    exact hread bytes bytes.length [] (Nat.le_refl _)

theorem byteCodec_roundTrips (kind datum : UInt8) :
    byteCodec.RoundTrips ⟨kind.toNat, "", "", some [datum]⟩ := by
  refine ⟨[2, kind, datum], ?_, by simp, fun rest => rfl⟩
  simp [byteCodec]

/-- The meta envelopes of the earlier delta are left out. -/
theorem delta_assembly_two :
    let envelope := fun kind datum : UInt8 => (⟨kind.toNat, "", "", some [datum]⟩ : SpecsEnvelope)
    (assembleEnvelopesInDeltaOrder byteCodec
      [⟨10, 30, ⟨30⟩, [envelope 1 30, envelope 2 0, envelope 7 1, envelope 3 2, envelope 4 3]⟩,
        ⟨30, 50, ⟨50⟩, [envelope 1 50, envelope 3 4, envelope 8 5, envelope 4 6, envelope 2 9]⟩]).bind
      (decodeEnvelopes byteCodec) =
    some [envelope 1 50, envelope 2 9, envelope 7 1, envelope 8 5, envelope 3 4, envelope 4 6] := by
  intro envelope
  refine ((delta_assembly byteCodec).2
    [⟨10, 30, ⟨30⟩, [envelope 1 30, envelope 2 0, envelope 7 1, envelope 3 2, envelope 4 3]⟩]
    ⟨30, 50, ⟨50⟩, [envelope 1 50, envelope 3 4, envelope 8 5, envelope 4 6, envelope 2 9]⟩ ?_).1
  intro delta hdelta e he
  have hbytes : ∃ kind datum, e = envelope kind datum := by
    simp only [List.cons_append, List.nil_append, List.mem_cons, List.not_mem_nil, or_false]
      at hdelta
    rcases hdelta with rfl | rfl <;>
      (simp only [List.mem_cons, List.not_mem_nil, or_false] at he
       rcases he with rfl | rfl | rfl | rfl | rfl <;> exact ⟨_, _, rfl⟩)
  obtain ⟨kind, datum, rfl⟩ := hbytes
  exact byteCodec_roundTrips kind datum

end ForwardProxy.Datastore
