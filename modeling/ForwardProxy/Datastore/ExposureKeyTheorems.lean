/-
ForwardProxy.Datastore.ExposureKeyTheorems — which exposures have a key of
their own.

The name, rule and value of an exposure are JSON texts and the minute is a
number, so the end of a key is always read back, whatever precedes it
(`parts_of_key`). The ids in front of it are written as they are: the SDK
key, the user id, the stable id, and the names of the custom ids. They may
contain the delimiters, and then the same text is that of other ids.

`Unambiguous` is what keeps the ids of an exposure from being read in
another way. Custom ids never do: their text is also the end of a longer
stable id. Two exposures that both have `Plain` ids are told apart, with
custom ids or without.
-/
import ForwardProxy.Datastore.LogEventStore
import ForwardProxy.IdList.SchemaTheorems
import ForwardProxy.Text.Quoted
import ForwardProxy.Text.Split

namespace ForwardProxy.Datastore

open Text

/-! ## Exposures -/

/-- An event with what its request says for it. -/
structure Exposure where
  sdkKey : String
  event : LogEvent
  globalMetadata : Option StatsigMetadata
  deriving DecidableEq, Repr

/-- The ids of an exposure, as they are written. -/
@[ext]
structure Ids where
  sdkKey : List Char
  userId : List Char
  stableId : List Char
  customIds : List (List Char × List Char)
  deriving DecidableEq, Repr

namespace Exposure

def key (x : Exposure) (now : Nat) : Option String :=
  computeKey x.sdkKey x.event x.globalMetadata now

/-- A stable id of the event comes before that of the request. -/
def stableId (x : Exposure) : String :=
  ((x.event.statsigMetadata.bind fun m => m.stableId).orElse fun _ =>
    x.globalMetadata.bind fun m => m.stableId).getD ""

def customIds (x : Exposure) : List (String × String) :=
  (x.event.user.bind fun user => user.customIds).getD []

def ids (x : Exposure) : Ids where
  sdkKey := x.sdkKey.toList
  userId := ((x.event.user.bind fun user => user.userId).getD "").toList
  stableId := x.stableId.toList
  customIds := x.customIds.map fun (k, v) => (k.toList, v.toList)

/-- The name of the config or the gate. -/
def name (x : Exposure) : String :=
  match x.event.eventName with
  | .configExposure => x.event.getMetadata "config"
  | .gateExposure => x.event.getMetadata "gate"
  | .other _ => ""

def minute (x : Exposure) : Option Nat := x.event.time.map fun t => t / 60000

/-- What the source can receive, with a valid timestamp. The values of
metadata and of custom ids are JSON, and the custom ids are a map in the
order of its names. -/
structure WellFormed (numbers : NumberFormat) (x : Exposure) : Prop where
  exposure : ∀ eventName, x.event.eventName ≠ .other eventName
  valid : ∃ t ≤ maxTimestampMillis, x.event.time = some t
  metadata : ∀ field ∈ x.event.metadata.getD [], JsonText numbers field.2.toList
  customValues : ∀ field ∈ x.customIds, JsonText numbers field.2.toList
  customNames : (x.customIds.map Prod.fst).Pairwise (· < ·)

/-- The same exposure. -/
structure Agree (x y : Exposure) : Prop where
  ids : x.ids = y.ids
  kind : x.event.eventName = y.event.eventName
  name : x.name = y.name
  rule : x.event.getMetadata "ruleID" = y.event.getMetadata "ruleID"
  gateValue : x.event.eventName = .gateExposure →
    x.event.getMetadata "gateValue" = y.event.getMetadata "gateValue"
  minute : x.minute = y.minute

/-- No other exposure has the key of this one. -/
def Identified (numbers : NumberFormat) (x : Exposure) : Prop :=
  ∀ y, WellFormed numbers y → ∀ now now', x.key now = y.key now' → Agree x y

end Exposure

namespace Ids

/-- The ids cannot be read in another way. -/
structure Unambiguous (numbers : NumberFormat) (ids : Ids) : Prop where
  noCustomIds : ids.customIds = []
  sdkKey : ¬ ";u:".toList <:+: ids.sdkKey
  userId : ¬ ";u:".toList <:+: ids.userId ∧ ¬ ";s:".toList <:+: ids.userId
  stableId : ¬ ";s:".toList <:+: ids.stableId
  noCustomId : ∀ before k v, ids.stableId = before ++ ';' :: (k ++ ':' :: v) →
    ¬ JsonText numbers v

/-- The ids do not contain what ends them. -/
structure Plain (ids : Ids) : Prop where
  sdkKey : ';' ∉ ids.sdkKey
  userId : ';' ∉ ids.userId
  stableId : ';' ∉ ids.stableId
  customNames : ∀ field ∈ ids.customIds, ':' ∉ field.1

end Ids

/-! ## The text of a key -/

def customText (customIds : List (List Char × List Char)) : List Char :=
  customIds.flatMap fun (k, v) => k ++ ':' :: (v ++ [';'])

/-- The part of a key before the name. -/
def Ids.text (ids : Ids) : List Char :=
  'k' :: ':' :: (ids.sdkKey ++ ';' :: ('u' :: ':' :: (ids.userId ++ ';' :: ('s' :: ':' ::
    (ids.stableId ++ ';' :: customText ids.customIds)))))

namespace Exposure

variable {numbers : NumberFormat} {x y : Exposure}

/-- The parts of a key from the name on. -/
def namePart (x : Exposure) : List Char :=
  match x.event.eventName with
  | .configExposure => 'n' :: ':' :: '$' :: x.name.toList
  | _ => 'n' :: ':' :: x.name.toList

def laterParts (x : Exposure) : List (List Char) :=
  let rule := 'r' :: ':' :: (x.event.getMetadata "ruleID").toList
  let value := 'v' :: ':' :: (x.event.getMetadata "gateValue").toList
  let time := 't' :: (toString (roundToMinute (x.event.time.getD 0))).toList
  match x.event.eventName with
  | .gateExposure => [rule, value, time]
  | _ => [rule, time]

theorem WellFormed.eventMinute (h : WellFormed numbers x) (now : Nat) :
    eventMinute x.event.time now = roundToMinute (x.event.time.getD 0) := by
  obtain ⟨t, hle, ht⟩ := h.valid
  simp [Datastore.eventMinute, ht, Option.filter, hle]

theorem key_toList (h : WellFormed numbers x) (now : Nat) :
    (x.key now).map String.toList =
      some (x.ids.text ++ join ';' (x.namePart :: x.laterParts)) := by
  cases hkind : x.event.eventName with
  | other eventName => exact absurd hkind (h.exposure eventName)
  | configExposure =>
    simp [key, computeKey, hkind, h.eventMinute, Ids.text, ids, stableId, customIds, customText,
      namePart, laterParts, name, join_cons_cons, join_singleton, List.flatMap_map]
  | gateExposure =>
    simp [key, computeKey, hkind, h.eventMinute, Ids.text, ids, stableId, customIds, customText,
      namePart, laterParts, name, join_cons_cons, join_singleton, List.flatMap_map]

theorem clean_getMetadata (h : WellFormed numbers x) (field : String) :
    Clean ';' (x.event.getMetadata field).toList := by
  unfold LogEvent.getMetadata
  cases hfields : x.event.metadata with
  | none => exact clean_nil ';'
  | some fields =>
    cases hvalue : fields.lookup field with
    | none =>
      simp only [Option.bind_some, hvalue, Option.getD_none]
      exact clean_nil ';'
    | some value =>
      simp only [Option.bind_some, hvalue, Option.getD_some]
      obtain ⟨before, after, hsplit, _⟩ := List.lookup_eq_some_iff.mp hvalue
      have hmem : (field, value) ∈ fields := by simp [hsplit]
      exact (h.metadata (field, value) (by rw [hfields]; exact hmem)).clean

theorem clean_toString (n : Nat) : Clean ';' (toString n).toList := by
  apply clean_of_plain
  intro c hc
  rw [Nat.toString_eq_repr, Nat.toList_repr] at hc
  have hdigit := Nat.isDigit_of_mem_toDigits (by decide) (by decide) hc
  refine ⟨?_, ?_, ?_⟩ <;>
    · rintro rfl
      exact absurd hdigit (by decide)

theorem clean_name (h : WellFormed numbers x) : Clean ';' x.name.toList := by
  unfold name
  split
  · exact clean_getMetadata h _
  · exact clean_getMetadata h _
  · exact clean_nil ';'

/-- A part is clean if what follows its plain first characters is. -/
theorem clean_part (label : List Char) {part : List Char} (hpart : Clean ';' part)
    (h : ∀ c ∈ label, c ≠ ';' ∧ c ≠ '"' ∧ c ≠ '\\') : Clean ';' (label ++ part) :=
  (clean_of_plain h).append hpart

theorem clean_namePart (h : WellFormed numbers x) :
    Clean ';' x.namePart ∧ x.namePart.head? = some 'n' := by
  unfold namePart
  split
  · exact ⟨clean_part ['n', ':', '$'] (clean_name h) (by simp), rfl⟩
  · exact ⟨clean_part ['n', ':'] (clean_name h) (by simp), rfl⟩

theorem clean_laterParts (h : WellFormed numbers x) :
    ∀ part ∈ x.laterParts, Clean ';' part ∧ part ≠ [] ∧ part.head? ≠ some 'n' := by
  have hrule := clean_part ['r', ':'] (clean_getMetadata h "ruleID") (by simp)
  have hvalue := clean_part ['v', ':'] (clean_getMetadata h "gateValue") (by simp)
  have htime := clean_part ['t'] (clean_toString (roundToMinute (x.event.time.getD 0)))
    (by simp)
  simp only [List.cons_append, List.nil_append] at hrule hvalue htime
  unfold laterParts
  split
  · simp [hrule, hvalue, htime, -Nat.toString_eq_repr]
  · simp [hrule, htime, -Nat.toString_eq_repr]

theorem text_ends (ids : Ids) : ∃ init, ids.text = init ++ [';'] := by
  have hcustom : ∀ fields, ∃ init, ';' :: customText fields = init ++ [';'] := by
    intro fields
    rcases List.eq_nil_or_concat' fields with rfl | ⟨fields, ⟨k, v⟩, rfl⟩
    · exact ⟨[], rfl⟩
    · exact ⟨';' :: (customText fields ++ k ++ ':' :: v), by simp [customText]⟩
  obtain ⟨init, hinit⟩ := hcustom ids.customIds
  refine ⟨'k' :: ':' :: (ids.sdkKey ++ ';' :: ('u' :: ':' :: (ids.userId ++ ';' :: ('s' :: ':' ::
    (ids.stableId ++ init))))), ?_⟩
  unfold Ids.text
  rw [hinit]
  simp

/-- Both halves of a key are read back. -/
theorem parts_of_key (hx : WellFormed numbers x) (hy : WellFormed numbers y) {now now' : Nat}
    (h : x.key now = y.key now') :
    x.ids.text = y.ids.text ∧ x.namePart = y.namePart ∧ x.laterParts = y.laterParts := by
  have htext := key_toList hx now
  rw [h, key_toList hy now', Option.some.injEq] at htext
  obtain ⟨hids, hparts⟩ := join_suffix_unique (by decide) (by decide) (text_ends y.ids)
    (text_ends x.ids) (clean_namePart hy).1 (clean_namePart hx).1 (clean_laterParts hy)
    (clean_laterParts hx) (clean_namePart hy).2 (clean_namePart hx).2 htext
  rw [List.cons.injEq] at hparts
  exact ⟨hids.symm, hparts.1.symm, hparts.2.symm⟩

theorem minute_of_time (hx : WellFormed numbers x) (hy : WellFormed numbers y)
    (h : toString (roundToMinute (x.event.time.getD 0)) =
      toString (roundToMinute (y.event.time.getD 0))) : x.minute = y.minute := by
  obtain ⟨t, _, ht⟩ := hx.valid
  obtain ⟨t', _, ht'⟩ := hy.valid
  have hround := IdList.toString_nat_inj h
  simp only [roundToMinute, ht, ht', Option.getD_some] at hround
  simp only [minute, ht, ht', Option.map_some, Option.some.injEq]
  omega

/-- Only the ids are left to compare. -/
theorem agree_of_parts (hx : WellFormed numbers x) (hy : WellFormed numbers y)
    (hids : x.ids = y.ids) (hname : x.namePart = y.namePart)
    (hlater : x.laterParts = y.laterParts) : Agree x y := by
  cases hkind : x.event.eventName with
  | other eventName => exact absurd hkind (hx.exposure eventName)
  | configExposure =>
    cases hkind' : y.event.eventName with
    | other eventName => exact absurd hkind' (hy.exposure eventName)
    | gateExposure => simp [laterParts, hkind, hkind'] at hlater
    | configExposure =>
      simp only [laterParts, hkind, hkind', List.cons.injEq, true_and, String.toList_inj,
        and_true] at hlater
      simp only [namePart, hkind, hkind', List.cons.injEq, true_and, String.toList_inj] at hname
      exact ⟨hids, by rw [hkind, hkind'], hname, hlater.1, by simp [hkind],
        minute_of_time hx hy hlater.2⟩
  | gateExposure =>
    cases hkind' : y.event.eventName with
    | other eventName => exact absurd hkind' (hy.exposure eventName)
    | configExposure => simp [laterParts, hkind, hkind'] at hlater
    | gateExposure =>
      simp only [laterParts, hkind, hkind', List.cons.injEq, true_and, String.toList_inj,
        and_true] at hlater
      simp only [namePart, hkind, hkind', List.cons.injEq, true_and, String.toList_inj] at hname
      exact ⟨hids, by rw [hkind, hkind'], hname, hlater.1, fun _ => hlater.2.1,
        minute_of_time hx hy hlater.2.2⟩

end Exposure

/-! ## Reading the ids -/

namespace Ids

variable {numbers : NumberFormat} {a b : Ids}

def JsonValues (numbers : NumberFormat) (ids : Ids) : Prop :=
  ∀ field ∈ ids.customIds, JsonText numbers field.2

theorem text_inj_iff : a.text = b.text ↔
    a.sdkKey ++ ';' :: (['u', ':'] ++ (a.userId ++ ';' :: (['s', ':'] ++
        (a.stableId ++ ';' :: customText a.customIds)))) =
      b.sdkKey ++ ';' :: (['u', ':'] ++ (b.userId ++ ';' :: (['s', ':'] ++
        (b.stableId ++ ';' :: customText b.customIds)))) := by
  simp [text]

/-- A delimiter in a text that a `;` follows stands in the text itself. -/
theorem infix_of_concat {c : Char} {s before after : List Char}
    (h : s ++ [';'] = before ++ ';' :: ([c, ':'] ++ after)) : [';', c, ':'] <:+: s := by
  rcases List.eq_nil_or_concat' after with rfl | ⟨after, d, rfl⟩
  · have hlast := congrArg List.getLast? h
    simp at hlast
  · refine ⟨before, after, ?_⟩
    have hcut : s ++ [';'] = (before ++ ';' :: ([c, ':'] ++ after)) ++ [d] := by
      rw [h]
      simp
    rw [(List.append_inj' hcut rfl).1]
    simp

/-- What follows the stable id in another reading would end in a custom
id. -/
theorem Unambiguous.stableId_eq (ha : a.Unambiguous numbers) (hb : b.JsonValues numbers)
    (h : a.stableId ++ [';'] = b.stableId ++ ';' :: customText b.customIds) :
    a.stableId = b.stableId ∧ b.customIds = [] := by
  rcases List.eq_nil_or_concat' b.customIds with hnil | ⟨fields, ⟨k, v⟩, hfields⟩
  · rw [hnil] at h
    exact ⟨(List.append_inj' h rfl).1, hnil⟩
  · have hjson := hb (k, v) (by simp [hfields])
    have hcut : a.stableId ++ [';'] =
        (b.stableId ++ ';' :: ((customText fields ++ k) ++ ':' :: v)) ++ [';'] := by
      rw [h, hfields]
      simp [customText]
    exact absurd hjson (ha.noCustomId _ _ _ (List.append_inj' hcut rfl).1)

/-- The delimiter after the user id is found where it is. -/
theorem Unambiguous.userId_eq (ha : a.Unambiguous numbers) (hb : b.JsonValues numbers)
    (h : a.userId ++ ';' :: (['s', ':'] ++ (a.stableId ++ [';'])) =
      b.userId ++ ';' :: (['s', ':'] ++ (b.stableId ++ ';' :: customText b.customIds))) :
    a.userId = b.userId ∧ a.stableId = b.stableId ∧ b.customIds = [] := by
  rcases delimiters_cut (by decide) (by decide) h with
    ⟨huser, hrest⟩ | ⟨mid, _, hstable⟩ | ⟨mid, huser, _⟩
  · exact ⟨huser, ha.stableId_eq hb (List.append_cancel_left hrest)⟩
  · exact absurd (infix_of_concat hstable) ha.stableId
  · exact absurd ⟨b.userId, mid, by simp [huser]⟩ ha.userId.2

theorem Unambiguous.unique (ha : a.Unambiguous numbers) (hb : b.JsonValues numbers)
    (h : a.text = b.text) : a = b := by
  have hcustom := ha.noCustomIds
  rw [text_inj_iff, hcustom] at h
  rcases delimiters_cut (by decide) (by decide) h with
    ⟨hsdk, hrest⟩ | ⟨mid, _, huser⟩ | ⟨mid, hsdk, _⟩
  · obtain ⟨huser, hstable, hnil⟩ := ha.userId_eq hb (List.append_cancel_left hrest)
    exact Ids.ext hsdk huser hstable (by rw [hcustom, hnil])
  · -- The other reading ends its SDK key later, in the user id or the stable id.
    rcases delimiters_cut (by decide) (by decide) huser with
      ⟨_, hword⟩ | ⟨more, _, hstable⟩ | ⟨more, huser, _⟩
    · simp at hword
    · have hlater : a.stableId ++ [';'] = (more ++ ';' :: (['u', ':'] ++ b.userId)) ++
          ';' :: (['s', ':'] ++ (b.stableId ++ ';' :: customText b.customIds)) := by
        rw [show [';'] = ';' :: customText [] from rfl, hstable]
        simp
      exact absurd (infix_of_concat hlater) ha.stableId
    · exact absurd ⟨mid, more, by simp [huser]⟩ ha.userId.1
  · exact absurd ⟨b.sdkKey, mid, by simp [hsdk]⟩ ha.sdkKey

/-! ## Other ids with the same text -/

/-- The ids with the custom ids in the stable id. -/
def foldCustomIds (ids : Ids) : Ids :=
  { ids with
    stableId := (ids.stableId ++ ';' :: customText ids.customIds).dropLast
    customIds := [] }

theorem text_foldCustomIds (ids : Ids) : ids.foldCustomIds.text = ids.text := by
  have hlast : ∀ fields, (';' :: customText fields).dropLast ++ [';'] = ';' :: customText fields := by
    intro fields
    rcases List.eq_nil_or_concat' fields with rfl | ⟨fields, ⟨k, v⟩, rfl⟩
    · rfl
    · rw [show ';' :: customText (fields ++ [(k, v)]) =
        (';' :: (customText fields ++ k ++ ':' :: v)) ++ [';'] by simp [customText]]
      rw [List.dropLast_concat]
  unfold text foldCustomIds
  rw [List.dropLast_append_of_ne_nil (by simp)]
  simp only [List.append_assoc]
  rw [show ';' :: customText [] = [';'] from rfl, hlast]

/-- Ids that are not unambiguous share their text with others, which have
no custom id or one. -/
theorem ambiguous (h : ¬ a.Unambiguous numbers) :
    ∃ b : Ids, b.text = a.text ∧ b ≠ a ∧ b.JsonValues numbers ∧ b.customIds.length ≤ 1 := by
  by_contra hnone
  have hother : ∀ b : Ids, b.text = a.text → b.customIds = [] → b = a := by
    intro b htext hnil
    by_contra hne
    exact hnone ⟨b, htext, hne, by simp [JsonValues, hnil], by simp [hnil]⟩
  have hfold := hother a.foldCustomIds (text_foldCustomIds a) rfl
  have hcustom : a.customIds = [] := by
    rw [← hfold]
    rfl
  apply h
  refine ⟨hcustom, ?_, ⟨?_, ?_⟩, ?_, ?_⟩
  · -- The SDK key ends at its first `;u:`.
    rintro ⟨before, after, hsdk⟩
    have heq := hother { a with sdkKey := before, userId := after ++ ";u:".toList ++ a.userId }
      (by simp [text, ← hsdk]) hcustom
    have hlength := congrArg (fun ids => ids.sdkKey.length) heq
    simp [← hsdk] at hlength
  · -- The SDK key takes over the user id up to `;u:`.
    rintro ⟨before, after, huser⟩
    have heq := hother { a with sdkKey := a.sdkKey ++ ";u:".toList ++ before, userId := after }
      (by simp [text, ← huser]) hcustom
    have hlength := congrArg (fun ids => ids.sdkKey.length) heq
    simp at hlength
  · -- The user id ends at its first `;s:`.
    rintro ⟨before, after, huser⟩
    have heq := hother { a with userId := before, stableId := after ++ ";s:".toList ++ a.stableId }
      (by simp [text, ← huser]) hcustom
    have hlength := congrArg (fun ids => ids.userId.length) heq
    simp [← huser] at hlength
  · -- The user id takes over the stable id up to `;s:`.
    rintro ⟨before, after, hstable⟩
    have heq := hother { a with userId := a.userId ++ ";s:".toList ++ before, stableId := after }
      (by simp [text, ← hstable]) hcustom
    have hlength := congrArg (fun ids => ids.userId.length) heq
    simp at hlength
  · -- The end of the stable id is read as a custom id.
    intro before k v hstable hjson
    apply hnone
    refine ⟨{ a with stableId := before, customIds := [(k, v)] }, ?_, ?_, ?_, by simp⟩
    · simp [text, customText, hstable, hcustom]
    · intro heq
      have hlength := congrArg (fun ids => ids.customIds.length) heq
      simp [hcustom] at hlength
    · intro field hfield
      simp only [List.mem_singleton] at hfield
      rw [hfield]
      exact hjson

/-! ## Plain ids -/

theorem customText_inj {fields fields' : List (List Char × List Char)}
    (hjson : ∀ field ∈ fields, JsonText numbers field.2)
    (hjson' : ∀ field ∈ fields', JsonText numbers field.2)
    (hname : ∀ field ∈ fields, ':' ∉ field.1) (hname' : ∀ field ∈ fields', ':' ∉ field.1)
    (h : customText fields = customText fields') : fields = fields' := by
  induction fields generalizing fields' with
  | nil =>
    cases fields' with
    | nil => rfl
    | cons field' fields' => simp [customText] at h
  | cons field fields ih =>
    cases fields' with
    | nil => simp [customText] at h
    | cons field' fields' =>
      obtain ⟨k, v⟩ := field
      obtain ⟨k', v'⟩ := field'
      have hv := (hjson (k, v) (by simp)).clean
      have hv' := (hjson' (k', v') (by simp)).clean
      have hcut : k ++ ':' :: (v ++ ';' :: customText fields) =
          k' ++ ':' :: (v' ++ ';' :: customText fields') := by
        simpa [customText] using h
      obtain ⟨rfl, hvalue⟩ := append_cons_inj (hname (k, v) (by simp))
        (hname' (k', v') (by simp)) hcut
      rcases hv.split hvalue hv'.closed with ⟨rfl, hrest⟩ | ⟨more, hmore, _⟩
      · have htail := ih (fun f hf => hjson f (by simp [hf])) (fun f hf => hjson' f (by simp [hf]))
          (fun f hf => hname f (by simp [hf])) (fun f hf => hname' f (by simp [hf])) hrest.symm
        rw [htail]
      · exact absurd hv.closed (hv'.inside _ _ hmore)

theorem Plain.unique (ha : a.Plain) (hb : b.Plain) (hajson : a.JsonValues numbers)
    (hbjson : b.JsonValues numbers) (h : a.text = b.text) : a = b := by
  rw [text_inj_iff] at h
  obtain ⟨hsdk, hrest⟩ := append_cons_inj ha.sdkKey hb.sdkKey h
  obtain ⟨huser, hrest⟩ := append_cons_inj ha.userId hb.userId (List.append_cancel_left hrest)
  obtain ⟨hstable, hrest⟩ := append_cons_inj ha.stableId hb.stableId
    (List.append_cancel_left hrest)
  exact Ids.ext hsdk huser hstable
    (customText_inj hajson hbjson ha.customNames hb.customNames hrest)

end Ids

/-! ## Identification -/

namespace Exposure

variable {numbers : NumberFormat} {x y : Exposure}

theorem WellFormed.jsonValues (h : WellFormed numbers x) : x.ids.JsonValues numbers := by
  intro field hfield
  obtain ⟨custom, hcustom, rfl⟩ := List.mem_map.mp hfield
  exact h.customValues custom hcustom

theorem agree_of_key (hx : WellFormed numbers x) (hy : WellFormed numbers y)
    (hunique : x.ids.text = y.ids.text → x.ids = y.ids) {now now' : Nat}
    (h : x.key now = y.key now') : Agree x y := by
  obtain ⟨htext, hname, hlater⟩ := parts_of_key hx hy h
  exact agree_of_parts hx hy (hunique htext) hname hlater

/-- The exposure of somebody else. -/
def withIds (x : Exposure) (ids : Ids) : Exposure where
  sdkKey := String.ofList ids.sdkKey
  event := { x.event with
    user := some {
      userId := some (String.ofList ids.userId)
      customIds := some (ids.customIds.map fun (k, v) => (String.ofList k, String.ofList v)) }
    statsigMetadata := some { stableId := some (String.ofList ids.stableId) } }
  globalMetadata := none

theorem ids_withIds (x : Exposure) (ids : Ids) : (x.withIds ids).ids = ids := by
  apply Ids.ext
  · simp [withIds, Exposure.ids]
  · simp [withIds, Exposure.ids]
  · simp [withIds, Exposure.ids, stableId]
  · simp [withIds, Exposure.ids, customIds, Function.comp_def]

theorem WellFormed.withIds (h : WellFormed numbers x) {ids : Ids}
    (hjson : ids.JsonValues numbers) (hone : ids.customIds.length ≤ 1) :
    WellFormed numbers (x.withIds ids) where
  exposure := h.exposure
  valid := h.valid
  metadata := h.metadata
  customValues := by
    intro field hfield
    obtain ⟨custom, hcustom, rfl⟩ := List.mem_map.mp hfield
    rw [String.toList_ofList]
    exact hjson custom hcustom
  customNames := by
    match hids : ids.customIds, hone with
    | [], _ => simp [customIds, Exposure.withIds, hids]
    | [field], _ => simp [customIds, Exposure.withIds, hids]

theorem key_withIds (h : WellFormed numbers x) {ids : Ids} (hjson : ids.JsonValues numbers)
    (hone : ids.customIds.length ≤ 1) (htext : ids.text = x.ids.text) (now : Nat) :
    (x.withIds ids).key now = x.key now := by
  apply Option.map_injective fun _ _ => String.toList_inj.mp
  rw [key_toList (h.withIds hjson hone), key_toList h, ids_withIds, htext]
  rfl

theorem identified_iff (h : WellFormed numbers x) :
    x.Identified numbers ↔ x.ids.Unambiguous numbers := by
  constructor
  · intro hid
    by_contra hambiguous
    obtain ⟨ids, htext, hne, hjson, hone⟩ := Ids.ambiguous hambiguous
    have hagree := hid _ (h.withIds hjson hone) 0 0 (key_withIds h hjson hone htext 0).symm
    apply hne
    rw [hagree.ids, ids_withIds]
  · intro hplain y hy now now' hkey
    exact agree_of_key h hy (hplain.unique hy.jsonValues) hkey

end Exposure

/-- Among all exposures an exposure has a key of its own exactly if its ids
can be read in one way only. Among the exposures with plain ids each has. -/
theorem exposure_key_identifies (numbers : NumberFormat) :
    (∀ x : Exposure, x.WellFormed numbers →
      (x.Identified numbers ↔ x.ids.Unambiguous numbers)) ∧
    ∀ x y : Exposure, x.WellFormed numbers → y.WellFormed numbers → x.ids.Plain → y.ids.Plain →
      ∀ now now', x.key now = y.key now' → x.Agree y := by
  refine ⟨fun x h => Exposure.identified_iff h, ?_⟩
  intro x y hx hy hxplain hyplain now now' hkey
  exact Exposure.agree_of_key hx hy (hxplain.unique hyplain hx.jsonValues hy.jsonValues) hkey

/-- Numbers of JSON that are natural. -/
def naturalNumbers : NumberFormat where
  Printed cs := ∃ n : Nat, cs = Nat.toDigits 10 n
  digits := by
    rintro _ ⟨n, rfl⟩ c hc
    exact .inl (Nat.isDigit_of_mem_toDigits (by decide) (by decide) hc)

/-- An exposure of one gate. -/
def betaExposure (sdkKey userId stableId : String) (customIds : Option (List (String × String))) :
    Exposure where
  sdkKey := sdkKey
  event := {
    eventName := .gateExposure
    user := some { userId := some userId, customIds := customIds }
    time := some 1700000000000
    metadata := some [("gate", "\"beta\""), ("ruleID", "\"default\""), ("gateValue", "\"true\"")]
    statsigMetadata := some { stableId := some stableId } }
  globalMetadata := none

theorem wellFormed_betaExposure (sdkKey userId stableId : String) {customIds}
    (hcustom : customIds = none ∨ customIds = some [("companyID", "\"7\"")]) :
    (betaExposure sdkKey userId stableId customIds).WellFormed naturalNumbers where
  exposure := by simp [betaExposure]
  valid := ⟨1700000000000, by decide, rfl⟩
  metadata := by
    intro field hfield
    simp only [betaExposure, Option.getD_some, List.mem_cons, List.not_mem_nil, or_false] at hfield
    rcases hfield with rfl | rfl | rfl
    · exact JsonText.string "beta".toList
    · exact JsonText.string "default".toList
    · exact JsonText.string "true".toList
  customValues := by
    rcases hcustom with rfl | rfl
    · simp [Exposure.customIds, betaExposure]
    · intro field hfield
      simp only [Exposure.customIds, betaExposure, Option.bind_some, Option.getD_some,
        List.mem_singleton] at hfield
      rw [hfield]
      exact JsonText.string "7".toList
  customNames := by
    rcases hcustom with rfl | rfl
    · simp [Exposure.customIds, betaExposure]
    · simp [Exposure.customIds, betaExposure]

theorem exposure_key_identifies_gate :
    (betaExposure "client-a" "user" "stable" none).Identified naturalNumbers ∧
    ∀ y : Exposure, y.WellFormed naturalNumbers → y.ids.Plain → ∀ now now',
      (betaExposure "client-a" "user" "stable" (some [("companyID", "\"7\"")])).key now =
        y.key now' →
      (betaExposure "client-a" "user" "stable" (some [("companyID", "\"7\"")])).Agree y := by
  refine ⟨?_, ?_⟩
  · apply ((exposure_key_identifies naturalNumbers).1 _
      (wellFormed_betaExposure _ _ _ (.inl rfl))).mpr
    refine ⟨rfl, by decide, ⟨by decide, by decide⟩, by decide, ?_⟩
    intro before k v h
    have hmem : ';' ∈ "stable".toList := by
      rw [show "stable".toList = before ++ ';' :: (k ++ ':' :: v) from h]
      simp
    simp at hmem
  · intro y hy hplain now now' hkey
    refine (exposure_key_identifies naturalNumbers).2 _ y
      (wellFormed_betaExposure _ _ _ (.inr rfl)) hy ⟨by decide, by decide, by decide, ?_⟩
      hplain now now' hkey
    decide

/-- Two users, of whom the second is taken for the first. -/
theorem exposure_keys_collide :
    ∃ x y : Exposure, x = betaExposure "client-a" "a;s:b" "c" none ∧
      y = betaExposure "client-a" "a" "b;s:c" none ∧
      x.WellFormed naturalNumbers ∧ y.WellFormed naturalNumbers ∧
      x.key 0 = y.key 0 ∧ x.key 0 ≠ none ∧ ¬ x.Agree y := by
  refine ⟨_, _, rfl, rfl, wellFormed_betaExposure _ _ _ (.inl rfl),
    wellFormed_betaExposure _ _ _ (.inl rfl), by decide, by decide, ?_⟩
  intro h
  exact absurd h.ids (by decide)

end ForwardProxy.Datastore
