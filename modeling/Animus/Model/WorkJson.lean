import Animus.Lib.Codec
import Animus.Model.Work

/-!
# Work items as JSON

What a focus writes to `work.json` is a work item by its derived serialization;
the derived deserialization reads it back.

## Main definitions

- `TimeFormat`, `TimeFormat.Keeps`: the text form of timestamps, and that it loses none of an item
- `State.codec`, `Provenance.codec`, `Outcome.codec`, `WorkItem.codec`: the derived codecs
- `WorkItem.settled`: an item with no `null` among its outcome data

## Main results

- `work_json_round_trips`: an item read back is the settled item, from any object with its
  members, and the texts of items are as distinct as the settled items
-/

namespace Animus

open Sql (Timestamp)

/-- A text form of timestamps. -/
structure TimeFormat where
  print : Timestamp → String
  parse : String → Option Timestamp

def TimeFormat.codec (time : TimeFormat) : Codec Timestamp := .parsed time.print time.parse

def WorkId.codec : Codec WorkId := .parsed Uuid.hyphenated Uuid.parseStr

/-- The variants in snake case are named by their texts. -/
def State.codec : Codec State := .variant State.toText State.fromStr

def i32Codec : Codec Int32 := .integer (-2 ^ 31) (2 ^ 31) Int32.toInt Int32.ofInt

def u32Codec : Codec UInt32 := .integer 0 (2 ^ 32) (fun n => n.toNat) fun z => .ofNat z.toNat

def u64Codec : Codec UInt64 := .integer 0 (2 ^ 64) (fun n => n.toNat) fun z => .ofNat z.toNat

/-! ### Provenance -/

def Provenance.members : Members (String × Option String × Unit) :=
  .cons "source" .str <| .cons "trigger" Codec.str.option .nil

def Provenance.parts (p : Provenance) : String × Option String × Unit := (p.source, p.trigger, ())

def Provenance.ofParts : String × Option String × Unit → Provenance
  | (source, trigger, ()) => { source, trigger }

def Provenance.codec : Codec Provenance := .record members parts ofParts

/-! ### Outcome -/

def Outcome.members : Members (Bool × Option Json × Option String × UInt64 × Unit) :=
  .cons "success" .bool <| .cons "data" Codec.value.option <| .cons "error" Codec.str.option <|
  .cons "duration_ms" u64Codec .nil

def Outcome.parts (o : Outcome) : Bool × Option Json × Option String × UInt64 × Unit :=
  (o.success, o.data, o.error, o.durationMs, ())

def Outcome.ofParts : Bool × Option Json × Option String × UInt64 × Unit → Outcome
  | (success, data, error, durationMs, ()) => { success, data, error, durationMs }

def Outcome.codec : Codec Outcome := .record members parts ofParts

/-- Data that are `null` are no data. -/
def settledData : Option Json → Option Json
  | some .null => none
  | data => data

def Outcome.settled (o : Outcome) : Outcome := { o with data := settledData o.data }

/-! ### Work items -/

/-- The values of the members of an item, in order. -/
abbrev WorkItem.Parts : Type :=
  WorkId × String × Option String × Option String × Provenance × Json × Int32 × State ×
    Option WorkId × Option WorkId × UInt32 × Option UInt32 × Timestamp × Timestamp ×
    Option Timestamp × Option Outcome × Unit

def WorkItem.parts (item : WorkItem) : Parts :=
  (item.id, item.faculty, item.skill, item.dedupKey, item.provenance, item.params, item.priority,
    item.state, item.mergedInto, item.parentId, item.attempts, item.maxAttempts, item.createdAt,
    item.updatedAt, item.resolvedAt, item.outcome, ())

def WorkItem.ofParts : Parts → WorkItem
  | (id, faculty, skill, dedupKey, provenance, params, priority, state, mergedInto, parentId,
      attempts, maxAttempts, createdAt, updatedAt, resolvedAt, outcome, ()) =>
    { id, faculty, skill, dedupKey, provenance, params, priority, state, mergedInto, parentId,
      attempts, maxAttempts, createdAt, updatedAt, resolvedAt, outcome }

def WorkItem.members (time : TimeFormat) : Members WorkItem.Parts :=
  .cons "id" WorkId.codec <|
  .cons "faculty" .str <|
  .cons "skill" Codec.str.option <|
  .cons "dedup_key" Codec.str.option <|
  .cons "provenance" Provenance.codec <|
  .cons "params" .value <|
  .cons "priority" i32Codec <|
  .cons "state" State.codec <|
  .cons "merged_into" WorkId.codec.option <|
  .cons "parent_id" WorkId.codec.option <|
  .cons "attempts" u32Codec <|
  .cons "max_attempts" u32Codec.option <|
  .cons "created_at" time.codec <|
  .cons "updated_at" time.codec <|
  .cons "resolved_at" time.codec.option <|
  .cons "outcome" Outcome.codec.option .nil

def WorkItem.memberNames : List String :=
  ["id", "faculty", "skill", "dedup_key", "provenance", "params", "priority", "state",
    "merged_into", "parent_id", "attempts", "max_attempts", "created_at", "updated_at",
    "resolved_at", "outcome"]

def WorkItem.codec (time : TimeFormat) : Codec WorkItem :=
  .record (members time) parts ofParts

/-- The times of an item. -/
def WorkItem.instants (item : WorkItem) : List Timestamp :=
  item.createdAt :: item.updatedAt :: item.resolvedAt.toList

/-- The text form reads back the times of the item. -/
def TimeFormat.Keeps (time : TimeFormat) (item : WorkItem) : Prop :=
  ∀ t ∈ item.instants, time.parse (time.print t) = some t

/-- The item without `null` outcome data. -/
def WorkItem.settled (item : WorkItem) : WorkItem :=
  { item with outcome := item.outcome.map Outcome.settled }

/-! ### The codecs read back what they write -/

theorem TimeFormat.Keeps.reads {time : TimeFormat} {item : WorkItem} (h : time.Keeps item)
    {t : Timestamp} (ht : t ∈ item.instants) : time.codec.Reads t t := Codec.reads_parsed (h t ht)

theorem WorkId.reads (id : WorkId) : WorkId.codec.Reads id id :=
  Codec.reads_parsed (Uuid.parseStr_hyphenated id)

theorem State.reads (s : State) : State.codec.Reads s s :=
  Codec.reads_variant (State.fromStr_toText s)

theorem reads_i32 (n : Int32) : i32Codec.Reads n n :=
  Codec.reads_integer (by decide) (by decide) n.le_toInt n.toInt_lt (Int32.ofInt_toInt n)

theorem reads_u32 (n : UInt32) : u32Codec.Reads n n :=
  Codec.reads_integer (by decide) (by decide) (Int.natCast_nonneg _)
    (by exact_mod_cast n.toNat_lt) (by simp)

theorem reads_u64 (n : UInt64) : u64Codec.Reads n n :=
  Codec.reads_integer (by decide) (by decide) (Int.natCast_nonneg _)
    (by exact_mod_cast n.toNat_lt) (by simp)

/-- An optional text is never written as `null`. -/
theorem reads_optStr (o : Option String) : Codec.str.option.Reads o o :=
  Codec.reads_option Codec.reads_str (fun _ => nofun) o

theorem Provenance.reads (p : Provenance) : Provenance.codec.Reads p p := by
  have hmembers : members.Reads p.parts p.parts :=
    Members.reads_cons (Codec.reads_str _) <| Members.reads_cons (reads_optStr _) Members.reads_nil
  exact Codec.reads_record (by decide) hmembers

/-- Data that are `null` are read back as none. -/
theorem reads_data (data : Option Json) :
    Codec.value.option.Reads data (settledData data) := by
  cases data with
  | none => exact Codec.reads_none _
  | some v =>
    cases v with
    | null => exact Codec.reads_some_null rfl
    | _ => exact Codec.reads_some (Codec.reads_value _) nofun

theorem Outcome.reads (o : Outcome) : Outcome.codec.Reads o o.settled := by
  have hmembers : members.Reads o.parts o.settled.parts :=
    Members.reads_cons (Codec.reads_bool _) <| Members.reads_cons (reads_data _) <|
    Members.reads_cons (reads_optStr _) <| Members.reads_cons (reads_u64 _) Members.reads_nil
  exact Codec.reads_record (by decide) hmembers

theorem reads_optOutcome (o : Option Outcome) :
    Outcome.codec.option.Reads o (o.map Outcome.settled) := by
  cases o with
  | none => exact Codec.reads_none _
  | some o => exact Codec.reads_some o.reads nofun

theorem TimeFormat.Keeps.reads_resolvedAt {time : TimeFormat} {item : WorkItem}
    (h : time.Keeps item) : time.codec.option.Reads item.resolvedAt item.resolvedAt := by
  cases hr : item.resolvedAt with
  | none => exact Codec.reads_none _
  | some t => exact Codec.reads_some (h.reads (by simp [WorkItem.instants, hr])) nofun

theorem WorkItem.reads_members {time : TimeFormat} {item : WorkItem} (ht : time.Keeps item) :
    (members time).Reads item.parts item.settled.parts := by
  have id : ∀ o : Option WorkId, WorkId.codec.option.Reads o o :=
    Codec.reads_option WorkId.reads fun _ => nofun
  have count : ∀ o : Option UInt32, u32Codec.option.Reads o o :=
    Codec.reads_option reads_u32 fun n => Json.ofInt_ne_null n.toNat
  exact Members.reads_cons (WorkId.reads _) <| Members.reads_cons (Codec.reads_str _) <|
    Members.reads_cons (reads_optStr _) <| Members.reads_cons (reads_optStr _) <|
    Members.reads_cons (Provenance.reads _) <| Members.reads_cons (Codec.reads_value _) <|
    Members.reads_cons (reads_i32 _) <| Members.reads_cons (State.reads _) <|
    Members.reads_cons (id _) <| Members.reads_cons (id _) <|
    Members.reads_cons (reads_u32 _) <| Members.reads_cons (count _) <|
    Members.reads_cons (ht.reads (.head _)) <| Members.reads_cons (ht.reads (.tail _ (.head _))) <|
    Members.reads_cons ht.reads_resolvedAt <|
    Members.reads_cons (reads_optOutcome _) Members.reads_nil

theorem WorkItem.nodup_names (time : TimeFormat) : (members time).names.Nodup := by
  have hnames : (members time).names = memberNames := rfl
  rw [hnames]
  decide

theorem WorkItem.reads {time : TimeFormat} {item : WorkItem} (ht : time.Keeps item) :
    (codec time).Reads item item.settled :=
  Codec.reads_record (nodup_names time) (reads_members ht)

/-! ### The file -/

/-- An item as it is written. -/
def WorkItem.toJson (time : TimeFormat) (item : WorkItem) : Json := (codec time).enc item

/-- Writing does not tell `null` data from none. -/
theorem Outcome.enc_settled (o : Option Outcome) :
    Outcome.codec.option.enc (o.map Outcome.settled) = Outcome.codec.option.enc o := by
  cases o with
  | none => rfl
  | some o =>
    obtain ⟨success, data, error, ms⟩ := o
    cases data with
    | none => rfl
    | some v => cases v <;> rfl

theorem WorkItem.toJson_settled (time : TimeFormat) (item : WorkItem) :
    item.settled.toJson time = item.toJson time := by
  have hparts : (members time).enc item.settled.parts = (members time).enc item.parts := by
    simp only [members, parts, Members.enc_cons, settled, Outcome.enc_settled]
  rw [toJson, toJson, codec, Codec.record]
  exact congrArg (fun vs => Json.object ((members time).names.zip vs)) hparts

theorem WorkItem.settled_eq_iff {item : WorkItem} :
    item.settled = item ↔ ∀ o ∈ item.outcome, o.data ≠ some .null := by
  have hdata : ∀ data : Option Json, settledData data = data ↔ data ≠ some .null := by
    intro data
    cases data with
    | none => simp [settledData]
    | some v => cases v <;> simp [settledData]
  obtain ⟨id, faculty, skill, key, prov, params, prio, st, merged, parent, att, most, created,
    updated, resolved, outcome⟩ := item
  cases outcome with
  | none => simp [settled]
  | some o =>
    obtain ⟨success, data, error, ms⟩ := o
    simp [settled, Outcome.settled, hdata]

/-- What the worker was given is under `params`. -/
theorem WorkItem.key_params (time : TimeFormat) (item : WorkItem) :
    (item.toJson time).key "params" = item.params := by
  have hmem : ("params", item.params) ∈ (members time).names.zip ((members time).enc item.parts) :=
    .tail _ <| .tail _ <| .tail _ <| .tail _ <| .tail _ <| .head _
  exact Codec.key_of_mem (nodup_names time) hmem

/-- The file of an item, read back, is the item without `null` outcome data, and so is any object
that has its members, once each, in any order and beside others; two items have one file only where
they differ in no more than that. -/
theorem work_json_round_trips {time : TimeFormat} {print : Json → String}
    {parse : String → Option Json} {item : WorkItem} (ht : time.Keeps item)
    (hparse : parse (print (item.toJson time)) = some (item.toJson time)) :
    (parse (print (item.toJson time))).bind (WorkItem.codec time).dec = some item.settled ∧
    (∀ fields : List (String × Json),
      ((Json.known WorkItem.memberNames fields).map Prod.fst).Nodup →
      (∀ p ∈ WorkItem.memberNames.zip ((WorkItem.members time).enc item.parts), p ∈ fields) →
      (WorkItem.codec time).dec (.obj fields) = some item.settled) ∧
    (WorkItem.codec time).dec (.arr ((WorkItem.members time).enc item.parts)) =
      some item.settled ∧
    (item.settled = item ↔ ∀ o ∈ item.outcome, o.data ≠ some .null) ∧
    ∀ item' : WorkItem, time.Keeps item' →
      parse (print (item'.toJson time)) = some (item'.toJson time) →
      (print (item'.toJson time) = print (item.toJson time) ↔ item'.settled = item.settled) := by
  have hmembers := WorkItem.reads_members ht
  have hreads : (WorkItem.codec time).dec (item.toJson time) = some item.settled :=
    WorkItem.reads ht
  refine ⟨by rw [hparse, Option.bind_some, hreads],
    fun fields hnodup hmem => Codec.dec_obj_of_mem hmembers hnodup hmem,
    Codec.dec_arr hmembers, WorkItem.settled_eq_iff,
    fun item' ht' hparse' => ⟨fun htext => ?_, ?_⟩⟩
  · rw [htext, hparse] at hparse'
    have hreads' : (WorkItem.codec time).dec (item'.toJson time) = some item'.settled :=
      WorkItem.reads ht'
    rw [← Option.some.inj hparse', hreads] at hreads'
    exact (Option.some.inj hreads').symm
  · intro h
    rw [← item'.toJson_settled, h, item.toJson_settled]

/-- The RFC 3339 text of the first instant. -/
def sampleTime : TimeFormat where
  print _ := "1970-01-01T00:00:00Z"
  parse s := if s = "1970-01-01T00:00:00Z" then some 0 else none

/-- An item that was retired with `null` as its result. -/
def retiredItem : WorkItem where
  id := .ofNat 0
  faculty := "social"
  skill := none
  dedupKey := none
  provenance := ⟨"cli", none⟩
  params := .obj [("content", .str "hello")]
  priority := 0
  state := .completed
  mergedInto := none
  parentId := none
  attempts := 1
  maxAttempts := none
  createdAt := 0
  updatedAt := 0
  resolvedAt := some 0
  outcome := some ⟨true, some .null, none, 0⟩

/-- The file of the item. -/
def retiredJson : String := "\x7b
  \"id\": \"00000000-0000-0000-0000-000000000000\",
  \"faculty\": \"social\",
  \"skill\": null,
  \"dedup_key\": null,
  \"provenance\": \x7b
    \"source\": \"cli\",
    \"trigger\": null
  \x7d,
  \"params\": \x7b
    \"content\": \"hello\"
  \x7d,
  \"priority\": 0,
  \"state\": \"completed\",
  \"merged_into\": null,
  \"parent_id\": null,
  \"attempts\": 1,
  \"max_attempts\": null,
  \"created_at\": \"1970-01-01T00:00:00Z\",
  \"updated_at\": \"1970-01-01T00:00:00Z\",
  \"resolved_at\": \"1970-01-01T00:00:00Z\",
  \"outcome\": \x7b
    \"success\": true,
    \"data\": null,
    \"error\": null,
    \"duration_ms\": 0
  \x7d
\x7d"

def retiredPrint (_ : Json) : String := retiredJson

def retiredParse (s : String) : Option Json :=
  if s = retiredJson then some (retiredItem.toJson sampleTime) else none

theorem retiredParse_json : retiredParse retiredJson = some (retiredItem.toJson sampleTime) :=
  if_pos rfl

theorem sampleTime_keeps : sampleTime.Keeps retiredItem := by
  intro t ht
  have hall : ∀ t ∈ retiredItem.instants, t = 0 := by decide
  rw [hall t ht]
  rfl

theorem work_json_round_trips_retired :
    ((retiredParse retiredJson).bind (WorkItem.codec sampleTime).dec = some retiredItem.settled) ∧
    retiredItem.settled ≠ retiredItem := by
  have hparse : retiredParse (retiredPrint (retiredItem.toJson sampleTime)) = _ :=
    retiredParse_json
  obtain ⟨hback, -, -, hsame, -⟩ := work_json_round_trips sampleTime_keeps hparse
  exact ⟨hback, fun h => hsame.mp h _ rfl rfl⟩

end Animus
