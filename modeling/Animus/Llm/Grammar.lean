import Animus.Llm.Done
import Animus.Llm.Lines

/-!
# The grammar of a stream

A stream is a sequence of blocks of lines, each ended by an empty line. A line
gives the type of its event, or a line of its data, or nothing of interest:
comments, other fields, lines that are not fields. The parser finds the events
that a text writes, and what the streaming loop makes of a text is made of the
data of these events alone.

## Main definitions

- `SseParser.Gives`, `SseParser.Block`: what a line says, and a block of lines
- `SseParser.Writes`: the lines of a sequence of events
- `SseParser.render`: one way of writing them

## Main results

- `SseParser.parser_accepts_the_grammar`: the events found are those that are written
- `streams_of_one_meaning_agree`: the streaming loop, on texts that write the same payloads
-/

namespace Animus

open Framing

namespace SseParser

/-! ### Lines and blocks -/

/-- A line that gives a field a value: after the colon there may be one space. -/
def Gives (field : String) (value line : List Char) : Prop :=
  line = field.toList ++ ' ' :: value ∨ line = field.toList ++ value ∧ value.head? ≠ some ' '

/-- A line that is neither empty nor gives one of the two fields. -/
structure Idle (line : List Char) : Prop where
  ne_nil : line ≠ []
  not_type : ¬ "event:".toList <+: line
  not_data : ¬ "data:".toList <+: line

/-- The lines of a block, and what they say: the last type, and the lines of the data in order. -/
inductive Block : List (List Char) → Option String → List (List Char) → Prop
  | start : Block [] none []
  | type {ls eventType data value line} : Block ls eventType data → Gives "event:" value line →
      Block (ls ++ [line]) (some (String.ofList value)) data
  | data {ls eventType data value line} : Block ls eventType data → Gives "data:" value line →
      Block (ls ++ [line]) eventType (data ++ [value])
  | idle {ls eventType data line} : Block ls eventType data → Idle line →
      Block (ls ++ [line]) eventType data

/-- The lines of a stream, and its events. A block without data is none, and neither is one that
no empty line has ended. -/
inductive Writes : List SseEvent → List (List Char) → Prop
  | pending {ls eventType data} : Block ls eventType data → Writes [] ls
  | silent {ls eventType es rest} : Block ls eventType [] → Writes es rest →
      Writes es (ls ++ [] :: rest)
  | event {ls eventType data es rest} : Block ls eventType data → data ≠ [] → Writes es rest →
      Writes (⟨eventType, String.ofList (['\n'].intercalate data)⟩ :: es) (ls ++ [] :: rest)

section Block

variable {field : String} {value line : List Char} {ls : List (List Char)} {f : Fields}

theorem gives_iff : Gives field value line ↔
    ∃ rest, stripPrefix field line = some rest ∧ fieldValue rest = value := by
  constructor
  · rintro (rfl | ⟨rfl, hspace⟩)
    · exact ⟨' ' :: value, stripPrefix_eq_some_iff.mpr rfl, rfl⟩
    · exact ⟨value, stripPrefix_eq_some_iff.mpr rfl, if_neg hspace⟩
  · rintro ⟨rest, hrest, rfl⟩
    rw [stripPrefix_eq_some_iff.mp hrest, Gives]
    by_cases hspace : rest.head? = some ' '
    · obtain ⟨value, rfl⟩ := List.head?_eq_some_iff.mp hspace
      exact .inl rfl
    · rw [fieldValue, if_neg hspace]
      exact .inr ⟨rfl, hspace⟩

/-- A line with the name of a field gives it one value. -/
theorem exists_gives (h : field.toList <+: line) : ∃ value, Gives field value line := by
  obtain ⟨rest, rfl⟩ := h
  exact ⟨fieldValue rest, gives_iff.mpr ⟨rest, stripPrefix_eq_some_iff.mpr rfl, rfl⟩⟩

theorem Fields.read_type (h : Gives "event:" value line) :
    f.read line = { f with eventType := some (String.ofList value) } := by
  obtain ⟨rest, hrest, rfl⟩ := gives_iff.mp h
  have hline := stripPrefix_eq_some_iff.mp hrest
  have hcolon : line.head? ≠ some ':' := by
    rw [hline]
    exact fun h => absurd (Option.some.inj h) (by decide)
  rw [Fields.read, if_neg hcolon, hrest]

theorem Fields.read_data (h : Gives "data:" value line) :
    f.read line = { f with dataLines := f.dataLines ++ [value] } := by
  obtain ⟨rest, hrest, rfl⟩ := gives_iff.mp h
  have hline := stripPrefix_eq_some_iff.mp hrest
  have hcolon : line.head? ≠ some ':' := by
    rw [hline]
    exact fun h => absurd (Option.some.inj h) (by decide)
  have htype : stripPrefix "event:" line = none := by
    rw [hline]
    rfl
  rw [Fields.read, if_neg hcolon, htype, hrest]

theorem Fields.read_idle (h : Idle line) : f.read line = f := by
  have hnone : ∀ {word : String}, ¬ word.toList <+: line → stripPrefix word line = none :=
    fun hword => if_neg (mt List.isPrefixOf_iff_prefix.mp hword)
  rw [Fields.read, hnone h.not_type, hnone h.not_data]
  exact ite_self f

/-- A block is read as what it says. -/
theorem block_iff : Block ls f.eventType f.dataLines ↔
    (∀ line ∈ ls, line ≠ []) ∧ ls.foldl Fields.read {} = f := by
  have hmem : ∀ {l : List (List Char)} {x : List Char}, (∀ line ∈ l, line ≠ []) → x ≠ [] →
      ∀ line ∈ l ++ [x], line ≠ [] := by
    intro l x hl hx line hline
    obtain hline | hline := List.mem_append.mp hline
    · exact hl line hline
    · exact List.mem_singleton.mp hline ▸ hx
  have hfield : ∀ {field : String} {value line : List Char}, Gives field value line →
      field.toList ≠ [] → line ≠ [] := by
    rintro field value line (rfl | ⟨rfl, -⟩) hne
    · exact List.append_ne_nil_of_left_ne_nil hne _
    · exact List.append_ne_nil_of_left_ne_nil hne _
  constructor
  · have hread : ∀ {eventType data}, Block ls eventType data →
        (∀ line ∈ ls, line ≠ []) ∧ ls.foldl Fields.read {} = ⟨eventType, data⟩ := by
      intro eventType data h
      induction h with
      | start => exact ⟨List.forall_mem_nil _, rfl⟩
      | type _ hgives ih =>
        refine ⟨hmem ih.1 (hfield hgives (by decide)), ?_⟩
        rw [List.foldl_append, ih.2]
        exact Fields.read_type hgives
      | data _ hgives ih =>
        refine ⟨hmem ih.1 (hfield hgives (by decide)), ?_⟩
        rw [List.foldl_append, ih.2]
        exact Fields.read_data hgives
      | idle _ hidle ih =>
        refine ⟨hmem ih.1 hidle.ne_nil, ?_⟩
        rw [List.foldl_append, ih.2]
        exact Fields.read_idle hidle
    exact hread
  · rintro ⟨hne, rfl⟩
    induction ls using List.reverseRecOn with
    | nil => exact .start
    | append_singleton ls line ih =>
      have ih' := ih fun x hx => hne x (List.mem_append_left _ hx)
      rw [List.foldl_append, List.foldl_cons, List.foldl_nil]
      by_cases htype : "event:".toList <+: line
      · obtain ⟨value, hgives⟩ := exists_gives htype
        rw [Fields.read_type hgives]
        exact ih'.type hgives
      by_cases hdata : "data:".toList <+: line
      · obtain ⟨value, hgives⟩ := exists_gives hdata
        rw [Fields.read_data hgives]
        exact ih'.data hgives
      · have hidle : Idle line :=
          ⟨hne line (List.mem_append_right _ (List.mem_singleton_self line)), htype, hdata⟩
        rw [Fields.read_idle hidle]
        exact ih'.idle hidle

end Block

/-! ### The parser accepts the grammar -/

/-- The format reads from the lines the events that they write. -/
theorem writes_iff {es : List SseEvent} {ls : List (List Char)} :
    Writes es ls ↔ reader.run reader.start ls = es := by
  constructor
  · intro h
    induction h with
    | pending hb =>
      exact reader.run_eq_nil (block_iff (f := ⟨_, _⟩).mp hb).1 _
    | silent hb _ ih =>
      obtain ⟨hne, hread⟩ := block_iff (f := ⟨_, _⟩).mp hb
      rw [reader.run_block hne, ih]
      exact congrArg (fun f => (Fields.event f).toList ++ _) hread
    | event hb hdata _ ih =>
      obtain ⟨hne, hread⟩ := block_iff (f := ⟨_, _⟩).mp hb
      rw [reader.run_block hne, ih]
      refine (congrArg (fun f => (Fields.event f).toList ++ _) hread).trans ?_
      rw [Fields.event, if_neg hdata]
      rfl
  · rintro rfl
    induction ls using blocks_induction with
    | pending ls hne =>
      rw [reader.run_eq_nil hne]
      exact .pending (block_iff.mpr ⟨hne, rfl⟩)
    | block b ls hne ih =>
      have hb := block_iff.mpr ⟨hne, rfl⟩
      rw [reader.run_block hne]
      by_cases hdata : (b.foldl Fields.read {}).dataLines = []
      · have hevent : reader.dispatch (b.foldl reader.read reader.start) = none := if_pos hdata
        rw [hevent]
        exact .silent (hdata ▸ hb) ih
      · have hevent : reader.dispatch (b.foldl reader.read reader.start) = some _ := if_neg hdata
        rw [hevent]
        exact .event hb hdata ih

theorem writes_iff_feed {es : List SseEvent} {text : List Char} :
    Writes es (lines '\n' text) ↔ (new.feed text).2 = es := by
  rw [writes_iff, feed_eq_read]

/-! ### A writer -/

/-- The lines of an event: its type, and a line for each line of its data. -/
def blockLines (e : SseEvent) : List (List Char) :=
  (e.eventType.map fun t => "event: ".toList ++ t.toList).toList ++
    (e.data.toList.splitOn '\n').map ("data: ".toList ++ ·)

/-- The text of a sequence of events. -/
def render (es : List SseEvent) : List Char :=
  (es.flatMap fun e => blockLines e ++ [[]]).flatMap (· ++ ['\n'])

theorem block_blockLines (e : SseEvent) :
    Block (blockLines e) e.eventType (e.data.toList.splitOn '\n') := by
  have hdata : ∀ {ls eventType data} (values : List (List Char)), Block ls eventType data →
      Block (ls ++ values.map ("data: ".toList ++ ·)) eventType (data ++ values) := by
    intro ls eventType data values h
    induction values generalizing ls data with
    | nil => rwa [List.map_nil, List.append_nil, List.append_nil]
    | cons value values ih =>
      rw [List.map_cons, List.append_cons, List.append_cons data]
      exact ih (h.data (.inl rfl))
  cases htype : e.eventType with
  | none =>
    have h := hdata (e.data.toList.splitOn '\n') .start
    rwa [blockLines, htype]
  | some t =>
    have h := hdata (e.data.toList.splitOn '\n') (Block.start.type (.inl rfl : Gives "event:"
      t.toList ("event: ".toList ++ t.toList)))
    rw [String.ofList_toList] at h
    rwa [blockLines, htype]

theorem writes_blockLines (es : List SseEvent) :
    Writes es (es.flatMap fun e => blockLines e ++ [[]]) := by
  induction es with
  | nil => exact .pending .start
  | cons e es ih =>
    have h := Writes.event (block_blockLines e) (List.splitOn_ne_nil '\n' e.data.toList) ih
    rw [List.intercalate_splitOn, String.ofList_toList] at h
    rwa [List.flatMap_cons, List.append_assoc]

theorem notMem_blockLines {e : SseEvent} (h : ∀ t ∈ e.eventType, '\n' ∉ t.toList) :
    ∀ line ∈ blockLines e, '\n' ∉ line := by
  have hfield : ∀ {field value : List Char}, '\n' ∉ field → '\n' ∉ value → '\n' ∉ field ++ value :=
    fun hf hv hmem => (List.mem_append.mp hmem).elim hf hv
  intro line hline
  obtain hline | hline := List.mem_append.mp hline
  · obtain ⟨t, ht, rfl⟩ := Option.map_eq_some_iff.mp (Option.mem_toList.mp hline)
    exact hfield (by decide) (h t ht)
  · obtain ⟨value, hvalue, rfl⟩ := List.mem_map.mp hline
    exact hfield (by decide) (notMem_of_mem_splitOn hvalue)

theorem lines_render {es : List SseEvent} (h : ∀ e ∈ es, ∀ t ∈ e.eventType, '\n' ∉ t.toList) :
    lines '\n' (render es) = es.flatMap fun e => blockLines e ++ [[]] := by
  refine lines_unlines fun line hline => ?_
  obtain ⟨e, he, hline⟩ := List.mem_flatMap.mp hline
  obtain hline | hline := List.mem_append.mp hline
  · exact notMem_blockLines (h e he) line hline
  · rw [List.mem_singleton.mp hline]
    exact List.not_mem_nil

/-- However a text is cut, the parser finds in it the events that it writes; and there is a text
for every sequence of events whose types are of one line, whatever their data. -/
theorem parser_accepts_the_grammar :
    (∀ (chunks : List (List Char)) (es : List SseEvent),
      (new.feedAll chunks).2.flatten = es ↔ Writes es (lines '\n' chunks.flatten)) ∧
    ∀ es : List SseEvent, (∀ e ∈ es, ∀ t ∈ e.eventType, '\n' ∉ t.toList) →
      Writes es (lines '\n' (render es)) := by
  refine ⟨fun chunks es => ?_, fun es h => ?_⟩
  · have hall : (new.feedAll chunks).2.flatten = (new.feed chunks.flatten).2 :=
      congrArg Prod.snd (feedAll_flatten settled_new chunks)
    rw [writes_iff_feed, hall]
  · rw [lines_render h]
    exact writes_blockLines es

end SseParser

open SseParser

/-! ### What a stream means -/

section Meaning

variable {text text' : List Char} {es es' : List SseEvent} {payloads payloads' : List String}
  {resp resp' : HttpResponse} {chunks chunks' : List (List UInt8)}

theorem doneOnce_of_writes (hw : Writes es (lines '\n' text))
    (hes : es.map SseEvent.data = payloads ++ ["[DONE]"]) (hdone : "[DONE]" ∉ payloads) :
    DoneOnce text := by
  obtain ⟨events, rest, rfl, rfl, hrest⟩ := List.map_eq_append_iff.mp hes
  obtain ⟨last, rfl, hlast⟩ := List.map_eq_singleton_iff.mp hrest
  exact ⟨events, last, writes_iff_feed.mp hw, hlast, fun e he h =>
    hdone (List.mem_map.mpr ⟨e, he, h⟩)⟩

/-- The loop is handed the payloads that a text writes. -/
theorem handedPayloads_of_writes (hb : chunks.flatten = Utf8.encode text) (ha : Aligned chunks)
    (hw : Writes es (lines '\n' text)) (hes : es.map SseEvent.data = payloads ++ ["[DONE]"])
    (hdone : "[DONE]" ∉ payloads) : handedPayloads chunks = payloads ++ ["[DONE]"] := by
  rw [handedPayloads_of_aligned ha hb (doneOnce_of_writes hw hes hdone), writes_iff_feed.mp hw, hes]

/-- Two texts, each cut between characters, that write payloads and one `[DONE]` after them: the
loop returns and sends what it makes of the payloads, and no reader of JSON tells the texts apart
exactly when the payloads are the same. -/
theorem streams_of_one_meaning_agree (h : resp.delivers chunks) (h' : resp'.delivers chunks')
    (hb : chunks.flatten = Utf8.encode text) (hb' : chunks'.flatten = Utf8.encode text')
    (ha : Aligned chunks) (ha' : Aligned chunks')
    (hw : Writes es (lines '\n' text)) (hw' : Writes es' (lines '\n' text'))
    (hes : es.map SseEvent.data = payloads ++ ["[DONE]"])
    (hes' : es'.map SseEvent.data = payloads' ++ ["[DONE]"])
    (hdone : "[DONE]" ∉ payloads) (hdone' : "[DONE]" ∉ payloads') :
    (∀ fromStr, completeStream fromStr (.ok resp) =
      (.ok ((readAll fromStr payloads {}).finish fromStr).response,
        ((readAll fromStr payloads {}).finish fromStr).sent)) ∧
    ((∀ fromStr, completeStream fromStr (.ok resp) = completeStream fromStr (.ok resp')) ↔
      payloads = payloads') := by
  have hpayloads := handedPayloads_of_writes hb ha hw hes hdone
  have hpayloads' := handedPayloads_of_writes hb' ha' hw' hes' hdone'
  have hrun : ∀ {resp chunks payloads}, HttpResponse.delivers resp chunks →
      handedPayloads chunks = payloads ++ ["[DONE]"] → ∀ fromStr,
      completeStream fromStr (.ok resp) =
        (.ok ((readAll fromStr payloads {}).finish fromStr).response,
          ((readAll fromStr payloads {}).finish fromStr).sent) := by
    intro resp chunks payloads hd hp fromStr
    have hstate : streamed fromStr chunks = (readAll fromStr payloads {}).finish fromStr := by
      rw [streamed_eq_foldl, hp]
      exact readAll_done payloads [] {}
    rw [completeStream_of_delivers hd, hstate]
  refine ⟨hrun h hpayloads, fun hall => ?_, ?_⟩
  · -- a reader that shows every payload tells them apart
    have hsent := congrArg Prod.snd (hall showing)
    rw [completeStream_of_delivers h, completeStream_of_delivers h', sent_streamed_showing,
      sent_streamed_showing, hpayloads, hpayloads'] at hsent
    exact List.append_cancel_right (List.map_injective_iff.mpr shown_injective hsent)
  · rintro rfl fromStr
    rw [hrun h hpayloads, hrun h' hpayloads']

end Meaning

/-! ### A stream that is kept alive -/

/-- The lines of a delta and of `[DONE]`, among comments and fields that say nothing. -/
def keptAlive : List (List Char) :=
  [": keep-alive", "", "id: 7", "event:message", "data:" ++ helloPayload, "", ": keep-alive", "",
    "", "retry: 10", "data: [DONE]", "", "data: nothing ends this"].map String.toList

/-- The stream, in one chunk. -/
def keptAliveText : List Char := keptAlive.flatMap (· ++ ['\n'])

theorem writes_keptAlive :
    Writes [⟨some "message", helloPayload⟩, ⟨none, "[DONE]"⟩] (lines '\n' keptAliveText) := by
  rw [keptAliveText, lines_unlines (by decide), writes_iff]
  rfl

theorem writes_hello : Writes [⟨none, helloPayload⟩, ⟨none, "[DONE]"⟩]
    (lines '\n' (wire [helloPayload, "[DONE]"])) := by
  rw [writes_iff_feed, feed_wire (by decide)]
  rfl

/-- It is the stream of one delta. -/
theorem streams_of_one_meaning_agree_hello :
    completeStream helloFromStr (.ok ⟨200, none, .ok "", [.ok (Utf8.encode keptAliveText)]⟩) =
      (.ok ⟨[.text "Hello"], .endTurn, {}⟩, [.textDelta "Hello", .done]) := by
  have haligned : ∀ text : List Char, Aligned [Utf8.encode text] := by
    intro text chunk hchunk
    exact ⟨text, List.mem_singleton.mp hchunk⟩
  have hdata : ∀ eventType, [SseEvent.mk eventType helloPayload, ⟨none, "[DONE]"⟩].map
      SseEvent.data = [helloPayload] ++ ["[DONE]"] := fun _ => rfl
  have hhello : (hello ["[DONE]"]).delivers [Utf8.encode (wire [helloPayload, "[DONE]"])] :=
    ⟨rfl, rfl⟩
  have hkept : HttpResponse.delivers ⟨200, none, .ok "", [.ok (Utf8.encode keptAliveText)]⟩
    [Utf8.encode keptAliveText] := ⟨rfl, rfl⟩
  have hagree := streams_of_one_meaning_agree hkept hhello List.flatten_singleton
    List.flatten_singleton (haligned _) (haligned _) writes_keptAlive writes_hello
    (hdata (some "message")) (hdata none) (by decide) (by decide)
  exact (hagree.2.mpr rfl helloFromStr).trans (completeStream_hello ["[DONE]"] (by decide))

end Animus
