import Animus.Lib.Lines
import Animus.Llm.Delivery

/-!
# Server-Sent Events, line by line

The format says what each line of a stream means, with line feeds, carriage
returns or both as line ends. The parser cuts its buffer at two line feeds in a
row: on a text with line feeds it reads what the format says, and on one whose
lines end in carriage return and line feed it reads nothing.

## Main definitions

- `SseParser.reader`: the format, one line at a time
- `SseParser.IsData`: a line that gives data
- `SseParser.crlf`: every line feed replaced by carriage return and line feed

## Main results

- `SseParser.feed_eq_read`: the parser reads what the format says
- `SseParser.feed_crlf`: no event is found without two line feeds in a row
- `crlf_interchangeable_iff`
- `crlf_silences`: a stream of one delta
-/

namespace Animus

open Framing

namespace SseParser

/-! ### The format -/

/-- The value of a field, without one leading space. -/
def fieldValue (rest : List Char) : List Char :=
  if rest.head? = some ' ' then rest.tail else rest

/-- A line that is not empty: a comment, an event type, data, or nothing of interest. -/
def Fields.read (f : Fields) (line : List Char) : Fields :=
  if line.head? = some ':' then f
  else match stripPrefix "event:" line with
  | some rest => { f with eventType := some (String.ofList (fieldValue rest)) }
  | none => match stripPrefix "data:" line with
  | some rest => { f with dataLines := f.dataLines ++ [fieldValue rest] }
  | none => f

/-- An event, if there is data. -/
def Fields.event (f : Fields) : Option SseEvent :=
  if f.dataLines = [] then none
  else some ⟨f.eventType, String.ofList (['\n'].intercalate f.dataLines)⟩

/-- The format, one line at a time. -/
def reader : LineReader Char Fields SseEvent where
  start := {}
  read := Fields.read
  dispatch := Fields.event

theorem reader_fresh : reader.Fresh := ⟨rfl, rfl⟩

/-! ### The parser reads what the format says -/

theorem stripPrefix_eq_some_iff {word : String} {line rest : List Char} :
    stripPrefix word line = some rest ↔ line = word.toList ++ rest := by
  unfold stripPrefix
  constructor
  · intro h
    split at h
    · next hp =>
      cases h
      exact (List.prefix_iff_eq_append.mp (List.isPrefixOf_iff_prefix.mp hp)).symm
    · cases h
  · rintro rfl
    rw [if_pos (List.isPrefixOf_iff_prefix.mpr (List.prefix_append _ rest)), List.drop_left]

/-- A field name with a space is tried first, and then the field name alone. -/
theorem stripPrefix_space {word spaced : String} (h : spaced.toList = word.toList ++ [' '])
    (line : List Char) :
    ((stripPrefix spaced line).orElse fun _ => stripPrefix word line) =
      (stripPrefix word line).map fieldValue := by
  cases hw : stripPrefix word line with
  | none =>
    cases hs : stripPrefix spaced line with
    | none => rfl
    | some value =>
      have hline := stripPrefix_eq_some_iff.mp hs
      rw [h, List.append_assoc] at hline
      rw [stripPrefix_eq_some_iff.mpr hline] at hw
      cases hw
  | some rest =>
    have hline := stripPrefix_eq_some_iff.mp hw
    rw [Option.map_some, fieldValue]
    -- one space after the name is dropped, where there is one
    split
    · next hsp =>
      obtain ⟨value, rfl⟩ := List.head?_eq_some_iff.mp hsp
      have hs : stripPrefix spaced line = some value := by
        rw [stripPrefix_eq_some_iff, hline, h, List.append_assoc]
        rfl
      rw [hs]
      rfl
    · next hsp =>
      cases hs : stripPrefix spaced line with
      | none => rfl
      | some value =>
        have hline' := stripPrefix_eq_some_iff.mp hs
        rw [hline, h, List.append_assoc] at hline'
        rw [List.append_cancel_left hline'] at hsp
        exact absurd rfl hsp

/-- What a line does, by the values that are found for the two fields. -/
def Fields.take (f : Fields) : Option (List Char) → Option (List Char) → Fields
  | some value, _ => { f with eventType := some (String.ofList value) }
  | none, some value => { f with dataLines := f.dataLines ++ [value] }
  | none, none => f

theorem Fields.line_eq_read (f : Fields) (line : List Char) : f.line line = f.read line := by
  have hline : f.line line = if line.head? = some ':' then f else f.take
      ((stripPrefix "event: " line).orElse fun _ => stripPrefix "event:" line)
      ((stripPrefix "data: " line).orElse fun _ => stripPrefix "data:" line) := by
    unfold Fields.line
    cases stripPrefix "event: " line <;> cases stripPrefix "event:" line <;>
      cases stripPrefix "data: " line <;> cases stripPrefix "data:" line <;> rfl
  have hread : f.read line = if line.head? = some ':' then f else f.take
      ((stripPrefix "event:" line).map fieldValue) ((stripPrefix "data:" line).map fieldValue) := by
    unfold Fields.read
    cases stripPrefix "event:" line <;> cases stripPrefix "data:" line <;> rfl
  rw [hline, hread, stripPrefix_space rfl, stripPrefix_space rfl]

/-- White space says nothing. -/
theorem Fields.read_blank {line : List Char} (h : ∀ c ∈ line, isWhitespace c = true) (f : Fields) :
    f.read line = f := by
  have hstrip : ∀ word : String, (∃ c w, word.toList = c :: w ∧ isWhitespace c = false) →
      stripPrefix word line = none := by
    rintro word ⟨c, w, hword, hc⟩
    cases hs : stripPrefix word line with
    | none => rfl
    | some rest =>
      have hmem : c ∈ line := by
        rw [stripPrefix_eq_some_iff.mp hs, hword]
        exact List.mem_cons_self
      rw [h c hmem] at hc
      cases hc
  unfold Fields.read
  rw [hstrip "event:" ⟨'e', _, rfl, rfl⟩, hstrip "data:" ⟨'d', _, rfl, rfl⟩]
  exact ite_self f

theorem foldl_read_blank {block : List Char} (h : isBlank block = true) (f : Fields) :
    (block.splitOn '\n').foldl Fields.read f = f := by
  have hline : ∀ line ∈ block.splitOn '\n', ∀ c ∈ line, isWhitespace c = true :=
    fun line hline c hc =>
    List.all_eq_true.mp h c (mem_of_mem_splitOn hline hc)
  generalize block.splitOn '\n' = ls at hline
  induction ls generalizing f with
  | nil => rfl
  | cons line ls ih =>
    rw [List.foldl_cons, Fields.read_blank (hline line List.mem_cons_self)]
    exact ih f fun x hx => hline x (List.mem_cons_of_mem line hx)

theorem parseBlock_eq_readBlock (block : List Char) :
    parseBlock block = reader.readBlock '\n' block := by
  have hread : Fields.line = Fields.read := by
    funext f line
    exact f.line_eq_read line
  unfold parseBlock
  rw [hread]
  split
  · next hblank =>
    have hstart := foldl_read_blank hblank {}
    exact (congrArg Fields.event hstart).symm
  · rfl

/-- The parser reads what the format says. -/
theorem feed_eq_read (text : List Char) :
    (new.feed text).2 = reader.run reader.start (lines '\n' text) := by
  have hblock : parseBlock = reader.readBlock '\n' := by
    funext block
    exact parseBlock_eq_readBlock block
  rw [← reader_fresh.filterMap_frames '\n' text, ← hblock]
  rfl

/-! ### When there is no event -/

/-- A line that gives data. -/
def IsData (line : List Char) : Prop := "data:".toList <+: line

theorem isData_iff {line : List Char} : IsData line ↔ stripPrefix "data:" line ≠ none := by
  rw [Option.ne_none_iff_exists', IsData]
  constructor
  · rintro ⟨rest, rfl⟩
    exact ⟨rest, stripPrefix_eq_some_iff.mpr rfl⟩
  · rintro ⟨rest, hrest⟩
    exact ⟨rest, (stripPrefix_eq_some_iff.mp hrest).symm⟩

theorem Fields.dataLines_read_eq_nil_iff {f : Fields} {line : List Char} :
    (f.read line).dataLines = [] ↔ f.dataLines = [] ∧ ¬ IsData line := by
  unfold Fields.read
  split
  · next hcolon =>
    refine (and_iff_left ?_).symm
    rintro ⟨rest, rfl⟩
    cases hcolon
  · cases he : stripPrefix "event:" line with
    | some rest =>
      refine (and_iff_left ?_).symm
      rintro ⟨rest', rfl⟩
      cases he
    | none =>
      rw [isData_iff]
      cases stripPrefix "data:" line with
      | some rest =>
        refine iff_of_false ?_ fun h => h.2 (Option.some_ne_none rest)
        exact List.append_ne_nil_of_right_ne_nil _ (List.cons_ne_nil _ _)
      | none => exact (and_iff_left fun h => h rfl).symm

theorem Fields.event_eq_none_iff {f : Fields} : f.event = none ↔ f.dataLines = [] := by
  unfold Fields.event
  split
  · next h => exact iff_of_true rfl h
  · next h => exact iff_of_false (Option.some_ne_none _) h

/-- Nothing is dispatched where no line that gives data comes before an empty line. -/
theorem run_eq_nil_iff (f : Fields) (ls : List (List Char)) :
    reader.run f ls = [] ↔ (f.dataLines = [] ∨ [] ∉ ls) ∧
      ls.Pairwise fun line later => IsData line → later ≠ [] := by
  induction ls generalizing f with
  | nil => exact iff_of_true rfl ⟨.inr List.not_mem_nil, .nil⟩
  | cons line ls ih =>
    rw [LineReader.run, List.pairwise_cons]
    by_cases hl : line = []
    · -- an empty line dispatches what is pending, and nothing is pending after it
      have hdata : ¬ IsData line := by
        rw [hl]
        exact fun h => absurd (List.prefix_nil.mp h) (List.cons_ne_nil _ _)
      have hmem : f.dataLines = [] ∨ [] ∉ line :: ls ↔ f.dataLines = [] :=
        or_iff_left fun h => h (hl ▸ List.mem_cons_self)
      have hevent : (reader.dispatch f).toList = [] ↔ f.dataLines = [] := by
        rw [Option.toList_eq_nil_iff]
        exact Fields.event_eq_none_iff
      rw [if_pos hl, List.append_eq_nil_iff, hevent, hmem, ih]
      exact and_congr_right fun _ => ⟨fun h => ⟨fun _ _ hd => absurd hd hdata, h.2⟩,
        fun h => ⟨.inl rfl, h.2⟩⟩
    · -- any other line is read; a data line leaves something pending
      have hmem : [] ∉ line :: ls ↔ [] ∉ ls := by
        rw [List.mem_cons, not_or]
        exact and_iff_right (Ne.symm hl)
      have hread : (reader.read f line).dataLines = [] ↔ f.dataLines = [] ∧ ¬ IsData line :=
        Fields.dataLines_read_eq_nil_iff
      have hlater : (∀ later ∈ ls, IsData line → later ≠ []) ↔ (¬ IsData line ∨ [] ∉ ls) := by
        constructor
        · intro h
          by_cases hd : IsData line
          · exact .inr fun hnil => h [] hnil hd rfl
          · exact .inl hd
        · rintro (h | h) later hmem hd
          · exact absurd hd h
          · rintro rfl
            exact h hmem
      rw [if_neg hl, ih, hread, hmem, hlater]
      tauto

/-! ### Carriage return and line feed -/

/-- Every line feed replaced by carriage return and line feed. -/
def crlf (text : List Char) : List Char :=
  text.flatMap fun c => if c = '\n' then ['\r', '\n'] else [c]

/-- No line feed comes first, and none after another. -/
theorem crlf_spread (text : List Char) :
    ¬ ['\n'] <+: crlf text ∧ ¬ ['\n', '\n'] <:+: crlf text := by
  induction text with
  | nil => decide
  | cons c text ih =>
    have hcons : crlf (c :: text) = (if c = '\n' then ['\r', '\n'] else [c]) ++ crlf text := rfl
    have htail : ∀ d : Char, ¬ ['\n', '\n'] <:+: d :: crlf text := by
      intro d h
      rcases List.infix_cons_iff.mp h with h | h
      · exact ih.1 (List.cons_prefix_cons.mp h).2
      · exact ih.2 h
    rw [hcons]
    split
    · refine ⟨fun h => absurd (List.cons_prefix_cons.mp h).1 (by decide), fun h => ?_⟩
      rcases List.infix_cons_iff.mp h with h | h
      · exact absurd (List.cons_prefix_cons.mp h).1 (by decide)
      · exact htail '\n' h
    · next hc => exact ⟨fun h => hc (List.cons_prefix_cons.mp h).1.symm, htail c⟩

/-- Without two line feeds in a row, no event is found. -/
theorem feed_crlf (text : List Char) : new.feed (crlf text) = (⟨crlf text⟩, []) := by
  have hcut : cut? blankLine (crlf text) = none := cut?_eq_none_iff.mpr (crlf_spread text).2
  rw [feed, new, List.nil_append, frames_of_none hcut]
  rfl

end SseParser

open SseParser

/-- A stream on which the parser finds no event returns nothing. -/
theorem completeStream_silent (fromStr : FromStr) {resp : HttpResponse} {chunks : List (List UInt8)}
    (h : resp.delivers chunks)
    (hevents : (new.feed (chunks.map Utf8.decodeLossy).flatten).2 = []) :
    completeStream fromStr (.ok resp) = (.ok ⟨[], .endTurn, {}⟩, []) := by
  have hall : (new.feedAll (chunks.map Utf8.decodeLossy)).2.flatten =
      (new.feed (chunks.map Utf8.decodeLossy).flatten).2 :=
    congrArg Prod.snd (feedAll_flatten settled_new (chunks.map Utf8.decodeLossy))
  have hnil : handledEvents chunks = [] := by
    rw [hevents, List.flatten_eq_nil_iff] at hall
    rw [handledEvents, List.flatten_eq_nil_iff]
    intro l hl
    obtain ⟨es, hes, rfl⟩ := List.mem_map.mp hl
    rw [hall es hes]
    rfl
  rw [completeStream_of_delivers h, streamed, hnil]
  rfl

/-- Carriage returns make no difference exactly where no line that gives data comes before an
empty line, so where there is no event to find. -/
theorem crlf_interchangeable_iff (text : List Char) :
    ((new.feed (crlf text)).2 = (new.feed text).2 ∧
      ∀ fromStr resp resp' chunks chunks', HttpResponse.delivers resp chunks →
        HttpResponse.delivers resp' chunks' → (chunks.map Utf8.decodeLossy).flatten = text →
        (chunks'.map Utf8.decodeLossy).flatten = crlf text →
        (completeStream fromStr (.ok resp')).1 = (completeStream fromStr (.ok resp)).1) ↔
    (lines '\n' text).Pairwise fun line later => IsData line → later ≠ [] := by
  have hevents : (new.feed text).2 = [] ↔
      (lines '\n' text).Pairwise fun line later => IsData line → later ≠ [] := by
    rw [feed_eq_read, run_eq_nil_iff]
    exact and_iff_right (.inl rfl)
  rw [← hevents, feed_crlf]
  constructor
  · exact fun h => h.1.symm
  · intro h
    refine ⟨h.symm, fun fromStr resp resp' chunks chunks' hd hd' htext htext' => ?_⟩
    rw [completeStream_silent fromStr hd (by rw [htext, h]),
      completeStream_silent fromStr hd' (by rw [htext', feed_crlf])]

/-- A delta and `[DONE]`, with carriage returns: neither is read. -/
theorem crlf_silences :
    ¬ (∀ text : List Char, '\r' ∉ text → (new.feed (crlf text)).2 = (new.feed text).2) ∧
    ¬ ∀ fromStr text resp resp' chunks chunks', '\r' ∉ text → HttpResponse.delivers resp chunks →
      HttpResponse.delivers resp' chunks' → (chunks.map Utf8.decodeLossy).flatten = text →
      (chunks'.map Utf8.decodeLossy).flatten = crlf text →
      (completeStream fromStr (.ok resp')).1 = (completeStream fromStr (.ok resp)).1 := by
  have hcr : '\r' ∉ wire [helloPayload, "[DONE]"] := by decide
  constructor
  · intro h
    have heq := h _ hcr
    rw [feed_crlf, feed_wire (by decide)] at heq
    cases heq
  · intro h
    let resp' : HttpResponse := ⟨200, none, .ok "", [.ok (Utf8.encode (crlf (wire [helloPayload,
      "[DONE]"])))]⟩
    have hd' : resp'.delivers [Utf8.encode (crlf (wire [helloPayload, "[DONE]"]))] := ⟨rfl, rfl⟩
    have heq := h helloFromStr _ (hello ["[DONE]"]) resp' _ _ hcr ⟨rfl, rfl⟩ hd'
      (by rw [List.map_singleton, List.flatten_singleton, Utf8.decodeLossy_encode])
      (by rw [List.map_singleton, List.flatten_singleton, Utf8.decodeLossy_encode])
    rw [completeStream_hello _ (by decide), completeStream_silent helloFromStr hd' (by
      rw [List.map_singleton, List.flatten_singleton, Utf8.decodeLossy_encode, feed_crlf])] at heq
    have hcontent := congrArg CompletionResponse.content (Except.ok.inj heq)
    revert hcontent
    decide

end Animus
