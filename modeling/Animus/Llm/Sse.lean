import Animus.Lib.Framing
import Mathlib.Data.Nat.Notation

/-!
# Server-Sent Events parser

The buffer is cut at blank lines; each block is read line by line.

## Main definitions

- `SseParser.feed`: the events a chunk of text completes
- `SseParser.feedAll`: the events of each chunk of a sequence

## Main results

- `SseParser.feedAll_flatten`: the events do not depend on the chunks
- `SseParser.feed_incremental`: what the buffer is after every feed
- `SseParser.feed_wire`: one-line payloads are read back as they were sent
-/

namespace Animus

open Framing

/-- A parsed SSE event. -/
structure SseEvent where
  eventType : Option String
  data : String

/-- Incremental SSE parser; the buffer as its characters. -/
structure SseParser where
  buffer : List Char

namespace SseParser

def new : SseParser := ⟨[]⟩

/-- An event is complete when an empty line is encountered. -/
def blankLine : Terminator Char := ⟨['\n', '\n'], List.cons_ne_nil _ _⟩

/-- `char::is_whitespace`: the Unicode property `White_Space`. -/
def isWhitespace (c : Char) : Bool :=
  (0x9 ≤ c.toNat && c.toNat ≤ 0xD) || c.toNat = 0x20 || c.toNat = 0x85 || c.toNat = 0xA0 ||
    c.toNat = 0x1680 || (0x2000 ≤ c.toNat && c.toNat ≤ 0x200A) || c.toNat = 0x2028 ||
    c.toNat = 0x2029 || c.toNat = 0x202F || c.toNat = 0x205F || c.toNat = 0x3000

/-- `block.trim().is_empty()`. -/
def isBlank (block : List Char) : Bool := block.all isWhitespace

/-- The rest of a line that starts with `word`. -/
def stripPrefix (word : String) (line : List Char) : Option (List Char) :=
  if word.toList.isPrefixOf line then some (line.drop word.toList.length) else none

/-- What the lines of a block have said so far. -/
structure Fields where
  eventType : Option String := none
  dataLines : List (List Char) := []

/-- One line: a comment, a field, or another field name that is ignored. -/
def Fields.line (f : Fields) (line : List Char) : Fields :=
  if line.head? = some ':' then f
  else match stripPrefix "event: " line with
  | some value => { f with eventType := some (String.ofList value) }
  | none => match stripPrefix "event:" line with
  | some value => { f with eventType := some (String.ofList value) }
  | none => match stripPrefix "data: " line with
  | some value => { f with dataLines := f.dataLines ++ [value] }
  | none => match stripPrefix "data:" line with
  | some value => { f with dataLines := f.dataLines ++ [value] }
  | none => f

/-- The event of a block, if it has data. -/
def parseBlock (block : List Char) : Option SseEvent :=
  if isBlank block then none
  else
    let f := (block.splitOn '\n').foldl Fields.line {}
    if f.dataLines = [] then none
    else some ⟨f.eventType, String.ofList (['\n'].intercalate f.dataLines)⟩

/-- Feed a chunk of SSE text; partial data is buffered until a blank line ends its block. -/
def feed (p : SseParser) (chunk : List Char) : SseParser × List SseEvent :=
  (⟨(frames blankLine (p.buffer ++ chunk)).2⟩,
    (frames blankLine (p.buffer ++ chunk)).1.filterMap parseBlock)

/-- Feed chunks in order, keeping the events of each. -/
def feedAll (p : SseParser) : List (List Char) → SseParser × List (List SseEvent)
  | [] => (p, [])
  | c :: cs => (((p.feed c).1.feedAll cs).1, (p.feed c).2 :: ((p.feed c).1.feedAll cs).2)

/-! ### The events do not depend on the chunks -/

theorem feed_append (p : SseParser) (a b : List Char) :
    p.feed (a ++ b) = (((p.feed a).1.feed b).1, (p.feed a).2 ++ ((p.feed a).1.feed b).2) := by
  simp only [feed]
  rw [← List.append_assoc, frames_append, List.filterMap_append]

/-- Nothing is left to take out of the buffer. -/
def Settled (p : SseParser) : Prop := cut? blankLine p.buffer = none

theorem settled_new : new.Settled := rfl

theorem feed_settled (p : SseParser) (chunk : List Char) : (p.feed chunk).1.Settled :=
  cut?_rest (p.buffer ++ chunk)

theorem feed_nil {p : SseParser} (h : p.Settled) : p.feed [] = (p, []) := by
  rw [feed, List.append_nil, frames_of_none h]
  rfl

theorem feedAll_flatten {p : SseParser} (h : p.Settled) (cs : List (List Char)) :
    ((p.feedAll cs).1, (p.feedAll cs).2.flatten) = p.feed cs.flatten := by
  induction cs generalizing p with
  | nil => exact (feed_nil h).symm
  | cons c cs ih =>
    have ih' := ih (p.feed_settled c)
    rw [List.flatten_cons, feed_append, ← ih']
    rfl

/-- The parser is incremental: the events and the buffer do not depend on the chunks, and after
every feed the buffer follows the last block that was consumed and holds no blank line. -/
theorem feed_incremental (chunks : List (List Char)) :
    ((new.feedAll chunks).1, (new.feedAll chunks).2.flatten) = new.feed chunks.flatten ∧
    ∀ n, ∃ blocks : List (List Char),
      (new.feedAll (chunks.take n)).2.flatten = blocks.filterMap parseBlock ∧
      (chunks.take n).flatten = blocks.flatMap (· ++ ['\n', '\n']) ++
        (new.feedAll (chunks.take n)).1.buffer ∧
      (∀ block ∈ blocks, ¬ ['\n', '\n'] <:+: block ++ ['\n']) ∧
      ¬ ['\n', '\n'] <:+: (new.feedAll (chunks.take n)).1.buffer := by
  refine ⟨feedAll_flatten settled_new chunks, fun n => ?_⟩
  obtain ⟨hp, hevents⟩ := Prod.mk.inj (feedAll_flatten settled_new (chunks.take n))
  refine ⟨(frames blankLine (chunks.take n).flatten).1, hevents, ?_, ?_, ?_⟩
  · rw [hp]
    exact (frames_join blankLine (chunks.take n).flatten).symm
  · exact fun block hblock => first_of_mem_frames hblock
  · rw [hp]
    exact cut?_eq_none_iff.mp (new.feed_settled (chunks.take n).flatten)

/-! ### One-line payloads -/

/-- The text of a `data` event with a one-line payload. -/
def wireEvent (payload : String) : List Char := "data: ".toList ++ payload.toList ++ ['\n', '\n']

/-- The text of a sequence of such events. -/
def wire (payloads : List String) : List Char := payloads.flatMap wireEvent

theorem line_data (value : List Char) :
    Fields.line {} ("data: ".toList ++ value) = { dataLines := [value] } := rfl

theorem parseBlock_data {payload : String} (h : '\n' ∉ payload.toList) :
    parseBlock ("data: ".toList ++ payload.toList) = some ⟨none, payload⟩ := by
  have hline : ("data: ".toList ++ payload.toList).splitOn '\n' =
      ["data: ".toList ++ payload.toList] := by
    rw [List.splitOn_eq_splitOnP]
    refine List.splitOnP_eq_singleton fun c hc => beq_eq_false_iff_ne.mpr ?_
    rintro rfl
    rcases List.mem_append.mp hc with hc | hc
    · revert hc
      decide
    · exact h hc
  have hblank : isBlank ("data: ".toList ++ payload.toList) = false := rfl
  have hdata : ['\n'].intercalate [payload.toList] = payload.toList := by
    simp only [List.intercalate_singleton]
  rw [parseBlock, hblank, hline, List.foldl_cons, List.foldl_nil, line_data,
    if_neg Bool.false_ne_true]
  refine (if_neg (List.cons_ne_nil _ _)).trans ?_
  rw [hdata, String.ofList_toList]

theorem feed_wireEvent {payload : String} (h : '\n' ∉ payload.toList) (rest : List Char) :
    new.feed (wireEvent payload ++ rest) =
      ((new.feed rest).1, ⟨none, payload⟩ :: (new.feed rest).2) := by
  have hdisj : ∀ c ∈ "data: ".toList ++ payload.toList, c ∉ blankLine.word := by
    intro c hc hsep
    have hnl : c = '\n' := (List.mem_cons.mp hsep).elim id List.mem_singleton.mp
    subst hnl
    rcases List.mem_append.mp hc with hc | hc
    · revert hc
      decide
    · exact h hc
  have hframes : frames blankLine ([] ++ (wireEvent payload ++ rest)) = _ :=
    frames_frame hdisj rest
  rw [feed, new, hframes, List.filterMap_cons_some (parseBlock_data h)]
  rfl

/-- One-line payloads are read back as they were sent. -/
theorem feed_wire {payloads : List String} (h : ∀ t ∈ payloads, '\n' ∉ t.toList) :
    new.feed (wire payloads) = (new, payloads.map (⟨none, ·⟩)) := by
  induction payloads with
  | nil => exact feed_nil settled_new
  | cons t ts ih =>
    have ih' := ih fun x hx => h x (List.mem_cons_of_mem t hx)
    rw [wire, List.flatMap_cons, feed_wireEvent (h t List.mem_cons_self)]
    rw [wire] at ih'
    rw [ih']
    rfl

end SseParser

end Animus
