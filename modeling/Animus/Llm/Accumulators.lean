import Animus.Llm.Agreement
import Animus.Llm.Delivery

/-!
# What the streaming loop accumulates

The payloads before `[DONE]` reach the response along three ways that do not
touch each other: text and reasoning through their channels, tool calls through
the call that is open, and why and at what cost the message ended through the
last value given. The response depends on the payloads only through what each
of these makes of them.

## Main definitions

- `ToolSignal`: a tool call starts, or a fragment of arguments arrives
- `ToolLedger`: the tool calls put in blocks, the open one, and the signals sent
- `segments`: the calls of a sequence of signals, each with what follows its start
- `Streams`: a stream that hands over payloads and then one `[DONE]`
- `Summary`: what the payloads say

## Main results

- `tools_readData`, `ending_readData`: what a payload does to the tool calls and to the ending
- `blocks_foldl_signal`: the blocks of a sequence of signals
- `streamed_content`: the content a stream returns
- `fragmentation_irrelevant`: streams that say the same return the same
-/

namespace Animus

variable {fromStr : FromStr}

/-- The delta of a payload. -/
def deltaOf (data : Json) : Json := ((data.key "choices").idx 0).key "delta"

/-! ### Tool calls -/

/-- A tool call starts, or a fragment of arguments arrives. -/
inductive ToolSignal
  | start (id name : String)
  | arguments (json : String)

namespace ToolSignal

/-- The signals of an entry of `tool_calls`. -/
def ofEntry (tc : Json) : List ToolSignal :=
  ((tc.key "id").asStr.map fun id =>
    start id (((tc.key "function").key "name").asStr.getD "")).toList ++
    (((tc.key "function").key "arguments").asStr.map arguments).toList

/-- The signals of a delta. -/
def ofDelta (delta : Json) : List ToolSignal :=
  ((delta.key "tool_calls").asArray.getD []).flatMap ofEntry

/-- The signal of an event sent. -/
def ofEvent : StreamEvent → Option ToolSignal
  | .toolStart id name => some (start id name)
  | .toolInputDelta _ json => some (arguments json)
  | .textDelta _ => none
  | .thinkingDelta _ => none
  | .done => none

end ToolSignal

/-- The signals of a sequence of payloads. -/
def toolSignals (values : List Json) : List ToolSignal :=
  values.flatMap fun data => ToolSignal.ofDelta (deltaOf data)

/-- The block of an open call; without an id there is none. -/
def ToolCall.opened (fromStr : FromStr) (tc : ToolCall) : List ContentBlock :=
  if tc.id = "" then [] else [tc.block fromStr]

/-- The calls put in blocks, the call that is open, and the signals sent. -/
@[ext] structure ToolLedger where
  blocks : List ContentBlock
  call : ToolCall
  sent : List ToolSignal

/-- What a signal does; arguments are kept where there is no call to put in a block. -/
def ToolLedger.signal (fromStr : FromStr) (l : ToolLedger) : ToolSignal → ToolLedger
  | .start id name => {
      blocks := l.blocks ++ l.call.opened fromStr
      call := ⟨id, name, if l.call.id = "" then l.call.arguments else ""⟩
      sent := l.sent ++ [.start id name] }
  | .arguments json => {
      blocks := l.blocks
      call := ⟨l.call.id, l.call.name, l.call.arguments ++ json⟩
      sent := l.sent ++ [.arguments json] }

namespace StreamState

variable (s : StreamState)

/-- The call that is open. -/
def call : ToolCall := ⟨s.currentToolId, s.currentToolName, s.currentToolArgs⟩

/-- The tool calls of a state. -/
def tools : ToolLedger := ⟨s.contentBlocks, s.call, s.sent.filterMap ToolSignal.ofEvent⟩

theorem tools_readFinishReason (data : Json) : (s.readFinishReason data).tools = s.tools := by
  unfold readFinishReason
  split <;> rfl

theorem tools_readUsage (data : Json) : (s.readUsage data).tools = s.tools := by
  unfold readUsage
  split <;> rfl

theorem tools_readThinking (delta : Json) : (s.readThinking delta).tools = s.tools := by
  unfold readThinking
  split
  · simp [tools, call, send, ToolSignal.ofEvent]
  · rfl

theorem tools_readText (delta : Json) : (s.readText delta).tools = s.tools := by
  unfold readText
  split
  · simp [tools, call, send, ToolSignal.ofEvent]
  · rfl

variable (fromStr) in
theorem tools_flushTool (id name : String) :
    ({ s.flushTool fromStr with currentToolId := id, currentToolName := name }.send
      (.toolStart id name)).tools = s.tools.signal fromStr (.start id name) := by
  unfold flushTool
  split
  · next h => simp [tools, call, send, ToolSignal.ofEvent, ToolLedger.signal, ToolCall.opened, h]
  · next h =>
    simp [tools, call, send, ToolSignal.ofEvent, ToolLedger.signal, ToolCall.opened, h,
      ToolCall.block]

theorem tools_readToolCall (tc : Json) : (s.readToolCall fromStr tc).tools =
    (ToolSignal.ofEntry tc).foldl (ToolLedger.signal fromStr) s.tools := by
  have hargs : ∀ t : StreamState, (t.readArguments tc).tools =
      (((tc.key "function").key "arguments").asStr.map ToolSignal.arguments).toList.foldl
        (ToolLedger.signal fromStr) t.tools := by
    intro t
    unfold readArguments
    cases ((tc.key "function").key "arguments").asStr with
    | none => rfl
    | some args => simp [tools, call, send, ToolSignal.ofEvent, ToolLedger.signal]
  rw [readToolCall, hargs, ToolSignal.ofEntry, List.foldl_append]
  congr 1
  unfold startTool
  cases (tc.key "id").asStr with
  | none => rfl
  | some id => exact s.tools_flushTool fromStr id _

theorem tools_readToolCalls (delta : Json) : (s.readToolCalls fromStr delta).tools =
    (ToolSignal.ofDelta delta).foldl (ToolLedger.signal fromStr) s.tools := by
  unfold readToolCalls ToolSignal.ofDelta
  cases (delta.key "tool_calls").asArray with
  | none => rfl
  | some tcs =>
    rw [Option.getD_some, List.foldl_flatMap]
    exact (List.foldl_hom tools fun t tc => (t.tools_readToolCall tc).symm).symm

/-- What a payload does to the tool calls. -/
theorem tools_readData (data : Json) : (s.readData fromStr data).tools =
    (ToolSignal.ofDelta (deltaOf data)).foldl (ToolLedger.signal fromStr) s.tools := by
  unfold readData
  rw [tools_readToolCalls, tools_readText, tools_readThinking, tools_readUsage,
    tools_readFinishReason]
  rfl

theorem tools_foldl (values : List Json) : (values.foldl (readData fromStr) s).tools =
    (toolSignals values).foldl (ToolLedger.signal fromStr) s.tools := by
  rw [toolSignals, List.foldl_flatMap]
  exact (List.foldl_hom tools fun t data => (t.tools_readData data).symm).symm

end StreamState

/-- The text before the first start, and the calls, each with what follows its start until the
next one. -/
def segments : List ToolSignal → String × List ToolCall
  | [] => ("", [])
  | .start id name :: sigs => ("", ⟨id, name, (segments sigs).1⟩ :: (segments sigs).2)
  | .arguments json :: sigs => (json ++ (segments sigs).1, (segments sigs).2)

/-- The text of the arguments that arrive before the first call starts. -/
def strayArguments (values : List Json) : String := (segments (toolSignals values)).1

/-- The calls that start, each with the arguments that arrive until the next one starts. -/
def startedCalls (values : List Json) : List ToolCall := (segments (toolSignals values)).2

/-- The blocks of a sequence of calls. A call without an id leaves its arguments to the next. -/
def callBlocks (fromStr : FromStr) (kept : String) : List ToolCall → List ContentBlock
  | [] => []
  | tc :: tcs =>
    if tc.id = "" then callBlocks fromStr (kept ++ tc.arguments) tcs
    else ToolCall.block fromStr ⟨tc.id, tc.name, kept ++ tc.arguments⟩ :: callBlocks fromStr "" tcs

theorem callBlocks_cons (kept : String) (tc : ToolCall) (tcs : List ToolCall) :
    callBlocks fromStr kept (tc :: tcs) =
      callBlocks fromStr "" (⟨tc.id, tc.name, kept ++ tc.arguments⟩ :: tcs) := by
  simp only [callBlocks, String.empty_append]

theorem callBlocks_singleton (tc : ToolCall) : callBlocks fromStr "" [tc] = tc.opened fromStr := by
  simp only [callBlocks, String.empty_append, ToolCall.opened]

/-- Calls with ids become one block each. -/
theorem callBlocks_eq_map {tcs : List ToolCall} (h : ∀ tc ∈ tcs, tc.id ≠ "") :
    callBlocks fromStr "" tcs = tcs.map (ToolCall.block fromStr) := by
  induction tcs with
  | nil => rfl
  | cons tc tcs ih =>
    rw [callBlocks, if_neg (h tc List.mem_cons_self), String.empty_append,
      ih fun x hx => h x (List.mem_cons_of_mem tc hx)]
    rfl

theorem isToolUse_callBlocks {kept : String} {tcs : List ToolCall} {b : ContentBlock}
    (h : b ∈ callBlocks fromStr kept tcs) : b.isToolUse = true := by
  induction tcs generalizing kept with
  | nil => cases h
  | cons tc tcs ih =>
    rw [callBlocks] at h
    split at h
    · exact ih h
    · obtain rfl | h := List.mem_cons.mp h
      · rfl
      · exact ih h

variable (fromStr) in
/-- The blocks of a sequence of signals, the open call's block included. -/
theorem blocks_foldl_signal (l : ToolLedger) (sigs : List ToolSignal) :
    (sigs.foldl (ToolLedger.signal fromStr) l).blocks ++
        (sigs.foldl (ToolLedger.signal fromStr) l).call.opened fromStr =
      l.blocks ++ callBlocks fromStr ""
        (⟨l.call.id, l.call.name, l.call.arguments ++ (segments sigs).1⟩ :: (segments sigs).2) := by
  induction sigs generalizing l with
  | nil =>
    rw [List.foldl_nil, segments, String.append_empty, callBlocks_singleton]
  | cons sig sigs ih =>
    rw [List.foldl_cons, ih]
    cases sig with
    | arguments json => simp only [ToolLedger.signal, segments, String.append_assoc]
    -- a start closes the open call, which is a block only if it has an id
    | start id name =>
      have hopened : l.call.opened fromStr ++ callBlocks fromStr ""
          (⟨id, name, (if l.call.id = "" then l.call.arguments else "") ++ (segments sigs).1⟩ ::
            (segments sigs).2) =
          callBlocks fromStr "" (⟨l.call.id, l.call.name, l.call.arguments ++ ""⟩ ::
            ⟨id, name, (segments sigs).1⟩ :: (segments sigs).2) := by
        rw [callBlocks.eq_2 fromStr "" ⟨l.call.id, _, _⟩, ToolCall.opened]
        split
        · rw [callBlocks_cons ("" ++ _)]
          simp only [String.empty_append, String.append_empty, List.nil_append]
        · simp only [String.empty_append, String.append_empty, List.cons_append, List.nil_append]
      simp only [ToolLedger.signal, segments, List.append_assoc, hopened]

variable (fromStr) in
theorem sent_foldl_signal (l : ToolLedger) (sigs : List ToolSignal) :
    (sigs.foldl (ToolLedger.signal fromStr) l).sent = l.sent ++ sigs := by
  induction sigs generalizing l with
  | nil => exact (List.append_nil _).symm
  | cons sig sigs ih =>
    rw [List.foldl_cons, ih]
    cases sig <;>
      simp only [ToolLedger.signal, List.append_assoc, List.cons_append, List.nil_append]

variable (fromStr) in
/-- The call that is open is the last one started. -/
theorem call_foldl_signal (l : ToolLedger) (sigs : List ToolSignal) :
    (sigs.foldl (ToolLedger.signal fromStr) l).call.id =
      ((segments sigs).2.getLast?.map ToolCall.id).getD l.call.id := by
  induction sigs generalizing l with
  | nil => rfl
  | cons sig sigs ih =>
    rw [List.foldl_cons, ih]
    cases sig with
    | arguments json => rfl
    | start id name =>
      rw [segments, List.getLast?_cons]
      cases (segments sigs).2.getLast? <;> rfl

/-! ### Why and at what cost the message ended -/

def finishReason (data : Json) : Option String :=
  (((data.key "choices").idx 0).key "finish_reason").asStr

def promptTokens (data : Json) : Option UInt64 := ((data.key "usage").key "prompt_tokens").asU64

def completionTokens (data : Json) : Option UInt64 :=
  ((data.key "usage").key "completion_tokens").asU64

/-- Why and at what cost the message ended, as far as the payloads have said. -/
@[ext] structure Ending where
  stopReason : StopReason
  inputTokens : UInt32
  outputTokens : UInt32

/-- The last value given counts. -/
def Ending.read (e : Ending) (data : Json) : Ending where
  stopReason := ((finishReason data).map parseFinishReason).getD e.stopReason
  inputTokens := ((promptTokens data).map UInt64.toUInt32).getD e.inputTokens
  outputTokens := ((completionTokens data).map UInt64.toUInt32).getD e.outputTokens

/-- The last value a sequence gives. -/
theorem foldl_getD {α β : Type} (f : α → Option β) (l : List α) (b : β) :
    l.foldl (fun b a => (f a).getD b) b = (l.filterMap f).getLast?.getD b := by
  induction l generalizing b with
  | nil => rfl
  | cons a l ih =>
    rw [List.foldl_cons, ih]
    cases h : f a with
    | none => rw [List.filterMap_cons_none h, Option.getD_none]
    | some x =>
      rw [List.filterMap_cons_some h, List.getLast?_cons, Option.getD_some]
      cases (l.filterMap f).getLast? <;> rfl

namespace StreamState

variable (s : StreamState)

def ending : Ending := ⟨s.stopReason, s.usage.inputTokens, s.usage.outputTokens⟩

theorem ending_readFinishReason (data : Json) : (s.readFinishReason data).ending =
    { s.ending with
      stopReason := ((finishReason data).map parseFinishReason).getD s.ending.stopReason } := by
  unfold readFinishReason finishReason
  cases (((data.key "choices").idx 0).key "finish_reason").asStr <;> rfl

theorem ending_readUsage (data : Json) : (s.readUsage data).ending =
    { s.ending with
      inputTokens := ((promptTokens data).map UInt64.toUInt32).getD s.ending.inputTokens
      outputTokens :=
        ((completionTokens data).map UInt64.toUInt32).getD s.ending.outputTokens } := by
  unfold readUsage promptTokens completionTokens
  cases hu : data.get "usage" with
  | none =>
    have hnull : data.key "usage" = .null := by rw [Json.key, hu, Option.getD_none]
    rw [hnull]
    rfl
  | some u =>
    have hkey : data.key "usage" = u := by rw [Json.key, hu, Option.getD_some]
    rw [hkey]
    dsimp only [ending]
    cases (u.key "prompt_tokens").asU64 <;> cases (u.key "completion_tokens").asU64 <;> rfl

theorem ending_readThinking (delta : Json) : (s.readThinking delta).ending = s.ending := by
  unfold readThinking
  split <;> rfl

theorem ending_readText (delta : Json) : (s.readText delta).ending = s.ending := by
  unfold readText
  split <;> rfl

theorem ending_readToolCall (tc : Json) : (s.readToolCall fromStr tc).ending = s.ending := by
  unfold readToolCall startTool readArguments flushTool
  split <;> split <;> first | rfl | (split <;> rfl)

theorem ending_readToolCalls (delta : Json) :
    (s.readToolCalls fromStr delta).ending = s.ending := by
  unfold readToolCalls
  split
  · next tcs h =>
    clear h
    induction tcs generalizing s with
    | nil => rfl
    | cons tc tcs ih => rw [List.foldl_cons, ih, ending_readToolCall]
  · rfl

/-- What a payload does to the ending. -/
theorem ending_readData (data : Json) : (s.readData fromStr data).ending = s.ending.read data := by
  unfold readData
  rw [ending_readToolCalls, ending_readText, ending_readThinking, ending_readUsage,
    ending_readFinishReason]
  rfl

theorem ending_foldl (values : List Json) :
    (values.foldl (readData fromStr) s).ending = values.foldl Ending.read s.ending :=
  (List.foldl_hom ending fun t data => (t.ending_readData data).symm).symm

/-- What a channel makes of a sequence of payloads. -/
theorem ledger_foldl_readData (ch : Channel) (values : List Json) :
    (values.foldl (readData fromStr) s).ledger ch =
      (s.ledger ch).deliver (String.join (values.map fun data => ch.ofDelta (deltaOf data))) := by
  induction values generalizing s with
  | nil => exact (Ledger.deliver_empty _).symm
  | cons data values ih =>
    rw [List.foldl_cons, ih, ledger_readData, Ledger.deliver_deliver, List.map_cons,
      String.join_cons]
    rfl

end StreamState

/-- The last values the payloads give. -/
theorem foldl_read_ending (values : List Json) (e : Ending) : values.foldl Ending.read e = {
    stopReason := ((values.filterMap finishReason).getLast?.map parseFinishReason).getD e.stopReason
    inputTokens :=
      ((values.filterMap promptTokens).getLast?.map UInt64.toUInt32).getD e.inputTokens
    outputTokens :=
      ((values.filterMap completionTokens).getLast?.map UInt64.toUInt32).getD e.outputTokens } := by
  have hlast : ∀ {α β : Type} (f : Json → Option α) (g : α → β) (b : β),
      ((values.filterMap f).getLast?.map g).getD b =
        values.foldl (fun b data => ((f data).map g).getD b) b := by
    intro α β f g b
    rw [foldl_getD, ← List.map_filterMap, List.getLast?_map]
  apply Ending.ext
  · exact (List.foldl_hom Ending.stopReason fun _ _ => rfl).symm.trans (hlast _ _ _).symm
  · exact (List.foldl_hom Ending.inputTokens fun _ _ => rfl).symm.trans (hlast _ _ _).symm
  · exact (List.foldl_hom Ending.outputTokens fun _ _ => rfl).symm.trans (hlast _ _ _).symm

/-! ### What a stream returns -/

/-- A stream that hands over payloads with these values, and then one `[DONE]`. -/
def Streams (fromStr : FromStr) (resp : HttpResponse) (values : List Json) : Prop :=
  ∃ chunks texts, resp.delivers chunks ∧ handedPayloads chunks = texts ++ ["[DONE]"] ∧
    "[DONE]" ∉ texts ∧ values = texts.map (payloadJson fromStr)

/-- The state before `[DONE]`. -/
def accumulated (fromStr : FromStr) (values : List Json) : StreamState :=
  values.foldl (StreamState.readData fromStr) {}

section Streams

variable {resp : HttpResponse} {values : List Json}

theorem completeStream_of_streams (h : Streams fromStr resp values) :
    completeStream fromStr (.ok resp) = (.ok ((accumulated fromStr values).finish fromStr).response,
      ((accumulated fromStr values).finish fromStr).sent) := by
  obtain ⟨chunks, texts, hd, hp, hdone, rfl⟩ := h
  have hfinish : ∀ s : StreamState, s.readPayload fromStr "[DONE]" = s.finish fromStr :=
    fun _ => rfl
  rw [completeStream_of_delivers hd, streamed_eq_foldl, hp, List.foldl_append,
    foldl_readPayload_eq hdone, List.foldl_cons, List.foldl_nil, hfinish]
  rfl

/-- Payloads and `[DONE]` in one chunk. -/
def streamOf (texts : List String) : HttpResponse where
  status := 200
  chunks := [.ok (Utf8.encode (SseParser.wire (texts ++ ["[DONE]"])))]

theorem streams_streamOf {texts : List String} (hline : ∀ t ∈ texts, '\n' ∉ t.toList)
    (hdone : "[DONE]" ∉ texts) :
    Streams fromStr (streamOf texts) (texts.map (payloadJson fromStr)) := by
  refine ⟨[_], texts, ⟨rfl, rfl⟩, handedPayloads_wire hline hdone ?_, hdone, rfl⟩
  rw [List.map_singleton, Utf8.decodeLossy_encode, List.flatten_singleton]

variable (fromStr values)

/-- The calls of a sequence of payloads, put in blocks and open. -/
theorem blocks_accumulated : (accumulated fromStr values).contentBlocks ++
    (accumulated fromStr values).openTool fromStr =
      callBlocks fromStr (strayArguments values) (startedCalls values) := by
  have hstart := blocks_foldl_signal fromStr ⟨[], ⟨"", "", ""⟩, []⟩
    (toolSignals values)
  have htools : (accumulated fromStr values).tools = _ := StreamState.tools_foldl {} values
  have hempty : ({} : StreamState).tools = ⟨[], ⟨"", "", ""⟩, []⟩ := rfl
  rw [hempty] at htools
  rw [← htools, callBlocks, if_pos rfl, String.empty_append, String.empty_append] at hstart
  exact hstart

theorem signals_accumulated :
    (accumulated fromStr values).sent.filterMap ToolSignal.ofEvent = toolSignals values := by
  have hsent := sent_foldl_signal fromStr ({} : StreamState).tools (toolSignals values)
  rw [← StreamState.tools_foldl] at hsent
  exact hsent

theorem currentToolId_accumulated : (accumulated fromStr values).currentToolId =
    ((startedCalls values).getLast?.map ToolCall.id).getD "" := by
  have hcall := call_foldl_signal fromStr ({} : StreamState).tools (toolSignals values)
  rw [← StreamState.tools_foldl] at hcall
  exact hcall

/-- What a channel has sent before `[DONE]` is kept. -/
theorem ledger_accumulated (ch : Channel) : (accumulated fromStr values).ledger ch = {
    sent := String.join (values.map fun data => ch.ofDelta (deltaOf data))
    blocks := ""
    kept := String.join (values.map fun data => ch.ofDelta (deltaOf data)) } := by
  have hledger : (accumulated fromStr values).ledger ch = _ :=
    StreamState.ledger_foldl_readData {} ch values
  have hempty : ({} : StreamState).ledger ch = ⟨"", "", ""⟩ := by cases ch <;> rfl
  rw [hledger, hempty, Ledger.deliver, String.empty_append]

/-- What a channel keeps until `[DONE]`. -/
theorem kept_accumulated (ch : Channel) : ch.kept (accumulated fromStr values) =
    String.join (values.map fun data => ch.ofDelta (deltaOf data)) :=
  congrArg Ledger.kept (ledger_accumulated fromStr values ch)

end Streams

/-! ### What the payloads say -/

/-- What a sequence of payloads says. -/
structure Summary where
  reasoning : String
  content : String
  toolCalls : List ToolCall
  finishReason : Option String
  promptTokens : Option UInt64
  completionTokens : Option UInt64

def summary (values : List Json) : Summary where
  reasoning := String.join (values.map fun data => Channel.thinking.ofDelta (deltaOf data))
  content := String.join (values.map fun data => Channel.text.ofDelta (deltaOf data))
  toolCalls := startedCalls values
  finishReason := (values.filterMap finishReason).getLast?
  promptTokens := (values.filterMap promptTokens).getLast?
  completionTokens := (values.filterMap completionTokens).getLast?

/-- Every call has an id, and no arguments arrive before the first one. -/
def InOrder (values : List Json) : Prop :=
  strayArguments values = "" ∧ ∀ tc ∈ startedCalls values, tc.id ≠ ""

/-- The response of a summary: all tool calls but the last come first. -/
def Summary.response (fromStr : FromStr) (m : Summary) : CompletionResponse where
  content := m.toolCalls.dropLast.map (ToolCall.block fromStr) ++
    (proseBlock .thinking (some m.reasoning) ++ proseBlock .text (some m.content)) ++
    m.toolCalls.getLast?.toList.map (ToolCall.block fromStr)
  stopReason := (m.finishReason.map parseFinishReason).getD .endTurn
  usage := {
    inputTokens := (m.promptTokens.map UInt64.toUInt32).getD 0
    outputTokens := (m.completionTokens.map UInt64.toUInt32).getD 0 }

section InOrder

variable {values : List Json}

variable (fromStr) in
/-- All calls but the last are in blocks, and the last is open. -/
theorem blocks_of_inOrder (h : InOrder values) :
    (accumulated fromStr values).contentBlocks =
      (summary values).toolCalls.dropLast.map (ToolCall.block fromStr) ∧
    (accumulated fromStr values).openTool fromStr =
      (summary values).toolCalls.getLast?.toList.map (ToolCall.block fromStr) := by
  have hblocks := blocks_accumulated fromStr values
  have hid := currentToolId_accumulated fromStr values
  rw [h.1, callBlocks_eq_map h.2] at hblocks
  have hmem := h.2
  unfold summary StreamState.openTool at *
  generalize startedCalls values = tcs at hblocks hid hmem
  obtain rfl | ⟨init, last, rfl⟩ := tcs.eq_nil_or_concat
  · obtain ⟨hb, ho⟩ := List.append_eq_nil_iff.mp hblocks
    exact ⟨hb, ho⟩
  · rw [List.concat_eq_append] at *
    rw [List.getLast?_concat, Option.map_some, Option.getD_some] at hid
    -- the last call has an id, so it is still open
    have hlast : last.id ≠ "" := hmem last (List.mem_append_right init List.mem_cons_self)
    rw [if_neg (hid ▸ hlast), List.map_append, List.map_singleton] at hblocks
    obtain ⟨hb, ho⟩ := List.append_inj' hblocks rfl
    rw [if_neg (hid ▸ hlast), hb, ho, List.dropLast_concat, List.getLast?_concat]
    exact ⟨rfl, rfl⟩

theorem response_of_inOrder (h : InOrder values) :
    ((accumulated fromStr values).finish fromStr).response = (summary values).response fromStr := by
  obtain ⟨hblocks, hopen⟩ := blocks_of_inOrder fromStr h
  have hthinking : (accumulated fromStr values).currentThinking = (summary values).reasoning :=
    kept_accumulated fromStr values .thinking
  have htext : (accumulated fromStr values).currentText = (summary values).content :=
    kept_accumulated fromStr values .text
  have hending : (accumulated fromStr values).ending = _ :=
    (StreamState.ending_foldl {} values).trans (foldl_read_ending values _)
  have hstop : (accumulated fromStr values).stopReason = _ := congrArg Ending.stopReason hending
  have husage : (accumulated fromStr values).usage = ⟨_, _⟩ :=
    congrArg₂ Usage.mk (congrArg Ending.inputTokens hending) (congrArg Ending.outputTokens hending)
  rw [AssistantMessage.response_finish, hblocks, hopen, hthinking, htext, hstop, husage]
  rfl

end InOrder

/-- However the strings are cut into deltas, however reasoning, text and tool calls are
interleaved and grouped into payloads: streams that say the same return the same. -/
theorem fragmentation_irrelevant {resp resp' : HttpResponse} {values values' : List Json}
    (h : Streams fromStr resp values) (h' : Streams fromStr resp' values')
    (ho : InOrder values) (ho' : InOrder values') (heq : summary values = summary values') :
    ∃ r, (completeStream fromStr (.ok resp)).1 = .ok r ∧
      (completeStream fromStr (.ok resp')).1 = .ok r := by
  refine ⟨(summary values).response fromStr, ?_, ?_⟩
  · rw [completeStream_of_streams h, response_of_inOrder ho]
  · rw [completeStream_of_streams h', response_of_inOrder ho', heq]

/-! ### One message in two streams -/

/-- A JSON reader of the given texts. -/
def tableFromStr (table : List (String × Json)) : FromStr := fun s =>
  match table.lookup s with
  | some v => .ok v
  | none => .error "expected value"

/-- A payload of one text delta. -/
def textPayload (t : String) : String × Json :=
  ("\x7b\"choices\":[\x7b\"delta\":\x7b\"content\":\"" ++ t ++ "\"\x7d\x7d]\x7d",
    deltaJson [("content", .str t)])

/-- The index of the first or of the second call. -/
def indexMember (second : Bool) : String × Json :=
  (if second then "\"index\":1" else "\"index\":0",
    .num (.posInt (if second then 1 else 0)))

/-- A payload that starts a call of the clock. -/
def startPayload (second : Bool) (id arguments : String) : String × Json :=
  ("\x7b\"choices\":[\x7b\"delta\":\x7b\"tool_calls\":[\x7b" ++ (indexMember second).1 ++
      ",\"id\":\"" ++ id ++ "\",\"function\":\x7b\"name\":\"now\",\"arguments\":\"" ++
      arguments ++ "\"\x7d\x7d]\x7d\x7d]\x7d",
    deltaJson [("tool_calls", .arr [.obj [("index", (indexMember second).2), ("id", .str id),
      ("function", .obj [("name", .str "now"), ("arguments", .str arguments)])]])])

/-- A payload of one fragment of arguments. -/
def argumentsPayload (second : Bool) (arguments : String) : String × Json :=
  ("\x7b\"choices\":[\x7b\"delta\":\x7b\"tool_calls\":[\x7b" ++ (indexMember second).1 ++
      ",\"function\":\x7b\"arguments\":\"" ++ arguments ++ "\"\x7d\x7d]\x7d\x7d]\x7d",
    deltaJson [("tool_calls", .arr [.obj [("index", (indexMember second).2),
      ("function", .obj [("arguments", .str arguments)])]])])

theorem oneLine_textPayload {t : String} (h : '\n' ∉ t.toList) : '\n' ∉ (textPayload t).1.toList :=
  oneLine_append (oneLine_append (by decide) h) (by decide)

theorem oneLine_startPayload (second : Bool) {id arguments : String} (hid : '\n' ∉ id.toList)
    (h : '\n' ∉ arguments.toList) : '\n' ∉ (startPayload second id arguments).1.toList := by
  have hindex : '\n' ∉ (indexMember second).1.toList := by cases second <;> decide
  exact oneLine_append (oneLine_append (oneLine_append (oneLine_append (oneLine_append
    (oneLine_append (by decide) hindex) (by decide)) hid) (by decide)) h) (by decide)

theorem oneLine_argumentsPayload (second : Bool) {arguments : String}
    (h : '\n' ∉ arguments.toList) : '\n' ∉ (argumentsPayload second arguments).1.toList := by
  have hindex : '\n' ∉ (indexMember second).1.toList := by cases second <;> decide
  exact oneLine_append (oneLine_append (oneLine_append (oneLine_append (by decide) hindex)
    (by decide)) h) (by decide)

/-- A text and a call, in one delta each. -/
def wholePayloads : List (String × Json) :=
  [textPayload "Let me see.", startPayload false "a" "12"]

/-- The same, where the call starts between two pieces of the text. -/
def piecePayloads : List (String × Json) :=
  [textPayload "Let me", startPayload false "a" "1", textPayload " see.",
    argumentsPayload false "2"]

theorem oneLine_wholePayloads : ∀ t ∈ wholePayloads.map Prod.fst, '\n' ∉ t.toList := by
  simp only [wholePayloads, List.map_cons, List.map_nil, List.forall_mem_cons]
  exact ⟨oneLine_textPayload (by decide), oneLine_startPayload _ (by decide) (by decide),
    List.forall_mem_nil _⟩

theorem oneLine_piecePayloads : ∀ t ∈ piecePayloads.map Prod.fst, '\n' ∉ t.toList := by
  simp only [piecePayloads, List.map_cons, List.map_nil, List.forall_mem_cons]
  exact ⟨oneLine_textPayload (by decide), oneLine_startPayload _ (by decide) (by decide),
    oneLine_textPayload (by decide), oneLine_argumentsPayload _ (by decide), List.forall_mem_nil _⟩

def pieceFromStr : FromStr :=
  tableFromStr (wholePayloads ++ piecePayloads ++ [("12", .num (.posInt 12))])

theorem streams_whole : Streams pieceFromStr (streamOf (wholePayloads.map Prod.fst))
    (wholePayloads.map Prod.snd) := streams_streamOf oneLine_wholePayloads (by decide)

theorem streams_pieces : Streams pieceFromStr (streamOf (piecePayloads.map Prod.fst))
    (piecePayloads.map Prod.snd) := streams_streamOf oneLine_piecePayloads (by decide)

/-- The message in two payloads and in four. -/
theorem fragmentation_irrelevant_pieces :
    (completeStream pieceFromStr (.ok (streamOf (wholePayloads.map Prod.fst)))).1 =
      (completeStream pieceFromStr (.ok (streamOf (piecePayloads.map Prod.fst)))).1 := by
  obtain ⟨r, hwhole, hpieces⟩ := fragmentation_irrelevant streams_whole streams_pieces
    ⟨rfl, by decide⟩ ⟨rfl, by decide⟩ rfl
  exact hwhole.trans hpieces.symm

end Animus
