import Animus.Llm.Chunking
import Mathlib.Data.List.Induction

/-!
# Streaming and non-streaming

One assistant message, read from the body of a response and from a stream. The
stream keeps text and reasoning until `[DONE]` but puts a tool call into the
response when the next one starts, so with two calls or more the first ones
come before the text.

## Main definitions

- `StreamState.openTool`: the tool call that is being read
- `AssistantMessage.prose`: the thinking and text blocks of a message

## Main results

- `parseResponseBody_body`, `streamed_payloads`: what each decoder returns
- `stream_agrees_iff`
- `stream_disagrees`: a message with text and two tool calls
-/

namespace Animus

variable {fromStr : FromStr}

/-- The block of a tool call. -/
def ToolCall.block (fromStr : FromStr) (tc : ToolCall) : ContentBlock :=
  .toolUse tc.id tc.name (parseInput fromStr tc.arguments)

/-- The thinking and text blocks of a message. -/
def AssistantMessage.prose (m : AssistantMessage) : List ContentBlock :=
  proseBlock .thinking m.reasoning ++ proseBlock .text m.content

/-- The response of a message with the given blocks. -/
def AssistantMessage.response (m : AssistantMessage) (content : List ContentBlock) :
    CompletionResponse where
  content := content
  stopReason := parseFinishReason m.finishReason
  usage := ⟨m.promptTokens.toUInt32, m.completionTokens.toUInt32⟩

/-! ### The body -/

theorem asStr_textJson (t : Option String) : (AssistantMessage.textJson t).asStr = t := by
  cases t <;> rfl

theorem parseResponseBody_body (m : AssistantMessage) : parseResponseBody fromStr m.body =
    .ok (m.response (m.prose ++ m.toolCalls.map (ToolCall.block fromStr))) := by
  have hcalls : (m.toolCalls.map ToolCall.json).map (parseToolCall fromStr) =
      m.toolCalls.map (ToolCall.block fromStr) := by
    rw [List.map_map]
    rfl
  rw [← hcalls, AssistantMessage.prose, ← asStr_textJson m.reasoning, ← asStr_textJson m.content]
  rfl

/-! ### The stream -/

namespace StreamState

/-- The tool call that is being read. -/
def openTool (fromStr : FromStr) (s : StreamState) : List ContentBlock :=
  if s.currentToolId = "" then []
  else [.toolUse s.currentToolId s.currentToolName (parseInput fromStr s.currentToolArgs)]

/-- No arguments are kept without a tool call they belong to. -/
def Clean (s : StreamState) : Prop := s.currentToolId = "" → s.currentToolArgs = ""

/-- The state once a tool call is read whole. -/
def withTool (fromStr : FromStr) (s : StreamState) (tc : ToolCall) : StreamState :=
  { s with
    contentBlocks := s.contentBlocks ++ s.openTool fromStr
    currentToolId := tc.id
    currentToolName := tc.name
    currentToolArgs := tc.arguments
    sent := s.sent ++ [.toolStart tc.id tc.name, .toolInputDelta tc.id tc.arguments] }

theorem flushTool_with {s : StreamState} (h : s.Clean) (id name : String) :
    { s.flushTool fromStr with currentToolId := id, currentToolName := name } =
      { s with
        contentBlocks := s.contentBlocks ++ s.openTool fromStr
        currentToolId := id
        currentToolName := name
        currentToolArgs := "" } := by
  unfold flushTool openTool
  split
  · next hid => rw [List.append_nil, ← h hid]
  · rfl

theorem readData_tool {s : StreamState} (h : s.Clean) (tc : ToolCall) :
    s.readData fromStr (deltaJson [("tool_calls", .arr [tc.json])]) = s.withTool fromStr tc := by
  have hread : s.readData fromStr (deltaJson [("tool_calls", .arr [tc.json])]) =
      ({ s.flushTool fromStr with currentToolId := tc.id, currentToolName := tc.name }.send
        (.toolStart tc.id tc.name)).readArguments tc.json := rfl
  have hargs : (((tc.json.key "function").key "arguments").asStr) = some tc.arguments := rfl
  rw [hread, flushTool_with h, readArguments, hargs]
  simp [send, withTool]

variable (fromStr) in
/-- All tool calls but the last are in the response, and the last is open. -/
theorem foldl_tools {s : StreamState} (h : s.Clean) (init : List ToolCall) (last : ToolCall)
    (hid : ∀ tc ∈ init, tc.id ≠ "") :
    ∃ sent, ((init ++ [last]).map fun tc => deltaJson [("tool_calls", .arr [tc.json])]).foldl
      (readData fromStr) s =
        { s with
          contentBlocks := s.contentBlocks ++ s.openTool fromStr ++
            init.map (ToolCall.block fromStr)
          currentToolId := last.id
          currentToolName := last.name
          currentToolArgs := last.arguments
          sent := sent } := by
  -- each delta flushes the call before it, so the induction is on the calls in front of the last
  induction init using List.reverseRecOn generalizing last with
  | nil =>
    refine ⟨s.sent ++ [.toolStart last.id last.name, .toolInputDelta last.id last.arguments], ?_⟩
    rw [List.map_nil, List.append_nil]
    exact readData_tool h last
  | append_singleton init tc ih =>
    obtain ⟨sent, hinit⟩ := ih tc fun x hx => hid x (List.mem_append_left [tc] hx)
    have htc : tc.id ≠ "" := hid tc (List.mem_append_right init List.mem_cons_self)
    rw [List.map_append, List.foldl_append, hinit, List.map_singleton, List.foldl_cons,
      List.foldl_nil, readData_tool fun hempty => absurd hempty htc]
    refine ⟨sent ++ [.toolStart last.id last.name, .toolInputDelta last.id last.arguments], ?_⟩
    simp [withTool, openTool, htc, ToolCall.block]

theorem contentBlocks_finish (s : StreamState) : (s.finish fromStr).contentBlocks =
    s.contentBlocks ++ (proseBlock .thinking (some s.currentThinking) ++
      proseBlock .text (some s.currentText)) ++ s.openTool fromStr := by
  have htool : ∀ t : StreamState, (t.flushTool fromStr).contentBlocks =
      t.contentBlocks ++ t.openTool fromStr := by
    intro t
    unfold flushTool openTool
    split
    · rw [List.append_nil]
    · rfl
  have hopen : (s.flushThinking.flushText).openTool fromStr = s.openTool fromStr := by
    unfold flushText flushThinking
    split <;> split <;> rfl
  have hprose : (s.flushThinking.flushText).contentBlocks =
      s.contentBlocks ++ (proseBlock .thinking (some s.currentThinking) ++
        proseBlock .text (some s.currentText)) := by
    unfold flushText flushThinking proseBlock
    by_cases ht : s.currentThinking = "" <;> by_cases hx : s.currentText = "" <;> simp [ht, hx]
  rw [finish, send, htool, hopen, hprose]

variable (fromStr) in
theorem stopReason_finish (s : StreamState) :
    (s.finish fromStr).stopReason = s.stopReason ∧ (s.finish fromStr).usage = s.usage := by
  unfold finish flushTool flushText flushThinking
  split <;> split <;> split <;> exact ⟨rfl, rfl⟩

end StreamState

/-- The value of a payload; one that is not JSON is skipped, as `null` is. -/
def payloadJson (fromStr : FromStr) (payload : String) : Json :=
  match fromStr payload with
  | .ok data => data
  | .error _ => .null

theorem readPayload_eq {payload : String} (h : payload ≠ "[DONE]") (s : StreamState) :
    s.readPayload fromStr payload = s.readData fromStr (payloadJson fromStr payload) := by
  unfold StreamState.readPayload StreamState.readEvent payloadJson
  rw [if_neg h]
  cases fromStr payload <;> rfl

theorem foldl_readPayload_eq {texts : List String} (h : "[DONE]" ∉ texts) (s : StreamState) :
    texts.foldl (StreamState.readPayload fromStr) s =
      (texts.map (payloadJson fromStr)).foldl (StreamState.readData fromStr) s := by
  induction texts generalizing s with
  | nil => rfl
  | cons t texts ih =>
    rw [List.foldl_cons, List.map_cons, List.foldl_cons,
      readPayload_eq fun ht => h (ht ▸ List.mem_cons_self)]
    exact ih (fun hmem => h (List.mem_cons_of_mem t hmem)) _

theorem Serializes.map_payloadJson {texts : List String} {values : List Json}
    (h : Serializes fromStr texts values) : texts.map (payloadJson fromStr) = values := by
  have hread := congrArg (List.map fun r => r.toOption.getD .null) h.read
  rw [List.map_map, List.map_map] at hread
  have hvalues : ((fun r : Except String Json => r.toOption.getD .null) ∘ .ok) = id := rfl
  rw [hvalues, List.map_id] at hread
  rw [← hread]
  refine List.map_congr_left fun t _ => ?_
  simp only [payloadJson, Function.comp]
  cases fromStr t <;> rfl

/-- Payloads that are JSON are read as their values. -/
theorem foldl_readPayload {texts : List String} {values : List Json}
    (h : Serializes fromStr texts values) (s : StreamState) :
    texts.foldl (StreamState.readPayload fromStr) s =
      values.foldl (StreamState.readData fromStr) s := by
  rw [foldl_readPayload_eq h.notDone, h.map_payloadJson]

namespace AssistantMessage

variable (m : AssistantMessage)

/-- The payloads of reasoning and content. -/
def proseJson : List Json :=
  m.reasoning.toList.map (fun t => deltaJson [("reasoning_content", .str t)]) ++
    m.content.toList.map (fun t => deltaJson [("content", .str t)])

variable (fromStr) in
theorem foldl_prose : ∃ sent, m.proseJson.foldl (StreamState.readData fromStr) {} =
    { currentThinking := m.reasoning.getD "", currentText := m.content.getD "", sent := sent } := by
  have hthinking : ∀ (s : StreamState) t, s.readData fromStr
      (deltaJson [("reasoning_content", .str t)]) =
        { s with currentThinking := s.currentThinking ++ t }.send (.thinkingDelta t) :=
    fun _ _ => rfl
  have htext : ∀ (s : StreamState) t, s.readData fromStr (deltaJson [("content", .str t)]) =
      { s with currentText := s.currentText ++ t }.send (.textDelta t) := fun _ _ => rfl
  unfold proseJson
  cases m.reasoning <;> cases m.content <;> simp [hthinking, htext, StreamState.send]

theorem proseBlock_getD (block : String → ContentBlock) (t : Option String) :
    proseBlock block (some (t.getD "")) = proseBlock block t := by
  cases t <;> rfl

theorem readData_last (s : StreamState) : s.readData fromStr m.lastJson =
    { s with
      stopReason := parseFinishReason m.finishReason
      usage := ⟨m.promptTokens.toUInt32, m.completionTokens.toUInt32⟩ } := rfl

/-- The blocks as the stream returns them: all tool calls but the last come first. -/
def streamedBlocks (fromStr : FromStr) : List ContentBlock :=
  m.toolCalls.dropLast.map (ToolCall.block fromStr) ++ m.prose ++
    m.toolCalls.getLast?.toList.map (ToolCall.block fromStr)

theorem response_finish (s : StreamState) : (s.finish fromStr).response =
    ⟨s.contentBlocks ++ (proseBlock .thinking (some s.currentThinking) ++
      proseBlock .text (some s.currentText)) ++ s.openTool fromStr, s.stopReason, s.usage⟩ := by
  obtain ⟨hstop, husage⟩ := s.stopReason_finish fromStr
  rw [StreamState.response, StreamState.contentBlocks_finish, hstop, husage]

theorem response_payloads (hid : ∀ tc ∈ m.toolCalls, tc.id ≠ "") :
    ((m.payloads.foldl (StreamState.readData fromStr) {}).finish fromStr).response =
      m.response (m.streamedBlocks fromStr) := by
  obtain ⟨sent, hprose⟩ := m.foldl_prose fromStr
  have hsplit : m.payloads.foldl (StreamState.readData fromStr) {} =
      ((m.toolCalls.map fun tc => deltaJson [("tool_calls", .arr [tc.json])]).foldl
        (StreamState.readData fromStr)
        (m.proseJson.foldl (StreamState.readData fromStr) {})).readData
          fromStr m.lastJson := by
    rw [payloads, ← proseJson, List.foldl_append, List.foldl_append]
    rfl
  rw [hsplit, hprose, readData_last, response_finish]
  obtain hnil | ⟨init, last, hcalls⟩ := m.toolCalls.eq_nil_or_concat
  · rw [hnil, streamedBlocks, hnil]
    simp [response, prose, proseBlock_getD, StreamState.openTool]
  · rw [List.concat_eq_append] at hcalls
    rw [hcalls] at hid
    have hlast : last.id ≠ "" := hid last (List.mem_append_right init List.mem_cons_self)
    obtain ⟨sent', htools⟩ := StreamState.foldl_tools fromStr
      (s := { currentThinking := m.reasoning.getD "", currentText := m.content.getD "",
              sent := sent })
      (fun _ => rfl) init last fun tc htc => hid tc (List.mem_append_left [last] htc)
    rw [hcalls, htools, streamedBlocks, hcalls]
    simp [response, prose, proseBlock_getD, StreamState.openTool, hlast, ToolCall.block]

/-! ### Where the two agree -/

theorem prose_eq_nil_iff : m.prose = [] ↔ m.reasoning.getD "" = "" ∧ m.content.getD "" = "" := by
  have hblock : ∀ (block : String → ContentBlock) t, proseBlock block t = [] ↔ t.getD "" = "" := by
    intro block t
    rw [← proseBlock_getD, proseBlock]
    split <;> simp_all
  rw [prose, List.append_eq_nil_iff, hblock, hblock]

theorem mem_proseBlock {block : String → ContentBlock} {t : Option String} {b : ContentBlock}
    (h : b ∈ proseBlock block t) : ∃ x, b = block x := by
  unfold proseBlock at h
  split at h
  · split at h
    · cases h
    · exact ⟨_, List.mem_singleton.mp h⟩
  · cases h

theorem isToolUse_prose {b : ContentBlock} (h : b ∈ m.prose) : b.isToolUse = false := by
  rcases List.mem_append.mp h with h | h <;> obtain ⟨x, rfl⟩ := mem_proseBlock h <;> rfl

/-- Text in front of the calls and text before the last call are the same place for one call, and
for no text. -/
theorem streamedBlocks_eq_iff : m.streamedBlocks fromStr =
    m.prose ++ m.toolCalls.map (ToolCall.block fromStr) ↔
      m.toolCalls.length ≤ 1 ∨ m.prose = [] := by
  obtain hnil | ⟨init, last, hcalls⟩ := m.toolCalls.eq_nil_or_concat
  · simp [streamedBlocks, hnil]
  · rw [List.concat_eq_append] at hcalls
    have hblocks : m.streamedBlocks fromStr = init.map (ToolCall.block fromStr) ++ m.prose ++
        [last.block fromStr] := by
      simp [streamedBlocks, hcalls]
    rw [hblocks, hcalls, List.map_append, ← List.append_assoc, List.map_singleton,
      List.append_left_inj]
    cases init with
    | nil => simp
    | cons tc init =>
      cases hp : m.prose with
      | nil => simp
      -- two calls and prose: the stream puts a call first, the body the prose
      | cons b prose =>
        refine iff_of_false (fun heq => ?_) (by simp)
        have hb : b.isToolUse = false := m.isToolUse_prose (hp ▸ List.mem_cons_self)
        have hhead : tc.block fromStr = b := (List.cons.inj heq).1
        rw [← hhead] at hb
        cases hb

end AssistantMessage

/-- What the stream of a message returns, however it is cut between characters. -/
theorem completeStream_message {m : AssistantMessage} {texts : List String} {resp : HttpResponse}
    {chunks : List (List UInt8)} (hid : ∀ tc ∈ m.toolCalls, tc.id ≠ "")
    (hser : Serializes fromStr texts m.payloads) (h : resp.delivers chunks)
    (hwire : (chunks.map Utf8.decodeLossy).flatten = SseParser.wire (texts ++ ["[DONE]"])) :
    (completeStream fromStr (.ok resp)).1 = .ok (m.response (m.streamedBlocks fromStr)) := by
  have hfinish : ∀ s : StreamState, s.readPayload fromStr "[DONE]" = s.finish fromStr :=
    fun _ => rfl
  rw [completeStream_of_delivers h, streamed_eq_foldl,
    handedPayloads_wire hser.oneLine hser.notDone hwire, List.foldl_append,
    foldl_readPayload hser, List.foldl_cons, List.foldl_nil, hfinish, m.response_payloads hid]

/-- The stream of a message and its one-shot body give the same response exactly when the message
has at most one tool call, or neither reasoning nor text. -/
theorem stream_agrees_iff {m : AssistantMessage} {texts : List String} {resp : HttpResponse}
    {chunks : List (List UInt8)} (hid : ∀ tc ∈ m.toolCalls, tc.id ≠ "")
    (hser : Serializes fromStr texts m.payloads) (h : resp.delivers chunks)
    (hwire : (chunks.map Utf8.decodeLossy).flatten = SseParser.wire (texts ++ ["[DONE]"])) :
    (completeStream fromStr (.ok resp)).1 = parseResponseBody fromStr m.body ↔
      m.toolCalls.length ≤ 1 ∨ (m.reasoning.getD "" = "" ∧ m.content.getD "" = "") := by
  rw [completeStream_message hid hser h hwire, parseResponseBody_body, ← m.prose_eq_nil_iff,
    ← m.streamedBlocks_eq_iff]
  constructor
  · intro heq
    exact congrArg CompletionResponse.content (Except.ok.inj heq)
  · intro heq
    rw [heq]

/-! ### A message with text and tool calls -/

/-- A call without arguments. -/
def sampleCall (id : String) : ToolCall := ⟨id, "now", "\x7b\x7d"⟩

/-- A text, and calls of the clock. -/
def sample (ids : List String) : AssistantMessage where
  reasoning := none
  content := some "Let me check."
  toolCalls := ids.map sampleCall
  finishReason := "tool_calls"
  promptTokens := 5
  completionTokens := 7

/-- The payload of a call. -/
def sampleCallText (id : String) : String :=
  "\x7b\"choices\":[\x7b\"delta\":\x7b\"tool_calls\":[\x7b\"id\":\"" ++ id ++
    "\",\"type\":\"function\",\"function\":\x7b\"name\":\"now\"," ++
    "\"arguments\":\"\x7b\x7d\"\x7d\x7d]\x7d\x7d]\x7d"

def sampleTexts (ids : List String) : List String :=
  ["\x7b\"choices\":[\x7b\"delta\":\x7b\"content\":\"Let me check.\"\x7d\x7d]\x7d"] ++
    ids.map sampleCallText ++
    ["\x7b\"choices\":[\x7b\"delta\":\x7b\x7d,\"finish_reason\":\"tool_calls\"\x7d]," ++
      "\"usage\":\x7b\"prompt_tokens\":5,\"completion_tokens\":7\x7d\x7d"]

theorem oneLine_sampleTexts {ids : List String} (h : ∀ id ∈ ids, '\n' ∉ id.toList) :
    ∀ t ∈ sampleTexts ids, '\n' ∉ t.toList := by
  intro t ht
  simp only [sampleTexts, List.mem_append, List.mem_singleton, List.mem_map] at ht
  obtain (rfl | ⟨id, hid, rfl⟩) | rfl := ht
  · decide
  · exact oneLine_append (oneLine_append (oneLine_append (by decide) (h id hid)) (by decide))
      (by decide)
  · exact oneLine_append (by decide) (by decide)

/-- A JSON reader of these payloads and of empty arguments. -/
def sampleFromStr (ids : List String) : FromStr := fun s =>
  match ((sampleTexts ids).zip (sample ids).payloads ++ [("\x7b\x7d", Json.obj [])]).lookup s with
  | some v => .ok v
  | none => .error "expected value"

def sampleResponse (ids : List String) : HttpResponse where
  status := 200
  chunks := [.ok (Utf8.encode (SseParser.wire (sampleTexts ids ++ ["[DONE]"])))]

theorem sample_wire (ids : List String) :
    ([Utf8.encode (SseParser.wire (sampleTexts ids ++ ["[DONE]"]))].map Utf8.decodeLossy).flatten =
      SseParser.wire (sampleTexts ids ++ ["[DONE]"]) := by
  rw [List.map_singleton, Utf8.decodeLossy_encode, List.flatten_singleton]

/-- One call after a text. -/
theorem stream_agrees_iff_one_call :
    (completeStream (sampleFromStr ["a"]) (.ok (sampleResponse ["a"]))).1 =
      parseResponseBody (sampleFromStr ["a"]) (sample ["a"]).body ↔
    (sample ["a"]).toolCalls.length ≤ 1 ∨ ("" = "" ∧ "Let me check." = "") :=
  stream_agrees_iff (m := sample ["a"]) (by decide)
    ⟨rfl, oneLine_sampleTexts (by decide), by decide⟩ ⟨rfl, rfl⟩ (sample_wire ["a"])

/-- Two calls after a text: the first of them comes before the text. -/
theorem stream_disagrees :
    ¬ ∀ fromStr (m : AssistantMessage) texts resp chunks, (∀ tc ∈ m.toolCalls, tc.id ≠ "") →
      Serializes fromStr texts m.payloads → HttpResponse.delivers resp chunks →
      (chunks.map Utf8.decodeLossy).flatten = SseParser.wire (texts ++ ["[DONE]"]) →
      (completeStream fromStr (.ok resp)).1 = parseResponseBody fromStr m.body := by
  intro h
  have hser : Serializes (sampleFromStr ["a", "b"]) (sampleTexts ["a", "b"])
      (sample ["a", "b"]).payloads := ⟨rfl, oneLine_sampleTexts (by decide), by decide⟩
  have heq := h _ (sample ["a", "b"]) _ (sampleResponse ["a", "b"]) _ (by decide) hser ⟨rfl, rfl⟩
    (sample_wire _)
  rw [completeStream_message (by decide) hser ⟨rfl, rfl⟩ (sample_wire _), parseResponseBody_body]
    at heq
  have hblocks := (sample ["a", "b"]).streamedBlocks_eq_iff.mp
    (congrArg CompletionResponse.content (Except.ok.inj heq))
  rw [AssistantMessage.prose_eq_nil_iff] at hblocks
  revert hblocks
  decide

end Animus
