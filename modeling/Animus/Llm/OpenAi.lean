import Animus.Lib.Utf8
import Animus.Llm.Sse
import Animus.Llm.Types
import Mathlib.Algebra.Group.Nat.Defs

/-!
# OpenAI Chat Completions client

A response body and a stream of chunks, read back into a `CompletionResponse`.
`fromStr` stands for `serde_json::from_str`.

## Main definitions

- `parseResponseBody`: the one-shot response
- `StreamState`: what the streaming loop accumulates
- `completeStream`: the streaming call

## Main results

- `completeStream_of_delivers`: a run as a fold over the events it handles
-/

namespace Animus

/-- `serde_json::from_str`. -/
abbrev FromStr := String → Except String Json

/-- Map a finish reason to a stop reason. -/
def parseFinishReason (reason : String) : StopReason :=
  match reason with
  | "stop" => .endTurn
  | "length" => .maxTokens
  | "tool_calls" => .toolUse
  | other => .other other

/-- The arguments of a tool call, `{}` where they are not JSON. -/
def parseInput (fromStr : FromStr) (args : String) : Json :=
  match fromStr args with
  | .ok input => input
  | .error _ => .obj []

/-- A tool call of a finished message. -/
def parseToolCall (fromStr : FromStr) (tc : Json) : ContentBlock :=
  .toolUse ((tc.key "id").asStr.getD "") (((tc.key "function").key "name").asStr.getD "")
    (parseInput fromStr (((tc.key "function").key "arguments").asStr.getD "\x7b\x7d"))

/-- A block, unless its text is missing or empty. -/
def proseBlock (block : String → ContentBlock) (text : Option String) : List ContentBlock :=
  match text with
  | some t => if t = "" then [] else [block t]
  | none => []

/-- Parse a Chat Completions JSON response. -/
def parseResponseBody (fromStr : FromStr) (json : Json) : Except LlmError CompletionResponse :=
  match (json.key "choices").getIdx 0 with
  | none => .error (.stream "No choices in response")
  | some choice =>
    let message := choice.key "message"
    let calls := ((message.key "tool_calls").asArray.getD []).map (parseToolCall fromStr)
    .ok {
      content := proseBlock .thinking (message.key "reasoning_content").asStr ++
        proseBlock .text (message.key "content").asStr ++ calls
      stopReason := parseFinishReason ((choice.key "finish_reason").asStr.getD "stop")
      usage := {
        inputTokens := (((json.key "usage").key "prompt_tokens").asU64.getD 0).toUInt32
        outputTokens := (((json.key "usage").key "completion_tokens").asU64.getD 0).toUInt32 } }

/-! ### The streaming loop -/

/-- What the loop accumulates, with the events sent so far. -/
structure StreamState where
  contentBlocks : List ContentBlock := []
  currentThinking : String := ""
  currentText : String := ""
  currentToolId : String := ""
  currentToolName : String := ""
  currentToolArgs : String := ""
  stopReason : StopReason := .endTurn
  usage : Usage := {}
  sent : List StreamEvent := []

namespace StreamState

variable (fromStr : FromStr)

def send (s : StreamState) (e : StreamEvent) : StreamState := { s with sent := s.sent ++ [e] }

def flushThinking (s : StreamState) : StreamState :=
  if s.currentThinking = "" then s
  else { s with
    contentBlocks := s.contentBlocks ++ [.thinking s.currentThinking]
    currentThinking := "" }

def flushText (s : StreamState) : StreamState :=
  if s.currentText = "" then s
  else { s with
    contentBlocks := s.contentBlocks ++ [.text s.currentText]
    currentText := "" }

def flushTool (s : StreamState) : StreamState :=
  if s.currentToolId = "" then s
  else { s with
    contentBlocks := s.contentBlocks ++
      [.toolUse s.currentToolId s.currentToolName (parseInput fromStr s.currentToolArgs)]
    currentToolId := ""
    currentToolName := ""
    currentToolArgs := "" }

/-- The `[DONE]` event: flush what is pending. -/
def finish (s : StreamState) : StreamState :=
  ((s.flushThinking.flushText).flushTool fromStr).send .done

/-- Extract the finish reason if present. -/
def readFinishReason (s : StreamState) (data : Json) : StreamState :=
  match (((data.key "choices").idx 0).key "finish_reason").asStr with
  | some reason => { s with stopReason := parseFinishReason reason }
  | none => s

/-- Extract usage if present; some providers send it in the final chunk. -/
def readUsage (s : StreamState) (data : Json) : StreamState :=
  match data.get "usage" with
  | some u => { s with usage := {
      inputTokens := match (u.key "prompt_tokens").asU64 with
        | some pt => pt.toUInt32
        | none => s.usage.inputTokens
      outputTokens := match (u.key "completion_tokens").asU64 with
        | some ct => ct.toUInt32
        | none => s.usage.outputTokens } }
  | none => s

/-- Reasoning delta. -/
def readThinking (s : StreamState) (delta : Json) : StreamState :=
  match (delta.key "reasoning_content").asStr with
  | some thinking =>
    { s with currentThinking := s.currentThinking ++ thinking }.send (.thinkingDelta thinking)
  | none => s

/-- Text delta. -/
def readText (s : StreamState) (delta : Json) : StreamState :=
  match (delta.key "content").asStr with
  | some text => { s with currentText := s.currentText ++ text }.send (.textDelta text)
  | none => s

/-- A new tool call starting. -/
def startTool (s : StreamState) (tc : Json) : StreamState :=
  match (tc.key "id").asStr with
  | some id =>
    let name := ((tc.key "function").key "name").asStr.getD ""
    { s.flushTool fromStr with currentToolId := id, currentToolName := name }.send
      (.toolStart id name)
  | none => s

/-- Accumulate a fragment of the arguments. -/
def readArguments (s : StreamState) (tc : Json) : StreamState :=
  match ((tc.key "function").key "arguments").asStr with
  | some args =>
    { s with currentToolArgs := s.currentToolArgs ++ args }.send
      (.toolInputDelta s.currentToolId args)
  | none => s

def readToolCall (s : StreamState) (tc : Json) : StreamState :=
  (s.startTool fromStr tc).readArguments tc

/-- Tool calls delta. -/
def readToolCalls (s : StreamState) (delta : Json) : StreamState :=
  match (delta.key "tool_calls").asArray with
  | some toolCalls => toolCalls.foldl (readToolCall fromStr) s
  | none => s

/-- A payload that is JSON. -/
def readData (s : StreamState) (data : Json) : StreamState :=
  let delta := ((data.key "choices").idx 0).key "delta"
  ((((s.readFinishReason data).readUsage data).readThinking delta).readText delta).readToolCalls
    fromStr delta

/-- One event; a payload that is not JSON is skipped. -/
def readEvent (s : StreamState) (event : SseEvent) : StreamState :=
  if event.data = "[DONE]" then s.finish fromStr
  else match fromStr event.data with
    | .ok data => s.readData fromStr data
    | .error _ => s

/-- The events of one chunk; `break` after `[DONE]` drops the others. -/
def readEvents (s : StreamState) : List SseEvent → StreamState
  | [] => s
  | event :: events =>
    if event.data = "[DONE]" then s.readEvent fromStr event
    else (s.readEvent fromStr event).readEvents events

/-- The chunks, each decoded on its own; a transport error ends the loop. -/
def readChunks (s : StreamState) (sse : SseParser) :
    List (Except String (List UInt8)) → Except LlmError Unit × StreamState
  | [] => (.ok (), s)
  | .error e :: _ => (.error (.http e), s)
  | .ok chunk :: chunks =>
    let fed := sse.feed (Utf8.decodeLossy chunk)
    (s.readEvents fromStr fed.2).readChunks fed.1 chunks

def response (s : StreamState) : CompletionResponse := ⟨s.contentBlocks, s.stopReason, s.usage⟩

end StreamState

/-- A response whose head has arrived. -/
structure HttpResponse where
  status : UInt16
  /-- The `retry-after` header. -/
  retryAfter : Option String := none
  /-- The body as a text. -/
  text : Except String String := .ok ""
  /-- The body as it arrives. -/
  chunks : List (Except String (List UInt8)) := []

/-- The chunks that arrive. -/
def HttpResponse.bytes (resp : HttpResponse) : List (List UInt8) :=
  resp.chunks.filterMap Except.toOption

/-- `status.is_success()`. -/
def HttpResponse.isSuccess (resp : HttpResponse) : Bool := 200 ≤ resp.status && resp.status < 300

/-- `v.parse::<u64>()`. -/
def parseU64 (v : String) : Option UInt64 :=
  let digits := if v.toList.head? = some '+' then v.toList.tail else v.toList
  let n := digits.foldl (fun n d => n * 10 + (d.toNat - '0'.toNat)) 0
  if digits ≠ [] ∧ digits.all Char.isDigit ∧ n < 2 ^ 64 then some (UInt64.ofNat n) else none

/-- Send a streaming completion request, emitting events; `sent` is what the transport gave. -/
def completeStream (fromStr : FromStr) (sent : Except String HttpResponse) :
    Except LlmError CompletionResponse × List StreamEvent :=
  match sent with
  | .error e => (.error (.http e), [])
  | .ok resp =>
    if resp.status = 429 then (.error (.rateLimited (resp.retryAfter.bind parseU64)), [])
    else if resp.isSuccess = false then
      (.error (.api resp.status (resp.text.toOption.getD "")), [])
    else
      let (result, s) := ({} : StreamState).readChunks fromStr .new resp.chunks
      (result.map fun _ => s.response, s.sent)

/-! ### A run as a fold over the events it handles -/

/-- The events up to `[DONE]`, inclusive. -/
def upToDone : List SseEvent → List SseEvent
  | [] => []
  | event :: events => if event.data = "[DONE]" then [event] else event :: upToDone events

/-- The events the loop looks at. -/
def handledEvents (chunks : List (List UInt8)) : List SseEvent :=
  ((SseParser.new.feedAll (chunks.map Utf8.decodeLossy)).2.map upToDone).flatten

namespace StreamState

variable {fromStr : FromStr}

theorem readEvents_eq (s : StreamState) (events : List SseEvent) :
    s.readEvents fromStr events = (upToDone events).foldl (readEvent fromStr) s := by
  induction events generalizing s with
  | nil => rfl
  | cons event events ih =>
    rw [readEvents, upToDone]
    split
    · rfl
    · exact ih _

theorem readChunks_ok (s : StreamState) (sse : SseParser) (chunks : List (List UInt8)) :
    s.readChunks fromStr sse (chunks.map .ok) =
      (.ok (), ((sse.feedAll (chunks.map Utf8.decodeLossy)).2.map upToDone).flatten.foldl
        (readEvent fromStr) s) := by
  induction chunks generalizing s sse with
  | nil => rfl
  | cons chunk chunks ih =>
    rw [List.map_cons, readChunks, ih, readEvents_eq, ← List.foldl_append]
    rfl

/-- A stream that ends without an error has only chunks. -/
theorem chunks_of_readChunks {s s' : StreamState} {sse : SseParser}
    {chunks : List (Except String (List UInt8))}
    (h : s.readChunks fromStr sse chunks = (.ok (), s')) :
    ∃ bytes : List (List UInt8), chunks = bytes.map .ok := by
  induction chunks generalizing s sse with
  | nil => exact ⟨[], rfl⟩
  | cons chunk chunks ih =>
    cases chunk with
    | error e => cases h
    | ok bytes =>
      obtain ⟨rest, hrest⟩ := ih h
      exact ⟨bytes :: rest, by rw [hrest, List.map_cons]⟩

end StreamState

/-- The state at the end of a stream of chunks. -/
def streamed (fromStr : FromStr) (chunks : List (List UInt8)) : StreamState :=
  (handledEvents chunks).foldl (StreamState.readEvent fromStr) {}

/-- One-line payloads that arrive whole, some in each chunk. -/
theorem handledEvents_wire {pss : List (List String)} (h : ∀ ps ∈ pss, ∀ t ∈ ps, '\n' ∉ t.toList) :
    handledEvents (pss.map fun ps => Utf8.encode (SseParser.wire ps)) =
      (pss.map fun ps => upToDone (ps.map (⟨none, ·⟩))).flatten := by
  rw [handledEvents]
  induction pss with
  | nil => rfl
  | cons ps pss ih =>
    rw [List.map_cons, List.map_cons, Utf8.decodeLossy_encode, SseParser.feedAll,
      SseParser.feed_wire (h ps List.mem_cons_self)]
    exact congrArg (upToDone _ ++ ·) (ih fun qs hqs => h qs (List.mem_cons_of_mem ps hqs))

/-- The payloads of the events the loop looks at. -/
def handedPayloads (chunks : List (List UInt8)) : List String :=
  (handledEvents chunks).map SseEvent.data

/-- One event, of which the loop looks at the payload only. -/
def StreamState.readPayload (fromStr : FromStr) (s : StreamState) (payload : String) :
    StreamState := s.readEvent fromStr ⟨none, payload⟩

theorem streamed_eq_foldl (fromStr : FromStr) (chunks : List (List UInt8)) :
    streamed fromStr chunks =
      (handedPayloads chunks).foldl (StreamState.readPayload fromStr) {} := by
  rw [handedPayloads, List.foldl_map]
  rfl

/-- A successful response whose chunks all arrive. -/
def HttpResponse.delivers (resp : HttpResponse) (chunks : List (List UInt8)) : Prop :=
  resp.isSuccess = true ∧ resp.chunks = chunks.map .ok

variable {fromStr : FromStr} {resp : HttpResponse} {chunks : List (List UInt8)}

theorem HttpResponse.delivers.bytes_eq (h : resp.delivers chunks) : resp.bytes = chunks := by
  rw [HttpResponse.bytes, h.2, List.filterMap_map]
  exact List.filterMap_some

theorem HttpResponse.status_ne_of_isSuccess (h : resp.isSuccess = true) : resp.status ≠ 429 := by
  intro heq
  rw [HttpResponse.isSuccess, heq] at h
  revert h
  decide

/-- The run over chunks that all arrive is a fold over the events it handles. -/
theorem completeStream_of_delivers (h : resp.delivers chunks) :
    completeStream fromStr (.ok resp) =
      (.ok (streamed fromStr chunks).response, (streamed fromStr chunks).sent) := by
  rw [completeStream, if_neg (HttpResponse.status_ne_of_isSuccess h.1),
    if_neg (by rw [h.1]; exact Bool.noConfusion), h.2, StreamState.readChunks_ok]
  rfl

/-- A run that returns a response read chunks that all arrived. -/
theorem delivers_of_ok {sent : Except String HttpResponse} {r : CompletionResponse}
    (h : (completeStream fromStr sent).1 = .ok r) :
    ∃ resp chunks, sent = .ok resp ∧ resp.delivers chunks := by
  unfold completeStream at h
  split at h
  · cases h
  · next resp =>
    split at h
    · cases h
    split at h
    · cases h
    · next hs =>
      cases hrun : ({} : StreamState).readChunks fromStr .new resp.chunks with
      | mk result s =>
        rw [hrun] at h
        cases result with
        | error e => cases h
        | ok u =>
          obtain ⟨bytes, hbytes⟩ := StreamState.chunks_of_readChunks hrun
          exact ⟨resp, bytes, rfl, (Bool.not_eq_false _).mp hs, hbytes⟩

end Animus
