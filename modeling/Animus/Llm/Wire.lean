import Animus.Llm.Conversation
import Animus.Llm.Server

/-!
# What the wire keeps

A request body, read back. It tells the model, the limits, the tools, and of the
conversation its turns: the text and the calls of an assistant message, the
joined texts of a user message, and each tool result. Two requests have the same
body exactly when these agree; the rest of a request is lost.

## Main definitions

- `Turn`, `WireRequest`: what a wire message and a body say
- `Turn.read`, `WireRequest.read`: reading them back
- `CompletionRequest.wire`: what the body of a request says
- `CompletionRequest.plain`: the request with one text, or one tool result, to a message

## Main results

- `Turn.read_json`: a wire message is read back
- `request_bodies_agree_iff`: a body tells what the request says, and nothing else
-/

namespace Animus

/-- What a wire message says. -/
inductive Turn
  | system (content : String)
  | user (content : String)
  | tool (toolUseId content : String)
  | assistant (content : String) (toolCalls : List ToolCall)

/-- What a body says. -/
structure WireRequest where
  model : String
  turns : List Turn
  maxTokens : UInt32
  temperature : Option Json
  tools : List ToolDefinition
  stream : Bool

/-! ### Writing -/

/-- The wire message of a turn. -/
def Turn.json : Turn → Json
  | .system content => textMessage "system" content
  | .user content => textMessage "user" content
  | .tool toolUseId content => .object
    [("role", .str "tool"), ("tool_call_id", .str toolUseId), ("content", .str content)]
  | .assistant content toolCalls => assistantMessage content (toolCalls.map ToolCall.json)

/-- The body of what it says. -/
def WireRequest.json (w : WireRequest) : Json :=
  .object ([("model", .str w.model), ("messages", .arr (w.turns.map Turn.json)),
      ("max_tokens", .num (.posInt w.maxTokens.toUInt64))] ++
    (w.temperature.toList.map fun temp => ("temperature", temp)) ++
    (if w.tools.isEmpty then [] else [("tools", .arr (w.tools.map ToolDefinition.toJson))]) ++
    (if w.stream then [("stream", .bool true)] else []))

/-- The call of a block, its input as text. -/
def ContentBlock.wireCall (toStr : ToStr) : ContentBlock → Option ToolCall
  | .toolUse id name input => some ⟨id, name, toStr input⟩
  | _ => none

/-- The turn of a tool result. -/
def UserContent.toolTurn : UserContent → Option Turn
  | .toolResult toolUseId content _ => some (.tool toolUseId content)
  | _ => none

/-- The turns of a message: the texts of a user come first, as one. -/
def Llm.Message.turns (toStr : ToStr) : Llm.Message → List Turn
  | .system content => [.system content]
  | .user content =>
    (if (content.filterMap UserContent.textPart).isEmpty then []
      else [.user ("\n".intercalate (content.filterMap UserContent.textPart))]) ++
      content.filterMap UserContent.toolTurn
  | .assistant content =>
    [.assistant ("\n".intercalate (content.filterMap ContentBlock.textPart))
      (content.filterMap (ContentBlock.wireCall toStr))]

/-- What the body of a request says. -/
def CompletionRequest.wire (toStr : ToStr) (request : CompletionRequest) (stream : Bool) :
    WireRequest where
  model := request.model
  turns := .system request.system :: request.messages.flatMap (Llm.Message.turns toStr)
  maxTokens := request.maxTokens
  temperature := request.temperature.map floatJson
  tools := request.tools
  stream := stream

section Write

variable {toStr : ToStr}

theorem map_json_turns (message : Llm.Message) :
    (message.turns toStr).map Turn.json = serializeMessage toStr message := by
  cases message with
  | system content => rfl
  | user content =>
    have htools : (content.filterMap UserContent.toolTurn).map Turn.json =
        content.filterMap UserContent.toolMessage := by
      rw [List.map_filterMap]
      congr 1
      funext item
      cases item <;> rfl
    rw [Llm.Message.turns, List.map_append, htools, serializeMessage, serializeUserMessage,
      userTexts]
    split <;> rfl
  | assistant content =>
    have hcalls : (content.filterMap (ContentBlock.wireCall toStr)).map ToolCall.json =
        content.filterMap (ContentBlock.toolCall toStr) := by
      rw [List.map_filterMap]
      congr 1
      funext block
      cases block <;> rfl
    rw [serializeMessage, serializeAssistantMessage, ← hcalls]
    rfl

/-- A body is that of what it says. -/
theorem buildRequestBody_eq (request : CompletionRequest) (stream : Bool) :
    buildRequestBody toStr request stream = (request.wire toStr stream).json := by
  have hmessages :
      (request.wire toStr stream).turns.map Turn.json = wireMessages toStr request := by
    have hturn : ∀ message : Llm.Message,
        (message.turns toStr).map Turn.json = serializeMessage toStr message := map_json_turns
    rw [CompletionRequest.wire, wireMessages, List.map_cons, List.map_flatMap]
    simp only [hturn]
    rfl
  have htemp : (request.temperature.toList.map fun temp => ("temperature", floatJson temp)) =
      (request.wire toStr stream).temperature.toList.map fun temp => ("temperature", temp) := by
    rw [CompletionRequest.wire]
    cases request.temperature <;> rfl
  rw [buildRequestBody, ← hmessages, htemp]
  rfl

end Write

/-! ### Reading -/

/-- A tool call of a wire message. -/
def ToolCall.read (call : Json) : Option ToolCall := do
  let id ← (call.key "id").asStr
  let name ← ((call.key "function").key "name").asStr
  let arguments ← ((call.key "function").key "arguments").asStr
  return ⟨id, name, arguments⟩

/-- A tool definition of a body. -/
def ToolDefinition.read (tool : Json) : Option ToolDefinition := do
  let name ← ((tool.key "function").key "name").asStr
  let description ← ((tool.key "function").key "description").asStr
  return ⟨name, description, (tool.key "function").key "parameters"⟩

/-- A wire message, by its role. -/
def Turn.read (m : Json) : Option Turn :=
  if roleOf m = some "system" then (wireContent m).map .system
  else if roleOf m = some "user" then (wireContent m).map .user
  else if roleOf m = some "tool" then do
    return .tool (← (m.key "tool_call_id").asStr) (← wireContent m)
  else if roleOf m = some "assistant" then
    ((wireCalls m).mapM ToolCall.read).map (.assistant ((wireContent m).getD ""))
  else none

/-- A body. -/
def WireRequest.read (body : Json) : Option WireRequest := do
  let model ← (body.key "model").asStr
  let turns ← (bodyMessages body).mapM Turn.read
  let maxTokens ← (body.key "max_tokens").asU64
  let tools ← ((body.key "tools").asArray.getD []).mapM ToolDefinition.read
  return {
    model := model
    turns := turns
    maxTokens := maxTokens.toUInt32
    temperature := body.get "temperature"
    tools := tools
    stream := (body.get "stream").isSome }

/-- What is written member by member is read member by member. -/
theorem mapM_read {α β : Type} {write : α → β} {read : β → Option α}
    (h : ∀ a, read (write a) = some a) (l : List α) : (l.map write).mapM read = some l := by
  induction l with
  | nil => rfl
  | cons a l ih =>
    rw [List.map_cons, List.mapM_cons, h, ih]
    rfl

theorem ToolCall.read_json (call : ToolCall) : ToolCall.read call.json = some call := rfl

theorem ToolDefinition.read_toJson (tool : ToolDefinition) :
    ToolDefinition.read tool.toJson = some tool := rfl

theorem Turn.read_json (t : Turn) : Turn.read t.json = some t := by
  cases t with
  | system content => rfl
  | user content => rfl
  | tool toolUseId content => rfl
  | assistant content toolCalls =>
    have hrole : roleOf (Turn.assistant content toolCalls).json = some "assistant" :=
      roleOf_assistantMessage ..
    have hcontent : (wireContent (Turn.assistant content toolCalls).json).getD "" = content := by
      rw [Turn.json, wireContent_assistantMessage]
      split
      · next h => exact h.symm
      · rfl
    have hcalls : (wireCalls (Turn.assistant content toolCalls).json).mapM ToolCall.read =
        some toolCalls := by
      rw [Turn.json, wireCalls_assistantMessage]
      exact mapM_read ToolCall.read_json toolCalls
    rw [Turn.read, hrole, hcontent, hcalls]
    rfl

section Members

variable (w : WireRequest)

theorem WireRequest.get_temperature : w.json.get "temperature" = w.temperature := by
  obtain ⟨model, turns, maxTokens, temperature, tools, stream⟩ := w
  cases temperature <;> cases tools <;> cases stream <;> rfl

theorem WireRequest.key_tools :
    (w.json.key "tools").asArray.getD [] = w.tools.map ToolDefinition.toJson := by
  obtain ⟨model, turns, maxTokens, temperature, tools, stream⟩ := w
  cases temperature <;> cases tools <;> cases stream <;> rfl

theorem WireRequest.get_stream : (w.json.get "stream").isSome = w.stream := by
  obtain ⟨model, turns, maxTokens, temperature, tools, stream⟩ := w
  cases temperature <;> cases tools <;> cases stream <;> rfl

theorem WireRequest.read_json : WireRequest.read w.json = some w := by
  have hmodel : (w.json.key "model").asStr = some w.model := rfl
  have hmax : (w.json.key "max_tokens").asU64 = some w.maxTokens.toUInt64 := rfl
  have hturns : (bodyMessages w.json).mapM Turn.read = some w.turns :=
    mapM_read Turn.read_json w.turns
  have htools : ((w.json.key "tools").asArray.getD []).mapM ToolDefinition.read = some w.tools := by
    rw [w.key_tools]
    exact mapM_read ToolDefinition.read_toJson w.tools
  rw [WireRequest.read, hmodel, hturns, hmax, htools, w.get_temperature, w.get_stream]
  exact congrArg (fun n => some { w with maxTokens := n })
    (UInt32.toUInt32_toUInt64 w.maxTokens)

end Members

/-! ### Plain conversations -/

/-- A tool result as a message of its own, without its flag. -/
def UserContent.plain : UserContent → Option Llm.Message
  | .toolResult toolUseId content _ => some (.user [.toolResult toolUseId content false])
  | _ => none

/-- A message as messages of one text or one tool result each; of an assistant message, one text
and the calls. -/
def Llm.Message.plain : Llm.Message → List Llm.Message
  | .system content => [.system content]
  | .user content =>
    (if (content.filterMap UserContent.textPart).isEmpty then []
      else [.user [.text ("\n".intercalate (content.filterMap UserContent.textPart))]]) ++
      content.filterMap UserContent.plain
  | .assistant content =>
    [.assistant (.text ("\n".intercalate (content.filterMap ContentBlock.textPart)) ::
      content.filter fun block => block.callId.isSome)]

/-- The request with a plain conversation. -/
def CompletionRequest.plain (request : CompletionRequest) : CompletionRequest :=
  { request with messages := request.messages.flatMap Llm.Message.plain }

section Plain

variable {toStr : ToStr}

theorem turns_plain (message : Llm.Message) :
    message.plain.flatMap (Llm.Message.turns toStr) = message.turns toStr := by
  have hjoin : ∀ t : String, "\n".intercalate [t] = t := fun _ => rfl
  cases message with
  | system content => rfl
  | user content =>
    have htools : (content.filterMap UserContent.plain).flatMap (Llm.Message.turns toStr) =
        content.filterMap UserContent.toolTurn := by
      induction content with
      | nil => rfl
      | cons item content ih =>
        cases item with
        | text t => exact ih
        | image mediaType data => exact ih
        | toolResult toolUseId result isError =>
          exact congrArg (Turn.tool toolUseId result :: ·) ih
    rw [Llm.Message.plain, List.flatMap_append, htools, Llm.Message.turns]
    split <;> rfl
  | assistant content =>
    have htexts : (content.filter fun block => block.callId.isSome).filterMap
        ContentBlock.textPart = [] := by
      refine List.filterMap_eq_nil_iff.mpr fun block hblock => ?_
      cases block with
      | text t => cases (List.mem_filter.mp hblock).2
      | thinking t => rfl
      | toolUse id name input => rfl
    have hcalls : (content.filter fun block => block.callId.isSome).filterMap
        (ContentBlock.wireCall toStr) = content.filterMap (ContentBlock.wireCall toStr) := by
      rw [List.filterMap_filter]
      congr 1
      funext block
      cases block <;> rfl
    have htext : (ContentBlock.text ("\n".intercalate (content.filterMap ContentBlock.textPart)) ::
        content.filter fun block => block.callId.isSome).filterMap ContentBlock.textPart =
        ["\n".intercalate (content.filterMap ContentBlock.textPart)] :=
      congrArg (_ :: ·) htexts
    rw [Llm.Message.plain, List.flatMap_singleton, Llm.Message.turns, Llm.Message.turns, htext,
      hjoin]
    exact congrArg (fun calls => [Turn.assistant _ calls]) hcalls

theorem wire_plain (request : CompletionRequest) (stream : Bool) :
    request.plain.wire toStr stream = request.wire toStr stream := by
  have hturns : ∀ message : Llm.Message, message.plain.flatMap (Llm.Message.turns toStr) =
      message.turns toStr := turns_plain
  rw [CompletionRequest.wire, CompletionRequest.plain, List.flatMap_assoc]
  simp only [hturns]
  rfl

end Plain

/-- A body is read back as what its request says; so two requests have the same body exactly when
they say the same, and a request has the body of its plain conversation: which texts, images and
results stood together or apart, the reasoning and the error flags are lost. -/
theorem request_bodies_agree_iff (toStr : ToStr) (request request' : CompletionRequest)
    (stream stream' : Bool) :
    WireRequest.read (buildRequestBody toStr request stream) = some (request.wire toStr stream) ∧
    (buildRequestBody toStr request stream = buildRequestBody toStr request' stream' ↔
      request.wire toStr stream = request'.wire toStr stream') ∧
    buildRequestBody toStr request.plain stream = buildRequestBody toStr request stream := by
  rw [buildRequestBody_eq, buildRequestBody_eq, buildRequestBody_eq, wire_plain]
  refine ⟨WireRequest.read_json _, ⟨fun h => ?_, congrArg WireRequest.json⟩, rfl⟩
  have hread := congrArg WireRequest.read h
  rw [WireRequest.read_json, WireRequest.read_json] at hread
  exact Option.some.inj hread

end Animus
