import Animus.Llm.Types
import Mathlib.Data.List.Basic

/-!
# The request body

A `CompletionRequest` in the Chat Completions format. One canonical message
becomes any number of wire messages, its parts regrouped by kind. `ToStr` stands
for `serde_json::to_string`.

## Main definitions

- `serializeUserMessage`, `serializeAssistantMessage`
- `buildRequestBody`

## Main results

- `bodyMessages_buildRequestBody`: the wire messages of a request
- `wireContent_assistantMessage`, `wireCalls_assistantMessage`: what an assistant
  message carries
-/

namespace Animus

/-- `serde_json::to_string`. -/
abbrev ToStr := Json → String

namespace UserContent

/-- What an item adds to the text of the user message. -/
def textPart : UserContent → Option String
  | .text t => some t
  | .image mediaType data => some s!"[image: {mediaType}, {data.utf8ByteSize} bytes base64]"
  | .toolResult _ _ _ => none

/-- The message of a tool result. -/
def toolMessage : UserContent → Option Json
  | .toolResult toolUseId content _ => some (.object
    [("role", .str "tool"), ("tool_call_id", .str toolUseId), ("content", .str content)])
  | _ => none

end UserContent

namespace ContentBlock

def textPart : ContentBlock → Option String
  | .text t => some t
  | _ => none

/-- The wire form of a tool call. -/
def toolCall (toStr : ToStr) : ContentBlock → Option Json
  | .toolUse id name input => some (.object
    [("id", .str id), ("type", .str "function"),
      ("function", .object [("name", .str name), ("arguments", .str (toStr input))])])
  | _ => none

end ContentBlock

/-- A message of a role and a text. -/
def textMessage (role content : String) : Json :=
  .object [("role", .str role), ("content", .str content)]

/-- The texts of a `User` message as one message, if it has any. -/
def userTexts (content : List UserContent) : List Json :=
  let textParts := content.filterMap UserContent.textPart
  if textParts.isEmpty then [] else [textMessage "user" ("\n".intercalate textParts)]

/-- The messages of a `User` message: its texts joined, then its tool results. -/
def serializeUserMessage (content : List UserContent) : List Json :=
  userTexts content ++ content.filterMap UserContent.toolMessage

/-- An assistant message; an empty text and an empty list of calls are left out. -/
def assistantMessage (contentStr : String) (toolCalls : List Json) : Json :=
  .object ([("role", .str "assistant")] ++
    (if contentStr = "" then [] else [("content", .str contentStr)]) ++
    (if toolCalls.isEmpty then [] else [("tool_calls", .arr toolCalls)]))

/-- The message of an `Assistant` message. Thinking blocks are not sent back. -/
def serializeAssistantMessage (toStr : ToStr) (content : List ContentBlock) : Json :=
  assistantMessage ("\n".intercalate (content.filterMap ContentBlock.textPart))
    (content.filterMap (ContentBlock.toolCall toStr))

/-- Convert a canonical message into its wire messages. -/
def serializeMessage (toStr : ToStr) : Llm.Message → List Json
  | .system content => [textMessage "system" content]
  | .user content => serializeUserMessage content
  | .assistant content => [serializeAssistantMessage toStr content]

/-- The wire form of a tool definition. -/
def ToolDefinition.toJson (t : ToolDefinition) : Json :=
  .object [("type", .str "function"),
    ("function", .object [("name", .str t.name), ("description", .str t.description),
      ("parameters", t.inputSchema)])]

/-- `json!` of a float: an infinite one and a NaN are `null`. -/
def floatJson (bits : UInt64) : Json :=
  if (bits >>> 52) &&& 0x7ff = 0x7ff then .null else .num (.float bits)

/-- The messages of a request, the system prompt first. -/
def wireMessages (toStr : ToStr) (request : CompletionRequest) : List Json :=
  textMessage "system" request.system :: request.messages.flatMap (serializeMessage toStr)

/-- Build the JSON request body. -/
def buildRequestBody (toStr : ToStr) (request : CompletionRequest) (stream : Bool) : Json :=
  .object ([("model", .str request.model),
      ("messages", .arr (wireMessages toStr request)),
      ("max_tokens", .num (.posInt request.maxTokens.toUInt64))] ++
    (request.temperature.toList.map fun temp => ("temperature", floatJson temp)) ++
    (if request.tools.isEmpty then []
      else [("tools", .arr (request.tools.map ToolDefinition.toJson))]) ++
    (if stream then [("stream", .bool true)] else []))

/-! ### Reading a body -/

/-- The messages of a body. -/
def bodyMessages (body : Json) : List Json := (body.key "messages").asArray.getD []

/-- The role of a wire message. -/
def roleOf (m : Json) : Option String := (m.key "role").asStr

/-- The text of a wire message. -/
def wireContent (m : Json) : Option String := (m.key "content").asStr

/-- The tool calls of a wire message. -/
def wireCalls (m : Json) : List Json := (m.key "tool_calls").asArray.getD []

theorem bodyMessages_buildRequestBody (toStr : ToStr) (request : CompletionRequest)
    (stream : Bool) :
    bodyMessages (buildRequestBody toStr request stream) = wireMessages toStr request := rfl

@[simp] theorem roleOf_textMessage (role content : String) :
    roleOf (textMessage role content) = some role := rfl

@[simp] theorem wireCalls_textMessage (role content : String) :
    wireCalls (textMessage role content) = [] := rfl

@[simp] theorem roleOf_assistantMessage (contentStr : String) (toolCalls : List Json) :
    roleOf (assistantMessage contentStr toolCalls) = some "assistant" := rfl

/-- The text is sent where there is any. -/
theorem wireContent_assistantMessage (contentStr : String) (toolCalls : List Json) :
    wireContent (assistantMessage contentStr toolCalls) =
      if contentStr = "" then none else some contentStr := by
  unfold assistantMessage wireContent
  by_cases htext : contentStr = ""
  · rw [if_pos htext, if_pos htext]
    split <;> rfl
  · rw [if_neg htext, if_neg htext]
    rfl

@[simp] theorem wireCalls_assistantMessage (contentStr : String) (toolCalls : List Json) :
    wireCalls (assistantMessage contentStr toolCalls) = toolCalls := by
  unfold assistantMessage wireCalls
  by_cases hcalls : toolCalls.isEmpty
  · rw [if_pos hcalls, List.isEmpty_iff.mp hcalls]
    split <;> rfl
  · rw [if_neg hcalls]
    split <;> rfl

end Animus
