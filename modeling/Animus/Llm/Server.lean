import Animus.Llm.OpenAi

/-!
# A Chat Completions server

The same assistant message as the body of a response and as the payloads of a
stream.

## Main definitions

- `deltaJson`: a payload that carries one delta
- `AssistantMessage.body`: the message as a response body
- `AssistantMessage.payloads`: the message as the payloads of a stream
- `Serializes`: one-line texts that are read back as given JSON values
-/

namespace Animus

/-- A payload that carries one delta. -/
def deltaJson (fields : List (String × Json)) : Json :=
  .obj [("choices", .arr [.obj [("delta", .obj fields)]])]

/-- A tool call as the server knows it. -/
structure ToolCall where
  id : String
  name : String
  arguments : String

/-- A finished assistant message, with why and at what cost it ended. -/
structure AssistantMessage where
  reasoning : Option String
  content : Option String
  toolCalls : List ToolCall
  finishReason : String
  promptTokens : UInt64
  completionTokens : UInt64

def ToolCall.json (tc : ToolCall) : Json :=
  .obj [("id", .str tc.id), ("type", .str "function"),
    ("function", .obj [("name", .str tc.name), ("arguments", .str tc.arguments)])]

namespace AssistantMessage

variable (m : AssistantMessage)

def usageJson : Json :=
  .obj [("prompt_tokens", .num (.posInt m.promptTokens)),
    ("completion_tokens", .num (.posInt m.completionTokens))]

/-- A text member, `null` where there is none. -/
def textJson : Option String → Json
  | some t => .str t
  | none => .null

/-- The message as the body of a response. -/
def body : Json :=
  .obj [
    ("choices", .arr [.obj [
      ("message", .obj [
        ("role", .str "assistant"),
        ("reasoning_content", textJson m.reasoning),
        ("content", textJson m.content),
        ("tool_calls", .arr (m.toolCalls.map ToolCall.json))]),
      ("finish_reason", .str m.finishReason)]]),
    ("usage", m.usageJson)]

/-- The last payload before `[DONE]`. -/
def lastJson : Json :=
  .obj [("choices", .arr [.obj [("delta", .obj []), ("finish_reason", .str m.finishReason)]]),
    ("usage", m.usageJson)]

/-- The message as the payloads of a stream: reasoning, content, one tool call after the other,
and last why it ended. -/
def payloads : List Json :=
  m.reasoning.toList.map (fun t => deltaJson [("reasoning_content", .str t)]) ++
    m.content.toList.map (fun t => deltaJson [("content", .str t)]) ++
    m.toolCalls.map (fun tc => deltaJson [("tool_calls", .arr [tc.json])]) ++
    [m.lastJson]

end AssistantMessage

/-- One-line texts that are read back as the given JSON values, none of them `[DONE]`. -/
structure Serializes (fromStr : FromStr) (texts : List String) (values : List Json) : Prop where
  read : texts.map fromStr = values.map .ok
  oneLine : ∀ t ∈ texts, '\n' ∉ t.toList
  notDone : "[DONE]" ∉ texts

theorem oneLine_append {a b : String} (ha : '\n' ∉ a.toList) (hb : '\n' ∉ b.toList) :
    '\n' ∉ (a ++ b).toList := by
  rw [String.toList_append, List.mem_append, not_or]
  exact ⟨ha, hb⟩

end Animus
