import Animus.Lib.Json

/-!
# Canonical LLM types

What a completion is asked with, what it returns, what a stream emits on the way,
and the errors of a provider call.

## Main definitions

- `ContentBlock`, `StopReason`, `Usage`, `CompletionResponse`
- `UserContent`, `Llm.Message`, `ToolDefinition`, `CompletionRequest`
- `StreamEvent`
- `LlmError`
-/

namespace Animus

/-- Content block in an assistant response. -/
inductive ContentBlock
  /-- Text output. -/
  | text (text : String)
  /-- Reasoning output of a reasoning model. -/
  | thinking (thinking : String)
  /-- Tool call request. -/
  | toolUse (id name : String) (input : Json)

/-- Why the model stopped. -/
inductive StopReason
  /-- Normal completion. -/
  | endTurn
  /-- The model wants to call tools. -/
  | toolUse
  /-- Hit the token limit. -/
  | maxTokens
  /-- Unknown or provider-specific reason. -/
  | other (reason : String)
  deriving DecidableEq

/-- Token usage for a single LLM call. -/
structure Usage where
  inputTokens : UInt32 := 0
  outputTokens : UInt32 := 0
  deriving DecidableEq

/-- The LLM's response. -/
structure CompletionResponse where
  content : List ContentBlock
  stopReason : StopReason
  usage : Usage

/-- Content in a user message. -/
inductive UserContent
  /-- Plain text. -/
  | text (text : String)
  /-- Result of a tool call. -/
  | toolResult (toolUseId content : String) (isError : Bool)
  /-- Image data in base64. -/
  | image (mediaType data : String)

/-- A message in the conversation. -/
inductive Llm.Message
  | system (content : String)
  /-- Text, tool results, or a mix. -/
  | user (content : List UserContent)
  /-- Text, tool calls, or a mix. -/
  | assistant (content : List ContentBlock)

/-- A tool definition sent to the LLM. -/
structure ToolDefinition where
  name : String
  description : String
  inputSchema : Json

/-- A completion request sent to the LLM. -/
structure CompletionRequest where
  model : String
  system : String
  messages : List Llm.Message
  tools : List ToolDefinition := []
  maxTokens : UInt32
  /-- The sampling temperature by its bits; without it, the provider's default. -/
  temperature : Option UInt64 := none

/-- Events emitted during streaming. -/
inductive StreamEvent
  /-- A chunk of text output. -/
  | textDelta (text : String)
  /-- A chunk of reasoning output. -/
  | thinkingDelta (text : String)
  /-- Partial JSON for a tool call's input. -/
  | toolInputDelta (toolUseId json : String)
  /-- A tool call is starting. -/
  | toolStart (toolUseId name : String)
  /-- Stream complete. -/
  | done
  deriving DecidableEq

/-- Errors from LLM provider calls. -/
inductive LlmError
  /-- HTTP transport failed. -/
  | http (e : String)
  /-- The API returned an error response. -/
  | api (status : UInt16) (message : String)
  /-- Rate limited, with the retry-after hint if provided. -/
  | rateLimited (retryAfterSecs : Option UInt64)
  /-- A response body is not JSON. -/
  | json (e : String)
  /-- The body or the stream has not the expected form. -/
  | stream (message : String)
  | unsupportedProvider (provider : String)
  deriving DecidableEq

namespace ContentBlock

/-- The text of a text block. -/
def textOf : ContentBlock → String
  | .text t => t
  | _ => ""

/-- The reasoning of a thinking block. -/
def thinkingOf : ContentBlock → String
  | .thinking t => t
  | _ => ""

/-- Is it one of the blocks a model says, rather than a call? -/
def isToolUse : ContentBlock → Bool
  | .toolUse _ _ _ => true
  | _ => false

end ContentBlock

namespace StreamEvent

/-- The text of a text delta. -/
def textOf : StreamEvent → String
  | .textDelta t => t
  | _ => ""

/-- The reasoning of a thinking delta. -/
def thinkingOf : StreamEvent → String
  | .thinkingDelta t => t
  | _ => ""

end StreamEvent

/-- The text blocks of a response, concatenated. -/
def CompletionResponse.fullText (r : CompletionResponse) : String :=
  String.join (r.content.map ContentBlock.textOf)

/-- The thinking blocks of a response, concatenated. -/
def CompletionResponse.fullThinking (r : CompletionResponse) : String :=
  String.join (r.content.map ContentBlock.thinkingOf)

/-- The text deltas sent, concatenated. -/
def sentText (sent : List StreamEvent) : String := String.join (sent.map StreamEvent.textOf)

/-- The thinking deltas sent, concatenated. -/
def sentThinking (sent : List StreamEvent) : String :=
  String.join (sent.map StreamEvent.thinkingOf)

end Animus
