import Animus.Llm.Request

/-!
# Tool calls and their results on the wire

In a conversation in which a user message answers every message with tool calls,
the wire keeps the answers with the calls: what stands between them is at most
the one message of the texts the user added.

## Main definitions

- `WellFormed`: every tool call is answered by the message after it
- `Answers`: wire messages that answer the calls of another
- `Adjacent`: they follow it with nothing in between

## Main results

- `results_follow`: what follows a message with tool calls
-/

namespace Animus

/-- A list with each of `ids` once and no others. -/
def OneEach {α : Type} (l ids : List α) : Prop := l.Nodup ∧ ∀ a, a ∈ l ↔ a ∈ ids

/-- The call a tool result answers. -/
def UserContent.resultId : UserContent → Option String
  | .toolResult toolUseId _ _ => some toolUseId
  | _ => none

/-- The id of a tool call. -/
def ContentBlock.callId : ContentBlock → Option String
  | .toolUse id _ _ => some id
  | _ => none

/-- Each assistant message with tool calls is followed by a user message with one result for each
of their ids; it may hold texts and images as well. -/
def WellFormed (messages : List Llm.Message) : Prop :=
  ∀ earlier calls later, messages = earlier ++ .assistant calls :: later →
    calls.filterMap ContentBlock.callId ≠ [] →
    ∃ results later', later = .user results :: later' ∧
      OneEach (results.filterMap UserContent.resultId) (calls.filterMap ContentBlock.callId)

/-- The ids of the calls of a wire message. -/
def wireCallIds (m : Json) : List (Option String) :=
  (wireCalls m).map fun tc => (tc.key "id").asStr

/-- The call a wire message answers. -/
def answeredId (m : Json) : Option String := (m.key "tool_call_id").asStr

/-- Messages of role `tool`, one for each id called. -/
structure Answers (m : Json) (tools : List Json) : Prop where
  role : ∀ t ∈ tools, roleOf t = some "tool"
  ids : OneEach (tools.map answeredId) (wireCallIds m)

/-- Each message with tool calls is followed at once by those that answer it. -/
def Adjacent (wire : List Json) : Prop :=
  ∀ pre m post, wire = pre ++ m :: post → roleOf m = some "assistant" → wireCalls m ≠ [] →
    ∃ tools rest, post = tools ++ rest ∧ Answers m tools

/-! ### One message -/

theorem map_answeredId (content : List UserContent) :
    (content.filterMap UserContent.toolMessage).map answeredId =
      (content.filterMap UserContent.resultId).map some := by
  rw [List.map_filterMap, List.map_filterMap]
  congr 1
  funext item
  cases item <;> rfl

theorem roleOf_toolMessage {item : UserContent} {m : Json} (h : item.toolMessage = some m) :
    roleOf m = some "tool" := by
  cases item with
  | toolResult toolUseId content isError =>
    obtain rfl := Option.some.inj h
    rfl
  | text t => cases h
  | image mediaType data => cases h

theorem wireCallIds_serializeAssistantMessage (toStr : ToStr) (content : List ContentBlock) :
    wireCallIds (serializeAssistantMessage toStr content) =
      (content.filterMap ContentBlock.callId).map some := by
  rw [wireCallIds, serializeAssistantMessage, wireCalls_assistantMessage, List.map_filterMap,
    List.map_filterMap]
  congr 1
  funext block
  cases block <;> rfl

theorem oneEach_map_some {α : Type} {l ids : List α} (h : OneEach l ids) :
    OneEach (l.map some) (ids.map some) := by
  refine ⟨List.Pairwise.map some (fun _ _ hne heq => hne (Option.some.inj heq)) h.1, fun a => ?_⟩
  simp only [List.mem_map, h.2]

/-- The tool messages of a user message answer the calls its results answer. -/
theorem answers_of_oneEach {toStr : ToStr} {calls : List ContentBlock}
    {results : List UserContent}
    (h : OneEach (results.filterMap UserContent.resultId) (calls.filterMap ContentBlock.callId)) :
    Answers (serializeAssistantMessage toStr calls)
      (results.filterMap UserContent.toolMessage) := by
  constructor
  · intro t ht
    obtain ⟨item, -, hitem⟩ := List.mem_filterMap.mp ht
    exact roleOf_toolMessage hitem
  · rw [map_answeredId, wireCallIds_serializeAssistantMessage]
    exact oneEach_map_some h

/-- Only an assistant message becomes one of role `assistant`. -/
theorem eq_assistant_of_mem {toStr : ToStr} {message : Llm.Message} {m : Json}
    (hmem : m ∈ serializeMessage toStr message) (hrole : roleOf m = some "assistant") :
    ∃ calls, message = .assistant calls := by
  have hne : ∀ role ≠ "assistant", roleOf m ≠ some role := fun role hneq h =>
    hneq (Option.some.inj (h.symm.trans hrole))
  cases message with
  | system content =>
    obtain rfl := List.mem_singleton.mp hmem
    exact absurd rfl (hne "system" (by decide))
  | user content =>
    obtain htext | htool := List.mem_append.mp hmem
    · rw [userTexts, List.mem_ite_nil_left, List.mem_singleton] at htext
      obtain ⟨-, rfl⟩ := htext
      exact absurd rfl (hne "user" (by decide))
    · obtain ⟨item, -, hitem⟩ := List.mem_filterMap.mp htool
      exact absurd (roleOf_toolMessage hitem) (hne "tool" (by decide))
  | assistant calls => exact ⟨calls, rfl⟩

/-! ### The whole list -/

/-- An element of a concatenation stands in the image of one element. -/
theorem flatMap_eq_append_cons {α β : Type} {f : α → List β} {l : List α} {pre post : List β}
    {m : β} (h : l.flatMap f = pre ++ m :: post) :
    ∃ l₁ x l₂ a b, l = l₁ ++ x :: l₂ ∧ f x = a ++ m :: b ∧ post = b ++ l₂.flatMap f := by
  induction l generalizing pre with
  | nil => exact absurd h.symm (List.append_ne_nil_of_right_ne_nil pre (List.cons_ne_nil m post))
  | cons x xs ih =>
    rw [List.flatMap_cons] at h
    obtain ⟨rest, -, hrest⟩ | ⟨rest, hx, hrest⟩ := List.append_eq_append_iff.mp h
    · obtain ⟨l₁, y, l₂, a, b, rfl, hy, hpost⟩ := ih hrest
      exact ⟨x :: l₁, y, l₂, a, b, rfl, hy, hpost⟩
    · cases rest with
      | nil =>
        obtain ⟨l₁, y, l₂, a, b, rfl, hy, hpost⟩ := @ih [] hrest.symm
        exact ⟨x :: l₁, y, l₂, a, b, rfl, hy, hpost⟩
      | cons n rest =>
        obtain ⟨rfl, rfl⟩ := List.cons.inj hrest
        exact ⟨[], x, xs, pre, rest, rfl, hx, rfl⟩

/-- In the messages of a well-formed conversation, what follows a message with tool calls is the
user message that answers it: one message with its texts, if it has any, and then exactly the
messages of its results. -/
theorem results_follow (toStr : ToStr) (request : CompletionRequest) (stream : Bool)
    (hconv : WellFormed request.messages) (pre post : List Json) (m : Json)
    (hwire : bodyMessages (buildRequestBody toStr request stream) = pre ++ m :: post)
    (hrole : roleOf m = some "assistant") (hcalls : wireCalls m ≠ []) :
    ∃ earlier calls results later,
      request.messages = earlier ++ .assistant calls :: .user results :: later ∧
      m = serializeAssistantMessage toStr calls ∧
      post = userTexts results ++ (results.filterMap UserContent.toolMessage ++
        later.flatMap (serializeMessage toStr)) ∧
      Answers m (results.filterMap UserContent.toolMessage) := by
  rw [bodyMessages_buildRequestBody, wireMessages] at hwire
  -- the system prompt is not the message with calls
  cases pre with
  | nil =>
    obtain ⟨rfl, -⟩ := List.cons.inj hwire
    exact absurd rfl hcalls
  | cons n pre =>
    obtain ⟨earlier, message, later, a, b, hsplit, hm, hpost⟩ :=
      flatMap_eq_append_cons (List.cons.inj hwire).2
    have hmem : m ∈ serializeMessage toStr message := by
      rw [hm]
      exact List.mem_append_right a List.mem_cons_self
    obtain ⟨calls, rfl⟩ := eq_assistant_of_mem hmem hrole
    obtain ⟨-, hsingle⟩ | ⟨-, hnil⟩ := List.append_eq_singleton_iff.mp hm.symm
    · obtain ⟨rfl, rfl⟩ := List.cons.inj hsingle
      have hids : calls.filterMap ContentBlock.callId ≠ [] := by
        intro hnone
        apply hcalls
        have hwireIds := wireCallIds_serializeAssistantMessage toStr calls
        rw [hnone] at hwireIds
        exact List.map_eq_nil_iff.mp hwireIds
      obtain ⟨results, later', rfl, hone⟩ := hconv earlier calls later hsplit hids
      refine ⟨earlier, calls, results, later', hsplit, rfl, ?_, answers_of_oneEach hone⟩
      rw [hpost, List.nil_append, List.flatMap_cons, serializeMessage, serializeUserMessage,
        List.append_assoc]
    · cases hnil

/-! ### Instances -/

section Instances

/-- A call. -/
def searchCall : ContentBlock := .toolUse "call_1" "search" (.obj [])

/-- A result that answers it and a text the user adds. -/
def mixedReply : List UserContent := [.text "go on", .toolResult "call_1" "found" false]

/-- A conversation of the two. -/
def mixedRequest : CompletionRequest where
  model := "gpt-4o"
  system := "sys"
  messages := [.assistant [searchCall], .user mixedReply]
  maxTokens := 1024

theorem mixedRequest_wellFormed : WellFormed mixedRequest.messages := by
  intro earlier calls later hsplit hids
  cases earlier with
  | nil =>
    obtain ⟨hcalls, rfl⟩ := List.cons.inj hsplit
    obtain rfl := Llm.Message.assistant.inj hcalls
    exact ⟨mixedReply, [], rfl, by decide, fun id => Iff.rfl⟩
  | cons _ earlier =>
    cases earlier with
    | nil => cases (List.cons.inj (List.cons.inj hsplit).2).1
    | cons _ earlier =>
      exact absurd (List.cons.inj (List.cons.inj hsplit).2).2.symm
        (List.append_ne_nil_of_right_ne_nil _ (List.cons_ne_nil _ _))

theorem results_follow_mixed :
    ∃ earlier calls results later,
      mixedRequest.messages = earlier ++ .assistant calls :: .user results :: later ∧
      serializeAssistantMessage (fun _ => "\x7b\x7d") [searchCall] =
        serializeAssistantMessage (fun _ => "\x7b\x7d") calls ∧
      serializeUserMessage mixedReply =
        userTexts results ++ (results.filterMap UserContent.toolMessage ++
          later.flatMap (serializeMessage fun _ => "\x7b\x7d")) ∧
      Answers (serializeAssistantMessage (fun _ => "\x7b\x7d") [searchCall])
        (results.filterMap UserContent.toolMessage) :=
  results_follow (fun _ => "\x7b\x7d") mixedRequest false mixedRequest_wellFormed
    [textMessage "system" "sys"] (serializeUserMessage mixedReply)
    (serializeAssistantMessage (fun _ => "\x7b\x7d") [searchCall]) rfl rfl (List.cons_ne_nil _ _)

/-- The text comes between the call and its result. -/
theorem mixed_not_adjacent : ¬ ∀ toStr request stream, WellFormed request.messages →
    Adjacent (bodyMessages (buildRequestBody toStr request stream)) := by
  intro h
  obtain ⟨tools, rest, hpost, hanswers⟩ := h (fun _ => "\x7b\x7d") mixedRequest false
    mixedRequest_wellFormed [textMessage "system" "sys"]
    (serializeAssistantMessage (fun _ => "\x7b\x7d") [searchCall])
    (serializeUserMessage mixedReply) rfl rfl (List.cons_ne_nil _ _)
  have hcalled : some "call_1" ∈ tools.map answeredId := (hanswers.ids.2 _).mpr List.mem_cons_self
  cases tools with
  | nil => cases hcalled
  | cons t tools =>
    obtain ⟨rfl, -⟩ := List.cons.inj hpost
    exact absurd (hanswers.role _ List.mem_cons_self) (by decide)

end Instances

end Animus
