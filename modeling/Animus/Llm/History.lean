import Animus.Llm.Done
import Animus.Llm.Request

/-!
# Responses replayed as history

What a decoder returns goes back to the server as an assistant message of the
conversation. The encoder drops thinking blocks and leaves out a text and a list
of calls that are empty, so the message of a response with nothing but reasoning
carries neither.

## Main definitions

- `ContentBlock.sentBack`: the blocks the encoder keeps
- `replayBody`: a response body with the given message
- `CarriesContent`: a message with a text or with tool calls

## Main results

- `replay_faithful`: a replayed response is read back without its thinking blocks
- `carriesContent_iff`: which responses can be replayed
-/

namespace Animus

variable {fromStr : FromStr} {toStr : ToStr}

/-- A block that is not left out of the history. -/
def ContentBlock.sentBack : ContentBlock → Bool
  | .thinking _ => false
  | _ => true

/-- The message of a response body. -/
def bodyMessage (json : Json) : Json := ((json.key "choices").idx 0).key "message"

/-- A response body with the given message. -/
def replayBody (message : Json) : Json :=
  .object [("choices", .arr [.object [("message", message)]])]

/-- A message with a text or with tool calls. -/
def CarriesContent (m : Json) : Prop := (wireContent m).isSome ∨ wireCalls m ≠ []

/-! ### What the encoder makes of a parsed response -/

/-- The blocks of a parsed body. -/
theorem content_of_parse {json : Json} {r : CompletionResponse}
    (h : parseResponseBody fromStr json = .ok r) :
    r.content = proseBlock .thinking ((bodyMessage json).key "reasoning_content").asStr ++
      proseBlock .text (wireContent (bodyMessage json)) ++
      (wireCalls (bodyMessage json)).map (parseToolCall fromStr) := by
  unfold parseResponseBody at h
  split at h
  · cases h
  · next choice hchoice =>
    obtain rfl := Except.ok.inj h
    have hidx : (json.key "choices").idx 0 = choice := by rw [Json.idx, hchoice, Option.getD_some]
    rw [bodyMessage, hidx]
    rfl

/-- The encoder looks at the blocks that are sent back only. -/
theorem serialize_filter (content : List ContentBlock) :
    serializeAssistantMessage toStr (content.filter ContentBlock.sentBack) =
      serializeAssistantMessage toStr content := by
  unfold serializeAssistantMessage
  rw [List.filterMap_filter, List.filterMap_filter]
  congr 2 <;> congr 1 <;> funext block <;> cases block <;> rfl

section Parsed

variable {thinking text : Option String} {calls : List ContentBlock}

theorem sentBack_of_isToolUse {block : ContentBlock} (h : block.isToolUse = true) :
    block.sentBack = true := by
  cases block with
  | toolUse id name input => rfl
  | text t => rfl
  | thinking t => cases h

/-- The blocks of a text and calls that are sent back. -/
theorem filter_sentBack (hcalls : ∀ b ∈ calls, b.isToolUse = true) :
    (proseBlock .thinking thinking ++ proseBlock .text text ++ calls).filter ContentBlock.sentBack =
      proseBlock .text text ++ calls := by
  have hthinking : (proseBlock .thinking thinking).filter ContentBlock.sentBack = [] := by
    refine List.filter_eq_nil_iff.mpr fun b hb => ?_
    obtain ⟨t, rfl⟩ := AssistantMessage.mem_proseBlock hb
    exact Bool.false_ne_true
  have htext : (proseBlock .text text).filter ContentBlock.sentBack = proseBlock .text text := by
    refine List.filter_eq_self.mpr fun b hb => ?_
    obtain ⟨t, rfl⟩ := AssistantMessage.mem_proseBlock hb
    rfl
  rw [List.filter_append, List.filter_append, hthinking, htext, List.nil_append,
    List.filter_eq_self.mpr fun b hb => sentBack_of_isToolUse (hcalls b hb)]

theorem filterMap_proseBlock {α : Type} {block : String → ContentBlock}
    {part : ContentBlock → Option α} (h : ∀ t, part (block t) = none) (text : Option String) :
    (proseBlock block text).filterMap part = [] := by
  refine List.filterMap_eq_nil_iff.mpr fun b hb => ?_
  obtain ⟨t, rfl⟩ := AssistantMessage.mem_proseBlock hb
  exact h t

theorem textPart_of_isToolUse {block : ContentBlock} (h : block.isToolUse = true) :
    block.textPart = none := by
  cases block with
  | toolUse id name input => rfl
  | text t => cases h
  | thinking t => rfl

/-- The message of a text and calls. -/
theorem serialize_text_calls (hcalls : ∀ b ∈ calls, b.isToolUse = true) :
    serializeAssistantMessage toStr (proseBlock .text text ++ calls) =
      assistantMessage (text.getD "") (calls.filterMap (ContentBlock.toolCall toStr)) := by
  have hnotext : calls.filterMap ContentBlock.textPart = [] :=
    List.filterMap_eq_nil_iff.mpr fun b hb => textPart_of_isToolUse (hcalls b hb)
  have hnocalls : (proseBlock .text text).filterMap (ContentBlock.toolCall toStr) = [] :=
    filterMap_proseBlock (fun _ => rfl) text
  rw [serializeAssistantMessage, List.filterMap_append, List.filterMap_append, hnotext, hnocalls,
    List.append_nil, List.nil_append]
  congr 1
  cases text with
  | none => rfl
  | some t =>
    by_cases ht : t = ""
    · rw [ht]
      rfl
    · rw [proseBlock, if_neg ht]
      exact String.intercalate_singleton

end Parsed

theorem isToolUse_map_parseToolCall (calls : List Json) :
    ∀ b ∈ calls.map (parseToolCall fromStr), b.isToolUse = true := by
  intro b hb
  obtain ⟨tc, -, rfl⟩ := List.mem_map.mp hb
  rfl

/-- The message a parsed response is replayed as. -/
theorem serialize_of_parse {json : Json} {r : CompletionResponse}
    (h : parseResponseBody fromStr json = .ok r) :
    serializeAssistantMessage toStr r.content =
      assistantMessage ((wireContent (bodyMessage json)).getD "")
        (((wireCalls (bodyMessage json)).map (parseToolCall fromStr)).filterMap
          (ContentBlock.toolCall toStr)) := by
  rw [← serialize_filter, content_of_parse h, filter_sentBack (isToolUse_map_parseToolCall _),
    serialize_text_calls (isToolUse_map_parseToolCall _)]

/-! ### Reading a replayed response back -/

theorem parse_replayBody (m : Json) : parseResponseBody fromStr (replayBody m) = .ok {
    content := proseBlock .thinking (m.key "reasoning_content").asStr ++
      proseBlock .text (wireContent m) ++ (wireCalls m).map (parseToolCall fromStr)
    stopReason := .endTurn
    usage := ⟨0, 0⟩ } := rfl

theorem reasoning_assistantMessage (contentStr : String) (toolCalls : List Json) :
    (assistantMessage contentStr toolCalls).key "reasoning_content" = .null := by
  unfold assistantMessage
  split <;> split <;> rfl

theorem proseBlock_wireContent (text : Option String) (toolCalls : List Json) :
    proseBlock .text (wireContent (assistantMessage (text.getD "") toolCalls)) =
      proseBlock .text text := by
  rw [wireContent_assistantMessage]
  cases text with
  | none => rfl
  | some t =>
    rw [Option.getD_some]
    split
    · next ht => rw [ht]; rfl
    · rfl

/-- Calls are read back as they were, where their inputs are. -/
theorem parse_toolCalls {blocks : List ContentBlock} (hcalls : ∀ b ∈ blocks, b.isToolUse = true)
    (hundo : ∀ id name input, .toolUse id name input ∈ blocks → fromStr (toStr input) = .ok input) :
    (blocks.filterMap (ContentBlock.toolCall toStr)).map (parseToolCall fromStr) = blocks := by
  induction blocks with
  | nil => rfl
  | cons b blocks ih =>
    have hrest := ih (fun c hc => hcalls c (List.mem_cons_of_mem b hc))
      fun id name input hc => hundo id name input (List.mem_cons_of_mem b hc)
    cases b with
    | toolUse id name input =>
      have hinput : parseInput fromStr (toStr input) = input := by
        rw [parseInput, hundo id name input List.mem_cons_self]
      have hcall : parseToolCall fromStr (.object [("id", .str id), ("type", .str "function"),
          ("function", .object [("name", .str name), ("arguments", .str (toStr input))])]) =
            .toolUse id name (parseInput fromStr (toStr input)) := rfl
      rw [List.filterMap_cons, ContentBlock.toolCall, List.map_cons, hrest, hcall, hinput]
    | text t => cases hcalls _ List.mem_cons_self
    | thinking t => cases hcalls _ List.mem_cons_self

/-- A response that is replayed as history is read back without its thinking blocks, with the same
text and the same calls in the same order, where a JSON reader undoes what it has written. -/
theorem replay_faithful (fromStr : FromStr) (toStr : ToStr) (json : Json) (r : CompletionResponse)
    (h : parseResponseBody fromStr json = .ok r)
    (hundo : ∀ id name input, .toolUse id name input ∈ r.content →
      fromStr (toStr input) = .ok input) :
    ∃ r', parseResponseBody fromStr (replayBody (serializeAssistantMessage toStr r.content)) =
        .ok r' ∧ r'.content = r.content.filter ContentBlock.sentBack := by
  refine ⟨_, parse_replayBody _, ?_⟩
  rw [content_of_parse h] at hundo
  have hcalls := parse_toolCalls (isToolUse_map_parseToolCall (wireCalls (bodyMessage json)))
    fun id name input hmem => hundo id name input (List.mem_append_right _ hmem)
  rw [serialize_of_parse h, reasoning_assistantMessage, proseBlock_wireContent,
    wireCalls_assistantMessage, hcalls, content_of_parse h,
    filter_sentBack (isToolUse_map_parseToolCall _)]
  rfl

/-- A response with reasoning, a text and a call of an object without members. -/
def searching : AssistantMessage where
  reasoning := some "Let me think."
  content := some "I'll search."
  toolCalls := [⟨"call_1", "search", "\x7b\x7d"⟩]
  finishReason := "tool_calls"
  promptTokens := 20
  completionTokens := 15

theorem replay_faithful_searching :
    ∃ r', parseResponseBody (tableFromStr [("\x7b\x7d", .obj [])])
        (replayBody (serializeAssistantMessage (fun _ => "\x7b\x7d")
          [.thinking "Let me think.", .text "I'll search.",
            .toolUse "call_1" "search" (.obj [])])) = .ok r' ∧
      r'.content = [.text "I'll search.", .toolUse "call_1" "search" (.obj [])] := by
  refine replay_faithful (tableFromStr [("\x7b\x7d", .obj [])]) (fun _ => "\x7b\x7d")
    searching.body
    ⟨[.thinking "Let me think.", .text "I'll search.", .toolUse "call_1" "search" (.obj [])],
      .toolUse, ⟨20, 15⟩⟩ rfl fun id name input hmem => ?_
  obtain ⟨-, -, rfl⟩ : id = "call_1" ∧ name = "search" ∧ input = .obj [] := by simpa using hmem
  rfl

/-! ### Which responses can be replayed -/

/-- A joined text is empty when there is nothing to join, or only an empty part. -/
theorem intercalate_eq_empty_iff {parts : List String} (hne : ∀ t ∈ parts, t ≠ "") :
    "\n".intercalate parts = "" ↔ parts = [] := by
  cases parts with
  | nil => exact iff_of_true String.intercalate_nil rfl
  | cons t parts =>
    refine iff_of_false (fun heq => hne t List.mem_cons_self ?_) (List.cons_ne_nil t parts)
    cases parts with
    | nil => rwa [String.intercalate_singleton] at heq
    | cons u parts =>
      rw [String.intercalate_cons_cons, String.append_eq_empty_iff,
        String.append_eq_empty_iff] at heq
      exact heq.1.1

/-- Blocks without an empty text are sent back in some form unless all of them are reasoning. -/
theorem carriesContent_serialize_iff {content : List ContentBlock}
    (hne : ∀ t, .text t ∈ content → t ≠ "") :
    CarriesContent (serializeAssistantMessage toStr content) ↔
      (∃ t, .text t ∈ content) ∨ content.any ContentBlock.isToolUse = true := by
  have hpart : ∀ t, t ∈ content.filterMap ContentBlock.textPart ↔ .text t ∈ content := by
    intro t
    rw [List.mem_filterMap]
    constructor
    · rintro ⟨b, hb, hpart⟩
      cases b with
      | text u => exact Option.some.inj hpart ▸ hb
      | thinking u => cases hpart
      | toolUse id name input => cases hpart
    · exact fun ht => ⟨_, ht, rfl⟩
  rw [CarriesContent, serializeAssistantMessage, wireContent_assistantMessage,
    wireCalls_assistantMessage]
  -- the content string is that of the texts, the array that of the tool calls
  refine or_congr ?_ ?_
  · have hjoin := intercalate_eq_empty_iff fun t ht => hne t ((hpart t).mp ht)
    split
    · next hempty =>
      refine iff_of_false Bool.false_ne_true ?_
      rintro ⟨t, ht⟩
      have hmem := (hpart t).mpr ht
      rw [hjoin.mp hempty] at hmem
      cases hmem
    · next htext =>
      obtain ⟨t, ht⟩ := List.exists_mem_of_ne_nil _ fun hnil => htext (hjoin.mpr hnil)
      exact iff_of_true rfl ⟨t, (hpart t).mp ht⟩
  · rw [List.any_eq_true, Ne, List.filterMap_eq_nil_iff]
    push Not
    refine exists_congr fun b => and_congr_right fun _ => ?_
    cases b with
    | toolUse id name input => exact iff_of_true (Option.some_ne_none _) rfl
    | text t => exact iff_of_false (fun h => h rfl) Bool.false_ne_true
    | thinking t => exact iff_of_false (fun h => h rfl) Bool.false_ne_true

/-- A start of a tool call, by its id. -/
def ToolSignal.startId : ToolSignal → Option String
  | .start id _ => some id
  | .arguments _ => none

/-- The ids that a payload opens a call with; `[DONE]` closes the open call, as one without an id
does. -/
def openings (fromStr : FromStr) (payload : String) : List String :=
  if payload = "[DONE]" then [""]
  else (ToolSignal.ofDelta (deltaOf (payloadJson fromStr payload))).filterMap ToolSignal.startId

/-- The text of a payload. -/
def textOfPayload (fromStr : FromStr) (payload : String) : String :=
  if payload = "[DONE]" then "" else Channel.text.ofDelta (deltaOf (payloadJson fromStr payload))

/-- Text arrives, and a `[DONE]` later. -/
def TextDone (fromStr : FromStr) (payloads : List String) : Prop :=
  ∃ pre post, payloads = pre ++ "[DONE]" :: post ∧ ∃ t ∈ pre, textOfPayload fromStr t ≠ ""

/-- A call with an id starts, and another one or a `[DONE]` comes later. -/
def CallDone (fromStr : FromStr) (payloads : List String) : Prop :=
  ∃ id ∈ (payloads.flatMap (openings fromStr)).dropLast, id ≠ ""

/-- A call opens, and the one before it becomes a block if it has an id. -/
def opening (p : Bool × String) (id : String) : Bool × String := (p.1 || p.2 ≠ "", id)

/-- All calls but the last one opened become blocks. -/
theorem foldl_opening (ids : List String) :
    (ids.foldl opening (false, "")).1 = true ↔ ∃ id ∈ ids.dropLast, id ≠ "" := by
  have hall : ∀ ids : List String, (ids.foldl opening (false, "")).1 = true ∨
      (ids.foldl opening (false, "")).2 ≠ "" ↔ ∃ id ∈ ids, id ≠ "" := by
    intro ids
    induction ids using List.reverseRecOn with
    | nil => simp
    | append_singleton ids id ih => simp [opening, ih, or_and_right, exists_or]
  obtain rfl | ⟨init, last, rfl⟩ := ids.eq_nil_or_concat
  · simp
  · simp [opening, ← hall]

namespace StreamState

variable (s : StreamState)

/-- Is a call in blocks, and the id of the open one. -/
def callState : Bool × String := (s.contentBlocks.any ContentBlock.isToolUse, s.currentToolId)

variable (fromStr) in
theorem pending_finish :
    (s.finish fromStr).currentText = "" ∧ (s.finish fromStr).currentToolId = "" := by
  unfold finish flushTool flushText flushThinking
  split <;> split <;> split <;> simp_all [send]

variable (fromStr) in
theorem callState_finish : (s.finish fromStr).callState = opening s.callState "" := by
  have hprose : ∀ (block : String → ContentBlock) t, (∀ x, (block x).isToolUse = false) →
      (proseBlock block t).any ContentBlock.isToolUse = false := by
    intro block t hblock
    refine List.any_eq_false.mpr fun b hb => ?_
    obtain ⟨x, rfl⟩ := AssistantMessage.mem_proseBlock hb
    rw [hblock]
    exact Bool.false_ne_true
  have hopen : (s.openTool fromStr).any ContentBlock.isToolUse = decide (s.currentToolId ≠ "") := by
    unfold openTool
    split
    · next hid => rw [hid]; rfl
    · next hid => rw [decide_eq_true hid]; rfl
  rw [callState, (s.pending_finish fromStr).2, contentBlocks_finish, List.any_append,
    List.any_append, List.any_append, hprose _ _ fun _ => rfl, hprose _ _ fun _ => rfl, hopen,
    Bool.or_false, Bool.or_false]
  rfl

variable (fromStr) in
/-- What the calls of a ledger become by a sequence of signals. -/
theorem callState_foldl_signal (l : ToolLedger) (sigs : List ToolSignal) :
    ((sigs.foldl (ToolLedger.signal fromStr) l).blocks.any ContentBlock.isToolUse,
        (sigs.foldl (ToolLedger.signal fromStr) l).call.id) =
      (sigs.filterMap ToolSignal.startId).foldl opening
        (l.blocks.any ContentBlock.isToolUse, l.call.id) := by
  induction sigs generalizing l with
  | nil => rfl
  | cons sig sigs ih =>
    rw [List.foldl_cons, ih]
    cases sig with
    | arguments json => rfl
    | start id name =>
      have hopened : (l.call.opened fromStr).any ContentBlock.isToolUse =
          decide (l.call.id ≠ "") := by
        unfold ToolCall.opened
        split
        · next hid => rw [hid]; rfl
        · next hid => rw [decide_eq_true hid]; rfl
      rw [ToolLedger.signal, List.any_append, hopened]
      rfl

theorem callState_readData (data : Json) : (s.readData fromStr data).callState =
    ((ToolSignal.ofDelta (deltaOf data)).filterMap ToolSignal.startId).foldl opening
      s.callState := by
  have htools : (s.readData fromStr data).tools = _ := s.tools_readData data
  have hfold := callState_foldl_signal fromStr s.tools (ToolSignal.ofDelta (deltaOf data))
  rw [← htools] at hfold
  exact hfold

variable (fromStr) in
theorem callState_readPayload (payload : String) : (s.readPayload fromStr payload).callState =
    (openings fromStr payload).foldl opening s.callState := by
  unfold openings
  split
  · next hd =>
    rw [hd]
    exact s.callState_finish fromStr
  · next hd => rw [readPayload_eq hd, callState_readData]

variable (fromStr) in
/-- `[DONE]` puts the text kept in a block. -/
theorem mem_text_finish (t : String) : .text t ∈ (s.finish fromStr).contentBlocks ↔
    .text t ∈ s.contentBlocks ∨ t = s.currentText ∧ t ≠ "" := by
  have hthinking : .text t ∉ proseBlock .thinking (some s.currentThinking) := fun hb => by
    obtain ⟨x, hx⟩ := AssistantMessage.mem_proseBlock hb
    cases hx
  have hopen : .text t ∉ s.openTool fromStr := fun hb => by
    unfold openTool at hb
    split at hb <;> simp at hb
  have htext : .text t ∈ proseBlock .text (some s.currentText) ↔ t = s.currentText ∧ t ≠ "" := by
    by_cases hempty : s.currentText = ""
    · simp [proseBlock, hempty]
    · simp +contextual [proseBlock, hempty]
  rw [contentBlocks_finish, List.mem_append, List.mem_append, List.mem_append, htext]
  simp only [hthinking, hopen, false_or, or_false]

/-- A payload puts no text in a block. -/
theorem mem_text_readData (data : Json) (t : String) :
    .text t ∈ (s.readData fromStr data).contentBlocks ↔ .text t ∈ s.contentBlocks := by
  -- a signal opens tool calls or adds to them, and text is flushed only at `[DONE]`
  have hsignals : ∀ (sigs : List ToolSignal) (l : ToolLedger),
      .text t ∈ (sigs.foldl (ToolLedger.signal fromStr) l).blocks ↔ .text t ∈ l.blocks := by
    intro sigs
    induction sigs with
    | nil => exact fun l => Iff.rfl
    | cons sig sigs ih =>
      intro l
      rw [List.foldl_cons, ih]
      cases sig with
      | arguments json => exact Iff.rfl
      | start id name =>
        have hopened : .text t ∉ l.call.opened fromStr := fun hb => by
          unfold ToolCall.opened ToolCall.block at hb
          split at hb <;> simp at hb
        rw [ToolLedger.signal, List.mem_append]
        exact or_iff_left hopened
  have htools : (s.readData fromStr data).tools = _ := s.tools_readData data
  have hblocks : (s.readData fromStr data).contentBlocks = _ := congrArg ToolLedger.blocks htools
  rw [hblocks, hsignals]
  exact Iff.rfl

theorem currentText_readData (data : Json) : (s.readData fromStr data).currentText =
    s.currentText ++ Channel.text.ofDelta (deltaOf data) :=
  congrArg Ledger.kept (s.ledger_readData .text data)

end StreamState

theorem readAll_concat (payloads : List String) (t : String) (s : StreamState) :
    readAll fromStr (payloads ++ [t]) s = (readAll fromStr payloads s).readPayload fromStr t := by
  rw [readAll_append]
  rfl

variable (fromStr) in
theorem textDone_concat (payloads : List String) (t : String) :
    TextDone fromStr (payloads ++ [t]) ↔ TextDone fromStr payloads ∨
      t = "[DONE]" ∧ ∃ u ∈ payloads, textOfPayload fromStr u ≠ "" := by
  constructor
  · rintro ⟨pre, post, heq, hsaid⟩
    obtain rfl | ⟨post, last, rfl⟩ := post.eq_nil_or_concat
    · obtain ⟨rfl, hlast⟩ := List.append_inj' heq rfl
      exact .inr ⟨(List.cons.inj hlast).1, hsaid⟩
    · rw [List.concat_eq_append, ← List.cons_append, ← List.append_assoc] at heq
      exact .inl ⟨pre, post, (List.append_inj' heq rfl).1, hsaid⟩
  · rintro (⟨pre, post, rfl, hsaid⟩ | ⟨rfl, hsaid⟩)
    · exact ⟨pre, post ++ [t], by rw [List.append_assoc]; rfl, hsaid⟩
    · exact ⟨payloads, [], rfl, hsaid⟩

variable (fromStr) in
/-- The texts in blocks are those that arrive before a `[DONE]`. -/
theorem texts_readAll (payloads : List String) :
    (∀ t, .text t ∈ (readAll fromStr payloads {}).contentBlocks → t ≠ "") ∧
    ((∃ t, .text t ∈ (readAll fromStr payloads {}).contentBlocks) ↔ TextDone fromStr payloads) ∧
    ((∃ t, .text t ∈ (readAll fromStr payloads {}).contentBlocks) ∨
        (readAll fromStr payloads {}).currentText ≠ "" ↔
      ∃ t ∈ payloads, textOfPayload fromStr t ≠ "") := by
  induction payloads using List.reverseRecOn with
  | nil =>
    have hdone : ¬ TextDone fromStr [] := fun ⟨pre, post, heq, _⟩ =>
      List.append_ne_nil_of_right_ne_nil pre (List.cons_ne_nil _ post) heq.symm
    simp [readAll, hdone]
  | append_singleton payloads t ih =>
    obtain ⟨hne, hdone, hsaid⟩ := ih
    have hmore : (∃ u ∈ payloads ++ [t], textOfPayload fromStr u ≠ "") ↔
        (∃ u ∈ payloads, textOfPayload fromStr u ≠ "") ∨ textOfPayload fromStr t ≠ "" := by
      simp [or_and_right, exists_or]
    rw [readAll_concat, textDone_concat, hmore, ← hdone, ← hsaid]
    -- `[DONE]` flushes the open text to a block, any other payload adds to it
    by_cases hd : t = "[DONE]"
    · have hfinish : (readAll fromStr payloads {}).readPayload fromStr t =
          (readAll fromStr payloads {}).finish fromStr := by
        rw [hd]
        rfl
      have hnone : textOfPayload fromStr t = "" := if_pos hd
      have htext : (∃ u, .text u ∈ ((readAll fromStr payloads {}).finish fromStr).contentBlocks) ↔
          (∃ u, .text u ∈ (readAll fromStr payloads {}).contentBlocks) ∨
            (readAll fromStr payloads {}).currentText ≠ "" := by
        simp only [StreamState.mem_text_finish, exists_or, exists_eq_left]
      rw [hfinish, htext, hnone, (StreamState.pending_finish fromStr _).1]
      refine ⟨fun u hu => ?_, by simp [hd], by simp⟩
      obtain hu | ⟨-, hu⟩ := (StreamState.mem_text_finish fromStr _ u).mp hu
      · exact hne u hu
      · exact hu
    · have htext : textOfPayload fromStr t = Channel.text.ofDelta
          (deltaOf (payloadJson fromStr t)) := if_neg hd
      simp only [readPayload_eq hd, StreamState.mem_text_readData,
        StreamState.currentText_readData, ← htext]
      refine ⟨hne, by simp [hd], ?_⟩
      rw [Ne, String.append_eq_empty_iff, not_and_or, or_assoc]

/-! ### The responses that cannot be replayed -/

variable (fromStr) in
/-- The calls in blocks are those that another opening follows. -/
theorem calls_readAll (payloads : List String) :
    (readAll fromStr payloads {}).contentBlocks.any ContentBlock.isToolUse = true ↔
      CallDone fromStr payloads := by
  have hstate : (readAll fromStr payloads {}).callState =
      (payloads.flatMap (openings fromStr)).foldl opening (false, "") := by
    rw [List.foldl_flatMap]
    exact (List.foldl_hom StreamState.callState
      fun s t => (s.callState_readPayload fromStr t).symm).symm
  rw [CallDone, ← foldl_opening, ← hstate]
  rfl

/-- The message of a response carries a text or a call exactly when the body of the response has a
text or a call, and when in its stream a text arrives before a `[DONE]`, or a call with an id
starts before another one or a `[DONE]`. -/
theorem carriesContent_iff (fromStr : FromStr) (toStr : ToStr) :
    (∀ json r, parseResponseBody fromStr json = .ok r →
      (CarriesContent (serializeAssistantMessage toStr r.content) ↔
        (wireContent (bodyMessage json)).getD "" ≠ "" ∨ wireCalls (bodyMessage json) ≠ [])) ∧
    ∀ resp r events, completeStream fromStr (.ok resp) = (.ok r, events) →
      (CarriesContent (serializeAssistantMessage toStr r.content) ↔
        TextDone fromStr (handedPayloads resp.bytes) ∨
          CallDone fromStr (handedPayloads resp.bytes)) := by
  constructor
  · intro json r h
    rw [serialize_of_parse h, CarriesContent, wireContent_assistantMessage,
      wireCalls_assistantMessage]
    refine or_congr (by split <;> simp_all) (not_congr ?_)
    rw [List.filterMap_map, List.filterMap_eq_nil_iff, List.eq_nil_iff_forall_not_mem]
    exact forall_congr' fun tc => forall_congr' fun _ =>
      iff_of_false (Option.some_ne_none _) not_false
  · intro resp r events h
    obtain ⟨rfl, -⟩ := readAll_of_ok h
    obtain ⟨hne, hdone, -⟩ := texts_readAll fromStr (handedPayloads resp.bytes)
    exact (carriesContent_serialize_iff hne).trans (or_congr hdone (calls_readAll fromStr _))

/-- A message that is nothing but reasoning. -/
def reasoningOnly : AssistantMessage where
  reasoning := some "Let me think."
  content := none
  toolCalls := []
  finishReason := "stop"
  promptTokens := 20
  completionTokens := 15

/-- A message with a text. -/
def greeting : AssistantMessage := { reasoningOnly with content := some "Hello" }

theorem carriesContent_iff_greeting :
    (CarriesContent (serializeAssistantMessage (fun _ => "\x7b\x7d")
        [.thinking "Let me think.", .text "Hello"]) ↔
      (wireContent (bodyMessage greeting.body)).getD "" ≠ "" ∨
        wireCalls (bodyMessage greeting.body) ≠ []) ∧
    (CarriesContent (serializeAssistantMessage (fun _ => "\x7b\x7d") [.text "Hello"]) ↔
      TextDone helloFromStr (handedPayloads (hello ["[DONE]"]).bytes) ∨
        CallDone helloFromStr (handedPayloads (hello ["[DONE]"]).bytes)) :=
  ⟨(carriesContent_iff helloFromStr fun _ => "\x7b\x7d").1 greeting.body _
      (parseResponseBody_body greeting),
    (carriesContent_iff helloFromStr fun _ => "\x7b\x7d").2 (hello ["[DONE]"])
      ⟨[.text "Hello"], .endTurn, {}⟩ _ (completeStream_hello _ (by decide))⟩

/-- Neither the body of a message that is nothing but reasoning nor a stream that is closed before
`[DONE]` can be replayed. -/
theorem reasoning_not_replayed :
    ¬ (∀ fromStr toStr json r, parseResponseBody fromStr json = .ok r →
      CarriesContent (serializeAssistantMessage toStr r.content)) ∧
    ¬ ∀ fromStr toStr resp r events, completeStream fromStr (.ok resp) = (.ok r, events) →
      CarriesContent (serializeAssistantMessage toStr r.content) := by
  have hempty : ∀ content, content.filter ContentBlock.sentBack = [] →
      ¬ CarriesContent (serializeAssistantMessage (fun _ => "\x7b\x7d") content) := by
    intro content hnone hcarries
    rw [← serialize_filter, hnone] at hcarries
    obtain htext | hcalls := hcarries
    · cases htext
    · exact hcalls rfl
  constructor
  · intro h
    exact hempty _ rfl (h helloFromStr _ _ _ (parseResponseBody_body reasoningOnly))
  · intro h
    exact hempty [] rfl (h helloFromStr _ _ _ _ (completeStream_hello [] (by decide)))

end Animus
