import Animus.Llm.History
import Animus.Llm.Retry

/-!
# The `llm complete` command

With `--stream` the command prints from the events of the stream, and without it
from the blocks of the response; only the usage of a stream is taken from its
response. `pretty` stands for `serde_json::to_string_pretty`.

## Main definitions

- `formatOutput`: the output of a text, a reasoning and a usage
- `Printer`: the loop that prints deltas as they arrive
- `cmdLlmComplete`: the command, from the call of the client on
- `SameMessage`: a response body and payloads of the same message

## Main results

- `foldl_printEvent`: what the loop prints of a sequence of deltas
- `stream_prints_same`: both ways write the same to stdout
-/

namespace Animus

/-- What a command has written. -/
structure Terminal where
  stdout : String := ""
  stderr : String := ""
  deriving DecidableEq

namespace Terminal

def print (t : Terminal) (s : String) : Terminal := { t with stdout := t.stdout ++ s }

def eprint (t : Terminal) (s : String) : Terminal := { t with stderr := t.stderr ++ s }

end Terminal

/-- Why a command failed. -/
inductive CliError
  | llm (e : LlmError)
  | message (text : String)
  | panicked

/-- What a command wrote, and how it ended. -/
structure CliRun where
  terminal : Terminal
  result : Except CliError Unit

/-- Does the command report an error. -/
def CliRun.failed (run : CliRun) : Bool := !run.result.isOk

/-- Text content of a completion response. -/
def responseText (response : CompletionResponse) : String :=
  String.join (response.content.filterMap ContentBlock.textPart)

/-- The reasoning of a block. -/
def ContentBlock.thinkingPart : ContentBlock → Option String
  | .thinking t => some t
  | _ => none

/-- Thinking content of a completion response. -/
def responseThinking (response : CompletionResponse) : String :=
  String.join (response.content.filterMap ContentBlock.thinkingPart)

/-- `line.strip_suffix('\r')`. -/
def stripCr (line : List Char) : List Char :=
  if line.getLast? = some '\r' then line.dropLast else line

/-- `str::lines`: a line feed ends a line, as does one with a carriage return before it; what
follows the last one is a line unless it is empty. -/
def strLines (s : String) : List String :=
  let pieces := s.toList.splitOn '\n'
  (pieces.dropLast.map stripCr ++ pieces.getLast?.toList.filter (· ≠ [])).map String.ofList

/-- The lines of a text as an indented block. -/
def indented (s : String) : String := "\n".intercalate ((strLines s).map fun line => "  " ++ line)

/-- Format output according to the requested format. -/
def formatOutput (pretty : Json → String) (text thinking : String) (usage : Usage)
    (format : String) : Except String String :=
  match format with
  | "text" => .ok text
  | "json" => .ok (pretty (.object ([("text", .str text),
      ("usage", .object [("input", .num (.posInt usage.inputTokens.toUInt64)),
        ("output", .num (.posInt usage.outputTokens.toUInt64))])] ++
      if thinking = "" then [] else [("thinking", .str thinking)])))
  | "yaml" => .ok ((if thinking = "" then "" else s!"thinking: |\n{indented thinking}\n") ++
      s!"text: |\n{indented text}\nusage:\n  input: {usage.inputTokens.toNat}\n" ++
      s!"  output: {usage.outputTokens.toNat}")
  | other => .error s!"unknown format '{other}' — expected text, json, or yaml"

/-! ### Printing deltas as they arrive -/

/-- The loop that prints deltas as they arrive. -/
structure Printer where
  fullText : String := ""
  fullThinking : String := ""
  inThinking : Bool := false
  terminal : Terminal := {}

/-- One event. In the text format reasoning goes dimmed to stderr. -/
def printEvent (format : String) (p : Printer) (event : StreamEvent) : Printer :=
  match event with
  | .thinkingDelta text =>
    let p := { p with fullThinking := p.fullThinking ++ text }
    if format = "text" then
      let terminal := if p.inThinking then p.terminal else p.terminal.eprint "\x1b[2m"
      { p with inThinking := true, terminal := terminal.eprint text }
    else p
  | .textDelta text =>
    let p := { p with fullText := p.fullText ++ text }
    if format = "text" then
      let terminal := if p.inThinking then p.terminal.eprint "\x1b[0m\n" else p.terminal
      { p with inThinking := false, terminal := terminal.print text }
    else p
  | _ => p

/-- The events until `Done`. -/
def printEvents (format : String) (p : Printer) : List StreamEvent → Printer
  | [] => p
  | event :: events =>
    if event = .done then p else printEvents format (printEvent format p event) events

/-! ### The command -/

/-- What the two calls of a client come to; `complete` panicked where it has no result. -/
structure LlmClient where
  complete : Option (Except LlmError CompletionResponse)
  completeStream : Except LlmError CompletionResponse × List StreamEvent

section Command

variable (pretty : Json → String)

/-- The last output of a command. -/
def printOutput (terminal : Terminal) (output : Except String String) : CliRun :=
  match output with
  | .error text => ⟨terminal, .error (.message text)⟩
  | .ok output => ⟨terminal.print (output ++ "\n"), .ok ()⟩

/-- The command from the call of the client on. -/
def cmdLlmComplete (client : LlmClient) (format : String) (stream : Bool) : CliRun :=
  if stream then
    let p := printEvents format {} client.completeStream.2
    let terminal := if p.inThinking then p.terminal.eprint "\x1b[0m" else p.terminal
    match client.completeStream.1 with
    | .error e => ⟨terminal, .error (.llm e)⟩
    | .ok response =>
      -- the text is printed already
      if format = "text" then ⟨terminal.print "\n", .ok ()⟩
      else printOutput terminal
        (formatOutput pretty p.fullText p.fullThinking response.usage format)
  else match client.complete with
    | none => ⟨{}, .error .panicked⟩
    | some (.error e) => ⟨{}, .error (.llm e)⟩
    | some (.ok response) =>
      let thinking := responseThinking response
      let terminal : Terminal :=
        if thinking ≠ "" ∧ format = "text" then { stderr := s!"\x1b[2m{thinking}\x1b[0m\n" } else {}
      printOutput terminal
        (formatOutput pretty (responseText response) thinking response.usage format)

end Command

/-- The line an output is printed as. -/
def outputLine : Except String String → String
  | .ok output => output ++ "\n"
  | .error _ => ""

theorem printOutput_spec (terminal : Terminal) (output : Except String String) :
    (printOutput terminal output).terminal.stdout = terminal.stdout ++ outputLine output ∧
      (printOutput terminal output).failed = !output.isOk := by
  cases output with
  | ok output => exact ⟨rfl, rfl⟩
  | error text => exact ⟨String.append_empty.symm, rfl⟩

section Runs

variable (pretty : Json → String) (format : String) {client : LlmClient}
  {response : CompletionResponse}

/-- The command with `--stream`, once the stream has returned a response. -/
theorem cmdLlmComplete_stream {events : List StreamEvent}
    (h : client.completeStream = (.ok response, events)) :
    (cmdLlmComplete pretty client format true).terminal.stdout =
      (printEvents format {} events).terminal.stdout ++ (if format = "text" then "\n" else
        outputLine (formatOutput pretty (printEvents format {} events).fullText
          (printEvents format {} events).fullThinking response.usage format)) ∧
    (cmdLlmComplete pretty client format true).failed = if format = "text" then false else
      !(formatOutput pretty (printEvents format {} events).fullText
        (printEvents format {} events).fullThinking response.usage format).isOk := by
  have hreset : ∀ p : Printer, (if p.inThinking then p.terminal.eprint "\x1b[0m"
      else p.terminal).stdout = p.terminal.stdout := by
    intro p
    split <;> rfl
  rw [cmdLlmComplete, if_pos rfl, h]
  by_cases hformat : format = "text"
  · simp only [if_pos hformat]
    exact ⟨congrArg (· ++ "\n") (hreset _), rfl⟩
  · simp only [if_neg hformat]
    obtain ⟨hstdout, hfailed⟩ := printOutput_spec _ _
    exact ⟨hstdout.trans (congrArg (· ++ _) (hreset _)), hfailed⟩

/-- The command without `--stream`, once the call has returned a response. -/
theorem cmdLlmComplete_once (h : client.complete = some (.ok response)) :
    (cmdLlmComplete pretty client format false).terminal.stdout =
      outputLine (formatOutput pretty (responseText response) (responseThinking response)
        response.usage format) ∧
    (cmdLlmComplete pretty client format false).failed =
      !(formatOutput pretty (responseText response) (responseThinking response) response.usage
        format).isOk := by
  rw [cmdLlmComplete, if_neg Bool.false_ne_true, h]
  obtain ⟨hstdout, hfailed⟩ := printOutput_spec _ _
  refine ⟨hstdout.trans ?_, hfailed⟩
  split <;> exact String.empty_append

end Runs

/-! ### What the loop prints -/

/-- What one event adds. -/
theorem printEvent_adds (format : String) (p : Printer) (event : StreamEvent) :
    (printEvent format p event).fullText = p.fullText ++ event.textOf ∧
    (printEvent format p event).fullThinking = p.fullThinking ++ event.thinkingOf ∧
    (printEvent format p event).terminal.stdout =
      p.terminal.stdout ++ if format = "text" then event.textOf else "" := by
  by_cases hf : format = "text" <;> cases hin : p.inThinking <;> cases event <;>
    simp [printEvent, hf, hin, Terminal.print, Terminal.eprint, StreamEvent.textOf,
      StreamEvent.thinkingOf]

/-- The deltas of a sequence of events, and what the text format has printed of them. -/
theorem foldl_printEvent (format : String) (p : Printer) (events : List StreamEvent) :
    (events.foldl (printEvent format) p).fullText = p.fullText ++ sentText events ∧
    (events.foldl (printEvent format) p).fullThinking = p.fullThinking ++ sentThinking events ∧
    (events.foldl (printEvent format) p).terminal.stdout =
      p.terminal.stdout ++ if format = "text" then sentText events else "" := by
  induction events generalizing p with
  | nil =>
    refine ⟨(String.append_empty).symm, (String.append_empty).symm, ?_⟩
    split <;> exact (String.append_empty).symm
  | cons event events ih =>
    obtain ⟨htext, hthinking, hout⟩ := ih (printEvent format p event)
    obtain ⟨htext', hthinking', hout'⟩ := printEvent_adds format p event
    rw [List.foldl_cons, htext, hthinking, hout, htext', hthinking', hout']
    simp only [sentText, sentThinking, List.map_cons, String.join_cons, String.append_assoc]
    refine ⟨trivial, trivial, ?_⟩
    split <;> simp

theorem printEvents_done (format : String) (p : Printer) {events : List StreamEvent}
    (h : StreamEvent.done ∉ events) :
    printEvents format p (events ++ [.done]) = events.foldl (printEvent format) p := by
  induction events generalizing p with
  | nil => rfl
  | cons event events ih =>
    rw [List.mem_cons, not_or] at h
    rw [List.cons_append, printEvents, if_neg (Ne.symm h.1), ih _ h.2, List.foldl_cons]

/-! ### With and without `--stream` -/

/-- A response body and payloads say the same: reasoning, text and usage, each in any number of
pieces and in any order. Tool calls are not printed. -/
structure SameMessage (body : Json) (values : List Json) : Prop where
  choice : ((body.key "choices").getIdx 0).isSome
  reasoning : ((bodyMessage body).key "reasoning_content").asStr.getD "" =
    (summary values).reasoning
  content : (wireContent (bodyMessage body)).getD "" = (summary values).content
  promptTokens : ((body.key "usage").key "prompt_tokens").asU64.getD 0 =
    (summary values).promptTokens.getD 0
  completionTokens : ((body.key "usage").key "completion_tokens").asU64.getD 0 =
    (summary values).completionTokens.getD 0

section Output

variable {fromStr : FromStr} {body : Json} {values : List Json}

theorem thinkingPart_of_isToolUse {block : ContentBlock} (h : block.isToolUse = true) :
    block.thinkingPart = none := by
  cases block with
  | toolUse id name input => rfl
  | text t => rfl
  | thinking t => cases h

theorem join_proseBlock {block : String → ContentBlock} {part : ContentBlock → Option String}
    (h : ∀ t, part (block t) = some t) (text : Option String) :
    String.join ((proseBlock block text).filterMap part) = text.getD "" := by
  cases text with
  | none => rfl
  | some t =>
    by_cases ht : t = ""
    · rw [ht]
      rfl
    · simp [proseBlock, ht, h]

/-- What the command takes from the response of a body. -/
theorem output_of_body (hchoice : ((body.key "choices").getIdx 0).isSome) :
    ∃ r, parseResponseBody fromStr body = .ok r ∧
      responseThinking r = ((bodyMessage body).key "reasoning_content").asStr.getD "" ∧
      responseText r = (wireContent (bodyMessage body)).getD "" ∧
      r.usage = ⟨(((body.key "usage").key "prompt_tokens").asU64.getD 0).toUInt32,
        (((body.key "usage").key "completion_tokens").asU64.getD 0).toUInt32⟩ := by
  obtain ⟨choice, hchoice⟩ := Option.isSome_iff_exists.mp hchoice
  have hparse : ∃ r, parseResponseBody fromStr body = .ok r ∧
      r.usage = ⟨(((body.key "usage").key "prompt_tokens").asU64.getD 0).toUInt32,
        (((body.key "usage").key "completion_tokens").asU64.getD 0).toUInt32⟩ := by
    unfold parseResponseBody
    rw [hchoice]
    exact ⟨_, rfl, rfl⟩
  obtain ⟨r, hparse, husage⟩ := hparse
  have hcalls : ∀ part : ContentBlock → Option String,
      (∀ b, b.isToolUse = true → part b = none) →
      ((wireCalls (bodyMessage body)).map (parseToolCall fromStr)).filterMap part = [] :=
    fun part hpart => List.filterMap_eq_nil_iff.mpr fun b hb =>
      hpart b (isToolUse_map_parseToolCall _ b hb)
  -- each of the three groups of blocks gives a part to one of the two outputs at most
  have htext : ∀ text, (proseBlock .text text).filterMap ContentBlock.thinkingPart = [] :=
    filterMap_proseBlock fun _ => rfl
  have hthinking : ∀ text, (proseBlock .thinking text).filterMap ContentBlock.textPart = [] :=
    filterMap_proseBlock fun _ => rfl
  refine ⟨r, hparse, ?_, ?_, husage⟩
  · rw [responseThinking, content_of_parse hparse, List.filterMap_append, List.filterMap_append,
      hcalls _ fun b hb => thinkingPart_of_isToolUse hb, htext, List.append_nil,
      List.append_nil, join_proseBlock fun _ => rfl]
  · rw [responseText, content_of_parse hparse, List.filterMap_append, List.filterMap_append,
      hcalls _ fun b hb => textPart_of_isToolUse hb, hthinking, List.append_nil,
      List.nil_append, join_proseBlock fun _ => rfl]

/-- What the command takes from the stream of payloads. -/
theorem output_of_stream (fromStr : FromStr) (values : List Json) :
    sentThinking (accumulated fromStr values).sent = (summary values).reasoning ∧
    sentText (accumulated fromStr values).sent = (summary values).content ∧
    ((accumulated fromStr values).finish fromStr).usage =
      ⟨((summary values).promptTokens.getD 0).toUInt32,
        ((summary values).completionTokens.getD 0).toUInt32⟩ := by
  refine ⟨congrArg Ledger.sent (ledger_accumulated fromStr values .thinking),
    congrArg Ledger.sent (ledger_accumulated fromStr values .text), ?_⟩
  have hending : (accumulated fromStr values).ending = _ :=
    (StreamState.ending_foldl {} values).trans (foldl_read_ending values _)
  have husage : (accumulated fromStr values).usage = ⟨_, _⟩ :=
    congrArg₂ Usage.mk (congrArg Ending.inputTokens hending) (congrArg Ending.outputTokens hending)
  have hmap : ∀ o : Option UInt64, (o.map UInt64.toUInt32).getD 0 = (o.getD 0).toUInt32 :=
    fun o => by cases o <;> rfl
  rw [(StreamState.stopReason_finish fromStr _).2, husage]
  exact congrArg₂ Usage.mk (hmap _) (hmap _)

end Output

/-- The client of a server that sends `responses` to one call and `streamed` to the other. -/
def openAiClient (fromStr : FromStr) (json : HttpResponse → Except String Json) (checked : Bool)
    (maxRetries : UInt32) (responses : ℕ → HttpResponse) (streamed : HttpResponse) : LlmClient where
  complete := (completeRun fromStr json checked maxRetries responses).1
  completeStream := completeStream fromStr (.ok streamed)

/-- With and without `--stream` the command writes the same to stdout and fails together, for
every format, however the message is cut into deltas. -/
theorem stream_prints_same (pretty : Json → String) (format : String) (fromStr : FromStr)
    (json : HttpResponse → Except String Json) (checked : Bool) (maxRetries : UInt32)
    (responses : ℕ → HttpResponse) (streamed : HttpResponse) (body : Json) (values : List Json)
    (hok : (responses 0).isSuccess = true) (hbody : json (responses 0) = .ok body)
    (hstream : Streams fromStr streamed values) (hsame : SameMessage body values) :
    let client := openAiClient fromStr json checked maxRetries responses streamed
    (cmdLlmComplete pretty client format true).terminal.stdout =
      (cmdLlmComplete pretty client format false).terminal.stdout ∧
    (cmdLlmComplete pretty client format true).failed =
      (cmdLlmComplete pretty client format false).failed := by
  intro client
  obtain ⟨r, hparse, hthinking, htext, husage⟩ := output_of_body hsame.choice
  obtain ⟨hsentThinking, hsentText, hstreamUsage⟩ := output_of_stream fromStr values
  have hcomplete : client.complete = some (.ok r) := by
    refine (completeRun_of_isSuccess hok).trans (congrArg some ?_)
    rw [readResponse, if_neg (by rw [hok]; exact Bool.noConfusion), hbody]
    exact hparse
  have hcompleteStream : client.completeStream = _ := completeStream_of_streams hstream
  have hdone : StreamEvent.done ∉ (accumulated fromStr values).sent :=
    done_not_mem_foldl fromStr values List.not_mem_nil
  have hprinted := foldl_printEvent format {} (accumulated fromStr values).sent
  rw [← printEvents_done format {} hdone, ← sent_finish fromStr, hsentText,
    hsentThinking] at hprinted
  obtain ⟨hfullText, hfullThinking, hstdout⟩ := hprinted
  -- both ways hand the same text, reasoning and usage to the same output
  have houtput : formatOutput pretty
      (printEvents format {} ((accumulated fromStr values).finish fromStr).sent).fullText
      (printEvents format {} ((accumulated fromStr values).finish fromStr).sent).fullThinking
      ((accumulated fromStr values).finish fromStr).response.usage format =
      formatOutput pretty (responseText r) (responseThinking r) r.usage format := by
    rw [hfullText, hfullThinking, String.empty_append, String.empty_append, htext, hthinking,
      hsame.content, hsame.reasoning, husage, hsame.promptTokens, hsame.completionTokens]
    exact congrArg (formatOutput pretty _ _ · format) hstreamUsage
  obtain ⟨hstream, hstreamFailed⟩ := cmdLlmComplete_stream pretty format hcompleteStream
  obtain ⟨honce, honceFailed⟩ := cmdLlmComplete_once pretty format hcomplete
  rw [hstream, hstreamFailed, honce, honceFailed, houtput, hstdout]
  by_cases hformat : format = "text"
  · rw [if_pos hformat, if_pos hformat, if_pos hformat, hformat, ← hsame.content, ← htext,
      String.empty_append]
    exact ⟨rfl, rfl⟩
  · rw [if_neg hformat, if_neg hformat, if_neg hformat]
    exact ⟨String.empty_append, rfl⟩

/-- The text of `piecePayloads` as a response. -/
def seeBody : String × Json :=
  ("\x7b\"choices\":[\x7b\"message\":\x7b\"content\":\"Let me see.\"\x7d\x7d]\x7d",
    .obj [("choices", .arr [.obj [("message", .obj [("content", .str "Let me see.")])]])])

theorem sameMessage_see : SameMessage seeBody.2 (piecePayloads.map Prod.snd) where
  choice := rfl
  reasoning := by decide
  content := by decide
  promptTokens := rfl
  completionTokens := rfl

def seeResponse : HttpResponse := { status := 200, text := .ok seeBody.1 }

/-- The two ways to get the message. -/
def seeClient : LlmClient :=
  openAiClient pieceFromStr (fun resp => resp.text.bind (tableFromStr [seeBody])) true 3
    (fun _ => seeResponse) (streamOf (piecePayloads.map Prod.fst))

/-- A text in one response, and in two deltas with a tool call between them. -/
theorem stream_prints_same_see :
    (cmdLlmComplete (fun _ => "\x7b\x7d") seeClient "text" true).terminal.stdout =
      (cmdLlmComplete (fun _ => "\x7b\x7d") seeClient "text" false).terminal.stdout ∧
    (cmdLlmComplete (fun _ => "\x7b\x7d") seeClient "text" true).failed =
      (cmdLlmComplete (fun _ => "\x7b\x7d") seeClient "text" false).failed :=
  stream_prints_same (fun _ => "\x7b\x7d") "text" pieceFromStr
    (fun resp => resp.text.bind (tableFromStr [seeBody])) true 3 (fun _ => seeResponse)
    (streamOf (piecePayloads.map Prod.fst)) seeBody.2 (piecePayloads.map Prod.snd) rfl (by rfl)
    streams_pieces sameMessage_see

end Animus
