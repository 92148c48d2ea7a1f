import Animus.Llm.Server
import Mathlib.Data.List.DropRight

/-!
# What a stream sends and what it returns

Text and reasoning pass through the streaming loop in the same way: a delta is
sent and kept, and reaches the response when `[DONE]` is handled. What is kept
at the end of the stream was sent but is not in the response.

## Main definitions

- `Channel`: text or reasoning
- `Ledger`: what a channel has sent, put in blocks and kept
- `afterDone`: the events after the last `[DONE]`

## Main results

- `streamed_kept`: what is kept at the end of a stream
- `ok_stream_loses_nothing_iff`
- `ok_stream_loses_text`: a stream closed without `[DONE]`
-/

namespace Animus

/-- The two kinds of output that are streamed as plain text. -/
inductive Channel
  | text
  | thinking

namespace Channel

/-- The member of a delta that carries the channel. -/
def field : Channel → String
  | .text => "content"
  | .thinking => "reasoning_content"

def ofBlock : Channel → ContentBlock → String
  | .text => ContentBlock.textOf
  | .thinking => ContentBlock.thinkingOf

def ofEvent : Channel → StreamEvent → String
  | .text => StreamEvent.textOf
  | .thinking => StreamEvent.thinkingOf

def kept : Channel → StreamState → String
  | .text => StreamState.currentText
  | .thinking => StreamState.currentThinking

/-- What a delta says on the channel. -/
def ofDelta (ch : Channel) (delta : Json) : String := (delta.key ch.field).asStr.getD ""

/-- What an event says on the channel, if its payload is JSON. -/
def ofPayload (ch : Channel) (fromStr : FromStr) (e : SseEvent) : String :=
  match fromStr e.data with
  | .ok data => ch.ofDelta (((data.key "choices").idx 0).key "delta")
  | .error _ => ""

end Channel

/-- What a channel has sent, what is in blocks, and what is kept for later. -/
@[ext] structure Ledger where
  sent : String
  blocks : String
  kept : String

namespace Ledger

/-- A delta is sent and kept. -/
def deliver (l : Ledger) (d : String) : Ledger :=
  { l with sent := l.sent ++ d, kept := l.kept ++ d }

/-- What was kept becomes a block. -/
def flush (l : Ledger) : Ledger := { l with blocks := l.blocks ++ l.kept, kept := "" }

@[simp] theorem deliver_empty (l : Ledger) : l.deliver "" = l := by
  simp [deliver]

theorem deliver_deliver (l : Ledger) (d e : String) :
    (l.deliver d).deliver e = l.deliver (d ++ e) := by
  simp only [deliver, String.append_assoc]

/-- All that was sent is in blocks or kept. -/
def Balanced (l : Ledger) : Prop := l.sent = l.blocks ++ l.kept

theorem Balanced.deliver {l : Ledger} (h : l.Balanced) (d : String) : (l.deliver d).Balanced := by
  rw [Balanced, Ledger.deliver, h, String.append_assoc]

theorem Balanced.flush {l : Ledger} (h : l.Balanced) : l.flush.Balanced := by
  rw [Balanced, Ledger.flush, String.append_empty]
  exact h

/-- Sent and returned agree when nothing is kept. -/
theorem Balanced.eq_iff {l : Ledger} (h : l.Balanced) : l.blocks = l.sent ↔ l.kept = "" := by
  rw [h]
  constructor
  · intro heq
    have := congrArg String.length heq
    rw [String.length_append] at this
    exact String.length_eq_zero_iff.mp (by omega)
  · intro hk
    rw [hk, String.append_empty]

end Ledger

namespace StreamState

variable {fromStr : FromStr} (ch : Channel) (s : StreamState)

/-- The ledger of a channel. -/
def ledger : Ledger where
  sent := String.join (s.sent.map ch.ofEvent)
  blocks := String.join (s.contentBlocks.map ch.ofBlock)
  kept := ch.kept s

/-! ### One operation -/

theorem ledger_readFinishReason (data : Json) :
    (s.readFinishReason data).ledger ch = s.ledger ch := by
  unfold readFinishReason
  split <;> cases ch <;> rfl

theorem ledger_readUsage (data : Json) : (s.readUsage data).ledger ch = s.ledger ch := by
  unfold readUsage
  split <;> cases ch <;> rfl

theorem ledger_readThinking (delta : Json) : (s.readThinking delta).ledger ch =
    (s.ledger ch).deliver (match ch with
      | .thinking => Channel.thinking.ofDelta delta
      | .text => "") := by
  unfold readThinking Channel.ofDelta Channel.field
  cases ch <;> cases (delta.key "reasoning_content").asStr <;>
    simp [ledger, Ledger.deliver, send, Channel.kept, Channel.ofEvent, Channel.ofBlock,
      StreamEvent.textOf, StreamEvent.thinkingOf]

theorem ledger_readText (delta : Json) : (s.readText delta).ledger ch =
    (s.ledger ch).deliver (match ch with
      | .text => Channel.text.ofDelta delta
      | .thinking => "") := by
  unfold readText Channel.ofDelta Channel.field
  cases ch <;> cases (delta.key "content").asStr <;>
    simp [ledger, Ledger.deliver, send, Channel.kept, Channel.ofEvent, Channel.ofBlock,
      StreamEvent.textOf, StreamEvent.thinkingOf]

variable (fromStr) in
theorem ledger_flushTool : (s.flushTool fromStr).ledger ch = s.ledger ch := by
  unfold flushTool
  split
  · rfl
  · cases ch <;> simp [ledger, Channel.kept, Channel.ofBlock, ContentBlock.textOf,
      ContentBlock.thinkingOf]

theorem ledger_readToolCall (tc : Json) : (s.readToolCall fromStr tc).ledger ch = s.ledger ch := by
  have hstart : (s.startTool fromStr tc).ledger ch = s.ledger ch := by
    rw [← s.ledger_flushTool fromStr ch]
    unfold startTool
    split
    · cases ch <;> simp [ledger, send, Channel.kept, Channel.ofEvent, StreamEvent.textOf,
        StreamEvent.thinkingOf]
    · rw [ledger_flushTool]
  rw [← hstart]
  unfold readToolCall readArguments
  split
  · cases ch <;> simp [ledger, send, Channel.kept, Channel.ofEvent, StreamEvent.textOf,
      StreamEvent.thinkingOf]
  · rfl

theorem ledger_readToolCalls (delta : Json) :
    (s.readToolCalls fromStr delta).ledger ch = s.ledger ch := by
  unfold readToolCalls
  split
  · next toolCalls h =>
    clear h
    induction toolCalls generalizing s with
    | nil => rfl
    | cons tc tcs ih => rw [List.foldl_cons, ih, ledger_readToolCall]
  · rfl

theorem ledger_readData (data : Json) : (s.readData fromStr data).ledger ch =
    (s.ledger ch).deliver (ch.ofDelta (((data.key "choices").idx 0).key "delta")) := by
  unfold readData
  simp only [ledger_readToolCalls, ledger_readText, ledger_readThinking, ledger_readUsage,
    ledger_readFinishReason]
  cases ch <;> rw [Ledger.deliver_empty]

theorem ledger_finish : (s.finish fromStr).ledger ch = (s.ledger ch).flush := by
  have hsend : ∀ t : StreamState, (t.send .done).ledger ch = t.ledger ch := by
    intro t
    cases ch <;> simp [ledger, send, Channel.kept, Channel.ofEvent, StreamEvent.textOf,
      StreamEvent.thinkingOf]
  rw [finish, hsend, ledger_flushTool]
  by_cases ht : s.currentThinking = "" <;> by_cases hx : s.currentText = "" <;> cases ch <;>
    simp [flushText, flushThinking, ht, hx, ledger, Ledger.flush, Channel.kept, Channel.ofBlock,
      ContentBlock.textOf, ContentBlock.thinkingOf]

/-- What one event does to the ledger of a channel. -/
theorem ledger_readEvent (e : SseEvent) : (s.readEvent fromStr e).ledger ch =
    if e.data = "[DONE]" then (s.ledger ch).flush
    else (s.ledger ch).deliver (ch.ofPayload fromStr e) := by
  unfold readEvent Channel.ofPayload
  split
  · exact s.ledger_finish ch
  · cases fromStr e.data with
    | ok data => exact s.ledger_readData ch data
    | error _ => exact (Ledger.deliver_empty _).symm

/-! ### A whole stream -/

theorem ledger_balanced {s : StreamState} (h : (s.ledger ch).Balanced) (events : List SseEvent) :
    ((events.foldl (readEvent fromStr) s).ledger ch).Balanced := by
  induction events generalizing s with
  | nil => exact h
  | cons e events ih =>
    refine ih ?_
    rw [ledger_readEvent]
    split
    · exact h.flush
    · exact h.deliver _

end StreamState

/-- The events after the last `[DONE]`. -/
def afterDone (events : List SseEvent) : List SseEvent :=
  events.rtakeWhile fun e => e.data ≠ "[DONE]"

section Streamed

variable (fromStr : FromStr) (ch : Channel)

/-- What is kept at the end of a stream: the deltas after the last `[DONE]`. -/
theorem kept_foldl (events : List SseEvent) :
    ((events.foldl (StreamState.readEvent fromStr) {}).ledger ch).kept =
      String.join ((afterDone events).map (ch.ofPayload fromStr)) := by
  induction events using List.reverseRecOn with
  | nil => cases ch <;> simp [afterDone, StreamState.ledger, Channel.kept]
  | append_singleton events e ih =>
    rw [List.foldl_append, List.foldl_cons, List.foldl_nil, StreamState.ledger_readEvent, afterDone]
    by_cases hd : e.data = "[DONE]"
    · rw [if_pos hd, List.rtakeWhile_concat_neg _ _ _ (by simp [hd])]
      simp [Ledger.flush]
    · rw [if_neg hd, List.rtakeWhile_concat_pos _ _ _ (by simp [hd]), List.map_append,
        String.join_append, ← afterDone, ← ih]
      simp [Ledger.deliver]

theorem join_eq_empty_iff {l : List String} : String.join l = "" ↔ ∀ s ∈ l, s = "" := by
  induction l with
  | nil => simp
  | cons s l ih => simp [ih]

end Streamed

/-- A stream that ends without an error loses nothing exactly when nothing was said after the
last `[DONE]` it handled. -/
theorem ok_stream_loses_nothing_iff (fromStr : FromStr) (resp : HttpResponse)
    (r : CompletionResponse) (events : List StreamEvent)
    (h : completeStream fromStr (.ok resp) = (.ok r, events)) :
    (r.fullText = sentText events ∧ r.fullThinking = sentThinking events) ↔
      ∀ e ∈ afterDone (handledEvents resp.bytes), ∀ ch : Channel, ch.ofPayload fromStr e = "" := by
  obtain ⟨resp', chunks, heq, hd⟩ := delivers_of_ok (congrArg Prod.fst h)
  cases heq
  rw [completeStream_of_delivers hd] at h
  cases h
  -- what is sent is in blocks or kept, and what is kept is what came after the last `[DONE]`
  have hch : ∀ ch : Channel, ((streamed fromStr chunks).ledger ch).blocks =
      ((streamed fromStr chunks).ledger ch).sent ↔
      ∀ e ∈ afterDone (handledEvents chunks), ch.ofPayload fromStr e = "" := by
    intro ch
    have hstart : (({} : StreamState).ledger ch).Balanced := by cases ch <;> rfl
    rw [streamed, (StreamState.ledger_balanced ch hstart _).eq_iff, kept_foldl, join_eq_empty_iff,
      List.forall_mem_map]
  rw [hd.bytes_eq]
  refine (and_congr (hch .text) (hch .thinking)).trans ⟨?_, ?_⟩
  · rintro ⟨ht, hk⟩ e he ch
    cases ch with
    | text => exact ht e he
    | thinking => exact hk e he
  · intro hall
    exact ⟨fun e he => hall e he .text, fun e he => hall e he .thinking⟩

/-! ### A stream of one delta -/

def helloPayload : String := "\x7b\"choices\":[\x7b\"delta\":\x7b\"content\":\"Hello\"\x7d\x7d]\x7d"

def helloFromStr : FromStr := fun s =>
  if s = helloPayload then .ok (deltaJson [("content", .str "Hello")]) else .error "expected value"

/-- The delta, and what follows it. -/
def hello (rest : List String) : HttpResponse where
  status := 200
  chunks := [.ok (Utf8.encode (SseParser.wire (helloPayload :: rest)))]

theorem completeStream_hello (rest : List String)
    (h : ∀ t ∈ helloPayload :: rest, '\n' ∉ t.toList) :
    completeStream helloFromStr (.ok (hello rest)) =
      let s := (upToDone ((helloPayload :: rest).map (⟨none, ·⟩))).foldl
        (StreamState.readEvent helloFromStr) {}
      (.ok s.response, s.sent) := by
  have hd : (hello rest).delivers
      ([helloPayload :: rest].map fun ps => Utf8.encode (SseParser.wire ps)) := ⟨rfl, rfl⟩
  have hevents : handledEvents ([helloPayload :: rest].map fun ps => _) = _ :=
    handledEvents_wire (by simpa using h)
  rw [completeStream_of_delivers hd, streamed, hevents]
  simp

/-- A stream with `[DONE]` returns what it sent. -/
theorem ok_stream_loses_nothing_iff_hello :
    (String.join ["Hello"] = sentText [.textDelta "Hello", .done] ∧
      String.join [""] = sentThinking [.textDelta "Hello", .done]) ↔
      ∀ e ∈ afterDone (handledEvents (hello ["[DONE]"]).bytes), ∀ ch : Channel,
        ch.ofPayload helloFromStr e = "" :=
  ok_stream_loses_nothing_iff helloFromStr (hello ["[DONE]"]) ⟨[.text "Hello"], .endTurn, {}⟩
    [.textDelta "Hello", .done] (completeStream_hello _ (by decide))

/-- The server closes the connection after the delta: the text was sent, and is not returned. -/
theorem ok_stream_loses_text :
    ¬ ∀ fromStr resp r events, completeStream fromStr (.ok resp) = (.ok r, events) →
      r.fullText = sentText events ∧ r.fullThinking = sentThinking events := by
  intro h
  have hrun := completeStream_hello [] (by decide)
  exact absurd (h helloFromStr (hello []) ⟨[], .endTurn, {}⟩ [.textDelta "Hello"] hrun).1
    (by decide)

end Animus
