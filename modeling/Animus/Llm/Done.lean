import Animus.Llm.Accumulators
import Animus.Llm.Delivery

/-!
# The end of a stream

`[DONE]` sends `Done` and ends the events of its chunk. A stream that closes
without it ends without `Done`, and what later chunks carry is still read.

## Main definitions

- `Says`: a step sends a number of events, none of them `Done`
- `Silent`: a payload that has nothing to send
- `readAll`: the state after a sequence of payloads

## Main results

- `says_readData`
- `done_ends_once_iff`
- `done_missing_or_early`: a stream without `[DONE]`, and one that goes on after it
-/

namespace Animus

variable {fromStr : FromStr}

/-- The second state has sent `n` events more, none of them `Done`. -/
def Says (n : ℕ) (s s' : StreamState) : Prop :=
  ∃ es, es.length = n ∧ StreamEvent.done ∉ es ∧ s'.sent = s.sent ++ es

theorem Says.refl (s : StreamState) : Says 0 s s :=
  ⟨[], rfl, List.not_mem_nil, (List.append_nil _).symm⟩

theorem Says.trans {m n : ℕ} {s t u : StreamState} (h : Says m s t) (h' : Says n t u) :
    Says (m + n) s u := by
  obtain ⟨es, hlen, hdone, hsent⟩ := h
  obtain ⟨es', hlen', hdone', hsent'⟩ := h'
  refine ⟨es ++ es', ?_, ?_, ?_⟩
  · rw [List.length_append, hlen, hlen']
  · rw [List.mem_append, not_or]
    exact ⟨hdone, hdone'⟩
  · rw [hsent', hsent, List.append_assoc]

/-- How many events a payload has to send. -/
def weight (data : Json) : ℕ :=
  ((deltaOf data).key "reasoning_content").asStr.toList.length +
    ((deltaOf data).key "content").asStr.toList.length +
    (ToolSignal.ofDelta (deltaOf data)).length

/-- A payload that has nothing to send. -/
structure Silent (data : Json) : Prop where
  thinking : ((deltaOf data).key "reasoning_content").asStr = none
  text : ((deltaOf data).key "content").asStr = none
  tools : ToolSignal.ofDelta (deltaOf data) = []

theorem weight_eq_zero_iff {data : Json} : weight data = 0 ↔ Silent data := by
  have hnone : ∀ o : Option String, o.toList.length = 0 ↔ o = none := fun o => by
    rw [List.length_eq_zero_iff, Option.toList_eq_nil_iff]
  rw [weight, Nat.add_eq_zero_iff, Nat.add_eq_zero_iff, hnone, hnone, List.length_eq_zero_iff]
  exact ⟨fun h => ⟨h.1.1, h.1.2, h.2⟩, fun h => ⟨⟨h.thinking, h.text⟩, h.tools⟩⟩

/-! ### What a payload sends -/

namespace StreamState

variable (s : StreamState)

theorem says_send {t : StreamState} {e : StreamEvent} (h : t.sent = s.sent) (he : e ≠ .done) :
    Says 1 s (t.send e) := by
  refine ⟨[e], rfl, ?_, by rw [send, h]⟩
  rw [List.mem_singleton]
  exact he.symm

theorem says_readFinishReason (data : Json) : Says 0 s (s.readFinishReason data) := by
  unfold readFinishReason
  split <;> exact Says.refl s

theorem says_readUsage (data : Json) : Says 0 s (s.readUsage data) := by
  unfold readUsage
  split <;> exact Says.refl s

theorem says_readThinking (delta : Json) :
    Says (delta.key "reasoning_content").asStr.toList.length s (s.readThinking delta) := by
  unfold readThinking
  cases (delta.key "reasoning_content").asStr with
  | none => exact Says.refl s
  | some t => exact s.says_send rfl StreamEvent.noConfusion

theorem says_readText (delta : Json) :
    Says (delta.key "content").asStr.toList.length s (s.readText delta) := by
  unfold readText
  cases (delta.key "content").asStr with
  | none => exact Says.refl s
  | some t => exact s.says_send rfl StreamEvent.noConfusion

variable (fromStr) in
theorem sent_flushTool : (s.flushTool fromStr).sent = s.sent := by
  unfold flushTool
  split <;> rfl

theorem says_readToolCall (tc : Json) :
    Says (ToolSignal.ofEntry tc).length s (s.readToolCall fromStr tc) := by
  rw [ToolSignal.ofEntry, List.length_append]
  refine Says.trans (t := s.startTool fromStr tc) ?_ ?_
  · unfold startTool
    cases (tc.key "id").asStr with
    | none => exact Says.refl s
    | some id => exact s.says_send (s.sent_flushTool fromStr) StreamEvent.noConfusion
  · unfold readToolCall readArguments
    cases ((tc.key "function").key "arguments").asStr with
    | none => exact Says.refl _
    | some args => exact says_send _ rfl StreamEvent.noConfusion

theorem says_readToolCalls (delta : Json) :
    Says (ToolSignal.ofDelta delta).length s (s.readToolCalls fromStr delta) := by
  unfold readToolCalls ToolSignal.ofDelta
  cases (delta.key "tool_calls").asArray with
  | none => exact Says.refl s
  | some tcs =>
    rw [Option.getD_some]
    induction tcs generalizing s with
    | nil => exact Says.refl s
    | cons tc tcs ih =>
      rw [List.flatMap_cons, List.length_append]
      exact (s.says_readToolCall tc).trans (ih _)

theorem says_readData (data : Json) : Says (weight data) s (s.readData fromStr data) := by
  have hstart := (s.says_readFinishReason data).trans (says_readUsage _ data)
  rw [weight, ← Nat.zero_add (List.length _)]
  exact ((hstart.trans (says_readThinking _ _)).trans (says_readText _ _)).trans
    (says_readToolCalls _ _)

end StreamState

/-! ### A sequence of payloads -/

/-- The state after a sequence of payloads. -/
def readAll (fromStr : FromStr) (payloads : List String) (s : StreamState) : StreamState :=
  payloads.foldl (StreamState.readPayload fromStr) s

/-- Why and at what cost the message ended, as the payloads say. -/
def endingOf (fromStr : FromStr) (payloads : List String) : Ending :=
  (payloads.map (payloadJson fromStr)).foldl Ending.read ⟨.endTurn, 0, 0⟩

theorem readAll_append (a b : List String) (s : StreamState) :
    readAll fromStr (a ++ b) s = readAll fromStr b (readAll fromStr a s) := List.foldl_append

variable (fromStr) in
/-- What payloads send is not `Done`. -/
theorem done_not_mem_foldl (values : List Json) {s : StreamState}
    (hs : StreamEvent.done ∉ s.sent) :
    StreamEvent.done ∉ (values.foldl (StreamState.readData fromStr) s).sent := by
  induction values generalizing s with
  | nil => exact hs
  | cons data values ih =>
    refine ih ?_
    obtain ⟨es, -, hdone, hsent⟩ := s.says_readData data
    rw [hsent, List.mem_append, not_or]
    exact ⟨hs, hdone⟩

variable (fromStr) in
/-- What is sent before `[DONE]` is not `Done`. -/
theorem done_not_mem_readAll {payloads : List String} (h : "[DONE]" ∉ payloads) {s : StreamState}
    (hs : StreamEvent.done ∉ s.sent) : StreamEvent.done ∉ (readAll fromStr payloads s).sent := by
  rw [readAll, foldl_readPayload_eq h]
  exact done_not_mem_foldl fromStr _ hs

variable (fromStr) in
theorem sent_prefix_readPayload (s : StreamState) (t : String) :
    s.sent <+: (s.readPayload fromStr t).sent := by
  by_cases hd : t = "[DONE]"
  · have hfinish : s.readPayload fromStr t = s.finish fromStr := by
      rw [hd]
      rfl
    rw [hfinish, sent_finish]
    exact List.prefix_append _ _
  · obtain ⟨es, -, -, hsent⟩ := s.says_readData (payloadJson fromStr t)
    rw [readPayload_eq hd, hsent]
    exact List.prefix_append _ _

variable (fromStr) in
theorem sent_prefix_readAll (payloads : List String) (s : StreamState) :
    s.sent <+: (readAll fromStr payloads s).sent := by
  induction payloads generalizing s with
  | nil => exact List.prefix_rfl
  | cons t payloads ih => exact (sent_prefix_readPayload fromStr s t).trans (ih _)

theorem sent_readPayload_eq_iff {s : StreamState} {t : String} :
    (s.readPayload fromStr t).sent = s.sent ↔
      t ≠ "[DONE]" ∧ Silent (payloadJson fromStr t) := by
  by_cases hd : t = "[DONE]"
  · refine iff_of_false (fun heq => ?_) fun h => h.1 hd
    have hfinish : s.readPayload fromStr t = s.finish fromStr := by
      rw [hd]
      rfl
    rw [hfinish, sent_finish] at heq
    exact List.cons_ne_nil _ _ (List.append_right_eq_self.mp heq)
  · obtain ⟨es, hlen, -, hsent⟩ := s.says_readData (payloadJson fromStr t)
    rw [readPayload_eq hd, hsent, List.append_right_eq_self, ← weight_eq_zero_iff, ← hlen,
      List.length_eq_zero_iff]
    exact (and_iff_right hd).symm

/-- Payloads send nothing when none of them has anything to send. -/
theorem sent_readAll_eq_iff {payloads : List String} {s : StreamState} :
    (readAll fromStr payloads s).sent = s.sent ↔
      ∀ t ∈ payloads, t ≠ "[DONE]" ∧ Silent (payloadJson fromStr t) := by
  induction payloads generalizing s with
  | nil => exact iff_of_true rfl fun t ht => nomatch ht
  | cons t payloads ih =>
    rw [List.forall_mem_cons]
    constructor
    · intro heq
      have hrest := sent_prefix_readAll fromStr payloads (s.readPayload fromStr t)
      have hfirst : (s.readPayload fromStr t).sent = s.sent := by
        refine ((sent_prefix_readPayload fromStr s t).eq_of_length_le ?_).symm
        exact (heq ▸ hrest).length_le
      exact ⟨sent_readPayload_eq_iff.mp hfirst, ih.mp (heq.trans hfirst.symm)⟩
    · rintro ⟨ht, hts⟩
      exact (ih.mpr hts).trans (sent_readPayload_eq_iff.mpr ht)

theorem ending_readAll {payloads : List String} (h : "[DONE]" ∉ payloads) (s : StreamState) :
    (readAll fromStr payloads s).ending =
      (payloads.map (payloadJson fromStr)).foldl Ending.read s.ending := by
  rw [readAll, foldl_readPayload_eq h, StreamState.ending_foldl]

variable (fromStr) in
theorem ending_finish (s : StreamState) : (s.finish fromStr).ending = s.ending := by
  obtain ⟨hstop, husage⟩ := s.stopReason_finish fromStr
  rw [StreamState.ending, hstop, husage, StreamState.ending]

/-- Payloads that have nothing to send leave the blocks as they are. -/
theorem contentBlocks_readAll {payloads : List String}
    (h : ∀ t ∈ payloads, t ≠ "[DONE]" ∧ Silent (payloadJson fromStr t)) (s : StreamState) :
    (readAll fromStr payloads s).contentBlocks = s.contentBlocks := by
  have hsignals : toolSignals (payloads.map (payloadJson fromStr)) = [] := by
    rw [toolSignals, List.flatMap_eq_nil_iff, List.forall_mem_map]
    exact fun t ht => (h t ht).2.tools
  have htools :
      ((payloads.map (payloadJson fromStr)).foldl (StreamState.readData fromStr) s).tools =
      _ := s.tools_foldl _
  rw [hsignals] at htools
  rw [readAll, foldl_readPayload_eq fun hd => (h _ hd).1 rfl]
  exact congrArg ToolLedger.blocks htools

/-! ### One `Done`, and nothing after it -/

theorem readAll_of_ok {resp : HttpResponse} {r : CompletionResponse} {events : List StreamEvent}
    (h : completeStream fromStr (.ok resp) = (.ok r, events)) :
    r = (readAll fromStr (handedPayloads resp.bytes) {}).response ∧
      events = (readAll fromStr (handedPayloads resp.bytes) {}).sent := by
  obtain ⟨resp', chunks, heq, hd⟩ := delivers_of_ok (congrArg Prod.fst h)
  cases heq
  rw [completeStream_of_delivers hd, streamed_eq_foldl, ← hd.bytes_eq] at h
  obtain ⟨hr, hevents⟩ := Prod.mk.inj h
  exact ⟨(Except.ok.inj hr).symm, hevents.symm⟩

/-- Where a value first occurs in a list is determined. -/
theorem eq_of_first {α : Type} {a : α} {pre pre' post post' : List α}
    (h : pre ++ a :: post = pre' ++ a :: post') (hpre : a ∉ pre) (hpre' : a ∉ pre') :
    pre = pre' := by
  have hcases : ∀ {xs : List α} {as bs : List α}, a :: as = xs ++ a :: bs → a ∉ xs → xs = [] := by
    intro xs as bs heq hxs
    cases xs with
    | nil => rfl
    | cons x xs => exact absurd ((List.cons.inj heq).1 ▸ List.mem_cons_self) hxs
  obtain ⟨xs, rfl, hxs⟩ | ⟨xs, rfl, hxs⟩ := List.append_eq_append_iff.mp h
  · rw [hcases hxs fun hm => hpre' (List.mem_append_right pre hm), List.append_nil]
  · rw [hcases hxs fun hm => hpre (List.mem_append_right pre' hm), List.append_nil]

theorem response_eq_iff {s s' : StreamState} : s.response = s'.response ↔
    s.contentBlocks = s'.contentBlocks ∧ s.ending = s'.ending := by
  constructor
  · intro h
    have husage := congrArg CompletionResponse.usage h
    exact ⟨congrArg CompletionResponse.content h,
      Ending.ext (congrArg CompletionResponse.stopReason h) (congrArg Usage.inputTokens husage)
        (congrArg Usage.outputTokens husage)⟩
  · rintro ⟨hblocks, hending⟩
    have husage : s.usage = s'.usage := congrArg₂ Usage.mk (congrArg Ending.inputTokens hending)
      (congrArg Ending.outputTokens hending)
    have hstop : s.stopReason = s'.stopReason := congrArg Ending.stopReason hending
    rw [StreamState.response, hblocks, hstop, husage, StreamState.response]

theorem readAll_done (pre post : List String) (s : StreamState) :
    readAll fromStr (pre ++ "[DONE]" :: post) s =
      readAll fromStr post ((readAll fromStr pre s).finish fromStr) := by
  rw [readAll_append]
  rfl

/-- The ending once `[DONE]` is handled between the payloads. -/
theorem ending_readAll_done {pre post : List String} (hpre : "[DONE]" ∉ pre)
    (hpost : "[DONE]" ∉ post) :
    (readAll fromStr post ((readAll fromStr pre {}).finish fromStr)).ending =
      endingOf fromStr (pre ++ post) := by
  rw [ending_readAll hpost, ending_finish, ending_readAll hpre, endingOf, List.map_append,
    List.foldl_append]
  rfl

/-- `Done` is sent once, and last, and what comes after the first `[DONE]` changes nothing, exactly
when the loop handles one `[DONE]`, and the payloads it handles after it have nothing to send and
leave the stop reason and the usage as they were. -/
theorem done_ends_once_iff {resp : HttpResponse} {r : CompletionResponse}
    {events : List StreamEvent} (h : completeStream fromStr (.ok resp) = (.ok r, events)) :
    (events.count .done = 1 ∧ events.getLast? = some .done ∧
      ∀ pre post, handedPayloads resp.bytes = pre ++ "[DONE]" :: post → "[DONE]" ∉ pre →
        r = ((readAll fromStr pre {}).finish fromStr).response ∧
          events = ((readAll fromStr pre {}).finish fromStr).sent) ↔
    ∃ pre post, handedPayloads resp.bytes = pre ++ "[DONE]" :: post ∧ "[DONE]" ∉ pre ∧
      (∀ t ∈ post, t ≠ "[DONE]" ∧ Silent (payloadJson fromStr t)) ∧
      endingOf fromStr (pre ++ post) = endingOf fromStr pre := by
  obtain ⟨rfl, rfl⟩ := readAll_of_ok h
  have hfinish : ∀ pre : List String, "[DONE]" ∉ pre →
      ((readAll fromStr pre {}).finish fromStr).ending = endingOf fromStr pre := by
    intro pre hpre
    have hnil : (readAll fromStr [] ((readAll fromStr pre {}).finish fromStr)).ending = _ :=
      ending_readAll_done hpre List.not_mem_nil
    rwa [List.append_nil] at hnil
  constructor
  · rintro ⟨hcount, -, hafter⟩
    have hmem : "[DONE]" ∈ handedPayloads resp.bytes := by
      by_contra hnone
      have hnot := done_not_mem_readAll fromStr hnone (s := {}) List.not_mem_nil
      rw [List.count_eq_zero_of_not_mem hnot] at hcount
      cases hcount
    obtain ⟨pre, post, heq, hpre⟩ := List.eq_append_cons_of_mem hmem
    obtain ⟨hr, hevents⟩ := hafter pre post heq hpre
    rw [heq, readAll_done] at hr hevents
    -- what follows the first `[DONE]` is still read, so it has to be silent
    have hsilent := sent_readAll_eq_iff.mp hevents
    have hpost : "[DONE]" ∉ post := fun hd => (hsilent _ hd).1 rfl
    refine ⟨pre, post, heq, hpre, hsilent, ?_⟩
    rw [← ending_readAll_done hpre hpost, (response_eq_iff.mp hr).2, hfinish pre hpre]
  · rintro ⟨pre, post, heq, hpre, hsilent, hend⟩
    have hpost : "[DONE]" ∉ post := fun hd => (hsilent _ hd).1 rfl
    have hlast : (readAll fromStr (handedPayloads resp.bytes) {}).sent =
        ((readAll fromStr pre {}).finish fromStr).sent := by
      rw [heq, readAll_done, sent_readAll_eq_iff.mpr hsilent]
    have hnot := done_not_mem_readAll fromStr hpre (s := {}) List.not_mem_nil
    refine ⟨?_, ?_, fun pre' post' heq' hpre' => ?_⟩
    · rw [hlast, sent_finish, List.count_append, List.count_eq_zero_of_not_mem hnot]
      rfl
    · rw [hlast, sent_finish, List.getLast?_concat]
    · rw [← eq_of_first (heq.symm.trans heq') hpre hpre']
      refine ⟨response_eq_iff.mpr ⟨?_, ?_⟩, hlast⟩
      · rw [heq, readAll_done, contentBlocks_readAll hsilent]
      · rw [heq, readAll_done, ending_readAll_done hpre hpost, hend, hfinish pre hpre]

/-! ### Three streams of one delta -/

theorem handedPayloads_hello {rest : List String}
    (h : ∀ t ∈ helloPayload :: rest, '\n' ∉ t.toList) :
    handedPayloads (hello rest).bytes =
      (upToDone ((helloPayload :: rest).map (⟨none, ·⟩))).map SseEvent.data := by
  have hevents : handledEvents ([helloPayload :: rest].map fun ps => _) = _ :=
    handledEvents_wire (by simpa using h)
  have hbytes : (hello rest).bytes = [helloPayload :: rest].map fun ps =>
      Utf8.encode (SseParser.wire ps) := rfl
  rw [handedPayloads, hbytes, hevents]
  simp

/-- A stream that ends with `[DONE]`. -/
theorem done_ends_once_iff_hello :
    [StreamEvent.textDelta "Hello", .done].count .done = 1 ∧
    [StreamEvent.textDelta "Hello", .done].getLast? = some .done ∧
    ∀ pre post, handedPayloads (hello ["[DONE]"]).bytes = pre ++ "[DONE]" :: post →
      "[DONE]" ∉ pre →
      ⟨[.text "Hello"], .endTurn, {}⟩ =
          ((readAll helloFromStr pre {}).finish helloFromStr).response ∧
        [.textDelta "Hello", .done] = ((readAll helloFromStr pre {}).finish helloFromStr).sent :=
  (done_ends_once_iff (completeStream_hello ["[DONE]"] (by decide))).mpr
    ⟨[helloPayload], [], handedPayloads_hello (by decide), by decide,
      List.forall_mem_nil _, rfl⟩

/-- `[DONE]`, and a delta in a later chunk. -/
def helloAgain : HttpResponse where
  status := 200
  chunks := [["[DONE]"], [helloPayload]].map fun ps => .ok (Utf8.encode (SseParser.wire ps))

theorem helloAgain_delivers : helloAgain.delivers
    ([["[DONE]"], [helloPayload]].map fun ps => Utf8.encode (SseParser.wire ps)) := ⟨rfl, rfl⟩

theorem handedPayloads_helloAgain : handedPayloads helloAgain.bytes = ["[DONE]", helloPayload] := by
  rw [helloAgain_delivers.bytes_eq, handedPayloads, handledEvents_wire (by decide)]
  rfl

/-- The connection is closed before `[DONE]`: no `Done` is sent. A delta in a chunk after `[DONE]`
is sent after `Done`. -/
theorem done_missing_or_early :
    ¬ (∀ fromStr resp r events, completeStream fromStr (.ok resp) = (.ok r, events) →
      events.count .done = 1) ∧
    ¬ ∀ fromStr resp r events, completeStream fromStr (.ok resp) = (.ok r, events) →
      ∀ pre post, handedPayloads resp.bytes = pre ++ "[DONE]" :: post → "[DONE]" ∉ pre →
        r = ((readAll fromStr pre {}).finish fromStr).response ∧
          events = ((readAll fromStr pre {}).finish fromStr).sent := by
  constructor
  · intro h
    have hcount := h _ _ _ _ (completeStream_hello [] (by decide))
    revert hcount
    decide
  · intro h
    have hrun : completeStream helloFromStr (.ok helloAgain) = _ :=
      completeStream_of_delivers helloAgain_delivers
    have hafter := (h _ _ _ _ hrun [] [helloPayload] handedPayloads_helloAgain
      List.not_mem_nil).2
    rw [streamed_eq_foldl, ← helloAgain_delivers.bytes_eq, handedPayloads_helloAgain] at hafter
    revert hafter
    decide

end Animus
