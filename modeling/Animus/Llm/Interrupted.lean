import Animus.Llm.Grammar

/-!
# Streams that break off

When the transport fails the call returns its error, and what was sent before
stands: it is what the loop makes of the events that the arrived text writes,
a prefix of what the whole stream sends.

## Main results

- `completeStream_broken`: the error, and the events sent before it
- `broken_stream_sends_a_prefix`: what they are, and when `Done` is among them
-/

namespace Animus

open Framing SseParser

variable {fromStr : FromStr} {resp whole : HttpResponse} {arrived missing : List (List UInt8)}
  {lost : List (Except String (List UInt8))} {e : String}

theorem StreamState.readChunks_broken (s : StreamState) (sse : SseParser)
    (arrived : List (List UInt8)) :
    s.readChunks fromStr sse (arrived.map .ok ++ .error e :: lost) =
      (.error (.http e), ((sse.feedAll (arrived.map Utf8.decodeLossy)).2.map upToDone).flatten.foldl
        (readEvent fromStr) s) := by
  induction arrived generalizing s sse with
  | nil => rfl
  | cons chunk arrived ih =>
    rw [List.map_cons, List.cons_append, readChunks, ih, readEvents_eq, ← List.foldl_append]
    rfl

/-- A transport error is returned, and what was sent before it stands. -/
theorem completeStream_broken (h : resp.isSuccess = true)
    (hchunks : resp.chunks = arrived.map .ok ++ .error e :: lost) :
    completeStream fromStr (.ok resp) =
      (.error (.http e), (readAll fromStr (handedPayloads arrived) {}).sent) := by
  have hread : ({} : StreamState).readChunks fromStr .new
      (arrived.map .ok ++ .error e :: lost) = _ := StreamState.readChunks_broken {} .new arrived
  rw [completeStream]
  dsimp only
  rw [if_neg (HttpResponse.status_ne_of_isSuccess h), h, if_neg Bool.noConfusion, hchunks, hread,
    readAll, ← streamed_eq_foldl]
  rfl

/-! ### What the events are -/

section Written

variable {text text₁ text₂ : List Char} {es : List SseEvent} {payloads : List String}

theorem flatten_map_upToDone_self {ess : List (List SseEvent)}
    (h : ∀ x ∈ ess.flatten, x.data ≠ "[DONE]") : (ess.map upToDone).flatten = ess.flatten := by
  have hself : ∀ l ∈ ess, upToDone l = l := fun l hl =>
    upToDone_eq_self fun x hx => h x (List.mem_flatten.mpr ⟨l, hl, hx⟩)
  rw [List.map_congr_left hself, List.map_id']

/-- Of a text in two parts, the events of the first are written there. -/
theorem writes_append (hw : Writes es (lines '\n' (text₁ ++ text₂))) :
    ∃ es₁ es₂, es = es₁ ++ es₂ ∧ Writes es₁ (lines '\n' text₁) := by
  have hfeed := writes_iff_feed.mp hw
  rw [feed_append] at hfeed
  exact ⟨_, _, hfeed.symm, writes_iff_feed.mpr rfl⟩

/-- The loop is handed what the arrived text writes, whether `[DONE]` is there or not. -/
theorem handedPayloads_of_prefix {es₁ es₂ : List SseEvent} (ha : Aligned arrived)
    (hb : arrived.flatten = Utf8.encode text₁) (hw : Writes es₁ (lines '\n' text₁))
    (hes : (es₁ ++ es₂).map SseEvent.data = payloads ++ ["[DONE]"]) (hdone : "[DONE]" ∉ payloads) :
    handedPayloads arrived = es₁.map SseEvent.data ∧
      ("[DONE]" ∈ es₁.map SseEvent.data ↔ es₂ = []) := by
  by_cases hnil : es₂ = []
  · subst hnil
    rw [List.append_nil] at hes
    rw [handedPayloads_of_writes hb ha hw hes hdone, hes]
    exact ⟨rfl, iff_of_true (List.mem_append_right _ (List.mem_singleton_self _)) rfl⟩
  · -- the one `[DONE]` is the last event, and has not arrived
    have hnot : "[DONE]" ∉ es₁.map SseEvent.data := by
      obtain ⟨rest, last, rfl⟩ := List.eq_nil_or_concat es₂ |>.resolve_left hnil
      rw [List.concat_eq_append, ← List.append_assoc, List.map_append, List.map_singleton] at hes
      have hpayloads := (List.append_inj' hes rfl).1
      rw [← hpayloads, List.map_append, List.mem_append, not_or] at hdone
      exact hdone.1
    refine ⟨?_, iff_of_false hnot hnil⟩
    have hall : (new.feedAll (arrived.map Utf8.decodeLossy)).2.flatten = es₁ := by
      rw [← writes_iff_feed.mp hw, ← ha.decode hb]
      exact congrArg Prod.snd (feedAll_flatten settled_new (arrived.map Utf8.decodeLossy))
    rw [handedPayloads, handledEvents, flatten_map_upToDone_self, hall]
    rw [hall]
    exact fun x hx hd => hnot (List.mem_map.mpr ⟨x, hx, hd⟩)

/-- Chunks that are cut between characters are the bytes of a text. -/
theorem Aligned.exists_text {chunks : List (List UInt8)} (h : Aligned chunks) :
    ∃ text, chunks.flatten = Utf8.encode text := by
  induction chunks with
  | nil => exact ⟨[], rfl⟩
  | cons chunk chunks ih =>
    obtain ⟨cs, rfl⟩ := h chunk List.mem_cons_self
    obtain ⟨rest, hrest⟩ := ih fun x hx => h x (List.mem_cons_of_mem _ hx)
    exact ⟨cs ++ rest, by rw [List.flatten_cons, hrest, Utf8.encode_append]⟩

variable (fromStr) in
/-- A text that writes payloads and one `[DONE]` after them, cut between characters, breaks off
after some chunks. What was sent is what the loop makes of the events whose blocks have arrived: a
prefix of what the whole text sends, and with `Done` exactly when all of its events have. -/
theorem broken_stream_sends_a_prefix (h : resp.isSuccess = true)
    (hchunks : resp.chunks = arrived.map .ok ++ .error e :: lost)
    (hwhole : whole.delivers (arrived ++ missing)) (ha : Aligned (arrived ++ missing))
    (hb : (arrived ++ missing).flatten = Utf8.encode text) (hw : Writes es (lines '\n' text))
    (hes : es.map SseEvent.data = payloads ++ ["[DONE]"]) (hdone : "[DONE]" ∉ payloads) :
    ∃ text₁ es₁ es₂, arrived.flatten = Utf8.encode text₁ ∧ es = es₁ ++ es₂ ∧
      Writes es₁ (lines '\n' text₁) ∧
      completeStream fromStr (.ok resp) =
        (.error (.http e), (readAll fromStr (es₁.map SseEvent.data) {}).sent) ∧
      (completeStream fromStr (.ok resp)).2 <+: (completeStream fromStr (.ok whole)).2 ∧
      (StreamEvent.done ∈ (completeStream fromStr (.ok resp)).2 ↔ es₂ = []) := by
  have ha₁ : Aligned arrived := fun chunk hchunk => ha chunk (List.mem_append_left _ hchunk)
  have ha₂ : Aligned missing := fun chunk hchunk => ha chunk (List.mem_append_right _ hchunk)
  obtain ⟨text₁, hb₁⟩ := ha₁.exists_text
  obtain ⟨text₂, hb₂⟩ := ha₂.exists_text
  have htext : text = text₁ ++ text₂ := by
    refine Utf8.encode_injective ?_
    rw [← hb, List.flatten_append, hb₁, hb₂, Utf8.encode_append]
  subst htext
  obtain ⟨es₁, es₂, rfl, hw₁⟩ := writes_append hw
  obtain ⟨hpayloads, hlast⟩ := handedPayloads_of_prefix ha₁ hb₁ hw₁ hes hdone
  have hrun : completeStream fromStr (.ok resp) = _ := completeStream_broken h hchunks
  rw [hpayloads] at hrun
  refine ⟨text₁, es₁, es₂, hb₁, rfl, hw₁, hrun, ?_, ?_⟩
  · rw [hrun, completeStream_of_delivers hwhole, streamed_eq_foldl,
      handedPayloads_of_writes hb ha hw hes hdone, ← hes, List.map_append]
    change _ <+: (readAll fromStr _ {}).sent
    rw [readAll_append]
    exact sent_prefix_readAll fromStr _ _
  · rw [hrun, ← hlast]
    refine ⟨fun hsent => ?_, fun hmem => ?_⟩
    · by_contra hnot
      exact done_not_mem_readAll fromStr hnot List.not_mem_nil hsent
    · -- `[DONE]` is the last of what arrived
      rw [hlast.mp hmem, List.append_nil] at hes
      rw [hes, readAll_append]
      change StreamEvent.done ∈ ((readAll fromStr payloads {}).finish fromStr).sent
      rw [sent_finish]
      exact List.mem_append_right _ (List.mem_singleton_self _)

end Written

/-! ### A stream that breaks off after its delta -/

/-- A delta, and an error in place of `[DONE]`. -/
def brokenHello : HttpResponse where
  status := 200
  chunks := [.ok (Utf8.encode (wire [helloPayload])), .error "connection reset"]

/-- The stream in two chunks. -/
def wholeHello : HttpResponse where
  status := 200
  chunks := [wire [helloPayload], wire ["[DONE]"]].map fun text => .ok (Utf8.encode text)

/-- The delta is sent, and `Done` is not. -/
theorem broken_stream_sends_a_prefix_hello :
    (completeStream helloFromStr (.ok brokenHello)).2 <+:
      (completeStream helloFromStr (.ok wholeHello)).2 := by
  have hwhole : wholeHello.delivers
      ([Utf8.encode (wire [helloPayload])] ++ [Utf8.encode (wire ["[DONE]"])]) := ⟨rfl, rfl⟩
  have haligned : Aligned
      ([Utf8.encode (wire [helloPayload])] ++ [Utf8.encode (wire ["[DONE]"])]) := by
    intro chunk hchunk
    obtain rfl | rfl := List.mem_pair.mp hchunk
    · exact ⟨_, rfl⟩
    · exact ⟨_, rfl⟩
  have hflatten : ([Utf8.encode (wire [helloPayload])] ++ [Utf8.encode (wire ["[DONE]"])]).flatten =
      Utf8.encode (wire [helloPayload, "[DONE]"]) := by decide
  have hdata : [SseEvent.mk none helloPayload, ⟨none, "[DONE]"⟩].map SseEvent.data =
      [helloPayload] ++ ["[DONE]"] := rfl
  have hchunks : brokenHello.chunks =
      [Utf8.encode (wire [helloPayload])].map .ok ++ .error "connection reset" :: [] := rfl
  obtain ⟨-, -, -, -, -, -, -, hprefix, -⟩ := broken_stream_sends_a_prefix helloFromStr rfl hchunks
    hwhole haligned hflatten writes_hello hdata (by decide)
  exact hprefix

end Animus
