import Animus.Llm.Server

/-!
# Network chunks

The parser is indifferent to how its text is cut, but each chunk is decoded on
its own, and `[DONE]` ends the events of its chunk only. Two ways of cutting a
stream agree under every JSON reader exactly when they hand it the same
payloads, which cuts between characters and a single `[DONE]` ensure.

## Main definitions

- `Aligned`: every cut falls between two characters
- `DoneOnce`: the last event is `[DONE]`, and no other

## Main results

- `handedPayloads_of_aligned`, `handedPayloads_wire`
- `chunking_irrelevant_iff`
- `chunking_matters`: one stream, cut in two ways
-/

namespace Animus

open Utf8 (encode decodeLossy)

/-- Every cut falls between two characters. -/
def Aligned (chunks : List (List UInt8)) : Prop := ∀ chunk ∈ chunks, ∃ cs, chunk = encode cs

/-- The last event of a text is `[DONE]`. -/
def DoneLast (text : List Char) : Prop :=
  ∃ events last, (SseParser.new.feed text).2 = events ++ [last] ∧ last.data = "[DONE]"

/-- The last event of a text is `[DONE]`, and no other. -/
def DoneOnce (text : List Char) : Prop :=
  ∃ events last, (SseParser.new.feed text).2 = events ++ [last] ∧ last.data = "[DONE]" ∧
    ∀ e ∈ events, e.data ≠ "[DONE]"

/-! ### Cuts between characters -/

theorem upToDone_append {a : List SseEvent} (h : ∀ e ∈ a, e.data ≠ "[DONE]") (b : List SseEvent) :
    upToDone (a ++ b) = a ++ upToDone b := by
  induction a with
  | nil => rfl
  | cons e a ih =>
    rw [List.cons_append, upToDone, if_neg (h e List.mem_cons_self),
      ih fun x hx => h x (List.mem_cons_of_mem e hx), List.cons_append]

theorem upToDone_eq_self {a : List SseEvent} (h : ∀ e ∈ a, e.data ≠ "[DONE]") : upToDone a = a := by
  have := upToDone_append h []
  rwa [List.append_nil, upToDone, List.append_nil] at this

/-- Where only the last event is `[DONE]`, no chunk has events after it. -/
theorem flatten_map_upToDone {es : List (List SseEvent)} {events : List SseEvent} {last : SseEvent}
    (h : es.flatten = events ++ [last]) (hne : ∀ e ∈ events, e.data ≠ "[DONE]") :
    (es.map upToDone).flatten = events ++ [last] := by
  induction es generalizing events with
  | nil => simp at h
  | cons c es ih =>
    rw [List.flatten_cons] at h
    rw [List.map_cons, List.flatten_cons]
    obtain ⟨rest, rfl, hrest⟩ | ⟨tail, rfl, htail⟩ := List.append_eq_append_iff.mp h
    · -- the last event comes later
      have hc : ∀ e ∈ c, e.data ≠ "[DONE]" := fun e he => hne e (List.mem_append_left rest he)
      rw [upToDone_eq_self hc, ih hrest fun e he => hne e (List.mem_append_right c he),
        List.append_assoc]
    · cases tail with
      | nil =>
        have hes : es.flatten = [] ++ [last] := htail.symm
        rw [List.append_nil, upToDone_eq_self hne, ih hes (fun e he => nomatch he), List.nil_append]
      | cons e tail =>
        -- the last event is here, and nothing follows
        obtain ⟨rfl, hnil⟩ := List.cons.inj htail
        obtain ⟨rfl, hflat⟩ := List.append_eq_nil_iff.mp hnil.symm
        have hes : (es.map upToDone).flatten = [] := by
          rw [List.flatten_eq_nil_iff] at hflat ⊢
          intro l hl
          obtain ⟨x, hx, rfl⟩ := List.mem_map.mp hl
          rw [hflat x hx]
          rfl
        rw [hes, List.append_nil, upToDone_append hne]
        simp [upToDone]

/-- The events handled are those of the decoded text, where only its last event is `[DONE]`. -/
theorem handledEvents_of_doneOnce {chunks : List (List UInt8)} {text : List Char}
    (h : (chunks.map decodeLossy).flatten = text) (hd : DoneOnce text) :
    handledEvents chunks = (SseParser.new.feed text).2 := by
  obtain ⟨events, last, hfeed, -, hne⟩ := hd
  have hall := SseParser.feedAll_flatten SseParser.settled_new (chunks.map decodeLossy)
  rw [h] at hall
  have hflat : (SseParser.new.feedAll (chunks.map decodeLossy)).2.flatten = events ++ [last] := by
    rw [← hfeed, ← hall]
  rw [handledEvents, flatten_map_upToDone hflat hne, hfeed]

/-- Chunks that are cut between characters are decoded to the whole text. -/
theorem Aligned.decode {chunks : List (List UInt8)} {text : List Char} (h : Aligned chunks)
    (hb : chunks.flatten = encode text) : (chunks.map decodeLossy).flatten = text := by
  have hmap : ∀ cs : List (List UInt8), Aligned cs →
      encode (cs.map decodeLossy).flatten = cs.flatten := by
    intro cs hcs
    induction cs with
    | nil => rfl
    | cons c cs ih =>
      obtain ⟨t, rfl⟩ := hcs c List.mem_cons_self
      rw [List.map_cons, List.flatten_cons, Utf8.encode_append, Utf8.decodeLossy_encode,
        ih fun x hx => hcs x (List.mem_cons_of_mem _ hx), List.flatten_cons]
  exact Utf8.encode_injective ((hmap chunks h).trans hb)

theorem handedPayloads_of_aligned {chunks : List (List UInt8)} {text : List Char}
    (h : Aligned chunks) (hb : chunks.flatten = encode text) (hd : DoneOnce text) :
    handedPayloads chunks = (SseParser.new.feed text).2.map SseEvent.data := by
  rw [handedPayloads, handledEvents_of_doneOnce (h.decode hb) hd]

section Wire

variable {payloads : List String}

theorem feed_wire_done (hline : ∀ t ∈ payloads, '\n' ∉ t.toList) :
    (SseParser.new.feed (SseParser.wire (payloads ++ ["[DONE]"]))).2 =
    payloads.map (⟨none, ·⟩) ++ [⟨none, "[DONE]"⟩] := by
  have hline' : ∀ t ∈ payloads ++ ["[DONE]"], '\n' ∉ t.toList := by
    intro t ht
    rcases List.mem_append.mp ht with ht | ht
    · exact hline t ht
    · rw [List.mem_singleton.mp ht]
      decide
  rw [SseParser.feed_wire hline', List.map_append, List.map_singleton]

theorem doneLast_wire (hline : ∀ t ∈ payloads, '\n' ∉ t.toList) :
    DoneLast (SseParser.wire (payloads ++ ["[DONE]"])) := ⟨_, _, feed_wire_done hline, rfl⟩

theorem doneOnce_wire (hline : ∀ t ∈ payloads, '\n' ∉ t.toList) (hdone : "[DONE]" ∉ payloads) :
    DoneOnce (SseParser.wire (payloads ++ ["[DONE]"])) := by
  refine ⟨_, _, feed_wire_done hline, rfl, fun e he => ?_⟩
  obtain ⟨t, ht, rfl⟩ := List.mem_map.mp he
  rintro rfl
  exact hdone ht

/-- One-line payloads and a last `[DONE]`, cut into chunks whose decoded texts make up the whole. -/
theorem handedPayloads_wire {chunks : List (List UInt8)}
    (hline : ∀ t ∈ payloads, '\n' ∉ t.toList) (hdone : "[DONE]" ∉ payloads)
    (h : (chunks.map decodeLossy).flatten = SseParser.wire (payloads ++ ["[DONE]"])) :
    handedPayloads chunks = payloads ++ ["[DONE]"] := by
  rw [handedPayloads, handledEvents_of_doneOnce h (doneOnce_wire hline hdone),
    feed_wire_done hline, List.map_append, List.map_map]
  exact congrArg (· ++ ["[DONE]"]) (List.map_id _)

end Wire

/-! ### Two ways of cutting -/

/-- A JSON reader that shows each payload as the delta it carries. -/
def showing : FromStr := fun t => .ok (deltaJson [("content", .str t)])

/-- The event it makes of a payload. -/
def shown (payload : String) : StreamEvent :=
  if payload = "[DONE]" then .done else .textDelta payload

theorem shown_injective : Function.Injective shown := by
  intro a b h
  unfold shown at h
  split at h <;> split at h
  · next ha hb => rw [ha, hb]
  · cases h
  · cases h
  · exact StreamEvent.textDelta.inj h

theorem sent_finish (fromStr : FromStr) (s : StreamState) :
    (s.finish fromStr).sent = s.sent ++ [.done] := by
  unfold StreamState.finish StreamState.flushTool StreamState.flushText StreamState.flushThinking
  split <;> split <;> split <;> rfl

theorem sent_readPayload_showing (s : StreamState) (payload : String) :
    (s.readPayload showing payload).sent = s.sent ++ [shown payload] := by
  unfold StreamState.readPayload StreamState.readEvent shown
  split
  · exact sent_finish showing s
  · rfl

theorem sent_streamed_showing (chunks : List (List UInt8)) :
    (streamed showing chunks).sent = (handedPayloads chunks).map shown := by
  have hfold : ∀ (payloads : List String) (s : StreamState),
      (payloads.foldl (StreamState.readPayload showing) s).sent = s.sent ++ payloads.map shown := by
    intro payloads
    induction payloads with
    | nil => exact fun s => (List.append_nil _).symm
    | cons t payloads ih =>
      intro s
      rw [List.foldl_cons, ih, sent_readPayload_showing, List.append_assoc]
      rfl
  rw [streamed_eq_foldl]
  exact hfold _ _

/-- Two ways of cutting a stream of characters agree under every JSON reader exactly when they
hand it the same payloads; cuts between characters and a single `[DONE]` ensure that. -/
theorem chunking_irrelevant_iff {text : List Char} {resp resp' : HttpResponse}
    {chunks chunks' : List (List UInt8)} (h : resp.delivers chunks) (h' : resp'.delivers chunks')
    (hb : chunks.flatten = encode text) (hb' : chunks'.flatten = encode text) :
    ((∀ fromStr, completeStream fromStr (.ok resp) = completeStream fromStr (.ok resp')) ↔
      handedPayloads chunks = handedPayloads chunks') ∧
    (Aligned chunks → Aligned chunks' → DoneOnce text →
      handedPayloads chunks = handedPayloads chunks') := by
  refine ⟨⟨fun hall => ?_, fun heq fromStr => ?_⟩, fun ha ha' hd => ?_⟩
  · have hsent := congrArg Prod.snd (hall showing)
    rw [completeStream_of_delivers h, completeStream_of_delivers h', sent_streamed_showing,
      sent_streamed_showing] at hsent
    exact List.map_injective_iff.mpr shown_injective hsent
  · rw [completeStream_of_delivers h, completeStream_of_delivers h', streamed_eq_foldl,
      streamed_eq_foldl, heq]
  · rw [handedPayloads_of_aligned ha hb hd, handedPayloads_of_aligned ha' hb' hd]

/-! ### One stream, cut in two ways -/

/-- A payload with a character of two bytes. -/
def cafePayload : String := "\x7b\"choices\":[\x7b\"delta\":\x7b\"content\":\"café\"\x7d\x7d]\x7d"

/-- The same payload where that character was broken. -/
def brokenPayload : String :=
  "\x7b\"choices\":[\x7b\"delta\":\x7b\"content\":\"caf\uFFFD\uFFFD\"\x7d\x7d]\x7d"

def cafeFromStr : FromStr := fun s =>
  if s = cafePayload then .ok (deltaJson [("content", .str "café")])
  else if s = brokenPayload then .ok (deltaJson [("content", .str "caf\uFFFD\uFFFD")])
  else .error "expected value"

/-- The bytes of the payload and of `[DONE]`. -/
def cafeBytes : List UInt8 := encode (SseParser.wire [cafePayload, "[DONE]"])

/-- The stream in two chunks, the first `n` bytes long. -/
def cafe (n : ℕ) : HttpResponse where
  status := 200
  chunks := [.ok (cafeBytes.take n), .ok (cafeBytes.drop n)]

theorem cafe_delivers (n : ℕ) : (cafe n).delivers [cafeBytes.take n, cafeBytes.drop n] := ⟨rfl, rfl⟩

theorem cafe_flatten (n : ℕ) : [cafeBytes.take n, cafeBytes.drop n].flatten = cafeBytes := by
  rw [List.flatten_cons, List.flatten_singleton, List.take_append_drop]

theorem cafe_done : DoneOnce (SseParser.wire ([cafePayload] ++ ["[DONE]"])) :=
  doneOnce_wire (by decide) (by decide)

/-- The stream is cut after its first byte, and before the character of two bytes. -/
theorem chunking_irrelevant_iff_cafe :
    ((∀ fromStr, completeStream fromStr (.ok (cafe 1)) = completeStream fromStr (.ok (cafe 42))) ↔
      handedPayloads [cafeBytes.take 1, cafeBytes.drop 1] =
        handedPayloads [cafeBytes.take 42, cafeBytes.drop 42]) ∧
    handedPayloads [cafeBytes.take 1, cafeBytes.drop 1] =
      handedPayloads [cafeBytes.take 42, cafeBytes.drop 42] := by
  have haligned : ∀ n, n = 1 ∨ n = 42 → Aligned [cafeBytes.take n, cafeBytes.drop n] := by
    rintro n (rfl | rfl) chunk hmem
    · rcases List.mem_pair.mp hmem with rfl | rfl
      · exact ⟨(SseParser.wire [cafePayload, "[DONE]"]).take 1, by decide⟩
      · exact ⟨(SseParser.wire [cafePayload, "[DONE]"]).drop 1, by decide⟩
    · rcases List.mem_pair.mp hmem with rfl | rfl
      · exact ⟨(SseParser.wire [cafePayload, "[DONE]"]).take 42, by decide⟩
      · exact ⟨(SseParser.wire [cafePayload, "[DONE]"]).drop 42, by decide⟩
  have hiff := chunking_irrelevant_iff (cafe_delivers 1) (cafe_delivers 42) (cafe_flatten 1)
    (cafe_flatten 42)
  exact ⟨hiff.1, hiff.2 (haligned 1 (.inl rfl)) (haligned 42 (.inr rfl)) cafe_done⟩

/-- `[DONE]`, a payload and `[DONE]`, some of them in each chunk. -/
def doneTwice (pss : List (List String)) : HttpResponse where
  status := 200
  chunks := (pss.map fun ps => encode (SseParser.wire ps)).map .ok

/-- A cut inside a character changes what is sent, and so does a cut after a first `[DONE]`. -/
theorem chunking_matters :
    ¬ (∀ fromStr text resp resp' chunks chunks', HttpResponse.delivers resp chunks →
      HttpResponse.delivers resp' chunks' → chunks.flatten = encode text →
      chunks'.flatten = encode text → DoneOnce text →
      completeStream fromStr (.ok resp) = completeStream fromStr (.ok resp')) ∧
    ¬ ∀ fromStr text resp resp' chunks chunks', HttpResponse.delivers resp chunks →
      HttpResponse.delivers resp' chunks' → chunks.flatten = encode text →
      chunks'.flatten = encode text → Aligned chunks → Aligned chunks' → DoneLast text →
      completeStream fromStr (.ok resp) = completeStream fromStr (.ok resp') := by
  constructor
  · intro h
    -- the é is in two bytes, 42 and 43: a cut before them keeps it, one between them does not
    have hbefore : handedPayloads [cafeBytes.take 42, cafeBytes.drop 42] =
        [cafePayload] ++ ["[DONE]"] := handedPayloads_wire (by decide) (by decide) (by decide)
    have hinside : handedPayloads [cafeBytes.take 43, cafeBytes.drop 43] =
        [brokenPayload] ++ ["[DONE]"] := handedPayloads_wire (by decide) (by decide) (by decide)
    have heq := congrArg Prod.snd (h cafeFromStr _ _ _ _ _ (cafe_delivers 42) (cafe_delivers 43)
      (cafe_flatten 42) (cafe_flatten 43) cafe_done)
    rw [completeStream_of_delivers (cafe_delivers 42),
      completeStream_of_delivers (cafe_delivers 43),
      streamed_eq_foldl, streamed_eq_foldl, hbefore, hinside] at heq
    revert heq
    decide
  · intro h
    let whole : List (List String) := [["[DONE]", cafePayload, "[DONE]"]]
    let parts : List (List String) := [["[DONE]"], [cafePayload, "[DONE]"]]
    have hwhole : handedPayloads (whole.map fun ps => encode (SseParser.wire ps)) = ["[DONE]"] := by
      rw [handedPayloads, handledEvents_wire (by decide)]
      rfl
    have hparts : handedPayloads (parts.map fun ps => encode (SseParser.wire ps)) =
        ["[DONE]", cafePayload, "[DONE]"] := by
      rw [handedPayloads, handledEvents_wire (by decide)]
      rfl
    have haligned : ∀ pss : List (List String),
        Aligned (pss.map fun ps => encode (SseParser.wire ps)) := by
      intro pss chunk hmem
      obtain ⟨ps, -, rfl⟩ := List.mem_map.mp hmem
      exact ⟨_, rfl⟩
    have hdone : DoneLast (SseParser.wire (["[DONE]", cafePayload] ++ ["[DONE]"])) :=
      doneLast_wire (by decide)
    have heq := congrArg Prod.snd
      (h cafeFromStr _ (doneTwice whole) (doneTwice parts) _ _ ⟨rfl, rfl⟩
      ⟨rfl, rfl⟩ (by decide) (by decide) (haligned whole) (haligned parts) hdone)
    rw [completeStream_of_delivers ⟨rfl, rfl⟩, completeStream_of_delivers ⟨rfl, rfl⟩,
      streamed_eq_foldl, streamed_eq_foldl, hwhole, hparts] at heq
    revert heq
    decide

end Animus
