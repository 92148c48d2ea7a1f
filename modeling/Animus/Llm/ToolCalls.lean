import Animus.Llm.Accumulators

/-!
# Tool calls of a stream

One call is open at a time. A call without an id is taken for no call, so it
gives no block and its arguments go to the next call, as do arguments that
arrive before the first call. A fragment goes to the call that started last,
whatever its index.

## Main definitions

- `announced`: the calls of the events sent
- `DeliversByIndex`: entries that deliver tool calls by index
- `arrived`: the arguments that arrive from the start of a call until the next start
- `Contiguous`: every fragment arrives while its call is the last one started

## Main results

- `tool_events_match_iff`
- `tool_events_mismatch`: a call without an id
- `parallel_calls_iff`
- `parallel_calls_mixed`: two calls whose fragments alternate
-/

namespace Animus

variable {fromStr : FromStr} {resp : HttpResponse} {values : List Json}

/-! ### The blocks and the events -/

/-- The calls of the events sent: each `ToolStart`, with the fragments sent after it and before
the next one. -/
def announced (events : List StreamEvent) : List ToolCall :=
  (segments (events.filterMap ToolSignal.ofEvent)).2

theorem filter_isToolUse_proseBlock (block : String → ContentBlock)
    (h : ∀ t, (block t).isToolUse = false) (t : Option String) :
    (proseBlock block t).filter ContentBlock.isToolUse = [] := by
  unfold proseBlock
  split
  · split
    · rfl
    · rw [List.filter_cons_of_neg (by rw [h]; exact Bool.false_ne_true), List.filter_nil]
  · rfl

/-- The tool calls of a response. -/
theorem toolBlocks_of_streams {r : CompletionResponse} (h : Streams fromStr resp values)
    (hrun : (completeStream fromStr (.ok resp)).1 = .ok r) :
    r.content.filter ContentBlock.isToolUse =
      callBlocks fromStr (strayArguments values) (startedCalls values) := by
  have hblocks := blocks_accumulated fromStr values
  have htool : ∀ b ∈ (accumulated fromStr values).contentBlocks ++
      (accumulated fromStr values).openTool fromStr, b.isToolUse = true := by
    rw [hblocks]
    exact fun b hb => isToolUse_callBlocks hb
  rw [List.forall_mem_append] at htool
  rw [completeStream_of_streams h] at hrun
  cases hrun
  rw [AssistantMessage.response_finish]
  simp only [List.filter_append]
  rw [filter_isToolUse_proseBlock .thinking fun _ => rfl,
    filter_isToolUse_proseBlock .text fun _ => rfl, List.append_nil, List.append_nil,
    List.filter_eq_self.mpr htool.1, List.filter_eq_self.mpr htool.2, hblocks]

/-- The events announce the calls of the payloads. -/
theorem announced_of_streams {r : CompletionResponse} {events : List StreamEvent}
    (h : Streams fromStr resp values)
    (hrun : completeStream fromStr (.ok resp) = (.ok r, events)) :
    announced events = startedCalls values := by
  rw [completeStream_of_streams h] at hrun
  cases hrun
  rw [announced, sent_finish, List.filterMap_append, signals_accumulated]
  exact congrArg (fun sigs => (segments sigs).2) (List.append_nil _)

theorem length_callBlocks (kept : String) (tcs : List ToolCall) :
    (callBlocks fromStr kept tcs).length = (tcs.filter fun tc => tc.id ≠ "").length := by
  induction tcs generalizing kept with
  | nil => rfl
  | cons tc tcs ih =>
    rw [callBlocks]
    split
    · next hid => rw [ih, List.filter_cons_of_neg (by simp [hid])]
    · next hid =>
      rw [List.length_cons, ih, List.filter_cons_of_pos (by simp [hid]), List.length_cons]

/-- The blocks are those of the calls where every call has an id, and what arrived before the first
does not change how its arguments are read. -/
theorem callBlocks_eq_map_iff {kept : String} {tcs : List ToolCall} :
    callBlocks fromStr kept tcs = tcs.map (ToolCall.block fromStr) ↔
      (∀ tc ∈ tcs, tc.id ≠ "") ∧
      ∀ tc ∈ tcs.head?, parseInput fromStr (kept ++ tc.arguments) =
        parseInput fromStr tc.arguments := by
  have hids : callBlocks fromStr kept tcs = tcs.map (ToolCall.block fromStr) →
      ∀ tc ∈ tcs, tc.id ≠ "" := by
    intro h tc htc
    have hlen := congrArg List.length h
    rw [length_callBlocks, List.length_map, List.length_filter_eq_length_iff] at hlen
    exact of_decide_eq_true (hlen tc htc)
  -- a call without an id has no block, so the two lists would differ in length
  rw [← and_iff_right_of_imp hids]
  refine and_congr_right fun hall => ?_
  cases tcs with
  | nil => exact iff_of_true rfl fun tc htc => nomatch htc
  | cons tc tcs =>
    rw [callBlocks, if_neg (hall tc List.mem_cons_self),
      callBlocks_eq_map fun x hx => hall x (List.mem_cons_of_mem tc hx), List.map_cons,
      List.cons_eq_cons, List.head?_cons]
    refine (and_iff_left rfl).trans ⟨fun heq x hx => ?_, fun hparse => ?_⟩
    · cases Option.mem_some.mp hx
      exact (ContentBlock.toolUse.inj heq).2.2
    · rw [ToolCall.block, hparse tc rfl, ToolCall.block]

/-- A response is returned, and its blocks are those of the calls announced exactly when every call
has an id, and what arrived before the first one does not change how its arguments are read. -/
theorem tool_events_match_iff (h : Streams fromStr resp values) :
    ∃ r events, completeStream fromStr (.ok resp) = (.ok r, events) ∧
      (r.content.filter ContentBlock.isToolUse = (announced events).map (ToolCall.block fromStr) ↔
        (∀ tc ∈ startedCalls values, tc.id ≠ "") ∧
        ∀ tc ∈ (startedCalls values).head?,
          parseInput fromStr (strayArguments values ++ tc.arguments) =
            parseInput fromStr tc.arguments) := by
  have hrun := completeStream_of_streams h
  refine ⟨_, _, hrun, ?_⟩
  rw [toolBlocks_of_streams h (congrArg Prod.fst hrun), announced_of_streams h hrun,
    callBlocks_eq_map_iff]

/-- The state at the end of the sample in pieces. -/
def pieceRun : StreamState :=
  (accumulated pieceFromStr (piecePayloads.map Prod.snd)).finish pieceFromStr

/-- A call with an id, and nothing before it. -/
theorem tool_events_match_iff_pieces :
    pieceRun.response.content.filter ContentBlock.isToolUse =
      (announced pieceRun.sent).map (ToolCall.block pieceFromStr) := by
  obtain ⟨r, events, hrun, hiff⟩ := tool_events_match_iff streams_pieces
  rw [completeStream_of_streams streams_pieces] at hrun
  cases hrun
  exact hiff.mpr ⟨by decide, fun tc htc => by cases htc; rfl⟩

/-- A call without an id, and another one. -/
def namelessPayloads : List (String × Json) :=
  [startPayload false "" "1", startPayload true "b" "2"]

def namelessFromStr : FromStr :=
  tableFromStr (namelessPayloads ++ [("1", .num (.posInt 1)), ("2", .num (.posInt 2)),
    ("12", .num (.posInt 12))])

theorem streams_nameless : Streams namelessFromStr (streamOf (namelessPayloads.map Prod.fst))
    (namelessPayloads.map Prod.snd) := by
  refine streams_streamOf ?_ (by decide)
  simp only [namelessPayloads, List.map_cons, List.map_nil, List.forall_mem_cons]
  exact ⟨oneLine_startPayload _ (by decide) (by decide),
    oneLine_startPayload _ (by decide) (by decide), List.forall_mem_nil _⟩

/-- The call without an id is announced and gives no block, and the other one gets its
arguments. -/
theorem tool_events_mismatch :
    ¬ ∀ fromStr resp values r events, Streams fromStr resp values →
      completeStream fromStr (.ok resp) = (.ok r, events) →
      r.content.filter ContentBlock.isToolUse =
        (announced events).map (ToolCall.block fromStr) := by
  intro h
  have hrun := completeStream_of_streams streams_nameless
  have heq := h _ _ _ _ _ streams_nameless hrun
  rw [toolBlocks_of_streams streams_nameless (congrArg Prod.fst hrun),
    announced_of_streams streams_nameless hrun, callBlocks_eq_map_iff] at heq
  exact heq.1 ⟨"", "now", "1"⟩ List.mem_cons_self rfl

/-! ### Fragments by index -/

/-- The entries of `tool_calls`. -/
def toolEntries (values : List Json) : List Json :=
  values.flatMap fun data => ((deltaOf data).key "tool_calls").asArray.getD []

/-- The index an entry carries, which the loop does not look at. -/
def entryIndex (e : Json) : ℕ := ((e.key "index").asU64.getD 0).toNat

def entryArguments (e : Json) : String := ((e.key "function").key "arguments").asStr.getD ""

/-- The arguments that the entries of an index carry. -/
def own (entries : List Json) (i : ℕ) : String :=
  String.join ((entries.filter fun e => entryIndex e = i).map entryArguments)

/-- A fragment of a call; the first one of its index carries the id and the name. -/
def IsFragment (calls : List ToolCall) (seen : List ℕ) (e : Json) : Prop :=
  (e.key "index").asU64 ≠ none ∧ ∃ tc, calls[entryIndex e]? = some tc ∧
    if entryIndex e ∈ seen then (e.key "id").asStr = none
    else (e.key "id").asStr = some tc.id ∧ ((e.key "function").key "name").asStr = some tc.name

/-- Entries that deliver fragments of all calls, where those of some indices have been seen. -/
def DeliversFrom (calls : List ToolCall) (seen : List ℕ) : List Json → Prop
  | [] => ∀ i < calls.length, i ∈ seen
  | e :: es => IsFragment calls seen e ∧ DeliversFrom calls (entryIndex e :: seen) es

/-- Entries that deliver the calls, each by the fragments of its index. -/
structure DeliversByIndex (calls : List ToolCall) (entries : List Json) : Prop where
  fragments : DeliversFrom calls [] entries
  arguments : ∀ i tc, calls[i]? = some tc → tc.arguments = own entries i

/-- The arguments that arrive before the first start, and those that arrive from the start of an
index until the next start, whatever index they carry. -/
def arrived : List Json → String × List (ℕ × String)
  | [] => ("", [])
  | e :: es =>
    if (e.key "id").asStr.isSome then
      ("", (entryIndex e, entryArguments e ++ (arrived es).1) :: (arrived es).2)
    else (entryArguments e ++ (arrived es).1, (arrived es).2)

/-- Arguments arrive for the index that started last. -/
def ContiguousFrom (current : ℕ) : List Json → Prop
  | [] => True
  | e :: es =>
    if (e.key "id").asStr.isSome then ContiguousFrom (entryIndex e) es
    else (entryArguments e ≠ "" → entryIndex e = current) ∧ ContiguousFrom current es

/-- Every fragment of a call arrives before the next call starts. -/
def Contiguous : List Json → Prop
  | [] => True
  | e :: es => ContiguousFrom (entryIndex e) es

/-- A call of the response. -/
def ContentBlock.isCall (id : String) : ContentBlock → Bool
  | .toolUse i _ _ => i = id
  | .text _ => false
  | .thinking _ => false

theorem toolSignals_eq (values : List Json) :
    toolSignals values = (toolEntries values).flatMap ToolSignal.ofEntry := List.flatMap_assoc.symm

theorem segments_ofEntry (e : Json) (sigs : List ToolSignal) :
    segments (ToolSignal.ofEntry e ++ sigs) = match (e.key "id").asStr with
      | some id => ("", ⟨id, ((e.key "function").key "name").asStr.getD "",
          entryArguments e ++ (segments sigs).1⟩ :: (segments sigs).2)
      | none => (entryArguments e ++ (segments sigs).1, (segments sigs).2) := by
  unfold ToolSignal.ofEntry entryArguments
  cases (e.key "id").asStr <;> cases ((e.key "function").key "arguments").asStr <;>
    simp [segments]

section Fragments

variable {calls : List ToolCall} {seen : List ℕ} {es : List Json}

/-- The call at an index, with the given arguments. -/
def namedCall (calls : List ToolCall) (p : ℕ × String) : ToolCall :=
  ⟨(calls[p.1]?.getD ⟨"", "", ""⟩).id, (calls[p.1]?.getD ⟨"", "", ""⟩).name, p.2⟩

/-- A call starts for each index, and gets what arrives before the next start. -/
theorem segments_of_deliversFrom (h : DeliversFrom calls seen es) :
    segments (es.flatMap ToolSignal.ofEntry) =
      ((arrived es).1, (arrived es).2.map (namedCall calls)) := by
  induction es generalizing seen with
  | nil => rfl
  | cons e es ih =>
    obtain ⟨⟨-, tc, htc, hid⟩, hes⟩ := h
    rw [List.flatMap_cons, segments_ofEntry, ih hes, arrived]
    split at hid
    · rw [hid]
      rfl
    · obtain ⟨hid, hname⟩ := hid
      rw [hid, hname]
      simp [namedCall, htc]

/-- Each index that has not been seen starts once. -/
theorem arrived_indices (h : DeliversFrom calls seen es) :
    ((arrived es).2.map Prod.fst).Nodup ∧
      ∀ i, i ∈ (arrived es).2.map Prod.fst ↔ i < calls.length ∧ i ∉ seen := by
  induction es generalizing seen with
  | nil =>
    refine ⟨List.nodup_nil, fun i => iff_of_false List.not_mem_nil ?_⟩
    exact fun hi => hi.2 (h i hi.1)
  | cons e es ih =>
    obtain ⟨⟨-, tc, htc, hid⟩, hes⟩ := h
    obtain ⟨hnodup, hmem⟩ := ih hes
    have hlt : entryIndex e < calls.length := (List.getElem?_eq_some_iff.mp htc).1
    rw [arrived]
    split at hid
    · next hseen =>
      rw [hid]
      refine ⟨hnodup, fun i => (hmem i).trans (and_congr_right fun _ => ?_)⟩
      rw [List.mem_cons, not_or]
      exact and_iff_right_of_imp fun hi heq => hi (heq ▸ hseen)
    · next hseen =>
      rw [hid.1]
      refine ⟨List.nodup_cons.mpr ⟨fun hm => ?_, hnodup⟩, fun i => ?_⟩
      · exact ((hmem _).mp hm).2 List.mem_cons_self
      · rw [if_pos Option.isSome_some, List.map_cons, List.mem_cons, hmem i, List.mem_cons, not_or]
        constructor
        · rintro (rfl | ⟨hi, -, hns⟩)
          · exact ⟨hlt, hseen⟩
          · exact ⟨hi, hns⟩
        · rintro ⟨hi, hns⟩
          by_cases heq : i = entryIndex e
          · exact .inl heq
          · exact .inr ⟨hi, heq, hns⟩

theorem own_cons_self (e : Json) (es : List Json) :
    own (e :: es) (entryIndex e) = entryArguments e ++ own es (entryIndex e) := by
  have hfilter : (e :: es).filter (fun x => entryIndex x = entryIndex e) =
      e :: es.filter fun x => entryIndex x = entryIndex e :=
    List.filter_cons_of_pos (decide_eq_true rfl)
  rw [own, hfilter, List.map_cons, String.join_cons, own]

theorem own_cons_of_ne {e : Json} {i : ℕ} (h : entryIndex e ≠ i) (es : List Json) :
    own (e :: es) i = own es i := by
  have hfilter : (e :: es).filter (fun x => entryIndex x = i) =
      es.filter fun x => entryIndex x = i :=
    List.filter_cons_of_neg (mt of_decide_eq_true h)
  rw [own, hfilter, own]

/-- An index that starts later has nothing of this entry. -/
theorem own_cons_arrived {e : Json} (h : DeliversFrom calls (entryIndex e :: seen) es)
    {p : ℕ × String} (hp : p ∈ (arrived es).2) : own (e :: es) p.1 = own es p.1 := by
  have hmem := ((arrived_indices h).2 p.1).mp (List.mem_map_of_mem hp)
  exact own_cons_of_ne (fun heq => hmem.2 (heq.symm ▸ List.mem_cons_self)) es

theorem append_eq_empty_iff {a b : String} : a ++ b = "" ↔ a = "" ∧ b = "" := by
  rw [← String.toList_inj, String.toList_append, ← String.toList_inj, ← String.toList_inj]
  exact List.append_eq_nil_iff

theorem append_left_cancel_iff {a b c : String} : a ++ b = a ++ c ↔ b = c := by
  rw [← String.toList_inj, String.toList_append, String.toList_append, List.append_cancel_left_eq,
    String.toList_inj]

/-- A fragment of the current call is nothing of the others. -/
theorem own_others_current (e : Json) (es : List Json) :
    (∀ i ∈ entryIndex e :: seen, i ≠ entryIndex e → own es i = "") ↔
      ∀ i ∈ seen, i ≠ entryIndex e → own (e :: es) i = "" := by
  rw [List.forall_mem_cons]
  refine (and_iff_right fun hne => absurd rfl hne).trans (forall₂_congr fun i _ => ?_)
  exact forall_congr' fun hne => by rw [own_cons_of_ne hne.symm]

/-- A fragment of a call that is not current is late unless it is empty. -/
theorem own_others_late {e : Json} (hseen : entryIndex e ∈ seen) {current : ℕ}
    (hne : entryIndex e ≠ current) (es : List Json) :
    (∀ i ∈ seen, i ≠ current → own (e :: es) i = "") ↔
      entryArguments e = "" ∧ ∀ i ∈ entryIndex e :: seen, i ≠ current → own es i = "" := by
  constructor
  · intro hall
    have hown := hall _ hseen hne
    rw [own_cons_self, append_eq_empty_iff] at hown
    refine ⟨hown.1, List.forall_mem_cons.mpr ⟨fun _ => hown.2, fun i hi hne' => ?_⟩⟩
    by_cases hi' : entryIndex e = i
    · exact hi' ▸ hown.2
    · exact (own_cons_of_ne hi' es).symm.trans (hall i hi hne')
  · rintro ⟨hargs, hall⟩ i hi hne'
    by_cases hi' : entryIndex e = i
    · subst hi'
      rw [own_cons_self, hargs, String.empty_append]
      exact hall _ List.mem_cons_self hne'
    · exact (own_cons_of_ne hi' es).trans (hall i (List.mem_cons_of_mem _ hi) hne')

/-- When another call starts, the current one joins those that get nothing more. -/
theorem own_others_start {e : Json} (hseen : entryIndex e ∉ seen) {current : ℕ}
    (hc : current ∈ seen) (es : List Json) :
    (∀ i ∈ entryIndex e :: seen, i ≠ entryIndex e → own es i = "") ↔
      (∀ i ∈ seen, i ≠ current → own (e :: es) i = "") ∧ "" = own (e :: es) current := by
  have hne : ∀ i ∈ seen, entryIndex e ≠ i := fun i hi heq => hseen (heq.symm ▸ hi)
  rw [List.forall_mem_cons, own_cons_of_ne (hne current hc)]
  constructor
  · rintro ⟨-, hall⟩
    refine ⟨fun i hi _ => ?_, (hall current hc (hne current hc).symm).symm⟩
    exact (own_cons_of_ne (hne i hi) es).trans (hall i hi (hne i hi).symm)
  · rintro ⟨hall, hcur⟩
    refine ⟨fun h => absurd rfl h, fun i hi _ => ?_⟩
    by_cases heq : i = current
    · rw [heq, ← hcur]
    · exact (own_cons_of_ne (hne i hi) es).symm.trans (hall i hi heq)

/-- What arrives for each index is its own exactly when fragments arrive for the index that started
last; those seen before it get nothing more. -/
theorem contiguousFrom_iff (h : DeliversFrom calls seen es) {current : ℕ} (hc : current ∈ seen) :
    ContiguousFrom current es ↔ (∀ i ∈ seen, i ≠ current → own es i = "") ∧
      (arrived es).1 = own es current ∧ ∀ p ∈ (arrived es).2, p.2 = own es p.1 := by
  induction es generalizing seen current with
  | nil => exact iff_of_true trivial ⟨fun _ _ _ => rfl, rfl, fun p hp => nomatch hp⟩
  | cons e es ih =>
    obtain ⟨⟨-, tc, htc, hid⟩, hes⟩ := h
    have hpieces : (∀ p ∈ (arrived es).2, p.2 = own (e :: es) p.1) ↔
        ∀ p ∈ (arrived es).2, p.2 = own es p.1 :=
      forall₂_congr fun p hp => by rw [own_cons_arrived hes hp]
    rw [ContiguousFrom, arrived]
    split at hid
    · next hseen =>
      -- a fragment of an index that has started
      have hnone : ¬ (e.key "id").asStr.isSome = true := by
        rw [hid]
        exact Bool.false_ne_true
      rw [if_neg hnone, if_neg hnone, hpieces, ih hes (List.mem_cons_of_mem _ hc)]
      by_cases heq : entryIndex e = current
      · subst heq
        rw [own_others_current, own_cons_self, append_left_cancel_iff]
        exact and_iff_right fun _ => rfl
      · rw [own_others_late hseen heq, own_cons_of_ne heq]
        constructor
        · rintro ⟨hargs, hall, hrest⟩
          have hempty : entryArguments e = "" := by_contra fun hne => heq (hargs hne)
          rw [hempty, String.empty_append]
          exact ⟨⟨rfl, hall⟩, hrest⟩
        · rintro ⟨⟨hempty, hall⟩, hrest⟩
          rw [hempty, String.empty_append] at hrest
          exact ⟨fun hne => absurd hempty hne, hall, hrest⟩
    · next hseen =>
      -- another call starts, and the current one gets nothing more
      have hsome : (e.key "id").asStr.isSome = true := by rw [hid.1, Option.isSome_some]
      rw [if_pos hsome, if_pos hsome, ih hes List.mem_cons_self, own_others_start hseen hc,
        List.forall_mem_cons, hpieces, own_cons_self, append_left_cancel_iff, and_assoc]

/-- What arrives for each index is its own exactly when every fragment arrives before the next
call starts. -/
theorem contiguous_iff (h : DeliversFrom calls [] es) :
    (∀ p ∈ (arrived es).2, p.2 = own es p.1) ↔ Contiguous es := by
  cases es with
  | nil => exact iff_of_true (fun p hp => nomatch hp) trivial
  | cons e es =>
    obtain ⟨⟨-, tc, htc, hid⟩, hes⟩ := h
    rw [if_neg List.not_mem_nil] at hid
    have hsome : (e.key "id").asStr.isSome = true := by rw [hid.1, Option.isSome_some]
    have hpieces : (∀ p ∈ (arrived es).2, p.2 = own (e :: es) p.1) ↔
        ∀ p ∈ (arrived es).2, p.2 = own es p.1 :=
      forall₂_congr fun p hp => by rw [own_cons_arrived hes hp]
    have hfirst : ∀ i ∈ [entryIndex e], i ≠ entryIndex e → own es i = "" := fun i hi hne =>
      absurd (List.mem_singleton.mp hi) hne
    rw [Contiguous, contiguousFrom_iff hes List.mem_cons_self, and_iff_right hfirst, arrived,
      if_pos hsome, List.forall_mem_cons, own_cons_self, append_left_cancel_iff, hpieces]

/-- No arguments arrive before the first start. -/
theorem arrived_fst (h : DeliversFrom calls [] es) : (arrived es).1 = "" := by
  cases es with
  | nil => rfl
  | cons e es =>
    obtain ⟨⟨-, tc, htc, hid⟩, hes⟩ := h
    rw [if_neg List.not_mem_nil] at hid
    rw [arrived, if_pos (by rw [hid.1, Option.isSome_some])]

/-- In a list without two elements of one key, a key selects its element. -/
theorem filter_key {α : Type} {f : α → ℕ} {l : List α} (h : (l.map f).Nodup) {a : α} (ha : a ∈ l) :
    l.filter (fun x => f x = f a) = [a] := by
  induction l with
  | nil => cases ha
  | cons b l ih =>
    obtain ⟨hb, hl⟩ := List.nodup_cons.mp h
    obtain rfl | ha := List.mem_cons.mp ha
    · have hrest : l.filter (fun x => f x = f a) = [] :=
        List.filter_eq_nil_iff.mpr fun x hx => by
          rw [decide_eq_true_eq]
          exact fun heq => hb (heq ▸ List.mem_map_of_mem hx)
      rw [List.filter_cons, if_pos (decide_eq_true rfl), hrest]
    · have hne : ¬ decide (f b = f a) = true := by
        rw [decide_eq_true_eq]
        exact fun heq => hb (heq ▸ List.mem_map_of_mem ha)
      rw [List.filter_cons, if_neg hne, ih hl ha]

variable {r : CompletionResponse}

/-- The call at an index that arrived. -/
theorem exists_namedCall (hd : DeliversFrom calls [] es) {q : ℕ × String}
    (hq : q ∈ (arrived es).2) :
    ∃ tc, calls[q.1]? = some tc ∧ namedCall calls q = ⟨tc.id, tc.name, q.2⟩ := by
  have hlt := (((arrived_indices hd).2 q.1).mp (List.mem_map_of_mem hq)).1
  refine ⟨calls[q.1], List.getElem?_eq_getElem hlt, ?_⟩
  rw [namedCall, List.getElem?_eq_getElem hlt, Option.getD_some]

/-- Where ids are distinct, a block is the block of a call exactly at the index of the call. -/
theorem isCall_namedCall (hd : DeliversFrom calls [] es) (hnodup : (calls.map ToolCall.id).Nodup)
    {i : ℕ} {tc : ToolCall} (htc : calls[i]? = some tc) {q : ℕ × String}
    (hq : q ∈ (arrived es).2) :
    ((namedCall calls q).block fromStr).isCall tc.id = decide (q.1 = i) := by
  obtain ⟨tc', htc', hnamed⟩ := exists_namedCall hd hq
  rw [hnamed]
  refine decide_eq_decide.mpr ⟨fun heq => ?_, fun heq => ?_⟩
  · have hlt : q.1 < (calls.map ToolCall.id).length := by
      rw [List.length_map]
      exact (List.getElem?_eq_some_iff.mp htc').1
    refine (List.getElem?_inj hlt hnodup).mp ?_
    rw [List.getElem?_map, List.getElem?_map, htc', htc]
    exact congrArg some heq
  · rw [heq, htc] at htc'
    cases htc'
    rfl

/-- The block of a call is a tool use. -/
theorem filter_isCall (id : String) (content : List ContentBlock) :
    content.filter (ContentBlock.isCall id) =
      (content.filter ContentBlock.isToolUse).filter (ContentBlock.isCall id) := by
  rw [List.filter_filter]
  refine List.filter_congr fun b _ => ?_
  cases b <;> first | rfl | exact (Bool.and_true _).symm

/-- Each call gives one block, with what arrived from its start until the next start. -/
theorem filter_call (h : Streams fromStr resp values)
    (hrun : (completeStream fromStr (.ok resp)).1 = .ok r)
    (hd : DeliversFrom calls [] (toolEntries values)) (hid : ∀ tc ∈ calls, tc.id ≠ "")
    (hnodup : (calls.map ToolCall.id).Nodup) {p : ℕ × String}
    (hp : p ∈ (arrived (toolEntries values)).2) {tc : ToolCall} (htc : calls[p.1]? = some tc) :
    r.content.filter (ContentBlock.isCall tc.id) =
      [ToolCall.block fromStr ⟨tc.id, tc.name, p.2⟩] := by
  have hsegments := segments_of_deliversFrom hd
  rw [← toolSignals_eq] at hsegments
  have hstarted : startedCalls values = (arrived (toolEntries values)).2.map (namedCall calls) :=
    congrArg Prod.snd hsegments
  -- nothing arrives before the first call starts
  have hstray : strayArguments values = "" := (congrArg Prod.fst hsegments).trans (arrived_fst hd)
  have hids : ∀ tc' ∈ startedCalls values, tc'.id ≠ "" := by
    rw [hstarted, List.forall_mem_map]
    intro q hq
    obtain ⟨tc', htc', hnamed⟩ := exists_namedCall hd hq
    rw [hnamed]
    exact hid tc' (List.mem_of_getElem? htc')
  have hsame : ∀ q ∈ (arrived (toolEntries values)).2,
      ((namedCall calls q).block fromStr).isCall tc.id = decide (q.1 = p.1) :=
    fun q hq => isCall_namedCall hd hnodup htc hq
  obtain ⟨tc', htc', hnamed⟩ := exists_namedCall hd hp
  rw [htc] at htc'
  cases htc'
  rw [filter_isCall, toolBlocks_of_streams h hrun, hstray, callBlocks_eq_map hids, hstarted,
    List.map_map, List.filter_map]
  rw [List.filter_congr (q := fun q => decide (q.1 = p.1)) hsame,
    filter_key (arrived_indices hd).1 hp, List.map_singleton, Function.comp_apply, hnamed]

/-- A response is returned, in which each call gives one block with its own arguments exactly when
what arrived from its start until the next start is read as its own arguments are; the texts are
the same exactly when every fragment arrives before the next call starts. -/
theorem parallel_calls_iff (h : Streams fromStr resp values)
    (hd : DeliversByIndex calls (toolEntries values)) (hid : ∀ tc ∈ calls, tc.id ≠ "")
    (hnodup : (calls.map ToolCall.id).Nodup) :
    ∃ r, (completeStream fromStr (.ok resp)).1 = .ok r ∧
      ((∀ tc ∈ calls, r.content.filter (ContentBlock.isCall tc.id) = [tc.block fromStr]) ↔
        ∀ p ∈ (arrived (toolEntries values)).2, ∀ tc, calls[p.1]? = some tc →
          parseInput fromStr p.2 = parseInput fromStr tc.arguments) ∧
      ((∀ p ∈ (arrived (toolEntries values)).2, ∀ tc, calls[p.1]? = some tc →
          p.2 = tc.arguments) ↔ Contiguous (toolEntries values)) := by
  obtain ⟨-, hmem⟩ := arrived_indices hd.fragments
  have hrun := congrArg Prod.fst (completeStream_of_streams h)
  refine ⟨_, hrun, ?_⟩
  constructor
  · constructor
    · -- the one block of a call is made of what arrived for it
      intro hall p hp tc htc
      have hone := filter_call h hrun hd.fragments hid hnodup hp htc
      rw [hall tc (List.mem_of_getElem? htc), List.cons_eq_cons] at hone
      exact (ContentBlock.toolUse.inj hone.1).2.2.symm
    · intro hall tc htc
      obtain ⟨i, hi, rfl⟩ := List.mem_iff_getElem.mp htc
      obtain ⟨p, hp, rfl⟩ := List.mem_map.mp ((hmem i).mpr ⟨hi, List.not_mem_nil⟩)
      have htc' := List.getElem?_eq_getElem hi
      rw [filter_call h hrun hd.fragments hid hnodup hp htc', ToolCall.block, hall p hp _ htc',
        ToolCall.block]
  · rw [← contiguous_iff hd.fragments]
    refine forall₂_congr fun p hp => ?_
    have hlt := ((hmem p.1).mp (List.mem_map_of_mem hp)).1
    constructor
    · intro hall
      have htc := List.getElem?_eq_getElem hlt
      rw [hall _ htc, hd.arguments _ _ htc]
    · intro heq tc htc
      rw [heq, hd.arguments _ _ htc]

end Fragments

/-! ### Two calls -/

/-- Two calls of the clock. -/
def twoCalls : List ToolCall := [⟨"a", "now", "13"⟩, ⟨"b", "now", "2"⟩]

/-- One call after the other. -/
def orderlyPayloads : List (String × Json) :=
  [startPayload false "a" "1", argumentsPayload false "3", startPayload true "b" "2"]

/-- The second call starts between the two fragments of the first. -/
def mixedPayloads : List (String × Json) :=
  [startPayload false "a" "1", startPayload true "b" "2", argumentsPayload false "3"]

def twoFromStr : FromStr :=
  tableFromStr (orderlyPayloads ++ [("1", .num (.posInt 1)), ("2", .num (.posInt 2)),
    ("13", .num (.posInt 13)), ("23", .num (.posInt 23))])

/-- The state at the end of a stream of the given payloads. -/
def twoRun (payloads : List (String × Json)) : StreamState :=
  (accumulated twoFromStr (payloads.map Prod.snd)).finish twoFromStr

theorem streams_orderly : Streams twoFromStr (streamOf (orderlyPayloads.map Prod.fst))
    (orderlyPayloads.map Prod.snd) := by
  refine streams_streamOf ?_ (by decide)
  simp only [orderlyPayloads, List.map_cons, List.map_nil, List.forall_mem_cons]
  exact ⟨oneLine_startPayload _ (by decide) (by decide), oneLine_argumentsPayload _ (by decide),
    oneLine_startPayload _ (by decide) (by decide), List.forall_mem_nil _⟩

theorem streams_mixed : Streams twoFromStr (streamOf (mixedPayloads.map Prod.fst))
    (mixedPayloads.map Prod.snd) := by
  refine streams_streamOf ?_ (by decide)
  simp only [mixedPayloads, List.map_cons, List.map_nil, List.forall_mem_cons]
  exact ⟨oneLine_startPayload _ (by decide) (by decide),
    oneLine_startPayload _ (by decide) (by decide), oneLine_argumentsPayload _ (by decide),
    List.forall_mem_nil _⟩

theorem IsFragment.first {calls : List ToolCall} {seen : List ℕ} {e : Json} {i : UInt64}
    {tc : ToolCall} (hi : (e.key "index").asU64 = some i) (htc : calls[i.toNat]? = some tc)
    (hseen : i.toNat ∉ seen) (hid : (e.key "id").asStr = some tc.id)
    (hname : ((e.key "function").key "name").asStr = some tc.name) : IsFragment calls seen e := by
  have hindex : entryIndex e = i.toNat := by rw [entryIndex, hi, Option.getD_some]
  rw [IsFragment, hindex, hi]
  exact ⟨Option.some_ne_none i, tc, htc, by rw [if_neg hseen]; exact ⟨hid, hname⟩⟩

theorem IsFragment.later {calls : List ToolCall} {seen : List ℕ} {e : Json} {i : UInt64}
    {tc : ToolCall} (hi : (e.key "index").asU64 = some i) (htc : calls[i.toNat]? = some tc)
    (hseen : i.toNat ∈ seen) (hid : (e.key "id").asStr = none) : IsFragment calls seen e := by
  have hindex : entryIndex e = i.toNat := by rw [entryIndex, hi, Option.getD_some]
  rw [IsFragment, hindex, hi]
  exact ⟨Option.some_ne_none i, tc, htc, by rw [if_pos hseen]; exact hid⟩

theorem delivers_orderly :
    DeliversByIndex twoCalls (toolEntries (orderlyPayloads.map Prod.snd)) where
  fragments := ⟨.first (i := 0) rfl rfl (by decide) rfl rfl,
    .later (i := 0) rfl rfl (by decide) rfl, .first (i := 1) rfl rfl (by decide) rfl rfl,
    (by decide : ∀ i < 2, i ∈ [1, 0, 0])⟩
  arguments := by
    rintro (_ | _ | i) tc htc <;> cases htc <;> rfl

theorem delivers_mixed : DeliversByIndex twoCalls (toolEntries (mixedPayloads.map Prod.snd)) where
  fragments := ⟨.first (i := 0) rfl rfl (by decide) rfl rfl,
    .first (i := 1) rfl rfl (by decide) rfl rfl, .later (i := 0) rfl rfl (by decide) rfl,
    (by decide : ∀ i < 2, i ∈ [0, 1, 0])⟩
  arguments := by
    rintro (_ | _ | i) tc htc <;> cases htc <;> rfl

/-- One call after the other: each gives one block with its own arguments. -/
theorem parallel_calls_iff_orderly :
    (twoCalls.map fun tc => (twoRun orderlyPayloads).response.content.filter
      (ContentBlock.isCall tc.id)) = twoCalls.map fun tc => [tc.block twoFromStr] := by
  obtain ⟨r, hrun, hiff⟩ := parallel_calls_iff streams_orderly delivers_orderly (by decide)
    (by decide)
  rw [completeStream_of_streams streams_orderly] at hrun
  cases hrun
  refine List.map_congr_left (hiff.1.mpr fun p hp tc htc => congrArg _ ?_)
  exact hiff.2.mpr ⟨fun _ => rfl, trivial⟩ p hp tc htc

/-- The last fragment of the first call goes to the second. -/
theorem parallel_calls_mixed :
    ¬ ∀ fromStr resp values calls r, Streams fromStr resp values →
      (completeStream fromStr (.ok resp)).1 = .ok r →
      DeliversByIndex calls (toolEntries values) → (∀ tc ∈ calls, tc.id ≠ "") →
      (calls.map ToolCall.id).Nodup →
      ∀ tc ∈ calls, r.content.filter (ContentBlock.isCall tc.id) = [tc.block fromStr] := by
  intro h
  have hrun := congrArg Prod.fst (completeStream_of_streams streams_mixed)
  have hall := h _ _ _ _ _ streams_mixed hrun delivers_mixed (by decide) (by decide)
    ⟨"a", "now", "13"⟩ List.mem_cons_self
  have hp : (0, "1") ∈ (arrived (toolEntries (mixedPayloads.map Prod.snd))).2 := List.mem_cons_self
  have htc : twoCalls[0]? = some ⟨"a", "now", "13"⟩ := rfl
  rw [filter_call streams_mixed hrun delivers_mixed.fragments (by decide) (by decide) hp htc,
    List.cons_eq_cons] at hall
  have hparse := (ContentBlock.toolUse.inj hall.1).2.2
  cases hparse

end Animus
