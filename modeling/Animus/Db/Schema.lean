import Animus.Model.Work

/-!
# The `work_items` table

Columns and defaults as the migrations leave them, the SQL statements of the
work operations with the values each binds, and what every statement makes of a
row.

## Main definitions

- `Row`, `Column`, `workItems`: a row and its layout
- `Row.tryIntoWorkItem`: the work item a row is read as
- `insertOnConflictSql`, `transitionSql`, …: the statements
- `keptBinds`, `NewWorkItem.kept`: what is bound, as its columns give it back
- `Change`: the three compare-and-swap updates clients issue

## Main results

- `insertOnConflict_row`, `insertPlain_row`, `insertMerged_row`: the inserted rows
- `Change.hits_iff`, `Change.apply_eq`: what an update touches and writes
-/

namespace Animus

open Sql (Timestamp Value Expr Insert Update)

/-- A row of `work_items`. -/
structure Row where
  id : Uuid
  pgmqMsgId : Option ℤ
  queueName : String
  faculty : String
  skill : Option String
  dedupKey : Option String
  source : String
  triggerInfo : Option String
  params : Json
  priority : ℤ
  state : State
  mergedInto : Option Uuid
  parentId : Option Uuid
  attempts : ℤ
  maxAttempts : Option ℤ
  outcomeData : Option Json
  outcomeError : Option String
  outcomeMs : Option ℤ
  createdAt : Timestamp
  updatedAt : Timestamp
  resolvedAt : Option Timestamp

inductive Column
  | id | pgmqMsgId | queueName | faculty | skill | dedupKey | source | triggerInfo | params
  | priority | state | mergedInto | parentId | attempts | maxAttempts | outcomeData
  | outcomeError | outcomeMs | createdAt | updatedAt | resolvedAt
  deriving DecidableEq

/-! ### Typed columns -/

section Typed

variable {α : Type}

def asUuid : Value → Option Uuid
  | .uuid u => some u
  | _ => none

def asText : Value → Option String
  | .text s => some s
  | _ => none

def asJsonb : Value → Option Json
  | .jsonb j => some j
  | _ => none

def asInt4 : Value → Option ℤ
  | .int4 n => some n
  | _ => none

def asInt8 : Value → Option ℤ
  | .int8 n => some n
  | _ => none

def asTimestamptz : Value → Option Timestamp
  | .timestamptz t => some t
  | _ => none

/-- A column that may be null. -/
def nullable (dec : Value → Option α) : Value → Option (Option α)
  | .null => some none
  | v => (dec v).map some

@[simp] theorem nullable_null (dec : Value → Option α) : nullable dec .null = some none := rfl

@[simp] theorem nullable_uuid (o : Option Uuid) :
    nullable asUuid (Value.ofOption .uuid o) = some o := by cases o <;> rfl

@[simp] theorem nullable_text (o : Option String) :
    nullable asText (Value.ofOption .text o) = some o := by cases o <;> rfl

@[simp] theorem nullable_jsonb (o : Option Json) :
    nullable asJsonb (Value.ofOption .jsonb o) = some o := by cases o <;> rfl

@[simp] theorem nullable_int4 (o : Option ℤ) :
    nullable asInt4 (Value.ofOption .int4 o) = some o := by cases o <;> rfl

@[simp] theorem nullable_int8 (o : Option ℤ) :
    nullable asInt8 (Value.ofOption .int8 o) = some o := by cases o <;> rfl

@[simp] theorem nullable_timestamptz (o : Option Timestamp) :
    nullable asTimestamptz (Value.ofOption .timestamptz o) = some o := by cases o <;> rfl

end Typed

/-- A row column by column; the state is stored as its text. -/
def Row.read (r : Row) : Column → Value
  | .id => .uuid r.id
  | .pgmqMsgId => .ofOption .int8 r.pgmqMsgId
  | .queueName => .text r.queueName
  | .faculty => .text r.faculty
  | .skill => .ofOption .text r.skill
  | .dedupKey => .ofOption .text r.dedupKey
  | .source => .text r.source
  | .triggerInfo => .ofOption .text r.triggerInfo
  | .params => .jsonb r.params
  | .priority => .int4 r.priority
  | .state => .text r.state.toText
  | .mergedInto => .ofOption .uuid r.mergedInto
  | .parentId => .ofOption .uuid r.parentId
  | .attempts => .int4 r.attempts
  | .maxAttempts => .ofOption .int4 r.maxAttempts
  | .outcomeData => .ofOption .jsonb r.outcomeData
  | .outcomeError => .ofOption .text r.outcomeError
  | .outcomeMs => .ofOption .int8 r.outcomeMs
  | .createdAt => .timestamptz r.createdAt
  | .updatedAt => .timestamptz r.updatedAt
  | .resolvedAt => .ofOption .timestamptz r.resolvedAt

/-- The row of typed column values; a null or ill-typed value where the column
allows none is refused. -/
def Row.build (f : Column → Value) : Option Row :=
  (asUuid (f .id)).bind fun id =>
  (nullable asInt8 (f .pgmqMsgId)).bind fun pgmqMsgId =>
  (asText (f .queueName)).bind fun queueName =>
  (asText (f .faculty)).bind fun faculty =>
  (nullable asText (f .skill)).bind fun skill =>
  (nullable asText (f .dedupKey)).bind fun dedupKey =>
  (asText (f .source)).bind fun source =>
  (nullable asText (f .triggerInfo)).bind fun triggerInfo =>
  (asJsonb (f .params)).bind fun params =>
  (asInt4 (f .priority)).bind fun priority =>
  ((asText (f .state)).bind State.fromStr).bind fun state =>
  (nullable asUuid (f .mergedInto)).bind fun mergedInto =>
  (nullable asUuid (f .parentId)).bind fun parentId =>
  (asInt4 (f .attempts)).bind fun attempts =>
  (nullable asInt4 (f .maxAttempts)).bind fun maxAttempts =>
  (nullable asJsonb (f .outcomeData)).bind fun outcomeData =>
  (nullable asText (f .outcomeError)).bind fun outcomeError =>
  (nullable asInt8 (f .outcomeMs)).bind fun outcomeMs =>
  (asTimestamptz (f .createdAt)).bind fun createdAt =>
  (asTimestamptz (f .updatedAt)).bind fun updatedAt =>
  (nullable asTimestamptz (f .resolvedAt)).bind fun resolvedAt =>
  some { id, pgmqMsgId, queueName, faculty, skill, dedupKey, source, triggerInfo, params,
         priority, state, mergedInto, parentId, attempts, maxAttempts, outcomeData,
         outcomeError, outcomeMs, createdAt, updatedAt, resolvedAt }

/-- The table: how rows are laid out and what an unlisted column gets. -/
def workItems : Sql.Schema Column Row where
  read := Row.read
  build := Row.build
  default now
    | .params => .jsonb (.obj [])
    | .priority => .int4 0
    | .state => .text "queued"
    | .attempts => .int4 0
    | .createdAt => .timestamptz now
    | .updatedAt => .timestamptz now
    | _ => .null

theorem Row.build_read (r : Row) : Row.build r.read = some r := by
  simp [Row.build, Row.read, asUuid, asText, asJsonb, asInt4, asTimestamptz]

/-- Column values that are those of a row build that row. -/
theorem Row.build_of_read {f : Column → Value} {r : Row} (h : ∀ c, f c = r.read c) :
    Row.build f = some r := by
  rw [funext h, Row.build_read]

/-- The row an `INSERT` makes, from the values of its expressions. -/
theorem insert_row_of {ins : Insert Column} {binds vs : List Value} {now : Timestamp} {r : Row}
    (hv : ins.values.mapM (Expr.eval binds now fun _ => .null) = some vs)
    (hlen : ins.columns.length = vs.length)
    (h : ∀ c, ((ins.columns.zip vs).lookup c).getD (workItems.default now c) = r.read c) :
    ins.row workItems binds now = some r :=
  (Insert.row_eq hv hlen).trans (Row.build_of_read h)

/-- The row an `UPDATE` leaves, from the values it assigns. -/
theorem update_apply_of {upd : Update Column} {binds : List Value} {now : Timestamp} {r r' : Row}
    {vs : List (Column × Value)}
    (hv : (upd.sets.mapM fun (s : Column × Expr Column) =>
      (s.2.eval binds now r.read).map (s.1, ·)) = some vs)
    (h : ∀ c, (vs.lookup c).getD (r.read c) = r'.read c) :
    upd.apply workItems binds now r = some r' :=
  (Update.apply_eq hv).trans (Row.build_of_read h)

/-! ### Integer casts -/

/-- `n as i32`. -/
def asI32 (n : UInt32) : ℤ := n.toInt32.toInt

/-- `n as u32`. -/
def asU32 (n : ℤ) : UInt32 := (Int32.ofInt n).toUInt32

/-- `n as i64`. -/
def asI64 (n : UInt64) : ℤ := n.toInt64.toInt

/-- `n as u64`. -/
def asU64 (n : ℤ) : UInt64 := (Int64.ofInt n).toUInt64

@[simp] theorem asU32_asI32 (n : UInt32) : asU32 (asI32 n) = n := by simp [asU32, asI32]

@[simp] theorem asU64_asI64 (n : UInt64) : asU64 (asI64 n) = n := by simp [asU64, asI64]

/-! ### Reading a row -/

/-- The outcome the three outcome columns encode. -/
def Row.outcome (r : Row) : Option Outcome :=
  if r.outcomeData.isSome || r.outcomeError.isSome then
    some { success := r.outcomeError.isNone
           data := r.outcomeData
           error := r.outcomeError
           durationMs := asU64 (r.outcomeMs.getD 0) }
  else none

/-- `WorkItemRow::try_into_work_item`. -/
def Row.tryIntoWorkItem (r : Row) : Except Error WorkItem :=
  match State.fromStr r.state.toText with
  | none => .error (.invalidState r.state.toText)
  | some state => .ok
    { id := r.id
      faculty := r.faculty
      skill := r.skill
      dedupKey := r.dedupKey
      provenance := ⟨r.source, r.triggerInfo⟩
      params := r.params
      priority := Int32.ofInt r.priority
      state := state
      mergedInto := r.mergedInto
      parentId := r.parentId
      attempts := asU32 r.attempts
      maxAttempts := r.maxAttempts.map asU32
      createdAt := r.createdAt
      updatedAt := r.updatedAt
      resolvedAt := r.resolvedAt
      outcome := r.outcome }

/-- Reading a row never fails: what is stored is the text of a state. -/
theorem Row.tryIntoWorkItem_isOk (r : Row) :
    ∃ item, r.tryIntoWorkItem = .ok item ∧ item.id = r.id ∧ item.faculty = r.faculty ∧
      item.state = r.state := by
  unfold Row.tryIntoWorkItem
  rw [State.fromStr_toText]
  exact ⟨_, rfl, rfl, rfl, rfl⟩

/-- What is read of a row. -/
theorem Row.of_read {r : Row} {item : WorkItem} (h : r.tryIntoWorkItem = .ok item) :
    item.id = r.id ∧ item.faculty = r.faculty ∧ item.state = r.state := by
  obtain ⟨item', hitem', hread⟩ := r.tryIntoWorkItem_isOk
  cases h.symm.trans hitem'
  exact hread

/-! ### The dedup index -/

/-- `dedup_key IS NOT NULL AND state NOT IN ('completed', 'dead', 'merged')`: the
rows `idx_work_dedup` covers. -/
def Row.indexed (r : Row) : Bool := r.dedupKey.isSome && !r.state.isTerminal

/-- Two rows `idx_work_dedup` refuses to hold together. -/
def Row.clash (a b : Row) : Bool :=
  a.indexed && b.indexed && a.faculty == b.faculty && a.dedupKey == b.dedupKey

theorem Row.clash_iff {a b : Row} : a.clash b = true ↔
    a.indexed = true ∧ b.indexed = true ∧ a.faculty = b.faculty ∧ a.dedupKey = b.dedupKey := by
  simp [Row.clash, and_assoc]

theorem Row.clash_symm (a b : Row) : a.clash b = b.clash a := by
  rw [Bool.eq_iff_iff, Row.clash_iff, Row.clash_iff]
  constructor
  · rintro ⟨ha, hb, hf, hk⟩
    exact ⟨hb, ha, hf.symm, hk.symm⟩
  · rintro ⟨hb, ha, hf, hk⟩
    exact ⟨ha, hb, hf.symm, hk.symm⟩

/-! ### The statements of `submit_work` -/

/-- Insert a `created` row unless an active row holds the dedup key. -/
def insertOnConflictSql : Insert Column where
  columns := [.id, .queueName, .faculty, .skill, .dedupKey, .source, .triggerInfo, .params,
    .priority, .state, .parentId, .maxAttempts, .createdAt, .updatedAt]
  values := [.param 1, .param 2, .param 3, .param 4, .param 5, .param 6, .param 7, .param 8,
    .param 9, .param 10, .param 11, .param 12, .param 13, .param 13]

def insertOnConflictBinds (new : NewWorkItem) (id : Uuid) (dedupKey : String) (now : Timestamp) :
    List Value :=
  [.uuid id, .text "work", .text new.faculty, .ofOption .text new.skill, .text dedupKey,
    .text new.provenance.source, .ofOption .text new.provenance.trigger, .jsonb new.params,
    .int4 new.priority.toInt, .text "created", .ofOption .uuid new.parentId,
    .ofOption .int4 (new.maxAttempts.map asI32), .timestamptz now]

/-- Insert a `created` row without a dedup key. -/
def insertPlainSql : Insert Column where
  columns := [.id, .queueName, .faculty, .skill, .dedupKey, .source, .triggerInfo, .params,
    .priority, .state, .parentId, .maxAttempts, .createdAt, .updatedAt]
  values := [.param 1, .param 2, .param 3, .param 4, .null, .param 5, .param 6, .param 7,
    .param 8, .param 9, .param 10, .param 11, .param 12, .param 12]

def insertPlainBinds (new : NewWorkItem) (id : Uuid) (now : Timestamp) : List Value :=
  [.uuid id, .text "work", .text new.faculty, .ofOption .text new.skill,
    .text new.provenance.source, .ofOption .text new.provenance.trigger, .jsonb new.params,
    .int4 new.priority.toInt, .text "created", .ofOption .uuid new.parentId,
    .ofOption .int4 (new.maxAttempts.map asI32), .timestamptz now]

/-- Insert a duplicate as `merged`; its dedup key is null to stay out of the index. -/
def insertMergedSql : Insert Column where
  columns := [.id, .queueName, .faculty, .skill, .dedupKey, .source, .triggerInfo, .params,
    .priority, .state, .mergedInto, .parentId, .maxAttempts, .createdAt, .updatedAt, .resolvedAt]
  values := [.param 1, .param 2, .param 3, .param 4, .null, .param 5, .param 6, .param 7,
    .param 8, .text "merged", .param 9, .param 10, .param 11, .param 12, .param 12, .param 12]

def insertMergedBinds (new : NewWorkItem) (id canonical : Uuid) (now : Timestamp) : List Value :=
  [.uuid id, .text "work", .text new.faculty, .ofOption .text new.skill,
    .text new.provenance.source, .ofOption .text new.provenance.trigger, .jsonb new.params,
    .int4 new.priority.toInt, .uuid canonical, .ofOption .uuid new.parentId,
    .ofOption .int4 (new.maxAttempts.map asI32), .timestamptz now]

/-- Record the queue message and move the new row to `queued`. -/
def updateQueuedSql : Update Column where
  sets := [(.state, .text "queued"), (.pgmqMsgId, .param 1), (.updatedAt, .now)]
  keys := [(.id, .param 2)]

def updateQueuedBinds (msgId : ℤ) (id : Uuid) : List Value := [.int8 msgId, .uuid id]

/-- The row a submission inserts, before it is queued. -/
def NewWorkItem.row (new : NewWorkItem) (jsonb : Json → Json) (id : Uuid) (now : Timestamp) :
    Row where
  id := id
  pgmqMsgId := none
  queueName := "work"
  faculty := new.faculty
  skill := new.skill
  dedupKey := new.dedupKey
  source := new.provenance.source
  triggerInfo := new.provenance.trigger
  params := jsonb new.params
  priority := new.priority.toInt
  state := .created
  mergedInto := none
  parentId := new.parentId
  attempts := 0
  maxAttempts := new.maxAttempts.map asI32
  outcomeData := none
  outcomeError := none
  outcomeMs := none
  createdAt := now
  updatedAt := now
  resolvedAt := none

/-- The row a duplicate submission inserts. -/
def NewWorkItem.mergedRow (new : NewWorkItem) (jsonb : Json → Json) (id canonical : Uuid)
    (now : Timestamp) : Row :=
  { new.row jsonb id now with
    dedupKey := none, state := .merged, mergedInto := some canonical, resolvedAt := some now }

/-- The row once its message is recorded. -/
def Row.queue (r : Row) (msgId : ℤ) (now : Timestamp) : Row :=
  { r with state := .queued, pgmqMsgId := some msgId, updatedAt := now }

/-- The values bound to a statement, as their columns hold them. -/
def keptBinds (jsonb : Json → Json) (binds : List Value) : List Value :=
  binds.map (Value.kept jsonb)

section Inserts

variable (new : NewWorkItem) (jsonb : Json → Json) (id canonical : Uuid) (key : String)
  (now t : Timestamp)

/-- The submission as the table holds it: of its parts, only the parameters are JSON. -/
def NewWorkItem.kept (new : NewWorkItem) (jsonb : Json → Json) : NewWorkItem :=
  { new with params := jsonb new.params }

theorem keptBinds_insertOnConflict : keptBinds jsonb (insertOnConflictBinds new id key now) =
    insertOnConflictBinds (new.kept jsonb) id key now := by
  simp [keptBinds, insertOnConflictBinds, NewWorkItem.kept]

theorem keptBinds_insertPlain : keptBinds jsonb (insertPlainBinds new id now) =
    insertPlainBinds (new.kept jsonb) id now := by
  simp [keptBinds, insertPlainBinds, NewWorkItem.kept]

theorem keptBinds_insertMerged : keptBinds jsonb (insertMergedBinds new id canonical now) =
    insertMergedBinds (new.kept jsonb) id canonical now := by
  simp [keptBinds, insertMergedBinds, NewWorkItem.kept]

variable {new key}

theorem insertOnConflict_row (hk : new.dedupKey = some key) :
    insertOnConflictSql.row workItems (keptBinds jsonb (insertOnConflictBinds new id key now)) t =
      some (new.row jsonb id now) := by
  rw [keptBinds_insertOnConflict]
  refine insert_row_of rfl rfl fun c => ?_
  cases c <;> first | rfl | simp only [NewWorkItem.row, Row.read, hk]; rfl

theorem insertPlain_row (hk : new.dedupKey = none) :
    insertPlainSql.row workItems (keptBinds jsonb (insertPlainBinds new id now)) t =
      some (new.row jsonb id now) := by
  rw [keptBinds_insertPlain]
  refine insert_row_of rfl rfl fun c => ?_
  cases c <;> first | rfl | simp only [NewWorkItem.row, Row.read, hk]; rfl

theorem insertMerged_row :
    insertMergedSql.row workItems (keptBinds jsonb (insertMergedBinds new id canonical now)) t =
      some (new.mergedRow jsonb id canonical now) := by
  rw [keptBinds_insertMerged]
  refine insert_row_of rfl rfl fun c => ?_
  cases c <;> rfl

end Inserts

theorem updateQueued_apply (msgId : ℤ) (id : Uuid) (now : Timestamp) (r : Row) :
    updateQueuedSql.apply workItems (updateQueuedBinds msgId id) now r =
      some (r.queue msgId now) := by
  refine update_apply_of rfl fun c => ?_
  cases c <;> rfl

theorem updateQueued_hits (msgId : ℤ) (id : Uuid) (now : Timestamp) (r : Row) :
    updateQueuedSql.hits workItems (updateQueuedBinds msgId id) now r = true ↔ r.id = id := by
  simp [Update.hits, updateQueuedSql, updateQueuedBinds, Expr.eval, Sql.bound, workItems,
    Row.read, Value.same]

/-! ### The compare-and-swap updates -/

/-- `UPDATE … WHERE id = $5 AND state = $6` of `transition_state`. -/
def transitionSql : Update Column where
  sets := [(.state, .param 1), (.updatedAt, .param 2),
    (.resolvedAt, .coalesce (.param 3) (.col .resolvedAt)),
    (.attempts, .add (.col .attempts) (.param 4))]
  keys := [(.id, .param 5), (.state, .param 6)]

def transitionBinds (id : Uuid) (source target : State) (now : Timestamp) : List Value :=
  let resolvedAt := if target.isTerminal then some now else none
  -- Increment attempts when entering Running
  let attemptsIncrement := if target = .running then 1 else 0
  [.text target.toText, .timestamptz now, .ofOption .timestamptz resolvedAt,
    .int4 attemptsIncrement, .uuid id, .text source.toText]

/-- The `UPDATE` of `complete_work`. -/
def completeSql : Update Column where
  sets := [(.state, .text "completed"), (.updatedAt, .param 1), (.resolvedAt, .param 1),
    (.outcomeData, .param 2), (.outcomeError, .param 3), (.outcomeMs, .param 4)]
  keys := [(.id, .param 5), (.state, .text "running")]

def completeBinds (id : Uuid) (outcome : Outcome) (now : Timestamp) : List Value :=
  [.timestamptz now, .ofOption .jsonb outcome.data, .ofOption .text outcome.error,
    .int8 (asI64 outcome.durationMs), .uuid id]

/-- The `UPDATE` of `fail_work`. -/
def failSql : Update Column where
  sets := [(.state, .text "failed"), (.updatedAt, .param 1), (.outcomeError, .param 2),
    (.outcomeMs, .param 3)]
  keys := [(.id, .param 4), (.state, .text "running")]

def failBinds (id : Uuid) (error : String) (durationMs : UInt64) (now : Timestamp) : List Value :=
  [.timestamptz now, .text error, .int8 (asI64 durationMs), .uuid id]

section Binds

variable (jsonb : Json → Json) (id : Uuid) (now : Timestamp)

theorem keptBinds_transition (source target : State) :
    keptBinds jsonb (transitionBinds id source target now) =
      transitionBinds id source target now := by
  simp [keptBinds, transitionBinds]

theorem keptBinds_complete (outcome : Outcome) :
    keptBinds jsonb (completeBinds id outcome now) =
      completeBinds id { outcome with data := outcome.data.map jsonb } now := by
  simp [keptBinds, completeBinds]

theorem keptBinds_fail (error : String) (durationMs : UInt64) :
    keptBinds jsonb (failBinds id error durationMs now) = failBinds id error durationMs now := rfl

end Binds

/-- The three updates that move a committed row along the lifecycle graph. -/
inductive Change
  | transition (source target : State)
  | complete (outcome : Outcome)
  | fail (error : String) (durationMs : UInt64)

namespace Change

def source : Change → State
  | .transition source _ => source
  | .complete _ => .running
  | .fail _ _ => .running

def target : Change → State
  | .transition _ target => target
  | .complete _ => .completed
  | .fail _ _ => .failed

def sql : Change → Update Column
  | .transition _ _ => transitionSql
  | .complete _ => completeSql
  | .fail _ _ => failSql

def binds (c : Change) (id : Uuid) (now : Timestamp) : List Value :=
  match c with
  | .transition source target => transitionBinds id source target now
  | .complete outcome => completeBinds id outcome now
  | .fail error durationMs => failBinds id error durationMs now

/-- What the update makes of a row; entering `running` fails where the attempt
counter is at its limit. -/
def apply (c : Change) (jsonb : Json → Json) (now : Timestamp) (r : Row) : Option Row :=
  match c with
  | .transition _ target =>
    if Value.inInt4 (r.attempts + if target = .running then 1 else 0) then
      some { r with
        state := target
        updatedAt := now
        resolvedAt := if target.isTerminal then some now else r.resolvedAt
        attempts := r.attempts + if target = .running then 1 else 0 }
    else none
  | .complete outcome =>
    some { r with
      state := .completed
      updatedAt := now
      resolvedAt := some now
      outcomeData := outcome.data.map jsonb
      outcomeError := outcome.error
      outcomeMs := some (asI64 outcome.durationMs) }
  | .fail error durationMs =>
    some { r with
      state := .failed
      updatedAt := now
      outcomeError := some error
      outcomeMs := some (asI64 durationMs) }

variable {jsonb : Json → Json} {now : Timestamp} {r r' : Row}

/-- What no update writes. -/
theorem apply_identity (c : Change) (h : c.apply jsonb now r = some r') :
    r'.id = r.id ∧ r'.faculty = r.faculty ∧ r'.dedupKey = r.dedupKey ∧
      r'.mergedInto = r.mergedInto ∧ r'.pgmqMsgId = r.pgmqMsgId := by
  cases c with
  | transition source target =>
    rw [apply, Option.ite_none_right_eq_some] at h
    cases h.2
    exact ⟨rfl, rfl, rfl, rfl, rfl⟩
  | complete outcome =>
    cases h
    exact ⟨rfl, rfl, rfl, rfl, rfl⟩
  | fail error durationMs =>
    cases h
    exact ⟨rfl, rfl, rfl, rfl, rfl⟩

/-- The state it writes, when it stops the clock of the item, and what it counts. -/
theorem apply_state (c : Change) (h : c.apply jsonb now r = some r') :
    r'.state = c.target ∧
      r'.resolvedAt = (if c.target.isTerminal then some now else r.resolvedAt) ∧
      r'.attempts = r.attempts + if c.target = .running then 1 else 0 := by
  cases c with
  | transition source target =>
    rw [apply, Option.ite_none_right_eq_some] at h
    cases h.2
    exact ⟨rfl, rfl, rfl⟩
  | complete outcome =>
    cases h
    exact ⟨rfl, rfl, (Int.add_zero _).symm⟩
  | fail error durationMs =>
    cases h
    exact ⟨rfl, rfl, (Int.add_zero _).symm⟩

/-- An update touches the row with its id when that row is in its source state. -/
theorem hits_iff (c : Change) (jsonb : Json → Json) (id : Uuid) (now t : Timestamp) (r : Row) :
    c.sql.hits workItems (keptBinds jsonb (c.binds id now)) t r = true ↔
      r.id = id ∧ r.state = c.source := by
  have hrunning : "running" = State.running.toText := rfl
  cases c with
  | transition source target =>
    rw [binds, keptBinds_transition]
    simp [sql, Update.hits, transitionSql, transitionBinds, Expr.eval, Sql.bound, workItems,
      Row.read, Value.same, Change.source]
  | complete outcome =>
    rw [binds, keptBinds_complete]
    simp [sql, Update.hits, completeSql, completeBinds, Expr.eval, Sql.bound, workItems,
      Row.read, Value.same, Change.source, hrunning]
  | fail error durationMs =>
    rw [binds, keptBinds_fail]
    simp [sql, Update.hits, failSql, failBinds, Expr.eval, Sql.bound, workItems,
      Row.read, Value.same, Change.source, hrunning]

theorem apply_eq (c : Change) (jsonb : Json → Json) (id : Uuid) (now t : Timestamp) (r : Row) :
    c.sql.apply workItems (keptBinds jsonb (c.binds id now)) t r = c.apply jsonb now r := by
  cases c with
  | transition source target =>
    rw [binds, keptBinds_transition]
    -- the one assignment that can fail is `attempts = attempts + $4`
    have hres : (Expr.coalesce (.param 3) (.col Column.resolvedAt)).eval
        (transitionBinds id source target now) t r.read =
        some (.ofOption .timestamptz (if target.isTerminal then some now else r.resolvedAt)) := by
      cases h : target.isTerminal <;>
        simp [Expr.eval, transitionBinds, Sql.bound, h, Value.isNull, Row.read]
    have hadd : (Expr.add (.col Column.attempts) (.param 4)).eval
        (transitionBinds id source target now) t r.read =
        if Value.inInt4 (r.attempts + if target = .running then 1 else 0) then
          some (.int4 (r.attempts + if target = .running then 1 else 0)) else none := by
      simp [Expr.eval, transitionBinds, Sql.bound, Row.read, Value.add]
    by_cases hfit : Value.inInt4 (r.attempts + if target = .running then 1 else 0)
    · rw [if_pos hfit] at hadd
      rw [apply, if_pos hfit]
      have hv : (transitionSql.sets.mapM fun (s : Column × Expr Column) =>
          (s.2.eval (transitionBinds id source target now) t r.read).map (s.1, ·)) =
          some [(.state, .text target.toText), (.updatedAt, .timestamptz now),
            (.resolvedAt,
              .ofOption .timestamptz (if target.isTerminal then some now else r.resolvedAt)),
            (.attempts, .int4 (r.attempts + if target = .running then 1 else 0))] := by
        simp only [transitionSql, List.mapM_cons, List.mapM_nil, hres, hadd]
        rfl
      refine update_apply_of hv fun c => ?_
      cases c <;> rfl
    · rw [if_neg hfit] at hadd
      rw [apply, if_neg hfit]
      have hv : (transitionSql.sets.mapM fun (s : Column × Expr Column) =>
          (s.2.eval (transitionBinds id source target now) t r.read).map (s.1, ·)) = none := by
        simp only [transitionSql, List.mapM_cons, List.mapM_nil, hres, hadd]
        rfl
      unfold Update.apply
      simp only [sql]
      exact congrArg (fun o => Option.bind o _) hv
  | complete outcome =>
    rw [binds, keptBinds_complete]
    refine update_apply_of rfl fun c => ?_
    cases c <;> rfl
  | fail error durationMs =>
    rw [binds, keptBinds_fail]
    refine update_apply_of rfl fun c => ?_
    cases c <;> rfl

end Change

end Animus
