import Animus.Db.Schema
import Animus.Lib.Table

/-!
# The database

The work table, the queue `work` and what one SQL statement does to them. Rows
and messages written inside a transaction carry the call that owns it until the
commit; others do not see them, but the primary key and the dedup index do.

## Main definitions

- `Db`: the table, the queue, the archive and the message id sequence
- `Chance`: what a statement leaves to the server
- `Stmt`: the statements of `db/work.rs` and `db/pgmq.rs`
- `Db.exec`: a statement run to its end, without a fault
- `Db.waits`: a statement that must wait for another transaction first
- `Db.commit`, `Db.rollback`: how a transaction ends
- `Db.rowOf`, `Db.row`: rows by writer, and the committed ones

## Main results

- `Db.insertRow_cases`, `Db.exec_change_cases`: what a write does, by cases
- `Db.rowOf_commit`, `Db.rowOf_rollback`: what the end of a transaction does
-/

namespace Animus

open Sql (Timestamp Value Insert Update)
open Keyed (Table)

/-- A call of one of the operations; each call owns at most one transaction. -/
abbrev CallId := ℕ

/-- A row with the open transaction that wrote it, if any. -/
structure Version where
  row : Row
  txn : Option CallId

/-- The primary key and the dedup index range over all versions, committed or not. -/
def versions : Keyed.Schema Uuid Version where
  key v := v.row.id
  clash a b := a.row.clash b.row
  symm a b := Row.clash_symm a.row b.row

/-- A message as `pgmq.read` returns it. -/
structure PgmqMessage where
  msgId : ℤ
  message : Json

/-- A message of the queue table: hidden while its visibility timeout runs. -/
structure Message where
  msgId : ℤ
  message : Json
  hidden : Bool
  txn : Option CallId

structure Db where
  table : Table versions
  queue : List Message
  archive : List PgmqMessage
  nextMsgId : ℤ

/-- The database after the migrations and `create_queue`. -/
def Db.initial : Db := ⟨Table.empty versions, [], [], 1⟩

/-- What a statement leaves to chance, or to the server. -/
structure Chance where
  /-- The clock of the server. -/
  now : Timestamp := 0
  /-- Which of the visible messages a `pgmq.read` gets: it skips those other readers hold locked. -/
  pick : ℕ := 0
  /-- What a `jsonb` column gives back of a value: numbers are stored as `numeric` and parsed
  again when they are read. -/
  jsonb : Json → Json := id
  /-- The order of the rows that an `ORDER BY` leaves open. -/
  rank : Uuid → ℕ := fun _ => 0

/-- The statements of the work and queue operations, with what each returns. -/
inductive Stmt : Type → Type
  /-- `INSERT … ON CONFLICT … DO NOTHING RETURNING id`, run with `fetch_optional`. -/
  | insertOnConflict (new : NewWorkItem) (id : Uuid) (dedupKey : String) (now : Timestamp) :
      Stmt (Option Uuid)
  | insertPlain (new : NewWorkItem) (id : Uuid) (now : Timestamp) : Stmt Unit
  | insertMerged (new : NewWorkItem) (id canonical : Uuid) (now : Timestamp) : Stmt Unit
  | updateQueued (msgId : ℤ) (id : Uuid) : Stmt ℕ
  /-- One of the compare-and-swap updates; its result is the number of rows affected. -/
  | change (c : Change) (id : Uuid) (now : Timestamp) : Stmt ℕ
  /-- The active row of a faculty and dedup key, run with `fetch_one`. -/
  | selectCanonical (faculty dedupKey : String) : Stmt Uuid
  | selectById (id : Uuid) : Stmt (Option Row)
  /-- Newest first, at most `limit` rows. -/
  | selectItems (state : Option State) (faculty : Option String) (limit : ℤ) : Stmt (List Row)
  | pgmqSend (payload : Json) : Stmt ℤ
  | pgNotify (payload : String) : Stmt Unit
  | pgmqRead (vt : ℤ) : Stmt (Option PgmqMessage)
  | pgmqArchive (msgId : ℤ) : Stmt Unit

namespace Db

/-- Is a version visible on a connection? -/
def visible (conn : Option CallId) (v : Version) : Bool := v.txn = none || v.txn = conn

/-- Every row a row refers to exists for the connection. -/
def references (db : Db) (conn : Option CallId) (r : Row) : Bool :=
  (r.parentId.toList ++ r.mergedInto.toList).all fun id =>
    id = r.id || db.table.rows.any fun v => visible conn v && v.row.id = id

def insertRow (db : Db) (conn : Option CallId) (r : Row) : Except DbError Unit × Db :=
  match db.table.insert? ⟨r, conn⟩ with
  | none => (.error .uniqueViolation, db)
  | some t =>
    if db.references conn r then (.ok (), { db with table := t })
    else (.error .foreignKeyViolation, db)

/-- `INSERT`: a row that could not be made is a bad value. -/
def insert (db : Db) (conn : Option CallId) : Option Row → Except DbError Unit × Db
  | none => (.error .badValue, db)
  | some r => db.insertRow conn r

/-- Does the dedup index hold a row that clashes? -/
def conflicts (db : Db) (r : Row) : Bool := db.table.rows.any fun v => r.clash v.row

/-- `INSERT … ON CONFLICT … DO NOTHING RETURNING id`. -/
def insertUnlessConflict (db : Db) (conn : Option CallId) :
    Option Row → Except DbError (Option Uuid) × Db
  | none => (.error .badValue, db)
  | some r =>
    if db.conflicts r then (.ok none, db)
    else ((db.insertRow conn r).1.map fun _ => some r.id, (db.insertRow conn r).2)

/-- Does an update on the connection touch a version? The one update inside a transaction is
of the row that transaction inserted. -/
def touches (conn : Option CallId) (upd : Update Column) (binds : List Value) (t : Timestamp)
    (v : Version) : Bool := v.txn = conn && upd.hits workItems binds t v.row

def rewrite (upd : Update Column) (binds : List Value) (t : Timestamp) (v : Version) :
    Option Version := (upd.apply workItems binds t v.row).map fun r => { v with row := r }

/-- `UPDATE`, with the number of rows affected. -/
def updateRows (db : Db) (conn : Option CallId) (upd : Update Column) (binds : List Value)
    (t : Timestamp) : Except DbError ℕ × Db :=
  match db.table.update? (touches conn upd binds t) (rewrite upd binds t) with
  | .ok table =>
    (.ok (db.table.rows.countP (touches conn upd binds t)), { db with table := table })
  | .error .failed => (.error .badValue, db)
  | .error .violation => (.error .uniqueViolation, db)

/-- The committed messages a `pgmq.read` may return. -/
def readable (db : Db) : List Message := db.queue.filter fun m => m.txn = none && !m.hidden

/-- Hide or show the messages with an id. -/
def setHidden (db : Db) (msgId : ℤ) (b : Bool) : Db :=
  { db with queue := db.queue.map fun m => if m.msgId = msgId then { m with hidden := b } else m }

/-- `pgmq.send`. -/
def send (db : Db) (conn : Option CallId) (payload : Json) : Db :=
  { db with
    queue := db.queue ++ [⟨db.nextMsgId, payload, false, conn⟩]
    nextMsgId := db.nextMsgId + 1 }

/-- Is it the committed message with an id? -/
def isArchived (msgId : ℤ) (m : Message) : Bool := m.txn = none && m.msgId = msgId

/-- `pgmq.archive`. -/
def archiveMessage (db : Db) (msgId : ℤ) : Db :=
  { db with
    queue := db.queue.filter fun m => !isArchived msgId m
    archive := db.archive ++
      (db.queue.filter (isArchived msgId)).map fun m => ⟨m.msgId, m.message⟩ }

/-- The row a statement inserts, if it is an insert. -/
def inserted (ch : Chance) : {γ : Type} → Stmt γ → Option Row
  | _, .insertOnConflict new id dedupKey now =>
    insertOnConflictSql.row workItems
      (keptBinds ch.jsonb (insertOnConflictBinds new id dedupKey now)) ch.now
  | _, .insertPlain new id now =>
    insertPlainSql.row workItems (keptBinds ch.jsonb (insertPlainBinds new id now)) ch.now
  | _, .insertMerged new id canonical now =>
    insertMergedSql.row workItems
      (keptBinds ch.jsonb (insertMergedBinds new id canonical now)) ch.now
  | _, _ => none

/-- Newest first. -/
def newerFirst (rank : Uuid → ℕ) (a b : Row) : Bool :=
  b.createdAt < a.createdAt || (a.createdAt = b.createdAt && rank a.id ≤ rank b.id)

/-- Run a statement on a connection: `some i` inside the transaction of call `i`,
`none` on the pool, where it commits by itself. -/
def exec (db : Db) (conn : Option CallId) (ch : Chance) :
    {γ : Type} → Stmt γ → Except DbError γ × Db
  | _, .insertOnConflict new id dedupKey now =>
    db.insertUnlessConflict conn (inserted ch (.insertOnConflict new id dedupKey now))
  | _, .insertPlain new id now => db.insert conn (inserted ch (.insertPlain new id now))
  | _, .insertMerged new id canonical now =>
    db.insert conn (inserted ch (.insertMerged new id canonical now))
  | _, .updateQueued msgId id =>
    db.updateRows conn updateQueuedSql (updateQueuedBinds msgId id) ch.now
  | _, .change c id now => db.updateRows conn c.sql (keptBinds ch.jsonb (c.binds id now)) ch.now
  | _, .selectCanonical faculty dedupKey =>
    match db.table.rows.find? fun v => visible conn v && (v.row.faculty = faculty &&
      v.row.dedupKey = some dedupKey && !v.row.state.isTerminal) with
    | none => (.error .rowNotFound, db)
    | some v => (.ok v.row.id, db)
  | _, .selectById id => (.ok (((db.table.find id).filter (visible conn)).map Version.row), db)
  | _, .selectItems state faculty limit =>
    if limit < 0 then (.error .badValue, db)
    else
      let rows := ((db.table.rows.filter (visible conn)).map Version.row).filter fun r =>
        state.all (· = r.state) && faculty.all (· = r.faculty)
      (.ok ((rows.mergeSort (newerFirst ch.rank)).take limit.toNat), db)
  | _, .pgmqSend payload => (.ok db.nextMsgId, db.send conn payload)
  | _, .pgNotify _ => (.ok (), db)
  | _, .pgmqRead _ =>
    match db.readable[ch.pick]? with
    | none => (.ok none, db)
    | some m => (.ok (some ⟨m.msgId, m.message⟩), db.setHidden m.msgId true)
  | _, .pgmqArchive msgId => (.ok (), db.archiveMessage msgId)

/-- An insert waits while another open transaction holds its key or its place in
the dedup index: only the end of that transaction decides the conflict. -/
def waits (db : Db) (conn : Option CallId) (ch : Chance) {γ : Type} (q : Stmt γ) : Bool :=
  (inserted ch q).any fun r => db.table.rows.any fun v =>
    v.txn ≠ none && v.txn ≠ conn && (v.row.id = r.id || r.clash v.row)

def commitVersion (i : CallId) (v : Version) : Version :=
  if v.txn = some i then { v with txn := none } else v

@[simp] theorem commitVersion_row (i : CallId) (v : Version) : (commitVersion i v).row = v.row := by
  unfold commitVersion
  split <;> rfl

theorem commitVersion_key (i : CallId) (v : Version) :
    versions.key (commitVersion i v) = versions.key v := congrArg Row.id (commitVersion_row i v)

theorem commitVersion_clash (i : CallId) (a b : Version) :
    versions.clash (commitVersion i a) (commitVersion i b) = versions.clash a b := by
  simp only [versions, commitVersion_row]

/-- Make the writes of call `i` visible. The index checks are behind it: they ran
when the rows were inserted. -/
def commit (db : Db) (i : CallId) : Db where
  table := db.table.relabel (commitVersion i) (commitVersion_key i) (commitVersion_clash i)
  queue := db.queue.map fun m => if m.txn = some i then { m with txn := none } else m
  archive := db.archive
  nextMsgId := db.nextMsgId

/-- Drop the writes of call `i`; the message id sequence does not go back. -/
def rollback (db : Db) (i : CallId) : Db where
  table := db.table.restrict fun v => v.txn ≠ some i
  queue := db.queue.filter fun m => m.txn ≠ some i
  archive := db.archive
  nextMsgId := db.nextMsgId

/-- The visibility timeout of a message runs out. -/
def expire (db : Db) (msgId : ℤ) : Db := db.setHidden msgId false

/-! ### Rows by writer -/

/-- The row with an id among those written by `tag`: committed for `none`. -/
def rowOf (db : Db) (tag : Option CallId) (id : Uuid) : Option Row :=
  (db.table.find id).bind fun v => if v.txn = tag then some v.row else none

/-- The committed row with an id. -/
def row (db : Db) (id : Uuid) : Option Row := db.rowOf none id

theorem rowOf_eq_some {db : Db} {tag : Option CallId} {id : Uuid} {r : Row} :
    db.rowOf tag id = some r ↔ ⟨r, tag⟩ ∈ db.table.rows ∧ r.id = id := by
  simp only [rowOf, Option.bind_eq_some_iff, Option.ite_none_right_eq_some, Option.some.injEq,
    Table.find_eq_some]
  constructor
  · rintro ⟨⟨_, _⟩, ⟨hmem, hkey⟩, rfl, rfl⟩
    exact ⟨hmem, hkey⟩
  · rintro ⟨hmem, hkey⟩
    exact ⟨_, ⟨hmem, hkey⟩, rfl, rfl⟩

theorem rowOf_of_mem {db : Db} {v : Version} (h : v ∈ db.table.rows) :
    db.rowOf v.txn v.row.id = some v.row := rowOf_eq_some.mpr ⟨h, rfl⟩

theorem rowOf_id {db : Db} {tag : Option CallId} {id : Uuid} {r : Row}
    (h : db.rowOf tag id = some r) : r.id = id := (rowOf_eq_some.mp h).2

theorem find_of_rowOf {db : Db} {tag : Option CallId} {id : Uuid} {r : Row}
    (h : db.rowOf tag id = some r) : db.table.find id = some ⟨r, tag⟩ :=
  Table.find_eq_some.mpr (rowOf_eq_some.mp h)

/-- An id has one version, so one writer. -/
theorem rowOf_unique {db : Db} {a b : Option CallId} {id : Uuid} {r r' : Row}
    (h : db.rowOf a id = some r) (h' : db.rowOf b id = some r') : a = b ∧ r = r' := by
  have heq := (find_of_rowOf h).symm.trans (find_of_rowOf h')
  cases heq
  exact ⟨rfl, rfl⟩

/-- Two rows of the table that clash are one row. -/
theorem eq_of_clash {db : Db} {a b : Option CallId} {id id' : Uuid} {r r' : Row}
    (h : db.rowOf a id = some r) (h' : db.rowOf b id' = some r') (hc : r.clash r' = true) :
    a = b ∧ r = r' := by
  have heq := Table.eq_of_clash (rowOf_eq_some.mp h).1 (rowOf_eq_some.mp h').1 hc
  cases heq
  exact ⟨rfl, rfl⟩

theorem rowOf_eq_none {db : Db} {id : Uuid} :
    (∀ tag, db.rowOf tag id = none) ↔ db.table.find id = none := by
  constructor
  · intro h
    by_contra hne
    obtain ⟨v, hv⟩ := Option.ne_none_iff_exists'.mp hne
    have := rowOf_eq_some.mpr (Table.find_eq_some.mp hv)
    rw [h] at this
    cases this
  · intro h tag
    rw [rowOf, h, Option.bind_none]

@[simp] theorem rowOf_initial (tag : Option CallId) (id : Uuid) :
    Db.initial.rowOf tag id = none := rfl

theorem rowOf_commit (db : Db) (i : CallId) (tag : Option CallId) (id : Uuid) :
    (db.commit i).rowOf tag id =
      if tag = none then (db.rowOf none id).or (db.rowOf (some i) id)
      else if tag = some i then none else db.rowOf tag id := by
  have hfind : (db.commit i).table.find id = (db.table.find id).map (commitVersion i) :=
    Table.find_relabel _ _ (commitVersion_key i) (commitVersion_clash i) _
  simp only [rowOf, hfind]
  cases db.table.find id with
  | none => simp
  | some v =>
    simp only [Option.map_some, Option.bind_some, commitVersion_row]
    -- only the versions of the transaction change their tag
    by_cases hi : v.txn = some i
    · have hc : (commitVersion i v).txn = none := by simp [commitVersion, hi]
      rw [hc, hi]
      cases tag with
      | none => simp
      | some j => by_cases hj : j = i <;> simp [hj, Ne.symm]
    · have hc : (commitVersion i v).txn = v.txn := by simp [commitVersion, hi]
      rw [hc]
      cases tag with
      | none => cases hv : v.txn <;> simp_all
      | some j =>
        by_cases hj : j = i
        · subst hj; simp [hi]
        · simp [hj]

/-- What a transaction wrote is committed with it; there was no row with its id. -/
theorem row_commit {db : Db} {i : CallId} {id : Uuid} {r : Row}
    (h : db.rowOf (some i) id = some r) : db.row id = none ∧ (db.commit i).row id = some r := by
  have hnone : db.row id = none := by
    by_contra hne
    obtain ⟨r', hr'⟩ := Option.ne_none_iff_exists'.mp hne
    cases (rowOf_unique hr' h).1
  refine ⟨hnone, ?_⟩
  rw [row, rowOf_commit, if_pos rfl, h]
  rw [row] at hnone
  rw [hnone, Option.none_or]

theorem rowOf_rollback (db : Db) (i : CallId) (tag : Option CallId) (id : Uuid) :
    (db.rollback i).rowOf tag id = if tag = some i then none else db.rowOf tag id := by
  have hfind : (db.rollback i).table.find id = (db.table.find id).filter fun v => v.txn ≠ some i :=
    Table.find_restrict ..
  simp only [rowOf, hfind]
  cases db.table.find id with
  | none => simp
  | some v =>
    rw [Option.filter_some]
    by_cases hi : v.txn = some i
    · by_cases ht : tag = some i
      · simp [hi, ht]
      · simp [hi, ht, Ne.symm ht]
    · by_cases ht : tag = some i
      · simp [hi, ht]
      · simp [hi, ht]

@[simp] theorem rowOf_expire (db : Db) (m : ℤ) (tag : Option CallId) (id : Uuid) :
    (db.expire m).rowOf tag id = db.rowOf tag id := rfl

@[simp] theorem rowOf_send (db : Db) (conn : Option CallId) (p : Json) (tag : Option CallId)
    (id : Uuid) : (db.send conn p).rowOf tag id = db.rowOf tag id := rfl

@[simp] theorem rowOf_archiveMessage (db : Db) (m : ℤ) (tag : Option CallId) (id : Uuid) :
    (db.archiveMessage m).rowOf tag id = db.rowOf tag id := rfl

@[simp] theorem rowOf_setHidden (db : Db) (m : ℤ) (b : Bool) (tag : Option CallId) (id : Uuid) :
    (db.setHidden m b).rowOf tag id = db.rowOf tag id := rfl

end Db

end Animus
