import Animus.Db.Exec
import Animus.Lib.Effect

/-!
# Effects and the world that answers them

Everything an operation does outside its own memory: SQL statements, the clock,
random ids, the counter of active foci, the file system and hook processes.

## Main definitions

- `Eff`: one effect, with the type of its answer
- `World`: what effects read and write
- `Env`: the part of an answer the world does not decide
- `handle`: an effect performed on behalf of a call
-/

namespace Animus

open Sql (Timestamp)

/-- A control plane; its clones share the counter of active foci. -/
abbrev PlaneId := ℕ

/-- The effects of the operations. -/
inductive Eff : Type → Type 1
  /-- `pool.begin()`. -/
  | begin : Eff (Except DbError Unit)
  /-- `tx.commit()`. -/
  | commit : Eff (Except DbError Unit)
  /-- A statement inside the transaction of the call. -/
  | tx {γ : Type} (q : Stmt γ) : Eff (Except DbError γ)
  /-- A statement on the pool. -/
  | pool {γ : Type} (q : Stmt γ) : Eff (Except DbError γ)
  /-- `Uuid::new_v4()`. -/
  | newV4 : Eff Uuid
  /-- `Utc::now()`. -/
  | utcNow : Eff Timestamp
  | loadActive (plane : PlaneId) : Eff ℕ
  | addActive (plane : PlaneId) : Eff Unit
  | subActive (plane : PlaneId) : Eff Unit
  /-- The `state_transition` event of the work span. -/
  | recordStateTransition (id : WorkId) (source target : String) : Eff Unit
  /-- `Instant::now()` at the head of `Focus::run`. -/
  | focusStart (work : WorkId) : Eff Unit
  /-- `start.elapsed()` in milliseconds. -/
  | elapsedMs : Eff UInt64
  | createDirAll (dir : String) : Eff (Except String Unit)
  | removeDirAll (dir : String) : Eff (Except String Unit)
  /-- `serde_json::to_string_pretty`. -/
  | toStringPretty (item : WorkItem) : Eff (Except String String)
  | write (path contents : String) : Eff (Except String Unit)
  | currentDir : Eff (Except String String)
  /-- Run a command to its end: its exit code, `none` when a signal ended it. -/
  | status (command dir : String) (env : List (String × String)) : Eff (Except String (Option ℤ))
  | fileExists (path : String) : Eff Bool
  | readToString (path : String) : Eff (Except String String)
  /-- `serde_json::from_str`. -/
  | parseJson (content : String) : Eff (Except String Json)

/-- What effects read and write. `started` counts the focus runs of each work item. -/
structure World where
  db : Db
  active : PlaneId → ℕ
  dirs : List String
  started : WorkId → ℕ

def World.initial : World := ⟨Db.initial, fun _ => 0, [], fun _ => 0⟩

/-- A fault of the database connection: the call gets the error, and the
statement may have taken effect all the same. -/
structure Fault where
  error : DbError
  took : Bool

/-- The part of an answer the world does not decide. -/
structure Env where
  fault : Option Fault := none
  chance : Chance := {}
  uuid : Uuid := .ofNat 0
  clock : Timestamp := 0
  ms : UInt64 := 0
  /-- An error of a file operation. -/
  io : Option String := none
  text : String := ""
  exit : Option ℤ := some 0
  present : Bool := true
  json : Except String Json := .ok .null

/-- A database answer under a possible fault. -/
def Env.reply {γ : Type} (env : Env) (db : Db) (r : Except DbError γ × Db) :
    Except DbError γ × Db :=
  match env.fault with
  | none => r
  | some f => (.error f.error, if f.took then r.2 else db)

/-- The answer of a file operation. -/
def Env.file {γ : Type} (env : Env) (a : γ) : Except String γ :=
  match env.io with
  | none => .ok a
  | some e => .error e

/-- The reply of the database, stored in the world. -/
def World.withDb {γ : Type} (w : World) (r : Except DbError γ × Db) : Except DbError γ × World :=
  (r.1, { w with db := r.2 })

/-- Perform an effect on behalf of call `i`. -/
def handle (i : CallId) : {β : Type} → Eff β → Env → World → β × World
  | _, .begin, env, w => w.withDb (env.reply w.db (.ok (), w.db))
  | _, .commit, env, w => w.withDb (env.reply w.db (.ok (), w.db.commit i))
  | _, .tx q, env, w => w.withDb (env.reply w.db (w.db.exec (some i) env.chance q))
  | _, .pool q, env, w => w.withDb (env.reply w.db (w.db.exec none env.chance q))
  | _, .newV4, env, w => (env.uuid, w)
  | _, .utcNow, env, w => (env.clock, w)
  | _, .loadActive p, _, w => (w.active p, w)
  | _, .addActive p, _, w =>
    ((), { w with active := Function.update w.active p (w.active p + 1) })
  | _, .subActive p, _, w =>
    ((), { w with active := Function.update w.active p (w.active p - 1) })
  | _, .recordStateTransition _ _ _, _, w => ((), w)
  | _, .focusStart work, _, w =>
    ((), { w with started := Function.update w.started work (w.started work + 1) })
  | _, .elapsedMs, env, w => (env.ms, w)
  | _, .createDirAll dir, env, w =>
    match env.file () with
    | .ok () => (.ok (), { w with dirs := dir :: w.dirs })
    | .error e => (.error e, w)
  | _, .removeDirAll dir, env, w =>
    match env.file () with
    | .ok () => (.ok (), { w with dirs := w.dirs.filter (· ≠ dir) })
    | .error e => (.error e, w)
  | _, .toStringPretty _, env, w => (env.file env.text, w)
  | _, .write _ _, env, w => (env.file (), w)
  | _, .currentDir, env, w => (env.file env.text, w)
  | _, .status _ _ _, env, w => (env.file env.exit, w)
  | _, .fileExists _, env, w => (env.present, w)
  | _, .readToString _, env, w => (env.file env.text, w)
  | _, .parseJson _, env, w => (env.json, w)

/-- Must the effect wait for another transaction to end? -/
def blocked (i : CallId) (env : Env) (w : World) : {β : Type} → Eff β → Bool
  | _, .tx q => w.db.waits (some i) env.chance q
  | _, .pool q => w.db.waits none env.chance q
  | _, _ => false

end Animus
