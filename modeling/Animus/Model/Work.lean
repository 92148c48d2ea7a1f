import Animus.Lib.Sql

/-!
# Core work item types

A work item is something that needs doing. It has identity (faculty and dedup
key), provenance, priority and a lifecycle state.

## Main definitions

- `State`, `State.canTransitionTo`, `State.isTerminal`: the lifecycle graph
- `WorkItem`, `NewWorkItem`, `Outcome`: what is stored, submitted and recorded
- `Error`: what the operations of the crate report
-/

namespace Animus

open Sql (Timestamp)

/-- Lifecycle state of a work item. -/
inductive State
  /-- Submitted, pending dedup check. -/
  | created
  /-- Ready for execution, waiting for a worker. -/
  | queued
  /-- Worker assigned, execution starting. -/
  | claimed
  /-- Worker actively processing. -/
  | running
  /-- Done successfully. -/
  | completed
  /-- Execution failed, may be retried. -/
  | failed
  /-- Exhausted retries or poisoned. Terminal. -/
  | dead
  /-- Recognized as duplicate, linked to canonical item. Terminal. -/
  | merged
  deriving DecidableEq

namespace State

/-- Can transition from self to `to`? -/
def canTransitionTo : State → State → Bool
  | .created, .queued => true
  | .created, .merged => true
  | .queued, .claimed => true
  | .queued, .dead => true -- cancelled or circuit-broken
  | .claimed, .running => true
  | .claimed, .queued => true -- worker failed to start, re-queue
  | .running, .completed => true
  | .running, .failed => true
  | .failed, .queued => true -- retry
  | .failed, .dead => true -- exhausted retries
  | _, _ => false

/-- Is this a terminal state? -/
def isTerminal : State → Bool
  | .completed | .dead | .merged => true
  | _ => false

/-- The text a state is stored and shown as. -/
def toText : State → String
  | .created => "created"
  | .queued => "queued"
  | .claimed => "claimed"
  | .running => "running"
  | .completed => "completed"
  | .failed => "failed"
  | .dead => "dead"
  | .merged => "merged"

/-- The state a text names. -/
def fromStr (s : String) : Option State :=
  match s with
  | "created" => some .created
  | "queued" => some .queued
  | "claimed" => some .claimed
  | "running" => some .running
  | "completed" => some .completed
  | "failed" => some .failed
  | "dead" => some .dead
  | "merged" => some .merged
  | _ => none

@[simp] theorem fromStr_toText (s : State) : fromStr s.toText = some s := by
  cases s <;> decide

theorem toText_injective {a b : State} (h : a.toText = b.toText) : a = b := by
  have := congrArg fromStr h
  simpa using this

@[simp] theorem toText_inj {a b : State} : a.toText = b.toText ↔ a = b :=
  ⟨toText_injective, fun h => h ▸ rfl⟩

/-- A terminal state has no way out. -/
theorem not_isTerminal_of_canTransitionTo {a b : State} (h : a.canTransitionTo b = true) :
    a.isTerminal = false := by
  revert h
  cases a <;> cases b <;> decide

theorem ne_of_canTransitionTo {a b : State} (h : a.canTransitionTo b = true) : a ≠ b := by
  revert h
  cases a <;> cases b <;> decide

/-- Nothing but an insert makes a row `created`, and only a `created` row is merged. -/
theorem target_of_canTransitionTo {a b : State} (h : a.canTransitionTo b = true)
    (ha : a ≠ .created) : b ≠ .created ∧ b ≠ .merged := by
  revert h ha
  cases a <;> cases b <;> decide

end State

/-- Newtype for work item IDs. -/
abbrev WorkId := Uuid

/-- Short display: the first eight characters of the UUID. -/
def WorkId.toText (id : WorkId) : String := String.ofList (id.hyphenated.toList.take 8)

/-- Where a work item came from. -/
structure Provenance where
  source : String
  trigger : Option String

/-- Result of work execution, stored with the work item on completion. -/
structure Outcome where
  success : Bool
  data : Option Json
  error : Option String
  durationMs : UInt64

/-- A unit of work tracked by the engine. -/
structure WorkItem where
  id : WorkId
  faculty : String
  skill : Option String
  dedupKey : Option String
  provenance : Provenance
  params : Json
  priority : Int32
  state : State
  mergedInto : Option WorkId
  parentId : Option WorkId
  attempts : UInt32
  maxAttempts : Option UInt32
  createdAt : Timestamp
  updatedAt : Timestamp
  resolvedAt : Option Timestamp
  outcome : Option Outcome

/-- A work item as it is submitted. -/
structure NewWorkItem where
  faculty : String
  skill : Option String := none
  dedupKey : Option String := none
  provenance : Provenance
  params : Json := .null
  priority : Int32 := 0
  parentId : Option WorkId := none
  maxAttempts : Option UInt32 := none

/-- `NewWorkItem::new`, before the optional parts are set. -/
def NewWorkItem.new (faculty source : String) : NewWorkItem where
  faculty := faculty
  provenance := ⟨source, none⟩

/-- Errors the database driver reports. -/
inductive DbError
  /-- `fetch_one` found no row. -/
  | rowNotFound
  /-- A unique index or the primary key refused the row. -/
  | uniqueViolation
  /-- A referenced row does not exist. -/
  | foreignKeyViolation
  /-- A value does not fit its column. -/
  | badValue
  /-- Connection loss, timeout, shutdown: nothing the statement itself did wrong. -/
  | infrastructure (reason : String)
  deriving DecidableEq

def DbError.toText : DbError → String
  | .rowNotFound => "no rows returned by a query that expected to return at least one row"
  | .uniqueViolation => "error returned from database: unique violation"
  | .foreignKeyViolation => "error returned from database: foreign key violation"
  | .badValue => "error returned from database: value out of range"
  | .infrastructure reason => reason

/-- Errors of the crate. -/
inductive Error
  | notFound (what : String)
  | invalidTransition (source target : String)
  | database (e : DbError)
  | invalidState (s : String)
  | config (s : String)
  | io (s : String)
  | other (s : String)
  deriving DecidableEq

def Error.toText : Error → String
  | .notFound what => "not found: " ++ what
  | .invalidTransition source target =>
    "invalid state transition: " ++ source ++ " -> " ++ target
  | .database e => "database error: " ++ e.toText
  | .invalidState s => "invalid state: " ++ s
  | .config s => "configuration error: " ++ s
  | .io s => "IO error: " ++ s
  | .other s => s

end Animus
