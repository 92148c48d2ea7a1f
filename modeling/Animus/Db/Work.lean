import Animus.Runtime

/-!
# Work item and queue operations

Submit with dedup, state tracking and the queue functions, statement by
statement.

## Main definitions

- `submitWork`: insert, deduplicate and queue a work item
- `casUpdate`: the shape `transitionState`, `completeWork` and `failWork` share
- `getWorkItem`, `listWorkItems`
- `readFromQueue`, `archiveMessage`: the queue `work`
-/

namespace Animus

open Effect Effect.Fallible

/-- Result of submitting work. -/
inductive SubmitResult
  /-- New work item was created and queued. -/
  | created (item : WorkItem)
  /-- Duplicate detected, merged into existing item. -/
  | merged (newId canonicalId : WorkId)

/-- Validate a state transition, returning an error if disallowed. -/
def validateTransition (source target : State) : Fallible Eff Error Unit :=
  if source.canTransitionTo target then pure ()
  else throw (.invalidTransition source.toText target.toText)

/-- Get a work item by ID. -/
def getWorkItem (id : WorkId) : Fallible Eff Error WorkItem := do
  let row ← attempt .database (.pool (.selectById id))
  match row with
  | none => throw (.notFound ("work item " ++ WorkId.toText id))
  | some r => ofResult r.tryIntoWorkItem

/-- List work items with optional filters. -/
def listWorkItems (state : Option State) (faculty : Option String) (limit : ℤ) :
    Fallible Eff Error (List WorkItem) := do
  let rows ← attempt .database (.pool (.selectItems state faculty limit))
  ofResult (rows.mapM Row.tryIntoWorkItem)

/-- The queue payload of a work item. -/
def workPayload (id : WorkId) (params : Json) : Json :=
  .obj [("work_item_id", .str id.hyphenated), ("params", params)]

/-- The tail of `submit_work` once the row is inserted: queue it, commit, read it back. -/
def queueWork (new : NewWorkItem) (id : WorkId) : Fallible Eff Error SubmitResult := do
  validateTransition .created .queued
  let msgId ← attempt .database (.tx (.pgmqSend (workPayload id new.params)))
  let _ ← attempt .database (.tx (.updateQueued msgId id))
  -- NOTIFY is transactional: it only fires on commit
  attempt .database (.tx (.pgNotify new.faculty))
  attempt .database .commit
  let item ← getWorkItem id
  return .created item

/-- The conflict branch of `submit_work`: find the canonical item and merge into it. -/
def mergeWork (new : NewWorkItem) (id : WorkId) (dedupKey : String) (now : Sql.Timestamp) :
    Fallible Eff Error SubmitResult := do
  let canonical ← attempt .database (.tx (.selectCanonical new.faculty dedupKey))
  validateTransition .created .merged
  attempt .database (.tx (.insertMerged new id canonical now))
  attempt .database .commit
  return .merged id canonical

/-- Submit new work. Checks structural dedup, sends to the queue. -/
def submitWork (new : NewWorkItem) : Fallible Eff Error SubmitResult := do
  attempt .database .begin
  let id ← perform .newV4
  let now ← perform .utcNow
  match new.dedupKey with
  | some dedupKey =>
    let inserted ← attempt .database (.tx (.insertOnConflict new id dedupKey now))
    match inserted with
    | none => mergeWork new id dedupKey now
    | some _ => queueWork new id
  | none =>
    attempt .database (.tx (.insertPlain new id now))
    queueWork new id

/-- Validate, issue one conditional update, and read the row back. -/
def casUpdate (c : Change) (id : WorkId) : Fallible Eff Error WorkItem := do
  validateTransition c.source c.target
  let now ← perform .utcNow
  let rowsAffected ← attempt .database (.pool (.change c id now))
  if rowsAffected = 0 then throw (.invalidTransition c.source.toText c.target.toText)
  else getWorkItem id

/-- Transition a work item's state with optimistic concurrency. -/
def transitionState (id : WorkId) (source target : State) : Fallible Eff Error WorkItem :=
  casUpdate (.transition source target) id

/-- Complete a work item: Running → Completed with outcome data. -/
def completeWork (id : WorkId) (outcome : Outcome) : Fallible Eff Error WorkItem :=
  casUpdate (.complete outcome) id

/-- Fail a work item: Running → Failed with error info. -/
def failWork (id : WorkId) (error : String) (durationMs : UInt64) : Fallible Eff Error WorkItem :=
  casUpdate (.fail error durationMs) id

/-- Read the next message from the queue, hiding it for `vt` seconds. -/
def readFromQueue (vt : ℤ) : Fallible Eff Error (Option PgmqMessage) :=
  attempt .database (.pool (.pgmqRead vt))

/-- Archive a message. -/
def archiveMessage (msgId : ℤ) : Fallible Eff Error Unit :=
  attempt .database (.pool (.pgmqArchive msgId))

end Animus
