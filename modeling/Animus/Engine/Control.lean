import Animus.Engine.Focus

/-!
# Control plane

Read a message, route its work item to a faculty, manage the focus lifecycle
and retire the item.

## Main definitions

- `ControlPlane`: the configuration `process_work` reads
- `extractId`: the work item a queue message names
- `processWork`: try to claim and execute one work item

## Main results

- `extractId_workPayload`: the payload of a submission names its row
-/

namespace Animus

open Effect Effect.Fallible

/-- A control plane. Clones share the id, so the counter of active foci. -/
structure ControlPlane where
  plane : PlaneId
  registry : String → Option FacultyMeta
  focusBaseDir : String := "/tmp/animus-foci"
  visibilityTimeout : ℤ := 60
  maxConcurrent : ℕ

/-- The work item id of a queue payload. -/
def extractId (message : Json) : Option WorkId :=
  (message.get "work_item_id").bind fun v => v.asStr.bind Uuid.parseStr

@[simp] theorem extractId_workPayload (id : WorkId) (params : Json) :
    extractId (workPayload id params) = some id := by
  simp [extractId, workPayload, Json.get, Uuid.parseStr_hyphenated]

/-- Retire a work item whose focus ended. -/
def retire (msg : PgmqMessage) (workId : WorkId) : FocusResult → Fallible Eff Error Unit
  | .completed outcomeData durationMs => do
    perform (.recordStateTransition workId "running" "completed")
    let _ ← completeWork workId
      { success := true, data := some outcomeData, error := none, durationMs := durationMs }
    archiveMessage msg.msgId
  | .failed phase error durationMs => do
    perform (.recordStateTransition workId "running" "failed")
    let _ ← failWork workId (phase ++ ": " ++ error) durationMs
    -- the message stays in the queue: its visibility timeout will make it reappear
    pure ()

/-- From the claim to the retirement of a routed work item. -/
def runWork (cp : ControlPlane) (msg : PgmqMessage) (workId : WorkId) (item : WorkItem)
    (faculty : FacultyMeta) : Fallible Eff Error Unit := do
  -- Claim → Running
  perform (.recordStateTransition workId "queued" "claimed")
  let _ ← transitionState workId .queued .claimed
  perform (.recordStateTransition workId "claimed" "running")
  let _ ← transitionState workId .claimed .running
  perform (.addActive cp.plane)
  let focus ← Focus.create cp.focusBaseDir item
  let result ← ExceptT.lift (focus.run faculty)
  perform (.subActive cp.plane)
  retire msg workId result
  -- a cleanup error is only logged
  let _ ← ExceptT.lift focus.cleanup.run
  pure ()

/-- Try to claim and execute one work item. -/
def processWork (cp : ControlPlane) : Fallible Eff Error Unit := do
  -- Check capacity
  let active ← perform (.loadActive cp.plane)
  if cp.maxConcurrent ≤ active then pure ()
  else
    let msg ← readFromQueue cp.visibilityTimeout
    match msg with
    | none => pure () -- queue empty
    | some msg =>
      match extractId msg.message with
      | none => throw (.other "bad pgmq payload: missing work_item_id")
      | some workId =>
        let item ← getWorkItem workId
        match cp.registry item.faculty with
        -- no faculty with this name: leave the message for its visibility timeout
        | none => pure ()
        | some faculty => runWork cp msg workId item faculty

end Animus
