import Animus.Db.Work

/-!
# Focus lifecycle

Create the working directory, run the hook pipeline, read the outcome.

## Main definitions

- `FacultyMeta`: the hooks of a faculty
- `Focus.create`, `Focus.run`, `Focus.runHook`, `Focus.cleanup`
-/

namespace Animus

open Effect Effect.Fallible

/-- A faculty's metadata and hook configuration: what a focus uses of it. -/
structure FacultyMeta where
  name : String
  /-- The command of the orient hook, if there is one. -/
  orient : Option String := none
  engage : String
  consolidate : Option String := none

/-- Result of running a focus pipeline. -/
inductive FocusResult
  | completed (outcomeData : Json) (durationMs : UInt64)
  | failed (phase error : String) (durationMs : UInt64)

/-- A focus is a temporary working context for executing a work item. -/
structure Focus where
  id : Uuid
  dir : String
  workItem : WorkItem

/-- `base.join(part)` for a relative part. -/
def joinPath (base part : String) : String := base ++ "/" ++ part

/-- `path.is_relative()`. -/
def isRelative (path : String) : Bool := path.toList.head? ≠ some '/'

namespace Focus

/-- Create a new focus: make the directory, write work.json. -/
def create (baseDir : String) (workItem : WorkItem) : Fallible Eff Error Focus := do
  let id ← perform .newV4
  let dir := joinPath baseDir id.hyphenated
  attempt .io (.createDirAll dir)
  let workJson ← attempt (fun e => .other ("serialize work item: " ++ e)) (.toStringPretty workItem)
  attempt .io (.write (joinPath dir "work.json") workJson)
  return ⟨id, dir, workItem⟩

/-- A relative command is resolved against the directory of the process, not of the focus. -/
def resolveCommand (command : String) : Fallible Eff Error String :=
  if isRelative command then do
    let cwd ← attempt .io .currentDir
    pure (joinPath cwd command)
  else pure command

/-- Run a single hook command. -/
def runHook (focus : Focus) (phase command : String) : Fallible Eff Error Unit := do
  let absCommand ← resolveCommand command
  let code ← attempt .io (.status absCommand focus.dir
    [("ANIMUS_FOCUS_DIR", focus.dir), ("ANIMUS_FACULTY", focus.workItem.faculty),
      ("ANIMUS_WORK_ID", focus.workItem.id.hyphenated), ("ANIMUS_PHASE", phase)])
  if code = some 0 then pure ()
  else throw (.other (phase ++ " hook exited with status " ++ toString (code.getD (-1))))

/-- Run the phases in order until one fails. -/
def runPhases (focus : Focus) : List (String × String) → Prog Eff (Option FocusResult)
  | [] => pure none
  | (phase, command) :: phases => do
    match ← (focus.runHook phase command).run with
    | .ok () => focus.runPhases phases
    | .error e =>
      let ms ← Prog.perform .elapsedMs
      return some (.failed phase e.toText ms)

/-- The phases of a faculty; orient and consolidate are optional. -/
def phases (faculty : FacultyMeta) : List (String × String) :=
  (faculty.orient.map ("orient", ·)).toList ++ [("engage", faculty.engage)] ++
    (faculty.consolidate.map ("consolidate", ·)).toList

/-- Read the outcome: prefer consolidate-out.json, fall back to engage-out.json. -/
def readOutcome (focus : Focus) : Prog Eff FocusResult := do
  let consolidateOut := joinPath focus.dir "consolidate-out.json"
  let hasConsolidate ← Prog.perform (.fileExists consolidateOut)
  let outcomePath := if hasConsolidate then consolidateOut else joinPath focus.dir "engage-out.json"
  match ← Prog.perform (.readToString outcomePath) with
  | .ok content =>
    match ← Prog.perform (.parseJson content) with
    | .ok data =>
      let ms ← Prog.perform .elapsedMs
      return .completed data ms
    | .error e =>
      let ms ← Prog.perform .elapsedMs
      return .failed "consolidate" ("bad consolidate-out.json: " ++ e) ms
  | .error e =>
    let ms ← Prog.perform .elapsedMs
    return .failed "consolidate" ("missing consolidate-out.json: " ++ e) ms

/-- Run the orient → engage → consolidate pipeline. -/
def run (focus : Focus) (faculty : FacultyMeta) : Prog Eff FocusResult := do
  Prog.perform (.focusStart focus.workItem.id)
  match ← focus.runPhases (phases faculty) with
  | some failure => return failure
  | none => focus.readOutcome

/-- Remove the focus directory. -/
def cleanup (focus : Focus) : Fallible Eff Error Unit :=
  attempt .io (.removeDirAll focus.dir)

end Focus

end Animus
