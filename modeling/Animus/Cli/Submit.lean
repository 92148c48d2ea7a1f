import Animus.Cli.Work
import Animus.System.Briefs

/-!
# The `work submit` command

What the command was given is submitted, and its answer printed. Whatever is
done to the store afterwards, `work show` shows what was submitted, with its
parameters as the server gives them back.

## Main definitions

- `SubmitArgs.item`, `cmdWorkSubmit`: the command

## Main results

- `showWork_hyphenated`, `showWork_short_iff`: `work show` by the id, and by its short form
- `work_show_shows_submission`: what it shows of a submission that was answered
-/

namespace Animus

open Effect Effect.Fallible

/-- The arguments of the command. -/
structure SubmitArgs where
  faculty : String
  source : String
  skill : Option String := none
  dedupKey : Option String := none
  trigger : Option String := none
  params : Option String := none
  priority : Int32 := 0

/-- Why `work submit` failed. -/
inductive WorkSubmitError
  /-- The parameters are not JSON. -/
  | params (e : String)
  | store (e : Error)

/-- The parameters; none are an empty object. -/
def SubmitArgs.paramsValue (fromStr : String → Except String Json) (args : SubmitArgs) :
    Except String Json :=
  match args.params with
  | some json => fromStr json
  | none => .ok (.obj [])

/-- What the command submits. -/
def SubmitArgs.item (fromStr : String → Except String Json) (args : SubmitArgs) :
    Except String NewWorkItem := do
  let params ← args.paramsValue fromStr
  .ok { NewWorkItem.new args.faculty args.source with
    params := params
    priority := args.priority
    skill := args.skill
    dedupKey := args.dedupKey
    provenance := ⟨args.source, args.trigger⟩ }

/-- The line that is printed. -/
def SubmitResult.toText : SubmitResult → String
  | .created item => s!"Created: {WorkId.toText item.id} (state: {item.state.toText})"
  | .merged newId canonicalId =>
    s!"Merged: {WorkId.toText newId} → canonical {WorkId.toText canonicalId}"

/-- The command, up to the line it prints. -/
def cmdWorkSubmit (fromStr : String → Except String Json) (args : SubmitArgs) :
    Fallible Eff WorkSubmitError String :=
  match args.item fromStr with
  | .error e => throw (.params e)
  | .ok new => do
    let result ← mapError .store (submitWork new)
    pure result.toText

section Submit

variable {fromStr : String → Except String Json} {args : SubmitArgs} {new : NewWorkItem}

/-- With parameters that are JSON the command is the submission of its item. -/
theorem cmdWorkSubmit_run (h : args.item fromStr = .ok new) :
    (cmdWorkSubmit fromStr args).run = (Op.submit new).prog.bind fun a =>
      .ret ((a.mapError WorkSubmitError.store).map SubmitResult.toText) := by
  rw [cmdWorkSubmit, h]
  change ((mapError WorkSubmitError.store (submitWork new)).run.bind _) = _
  rw [mapError, ExceptT.run_mk, Prog.bind_assoc]
  refine congrArg _ (funext fun a => ?_)
  cases a <;> rfl

end Submit

/-! ### Showing by id -/

section Show

variable {i : CallId} {env : ℕ → Env} {w : World} {id : WorkId} {r : Row}

theorem toList_toText (id : WorkId) : (WorkId.toText id).toList = id.hyphenated.toList.take 8 := by
  rw [WorkId.toText, String.toList_ofList]

theorem length_toText (id : WorkId) : (WorkId.toText id).toList.length = 8 := by
  rw [toList_toText, List.length_take, id.length_hyphenated]
  rfl

/-- A short form matches the ids that have it. -/
theorem shortMatch_toText {id' : WorkId} :
    shortMatch (WorkId.toText id) id' = true ↔ WorkId.toText id' = WorkId.toText id := by
  rw [shortMatch, List.isPrefixOf_iff_prefix, ← String.toList_inj]
  constructor
  · intro h
    have hlen : (WorkId.toText id).toList.length = (WorkId.toText id').toList.length := by
      rw [length_toText, length_toText]
    exact (h.eq_of_length hlen).symm
  · intro h
    exact ⟨[], by rw [List.append_nil, h]⟩

theorem utf8ByteSize_hyphenated (id : WorkId) : id.hyphenated.utf8ByteSize = 36 := by
  have hsize : id.hyphenated.utf8ByteSize = id.hyphenated.length :=
    Uuid.utf8ByteSize_of_isPrefix (u := id) (List.prefix_refl _)
  have hlen := id.length_hyphenated
  rw [String.length_toList] at hlen
  rw [hsize, hlen]

/-- By its whole id an item is shown. -/
theorem showWork_hyphenated (hf : ∀ n, (env n).fault = none) (hr : w.db.row id = some r) :
    ∃ shown, r.tryIntoWorkItem = .ok shown ∧ shown.id = id ∧
      showWork i env w id.hyphenated = .ok shown := by
  obtain ⟨shown, hshown, hread⟩ := getWorkItem_reads env (i := i) (hf 0) hr
  refine ⟨shown, hshown, (Row.of_read hshown).1.trans (Db.rowOf_id hr), ?_⟩
  have hlong : ¬ id.hyphenated.utf8ByteSize < 36 := by rw [utf8ByteSize_hyphenated]; decide
  rw [showWork, cmdWorkShow, resolveId, if_neg hlong, Uuid.parseStr_hyphenated]
  change ((mapError WorkShowError.store (getWorkItem id)).run.interp (handle i) env w).1 = _
  rw [interp_mapError, hread]
  rfl

/-- By its short form it is shown if it is among the newest, and the only one there. -/
theorem showWork_short_iff (hf : ∀ n, (env n).fault = none) :
    (∃ shown, showWork i env w (WorkId.toText id) = .ok shown ∧ shown.id = id) ↔
      id ∈ w.db.listed (env 0).chance.rank ∧ ∀ id' ∈ w.db.listed (env 0).chance.rank,
        WorkId.toText id' = WorkId.toText id → id' = id := by
  have hshort : (WorkId.toText id).utf8ByteSize < 36 := by
    have hprefix : (WorkId.toText id).toList <+: id.hyphenated.toList := by
      rw [toList_toText]
      exact List.take_prefix ..
    rw [Uuid.utf8ByteSize_of_isPrefix hprefix, ← String.length_toList, length_toText]
    decide
  have hfound : ∀ {id'}, id' ∈ found w.db (env 0).chance.rank (WorkId.toText id) ↔
      id' ∈ w.db.listed (env 0).chance.rank ∧ WorkId.toText id' = WorkId.toText id :=
    fun {id'} => by rw [found, List.mem_filter, shortMatch_toText]
  have hself : id ∈ w.db.listed (env 0).chance.rank →
      id ∈ found w.db (env 0).chance.rank (WorkId.toText id) := fun h => hfound.mpr ⟨h, rfl⟩
  have herr : ∀ e : WorkShowError,
      ¬ ∃ shown : WorkItem, Except.error e = Except.ok shown ∧ shown.id = id := by
    rintro e ⟨shown, h, -⟩
    cases h
  obtain ⟨hnil, hrun⟩ | ⟨r, item, hone, -, -, hrun⟩ | ⟨a, b, ids, htwo, hrun⟩ :=
    showWork_listed i env w _ hf hshort <;> rw [hrun]
  · refine iff_of_false (herr _) fun h => ?_
    have hmem := hself h.1
    rw [hnil] at hmem
    cases hmem
  · constructor
    · rintro ⟨shown, hshown, hid⟩
      obtain rfl : item = shown := Except.ok.inj hshown
      have hmem : ∀ id', id' ∈ found w.db (env 0).chance.rank (WorkId.toText id) → id' = id := by
        intro id' hid'
        rw [hone, List.mem_singleton] at hid'
        exact hid'.trans hid
      have hlisted : id ∈ found w.db (env 0).chance.rank (WorkId.toText id) := by
        rw [hone, hid]
        exact List.mem_singleton_self id
      exact ⟨(hfound.mp hlisted).1, fun id' hid' hsame => hmem id' (hfound.mpr ⟨hid', hsame⟩)⟩
    · rintro ⟨hlisted, -⟩
      have hmem := hself hlisted
      rw [hone, List.mem_singleton] at hmem
      exact ⟨item, rfl, hmem.symm⟩
  · refine iff_of_false (herr _) fun h => ?_
    have hall : ∀ id' ∈ found w.db (env 0).chance.rank (WorkId.toText id), id' = id :=
      fun id' hid' => h.2 id' (hfound.mp hid').1 (hfound.mp hid').2
    rw [htwo] at hall
    refine (matches_of_found htwo).1 ((hall a ?_).trans (hall b ?_).symm) <;> simp

end Show

/-! ### Showing what was submitted -/

/-- What an answer to the command promises of the items that are found by their ids, where the
server gives back `jsonb v` for `v`. -/
def SubmitResult.Shown (jsonb : Json → Json) (fromStr : String → Except String Json)
    (args : SubmitArgs) (find : WorkId → Except WorkShowError WorkItem) : SubmitResult → Prop
  | .created item => ∃ new shown, args.item fromStr = .ok new ∧ find item.id = .ok shown ∧
      shown.id = item.id ∧ shown.brief = new.kept jsonb ∧
      (shown.brief = new ↔ jsonb new.params = new.params) ∧ shown.state ≠ .merged
  | .merged newId canonicalId =>
    (∃ shown, find newId = .ok shown ∧ shown.id = newId ∧ shown.faculty = args.faculty ∧
      shown.state = .merged ∧ shown.mergedInto = some canonicalId) ∧
    ∃ shown, find canonicalId = .ok shown ∧ shown.id = canonicalId ∧
      shown.faculty = args.faculty ∧ shown.dedupKey = args.dedupKey ∧ args.dedupKey ≠ none

section Shown

variable {clients : Op → Bool} {jsonb : Json → Json} {ls₁ ls₂ : List Label} {m s : Sys}
  {j i : CallId} {env : ℕ → Env} {fromStr : String → Except String Json} {args : SubmitArgs}
  {new : NewWorkItem} {result : SubmitResult} {ph : SubmitPhase}

theorem SubmitArgs.of_item (h : args.item fromStr = .ok new) :
    new.faculty = args.faculty ∧ new.dedupKey = args.dedupKey := by
  rw [item] at h
  cases hparams : args.paramsValue fromStr with
  | error e =>
    rw [hparams] at h
    cases h
  | ok params =>
    rw [hparams] at h
    cases h
    exact ⟨rfl, rfl⟩

/-- A job of the pool is shown by its id. -/
theorem showWork_of_pool (hf : ∀ n, (env n).fault = none) {id : WorkId} {job : Job}
    (hjob : s.pool id = some job) : ∃ r shown, s.db.row id = some r ∧
      r.tryIntoWorkItem = .ok shown ∧ showWork i env s.world id.hyphenated = .ok shown ∧
      shown.id = id ∧ shown.faculty = job.faculty ∧ shown.dedupKey = job.dedupKey ∧
      shown.state = job.state ∧ shown.mergedInto = job.mergedInto := by
  obtain ⟨r, hr, rfl⟩ := Sys.exists_row_of_pool hjob
  obtain ⟨shown, hread, hid, hshow⟩ := showWork_hyphenated (i := i) hf hr
  refine ⟨r, shown, hr, hread, hshow, hid, ?_⟩
  rw [Row.tryIntoWorkItem_eq] at hread
  cases hread
  exact ⟨rfl, rfl, rfl, rfl⟩

/-- Whatever is done to the store after a submission was answered, a `work show` that meets no fault
shows by its id what the command was given, with its parameters as the server gives them back, or
what it was merged into. By the short id that the command prints it does so exactly while the item
is among the newest hundred and no other of them has the same. -/
theorem work_show_shows_submission (hargs : args.item fromStr = .ok new)
    (hrun₁ : (system clients).Run Sys.initial ls₁ m)
    (hj : m.calls j = .live ⟨.submit new, .ret (.ok result), ph⟩)
    (hrun₂ : (system clients).Run m ls₂ s) (hserved : ServedBy jsonb (ls₁ ++ ls₂))
    (hf : ∀ n, (env n).fault = none) :
    ((cmdWorkSubmit fromStr args).run = (Op.submit new).prog.bind fun a =>
      .ret ((a.mapError WorkSubmitError.store).map SubmitResult.toText)) ∧
    result.Shown jsonb fromStr args (fun id => showWork i env s.world id.hyphenated) ∧
    ∀ id : WorkId, (∃ shown, showWork i env s.world (WorkId.toText id) = .ok shown ∧
        shown.id = id) ↔
      id ∈ s.db.listed (env 0).chance.rank ∧ ∀ id' ∈ s.db.listed (env 0).chance.rank,
        WorkId.toText id' = WorkId.toText id → id' = id := by
  refine ⟨cmdWorkSubmit_run hargs, ?_, fun id => showWork_short_iff hf⟩
  obtain ⟨hfaculty, hkey⟩ := SubmitArgs.of_item hargs
  have hrun : (system clients).Run Sys.initial (ls₁ ++ ls₂) s :=
    Lts.run_append.mpr ⟨m, hrun₁, hrun₂⟩
  have hpool := Sys.pool_run hrun
  have hops := Sys.answered hrun₁ hj
  have hdone : ∀ {o}, o ∈ opsOf j (Sys.linearized clients ls₁) →
      o ∈ (Sys.linearized clients (ls₁ ++ ls₂)).map Prod.snd := by
    intro o ho
    rw [Sys.linearized, hrun₁.emitted_append]
    exact List.mem_map_of_mem (List.mem_append_left _ (mem_of_opsOf ho))
  cases result with
  | created item =>
    have hacc : .accept item.id new.faculty new.dedupKey ∈
        opsOf j (Sys.linearized clients ls₁) := by
      rw [show opsOf j (Sys.linearized clients ls₁) = _ from hops]
      exact List.mem_singleton_self _
    obtain ⟨job, hjob, hbecame⟩ := Pool.became_accepted hpool (hdone hacc)
    obtain ⟨r, shown, hr, hread, hshow, hid, -, -, hstate, -⟩ :=
      showWork_of_pool (i := i) hf hjob
    have hmerged : shown.state ≠ .merged := by
      rw [hstate]
      intro h
      cases (hbecame.state State.noConfusion).2.mp h
    have hrstate : r.state ≠ .merged := (Row.of_read hread).2.2 ▸ hmerged
    obtain ⟨j₀, new₀, hstart, hkept, hacc₀⟩ := Sys.briefed hrun hserved hr hrstate
    obtain ⟨-, rfl⟩ := Sys.brief_of_answer hrun hstart hacc₀ rfl hrun₁ hj rfl
    have hbrief : shown.brief = new.kept jsonb := (Row.brief_of_read hread).1.trans hkept
    exact ⟨new, shown, hargs, hshow, hid, hbrief, hbrief ▸ NewWorkItem.kept_eq_iff, hmerged⟩
  | merged newId canonicalId =>
    obtain ⟨key, hnew, hops⟩ := hops
    have hmerge : .merge newId new.faculty key canonicalId ∈
        opsOf j (Sys.linearized clients ls₁) := by
      rw [hops]
      exact List.mem_singleton_self _
    obtain ⟨⟨job, hjob, hbecame⟩, canonical, hcanonical, hcfac, hckey⟩ :=
      Pool.became_merged hpool (hdone hmerge)
    obtain ⟨-, shown, -, -, hshow, hid, hfac, -, hstate, hmerged⟩ :=
      showWork_of_pool (i := i) hf hjob
    obtain ⟨-, shownC, -, -, hshowC, hidC, hfacC, hkeyC, -⟩ :=
      showWork_of_pool (i := i) hf hcanonical
    refine ⟨⟨shown, hshow, hid, ?_, ?_, ?_⟩, shownC, hshowC, hidC, ?_, ?_, ?_⟩
    · rw [hfac, hbecame.faculty]
      exact hfaculty
    · rw [hstate]
      exact (hbecame.state State.noConfusion).2.mpr rfl
    · rw [hmerged, hbecame.mergedInto]
      rfl
    · rw [hfacC, hcfac, hfaculty]
    · rw [hkeyC, hckey, ← hkey, hnew]
    · rw [← hkey, hnew]
      exact Option.some_ne_none _

end Shown

/-- The command line of the sample submission. -/
def sampleArgs : SubmitArgs :=
  { faculty := "social", source := "cli", dedupKey := some "k", params := some "null" }

def parseNull (json : String) : Except String Json :=
  if json = "null" then .ok .null else .error "expected value at line 1 column 1"

/-- A submission, and one of the same dedup key that is about to be answered. -/
def answeredRun : List Label :=
  Label.alone 0 (.submit sampleItem) { uuid := .ofNat 1 } 9 ++
    .start 1 (.submit sampleItem) :: List.replicate 7 (.exec 1 { uuid := .ofNat 2 })

theorem servedBy_answeredRun : ServedBy id (answeredRun ++ [.finish 1]) := by
  unfold answeredRun
  rw [servedBy_append, servedBy_append]
  exact ⟨⟨servedBy_alone 0 _ 9 rfl,
    .cons (fun _ _ => Label.noConfusion) (servedBy_replicate 7 rfl)⟩,
    .cons (fun _ _ => Label.noConfusion) (servedBy_nil id)⟩

theorem work_show_shows_submission_merged :
    (SubmitResult.merged (.ofNat 2) (.ofNat 1)).Shown id parseNull sampleArgs fun id =>
      showWork 2 quietEnv ((system anyone).replayed ((system anyone).replayed Sys.initial
        answeredRun) [.finish 1]).world id.hyphenated := by
  have hargs : sampleArgs.item parseNull = .ok sampleItem := rfl
  have hrun : (system anyone).Run Sys.initial answeredRun _ := Lts.run_replayed rfl
  exact (work_show_shows_submission (j := 1) hargs hrun rfl (Lts.run_replayed rfl)
    servedBy_answeredRun fun _ => rfl).2.1

end Animus
