import Animus.Cli.Llm
import Animus.Cli.Work
import Animus.Db.Submission
import Animus.Lib.Slice
import Animus.System.WorkTable

/-!
# The `work list` command

A table of the newest items, those of one time in an order of the server's. The
skill column shows at most twenty bytes of a skill; the program panics where the
cut is inside a character. `formatTime` stands for
`created_at.format("%Y-%m-%d %H:%M")`.

## Main definitions

- `itemLine`: the line of an item, none where the program panics
- `cmdWorkList`: the command
- `ListsSafely`: it does not panic, and prints every item the store returns

## Main results

- `listsSafely_iff`: exactly when it does
- `list_prints_every_item`: the same in every state of a run, and what submissions decide it
-/

namespace Animus

open Effect Effect.Fallible Slice

/-! ### The command -/

/-- `{:<width}`: blanks up to a number of characters. -/
def padRight (width : ℕ) (s : String) : String :=
  s ++ String.ofList (List.replicate (width - s.length) ' ')

/-- The cells of a line. -/
def joinCells (cells : List String) : String := "  ".intercalate cells ++ "\n"

/-- The heading and the rule under it. -/
def listHeading : String :=
  joinCells [padRight 8 "ID", padRight 12 "FACULTY", padRight 20 "SKILL", padRight 10 "STATE",
    padRight 4 "PRI", "CREATED"] ++ String.ofList (List.replicate 90 '-') ++ "\n"

/-- The skill column. -/
def skillDisplay (skill : Option String) : Option String :=
  let skill := skill.getD "-"
  if 20 < skill.utf8ByteSize then sliceTo skill 20 else some skill

section Command

variable (formatTime : Sql.Timestamp → String)

/-- The line of an item, none where the program panics: `Display` cuts the id, and so does the
command. `Display` does not pad a state. -/
def itemLine (item : WorkItem) : Option String :=
  (sliceTo item.id.hyphenated 8).bind fun text =>
    (sliceTo text 8).bind fun shortId =>
      (skillDisplay item.skill).map fun skill =>
        joinCells [padRight 8 shortId, padRight 12 item.faculty, padRight 20 skill,
          item.state.toText, padRight 4 (toString item.priority.toInt), formatTime item.createdAt]

/-- The last line. -/
def countLine (n : ℕ) : String := s!"\n{n} item(s)\n"

/-- The loop over the items, with the number of all of them. -/
def printItems (n : ℕ) (terminal : Terminal) : List WorkItem → CliRun
  | [] => ⟨terminal.print (countLine n), .ok ()⟩
  | item :: items =>
    match itemLine formatTime item with
    | none => ⟨terminal, .error .panicked⟩
    | some line => printItems n (terminal.print line) items

/-- The `--state` option. -/
def stateFilter : Option String → Except String (Option State)
  | none => .ok none
  | some s =>
    match State.fromStr s with
    | some state => .ok (some state)
    | none => .error s!"invalid state: {s}"

/-- What the command prints of the answer of the store. -/
def printListing : Except Error (List WorkItem) → CliRun
  | .error e => ⟨{}, .error (.message e.toText)⟩
  | .ok [] => ⟨Terminal.print {} "No work items found.\n", .ok ()⟩
  | .ok items => printItems formatTime items.length (Terminal.print {} listHeading) items

/-- The `work list` command. -/
def cmdWorkList (state faculty : Option String) (limit : ℤ) : Prog Eff CliRun :=
  match stateFilter state with
  | .error text => .ret ⟨{}, .error (.message text)⟩
  | .ok state =>
    (listWorkItems state faculty limit).run.bind fun r => .ret (printListing formatTime r)

/-- What the command comes to, alone on a store. -/
def listWork (i : CallId) (env : ℕ → Env) (w : World) (state faculty : Option String) (limit : ℤ) :
    CliRun :=
  ((cmdWorkList formatTime state faculty limit).interp (handle i) env w).1

end Command

/-- What the store returns to the command. -/
def returnedItems (i : CallId) (env : ℕ → Env) (w : World) (state : Option State)
    (faculty : Option String) (limit : ℤ) : Except Error (List WorkItem) :=
  ((listWorkItems state faculty limit).run.interp (handle i) env w).1

/-- The rows of a store a listing is of: newest first, at most `limit`. The server ranks those of
one time. -/
def Db.newest (db : Db) (rank : Uuid → ℕ) (state : Option State) (faculty : Option String)
    (limit : ℤ) : List Row :=
  ((((db.table.rows.filter (visible none)).map Version.row).filter fun r =>
    state.all (· = r.state) && faculty.all (· = r.faculty)).mergeSort
      (newerFirst rank)).take limit.toNat

/-- A listing does not panic, and prints a line for each item the store returns. -/
structure ListsSafely (formatTime : Sql.Timestamp → String) (i : CallId) (env : ℕ → Env) (w : World)
    (state faculty : Option String) (limit : ℤ) : Prop where
  noPanic : (listWork formatTime i env w state faculty limit).result ≠ .error .panicked
  prints : ∀ filter items, stateFilter state = .ok filter →
    returnedItems i env w filter faculty limit = .ok items → items ≠ [] →
      ∃ lines, items.map (itemLine formatTime) = lines.map some ∧
        (listWork formatTime i env w state faculty limit).terminal.stdout =
          listHeading ++ String.join lines ++ countLine items.length

/-- A skill of at most twenty bytes, or one that has a character boundary after twenty. -/
def Displayable (skill : Option String) : Prop :=
  ∀ s, skill = some s → 20 < s.utf8ByteSize → (String.Pos.Raw.mk 20).IsValid s

/-! ### When it panics -/

theorem sliceTo_toText (id : WorkId) : sliceTo (WorkId.toText id) 8 = some (WorkId.toText id) := by
  refine sliceTo_eq_some.mpr ⟨⟨"", String.append_empty.symm⟩, ?_⟩
  rw [Uuid.utf8ByteSize_of_isPrefix (u := id)]
  · rw [WorkId.toText, String.length_ofList, List.length_take, id.length_hyphenated]
    rfl
  · rw [WorkId.toText, String.toList_ofList]
    exact List.take_prefix ..

/-- `Display` of an id cuts its text on a character boundary. -/
theorem sliceTo_hyphenated (id : WorkId) : sliceTo id.hyphenated 8 = some (WorkId.toText id) := by
  refine sliceTo_eq_some.mpr ⟨⟨String.ofList (id.hyphenated.toList.drop 8), ?_⟩, ?_⟩
  · rw [WorkId.toText, ← String.ofList_append, List.take_append_drop, String.ofList_toList]
  · exact (sliceTo_eq_some.mp (sliceTo_toText id)).2

theorem skillDisplay_isSome {skill : Option String} :
    (skillDisplay skill).isSome ↔ Displayable skill := by
  rw [skillDisplay, Displayable]
  cases skill with
  | none =>
    refine iff_of_true rfl fun s hs => ?_
    cases hs
  | some s =>
    rw [Option.getD_some]
    split
    · next hlong =>
      rw [sliceTo_isSome_iff]
      refine ⟨fun hvalid _ hs _ => Option.some.inj hs ▸ hvalid, fun h => h s rfl hlong⟩
    · next hshort =>
      refine iff_of_true rfl fun _ hs hlong => ?_
      exact absurd hlong (Option.some.inj hs ▸ hshort)

section Printing

variable {formatTime : Sql.Timestamp → String}

theorem itemLine_isSome {item : WorkItem} :
    (itemLine formatTime item).isSome ↔ Displayable item.skill := by
  rw [itemLine, sliceTo_hyphenated, Option.bind_some, sliceTo_toText, Option.bind_some,
    Option.isSome_map, skillDisplay_isSome]

theorem printItems_none {n : ℕ} {terminal : Terminal} {item : WorkItem} {items : List WorkItem}
    (hline : itemLine formatTime item = none) :
    printItems formatTime n terminal (item :: items) = ⟨terminal, .error .panicked⟩ := by
  unfold printItems
  rw [hline]

theorem printItems_some {n : ℕ} {terminal : Terminal} {item : WorkItem} {items : List WorkItem}
    {line : String} (hline : itemLine formatTime item = some line) :
    printItems formatTime n terminal (item :: items) =
      printItems formatTime n (terminal.print line) items := by
  conv_lhs => unfold printItems
  rw [hline]

variable (formatTime) in
/-- The loop prints the lines of all the items, or stops at the first without one. -/
theorem printItems_cases (n : ℕ) (terminal : Terminal) (items : List WorkItem) :
    (∃ lines, items.map (itemLine formatTime) = lines.map some ∧
      printItems formatTime n terminal items =
        ⟨terminal.print (String.join lines ++ countLine n), .ok ()⟩) ∨
    (∃ item ∈ items, itemLine formatTime item = none) ∧
      (printItems formatTime n terminal items).result = .error .panicked := by
  induction items generalizing terminal with
  | nil =>
    refine .inl ⟨[], rfl, ?_⟩
    rw [String.join_nil, String.empty_append]
    rfl
  | cons item items ih =>
    obtain hline | ⟨line, hline⟩ := Option.eq_none_or_eq_some (itemLine formatTime item)
    · refine .inr ⟨⟨item, List.mem_cons_self, hline⟩, ?_⟩
      rw [printItems_none hline]
    · rw [printItems_some hline]
      obtain ⟨lines, hlines, hrun⟩ | ⟨⟨bad, hbad, hnone⟩, hrun⟩ := ih (terminal.print line)
      · refine .inl ⟨line :: lines, by rw [List.map_cons, List.map_cons, hline, hlines], ?_⟩
        rw [hrun, String.join_cons, Terminal.print, Terminal.print, Terminal.print,
          String.append_assoc, String.append_assoc]
      · exact .inr ⟨⟨bad, List.mem_cons_of_mem _ hbad, hnone⟩, hrun⟩

end Printing

/-! ### What it lists -/

section Listing

variable {formatTime : Sql.Timestamp → String} {i : CallId} {env : ℕ → Env} {w : World}
  {state faculty : Option String} {filter : Option State} {limit : ℤ}

theorem listWork_invalid {text : String} (h : stateFilter state = .error text) :
    listWork formatTime i env w state faculty limit = ⟨{}, .error (.message text)⟩ := by
  rw [listWork, cmdWorkList, h]
  rfl

/-- With a valid filter the command prints what the store returns. -/
theorem listWork_valid (h : stateFilter state = .ok filter) :
    listWork formatTime i env w state faculty limit =
      printListing formatTime (returnedItems i env w filter faculty limit) := by
  rw [listWork, cmdWorkList, h]
  exact congrArg Prod.fst (Prog.interp_bind_ret (handle i) _ _ env w)

theorem printListing_ok {items : List WorkItem} (h : items ≠ []) :
    printListing formatTime (.ok items) =
      printItems formatTime items.length (Terminal.print {} listHeading) items := by
  cases items with
  | nil => exact absurd rfl h
  | cons item items => rfl

variable (i env w faculty limit) in
/-- The store returns the items of the newest rows, or an error. -/
theorem returnedItems_cases (filter : Option State) :
    ((∃ e, returnedItems i env w filter faculty limit = .error e) ∧
      ((env 0).fault = none → w.db.newest (env 0).chance.rank filter faculty limit = [])) ∨
    (env 0).fault = none ∧ ∃ items, returnedItems i env w filter faculty limit = .ok items ∧
      items.map WorkItem.skill =
        (w.db.newest (env 0).chance.rank filter faculty limit).map Row.skill := by
  cases hf : (env 0).fault with
  | some flt => exact .inl ⟨⟨_, interp_attempt_some hf rfl⟩, fun h => by cases h⟩
  | none =>
    by_cases hlimit : limit < 0
    · have hexec : w.db.exec none (env 0).chance (.selectItems filter faculty limit) =
          (.error .badValue, w.db) := if_pos hlimit
      have hbad : handle i (.pool (.selectItems filter faculty limit)) (env 0) w =
          (.error .badValue, w) := by
        rw [handle, hexec, Env.reply_none hf]
        rfl
      refine .inl ⟨⟨.database .badValue, ?_⟩, fun _ => ?_⟩
      · exact congrArg Prod.fst (interp_attempt_error (handle i) env w hbad)
      · rw [Db.newest, Int.toNat_of_nonpos hlimit.le, List.take_zero]
    · have hexec : w.db.exec none (env 0).chance (.selectItems filter faculty limit) =
          (.ok (w.db.newest (env 0).chance.rank filter faculty limit), w.db) := if_neg hlimit
      obtain ⟨items, hitems, hskills⟩ := mapM_tryIntoWorkItem (f := WorkItem.skill)
        (g := Row.skill) (fun h => by rw [Row.tryIntoWorkItem_eq] at h; cases h; rfl)
        (w.db.newest (env 0).chance.rank filter faculty limit)
      refine .inr ⟨rfl, items, ?_, hskills⟩
      refine (congrArg Prod.fst (interp_attempt_none hf rfl hexec)).trans ?_
      simp only [hitems]
      rfl

/-- Items with the skills of some rows have their lines where the skills can be shown. -/
theorem displayable_iff_itemLine {rows : List Row} {items : List WorkItem}
    (h : items.map WorkItem.skill = rows.map Row.skill) :
    (∀ r ∈ rows, Displayable r.skill) ↔ ∀ item ∈ items, (itemLine formatTime item).isSome := by
  have hskills : (∀ skill ∈ items.map WorkItem.skill, Displayable skill) ↔
      ∀ skill ∈ rows.map Row.skill, Displayable skill := by rw [h]
  rw [List.forall_mem_map, List.forall_mem_map] at hskills
  rw [← hskills]
  simp only [itemLine_isSome]

/-- What the command does with the items the store returns: each has its line, or it panics. -/
theorem listsSafely_iff_itemLine {items : List WorkItem} (hstate : stateFilter state = .ok filter)
    (hitems : returnedItems i env w filter faculty limit = .ok items) :
    ListsSafely formatTime i env w state faculty limit ↔
      ∀ item ∈ items, (itemLine formatTime item).isSome := by
  have hrun : listWork formatTime i env w state faculty limit =
      printListing formatTime (returnedItems i env w filter faculty limit) := listWork_valid hstate
  rw [hitems] at hrun
  by_cases hempty : items = []
  · subst hempty
    refine iff_of_true ⟨?_, fun filter' items' hok hitems' hne => ?_⟩ (List.forall_mem_nil _)
    · rw [hrun]
      exact nofun
    · cases hstate.symm.trans hok
      cases hitems.symm.trans hitems'
      exact absurd rfl hne
  rw [printListing_ok hempty] at hrun
  -- the loop gets past all of the items, or stops at one
  obtain ⟨lines, hlines, hloop⟩ | ⟨⟨bad, hbad, hnone⟩, hloop⟩ :=
    printItems_cases formatTime items.length (Terminal.print {} listHeading) items
  · rw [hloop] at hrun
    refine iff_of_true ⟨?_, fun filter' items' hok hitems' _ => ?_⟩ fun item hitem => ?_
    · rw [hrun]
      exact nofun
    · cases hstate.symm.trans hok
      cases hitems.symm.trans hitems'
      refine ⟨lines, hlines, ?_⟩
      rw [hrun, Terminal.print, Terminal.print, String.empty_append, String.append_assoc]
    · have hmem : itemLine formatTime item ∈ lines.map some := hlines ▸ List.mem_map_of_mem hitem
      obtain ⟨line, -, hline⟩ := List.mem_map.mp hmem
      rw [← hline]
      rfl
  · refine iff_of_false (fun h => h.noPanic ?_) fun h => ?_
    · rw [hrun, hloop]
    · have hsome := h bad hbad
      rw [hnone] at hsome
      cases hsome

variable (formatTime i env w state faculty limit) in
/-- A listing is safe exactly when every row it is of has a skill it can show. -/
theorem listsSafely_iff : ListsSafely formatTime i env w state faculty limit ↔
    ∀ filter, stateFilter state = .ok filter → (env 0).fault = none →
      ∀ r ∈ w.db.newest (env 0).chance.rank filter faculty limit, Displayable r.skill := by
  cases hstate : stateFilter state with
  | error text =>
    refine iff_of_true ⟨?_, fun filter items hok => ?_⟩ fun filter hok => ?_
    · rw [listWork_invalid hstate]
      exact nofun
    · cases hstate.symm.trans hok
    · cases hok
  | ok filter =>
    obtain ⟨⟨e, he⟩, hnone⟩ | ⟨hf, items, hitems, hskills⟩ :=
      returnedItems_cases i env w faculty limit filter
    · refine iff_of_true ⟨?_, fun filter' items hok hitems => ?_⟩ ?_
      · rw [listWork_valid hstate, he]
        exact nofun
      · cases hstate.symm.trans hok
        cases he.symm.trans hitems
      · rintro _ ⟨⟩ hf r hr
        rw [hnone hf] at hr
        cases hr
    · rw [listsSafely_iff_itemLine hstate hitems, ← displayable_iff_itemLine hskills]
      refine ⟨?_, fun h => h filter rfl hf⟩
      rintro h _ ⟨⟩ -
      exact h

theorem mem_newest {db : Db} {rank : Uuid → ℕ} {r : Row}
    (h : r ∈ db.newest rank filter faculty limit) :
    db.row r.id = some r := by
  have hsorted := List.mem_mergeSort.mp (List.mem_of_mem_take h)
  obtain ⟨v, hv, rfl⟩ := List.mem_map.mp (List.mem_filter.mp hsorted).1
  obtain ⟨hmem, hvisible⟩ := List.mem_filter.mp hv
  have htxn : v.txn = none := by simpa [Db.visible] using hvisible
  have hrow := Db.rowOf_of_mem hmem
  rwa [htxn] at hrow

end Listing

/-! ### Listing in a run -/

section Runs

variable {clients : Op → Bool} {s s' : Sys} {ls : List Label} {l : Label}

/-- The calls in progress and the skills of the rows are those a run submitted. -/
structure Sys.Submitted (ls : List Label) (s : Sys) : Prop where
  calls : ∀ i c, s.calls i = .live c → Label.start i c.op ∈ ls
  rows : ∀ id r, s.db.row id = some r → ∃ i new, Label.start i (.submit new) ∈ ls ∧
    r.skill = new.skill

theorem SubmitPhase.Commits.skill {new : NewWorkItem} {ph : SubmitPhase} {id : WorkId} {r : Row}
    (h : ph.Commits new id r) : r.skill = new.skill := by
  cases ph with
  | queued id' m =>
    obtain ⟨-, jsonb, now, t, rfl⟩ := h
    rfl
  | merging id' c =>
    obtain ⟨-, jsonb, now, rfl⟩ := h
    rfl
  | _ => exact absurd h not_false

/-- No update writes the skill. -/
theorem Change.apply_skill (c : Change) {jsonb : Json → Json} {now : Sql.Timestamp} {r r' : Row}
    (h : c.apply jsonb now r = some r') : r'.skill = r.skill := by
  cases c with
  | transition source target =>
    rw [apply, Option.ite_none_right_eq_some] at h
    cases h.2
    rfl
  | complete outcome =>
    cases h
    rfl
  | fail error durationMs =>
    cases h
    rfl

theorem Row.Evolves.skill {r r' : Row} (h : r.Evolves r') : r'.skill = r.skill := by
  obtain rfl | ⟨c, jsonb, now, -, -, happ⟩ := h
  · rfl
  · exact c.apply_skill happ

/-- A call of the next state was there, with the same operation, or is just started. -/
theorem live_of_step (h : s.step clients l = some s') {j : CallId} {c : Live}
    (hj : s'.calls j = .live c) :
    (∃ c', s.calls j = .live c' ∧ c'.op = c.op) ∨ l = .start j c.op := by
  have update : ∀ {i : CallId} {x : Slot}, s'.calls = Function.update s.calls i x →
      (j = i ∧ x = .live c) ∨ s.calls j = .live c := by
    intro i x hcalls
    rw [hcalls] at hj
    by_cases hji : j = i
    · subst hji
      rw [Function.update_self] at hj
      exact .inl ⟨rfl, hj⟩
    · rw [Function.update_of_ne hji] at hj
      exact .inr hj
  cases l with
  | start i op =>
    obtain ⟨-, -, rfl⟩ := step_start h
    obtain ⟨rfl, hc⟩ | hj := update rfl
    · cases hc
      exact .inr rfl
    · exact .inl ⟨c, hj, rfl⟩
  | exec i env =>
    obtain ⟨op, β, e, k, ph, hi, -, rfl⟩ := step_exec h
    obtain ⟨rfl, hc⟩ | hj := update rfl
    · cases hc
      exact .inl ⟨_, hi, rfl⟩
    · exact .inl ⟨c, hj, rfl⟩
  | finish i =>
    obtain ⟨op, a, ph, -, rfl⟩ := step_finish h
    obtain ⟨-, hc⟩ | hj := update rfl
    · cases hc
    · exact .inl ⟨c, hj, rfl⟩
  | crash i =>
    obtain ⟨c', -, rfl⟩ := step_crash h
    obtain ⟨-, hc⟩ | hj := update rfl
    · cases hc
    · exact .inl ⟨c, hj, rfl⟩
  | expire m =>
    obtain rfl := step_expire h
    exact .inl ⟨c, hj, rfl⟩

theorem Sys.Submitted.step (hs : s.Submitted ls) (hr : s.Reachable clients)
    (h : s.step clients l = some s') : s'.Submitted (ls ++ [l]) where
  calls i c hi := by
    obtain ⟨c', hi', hop⟩ | rfl := live_of_step h hi
    · exact List.mem_append_left _ (hop ▸ hs.calls i c' hi')
    · exact List.mem_append_right _ (List.mem_singleton_self _)
  rows id r' hr' := by
    obtain ⟨r, hrow, hev⟩ | ⟨i, env, new, p, ph, -, hi, hph, -⟩ := (hr.rowStep h).origin hr'
    · obtain ⟨i, new, hmem, hskill⟩ := hs.rows id r hrow
      exact ⟨i, new, List.mem_append_left _ hmem, hev.skill.trans hskill⟩
    · exact ⟨i, new, List.mem_append_left _ (hs.calls i _ hi), hph.skill⟩

theorem Sys.submitted (h : (system clients).Run Sys.initial ls s) : s.Submitted ls := by
  have base : Sys.initial.Submitted [] := by
    refine ⟨fun i c hi => ?_, fun id r hr => ?_⟩
    · cases hi
    · cases hr
  exact h.snoc_induction base fun xs l m m' hxs hI hm => hI.step ⟨xs, hxs⟩ hm

/-- In every state of a run, whatever its clients, a listing does not panic and prints every item
the store returns exactly when the rows it is of have skills it can show; so it always does where
such skills are all that was submitted. -/
theorem list_prints_every_item (formatTime : Sql.Timestamp → String)
    (h : (system clients).Run Sys.initial ls s) :
    (∀ i env state faculty limit, ListsSafely formatTime i env s.world state faculty limit ↔
      ∀ filter, stateFilter state = .ok filter → (env 0).fault = none →
        ∀ r ∈ s.db.newest (env 0).chance.rank filter faculty limit, Displayable r.skill) ∧
    ((∀ i new, Label.start i (.submit new) ∈ ls → Displayable new.skill) →
      ∀ i env state faculty limit, ListsSafely formatTime i env s.world state faculty limit) := by
  refine ⟨fun i env state faculty limit => listsSafely_iff .., fun hskills => ?_⟩
  intro i env state faculty limit
  refine (listsSafely_iff ..).mpr fun filter _ _ r hr => ?_
  obtain ⟨j, new, hmem, hskill⟩ := (Sys.submitted h).rows r.id r (mem_newest hr)
  rw [hskill]
  exact hskills j new hmem

end Runs

/-! ### Samples -/

/-- Clients of `submit_work`. -/
def submitters : Op → Bool
  | .submit _ => true
  | _ => false

/-- A submission with a skill that runs without interruption. -/
def submitSkill (skill : String) : List Label :=
  Label.alone 0 (.submit { NewWorkItem.new "social" "cli" with skill := some skill })
    { uuid := .ofNat 1 } 9

/-- A skill of two-byte letters can be shown: its cut falls between two of them. -/
theorem list_prints_every_item_greek :
    (system submitters).Run Sys.initial (submitSkill "ανασκόπηση κώδικα")
      ((system submitters).replayed Sys.initial (submitSkill "ανασκόπηση κώδικα")) ∧
    ∀ i env state faculty limit, ListsSafely toString i env
      ((system submitters).replayed Sys.initial (submitSkill "ανασκόπηση κώδικα")).world
      state faculty limit := by
  have hrun : (system submitters).Run Sys.initial (submitSkill "ανασκόπηση κώδικα") _ :=
    Lts.run_replayed rfl
  refine ⟨hrun, (list_prints_every_item toString hrun).2 fun i new hmem => ?_⟩
  have hnew : new.skill = some "ανασκόπηση κώδικα" := by
    simp [submitSkill, Label.alone] at hmem
    exact hmem.2 ▸ rfl
  rintro s hs -
  rw [hnew] at hs
  cases hs
  exact sliceTo_isSome_iff.mp (by decide)

/-- Nineteen one-byte letters, and one of two bytes. -/
def accentedSkill : String := "review-the-resume-aé"

/-- Whoever lists after the submission of such a skill gets no list. -/
theorem list_panics : ¬ ∀ (formatTime : Sql.Timestamp → String) (ls : List Label) (s : Sys),
    (system submitters).Run Sys.initial ls s → ∀ i env state faculty limit,
      ListsSafely formatTime i env s.world state faculty limit := by
  intro h
  have hsafe := h toString (submitSkill accentedSkill) _ (Lts.run_replayed rfl)
    1 quietEnv none none 20
  have hrows : ∃ r : Row, ((system submitters).replayed Sys.initial
      (submitSkill accentedSkill)).world.db.table.rows = [⟨r, none⟩] ∧
      r.skill = some accentedSkill := ⟨_, rfl, rfl⟩
  obtain ⟨r, hrows, hskill⟩ := hrows
  have hmem : r ∈ ((system submitters).replayed Sys.initial
      (submitSkill accentedSkill)).world.db.newest (fun _ => 0) none none 20 := by
    simp [Db.newest, hrows, Db.visible]
  have hvalid := (listsSafely_iff ..).mp hsafe none rfl rfl r hmem accentedSkill hskill (by decide)
  exact absurd (sliceTo_isSome_iff.mpr hvalid) (by decide)

end Animus
