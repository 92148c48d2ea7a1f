import Animus.Db.Atomicity

/-!
# What a submission stores

Three inserts and an update place the parts of a submission in the columns of its
row, and `get_work_item` decodes them again.

## Main definitions

- `SubmitResult.newId`: the row a submission made
- `NewWorkItem.StoredAs`: the item that is read for it

## Main results

- `submit_round_trips`: what was submitted is what is read back
-/

namespace Animus

open Effect Effect.Fallible

/-- The row a submission made. -/
def SubmitResult.newId : SubmitResult → WorkId
  | .created item => item.id
  | .merged newId _ => newId

/-- The item a submission is read back as, by what was returned. -/
structure NewWorkItem.StoredAs (new : NewWorkItem) (result : SubmitResult) (item : WorkItem) :
    Prop where
  id : item.id = result.newId
  faculty : item.faculty = new.faculty
  skill : item.skill = new.skill
  provenance : item.provenance = new.provenance
  params : item.params = new.params
  priority : item.priority = new.priority
  parentId : item.parentId = new.parentId
  maxAttempts : item.maxAttempts = new.maxAttempts
  attempts : item.attempts = 0
  outcome : item.outcome = none
  created : ∀ queued, result = .created queued →
    item.state = .queued ∧ item.mergedInto = none ∧ item.dedupKey = new.dedupKey
  merged : ∀ newId canonicalId, result = .merged newId canonicalId →
    item.state = .merged ∧ item.mergedInto = some canonicalId ∧ item.dedupKey = none

namespace Row

variable {r : Row} {item : WorkItem}

/-- A row is read column by column. -/
theorem tryIntoWorkItem_eq (r : Row) : r.tryIntoWorkItem = .ok
    { id := r.id
      faculty := r.faculty
      skill := r.skill
      dedupKey := r.dedupKey
      provenance := ⟨r.source, r.triggerInfo⟩
      params := r.params
      priority := Int32.ofInt r.priority
      state := r.state
      mergedInto := r.mergedInto
      parentId := r.parentId
      attempts := asU32 r.attempts
      maxAttempts := r.maxAttempts.map asU32
      createdAt := r.createdAt
      updatedAt := r.updatedAt
      resolvedAt := r.resolvedAt
      outcome := r.outcome } := by
  rw [tryIntoWorkItem, State.fromStr_toText]

end Row

section RoundTrip

variable {new : NewWorkItem} {jsonb : Json → Json} {id : Uuid} {now : Sql.Timestamp}
  {item : WorkItem}

theorem maxAttempts_round_trips (maxAttempts : Option UInt32) :
    (maxAttempts.map asI32).map asU32 = maxAttempts := by
  cases maxAttempts with
  | none => rfl
  | some n => rw [Option.map_some, Option.map_some, asU32_asI32]

/-- The queued row of a submission decodes to what was submitted. -/
theorem storedAs_queue {m : ℤ} {t : Sql.Timestamp} (hj : jsonb new.params = new.params)
    (h : ((new.row jsonb id now).queue m t).tryIntoWorkItem = .ok item) :
    new.StoredAs (.created item) item := by
  rw [Row.tryIntoWorkItem_eq] at h
  cases h
  refine
    { id := rfl, faculty := rfl, skill := rfl, provenance := rfl, params := hj
      priority := Int32.ofInt_toInt new.priority
      parentId := rfl
      maxAttempts := maxAttempts_round_trips new.maxAttempts
      attempts := rfl, outcome := rfl
      created := ?_, merged := ?_ }
  · intro queued _
    exact ⟨rfl, rfl, rfl⟩
  · rintro newId canonicalId ⟨⟩

/-- So does the row of a duplicate, but for its dedup key. -/
theorem storedAs_mergedRow {canonical : Uuid} (hj : jsonb new.params = new.params)
    (h : (new.mergedRow jsonb id canonical now).tryIntoWorkItem = .ok item) :
    new.StoredAs (.merged id canonical) item := by
  rw [Row.tryIntoWorkItem_eq] at h
  cases h
  refine
    { id := rfl, faculty := rfl, skill := rfl, provenance := rfl, params := hj
      priority := Int32.ofInt_toInt new.priority
      parentId := rfl
      maxAttempts := maxAttempts_round_trips new.maxAttempts
      attempts := rfl, outcome := rfl
      created := ?_, merged := ?_ }
  · rintro queued ⟨⟩
  · rintro newId canonicalId ⟨⟩
    exact ⟨rfl, rfl, rfl⟩

end RoundTrip

section Submit

variable {new : NewWorkItem} {i : CallId} {env : ℕ → Env} {w w' : World} {id : WorkId}
  {now : Sql.Timestamp} {jsonb : Json → Json} {result : SubmitResult}

/-- The world holds a row of the submission, which is read as the result says. -/
def Stored (new : NewWorkItem) (result : SubmitResult) (w : World) : Prop :=
  ∃ r item, w.db.row result.newId = some r ∧ r.tryIntoWorkItem = .ok item ∧
    new.StoredAs result item

theorem queueWork_stores (hr : w.db.rowOf (some i) id = some (new.row jsonb id now))
    (hj : jsonb new.params = new.params)
    (h : (queueWork new id).run.interp (handle i) env w = (.ok result, w')) :
    Stored new result w' := by
  let payload := workPayload id new.params
  obtain ⟨m, _, -, ⟨⟩, h⟩ := interp_attempt_answered
    (r := (.ok w.db.nextMsgId, w.db.send (some i) payload)) rfl h
  have hsent : (w.db.send (some i) payload).rowOf (some i) id = some (new.row jsonb id now) := hr
  obtain ⟨db', hok, hput⟩ := Db.exec_updateQueued (env 1).chance (m := w.db.nextMsgId) hsent rfl
  obtain ⟨_, _, -, hupdated, h⟩ := interp_attempt_answered rfl h
  cases hok.symm.trans hupdated
  obtain ⟨_, _, -, ⟨⟩, h⟩ := interp_attempt_answered (r := (.ok (), db')) rfl h
  obtain ⟨_, _, -, ⟨⟩, h⟩ := interp_attempt_answered (r := (.ok (), db'.commit i)) rfl h
  obtain ⟨item, hread, rfl⟩ := interp_map_ok (handle i) _ _ h
  obtain ⟨-, hrow⟩ := Db.row_commit hput.rowOf_self
  obtain ⟨r, hr, hitem, rfl⟩ := getWorkItem_ok hread
  cases hrow.symm.trans hr
  refine ⟨_, item, ?_, hitem, storedAs_queue hj hitem⟩
  rw [SubmitResult.newId, (Row.of_read hitem).1]
  exact hrow

theorem mergeWork_stores {key : String}
    (hj : ∀ n, (env n).chance.jsonb new.params = new.params)
    (h : (mergeWork new id key now).run.interp (handle i) env w = (.ok result, w')) :
    Stored new result w' := by
  obtain ⟨canonical, db', -, -, h⟩ := interp_attempt_answered rfl h
  obtain ⟨_, db'', -, hinsert, h⟩ := interp_attempt_answered rfl h
  obtain ⟨hput, -⟩ := Db.insertRow_accepted (Db.exec_insertMerged.symm.trans hinsert)
  obtain ⟨_, _, -, ⟨⟩, h⟩ := interp_attempt_answered (r := (.ok (), db''.commit i)) rfl h
  cases h
  obtain ⟨item, hitem, -⟩ :=
    (new.mergedRow (env 1).chance.jsonb id canonical now).tryIntoWorkItem_isOk
  exact ⟨_, item, (Db.row_commit hput.rowOf_self).2, hitem, storedAs_mergedRow (hj 1) hitem⟩

theorem submitWork_stores (hj : ∀ n, (env n).chance.jsonb new.params = new.params)
    (h : (submitWork new).run.interp (handle i) env w = (.ok result, w')) :
    Stored new result w' := by
  cases h0 : (env 0).fault with
  | some flt =>
    have hfault := congrArg Prod.fst h
    rw [submitWork, interp_attempt_some h0 rfl] at hfault
    cases hfault
  | none =>
    cases hk : new.dedupKey with
    -- without a key there is one insert, and nothing to merge with
    | none =>
      rw [submitWork_plain hk h0] at h
      obtain ⟨_, db', -, hinsert, h⟩ := interp_attempt_answered rfl h
      obtain ⟨hput, -⟩ := Db.insertRow_accepted ((Db.exec_insertPlain hk).symm.trans hinsert)
      exact queueWork_stores hput.rowOf_self (hj 3) h
    | some key =>
      rw [submitWork_dedup hk h0] at h
      obtain ⟨inserted, db', -, hinsert, h⟩ := interp_attempt_answered rfl h
      rw [Db.exec_insertOnConflict hk] at hinsert
      split at hinsert
      -- `on conflict do nothing` inserted no row: the submission is merged
      · cases hinsert
        exact mergeWork_stores (fun n => hj (n + 4)) h
      · obtain ⟨e, he⟩ | ⟨db'', hok, hput, -⟩ :=
          w.db.insertRow_cases (some i) (new.rowOf env)
        · rw [he] at hinsert
          cases hinsert
        · rw [hok] at hinsert
          cases hinsert
          exact queueWork_stores hput.rowOf_self (hj 3) h

/-- What a submission was given is what is read back for its row, whatever branch inserted it, where
the server gives its parameters back unchanged. -/
theorem submit_round_trips (new : NewWorkItem) (i j : CallId) (env env' : ℕ → Env) (w w' : World)
    (result : SubmitResult) (hj : ∀ n, (env n).chance.jsonb new.params = new.params)
    (h : (submitWork new).run.interp (handle i) env w = (.ok result, w'))
    (hf : (env' 0).fault = none) :
    ∃ item, (getWorkItem result.newId).run.interp (handle j) env' w' = (.ok item, w') ∧
      new.StoredAs result item := by
  obtain ⟨r, item, hr, hitem, hstored⟩ := submitWork_stores hj h
  obtain ⟨item', hitem', hread⟩ := getWorkItem_reads env' (i := j) hf hr
  cases hitem.symm.trans hitem'
  exact ⟨item, hread, hstored⟩

end Submit

/-! ### Samples -/

/-- An item with a dedup key and the extreme values of its numbers. -/
def extremeItem : NewWorkItem :=
  { NewWorkItem.new "social" "cli" with
    dedupKey := some "k", priority := -2147483648, maxAttempts := some 4294967295 }

/-- A submission of it that runs alone and gets the id `n`. -/
def submitExtreme (n : ℕ) (w : World) : Except Error SubmitResult × World :=
  (submitWork extremeItem).run.interp (handle 0) (fun _ => { uuid := .ofNat n }) w

/-- The store once it is submitted. -/
def extremeWorld : World := (submitExtreme 1 World.initial).2

theorem submitExtreme_created :
    ∃ item, submitExtreme 1 World.initial = (.ok (.created item), extremeWorld) := ⟨_, rfl⟩

theorem submitExtreme_merged : submitExtreme 2 extremeWorld =
    (.ok (.merged (.ofNat 2) (.ofNat 1)), (submitExtreme 2 extremeWorld).2) := rfl

/-- The item is created and read back, and so is its duplicate. -/
theorem submit_round_trips_twice :
    (∃ queued item, submitExtreme 1 World.initial = (.ok (.created queued), extremeWorld) ∧
      (getWorkItem queued.id).run.interp (handle 1) (fun _ => {}) extremeWorld =
        (.ok item, extremeWorld) ∧ extremeItem.StoredAs (.created queued) item) ∧
    ∃ item, ((getWorkItem (.ofNat 2)).run.interp (handle 1) (fun _ => {})
        (submitExtreme 2 extremeWorld).2).1 = .ok item ∧
      extremeItem.StoredAs (.merged (.ofNat 2) (.ofNat 1)) item := by
  obtain ⟨queued, hcreated⟩ := submitExtreme_created
  obtain ⟨item, hread, hstored⟩ :=
    submit_round_trips extremeItem 0 1 _ (fun _ => {}) _ _ _ (fun _ => rfl) hcreated rfl
  obtain ⟨item', hread', hstored'⟩ :=
    submit_round_trips extremeItem 0 1 _ (fun _ => {}) _ _ _ (fun _ => rfl) submitExtreme_merged rfl
  exact ⟨⟨queued, item, hcreated, hread, hstored⟩, item', congrArg Prod.fst hread', hstored'⟩

end Animus
