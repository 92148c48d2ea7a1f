import Animus.Db.Exec

/-!
# What each statement does

One lemma for each kind of statement, in terms of rows by writer; nothing above
this module unfolds `Db.exec`.

## Main definitions

- `Db.Puts`: a write of one row
- `Db.HoldsActive`: a version of a faculty and dedup key that is not terminal

## Main results

- `Db.insertRow_cases`, `Db.insertRow_isOk`
- `Db.exec_change_cases`: a compare-and-swap update misses, overflows or moves its row
- `Db.exec_updateQueued`, `Db.exec_selectCanonical`, `Db.exec_selectById`
-/

namespace Animus

open Sql (Timestamp Value Update)
open Keyed (Table)

namespace Db

variable {db db' : Db} {conn tag : Option CallId} {id : Uuid} {r : Row} {ch : Chance}

/-- `db'` is `db` with `r` written by `tag`: its queue is the same, and so is every other row. -/
structure Puts (db db' : Db) (tag : Option CallId) (r : Row) : Prop where
  rowOf : ∀ t k, db'.rowOf t k = if t = tag ∧ k = r.id then some r else db.rowOf t k
  queue : db'.queue = db.queue
  archive : db'.archive = db.archive
  nextMsgId : db'.nextMsgId = db.nextMsgId

theorem Puts.rowOf_self (h : Puts db db' tag r) : db'.rowOf tag r.id = some r := by
  rw [h.rowOf, if_pos ⟨rfl, rfl⟩]

theorem Puts.rowOf_ne_tag (h : Puts db db' tag r) {t : Option CallId} (ht : t ≠ tag) (k : Uuid) :
    db'.rowOf t k = db.rowOf t k := by
  rw [h.rowOf, if_neg fun hc => ht hc.1]

/-! ### Inserts -/

/-- An insert changes nothing, or adds a row with a new key. -/
theorem insertRow_cases (db : Db) (conn : Option CallId) (r : Row) :
    (∃ e, db.insertRow conn r = (.error e, db)) ∨
    ∃ db', db.insertRow conn r = (.ok (), db') ∧ Puts db db' conn r ∧
      ∀ tag, db.rowOf tag r.id = none := by
  unfold insertRow
  cases hins : db.table.insert? ⟨r, conn⟩ with
  | none => exact .inl ⟨.uniqueViolation, rfl⟩
  | some t =>
    by_cases href : db.references conn r = true
    · have hnd := t.valid.nodup
      rw [Table.insert?_eq_some hins, List.map_cons, List.nodup_cons] at hnd
      have hfresh : ∀ tg, db.rowOf tg r.id = none := by
        intro tg
        by_contra hne
        obtain ⟨x, hx⟩ := Option.ne_none_iff_exists'.mp hne
        exact hnd.1 (List.mem_map.mpr ⟨_, (rowOf_eq_some.mp hx).1, rowOf_id hx⟩)
      refine .inr ⟨{ db with table := t }, by simp only [href, if_true],
        ⟨fun tg k => ?_, rfl, rfl, rfl⟩, hfresh⟩
      have hf : t.find k = if r.id = k then some ⟨r, conn⟩ else db.table.find k :=
        Table.find_insert? hins k
      change (t.find k).bind _ = _
      rw [hf]
      by_cases hk : r.id = k
      · rw [if_pos hk, Option.bind_some]
        by_cases ht : tg = conn
        · rw [if_pos ht.symm, if_pos ⟨ht, hk.symm⟩]
        · rw [if_neg (Ne.symm ht), if_neg fun hc => ht hc.1, ← hk, hfresh]
      · rw [if_neg hk, if_neg fun hc => hk hc.2.symm]
        rfl
    · refine .inl ⟨.foreignKeyViolation, ?_⟩
      simp only [if_neg href]

theorem insertRow_refused {d : DbError} (h : db.insertRow conn r = (.error d, db')) :
    db' = db := by
  obtain ⟨e, he⟩ | ⟨db'', hok, -⟩ := db.insertRow_cases conn r
  · cases he.symm.trans h
    rfl
  · cases hok.symm.trans h

theorem insertRow_accepted (h : db.insertRow conn r = (.ok (), db')) :
    Puts db db' conn r ∧ ∀ tag, db.rowOf tag r.id = none := by
  obtain ⟨e, he⟩ | ⟨db'', hok, hput, hfresh⟩ := db.insertRow_cases conn r
  · cases he.symm.trans h
  · cases hok.symm.trans h
    exact ⟨hput, hfresh⟩

variable (conn) in
/-- An insert is accepted when its key is new, no row clashes and its references exist. -/
theorem insertRow_isOk (hkey : ∀ tag, db.rowOf tag r.id = none) (hclash : db.conflicts r = false)
    (href : db.references conn r = true) : ∃ db', db.insertRow conn r = (.ok (), db') := by
  have hnone : db.table.find r.id = none := rowOf_eq_none.mp hkey
  obtain ⟨t, ht⟩ := Table.insert?_isSome (t := db.table) (r := ⟨r, conn⟩)
    (fun x hx => Table.find_eq_none.mp hnone x hx)
    (fun x hx => (Bool.not_eq_true _).mp (List.any_eq_false.mp hclash x hx))
  exact ⟨{ db with table := t }, by simp [insertRow, ht, href]⟩

/-- A row of an active faculty and dedup key, committed or not. -/
def HoldsActive (db : Db) (faculty key : String) (tag : Option CallId) (r : Row) : Prop :=
  db.rowOf tag r.id = some r ∧ r.faculty = faculty ∧ r.dedupKey = some key ∧
    r.state.isTerminal = false

theorem conflicts_row_iff {new : NewWorkItem} {key : String} {jsonb : Json → Json}
    {now : Timestamp} (hk : new.dedupKey = some key) :
    db.conflicts (new.row jsonb id now) = true ↔ ∃ tag r, db.HoldsActive new.faculty key tag r := by
  simp only [conflicts, List.any_eq_true, Row.clash_iff]
  constructor
  · rintro ⟨v, hv, -, hidx, hf, hd⟩
    refine ⟨v.txn, v.row, rowOf_of_mem hv, hf.symm, ?_, ?_⟩
    · rw [← hk]
      exact hd.symm
    · simpa using (Bool.and_eq_true_iff.mp hidx).2
  · rintro ⟨tag, r, hr, hf, hd, hs⟩
    refine ⟨⟨r, tag⟩, (rowOf_eq_some.mp hr).1, ?_, ?_, hf.symm, ?_⟩
    · simp [Row.indexed, NewWorkItem.row, hk, State.isTerminal]
    · simp [Row.indexed, hd, hs]
    · simp [NewWorkItem.row, hk, hd]

/-- A row that no dedup key covers clashes with none. -/
theorem conflicts_eq_false (h : r.indexed = false) : db.conflicts r = false := by
  simp [conflicts, Row.clash, h]

@[simp] theorem inserted_insertOnConflict {new : NewWorkItem} {key : String} {now : Timestamp}
    (hk : new.dedupKey = some key) :
    inserted ch (.insertOnConflict new id key now) = some (new.row ch.jsonb id now) :=
  insertOnConflict_row _ _ _ _ hk

@[simp] theorem inserted_insertPlain {new : NewWorkItem} {now : Timestamp}
    (hk : new.dedupKey = none) :
    inserted ch (.insertPlain new id now) = some (new.row ch.jsonb id now) :=
  insertPlain_row _ _ _ _ hk

@[simp] theorem inserted_insertMerged {new : NewWorkItem} {c : Uuid} {now : Timestamp} :
    inserted ch (.insertMerged new id c now) = some (new.mergedRow ch.jsonb id c now) :=
  insertMerged_row _ _ _ _ _

theorem exec_insertOnConflict {new : NewWorkItem} {key : String} {now : Timestamp}
    (hk : new.dedupKey = some key) :
    db.exec conn ch (.insertOnConflict new id key now) =
      if db.conflicts (new.row ch.jsonb id now) then (.ok none, db)
      else ((db.insertRow conn (new.row ch.jsonb id now)).1.map fun _ => some id,
        (db.insertRow conn (new.row ch.jsonb id now)).2) := by
  simp only [exec, inserted_insertOnConflict hk]
  rfl

theorem exec_insertPlain {new : NewWorkItem} {now : Timestamp} (hk : new.dedupKey = none) :
    db.exec conn ch (.insertPlain new id now) = db.insertRow conn (new.row ch.jsonb id now) := by
  simp only [exec, inserted_insertPlain hk, insert]

theorem exec_insertMerged {new : NewWorkItem} {c : Uuid} {now : Timestamp} :
    db.exec conn ch (.insertMerged new id c now) =
      db.insertRow conn (new.mergedRow ch.jsonb id c now) := by
  simp only [exec, inserted_insertMerged, insert]

/-! ### Updates -/

section Update

variable {upd : Update Column} {binds : List Value} {t : Timestamp} {q : Row → Bool}
  {f : Row → Option Row}

theorem touches_iff (hits : ∀ r, upd.hits workItems binds t r = true ↔ r.id = id ∧ q r = true)
    (v : Version) :
    touches conn upd binds t v = true ↔ v.txn = conn ∧ v.row.id = id ∧ q v.row = true := by
  rw [touches, Bool.and_eq_true, decide_eq_true_eq, hits]

/-- An update of the row with an id does nothing where there is none it applies to. -/
theorem updateRows_miss (hits : ∀ r, upd.hits workItems binds t r = true ↔ r.id = id ∧ q r = true)
    (h : ∀ r, db.rowOf conn id = some r → q r = false) :
    db.updateRows conn upd binds t = (.ok 0, db) := by
  have hnot : ∀ v ∈ db.table.rows, touches conn upd binds t v = false := by
    intro v hv
    by_contra hne
    obtain ⟨hconn, hid, hq⟩ := (touches_iff hits v).mp ((Bool.not_eq_false _).mp hne)
    have hrow := rowOf_of_mem hv
    rw [hconn, hid] at hrow
    rw [h _ hrow] at hq
    cases hq
  have hcount : db.table.rows.countP (touches conn upd binds t) = 0 :=
    List.countP_eq_zero.mpr fun v hv => by rw [hnot v hv]; exact Bool.false_ne_true
  rw [updateRows, Table.update?_of_forall_not hnot, hcount]

/-- Where the assignments fail on the row, the update reports a bad value. -/
theorem updateRows_fail (hits : ∀ r, upd.hits workItems binds t r = true ↔ r.id = id ∧ q r = true)
    (happ : ∀ r, upd.apply workItems binds t r = f r) (hr : db.rowOf conn id = some r)
    (hq : q r = true) (hf : f r = none) :
    db.updateRows conn upd binds t = (.error .badValue, db) := by
  have hhit : touches conn upd binds t ⟨r, conn⟩ = true :=
    (touches_iff hits _).mpr ⟨rfl, rowOf_id hr, hq⟩
  have hnone : rewrite upd binds t ⟨r, conn⟩ = none := by rw [rewrite, happ, hf]; rfl
  rw [updateRows, Table.update?_of_failed (rowOf_eq_some.mp hr).1 hhit hnone]

/-- Where they succeed without a new clash, exactly that row is rewritten. -/
theorem updateRows_hit {r' : Row}
    (hits : ∀ r, upd.hits workItems binds t r = true ↔ r.id = id ∧ q r = true)
    (happ : ∀ r, upd.apply workItems binds t r = f r) (hr : db.rowOf conn id = some r)
    (hq : q r = true) (hf : f r = some r') (hid : ∀ r r', f r = some r' → r'.id = r.id)
    (hclash : ∀ x, r'.clash x = true → r.clash x = true) :
    ∃ db', db.updateRows conn upd binds t = (.ok 1, db') ∧ Puts db db' conn r' := by
  have hrid := rowOf_id hr
  have hhit : touches conn upd binds t ⟨r, conn⟩ = true := (touches_iff hits _).mpr ⟨rfl, hrid, hq⟩
  -- the row found by its key is the only one the condition holds of
  have honly : ∀ v ∈ db.table.rows, touches conn upd binds t v = true → v = ⟨r, conn⟩ := by
    intro v hv hp
    obtain ⟨hconn, hvid, -⟩ := (touches_iff hits v).mp hp
    have hrow := rowOf_of_mem hv
    rw [hvid] at hrow
    obtain ⟨-, hrr⟩ := rowOf_unique hrow hr
    cases v
    cases hconn
    cases hrr
    rfl
  have hrewrite : rewrite upd binds t ⟨r, conn⟩ = some ⟨r', conn⟩ := by rw [rewrite, happ, hf]; rfl
  obtain ⟨table, htable⟩ := Table.update?_isOk (t := db.table) (p := touches conn upd binds t)
    (f := rewrite upd binds t) (by
      intro v hv hp
      rw [honly v hv hp]
      exact ⟨⟨r', conn⟩, hrewrite, hid r r' hf, fun x => hclash x.row⟩)
  have hcount : db.table.rows.countP (touches conn upd binds t) = 1 := by
    have hcongr : ∀ v ∈ db.table.rows, (touches conn upd binds t v = true ↔
        (decide (versions.key v = id) && (decide (v.txn = conn) && q v.row)) = true) := by
      intro v _
      rw [touches_iff hits, Bool.and_eq_true, Bool.and_eq_true, decide_eq_true_eq,
        decide_eq_true_eq, and_left_comm]
      rfl
    rw [List.countP_congr hcongr, Table.countP_key, find_of_rowOf hr]
    simp [hq]
  refine ⟨{ db with table := table }, by rw [updateRows, htable, hcount],
    ⟨fun tg k => ?_, rfl, rfl, rfl⟩⟩
  have hfind := Table.find_update? htable (by
    intro v v' hv'
    obtain ⟨x, hx, rfl⟩ := Option.map_eq_some_iff.mp hv'
    exact hid _ _ ((happ _).symm.trans hx)) k
  change (table.find k).bind _ = _
  rw [hfind, hid r r' hf, hrid]
  by_cases hk : k = id
  · rw [hk, find_of_rowOf hr, Option.map_some, Option.bind_some, Table.changed, if_pos hhit,
      hrewrite, Option.getD_some]
    by_cases ht : tg = conn
    · rw [if_pos ht.symm, if_pos ⟨ht, rfl⟩]
    · rw [if_neg (Ne.symm ht), if_neg fun hc => ht hc.1, rowOf, find_of_rowOf hr, Option.bind_some,
        if_neg (Ne.symm ht)]
  · rw [if_neg fun hc => hk hc.2, rowOf]
    cases hv : db.table.find k with
    | none => rfl
    | some v =>
      rw [Option.map_some, Table.changed, if_neg]
      intro hp
      rw [honly v (Table.find_eq_some.mp hv).1 hp] at hv
      exact hk ((Table.find_key hv).symm.trans hrid)

end Update

/-- Moving a row along the lifecycle graph makes it clash with no more rows. -/
theorem clash_of_apply {c : Change} {jsonb : Json → Json} {now : Timestamp} {r r' : Row}
    (h : c.apply jsonb now r = some r') (hs : r.state.isTerminal = false) (x : Row)
    (hx : r'.clash x = true) : r.clash x = true := by
  obtain ⟨hidx, hx', hf, hd⟩ := Row.clash_iff.mp hx
  obtain ⟨-, hfac, hkey, -⟩ := c.apply_identity h
  refine Row.clash_iff.mpr ⟨?_, hx', hfac ▸ hf, hkey ▸ hd⟩
  rw [Row.indexed, ← hkey, hs, Bool.not_false, Bool.and_true]
  exact (Bool.and_eq_true_iff.mp hidx).1

/-- A compare-and-swap update on the pool misses, fails on its row, or moves exactly that row. -/
theorem exec_change_cases (db : Db) (ch : Chance) {c : Change} (id : Uuid) (now : Timestamp)
    (hc : c.source.canTransitionTo c.target = true) :
    (db.exec none ch (.change c id now) = (.ok 0, db) ∧
      ∀ r, db.row id = some r → r.state ≠ c.source) ∨
    (∃ r, db.row id = some r ∧ r.state = c.source ∧ c.apply ch.jsonb now r = none ∧
      db.exec none ch (.change c id now) = (.error .badValue, db)) ∨
    ∃ r r' db', db.row id = some r ∧ r.state = c.source ∧ c.apply ch.jsonb now r = some r' ∧
      db.exec none ch (.change c id now) = (.ok 1, db') ∧ Puts db db' none r' := by
  have hits : ∀ r, c.sql.hits workItems (keptBinds ch.jsonb (c.binds id now)) ch.now r = true ↔
      r.id = id ∧ decide (r.state = c.source) = true := by
    intro r
    rw [c.hits_iff, decide_eq_true_eq]
  have happ := fun r => c.apply_eq ch.jsonb id now ch.now r
  -- the `where` clause picks the row of `id`, if it is in the source state
  by_cases hmiss : ∃ r, db.row id = some r ∧ r.state = c.source
  · obtain ⟨r, hr, hs⟩ := hmiss
    have hq : decide (r.state = c.source) = true := decide_eq_true hs
    cases hf : c.apply ch.jsonb now r with
    | none => exact .inr (.inl ⟨r, hr, hs, hf, updateRows_fail hits happ hr hq hf⟩)
    | some r' =>
      have hterm : r.state.isTerminal = false := by
        rw [hs]
        exact State.not_isTerminal_of_canTransitionTo hc
      obtain ⟨db', hok, hput⟩ := updateRows_hit hits happ hr hq hf
        (fun _ _ h => (c.apply_identity h).1) (clash_of_apply hf hterm)
      exact .inr (.inr ⟨r, r', db', hr, hs, hf, hok, hput⟩)
  · have hne : ∀ r, db.row id = some r → r.state ≠ c.source := fun r hr hs => hmiss ⟨r, hr, hs⟩
    exact .inl ⟨updateRows_miss hits fun r hr => decide_eq_false (hne r hr), hne⟩

/-- Recording the message of the row a transaction inserted always succeeds. -/
theorem exec_updateQueued (ch : Chance) {i : CallId} {m : ℤ} (hr : db.rowOf (some i) id = some r)
    (hs : r.state.isTerminal = false) :
    ∃ db', db.exec (some i) ch (.updateQueued m id) = (.ok 1, db') ∧
      Puts db db' (some i) (r.queue m ch.now) := by
  have hits : ∀ r, updateQueuedSql.hits workItems (updateQueuedBinds m id) ch.now r = true ↔
      r.id = id ∧ true = true := by
    intro r
    rw [updateQueued_hits, and_iff_left rfl]
  refine updateRows_hit (f := fun r => some (r.queue m ch.now)) hits
    (fun r => updateQueued_apply m id ch.now r) hr rfl rfl ?_ ?_
  · rintro r _ ⟨⟩
    rfl
  · intro x hx
    obtain ⟨hidx, hx', hf, hd⟩ := Row.clash_iff.mp hx
    refine Row.clash_iff.mpr ⟨?_, hx', hf, hd⟩
    rw [Row.indexed, hs, Bool.not_false, Bool.and_true]
    exact (Bool.and_eq_true_iff.mp hidx).1

/-! ### Reads -/

theorem exec_selectById (ch : Chance) (id : Uuid) :
    db.exec none ch (.selectById id) = (.ok (db.row id), db) := by
  rw [exec, row, rowOf]
  cases db.table.find id with
  | none => rfl
  | some v => by_cases hv : v.txn = none <;> simp [visible, hv]

/-- The canonical row, for a transaction that wrote none of its own. -/
theorem exec_selectCanonical_cases (ch : Chance) {i : CallId} (faculty key : String)
    (hown : ∀ k, db.rowOf (some i) k = none) :
    (db.exec (some i) ch (.selectCanonical faculty key) = (.error .rowNotFound, db) ∧
      ¬ ∃ r, db.HoldsActive faculty key none r) ∨
    ∃ r, db.exec (some i) ch (.selectCanonical faculty key) = (.ok r.id, db) ∧
      db.HoldsActive faculty key none r := by
  rw [exec]
  cases hfind : db.table.rows.find? _ with
  | none =>
    refine .inl ⟨rfl, ?_⟩
    rintro ⟨r, hr, hf, hd, hs⟩
    have := List.find?_eq_none.mp hfind _ (rowOf_eq_some.mp hr).1
    simp [visible, hf, hd, hs] at this
  | some v =>
    have hp := List.find?_some hfind
    have hrow := rowOf_of_mem (List.mem_of_find?_eq_some hfind)
    simp only [visible, Bool.and_eq_true, Bool.or_eq_true, decide_eq_true_eq,
      Bool.not_eq_true'] at hp
    -- a row of its own is visible to the transaction as well, and there is none
    obtain ⟨ht | ht, ⟨hf, hd⟩, hs⟩ := hp
    · exact .inr ⟨v.row, rfl, ht ▸ hrow, hf, hd, hs⟩
    · rw [ht, hown] at hrow
      cases hrow

end Db

end Animus
