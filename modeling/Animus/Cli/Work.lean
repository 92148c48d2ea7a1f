import Animus.Db.Atomicity

/-!
# The `work show` command

An argument of fewer than 36 bytes is taken as a prefix and looked for among the
short ids of the newest hundred items; anything else is parsed as a UUID. Which
of the items of one time are newer is up to the server.

## Main definitions

- `cmdWorkShow`: the command, up to the item it prints
- `Db.listed`: the ids it looks at
- `Resolves`: what it is meant to do with a prefix

## Main results

- `showWork_listed`: what it does with a prefix, by the matches it finds
- `show_resolves_iff`: when that is what it is meant to do
-/

namespace Animus

open Effect Effect.Fallible

/-- Why `work show` failed. -/
inductive WorkShowError
  | noMatch (idStr : String)
  | ambiguous (n : ℕ) (idStr : String)
  /-- The argument is not a UUID. -/
  | uuid (idStr : String)
  | store (e : Error)
  deriving DecidableEq

/-- The text of an error; `uuidError` is that of the UUID parser. -/
def WorkShowError.toText (uuidError : String → String) : WorkShowError → String
  | .noMatch idStr => s!"no work item matching prefix '{idStr}'"
  | .ambiguous n idStr => s!"{n} work items match prefix '{idStr}' — be more specific"
  | .uuid idStr => uuidError idStr
  | .store e => e.toText

/-- Does the short id of an item start with the argument? -/
def shortMatch (idStr : String) (id : WorkId) : Bool :=
  idStr.toList.isPrefixOf (WorkId.toText id).toList

/-- The one item found, or what is wrong with their number. -/
def onlyMatch (idStr : String) : List WorkItem → Except WorkShowError WorkId
  | [] => .error (.noMatch idStr)
  | [item] => .ok item.id
  | found => .error (.ambiguous found.length idStr)

/-- Find the work item whose id starts with the given string; a long one is the id itself. -/
def resolveId (idStr : String) : Fallible Eff WorkShowError WorkId :=
  if idStr.utf8ByteSize < 36 then do
    let items ← mapError .store (listWorkItems none none 100)
    ofResult (onlyMatch idStr (items.filter fun item => shortMatch idStr item.id))
  else match Uuid.parseStr idStr with
    | some uuid => pure uuid
    | none => throw (.uuid idStr)

/-- The item that the command prints. -/
def cmdWorkShow (idStr : String) : Fallible Eff WorkShowError WorkItem := do
  let id ← resolveId idStr
  mapError .store (getWorkItem id)

/-- What the command comes to, alone on a store. -/
def showWork (i : CallId) (env : ℕ → Env) (w : World) (p : String) :
    Except WorkShowError WorkItem :=
  ((cmdWorkShow p).run.interp (handle i) env w).1

namespace Db

/-- The ids of the newest hundred items; the server ranks those of one time. -/
def listed (db : Db) (rank : Uuid → ℕ) : List Uuid :=
  ((((db.table.rows.filter (visible none)).map Version.row).mergeSort
    (newerFirst rank)).take 100).map Row.id

/-- The UUID of an item of the store that starts with `p`. -/
def Matches (db : Db) (p : String) (id : Uuid) : Prop :=
  db.row id ≠ none ∧ p.toList <+: id.hyphenated.toList

end Db

/-- What `work show` is meant to do with a prefix: it shows the one item whose UUID starts with it,
and says so where there is none, or more than one. -/
structure Resolves (db : Db) (p : String) (result : Except WorkShowError WorkItem) : Prop where
  shows : ∀ item, result = .ok item ↔
    (∃ r, db.row item.id = some r ∧ r.tryIntoWorkItem = .ok item) ∧
      db.Matches p item.id ∧ ∀ id, db.Matches p id → id = item.id
  noMatch : result = .error (.noMatch p) ↔ ∀ id, ¬ db.Matches p id
  ambiguous : (∃ n, result = .error (.ambiguous n p)) ↔
    ∃ a b, a ≠ b ∧ db.Matches p a ∧ db.Matches p b

/-! ### What the command finds -/

section Listed

variable {i : CallId} {env : ℕ → Env} {w : World} {rank : Uuid → ℕ} {p : String}

theorem exec_selectItems (db : Db) (ch : Chance) :
    ∃ rows, db.exec none ch (.selectItems none none 100) = (.ok rows, db) ∧
      rows.map Row.id = db.listed ch.rank := by
  refine ⟨_, rfl, ?_⟩
  simp only [Db.listed, Option.all_none, Bool.and_self, List.filter_true]
  rfl

/-- Every row is read; what the items have of their rows they have in the order of the rows. -/
theorem mapM_tryIntoWorkItem {β : Type} {f : WorkItem → β} {g : Row → β}
    (hread : ∀ {r item}, r.tryIntoWorkItem = .ok item → f item = g r) (rows : List Row) :
    ∃ items, rows.mapM Row.tryIntoWorkItem = .ok items ∧ items.map f = rows.map g := by
  induction rows with
  | nil => exact ⟨[], rfl, rfl⟩
  | cons r rows ih =>
    obtain ⟨item, hitem, -⟩ := r.tryIntoWorkItem_isOk
    obtain ⟨items, hitems, hmap⟩ := ih
    refine ⟨item :: items, ?_, by rw [List.map_cons, List.map_cons, hread hitem, hmap]⟩
    rw [List.mapM_cons, hitem, hitems]
    rfl

/-- The listed ids whose short form starts with `p`. -/
def found (db : Db) (rank : Uuid → ℕ) (p : String) : List Uuid :=
  (db.listed rank).filter (shortMatch p)

/-- The command with a prefix: what it finds decides. -/
theorem cmdWorkShow_interp (hf : (env 0).fault = none) (hp : p.utf8ByteSize < 36) :
    ∃ items : List WorkItem, items.map WorkItem.id = found w.db (env 0).chance.rank p ∧
      (cmdWorkShow p).run.interp (handle i) env w = match onlyMatch p items with
        | .ok id => (mapError WorkShowError.store (getWorkItem id)).run.interp (handle i)
            (fun n => env (n + 1)) w
        | .error e => (.error e, w) := by
  obtain ⟨rows, hexec, hlisted⟩ := exec_selectItems w.db (env 0).chance
  obtain ⟨items, hitems, hids⟩ := mapM_tryIntoWorkItem (fun h => (Row.of_read h).1) rows
  have heff : handle i (.pool (.selectItems none none 100)) (env 0) w = (.ok rows, w) := by
    simp only [handle, hexec, Env.reply_none hf]
    rfl
  refine ⟨items.filter fun item => shortMatch p item.id, ?_, ?_⟩
  · rw [found, ← hlisted, ← hids, List.filter_map]
    rfl
  · rw [cmdWorkShow, resolveId, if_pos hp, listWorkItems, mapError_attempt_bind]
    simp only [run_bind, run_attempt, Prog.eff_bind, Prog.ret_bind, Prog.interp, heff]
    simp only [Except.mapError, mapError, run_ofResult, hitems, Prog.ret_bind, ExceptT.run_mk]
    cases onlyMatch p (items.filter fun item => shortMatch p item.id) <;> rfl

theorem mem_listed {db : Db} {id : Uuid} (h : id ∈ db.listed rank) :
    ∃ r, db.row id = some r := by
  obtain ⟨r, hr, rfl⟩ := List.mem_map.mp h
  have hsorted := List.mem_mergeSort.mp (List.mem_of_mem_take hr)
  obtain ⟨v, hv, rfl⟩ := List.mem_map.mp hsorted
  obtain ⟨hmem, hvisible⟩ := List.mem_filter.mp hv
  have htxn : v.txn = none := by simpa [Db.visible] using hvisible
  have hrow := Db.rowOf_of_mem hmem
  rw [htxn] at hrow
  exact ⟨v.row, hrow⟩

theorem nodup_listed (db : Db) (rank : Uuid → ℕ) : (db.listed rank).Nodup := by
  have hkeys : ((db.table.rows.filter (Db.visible none)).map fun v => v.row.id).Nodup :=
    (List.filter_sublist.map _).nodup db.table.valid.nodup
  rw [Db.listed, List.map_take]
  refine (List.take_sublist _ _).nodup ?_
  refine ((List.mergeSort_perm _ _).map Row.id).nodup_iff.mpr ?_
  rwa [List.map_map]

theorem shortMatch_iff {id : Uuid} :
    shortMatch p id = true ↔ p.toList <+: id.hyphenated.toList ∧ p.length ≤ 8 := by
  rw [shortMatch, WorkId.toText, String.toList_ofList, List.isPrefixOf_iff_prefix,
    List.prefix_take_iff, String.length_toList]

theorem mem_found {db : Db} {id : Uuid} :
    id ∈ found db rank p ↔ id ∈ db.listed rank ∧ db.Matches p id ∧ p.length ≤ 8 := by
  rw [found, List.mem_filter, shortMatch_iff]
  refine and_congr_right fun hlisted => ?_
  obtain ⟨r, hr⟩ := mem_listed hlisted
  rw [Db.Matches, hr, and_iff_right (Option.some_ne_none r)]

variable (i env w p) in
/-- What the command does with a prefix, by the ids it finds. -/
theorem showWork_listed (hf : ∀ n, (env n).fault = none) (hp : p.utf8ByteSize < 36) :
    (found w.db (env 0).chance.rank p = [] ∧ showWork i env w p = .error (.noMatch p)) ∨
    (∃ r item, found w.db (env 0).chance.rank p = [item.id] ∧ w.db.row item.id = some r ∧
      r.tryIntoWorkItem = .ok item ∧ showWork i env w p = .ok item) ∨
    ∃ a b ids, found w.db (env 0).chance.rank p = a :: b :: ids ∧
      showWork i env w p = .error (.ambiguous (ids.length + 2) p) := by
  obtain ⟨items, hids, hrun⟩ := cmdWorkShow_interp (i := i) (hf 0) hp
  rw [showWork, hrun]
  match items, hids with
  | [], hids => exact .inl ⟨hids.symm, rfl⟩
  | [item], hids =>
    have hmem : item.id ∈ found w.db (env 0).chance.rank p := hids ▸ List.mem_cons_self
    obtain ⟨r, hr⟩ := mem_listed (mem_found.mp hmem).1
    -- the row is read again by its id, after the listing
    obtain ⟨shown, hshown, hread⟩ := getWorkItem_reads (fun n => env (n + 1)) (i := i) (hf 1) hr
    have hid : shown.id = item.id := (Row.of_read hshown).1.trans (Db.rowOf_id hr)
    refine .inr (.inl ⟨r, shown, ?_, hid ▸ hr, hshown, ?_⟩)
    · rw [← hids, hid]
      rfl
    simp only [onlyMatch, interp_mapError, hread]
    rfl
  | a :: b :: more, hids =>
    refine .inr (.inr ⟨a.id, b.id, more.map WorkItem.id, hids.symm, ?_⟩)
    rw [List.length_map]
    rfl

/-! ### Which prefixes are resolved -/

/-- The command resolves a prefix of at most eight characters whose items are among the newest
hundred, as many as it takes to tell one from several; and one that no UUID starts with. -/
def Resolvable (db : Db) (rank : Uuid → ℕ) (p : String) : Prop :=
  p.utf8ByteSize < 36 ∧ ((∀ id, ¬ db.Matches p id) ∨ p.length ≤ 8 ∧
    ((∃ id ∈ db.listed rank, ∀ id', db.Matches p id' ↔ id' = id) ∨
      ∃ a ∈ db.listed rank, ∃ b ∈ db.listed rank, a ≠ b ∧ db.Matches p a ∧ db.Matches p b))

theorem nodup_found (db : Db) : (found db rank p).Nodup := (nodup_listed db rank).filter _

/-- Two ids are found only where the prefix is ambiguous. -/
theorem matches_of_found {db : Db} {a b : Uuid} {ids : List Uuid}
    (h : found db rank p = a :: b :: ids) :
    a ≠ b ∧ db.Matches p a ∧ db.Matches p b := by
  have hnodup : (found db rank p).Nodup := nodup_found db
  have ha : a ∈ found db rank p := h ▸ List.mem_cons_self
  have hb : b ∈ found db rank p := h ▸ List.mem_cons_of_mem _ List.mem_cons_self
  rw [h, List.nodup_cons] at hnodup
  refine ⟨?_, (mem_found.mp ha).2.1, (mem_found.mp hb).2.1⟩
  rintro rfl
  exact hnodup.1 List.mem_cons_self

/-- A prefix is resolved exactly when finding no id means that there is none, and finding one that
there is no other. -/
theorem resolvable_iff {db : Db} : Resolvable db rank p ↔ p.utf8ByteSize < 36 ∧
    (found db rank p = [] → ∀ id, ¬ db.Matches p id) ∧
      ∀ id, found db rank p = [id] → ∀ id', db.Matches p id' → id' = id := by
  refine and_congr_right fun _ => ⟨fun hcond => ⟨fun hnil => ?_, fun id hone => ?_⟩, ?_⟩
  · obtain hnone | ⟨hshort, ⟨id, hid, honly⟩ | ⟨a, ha, -, -, -, hmatch, -⟩⟩ := hcond
    · exact hnone
    · exact absurd (mem_found.mpr ⟨hid, (honly id).mpr rfl, hshort⟩) (hnil ▸ List.not_mem_nil)
    · exact absurd (mem_found.mpr ⟨ha, hmatch, hshort⟩) (hnil ▸ List.not_mem_nil)
  · have hmem : ∀ {id'}, id' ∈ found db rank p → id' = id := fun h =>
      List.mem_singleton.mp (hone ▸ h)
    have hfound : id ∈ found db rank p := hone ▸ List.mem_singleton_self id
    obtain hnone | ⟨hshort, ⟨id₀, -, honly⟩ | ⟨a, ha, b, hb, hne, hma, hmb⟩⟩ := hcond
    · exact absurd (mem_found.mp hfound).2.1 (hnone id)
    · intro id' hmatch
      exact ((honly id').mp hmatch).trans ((honly id).mp (mem_found.mp hfound).2.1).symm
    · exact absurd ((hmem (mem_found.mpr ⟨ha, hma, hshort⟩)).trans
        (hmem (mem_found.mpr ⟨hb, hmb, hshort⟩)).symm) hne
  -- what is found decides which disjunct holds
  · rintro ⟨hnil, hone⟩
    match hfound : found db rank p with
    | [] => exact .inl (hnil hfound)
    | [id] =>
      obtain ⟨hlisted, hmatch, hshort⟩ := mem_found.mp (hfound ▸ List.mem_singleton_self id)
      refine .inr ⟨hshort, .inl ⟨id, hlisted, fun id' => ⟨hone id hfound id', ?_⟩⟩⟩
      rintro rfl
      exact hmatch
    | a :: b :: ids =>
      obtain ⟨hne, -, -⟩ := matches_of_found hfound
      obtain ⟨ha, hma, hshort⟩ := mem_found.mp (hfound ▸ List.mem_cons_self)
      obtain ⟨hb, hmb, -⟩ := mem_found.mp
        (hfound ▸ List.mem_cons_of_mem a (List.mem_cons_self (l := ids)))
      exact .inr ⟨hshort, .inr ⟨a, ha, b, hb, hne, hma, hmb⟩⟩

variable (i env w) in
/-- A short argument of more bytes is reported as not a UUID. -/
theorem showWork_long (hlen : p.length < 36) (hp : ¬ p.utf8ByteSize < 36) :
    showWork i env w p = .error (.uuid p) := by
  rw [showWork, cmdWorkShow, resolveId, if_neg hp, Uuid.parseStr_eq_none hlen hp]
  rfl

theorem resolves_noMatch {db : Db} (h : ∀ id, ¬ db.Matches p id) :
    Resolves db p (.error (.noMatch p)) where
  shows _ := ⟨nofun, fun hshow => absurd hshow.2.1 (h _)⟩
  noMatch := ⟨fun _ => h, fun _ => rfl⟩
  ambiguous := by
    refine ⟨nofun, ?_⟩
    rintro ⟨a, -, -, hmatch, -⟩
    exact absurd hmatch (h a)

theorem resolves_ok {db : Db} {r : Row} {item : WorkItem} (hr : db.row item.id = some r)
    (hitem : r.tryIntoWorkItem = .ok item) (hmatch : db.Matches p item.id)
    (honly : ∀ id, db.Matches p id → id = item.id) : Resolves db p (.ok item) where
  shows other := by
    refine ⟨?_, ?_⟩
    · rintro ⟨⟩
      exact ⟨⟨r, hr, hitem⟩, hmatch, honly⟩
    · rintro ⟨⟨r', hr', hother⟩, hmatch', -⟩
      rw [honly other.id hmatch', hr] at hr'
      cases hr'
      exact congrArg Except.ok (Except.ok.inj (hitem.symm.trans hother))
  noMatch := ⟨nofun, fun hnone => absurd hmatch (hnone _)⟩
  ambiguous := by
    refine ⟨nofun, ?_⟩
    rintro ⟨a, b, hne, ha, hb⟩
    exact absurd ((honly a ha).trans (honly b hb).symm) hne

theorem resolves_ambiguous {db : Db} {a b : Uuid} {n : ℕ} (hne : a ≠ b) (ha : db.Matches p a)
    (hb : db.Matches p b) : Resolves db p (.error (.ambiguous n p)) where
  shows _ := ⟨nofun, fun hshow => absurd ((hshow.2.2 a ha).trans (hshow.2.2 b hb).symm) hne⟩
  noMatch := ⟨nofun, fun hnone => absurd ha (hnone a)⟩
  ambiguous := ⟨fun _ => ⟨a, b, hne, ha, hb⟩, fun _ => ⟨n, rfl⟩⟩

/-- On a store that reports no error, `work show` does with a prefix what it is meant to do exactly
when it resolves it. -/
theorem show_resolves_iff (i : CallId) (env : ℕ → Env) (w : World) (p : String)
    (hf : ∀ n, (env n).fault = none) (hlen : p.length < 36) :
    Resolves w.db p (showWork i env w p) ↔ Resolvable w.db (env 0).chance.rank p := by
  by_cases hp : p.utf8ByteSize < 36
  · rw [resolvable_iff, and_iff_right hp]
    obtain ⟨hnil, hrun⟩ | ⟨r, item, hone, hr, hitem, hrun⟩ | ⟨a, b, ids, htwo, hrun⟩ :=
      showWork_listed i env w p hf hp <;> rw [hrun]
    · refine ⟨fun h => ⟨fun _ => h.noMatch.mp rfl, ?_⟩, fun h => resolves_noMatch (h.1 hnil)⟩
      rw [hnil]
      exact nofun
    · have hmatch := (mem_found.mp (hone ▸ List.mem_singleton_self item.id)).2.1
      rw [hone]
      refine ⟨fun h => ⟨nofun, ?_⟩, fun h => resolves_ok hr hitem hmatch (h.2 item.id rfl)⟩
      rintro id ⟨⟩
      exact ((h.shows item).mp rfl).2.2
    · obtain ⟨hne, ha, hb⟩ := matches_of_found htwo
      rw [htwo]
      exact ⟨fun _ => ⟨nofun, nofun⟩, fun _ => resolves_ambiguous hne ha hb⟩
  -- fewer characters than a UUID, but not fewer bytes: no UUID text starts with that
  · have hrun := showWork_long i env w hlen hp
    refine ⟨fun h => ?_, fun h => absurd h.1 hp⟩
    have hnone : ∀ id, ¬ w.db.Matches p id := by
      intro id hmatch
      rw [Uuid.utf8ByteSize_of_isPrefix hmatch.2] at hp
      exact hp hlen
    have hreport := h.noMatch.mpr hnone
    rw [hrun] at hreport
    cases hreport

end Listed

/-! ### Samples -/

/-- The id of the sample item: `018f4e2a-…`. -/
def shownId : Uuid := .ofNat 0x018f4e2a7c3d7abc9def0123456789ab

/-- A store with one item. -/
def shownWorld : World :=
  ((submitWork (NewWorkItem.new "social" "cli")).run.interp (handle 0)
    (fun _ => { uuid := shownId }) World.initial).2

theorem shownWorld_rows :
    ∃ r : Row, shownWorld.db.table.rows = [⟨r, none⟩] ∧ r.id = shownId := ⟨_, rfl, rfl⟩

theorem shownWorld_matches {p : String} {id : Uuid} (hp : p.toList <+: shownId.hyphenated.toList) :
    shownWorld.db.Matches p id ↔ id = shownId := by
  obtain ⟨r, hrows, hid⟩ := shownWorld_rows
  refine ⟨fun h => ?_, ?_⟩
  · obtain ⟨r', hr'⟩ := Option.ne_none_iff_exists'.mp h.1
    obtain ⟨hmem, hid'⟩ := Db.rowOf_eq_some.mp hr'
    rw [hrows, List.mem_singleton] at hmem
    cases hmem
    rw [← hid', hid]
  · rintro rfl
    refine ⟨?_, hp⟩
    rw [Db.row, Db.rowOf_eq_some.mpr ⟨hrows ▸ List.mem_singleton_self _, hid⟩]
    exact Option.some_ne_none r

/-- The reads of the samples meet no fault. -/
def quietEnv : ℕ → Env := fun _ => {}

/-- The eight characters the list prints find the item. -/
theorem show_resolves_iff_short : Resolvable shownWorld.db (fun _ => 0) "018f4e2a" ∧
    (Resolves shownWorld.db "018f4e2a" (showWork 0 quietEnv shownWorld "018f4e2a") ↔
      Resolvable shownWorld.db (fun _ => 0) "018f4e2a") := by
  refine ⟨⟨by decide, .inr ⟨by decide, .inl ⟨shownId, ?_, fun id => shownWorld_matches ?_⟩⟩⟩,
    show_resolves_iff 0 quietEnv _ _ (fun _ => rfl) (by decide)⟩
  · obtain ⟨r, hrows, hid⟩ := shownWorld_rows
    simp [Db.listed, hrows, Db.visible, hid]
  · exact List.isPrefixOf_iff_prefix.mp (by decide)

/-- The first nine characters of the only id match nothing. -/
theorem long_prefix_not_found :
    ¬ ∀ (i : CallId) (env : ℕ → Env) (w : World) (p : String), (∀ n, (env n).fault = none) →
      p.length < 36 → Resolves w.db p (showWork i env w p) := by
  intro h
  have hresolves := h 0 quietEnv shownWorld "018f4e2a-" (fun _ => rfl) (by decide)
  have hmatch : shownWorld.db.Matches "018f4e2a-" shownId :=
    (shownWorld_matches (List.isPrefixOf_iff_prefix.mp (by decide))).mpr rfl
  have hfound : found shownWorld.db (fun _ => 0) "018f4e2a-" = [] :=
    List.eq_nil_iff_forall_not_mem.mpr fun id hid => absurd (mem_found.mp hid).2.2 (by decide)
  obtain ⟨-, hrun⟩ | ⟨r, item, hone, -⟩ | ⟨a, b, ids, htwo, -⟩ :=
    showWork_listed 0 quietEnv shownWorld "018f4e2a-" (fun _ => rfl) (by decide)
  · exact hresolves.noMatch.mp hrun shownId hmatch
  · cases hfound.symm.trans hone
  · cases hfound.symm.trans htwo

end Animus
