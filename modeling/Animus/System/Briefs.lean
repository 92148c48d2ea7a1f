import Animus.Db.Submission
import Animus.Model.WorkJson
import Animus.System.Hooks
import Animus.System.Linear
import Animus.System.Success

/-!
# What a worker is handed

What was submitted is stored in a row, read back by the call that works on it,
written to `work.json` and found there by the hooks. Between, the row goes
through its lifecycle; the columns that hold what was submitted stay.

## Main definitions

- `Row.brief`, `WorkItem.brief`: what was submitted, as a row and an item hold it
- `Sys.Drafted`: an uncommitted row holds the parameters of its submission
- `Sys.Briefed`: the submission a row came from
- `firstFetch`: the row a `process_work` call works from
- `briefs`: it writes that row to the file and changes that row only

## Main results

- `Sys.briefed`: a row that is not merged holds what one accepted submission brought
- `Sys.handed`: the row is there, and counts more attempts once an attempt was started
- `hooks_find_what_was_submitted`: from a submission to the hooks
-/

namespace Animus

open Effect Effect.Protocol

/-- What was submitted, as a row holds it. -/
def Row.brief (r : Row) : NewWorkItem where
  faculty := r.faculty
  skill := r.skill
  dedupKey := r.dedupKey
  provenance := ⟨r.source, r.triggerInfo⟩
  params := r.params
  priority := .ofInt r.priority
  parentId := r.parentId
  maxAttempts := r.maxAttempts.map asU32

/-- What was submitted, as an item holds it. -/
def WorkItem.brief (item : WorkItem) : NewWorkItem where
  faculty := item.faculty
  skill := item.skill
  dedupKey := item.dedupKey
  provenance := item.provenance
  params := item.params
  priority := item.priority
  parentId := item.parentId
  maxAttempts := item.maxAttempts

/-- Storing a submission loses nothing of it but what the `jsonb` column does to its parameters. -/
theorem NewWorkItem.brief_row (new : NewWorkItem) (jsonb : Json → Json) (id : WorkId)
    (now : Sql.Timestamp) : (new.row jsonb id now).brief = new.kept jsonb := by
  have hmax := maxAttempts_round_trips new.maxAttempts
  have hprio : Int32.ofInt new.priority.toInt = new.priority := Int32.ofInt_toInt _
  simp only [Row.brief, row, kept, hmax, hprio]

theorem NewWorkItem.kept_eq_iff {new : NewWorkItem} {jsonb : Json → Json} :
    new.kept jsonb = new ↔ jsonb new.params = new.params := by
  refine ⟨fun h => congrArg params h, fun h => ?_⟩
  rw [kept, h]

/-- Neither does reading a row. -/
theorem Row.brief_of_read {r : Row} {item : WorkItem} (h : r.tryIntoWorkItem = .ok item) :
    item.brief = r.brief ∧ item.attempts = asU32 r.attempts := by
  rw [Row.tryIntoWorkItem_eq] at h
  cases h
  exact ⟨rfl, rfl⟩

/-- No update touches what was submitted. -/
theorem Change.apply_brief (c : Change) {jsonb : Json → Json} {now : Sql.Timestamp} {r r' : Row}
    (h : c.apply jsonb now r = some r') : r'.brief = r.brief := by
  cases c with
  | transition source target =>
    rw [apply, Option.ite_none_right_eq_some] at h
    cases h.2
    rfl
  | complete outcome =>
    cases h
    rfl
  | fail error durationMs =>
    cases h
    rfl

theorem Row.Evolves.id {r r' : Row} (h : r.Evolves r') : r'.id = r.id := by
  obtain rfl | ⟨c, jsonb, now, -, -, happ⟩ := h
  · rfl
  · exact (c.apply_identity happ).1

theorem Row.Evolves.brief {r r' : Row} (h : r.Evolves r') : r'.brief = r.brief := by
  obtain rfl | ⟨c, jsonb, now, -, -, happ⟩ := h
  · rfl
  · exact c.apply_brief happ

theorem Row.Evolves.attempts_le {r r' : Row} (h : r.Evolves r') : r.attempts ≤ r'.attempts := by
  obtain rfl | ⟨c, jsonb, now, -, -, happ⟩ := h
  · exact le_refl _
  · rw [(c.apply_state happ).2.2]
    split <;> omega

/-- A counter that fits its column is read as it is. -/
theorem toNat_asU32 {n : ℤ} (h0 : 0 ≤ n) (hlt : n < 2 ^ 31) : ((asU32 n).toNat : ℤ) = n := by
  have hint : (Int32.ofInt n).toInt = n := Int32.toInt_ofInt_of_le (by omega) hlt
  have hle : (0 : Int32) ≤ Int32.ofInt n := by
    rw [Int32.le_iff_toInt_le, hint]
    exact h0
  rw [asU32, Int32.toNat_toUInt32_of_le hle, Int32.toNatClampNeg, hint, Int.toNat_of_nonneg h0]

/-! ### What is not committed yet -/

section Drafts

variable {clients : Op → Bool} {jsonb : Json → Json} {s s' : Sys} {l : Label}

/-- The row holds the parameters of the submission, if the call is one. -/
def Slot.Drafts (jsonb : Json → Json) : Slot → Row → Prop
  | .live ⟨.submit new, _, _⟩, r => r.params = jsonb new.params
  | _, _ => True

/-- Every uncommitted row holds the parameters of the submission that wrote it. -/
def Sys.Drafted (jsonb : Json → Json) (s : Sys) : Prop :=
  ∀ i k r, s.db.rowOf (some i) k = some r → (s.calls i).Drafts jsonb r

theorem SubmitStep.drafts {new : NewWorkItem} {i : CallId} {env : Env} {db db' : Db}
    {ph ph' : SubmitPhase} (h : SubmitStep new i env db ph ph' db')
    (hj : env.chance.jsonb = jsonb)
    (hd : ∀ k r, db.rowOf (some i) k = some r → r.params = jsonb new.params) (k : WorkId) (r : Row)
    (hr : db'.rowOf (some i) k = some r) : r.params = jsonb new.params := by
  -- a row that is put is the new one, or one that was there
  have put : ∀ r', db.Puts db' (some i) r' → r'.params = jsonb new.params →
      r.params = jsonb new.params := by
    intro r' hput hparams
    rw [hput.rowOf] at hr
    split at hr
    · cases hr
      exact hparams
    · exact hd k r hr
  cases h with
  | insert id hput fresh hland => exact put _ hput (hj ▸ rfl)
  | merge id c hput fresh hland => exact put _ hput (hj ▸ rfl)
  | @record id m r₀ ph' db' t hrow hput hland =>
    have hparams : r₀.params = jsonb new.params := hd id _ hrow
    exact put _ hput hparams
  | commitMerged id c hland => simp [Db.rowOf_commit] at hr
  | commitQueued id m hland => simp [Db.rowOf_commit] at hr
  | _ => exact hd k r hr

/-- Replacing the slot of one call, where the rows of other open transactions are untouched. -/
theorem Sys.Drafted.replace (h : s.Drafted jsonb) {i : CallId} {x : Slot}
    (hcalls : s'.calls = Function.update s.calls i x)
    (hne : ∀ j, j ≠ i → ∀ k, s'.db.rowOf (some j) k = s.db.rowOf (some j) k)
    (hi : ∀ k r, s'.db.rowOf (some i) k = some r → x.Drafts jsonb r) : s'.Drafted jsonb := by
  intro j k r hr
  rw [hcalls]
  by_cases hj : j = i
  · subst hj
    rw [Function.update_self]
    exact hi k r hr
  · rw [Function.update_of_ne hj]
    exact h j k r ((hne j hj k).symm.trans hr)

theorem SysStep.drafted (hstep : SysStep clients s l s') (htx : s.TxInv)
    (hj : ∀ i env, l = .exec i env → env.chance.jsonb = jsonb) (h : s.Drafted jsonb) :
    s'.Drafted jsonb := by
  cases hstep with
  | @start i op hi hop =>
    refine h.replace rfl (fun _ _ _ => rfl) fun k r hr => ?_
    exact absurd hr (htx.not_written hi (fun _ _ h => h) k r)
  | @submit i env new p p' ph ph' db' hi hstep =>
    refine h.replace rfl (fun j hj k => hstep.rowOf_ne hj k) (hstep.drafts (hj i env rfl) ?_)
    intro k r hr
    have hdraft := h i k r hr
    rwa [hi] at hdraft
  | change hi hstep => exact h.replace rfl (fun j _ k => hstep.rowOf_some j k) fun _ _ _ => trivial
  | process hi hstep => exact h.replace rfl (fun j _ k => hstep.rowOf_some j k) fun _ _ _ => trivial
  | @leave i c l hi hl =>
    refine h.replace rfl (fun j hj k => ?_) fun _ _ _ => trivial
    rw [Sys.leave_db, Db.rowOf_rollback, if_neg fun heq => hj (Option.some.inj heq)]
  | expire m => exact h

theorem Sys.drafted {ls : List Label} (hrun : (system clients).Run Sys.initial ls s)
    (hserved : ServedBy jsonb ls) : s.Drafted jsonb := by
  refine Lts.Run.snoc_induction (I := fun xs m => ServedBy jsonb xs → m.Drafted jsonb)
    (fun _ _ _ _ hr => by cases hr) ?_ hrun hserved
  intro xs l m m' hxs ih (hstep : m.step clients l = some m') hserved
  obtain ⟨hbefore, hnow⟩ := servedBy_append.mp hserved
  have hinv := Sys.Reachable.inv ⟨xs, hxs⟩
  refine (sysStep_of hinv.1 hinv.2 hstep).drafted hinv.2 (fun i env hl => ?_) (ih hbefore)
  exact hnow i env (hl ▸ List.mem_singleton_self _)

end Drafts

/-! ### Where rows come from -/

section Origins

variable {clients : Op → Bool} {jsonb : Json → Json} {s s' : Sys} {l : Label} {ls : List Label}
  {id : WorkId} {r : Row}

/-- A row holds what one submission brought, which was accepted under its id. -/
def Sys.Briefed (jsonb : Json → Json) (clients : Op → Bool) (ls : List Label) (id : WorkId)
    (r : Row) : Prop :=
  ∃ j new, .start j (.submit new) ∈ ls ∧ r.brief = new.kept jsonb ∧
    (j, .accept id r.faculty r.dedupKey) ∈ Sys.linearized clients ls

theorem Sys.linearized_snoc (hrun : (system clients).Run Sys.initial ls s)
    (hstep : s.step clients l = some s') :
    Sys.linearized clients (ls ++ [l]) = Sys.linearized clients ls ++ s.acts l s' :=
  hrun.emitted_snoc hstep

/-- The commit that makes a queued row visible accepts its job. -/
theorem Sys.Reachable.acts_of_insert (h : s.Reachable clients)
    (hstep : s.step clients l = some s') {i : CallId} {env : Env} {new : NewWorkItem}
    {p : Prog Eff (Except Error SubmitResult)} {m : ℤ} (hl : l = .exec i env)
    (hi : s.calls i = .live ⟨.submit new, p, .queued id m⟩) (hr : s'.db.row id = some r)
    (fresh : s.db.row id = none) : s.acts l s' = [(i, .accept id new.faculty new.dedupKey)] := by
  subst hl
  obtain ⟨hsame, -⟩ | ⟨j, env', o, hl, ho, -, hacts⟩ := h.acts_cases hstep
  · have hnone : s.pool id = none := by
      rw [Sys.pool, fresh]
      rfl
    rw [← hsame, Sys.pool_of_row hr] at hnone
    cases hnone
  · cases hl
    rw [hi] at ho
    rw [hacts, List.mem_singleton.mp ho]

/-- A committed row that is not merged was submitted. -/
theorem Sys.briefed (hrun : (system clients).Run Sys.initial ls s) (hserved : ServedBy jsonb ls)
    (hr : s.db.row id = some r) (hm : r.state ≠ .merged) : Sys.Briefed jsonb clients ls id r := by
  refine Lts.Run.snoc_induction (I := fun ls s => ServedBy jsonb ls → ∀ r, s.db.row id = some r →
    r.state ≠ .merged → Sys.Briefed jsonb clients ls id r) (fun _ r hr => by cases hr) ?_ hrun
    hserved r hr hm
  intro ls l s s' (hrun : (system clients).Run Sys.initial ls s) ih
    (hstep : s.step clients l = some s') hserved r' hr' hm'
  obtain ⟨hbefore, -⟩ := servedBy_append.mp hserved
  have hreach : s.Reachable clients := ⟨ls, hrun⟩
  obtain ⟨r, hr, hev⟩ | ⟨i, env, new, p, ph, hl, hi, hph, fresh, hdraft⟩ :=
    (hreach.rowStep hstep).origin hr'
  · have hcreated := (hreach.tableInv.sound id r hr).notCreated
    obtain ⟨j, new, hstart, hbrief, hacc⟩ :=
      ih hbefore r hr fun hm => hm' ((hev.state hcreated).2.mpr hm)
    refine ⟨j, new, List.mem_append_left _ hstart, hev.brief.trans hbrief, ?_⟩
    have hfac : r'.faculty = r.faculty := hev.faculty
    have hkey : r'.dedupKey = r.dedupKey := congrArg NewWorkItem.dedupKey hev.brief
    rw [Sys.linearized_snoc hrun hstep, hfac, hkey]
    exact List.mem_append_left _ hacc
  · cases ph with
    | queued id' m =>
      obtain ⟨rfl, jsonb', now, t, rfl⟩ := hph
      -- the parameters it holds are those the server keeps
      have hparams := Sys.drafted hrun hbefore i id _ hdraft
      rw [hi] at hparams
      have hbrief : ((new.row jsonb' id now).queue m t).brief = new.kept jsonb := by
        have hrow : ((new.row jsonb' id now).queue m t).brief = new.kept jsonb' :=
          new.brief_row jsonb' id now
        rw [hrow, NewWorkItem.kept, NewWorkItem.kept]
        exact congrArg (fun params => { new with params }) hparams
      refine ⟨i, new, List.mem_append_left _ (Sys.start_mem hrun hi), hbrief, ?_⟩
      · rw [Sys.linearized_snoc hrun hstep, hreach.acts_of_insert hstep hl hi hr' fresh]
        exact List.mem_append_right _ (List.mem_singleton_self _)
    | merging id' c =>
      obtain ⟨-, jsonb, now, rfl⟩ := hph
      exact absurd rfl hm'
    | _ => exact hph.elim

/-- A call is started once. -/
theorem Sys.start_unique (hrun : (system clients).Run Sys.initial ls s) {i : CallId} {op op' : Op}
    (h : .start i op ∈ ls) (h' : .start i op' ∈ ls) : op = op' := by
  refine Lts.Run.snoc_induction (I := fun ls _ => ∀ op op', Label.start i op ∈ ls →
    Label.start i op' ∈ ls → op = op') (fun _ _ h => by cases h) ?_ hrun op op' h h'
  intro ls l s s' (hrun : (system clients).Run Sys.initial ls s) ih
    (hstep : s.step clients l = some s') op op' h h'
  have fresh : ∀ op, l = .start i op → ∀ op', Label.start i op' ∉ ls := by
    rintro op rfl
    have hacc := Sys.account_run hrun i
    rw [(step_start hstep).1] at hacc
    exact hacc.2
  obtain h | h := List.mem_append.mp h <;> obtain h' | h' := List.mem_append.mp h'
  · exact ih op op' h h'
  · exact absurd h (fresh op' (List.mem_singleton.mp h').symm op)
  · exact absurd h' (fresh op (List.mem_singleton.mp h).symm op')
  · cases (List.mem_singleton.mp h).trans (List.mem_singleton.mp h').symm
    rfl

/-- The submission that was answered with the id of a row is the one the row holds. -/
theorem Sys.brief_of_answer (hrun : (system clients).Run Sys.initial ls s) {j j' : CallId}
    {new₀ : NewWorkItem} (hstart : .start j (.submit new₀) ∈ ls)
    (hacc : (j, .accept id r.faculty r.dedupKey) ∈ Sys.linearized clients ls)
    {ls₁ ls₂ : List Label} {m : Sys} {new : NewWorkItem} {item : WorkItem} {ph : SubmitPhase}
    (hls : ls = ls₁ ++ ls₂) (hrun₁ : (system clients).Run Sys.initial ls₁ m)
    (hj' : m.calls j' = .live ⟨.submit new, .ret (.ok (.created item)), ph⟩) (hid : item.id = id) :
    j' = j ∧ new = new₀ := by
  subst hls hid
  have hops : opsOf j' (Sys.linearized clients ls₁) =
      [.accept item.id new.faculty new.dedupKey] := Sys.answered hrun₁ hj'
  have hmem : (j', .accept item.id new.faculty new.dedupKey) ∈
      Sys.linearized clients (ls₁ ++ ls₂) := by
    rw [Sys.linearized, hrun₁.emitted_append]
    refine List.mem_append_left _ (mem_of_opsOf ?_)
    rw [Sys.linearized] at hops
    rw [hops]
    exact List.mem_singleton_self _
  obtain rfl := Pool.accept_unique (Sys.pool_run hrun) hmem hacc
  have hstart' : .start j' (.submit new) ∈ ls₁ ++ ls₂ :=
    List.mem_append_left _ (Sys.start_mem hrun₁ hj')
  have hop : Op.submit new = .submit new₀ := Sys.start_unique hrun hstart' hstart
  cases hop
  exact ⟨rfl, rfl⟩

end Origins

/-! ### What a call works from -/

/-- The row an effect fetches. -/
def Eff.fetched : {β : Type} → Eff β → β → Option Row
  | _, .pool (.selectById _), .ok row => row
  | _, _, _ => none

/-- The row a call works from: the first it fetched. -/
def firstFetch (t : List (Event Eff)) : Option Row := t.findSome? fun x => x.eff.fetched x.answer

/-- Effects that write an item or change a row. -/
def Eff.bound : {β : Type} → Eff β → Bool
  | _, .toStringPretty _ => true
  | _, .pool (.change _ _ _) => true
  | _, _ => false

/-- The effect writes the item of the row, or changes that row. -/
def Eff.Briefs (row : Row) : {β : Type} → Eff β → Prop
  | _, .toStringPretty item => row.tryIntoWorkItem = .ok item
  | _, .pool (.change _ id _) => id = row.id
  | _, _ => True

/-- What a call writes and changes is the row it works from. -/
def briefs {β : Type} (t : List (Event Eff)) (e : Eff β) : Prop :=
  e.bound = true → ∃ row, firstFetch t = some row ∧ e.Briefs row

abbrev briefProtocol : Protocol Eff (List (Event Eff)) := transcript Eff.answers briefs

section Calls

variable {cp : ControlPlane} {α : Type} {t t' : List (Event Eff)} {item : WorkItem} {row : Row}

theorem firstFetch_append (h : firstFetch t = some row) : firstFetch (t ++ t') = some row := by
  rw [firstFetch] at h
  rw [firstFetch, List.findSome?_append, h]
  rfl

theorem firstFetch_snoc {x : Event Eff} (h : firstFetch t = none) :
    firstFetch (t ++ [x]) = x.eff.fetched x.answer := by
  rw [firstFetch] at h
  rw [firstFetch, List.findSome?_append, h, Option.none_or, List.findSome?_singleton]

/-- What is fetched later changes nothing. -/
theorem briefs.append {β : Type} {e : Eff β} (h : briefs t e) : briefs (t ++ t') e := by
  intro hbound
  obtain ⟨row, hrow, he⟩ := h hbound
  exact ⟨row, firstFetch_append hrow, he⟩

/-- A program that keeps to a row may run once that row is fetched. -/
theorem briefs_of_kind {x : Fallible Eff Error α} (hrow : firstFetch t = some row)
    (hx : (kind Eff.answers (Eff.Briefs row)).ObeysE (fun _ _ => True) (fun _ _ => True) () x) :
    briefProtocol.ObeysE (fun _ _ => True) (fun _ _ => True) t x := by
  have hall : (kind Eff.answers (Eff.Briefs row)).Obeys (fun _ _ => True) () x.run :=
    Obeys.mono hx fun _ _ _ => trivial
  refine Obeys.mono (obeys_transcript (Q := fun _ => True) hall fun e t' he _ _ =>
    ⟨row, firstFetch_append hrow, he⟩) fun _ r _ => ?_
  cases r <;> trivial

theorem casUpdate_briefs {c : Change} {id : WorkId} (hid : id = row.id) :
    (kind Eff.answers (Eff.Briefs row)).ObeysE (fun _ _ => True) (fun _ _ => True) ()
      (casUpdate c id) :=
  casUpdate_obeys_of () (fun _ _ => trivial) trivial (fun _ => rfl) (fun _ _ => hid)
    (fun _ _ => trivial) (fun _ _ _ => trivial) (fun _ _ _ => rfl)
    (getWorkItem_obeys (fun _ hr => hr) trivial (fun _ _ _ _ => trivial) (fun _ _ => trivial)
      fun _ _ _ => trivial)

theorem retire_briefs (msg : PgmqMessage) {id : WorkId} {result : FocusResult}
    (hid : id = row.id) : (kind Eff.answers (Eff.Briefs row)).ObeysE (fun _ _ => True)
      (fun _ _ => True) () (retire msg id result) := by
  cases result with
  | completed data ms =>
    refine .perform_bind trivial fun _ _ => ?_
    refine ObeysE.bind (casUpdate_briefs hid) fun _ _ _ => ?_
    exact .attempt trivial (fun _ _ => trivial) fun _ _ => trivial
  | failed phase error ms =>
    refine .perform_bind trivial fun _ _ => ?_
    exact ObeysE.bind (casUpdate_briefs hid) fun _ _ _ => .pure trivial

theorem create_briefs (hitem : row.tryIntoWorkItem = .ok item) :
    (kind Eff.answers (Eff.Briefs row)).ObeysE (fun _ _ => True) (fun _ _ => True) ()
      (Focus.create cp.focusBaseDir item) := by
  unfold Focus.create
  refine .perform_bind trivial fun id _ => ?_
  refine .attempt_bind trivial (fun _ _ => ?_) fun _ _ => trivial
  refine .attempt_bind hitem (fun json _ => ?_) fun _ _ => trivial
  exact .attempt_bind trivial (fun _ _ => .pure trivial) fun _ _ => trivial

theorem run_briefs (focus : Focus) (faculty : FacultyMeta) :
    (kind Eff.answers (Eff.Briefs row)).Obeys (fun _ _ => True) () (focus.run faculty) := by
  obtain ⟨p, hrun, hworks⟩ := focus.run_works Eff.answers faculty
  rw [hrun]
  refine ⟨trivial, fun _ _ => hworks.of_kind fun e he => ?_⟩
  cases e with
  | toStringPretty item => exact he.elim
  | pool q => exact he.elim
  | _ => trivial

theorem runWork_briefs (msg : PgmqMessage) (faculty : FacultyMeta)
    (hitem : row.tryIntoWorkItem = .ok item) :
    (kind Eff.answers (Eff.Briefs row)).ObeysE (fun _ _ => True) (fun _ _ => True) ()
      (runWork cp msg item.id item faculty) := by
  have hid : item.id = row.id := (Row.of_read hitem).1
  unfold runWork
  refine .perform_bind trivial fun _ _ => ?_
  refine ObeysE.bind (casUpdate_briefs hid) fun _ _ _ => ?_
  refine .perform_bind trivial fun _ _ => ?_
  refine ObeysE.bind (casUpdate_briefs hid) fun _ _ _ => ?_
  refine .perform_bind trivial fun _ _ => ?_
  refine ObeysE.bind (create_briefs hitem) fun _ focus _ => ?_
  refine ObeysE.bind (.lift (run_briefs focus faculty)) fun _ result _ => ?_
  refine .perform_bind trivial fun _ _ => ?_
  refine ObeysE.bind (retire_briefs msg hid) fun _ _ _ => ?_
  refine ObeysE.bind (Q := fun _ _ => True) (.lift ⟨trivial, fun _ _ => trivial⟩) ?_
  exact fun _ _ _ => .pure trivial

/-- The first item that is read back is that of the first row. -/
theorem getWorkItem_briefs {id : WorkId} (ht : firstFetch t = none) :
    briefProtocol.ObeysE (fun t' (item : WorkItem) => item.id = id ∧
      ∃ row, firstFetch t' = some row ∧ row.tryIntoWorkItem = .ok item) (fun _ _ => True) t
      (getWorkItem id) := by
  unfold getWorkItem
  refine .attempt_bind nofun (fun found hfound => ?_) fun _ _ => trivial
  cases found with
  | none => exact .throw trivial
  | some row =>
    refine .ofResult (fun item hitem => ?_) fun _ _ => trivial
    exact ⟨(Row.of_read hitem).1.trans hfound, row, firstFetch_snoc ht, hitem⟩

/-- A `process_work` call works from the row it fetched first. -/
theorem processWork_briefs (cp : ControlPlane) :
    briefProtocol.Obeys (fun _ _ => True) [] (processWork cp).run := by
  have h : briefProtocol.ObeysE (fun _ (_ : Unit) => True) (fun _ _ => True) []
      (processWork cp) := by
    unfold processWork
    refine .perform_bind nofun fun active _ => ?_
    split
    · exact .pure trivial
    refine .attempt_bind nofun (fun msg _ => ?_) fun _ _ => trivial
    cases msg with
    | none => exact .pure trivial
    | some msg =>
      dsimp only
      cases extractId msg.message with
      | none => exact .throw trivial
      | some id =>
        refine ObeysE.bind (getWorkItem_briefs rfl) ?_
        rintro t item ⟨rfl, row, hrow, hitem⟩
        cases cp.registry item.faculty with
        | none => exact .pure trivial
        | some faculty => exact briefs_of_kind hrow (runWork_briefs msg faculty hitem)
  exact Obeys.mono h fun _ _ _ => trivial

end Calls

/-! ### What it works from along a run -/

section Runs

variable {s : Sys} {ls : List Label} {i : CallId} {row : Row}

/-- A `process_work` call keeps, and has kept, to the row it works from. -/
def Live.Briefs (t : List (Event Eff)) : Live → Prop
  | ⟨.process _, p, _⟩ => briefProtocol.Obeys (fun _ _ => True) t p ∧ ∀ x ∈ t, briefs t x.eff
  | _ => True

theorem Sys.briefing (hrun : (system planeClients).Run Sys.initial ls s) {cp : ControlPlane}
    {p : Prog Eff (Except Error Unit)} {ph : PlanePhase}
    (hi : s.calls i = .live ⟨.process cp, p, ph⟩) :
    briefProtocol.Obeys (fun _ _ => True) (Sys.performed planeClients i ls) p ∧
      ∀ x ∈ Sys.performed planeClients i ls, briefs (Sys.performed planeClients i ls) x.eff := by
  refine Sys.call_induction (I := fun c t => c.Briefs t) (fun op => ?_) ?_ hrun hi
  · cases op with
    | process cp => exact ⟨processWork_briefs cp, List.forall_mem_nil _⟩
    | _ => trivial
  · intro op β e k ph t ht r hr
    cases op with
    | process cp =>
      obtain ⟨⟨he, hk⟩, hpast⟩ := ht
      refine ⟨hk r hr, List.forall_mem_append.mpr ⟨fun x hx => (hpast x hx).append, ?_⟩⟩
      exact List.forall_mem_singleton.mpr he.append
    | _ => trivial

theorem mem_of_firstFetch {t : List (Event Eff)} (h : firstFetch t = some row) :
    ∃ id, (⟨.pool (.selectById id), .ok (some row)⟩ : Event Eff) ∈ t := by
  obtain ⟨⟨e, a⟩, hmem, hfetch⟩ := List.exists_of_findSome?_eq_some h
  cases e with
  | pool q =>
    cases q with
    | selectById id =>
      cases a with
      | ok found =>
        obtain rfl : found = some row := hfetch
        exact ⟨id, hmem⟩
      | error d => cases hfetch
    | _ => cases hfetch
  | _ => cases hfetch

/-- The row `r` is `row` later: it holds what was submitted, and has lost no attempt. -/
structure Row.Later (row r : Row) : Prop where
  id : r.id = row.id
  brief : r.brief = row.brief
  nonneg : 0 ≤ row.attempts
  le : row.attempts ≤ r.attempts

/-- The row a call works from is there. -/
theorem Sys.handed (hrun : (system planeClients).Run Sys.initial ls s)
    (h : firstFetch (Sys.performed planeClients i ls) = some row) :
    ∃ r, s.db.row row.id = some r ∧ row.Later r := by
  obtain ⟨id, hmem⟩ := mem_of_firstFetch h
  have keep : ∀ r r' : Row, r.Evolves r' → row.Later r → row.Later r' := fun _ _ hev hl =>
    ⟨hev.id.trans hl.id, hev.brief.trans hl.brief, hl.nonneg, hl.le.trans hev.attempts_le⟩
  have now : ∀ m : Sys, m.Reachable planeClients → m.db.row id = some row → row.Later row := by
    intro m hreach hr
    have hstarted := hreach.onceInv.started id
    rw [Sys.attempts, hr] at hstarted
    exact ⟨rfl, rfl, (Int.natCast_nonneg _).trans hstarted, le_refl _⟩
  obtain ⟨r, hr, hlater⟩ := Sys.lasting hrun keep now hmem
  rw [← hlater.id, Db.rowOf_id hr]
  exact ⟨r, hr, hlater⟩

/-- An attempt was started, and is not retired. -/
def PlanePhase.attempting : PlanePhase → Bool
  | .owning st _ _ => st ≠ .claimed
  | _ => false

def Slot.Attempting : Slot → Prop
  | .live ⟨.process _, _, ph⟩ => ph.attempting = true
  | _ => False

/-- An attempt is started by the update that counts it. -/
theorem PlanePhase.attempting_next {cp : ControlPlane} {ph : PlanePhase} {β : Type} {e : Eff β}
    {a : β} (ha : planeAllowed cp ph e) (h : (planeNext cp ph e a).attempting = true) :
    ph.attempting = true ∨ ∃ (m : ℤ) (id : WorkId) (now : Sql.Timestamp) (n : ℕ), n ≠ 0 ∧
      ph = .owning .claimed m id ∧
      (⟨e, a⟩ : Event Eff) = ⟨.pool (.change (.transition .claimed .running) id now), .ok n⟩ := by
  cases planeEff_of ha with
  | @update ph c id now hissues =>
    rw [planeNext_change] at h
    cases ph with
    | owning st m id' =>
      cases st with
      | claimed =>
        obtain ⟨rfl, rfl⟩ := hissues
        cases a with
        | error d => cases h
        | ok n =>
          refine .inr ⟨m, id, now, n, ?_, rfl, rfl⟩
          rintro rfl
          cases h
      | ran => exact .inl rfl
      | _ => exact hissues.elim
    | fetched m id' =>
      cases a with
      | error d => cases h
      | ok n => cases n <;> cases h
    | _ => exact hissues.elim
  | passive he hstay => exact .inl (hstay a ▸ h)
  | read vt =>
    cases a with
    | error d => cases h
    | ok msg =>
      obtain hclosed | ⟨m, id, hread⟩ := PlanePhase.afterRead_cases msg
      · exact absurd (hclosed ▸ h : (PlanePhase.closed).attempting = true) nofun
      · exact absurd (hread ▸ h : (PlanePhase.read m id).attempting = true) nofun
  | fetch m id =>
    cases a with
    | error d => cases h
    | ok found =>
      cases found with
      | none => cases h
      | some r =>
        have hnext : (if (cp.registry r.faculty).isSome then PlanePhase.fetched m id
            else .closed).attempting = true := h
        split at hnext <;> cases hnext
  | archive m id => cases h
  | _ => exact .inl rfl

/-- The update that starts an attempt counts it. -/
theorem Sys.counted_update (hrun : (system planeClients).Run Sys.initial ls s) {cp : ControlPlane}
    {id : WorkId} {now : Sql.Timestamp} {m : ℤ} {env : Env}
    {k : Except DbError ℕ → Prog Eff (Except Error Unit)}
    (hi : s.calls i = .live ⟨.process cp,
      .eff (.pool (.change (.transition .claimed .running) id now)) k, .owning .claimed m id⟩)
    {n : ℕ} (hn : n ≠ 0)
    (ha : (handle i (.pool (.change (.transition .claimed .running) id now)) env s.world).1 =
      .ok n) :
    ∃ row r, firstFetch (Sys.performed planeClients i ls) = some row ∧
      (handle i (.pool (.change (.transition .claimed .running) id now)) env s.world).2.db.row
        row.id = some r ∧ row.attempts < r.attempts := by
  obtain ⟨row, hrow, rfl⟩ := (Sys.briefing hrun hi).1.1 rfl
  obtain ⟨r₀, hr₀, hlater⟩ := Sys.handed hrun hrow
  have hle := hlater.le
  have hup := @updateStep_of env s.db (.transition .claimed .running) row.id now rfl
  obtain ⟨r, r', now', hr, -, happ, hdb⟩ := hup.of_ok ha hn
  cases hr₀.symm.trans hr
  have hatt : r'.attempts = r₀.attempts + 1 := (Change.apply_state _ happ).2.2
  exact ⟨row, r', hrow, (hdb row.id).trans (if_pos rfl), by omega⟩

/-- Once the call has started an attempt the row counts more than were counted when it was read. -/
theorem Sys.counted (hrun : (system planeClients).Run Sys.initial ls s)
    (h : (s.calls i).Attempting) :
    ∃ row r, firstFetch (Sys.performed planeClients i ls) = some row ∧ s.db.row row.id = some r ∧
      row.attempts < r.attempts := by
  refine Lts.Run.snoc_induction (I := fun ls s => (s.calls i).Attempting →
    ∃ row r, firstFetch (Sys.performed planeClients i ls) = some row ∧ s.db.row row.id = some r ∧
      row.attempts < r.attempts) (fun h => h.elim) ?_ hrun h
  intro ls l s s' (hrun : (system planeClients).Run Sys.initial ls s) ih
    (hstep : s.step planeClients l = some s') h
  have hreach : s.Reachable planeClients := ⟨ls, hrun⟩
  -- an attempt that was counted before is still counted
  have before : ∀ t,
      Sys.performed planeClients i (ls ++ [l]) = Sys.performed planeClients i ls ++ t →
      (s.calls i).Attempting → ∃ row r, firstFetch (Sys.performed planeClients i (ls ++ [l])) =
        some row ∧ s'.db.row row.id = some r ∧ row.attempts < r.attempts := by
    intro t ht hatt
    obtain ⟨row, r, hrow, hr, hlt⟩ := ih hatt
    obtain ⟨r', hr', hev⟩ := (hreach.rowStep hstep).evolves hr
    exact ⟨row, r', ht ▸ firstFetch_append hrow, hr', hlt.trans_le hev.attempts_le⟩
  obtain ⟨hsame, hl⟩ | ⟨env, op, β, e, k, ph, rfl, hi, rfl, hmore⟩ :=
    Sys.performed_snoc hrun hstep i
  · refine before [] (hsame.trans (List.append_nil _).symm) ?_
    cases hc : s'.calls i with
    | live c =>
      rw [hc] at h
      cases came_of_step hstep hc with
      | stayed hs hl => exact hs ▸ h
      | @began op hl hs hc =>
        subst hc
        cases op <;> cases h
      | performed hl' hs hc => exact absurd hl' (hl _)
    | _ =>
      rw [hc] at h
      exact h.elim
  · rw [Sys.perform, Sys.move_calls_self] at h
    cases op with
    | process cp =>
      obtain ⟨-, ha, -⟩ := hreach.lawful i _ hi
      obtain hatt | ⟨m, id, now, n, hn, rfl, hevent⟩ := PlanePhase.attempting_next ha h
      · refine before _ hmore ?_
        rw [hi]
        exact hatt
      · injection hevent with hβ he hok
        subst hβ
        cases he
        obtain ⟨row, r, hrow, hr, hlt⟩ := Sys.counted_update hrun hi hn (eq_of_heq hok)
        exact ⟨row, r, hmore ▸ firstFetch_append hrow, hr, hlt⟩
    | _ => exact h.elim

end Runs

section Planes

variable {time : TimeFormat} {parse : String → Option Json} {jsonb : Json → Json} {s : Sys}
  {ls : List Label} {i : CallId} {op : Op} {command dir : String} {env : List (String × String)}
  {k : Except String (Option ℤ) → Prog Eff (Except Error op.Result)} {ph : op.Phase}

/-- A hook that is about to run finds in `work.json` what one submission brought, with its
parameters as the server gives them back: its call was started with that, accepted under the item's
id, and is the one that was answered with that id, if any was. The file is the item as it was before
the attempt that runs the hook was counted, and reading it back gives that item. -/
theorem hooks_find_what_was_submitted (hrun : (system planeClients).Run Sys.initial ls s)
    (hserved : ServedBy jsonb ls)
    (hi : s.calls i = .live ⟨op, .eff (.status command dir env) k, ph⟩)
    (hserde : ∀ item json, (⟨.toStringPretty item, .ok json⟩ : Event Eff) ∈
      Sys.performed planeClients i ls → parse json = some (item.toJson time) ∧ time.Keeps item) :
    ∃ (j : CallId) (new : NewWorkItem) (item : WorkItem) (json : String) (v : Json) (r : Row),
      env.lookup "ANIMUS_WORK_ID" = some item.id.hyphenated ∧
      (⟨.write (joinPath dir "work.json") json, .ok ()⟩ : Event Eff) ∈
        Sys.performed planeClients i ls ∧
      parse json = some v ∧ (WorkItem.codec time).dec v = some item.settled ∧
      v.key "params" = jsonb new.params ∧ .start j (.submit new) ∈ ls ∧
      item.brief = new.kept jsonb ∧ (item.brief = new ↔ jsonb new.params = new.params) ∧
      (j, .accept item.id item.faculty item.dedupKey) ∈ Sys.linearized planeClients ls ∧
      s.db.row item.id = some r ∧ r.brief = item.brief ∧ (item.attempts.toNat : ℤ) < r.attempts ∧
      ∀ ls₁ ls₂ m j' new' item' ph', ls = ls₁ ++ ls₂ →
        (system planeClients).Run Sys.initial ls₁ m →
        m.calls j' = .live ⟨.submit new', .ret (.ok (.created item')), ph'⟩ → item'.id = item.id →
        j' = j ∧ new' = new := by
  have hreach : s.Reachable planeClients := ⟨ls, hrun⟩
  obtain ⟨cp, focus, faculty, rfl, hrunning, ⟨hook, -, -, rfl, rfl⟩, howns⟩ :=
    Sys.focus_of_hook hrun hi
  obtain ⟨before, during, ht, hready, -⟩ := hrunning
  have hsub : before ⊆ Sys.performed planeClients i ls := by
    rw [ht]
    exact List.subset_append_left ..
  obtain ⟨json, -, hjson, hwrite⟩ := hready.housed.mono hsub
  obtain ⟨cp', p', m, hi'⟩ := howns
  -- the item is that of the row the call works from
  obtain ⟨row, hrow, hread⟩ := (Sys.briefing hrun hi).2 _ hjson rfl
  obtain ⟨hid, -⟩ := Row.of_read hread
  obtain ⟨hbrief, hattempts⟩ := Row.brief_of_read hread
  -- and the row as it is now was submitted
  obtain ⟨r, hr, hlater⟩ := Sys.handed hrun hrow
  obtain ⟨row', r', hrow', hr', hlt⟩ := Sys.counted hrun (hi' ▸ rfl : (s.calls i).Attempting)
  cases hrow.symm.trans hrow'
  cases hr.symm.trans hr'
  obtain ⟨r', hr', hstate⟩ := (Sys.Reachable.onceInv hreach).row i .focused _ ⟨cp', p', m, hi'⟩
  rw [hid] at hr'
  cases hr.symm.trans hr'
  obtain ⟨j, new, hstart, hnew, hacc⟩ :=
    Sys.briefed hrun hserved hr (by rw [hstate]; exact State.noConfusion)
  have hsame : r.brief = focus.workItem.brief := hlater.brief.trans hbrief.symm
  have hfac : r.faculty = focus.workItem.faculty := congrArg NewWorkItem.faculty hsame
  have hkey : r.dedupKey = focus.workItem.dedupKey := congrArg NewWorkItem.dedupKey hsame
  have hcount : (focus.workItem.attempts.toNat : ℤ) = row.attempts := by
    rw [hattempts]
    exact toNat_asU32 hlater.nonneg (hlt.trans (hreach.countersFit _ r hr).2)
  obtain ⟨hparse, hkeeps⟩ := hserde _ _ hjson
  have hitem : focus.workItem.brief = new.kept jsonb := hsame.symm.trans hnew
  have hparams : focus.workItem.params = jsonb new.params := congrArg NewWorkItem.params hitem
  refine ⟨j, new, focus.workItem, json, _, r, rfl, hwrite, hparse, WorkItem.reads hkeeps,
    (WorkItem.key_params time focus.workItem).trans hparams, hstart, hitem,
    hitem ▸ NewWorkItem.kept_eq_iff, ?_, hid ▸ hr, hsame, hcount ▸ hlt, ?_⟩
  · rw [hid, ← hfac, ← hkey]
    exact hacc
  · intro ls₁ ls₂ m j' new' item' ph' hls hrun₁ hj' hid'
    exact Sys.brief_of_answer hrun hstart hacc hls hrun₁ hj' (hid'.trans hid)

end Planes

/-! ### A sample -/

/-- The item of the sample submission, as the call reads it. -/
def briefedItem : WorkItem where
  id := .ofNat 1
  faculty := "social"
  skill := none
  dedupKey := some "k"
  provenance := ⟨"cli", none⟩
  params := .null
  priority := 0
  state := .queued
  mergedInto := none
  parentId := none
  attempts := 0
  maxAttempts := none
  createdAt := 0
  updatedAt := 0
  resolvedAt := none
  outcome := none

/-- Its file. -/
def briefedJson : String := "\x7b
  \"id\": \"00000000-0000-0000-0000-000000000001\",
  \"faculty\": \"social\",
  \"skill\": null,
  \"dedup_key\": \"k\",
  \"provenance\": \x7b
    \"source\": \"cli\",
    \"trigger\": null
  \x7d,
  \"params\": null,
  \"priority\": 0,
  \"state\": \"queued\",
  \"merged_into\": null,
  \"parent_id\": null,
  \"attempts\": 0,
  \"max_attempts\": null,
  \"created_at\": \"1970-01-01T00:00:00Z\",
  \"updated_at\": \"1970-01-01T00:00:00Z\",
  \"resolved_at\": null,
  \"outcome\": null
\x7d"

def briefedParse (s : String) : Option Json :=
  if s = briefedJson then some (briefedItem.toJson sampleTime) else none

/-- A submission, and a control plane that has written the file of its item. -/
def briefedRun : List Label :=
  Label.alone 0 (.submit sampleItem) { uuid := .ofNat 1 } 9 ++
    .start 1 (.process samplePlane) :: (List.replicate 14 (.exec 1 { uuid := .ofNat 2 }) ++
      .exec 1 { text := briefedJson } :: List.replicate 2 (.exec 1 {}))

/-- The items an effect wrote out. -/
def Eff.wroteOut : {β : Type} → Eff β → β → Option (WorkItem × String)
  | _, .toStringPretty item, .ok json => some (item, json)
  | _, _, _ => none

theorem briefedParse_wroteOut {item : WorkItem} {json : String}
    (h : (⟨.toStringPretty item, .ok json⟩ : Event Eff) ∈ Sys.performed planeClients 1 briefedRun) :
    briefedParse json = some (item.toJson sampleTime) ∧ sampleTime.Keeps item := by
  have hwrote : ((Sys.performed planeClients 1 briefedRun).filterMap fun x =>
      x.eff.wroteOut x.answer) = [(briefedItem, briefedJson)] := rfl
  have hmem : (item, json) ∈ (Sys.performed planeClients 1 briefedRun).filterMap fun x =>
      x.eff.wroteOut x.answer := List.mem_filterMap.mpr ⟨_, h, rfl⟩
  rw [hwrote] at hmem
  cases List.mem_singleton.mp hmem
  refine ⟨if_pos rfl, fun t ht => ?_⟩
  have hall : ∀ t ∈ briefedItem.instants, t = 0 := by decide
  rw [hall t ht]
  rfl

theorem servedBy_briefedRun : ServedBy id briefedRun := by
  unfold briefedRun
  rw [servedBy_append]
  refine ⟨servedBy_alone 0 _ 9 rfl, .cons (fun _ _ => Label.noConfusion) ?_⟩
  rw [servedBy_append]
  refine ⟨servedBy_replicate 14 rfl, .cons (fun i env hl => ?_) (servedBy_replicate 2 rfl)⟩
  cases hl
  rfl

theorem hooks_find_what_was_submitted_engage :
    ∃ (j : CallId) (new : NewWorkItem) (item : WorkItem), .start j (.submit new) ∈ briefedRun ∧
      item.brief = new ∧ (j, .accept item.id item.faculty item.dedupKey) ∈
        Sys.linearized planeClients briefedRun ∧ new.dedupKey = some "k" := by
  have hrun : (system planeClients).Run Sys.initial briefedRun _ := Lts.run_replayed rfl
  obtain ⟨j, new, item, -, -, -, -, -, -, -, -, hstart, -, hsame, hacc, -⟩ :=
    hooks_find_what_was_submitted (i := 1) hrun servedBy_briefedRun rfl
      fun _ _ => briefedParse_wroteOut
  have hbrief : item.brief = new := hsame.mpr rfl
  have hkey : item.dedupKey = some "k" → new.dedupKey = some "k" := by
    intro h
    rw [← hbrief]
    exact h
  refine ⟨j, new, item, hstart, hbrief, hacc, hkey ?_⟩
  have honly : Sys.linearized planeClients briefedRun =
      [(0, .accept (.ofNat 1) "social" (some "k")), (1, .advance (.ofNat 1) .queued .claimed),
        (1, .advance (.ofNat 1) .claimed .running)] := rfl
  rw [honly] at hacc
  simp only [List.mem_cons, List.not_mem_nil, or_false, Prod.mk.injEq, Pool.Op.accept.injEq,
    reduceCtorEq, and_false] at hacc
  exact hacc.2.2.2

end Animus
