import Animus.System.Inversion

/-!
# How the committed rows change

The steps of the system by what they do to rows, and the invariant that ties
every uncommitted row to the submission that wrote it.

## Main definitions

- `SysStep`: the steps of the system, by operation
- `Sys.TxInv`: what an open transaction has written
- `RowStep`: what a step does to the committed rows

## Main results

- `sysStep_of`, `Sys.txInv_step`: the steps and the invariant
- `rowStep_of`: a committed row is inserted by a commit or moved by an update
-/

namespace Animus

open Effect

/-- The steps of the system, by operation. -/
inductive SysStep (clients : Op → Bool) (s : Sys) : Label → Sys → Prop
  | start {i : CallId} {op : Op} (hi : s.calls i = .idle) (hop : clients op = true) :
      SysStep clients s (.start i op) (s.begin i op)
  | submit {i : CallId} {env : Env} {new : NewWorkItem}
      {p p' : Prog Eff (Except Error SubmitResult)} {ph ph' : SubmitPhase} {db' : Db}
      (hi : s.calls i = .live ⟨.submit new, p, ph⟩) (h : SubmitStep new i env s.db ph ph' db') :
      SysStep clients s (.exec i env) (s.move i ⟨.submit new, p', ph'⟩ { s.world with db := db' })
  | change {i : CallId} {env : Env} {c : Change} {id : WorkId}
      {p p' : Prog Eff (Except Error WorkItem)} {ph ph' : ChangePhase} {db' : Db}
      (hi : s.calls i = .live ⟨.change c id, p, ph⟩) (h : ChangeStep c id env s.db ph ph' db') :
      SysStep clients s (.exec i env) (s.move i ⟨.change c id, p', ph'⟩ { s.world with db := db' })
  | process {i : CallId} {env : Env} {cp : ControlPlane}
      {p p' : Prog Eff (Except Error Unit)} {ph ph' : PlanePhase} {w' : World}
      (hi : s.calls i = .live ⟨.process cp, p, ph⟩) (h : PlaneStep cp env s.world ph ph' w') :
      SysStep clients s (.exec i env) (s.move i ⟨.process cp, p', ph'⟩ w')
  | leave {i : CallId} {c : Live} {l : Label} (hi : s.calls i = .live c)
      (hl : l = .finish i ∨ l = .crash i) : SysStep clients s l (s.leave i)
  | expire (m : ℤ) : SysStep clients s (.expire m) (s.expire m)

/-- The rows a call may have written and not committed. -/
def Slot.Writes : Slot → WorkId → Row → Prop
  | .live ⟨.submit new, _, ph⟩, k, r => ph.Writes new k r
  | _, _, _ => False

/-- What an open transaction has written is what its phase says. -/
structure Sys.TxInv (s : Sys) : Prop where
  writes : ∀ i k r, s.db.rowOf (some i) k = some r → (s.calls i).Writes k r
  pending : ∀ i new p ph id, s.calls i = .live ⟨.submit new, p, ph⟩ → ph.pending = some id →
    ∃ r, s.db.rowOf (some i) id = some r

section Steps

variable {clients : Op → Bool} {s s' : Sys} {l : Label}

/-- What a call has written and not committed is what its slot says. -/
theorem Sys.TxInv.written (htx : s.TxInv) {i : CallId} {x : Slot} (hi : s.calls i = x) (k : WorkId)
    (r : Row) (hr : s.db.rowOf (some i) k = some r) : x.Writes k r := by
  have hw := htx.writes i k r hr
  rwa [hi] at hw

theorem sysStep_of (hs : s.Lawful clients) (htx : s.TxInv) (h : s.step clients l = some s') :
    SysStep clients s l s' := by
  cases l with
  | start i op =>
    obtain ⟨hi, hop, rfl⟩ := step_start h
    exact .start hi hop
  | exec i env =>
    obtain ⟨op, β, e, k, ph, hi, -, rfl⟩ := step_exec h
    obtain ⟨-, ha, -⟩ := hs i _ hi
    cases op with
    | submit new =>
      obtain ⟨hstep, hw⟩ := submitStep_of i env s.world ha (htx.written hi)
        fun id hid => htx.pending i new _ ph id hi hid
      -- a submission touches nothing of the world but the database
      have hmove : SysStep clients s (.exec i env)
          (s.move i ⟨.submit new, k (handle i e env s.world).1, _⟩
            { s.world with db := (handle i e env s.world).2.db }) := .submit hi hstep
      rw [← hw] at hmove
      exact hmove
    | change c id =>
      obtain ⟨hstep, hw⟩ := changeStep_of i env s.world ha
      have hmove : SysStep clients s (.exec i env)
          (s.move i ⟨.change c id, k (handle i e env s.world).1, _⟩
            { s.world with db := (handle i e env s.world).2.db }) := .change hi hstep
      rw [← hw] at hmove
      exact hmove
    | process cp => exact .process hi (planeStep_of (i := i) ha)
  | finish i =>
    obtain ⟨op, a, ph, hi, rfl⟩ := step_finish h
    exact .leave hi (.inl rfl)
  | crash i =>
    obtain ⟨c, hi, rfl⟩ := step_crash h
    exact .leave hi (.inr rfl)
  | expire m =>
    obtain rfl := step_expire h
    exact .expire m

/-- What a step does to the slot of one call. -/
inductive SlotStep (s : Sys) (l : Label) (s' : Sys) (j : CallId) : Prop
  | stay (h : s'.calls j = s.calls j) (hl : ∀ env, l ≠ .exec j env)
  | start {op : Op} (hi : s.calls j = .idle) (h : s'.calls j = .live ⟨op, op.prog, op.first⟩)
  | ended (h : s'.calls j = .ended) (hl : l = .finish j ∨ l = .crash j)
      (hdb : s'.db = s.db.rollback j)
  | submit {env : Env} {new : NewWorkItem} {p p' : Prog Eff (Except Error SubmitResult)}
      {ph ph' : SubmitPhase} (hl : l = .exec j env) (hi : s.calls j = .live ⟨.submit new, p, ph⟩)
      (hi' : s'.calls j = .live ⟨.submit new, p', ph'⟩)
      (h : SubmitStep new j env s.db ph ph' s'.db)
  | change {env : Env} {c : Change} {id : WorkId} {p p' : Prog Eff (Except Error WorkItem)}
      {ph ph' : ChangePhase} (hl : l = .exec j env) (hi : s.calls j = .live ⟨.change c id, p, ph⟩)
      (hi' : s'.calls j = .live ⟨.change c id, p', ph'⟩)
      (h : ChangeStep c id env s.db ph ph' s'.db)
  | process {env : Env} {cp : ControlPlane} {p p' : Prog Eff (Except Error Unit)}
      {ph ph' : PlanePhase} (hl : l = .exec j env) (hi : s.calls j = .live ⟨.process cp, p, ph⟩)
      (hi' : s'.calls j = .live ⟨.process cp, p', ph'⟩)
      (h : PlaneStep cp env s.world ph ph' s'.world)

theorem SysStep.slot (h : SysStep clients s l s') (j : CallId) : SlotStep s l s' j := by
  have other : ∀ {i env}, j ≠ i → ∀ env', Label.exec i env ≠ .exec j env' := by
    rintro i env hji env' heq
    cases heq
    exact hji rfl
  cases h with
  | @start i op hi hop =>
    by_cases hji : j = i
    · subst hji
      exact .start hi (Sys.begin_calls_self ..)
    · exact .stay (Sys.begin_calls_ne _ hji _) fun _ heq => by cases heq
  | @submit i env new p p' ph ph' db' hi h =>
    by_cases hji : j = i
    · subst hji
      exact .submit rfl hi (Sys.move_calls_self ..) h
    · exact .stay (Sys.move_calls_ne _ hji _ _) (other hji)
  | @change i env c id p p' ph ph' db' hi h =>
    by_cases hji : j = i
    · subst hji
      exact .change rfl hi (Sys.move_calls_self ..) h
    · exact .stay (Sys.move_calls_ne _ hji _ _) (other hji)
  | @process i env cp p p' ph ph' w' hi h =>
    by_cases hji : j = i
    · subst hji
      exact .process rfl hi (Sys.move_calls_self ..) h
    · exact .stay (Sys.move_calls_ne _ hji _ _) (other hji)
  | @leave i c l hi hl =>
    by_cases hji : j = i
    · subst hji
      exact .ended (Sys.leave_calls_self ..) hl rfl
    · refine .stay (Sys.leave_calls_ne _ hji) fun env heq => ?_
      obtain rfl | rfl := hl <;> cases heq
  | expire m => exact .stay rfl fun _ heq => by cases heq

/-- How a submission came to its phase. -/
theorem SysStep.submitting (h : SysStep clients s l s') {j : CallId} {new : NewWorkItem}
    {p' : Prog Eff (Except Error SubmitResult)} {ph' : SubmitPhase}
    (hj : s'.calls j = .live ⟨.submit new, p', ph'⟩) :
    (s.calls j = .live ⟨.submit new, p', ph'⟩ ∧ ∀ env, l ≠ .exec j env) ∨
    (s.calls j = .idle ∧ ph' = .start) ∨
    ∃ env p ph, l = .exec j env ∧ s.calls j = .live ⟨.submit new, p, ph⟩ ∧
      SubmitStep new j env s.db ph ph' s'.db := by
  cases h.slot j with
  | stay h hl => exact .inl ⟨h.symm.trans hj, hl⟩
  | @start op hi h =>
    cases op <;> cases h.symm.trans hj
    exact .inr (.inl ⟨hi, rfl⟩)
  | ended h hl hdb => cases h.symm.trans hj
  | submit hl hi hi' h =>
    cases hi'.symm.trans hj
    exact .inr (.inr ⟨_, _, _, hl, hi, h⟩)
  | change hl hi hi' h => cases hi'.symm.trans hj
  | process hl hi hi' h => cases hi'.symm.trans hj

/-- How a `process_work` call came to its phase. -/
theorem SysStep.processing (h : SysStep clients s l s') {j : CallId} {cp : ControlPlane}
    {p' : Prog Eff (Except Error Unit)} {ph' : PlanePhase}
    (hj : s'.calls j = .live ⟨.process cp, p', ph'⟩) :
    (s.calls j = .live ⟨.process cp, p', ph'⟩ ∧ ∀ env, l ≠ .exec j env) ∨
    (s.calls j = .idle ∧ ph' = .idle) ∨
    ∃ env p ph, l = .exec j env ∧ s.calls j = .live ⟨.process cp, p, ph⟩ ∧
      PlaneStep cp env s.world ph ph' s'.world := by
  cases h.slot j with
  | stay h hl => exact .inl ⟨h.symm.trans hj, hl⟩
  | @start op hi h =>
    cases op <;> cases h.symm.trans hj
    exact .inr (.inl ⟨hi, rfl⟩)
  | ended h hl hdb => cases h.symm.trans hj
  | submit hl hi hi' h => cases hi'.symm.trans hj
  | change hl hi hi' h => cases hi'.symm.trans hj
  | process hl hi hi' h =>
    cases hi'.symm.trans hj
    exact .inr (.inr ⟨_, _, _, hl, hi, h⟩)

/-! ### The transaction invariant -/

section Frames

variable {new : NewWorkItem} {i : CallId} {env : Env} {db db' : Db} {w w' : World}
  {ph ph' : SubmitPhase}

theorem Lands.writes {target : SubmitPhase} (h : Lands env target ph') {k : WorkId} {r : Row}
    (hw : target.Writes new k r) : ph'.Writes new k r := by
  obtain rfl | ⟨-, rfl⟩ := h
  · exact hw
  · trivial

theorem Lands.pending {target : SubmitPhase} (h : Lands env target ph') {id : WorkId}
    (hp : ph'.pending = some id) : target.pending = some id := by
  obtain rfl | ⟨-, rfl⟩ := h
  · exact hp
  · cases hp

/-- A submission touches no other open transaction. -/
theorem SubmitStep.rowOf_ne (h : SubmitStep new i env db ph ph' db') {j : CallId} (hj : j ≠ i)
    (k : WorkId) : db'.rowOf (some j) k = db.rowOf (some j) k := by
  have hne : some j ≠ some i := fun heq => hj (Option.some.inj heq)
  cases h with
  | insert id hput => exact hput.rowOf_ne_tag hne k
  | merge id c hput => exact hput.rowOf_ne_tag hne k
  | record id m hr hput => exact hput.rowOf_ne_tag hne k
  | commitMerged id c hland => simp [Db.rowOf_commit, hj]
  | commitQueued id m hland => simp [Db.rowOf_commit, hj]
  | _ => rfl

theorem SubmitStep.writes (h : SubmitStep new i env db ph ph' db')
    (hw : ∀ k r, db.rowOf (some i) k = some r → ph.Writes new k r) (k : WorkId) (r : Row)
    (hr : db'.rowOf (some i) k = some r) : ph'.Writes new k r := by
  cases h with
  | begin => exact hw k r hr
  | name => exact hw k r hr
  | clock id => exact hw k r hr
  | conflict id hk hc => exact hw k r hr
  | select id hk hc => exact (hw k r hr).elim
  | notify id m => exact hw k r hr
  | «show» id hrow => exact hw k r hr
  | fail why => trivial
  | insert id hput fresh hland =>
    refine hland.writes ?_
    rw [hput.rowOf] at hr
    split at hr
    · next hk =>
      cases hr
      exact ⟨hk.2, _, _, rfl⟩
    · exact (hw k r hr).elim
  | merge id c hput fresh hland =>
    refine hland.writes ?_
    rw [hput.rowOf] at hr
    split at hr
    · next hk =>
      cases hr
      exact ⟨hk.2, _, _, rfl⟩
    · exact (hw k r hr).elim
  | send id hland =>
    rw [Db.rowOf_send] at hr
    exact hland.writes (hw k r hr)
  | record id m hrow hput hland =>
    refine hland.writes ?_
    obtain ⟨-, jsonb, now, rfl⟩ := hw _ _ hrow
    rw [hput.rowOf] at hr
    split at hr
    · next hk =>
      cases hr
      exact ⟨hk.2, _, _, _, rfl⟩
    · next hk =>
      obtain ⟨hid, -⟩ := hw _ _ hr
      exact absurd ⟨rfl, hid⟩ hk
  | commitMerged id c hland =>
    rw [Db.rowOf_commit] at hr
    simp at hr
  | commitQueued id m hland =>
    rw [Db.rowOf_commit] at hr
    simp at hr

theorem SubmitStep.pending (h : SubmitStep new i env db ph ph' db')
    (hp : ∀ id, ph.pending = some id → ∃ r, db.rowOf (some i) id = some r) (id : WorkId)
    (hid : ph'.pending = some id) : ∃ r, db'.rowOf (some i) id = some r := by
  cases h with
  | begin => cases hid
  | name => cases hid
  | clock id => cases hid
  | conflict id hk hc => cases hid
  | select id hk hc => cases hid
  | notify id' m => exact hp id hid
  | «show» id hrow => cases hid
  | fail why => cases hid
  | insert id' hput fresh hland =>
    cases hland.pending hid
    exact ⟨_, hput.rowOf_self⟩
  | merge id' c hput fresh hland =>
    cases hland.pending hid
    exact ⟨_, hput.rowOf_self⟩
  | send id' hland =>
    cases hland.pending hid
    exact hp _ rfl
  | record id' m hrow hput hland =>
    cases hland.pending hid
    have hrid := Db.rowOf_id hrow
    exact ⟨_, hrid ▸ hput.rowOf_self⟩
  | commitMerged id c hland => cases hland.pending hid
  | commitQueued id m hland => cases hland.pending hid

/-- An update on the pool touches no open transaction. -/
theorem UpdateStep.rowOf_some {c : Change} {id : WorkId} {a : Except DbError ℕ}
    (h : UpdateStep env db c id a db') (j : CallId) (k : WorkId) :
    db'.rowOf (some j) k = db.rowOf (some j) k := by
  cases h with
  | missed h => rfl
  | moved hr hs happ hput ha => exact hput.rowOf_ne_tag (by simp) k
  | refused why => rfl

theorem ChangeStep.rowOf_some {c : Change} {id : WorkId} {g g' : ChangePhase}
    (h : ChangeStep c id env db g g' db') (j : CallId) (k : WorkId) :
    db'.rowOf (some j) k = db.rowOf (some j) k := by
  cases h with
  | update hc hup => exact hup.rowOf_some j k
  | _ => rfl

theorem PlaneStep.rowOf_some {cp : ControlPlane} {g g' : PlanePhase}
    (h : PlaneStep cp env w g g' w') (j : CallId) (k : WorkId) :
    w'.db.rowOf (some j) k = w.db.rowOf (some j) k := by
  cases h with
  | update hph hup => exact hup.rowOf_some j k
  | _ => rfl

end Frames

/-- Replacing the slot of one call keeps the invariant when the rows of other open transactions
are untouched. -/
theorem Sys.TxInv.replace (htx : s.TxInv) {i : CallId} {x : Slot}
    (hcalls : s'.calls = Function.update s.calls i x)
    (hne : ∀ j, j ≠ i → ∀ k, s'.db.rowOf (some j) k = s.db.rowOf (some j) k)
    (hw : ∀ k r, s'.db.rowOf (some i) k = some r → x.Writes k r)
    (hp : ∀ new p ph id, x = .live ⟨.submit new, p, ph⟩ → ph.pending = some id →
      ∃ r, s'.db.rowOf (some i) id = some r) : s'.TxInv := by
  constructor
  · intro j k r hr
    rw [hcalls]
    by_cases hj : j = i
    · subst hj
      rw [Function.update_self]
      exact hw k r hr
    · rw [Function.update_of_ne hj]
      exact htx.writes j k r ((hne j hj k).symm.trans hr)
  · intro j new p ph id hc hph
    rw [hcalls] at hc
    by_cases hj : j = i
    · subst hj
      rw [Function.update_self] at hc
      exact hp new p ph id hc hph
    · rw [Function.update_of_ne hj] at hc
      obtain ⟨r, hr⟩ := htx.pending j new p ph id hc hph
      exact ⟨r, (hne j hj id).trans hr⟩

/-- A call that does not submit has written nothing. -/
theorem Sys.TxInv.not_written (htx : s.TxInv) {i : CallId} {x : Slot} (hi : s.calls i = x)
    (hx : ∀ k r, ¬ x.Writes k r) (k : WorkId) (r : Row) : s.db.rowOf (some i) k ≠ some r := by
  exact fun hr => hx k r (htx.written hi k r hr)

theorem Sys.txInv_initial : Sys.initial.TxInv :=
  ⟨fun _ _ _ h => (by cases h), fun _ _ _ _ _ h _ => (by cases h)⟩

theorem SysStep.txInv (h : SysStep clients s l s') (htx : s.TxInv) : s'.TxInv := by
  cases h with
  | @start i op hi hop =>
    refine htx.replace rfl (fun _ _ _ => rfl) ?_ ?_
    · exact fun k r hr => absurd hr (htx.not_written hi (fun _ _ h => h) k r)
    · rintro new p ph id hx hph
      cases op <;> cases hx
      cases hph
  | @submit i env new p p' ph ph' db' hi h =>
    refine htx.replace rfl (fun j hj k => h.rowOf_ne hj k) ?_ ?_
    · exact h.writes (htx.written hi)
    · rintro _ _ _ id ⟨⟩ hph
      exact h.pending (fun id hid => htx.pending i new p ph id hi hid) id hph
  | @change i env c id p p' ph ph' db' hi h =>
    refine htx.replace rfl (fun j _ k => h.rowOf_some j k) (fun k r hr => ?_) ?_
    · exact absurd ((h.rowOf_some i k).symm.trans hr) (htx.not_written hi (fun _ _ h => h) k r)
    · rintro _ _ _ _ ⟨⟩
  | @process i env cp p p' ph ph' w' hi h =>
    refine htx.replace rfl (fun j _ k => h.rowOf_some j k) (fun k r hr => ?_) ?_
    · exact absurd ((h.rowOf_some i k).symm.trans hr) (htx.not_written hi (fun _ _ h => h) k r)
    · rintro _ _ _ _ ⟨⟩
  | @leave i c l hi hl =>
    -- the rollback removes what the call had written, and nothing else
    have hrow : ∀ j k, (s.leave i).db.rowOf (some j) k =
        if j = i then none else s.db.rowOf (some j) k := by
      intro j k
      rw [Sys.leave_db, Db.rowOf_rollback]
      simp only [Option.some.injEq]
    refine htx.replace rfl (fun j hj k => (hrow j k).trans (if_neg hj)) (fun k r hr => ?_) ?_
    · rw [hrow, if_pos rfl] at hr
      cases hr
    · rintro _ _ _ _ ⟨⟩
  | expire m => exact ⟨htx.writes, htx.pending⟩

theorem Sys.txInv_step (hs : s.Lawful clients) (htx : s.TxInv) (h : s.step clients l = some s') :
    s'.TxInv := (sysStep_of hs htx h).txInv htx

/-! ### Committed rows -/

/-- The row the commit of a phase makes visible. -/
def SubmitPhase.Commits (new : NewWorkItem) : SubmitPhase → WorkId → Row → Prop
  | .queued id m, k, r => k = id ∧ ∃ jsonb now t, r = (new.row jsonb id now).queue m t
  | .merging id c, k, r => k = id ∧ ∃ jsonb now, r = new.mergedRow jsonb id c now
  | _, _, _ => False

/-- The update a call issues next. -/
def Slot.Updates : Slot → Change → WorkId → Prop
  | .live ⟨.change c id, _, ph⟩, c', id' => ph = .ready ∧ c' = c ∧ id' = id
  | .live ⟨.process _, _, ph⟩, c, id => ph.Issues c id
  | _, _, _ => False

/-- What a step does to the committed rows. -/
inductive RowStep (s : Sys) (l : Label) (s' : Sys) : Prop
  | same (h : ∀ k, s'.db.row k = s.db.row k)
  | insert {i : CallId} {env : Env} {new : NewWorkItem} {p : Prog Eff (Except Error SubmitResult)}
      {ph : SubmitPhase} {id : WorkId} {r : Row} (hl : l = .exec i env)
      (hi : s.calls i = .live ⟨.submit new, p, ph⟩) (hph : ph.Commits new id r)
      (fresh : s.db.row id = none)
      (hrow : ∀ k, s'.db.row k = if k = id then some r else s.db.row k)
      (hdraft : s.db.rowOf (some i) id = some r)
  | update {i : CallId} {env : Env} {c : Change} {id : WorkId} {r r' : Row} {now : Sql.Timestamp}
      (hl : l = .exec i env) (hi : (s.calls i).Updates c id)
      (hc : c.source.canTransitionTo c.target = true) (hr : s.db.row id = some r)
      (hs : r.state = c.source) (happ : c.apply env.chance.jsonb now r = some r')
      (hrow : ∀ k, s'.db.row k = if k = id then some r' else s.db.row k)

section Frames

variable {new : NewWorkItem} {i : CallId} {env : Env} {db db' : Db} {w w' : World}
  {ph ph' : SubmitPhase}

theorem Db.Puts.row_some {i : CallId} {r : Row} (h : db.Puts db' (some i) r) (k : WorkId) :
    db'.row k = db.row k := h.rowOf_ne_tag (by simp) k

theorem Db.Puts.row_none {r : Row} (h : db.Puts db' none r) (k : WorkId) :
    db'.row k = if k = r.id then some r else db.row k := by
  rw [Db.row, h.rowOf]
  simp only [true_and]
  rfl

/-- A commit makes the one row its transaction wrote visible. -/
theorem Db.row_commit_of {id : WorkId} {r : Row} (hr : db.rowOf (some i) id = some r)
    (honly : ∀ k r', db.rowOf (some i) k = some r' → k = id) :
    db.row id = none ∧ ∀ k, (db.commit i).row k = if k = id then some r else db.row k := by
  obtain ⟨hfresh, hself⟩ := Db.row_commit hr
  refine ⟨hfresh, fun k => ?_⟩
  by_cases hk : k = id
  · rw [if_pos hk, hk, hself]
  · have hnone : db.rowOf (some i) k = none := by
      by_contra hne
      obtain ⟨x, hx⟩ := Option.ne_none_iff_exists'.mp hne
      exact hk (honly k x hx)
    rw [if_neg hk, Db.row, Db.rowOf_commit, if_pos rfl, hnone, Option.or_none]
    rfl

theorem SubmitStep.row (h : SubmitStep new i env db ph ph' db')
    (hw : ∀ k r, db.rowOf (some i) k = some r → ph.Writes new k r)
    (hp : ∀ id, ph.pending = some id → ∃ r, db.rowOf (some i) id = some r) :
    (∀ k, db'.row k = db.row k) ∨
    ∃ id r, ph.Commits new id r ∧ db.row id = none ∧ db.rowOf (some i) id = some r ∧
      ∀ k, db'.row k = if k = id then some r else db.row k := by
  cases h with
  | insert id hput fresh hland => exact .inl hput.row_some
  | merge id c hput fresh hland => exact .inl hput.row_some
  | record id m hrow hput hland => exact .inl hput.row_some
  | commitMerged id c hland =>
    obtain ⟨r, hr⟩ := hp id rfl
    obtain ⟨hfresh, hrow⟩ := Db.row_commit_of hr fun k r' hr' => (hw k r' hr').1
    exact .inr ⟨id, r, hw id r hr, hfresh, hr, hrow⟩
  | commitQueued id m hland =>
    obtain ⟨r, hr⟩ := hp id rfl
    obtain ⟨hfresh, hrow⟩ := Db.row_commit_of hr fun k r' hr' => (hw k r' hr').1
    exact .inr ⟨id, r, hw id r hr, hfresh, hr, hrow⟩
  | _ => exact .inl fun _ => rfl

theorem UpdateStep.row {c : Change} {id : WorkId} {a : Except DbError ℕ}
    (h : UpdateStep env db c id a db') :
    (∀ k, db'.row k = db.row k) ∨
    ∃ r r' now, db.row id = some r ∧ r.state = c.source ∧
      c.apply env.chance.jsonb now r = some r' ∧
        ∀ k, db'.row k = if k = id then some r' else db.row k := by
  cases h with
  | missed h => exact .inl fun _ => rfl
  | @moved r r' now db' a hr hs happ hput ha =>
    refine .inr ⟨r, r', now, hr, hs, happ, fun k => ?_⟩
    rw [hput.row_none, (c.apply_identity happ).1, Db.rowOf_id hr]
  | refused why => exact .inl fun _ => rfl

/-- An update answered with a row moved it. -/
theorem UpdateStep.of_ok {c : Change} {id : WorkId} {a : Except DbError ℕ}
    (h : UpdateStep env db c id a db') {n : ℕ} (ha : a = .ok n)
    (hn : n ≠ 0) : ∃ r r' now, db.row id = some r ∧ r.state = c.source ∧
      c.apply env.chance.jsonb now r = some r' ∧
        ∀ k, db'.row k = if k = id then some r' else db.row k := by
  cases h with
  | missed h =>
    cases ha
    exact absurd rfl hn
  | @moved r r' now db' a hr hs happ hput ha' =>
    refine ⟨r, r', now, hr, hs, happ, fun k => ?_⟩
    rw [hput.row_none, (c.apply_identity happ).1, Db.rowOf_id hr]
  | refused why => cases ha

end Frames

/-- A step leaves the committed rows alone, inserts one or moves one. -/
theorem rowStep_of (h : SysStep clients s l s') (htx : s.TxInv) : RowStep s l s' := by
  cases h with
  | start hi hop => exact .same fun _ => rfl
  | @submit i env new p p' ph ph' db' hi h =>
    obtain hsame | ⟨id, r, hph, hfresh, hdraft, hrow⟩ := h.row (htx.written hi)
      fun id hid => htx.pending i new p ph id hi hid
    · exact .same hsame
    · exact .insert rfl hi hph hfresh hrow hdraft
  | @change i env c id p p' ph ph' db' hi h =>
    cases h with
    | @update a db' hc hup =>
      obtain hsame | ⟨r, r', now, hr, hs, happ, hrow⟩ := hup.row
      · exact .same hsame
      · exact .update rfl (by rw [hi]; exact ⟨rfl, rfl, rfl⟩) hc hr hs happ hrow
    | _ => exact .same fun _ => rfl
  | @process i env cp p p' ph ph' w' hi h =>
    cases h with
    | @update ph c id a db' hph hup =>
      obtain hsame | ⟨r, r', now, hr, hs, happ, hrow⟩ := hup.row
      · exact .same hsame
      · exact .update rfl (by rw [hi]; exact hph) hph.valid hr hs happ hrow
    | _ => exact .same fun _ => rfl
  | @leave i c l hi hl =>
    refine .same fun k => ?_
    rw [Sys.leave_db, Db.row, Db.rowOf_rollback, if_neg (by simp)]
    rfl
  | expire m => exact .same fun _ => rfl

/-- What every reachable state has, whatever its clients. -/
theorem Sys.Reachable.inv (h : s.Reachable clients) : s.Lawful clients ∧ s.TxInv :=
  Lts.reachable_invariant (I := fun s => s.Lawful clients ∧ s.TxInv)
    (fun _ _ _ hs hstep => ⟨Sys.lawful_step hs.1 hstep, Sys.txInv_step hs.1 hs.2 hstep⟩) h
    ⟨Sys.lawful_initial, Sys.txInv_initial⟩

theorem Sys.Reachable.rowStep (hr : s.Reachable clients) (h : s.step clients l = some s') :
    RowStep s l s' := rowStep_of (sysStep_of hr.inv.1 hr.inv.2 h) hr.inv.2

end Steps

end Animus
