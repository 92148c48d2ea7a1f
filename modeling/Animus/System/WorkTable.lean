import Animus.System.Rows

/-!
# The work table

What every committed row satisfies in every reachable state, whatever the
clients do: no row is left `created`, merged rows point at rows that never
merge, `resolved_at` marks the terminal rows, and those never change.

## Main definitions

- `Row.Evolves`: a row keeps its columns or takes one edge of the lifecycle graph
- `Sys.TableInv`: the invariant

## Main results

- `Sys.Reachable.tableInv`: it holds in every reachable state
- `work_table_invariant`: the invariant with its consequences over later runs
-/

namespace Animus

open Effect

/-- A row stays as it is or takes one edge of the lifecycle graph. -/
def Row.Evolves (r r' : Row) : Prop :=
  r' = r ∨ ∃ (c : Change) (jsonb : Json → Json) (now : Sql.Timestamp),
    c.source.canTransitionTo c.target = true ∧ r.state = c.source ∧
      c.apply jsonb now r = some r'

theorem Row.Evolves.of_terminal {r r' : Row} (h : r.Evolves r')
    (hterm : r.state.isTerminal = true) : r' = r := by
  obtain rfl | ⟨c, jsonb, now, hc, hs, -⟩ := h
  · rfl
  · rw [hs, State.not_isTerminal_of_canTransitionTo hc] at hterm
    cases hterm

theorem Row.Evolves.faculty {r r' : Row} (h : r.Evolves r') : r'.faculty = r.faculty := by
  obtain rfl | ⟨c, jsonb, now, -, -, happ⟩ := h
  · rfl
  · exact (c.apply_identity happ).2.1

/-- Past `created`, a row never becomes `created` or `merged`. -/
theorem Row.Evolves.state {r r' : Row} (h : r.Evolves r') (hr : r.state ≠ .created) :
    r'.state ≠ .created ∧ (r'.state = .merged ↔ r.state = .merged) := by
  obtain rfl | ⟨c, jsonb, now, hc, hs, happ⟩ := h
  · exact ⟨hr, Iff.rfl⟩
  · obtain ⟨hcr, hme⟩ := State.target_of_canTransitionTo hc (hs ▸ hr)
    rw [(c.apply_state happ).1]
    refine ⟨hcr, iff_of_false hme fun hm => ?_⟩
    have hterm := State.not_isTerminal_of_canTransitionTo hc
    rw [← hs, hm] at hterm
    cases hterm

section Steps

variable {clients : Op → Bool} {s s' : Sys} {l : Label}

/-- A committed row never disappears. -/
theorem RowStep.evolves (h : RowStep s l s') {id : WorkId} {r : Row} (hr : s.db.row id = some r) :
    ∃ r', s'.db.row id = some r' ∧ r.Evolves r' := by
  cases h with
  | same h => exact ⟨r, (h id).trans hr, .inl rfl⟩
  | @insert i env new p ph k x hl hi hph fresh hrow =>
    refine ⟨r, ?_, .inl rfl⟩
    rw [hrow, if_neg, hr]
    rintro rfl
    rw [fresh] at hr
    cases hr
  | @update i env c k x x' now hl hi hc hx hs happ hrow =>
    by_cases hk : id = k
    · subst hk
      rw [hr] at hx
      cases hx
      exact ⟨x', by rw [hrow, if_pos rfl], .inr ⟨c, _, now, hc, hs, happ⟩⟩
    · exact ⟨r, by rw [hrow, if_neg hk, hr], .inl rfl⟩

/-- What a row of the next state was before. -/
theorem RowStep.origin (h : RowStep s l s') {id : WorkId} {r' : Row}
    (hr : s'.db.row id = some r') :
    (∃ r, s.db.row id = some r ∧ r.Evolves r') ∨
    ∃ i env new p ph, l = .exec i env ∧ s.calls i = .live ⟨.submit new, p, ph⟩ ∧
      ph.Commits new id r' ∧ s.db.row id = none ∧ s.db.rowOf (some i) id = some r' := by
  cases h with
  | same h => exact .inl ⟨r', (h id).symm.trans hr, .inl rfl⟩
  | @insert i env new p ph k x hl hi hph fresh hrow hdraft =>
    rw [hrow] at hr
    split at hr
    · next hk =>
      subst hk
      cases hr
      exact .inr ⟨i, env, new, p, ph, hl, hi, hph, fresh, hdraft⟩
    · exact .inl ⟨r', hr, .inl rfl⟩
  | @update i env c k x x' now hl hi hc hx hs happ hrow =>
    rw [hrow] at hr
    split at hr
    · next hk =>
      subst hk
      cases hr
      exact .inl ⟨x, hx, .inr ⟨c, _, now, hc, hs, happ⟩⟩
    · exact .inl ⟨r', hr, .inl rfl⟩

/-- The row a submission found to merge into. -/
def SubmitPhase.target : SubmitPhase → Option WorkId
  | .canonical _ c | .merging _ c => some c
  | _ => none

/-- An existing row of a faculty that is not merged. -/
def Sys.Mergeable (s : Sys) (faculty : String) (c : WorkId) : Prop :=
  ∃ rc, s.db.row c = some rc ∧ rc.faculty = faculty ∧ rc.state ≠ .created ∧ rc.state ≠ .merged

/-- What every committed row satisfies. -/
structure Sys.Sound (s : Sys) (r : Row) : Prop where
  notCreated : r.state ≠ .created
  merged : r.mergedInto.isSome = true ↔ r.state = .merged
  resolved : r.resolvedAt.isSome = true ↔ r.state.isTerminal = true
  canonical : ∀ c, r.mergedInto = some c → s.Mergeable r.faculty c

structure Sys.TableInv (s : Sys) : Prop where
  sound : ∀ id r, s.db.row id = some r → s.Sound r
  target : ∀ i new p ph c, s.calls i = .live ⟨.submit new, p, ph⟩ → ph.target = some c →
    s.Mergeable new.faculty c

theorem RowStep.mergeable (h : RowStep s l s') {faculty : String} {c : WorkId}
    (hc : s.Mergeable faculty c) : s'.Mergeable faculty c := by
  obtain ⟨rc, hr, hf, hcr, hme⟩ := hc
  obtain ⟨rc', hr', hev⟩ := h.evolves hr
  obtain ⟨hcr', hme'⟩ := hev.state hcr
  exact ⟨rc', hr', hev.faculty.trans hf, hcr', fun hm => hme (hme'.mp hm)⟩

/-- Taking an edge of the lifecycle graph keeps a row sound. -/
theorem Sys.Sound.evolves {r r' : Row} (h : s.Sound r) (hev : r.Evolves r') : s.Sound r' := by
  obtain ⟨hcr, hme⟩ := hev.state h.notCreated
  obtain rfl | ⟨c, jsonb, now, hc, hs, happ⟩ := hev
  · exact h
  · obtain ⟨-, hfac, -, hmi, -⟩ := c.apply_identity happ
    obtain ⟨hstate, hres, -⟩ := c.apply_state happ
    have hopen : r.resolvedAt = none := by
      have hterm := h.resolved
      rw [hs, State.not_isTerminal_of_canTransitionTo hc] at hterm
      simpa using hterm
    refine ⟨hcr, by rw [hmi, hme, h.merged], ?_, fun k hk => hfac ▸ h.canonical k (hmi ▸ hk)⟩
    rw [hres, hstate, hopen]
    cases c.target.isTerminal <;> simp

theorem RowStep.sound (h : RowStep s l s') {r : Row} (hr : s.Sound r) : s'.Sound r :=
  ⟨hr.notCreated, hr.merged, hr.resolved, fun c hc => h.mergeable (hr.canonical c hc)⟩

/-- The row a submission commits is sound: queued and open, or merged into its target. -/
theorem SubmitPhase.Commits.sound {new : NewWorkItem} {ph : SubmitPhase} {id : WorkId} {r : Row}
    (h : ph.Commits new id r) (ht : ∀ c, ph.target = some c → s.Mergeable new.faculty c) :
    s.Sound r := by
  cases ph with
  | queued id' m =>
    obtain ⟨-, jsonb, now, t, rfl⟩ := h
    exact ⟨by simp [Row.queue], by simp [Row.queue, NewWorkItem.row],
      by simp [Row.queue, NewWorkItem.row, State.isTerminal], fun c hc => by cases hc⟩
  | merging id' c =>
    obtain ⟨-, jsonb, now, rfl⟩ := h
    refine ⟨by simp [NewWorkItem.mergedRow], by simp [NewWorkItem.mergedRow],
      by simp [NewWorkItem.mergedRow, State.isTerminal], fun c' hc => ?_⟩
    cases hc
    exact ht c rfl
  | _ => exact h.elim

theorem Sys.tableInv_initial : Sys.initial.TableInv where
  sound _ _ h := by cases h
  target _ _ _ _ _ h := by cases h

/-- The target of a submission is a row it found active, until it commits. -/
theorem SubmitStep.target {new : NewWorkItem} {i : CallId} {env : Env} {db db' : Db}
    {ph ph' : SubmitPhase} (h : SubmitStep new i env db ph ph' db') {c : WorkId}
    (hc : ph'.target = some c) :
    ph.target = some c ∨ ∃ key r, db.HoldsActive new.faculty key none r ∧ r.id = c := by
  have lands : ∀ {t : SubmitPhase}, Lands env t ph' → t.target = some c := by
    rintro t (rfl | ⟨-, rfl⟩)
    · exact hc
    · cases hc
  cases h with
  | select id hk hr =>
    cases hc
    exact .inr ⟨_, _, hr, rfl⟩
  | merge id c' hput fresh hland =>
    cases lands hland
    exact .inl rfl
  | insert id hput fresh hland => cases lands hland
  | send id hland => cases lands hland
  | record id m hr hput hland => cases lands hland
  | commitMerged id c' hland => cases lands hland
  | commitQueued id m hland => cases lands hland
  | _ => cases hc

/-- An active row may be merged into. -/
theorem Sys.TableInv.mergeable (h : s.TableInv) {faculty key : String} {r : Row}
    (hr : s.db.HoldsActive faculty key none r) : s.Mergeable faculty r.id := by
  obtain ⟨hrow, hf, -, hopen⟩ := hr
  refine ⟨r, hrow, hf, (h.sound _ r hrow).notCreated, fun hm => ?_⟩
  rw [hm] at hopen
  cases hopen

theorem SysStep.tableInv (hstep : SysStep clients s l s') (htx : s.TxInv) (h : s.TableInv) :
    s'.TableInv := by
  have hrow := rowStep_of hstep htx
  constructor
  · intro id r' hr
    obtain ⟨r, hr, hev⟩ | ⟨i, env, new, p, ph, -, hi, hph, -⟩ := hrow.origin hr
    · exact hrow.sound ((h.sound id r hr).evolves hev)
    · exact hrow.sound (hph.sound fun c hc => h.target i new p ph c hi hc)
  · intro j new p ph c hj hc
    obtain ⟨hj, -⟩ | ⟨-, rfl⟩ | ⟨env, p₀, ph₀, -, hj, hsub⟩ := hstep.submitting hj
    · exact hrow.mergeable (h.target j new p ph c hj hc)
    · cases hc
    · obtain hc | ⟨key, r, hr, rfl⟩ := hsub.target hc
      · exact hrow.mergeable (h.target j _ _ _ c hj hc)
      · exact hrow.mergeable (h.mergeable hr)

theorem Sys.Reachable.tableInv (h : s.Reachable clients) : s.TableInv :=
  (Lts.reachable_invariant (I := fun s => s.Lawful clients ∧ s.TxInv ∧ s.TableInv)
    (fun _ _ _ hs hstep =>
      have hsys := sysStep_of hs.1 hs.2.1 hstep
      ⟨Sys.lawful_step hs.1 hstep, hsys.txInv hs.2.1, hsys.tableInv hs.2.1 hs.2.2⟩) h
    ⟨Sys.lawful_initial, Sys.txInv_initial, Sys.tableInv_initial⟩).2.2

/-- What a run keeps of a committed row. -/
theorem Sys.Reachable.run_row (h : s.Reachable clients) {ls : List Label}
    (hrun : (system clients).Run s ls s') {id : WorkId} {r : Row} (hr : s.db.row id = some r)
    (hterm : r.state.isTerminal = true) : s'.db.row id = some r :=
  (Lts.run_invariant (I := fun s => s.Reachable clients ∧ s.db.row id = some r)
    (fun m l m' hm hstep => by
      obtain ⟨r', hr', hev⟩ := (hm.1.rowStep hstep).evolves hm.2
      exact ⟨hm.1.next hstep, hr'.trans (congrArg some (hev.of_terminal hterm))⟩) hrun ⟨h, hr⟩).2

/-- The `UPDATE` a call issues next is never refused by a unique index. -/
theorem Sys.Lawful.update_not_refused (hs : s.Lawful clients) (htx : s.TxInv) {i : CallId} {op : Op}
    {k : Except DbError ℕ → Prog Eff (Except Error op.Result)} {ph : op.Phase} (ch : Chance) :
    (∀ c id now, s.calls i = .live ⟨op, .eff (.pool (.change c id now)) k, ph⟩ →
      (s.db.exec none ch (.change c id now)).1 ≠ .error .uniqueViolation) ∧
    ∀ m id, s.calls i = .live ⟨op, .eff (.tx (.updateQueued m id)) k, ph⟩ →
      (s.db.exec (some i) ch (.updateQueued m id)).1 ≠ .error .uniqueViolation := by
  constructor
  · intro c id now hi
    obtain ⟨-, ha, -⟩ := hs i _ hi
    obtain ⟨hex, -⟩ | ⟨r, -, -, -, hex⟩ | ⟨r, r', db', -, -, -, hex, -⟩ :=
      Db.exec_change_cases s.db ch id now (Op.change_valid ha)
    all_goals
      rw [hex]
      exact fun h => by cases h
  · intro m id hi
    obtain ⟨-, ha, -⟩ := hs i _ hi
    cases op with
    | submit new =>
      cases ph with
      | sent id' m' =>
        obtain ⟨rfl, rfl⟩ := ha
        obtain ⟨r, hr⟩ := htx.pending i new _ _ id hi rfl
        obtain ⟨-, jsonb, now, rfl⟩ := htx.written hi id r hr
        obtain ⟨db', hex, -⟩ := Db.exec_updateQueued ch (m := m) hr rfl
        rw [hex]
        exact fun h => by cases h
      | _ => exact ha.elim
    | change c id' => cases ph <;> exact ha.elim
    | process cp =>
      cases ph with
      | owning st m' id' => cases st <;> exact absurd ha Bool.false_ne_true
      | _ => exact absurd ha Bool.false_ne_true

/-- In every reachable state, whatever its clients: no committed row is `created`; the merged
rows are those with a target, an existing row of the same faculty; the resolved rows are the
terminal ones; a dedup key has one active row per faculty, and no `UPDATE` is refused for it.
Later a terminal row keeps all its columns, and a target never merges. -/
theorem work_table_invariant (h : s.Reachable clients) :
    (∀ id r, s.db.row id = some r → s.Sound r) ∧
    (∀ id id' r r' key, s.db.row id = some r → s.db.row id' = some r' → r.faculty = r'.faculty →
      r.dedupKey = some key → r'.dedupKey = some key → r.state.isTerminal = false →
      r'.state.isTerminal = false → id = id') ∧
    (∀ i op ph ch (k : Except DbError ℕ → Prog Eff (Except Error op.Result)),
      (∀ c id now, s.calls i = .live ⟨op, .eff (.pool (.change c id now)) k, ph⟩ →
        (s.db.exec none ch (.change c id now)).1 ≠ .error .uniqueViolation) ∧
      ∀ m id, s.calls i = .live ⟨op, .eff (.tx (.updateQueued m id)) k, ph⟩ →
        (s.db.exec (some i) ch (.updateQueued m id)).1 ≠ .error .uniqueViolation) ∧
    ∀ ls s', (system clients).Run s ls s' → ∀ id r, s.db.row id = some r →
      (r.state.isTerminal = true → s'.db.row id = some r) ∧
      ∀ c, r.mergedInto = some c →
        ∃ rc, s'.db.row c = some rc ∧ rc.faculty = r.faculty ∧ rc.state ≠ .merged := by
  have hinv := h.tableInv
  refine ⟨hinv.sound, ?_, fun i op ph ch k => h.inv.1.update_not_refused h.inv.2 ch, ?_⟩
  · intro id id' r r' key hr hr' hf hk hk' hopen hopen'
    have hclash : r.clash r' = true := by
      rw [Row.clash_iff, Row.indexed, Row.indexed, hk, hk', hopen, hopen']
      exact ⟨rfl, rfl, hf, rfl⟩
    rw [← Db.rowOf_id hr, ← Db.rowOf_id hr', (Db.eq_of_clash hr hr' hclash).2]
  · intro ls s' hrun id r hr
    refine ⟨h.run_row hrun hr, fun c hc => ?_⟩
    have hterm : r.state.isTerminal = true := by
      rw [((hinv.sound id r hr).merged).mp (by rw [hc]; rfl)]
      rfl
    have hr' := h.run_row hrun hr hterm
    obtain ⟨rc, hrc, hf, -, hme⟩ := ((h.later hrun).tableInv.sound id r hr').canonical c hc
    exact ⟨rc, hrc, hf, hme⟩

end Steps

/-! ### A sample -/

/-- Every operation is in use. -/
def anyone : Op → Bool := fun _ => true

def sampleItem : NewWorkItem := { NewWorkItem.new "social" "cli" with dedupKey := some "k" }

/-- Two submissions of one dedup key; the second is merged into the first. -/
def mergedRun : List Label :=
  Label.alone 0 (.submit sampleItem) { uuid := .ofNat 1 } 9 ++
    Label.alone 1 (.submit sampleItem) { uuid := .ofNat 2 } 7

theorem work_table_invariant_merged :
    (∀ r, ((system anyone).replayed Sys.initial mergedRun).db.row (.ofNat 2) = some r →
      ((system anyone).replayed Sys.initial mergedRun).Sound r) ∧
    (((system anyone).replayed Sys.initial mergedRun).db.row (.ofNat 2)).map
      (fun r => (r.state, r.mergedInto)) = some (.merged, some (.ofNat 1)) :=
  ⟨fun r => (work_table_invariant ⟨mergedRun, Lts.run_replayed rfl⟩).1 (.ofNat 2) r, rfl⟩

end Animus
