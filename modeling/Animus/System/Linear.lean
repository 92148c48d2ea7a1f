import Animus.Model.Pool
import Animus.System.Dedup
import Animus.System.Telemetry

/-!
# The store is a pool

Whatever calls interleave, each of them does the operations of the pool it
answers for, one at a time, at a step of its own.

## Main definitions

- `Sys.pool`: the pool a state of the system stands for
- `Slot.intends`, `Sys.acts`: the operations a step is in that pool
- `Sys.linearized`: the operations of a run, in order, with their callers
- `Op.Performs`, `Op.Answers`: what a call may do, and what it did when it returned

## Main results

- `Sys.Reachable.pool_step`: a step is its operations
- `store_linearizable`
-/

namespace Animus

open Effect

/-- The message of an item is in the queue. -/
def Db.posted (db : Db) (id : WorkId) : Bool := !(db.messagesOf id).isEmpty

/-- The job a row stands for. -/
def Row.job (r : Row) (posted : Bool) : Job :=
  ⟨r.faculty, r.dedupKey, r.state, r.mergedInto, r.attempts, posted⟩

/-- The pool a state of the system stands for. -/
def Sys.pool (s : Sys) : Pool := fun id => (s.db.row id).map fun r => r.job (s.db.posted id)

/-- The operations the next effect of a `process_work` call may be. -/
def PlanePhase.intends : PlanePhase → List Pool.Op
  | .fetched _ id => [.advance id .queued .claimed]
  | .owning .claimed _ id => [.advance id .claimed .running]
  | .owning .ran _ id => [.advance id .running .completed, .advance id .running .failed]
  | .completed _ id => [.dismiss id]
  | _ => []

/-- The operations the next effect of a call may be. -/
def Slot.intends : Slot → List Pool.Op
  | .live ⟨.submit new, _, .queued id _⟩ => [.accept id new.faculty new.dedupKey]
  | .live ⟨.submit new, _, .merging id c⟩ =>
    new.dedupKey.toList.map fun key => .merge id new.faculty key c
  | .live ⟨.change c id, _, .ready⟩ => [.advance id c.source c.target]
  | .live ⟨.process _, _, ph⟩ => ph.intends
  | _ => []

/-- Was the operation done between two pools? -/
def Pool.Op.done (o : Pool.Op) (p p' : Pool) : Bool :=
  p' o.id ≠ p o.id && (p' o.id).map Job.state = some o.state

/-- What a step does to the pool, and in whose name. -/
def Sys.acts (s : Sys) (l : Label) (s' : Sys) : List (CallId × Pool.Op) :=
  match l with
  | .exec i _ => ((s.calls i).intends.filter fun o => o.done s.pool s'.pool).map (i, ·)
  | _ => []

/-- The operations of a run, in order, with their callers. -/
def Sys.linearized (clients : Op → Bool) (ls : List Label) : List (CallId × Pool.Op) :=
  (system clients).emitted Sys.acts Sys.initial ls

/-! ### A step is its operations -/

section Step

variable {clients : Op → Bool} {s s' : Sys} {l : Label}

theorem Db.posted_iff {db : Db} {id : WorkId} :
    db.posted id = true ↔ ∃ m, db.Carries none m id := by
  rw [Db.posted, Bool.not_eq_true', List.isEmpty_eq_false_iff]
  constructor
  · exact (db.messagesOf_cases id).resolve_left
  · rintro ⟨m, msg, hmem, htxn, -, hid⟩ hnil
    have hmsg : msg ∈ db.messagesOf id := Db.mem_messagesOf.mpr ⟨hmem, htxn, hid⟩
    rw [hnil] at hmsg
    cases hmsg

theorem Db.posted_congr {db db' : Db} {id : WorkId}
    (h : ∀ m, db'.Carries none m id ↔ db.Carries none m id) : db'.posted id = db.posted id := by
  rw [Bool.eq_iff_iff, Db.posted_iff, Db.posted_iff]
  exact exists_congr h

theorem Sys.SameWork.pool (h : s.SameWork s') : s'.pool = s.pool := by
  funext id
  rw [Sys.pool, Sys.pool, h.1, Db.posted_congr fun m => h.2 m id]

/-- A pool that differs in one job only. -/
theorem Sys.pool_eq_update {id : WorkId} {r' : Row} {b : Bool}
    (hrow : ∀ k, s'.db.row k = if k = id then some r' else s.db.row k)
    (hself : s'.db.posted id = b)
    (hpost : ∀ k, k ≠ id → ∀ m, s'.db.Carries none m k ↔ s.db.Carries none m k) :
    s'.pool = Function.update s.pool id (some (r'.job b)) := by
  funext k
  by_cases hk : k = id
  · subst hk
    rw [Function.update_self, Sys.pool, hrow, if_pos rfl, hself]
    rfl
  · rw [Function.update_of_ne hk, Sys.pool, Sys.pool, hrow, if_neg hk,
      Db.posted_congr (hpost k hk)]

theorem Sys.pool_of_row {id : WorkId} {r : Row} (hr : s.db.row id = some r) :
    s.pool id = some (r.job (s.db.posted id)) := by
  rw [Sys.pool, hr]
  rfl

theorem Sys.exists_row_of_pool {id : WorkId} {j : Job} (hj : s.pool id = some j) :
    ∃ r, s.db.row id = some r ∧ j = r.job (s.db.posted id) := by
  obtain ⟨r, hr, rfl⟩ := Option.map_eq_some_iff.mp hj
  exact ⟨r, hr, rfl⟩

/-! ### Updates and archiving -/

/-- An update that moves a row advances its job. -/
theorem Sys.does_of_puts {c : Change} {id : WorkId} {r r' : Row} {jsonb : Json → Json}
    {now : Sql.Timestamp} (hc : c.source.canTransitionTo c.target = true)
    (hr : s.db.row id = some r) (hs : r.state = c.source) (happ : c.apply jsonb now r = some r')
    (hput : s.db.Puts s'.db none r') :
    s.pool.Does (.advance id c.source c.target) s'.pool := by
  obtain ⟨hid, hf, hk, hm, -⟩ := c.apply_identity happ
  obtain ⟨hst, -, hatt⟩ := c.apply_state happ
  have hrow : ∀ k, s'.db.row k = if k = id then some r' else s.db.row k := by
    intro k
    rw [hput.row_none, hid, Db.rowOf_id hr]
  have hcarries : ∀ m k, s'.db.Carries none m k ↔ s.db.Carries none m k := fun m k =>
    Db.carries_of_seen (congrArg _ hput.queue)
  have hjob : r'.job (s.db.posted id) = (r.job (s.db.posted id)).advance c.target := by
    rw [Row.job, Row.job, Job.advance, hf, hk, hm, hst, hatt]
  rw [Sys.pool_eq_update hrow (Db.posted_congr fun m => hcarries m id) fun k _ m => hcarries m k,
    hjob]
  exact .advance (Sys.pool_of_row hr) hs hc

/-- A compare-and-swap update misses, or advances its job. -/
theorem UpdateStep.pool_step {env : Env} {c : Change} {id : WorkId} {a : Except DbError ℕ}
    (h : UpdateStep env s.db c id a s'.db) (hc : c.source.canTransitionTo c.target = true) :
    s'.pool = s.pool ∨ s.pool.Does (.advance id c.source c.target) s'.pool := by
  generalize hdb : s'.db = db' at h
  cases h with
  | missed h => exact .inl (Sys.sameWork_of_db hdb).pool
  | refused why => exact .inl (Sys.sameWork_of_db hdb).pool
  | moved hr hs happ hput ha => exact .inr (Sys.does_of_puts hc hr hs happ (hdb ▸ hput))

/-- Archiving dismisses a job, or finds its message gone. -/
theorem Sys.MsgInv.archive_step (h : s.MsgInv) {i : CallId} {cp : ControlPlane}
    {p : Prog Eff (Except Error Unit)} {m : ℤ} {id : WorkId}
    (hi : s.calls i = .live ⟨.process cp, p, .completed m id⟩)
    (hdb : s'.db = s.db.archiveMessage m) :
    s'.pool = s.pool ∨ s.pool.Does (.dismiss id) s'.pool := by
  obtain ⟨r, hr, hst⟩ := h.done i cp p m id hi
  have hrow : ∀ k, s'.db.row k = s.db.row k := fun k => by rw [hdb]; rfl
  have hcarries : ∀ m' k, s'.db.Carries none m' k ↔ s.db.Carries none m' k ∧ m' ≠ m := by
    intro m' k
    rw [hdb, Db.carries_archiveMessage, eq_self, true_and]
  by_cases hc : s.db.Carries none m id
  · -- the message of a job is the only one that carries it
    have hgone : s'.db.posted id = false := by
      rw [← Bool.not_eq_true, Db.posted_iff]
      rintro ⟨m', hc'⟩
      obtain ⟨hc', hne⟩ := (hcarries m' id).mp hc'
      obtain ⟨r₀, hr₀, hm₀, -⟩ := h.owner m id hc
      obtain ⟨r₁, hr₁, hm₁, -⟩ := h.owner m' id hc'
      cases hr₀.symm.trans hr₁
      exact hne (Option.some.inj (hm₁.symm.trans hm₀))
    have hother : ∀ k, k ≠ id → ∀ m', s'.db.Carries none m' k ↔ s.db.Carries none m' k := by
      intro k hk m'
      rw [hcarries]
      refine and_iff_left_of_imp ?_
      rintro hc' rfl
      exact hk ((h.held i cp p _ m' id hi rfl).2 none k hc')
    have hself : ∀ k, s'.db.row k = if k = id then some r else s.db.row k := by
      intro k
      split
      · next hk => rw [hrow, hk, hr]
      · exact hrow k
    have hposted : s.db.posted id = true := Db.posted_iff.mpr ⟨m, hc⟩
    rw [Sys.pool_eq_update hself hgone hother]
    exact .inr (.dismiss (Sys.pool_of_row hr) hposted hst)
  · refine .inl (Sys.SameWork.pool ⟨hrow, fun m' k => ?_⟩)
    rw [hcarries]
    refine and_iff_left_of_imp ?_
    rintro hc' rfl
    exact hc ((h.held i cp p _ m' id hi rfl).2 none k hc' ▸ hc')

/-- An update a control plane issues is an operation it intends. -/
theorem PlanePhase.Issues.mem_intends {ph : PlanePhase} {c : Change} {id : WorkId}
    (h : ph.Issues c id) : .advance id c.source c.target ∈ ph.intends := by
  cases ph with
  | fetched m id' =>
    obtain ⟨rfl, rfl⟩ := h
    exact List.mem_singleton_self _
  | owning st m id' =>
    cases st with
    | claimed =>
      obtain ⟨rfl, rfl⟩ := h
      exact List.mem_singleton_self _
    | ran =>
      obtain ⟨⟨o, rfl⟩ | ⟨e, ms, rfl⟩, rfl⟩ := h
      · exact List.mem_cons_self
      · exact List.mem_cons_of_mem _ (List.mem_singleton_self _)
    | _ => exact h.elim
  | _ => exact h.elim

/-! ### Commits -/

/-- A submission merges into a row of its dedup key. -/
def Sys.KeyInv (s : Sys) : Prop :=
  ∀ i new p ph c, s.calls i = .live ⟨.submit new, p, ph⟩ → ph.target = some c →
    ∃ key r, new.dedupKey = some key ∧ s.db.row c = some r ∧ r.dedupKey = some key

/-- A statement that fails leaves no target. -/
theorem Lands.target {env : Env} {ph ph' : SubmitPhase} (h : Lands env ph ph') {c : WorkId}
    (hc : ph'.target = some c) : ph.target = some c := by
  obtain rfl | ⟨-, rfl⟩ := h
  · exact hc
  · cases hc

/-- The target of a submission is a row of its key, until it commits. -/
theorem SubmitStep.keyed {new : NewWorkItem} {i : CallId} {env : Env} {db db' : Db}
    {ph ph' : SubmitPhase} (h : SubmitStep new i env db ph ph' db') {c : WorkId}
    (hc : ph'.target = some c) : ph.target = some c ∨
      ∃ key r, new.dedupKey = some key ∧ db.row c = some r ∧ r.dedupKey = some key := by
  obtain hstay | ⟨key, r, hr, hid⟩ := h.target hc
  · exact .inl hstay
  · cases h with
    | @select id key' r' hk hr' =>
      cases hc
      exact .inr ⟨key', r', hk, hr'.1, hr'.2.2.1⟩
    | merge id c' hput fresh hland => exact .inl (hland.target hc)
    | insert id hput fresh hland => cases hland.target hc
    | send id hland => cases hland.target hc
    | record id m hr' hput hland => cases hland.target hc
    | commitMerged id c' hland => cases hland.target hc
    | commitQueued id m hland => cases hland.target hc
    | _ => cases hc

theorem SysStep.keyInv (hstep : SysStep clients s l s') (htx : s.TxInv) (h : s.KeyInv) :
    s'.KeyInv := by
  intro j new p ph c hj hc
  have later : (∃ key r, new.dedupKey = some key ∧ s.db.row c = some r ∧ r.dedupKey = some key) →
      ∃ key r, new.dedupKey = some key ∧ s'.db.row c = some r ∧ r.dedupKey = some key := by
    rintro ⟨key, r, hk, hr, hrk⟩
    obtain ⟨r', hr', hev⟩ := (rowStep_of hstep htx).evolves hr
    exact ⟨key, r', hk, hr', hev.dedupKey.trans hrk⟩
  obtain ⟨hj, -⟩ | ⟨-, rfl⟩ | ⟨env, p₀, ph₀, -, hj, hsub⟩ := hstep.submitting hj
  · exact later (h j new p ph c hj hc)
  · cases hc
  · obtain hc | hfound := hsub.keyed hc
    · exact later (h j _ _ _ c hj hc)
    · exact later hfound

theorem Sys.Reachable.keyInv (h : s.Reachable clients) : s.KeyInv :=
  (Lts.reachable_invariant (I := fun s => s.Reachable clients ∧ s.KeyInv)
    (fun _ _ _ hs hstep => ⟨hs.1.next hstep,
      (sysStep_of hs.1.inv.1 hs.1.inv.2 hstep).keyInv hs.1.inv.2 hs.2⟩) h
    ⟨Lts.Reachable.refl _, fun _ _ _ _ _ h => by cases h⟩).2

/-- A commit accepts the job its transaction queued. -/
theorem Sys.Reachable.accept_step (h : s.Reachable clients) {i : CallId} {new : NewWorkItem}
    {p : Prog Eff (Except Error SubmitResult)} {id : WorkId} {m : ℤ}
    (hi : s.calls i = .live ⟨.submit new, p, .queued id m⟩) (hdb : s'.db = s.db.commit i) :
    s.pool.Does (.accept id new.faculty new.dedupKey) s'.pool := by
  obtain ⟨r, hr⟩ := h.inv.2.pending i new p _ id hi rfl
  obtain ⟨hfresh, hrow⟩ := Db.row_commit_of hr fun k r' hr' => (h.inv.2.written hi k r' hr').1
  obtain ⟨-, jsonb, now, t, rfl⟩ := h.inv.2.written hi id r hr
  have hcarries : ∀ m' k, s'.db.Carries none m' k ↔
      s.db.Carries none m' k ∨ s.db.Carries (some i) m' k := by
    intro m' k
    rw [hdb, Db.carries_commit]
    simp
  have hsent : s'.db.posted id = true :=
    Db.posted_iff.mpr ⟨m, (hcarries m id).mpr (.inr (h.msgInv.pending i new p _ m id hi rfl))⟩
  have hother : ∀ k, k ≠ id → ∀ m', s'.db.Carries none m' k ↔ s.db.Carries none m' k := by
    intro k hk m'
    rw [hcarries]
    refine or_iff_left fun hc => hk ?_
    have hof := h.msgInv.sent i m' k hc
    rw [hi] at hof
    obtain hof | hof := hof <;> cases hof
    rfl
  rw [Sys.pool_eq_update (hdb ▸ hrow) hsent hother]
  refine .accept (by rw [Sys.pool, hfresh]; rfl) fun key hk k j hj => ?_
  rintro ⟨hf, hjk, hopen⟩
  obtain ⟨r', hr', rfl⟩ := Sys.exists_row_of_pool hj
  -- the index covers rows that are not committed: the two would be one version
  have hkey : r'.dedupKey = some key := hjk
  have hactive : r'.state.isTerminal = false := hopen
  have hclash : ((new.row jsonb id now).queue m t).clash r' = true := by
    rw [Row.clash_iff, Row.indexed, Row.indexed, Row.queue, NewWorkItem.row, hk, hkey, hactive]
    exact ⟨rfl, rfl, hf.symm, rfl⟩
  cases (Db.eq_of_clash hr hr' hclash).1

/-- A commit merges the job its transaction wrote. -/
theorem Sys.Reachable.merge_step (h : s.Reachable clients) {i : CallId} {new : NewWorkItem}
    {p : Prog Eff (Except Error SubmitResult)} {id c : WorkId}
    (hi : s.calls i = .live ⟨.submit new, p, .merging id c⟩) (hdb : s'.db = s.db.commit i) :
    ∃ key, new.dedupKey = some key ∧ s.pool.Does (.merge id new.faculty key c) s'.pool := by
  obtain ⟨r, hr⟩ := h.inv.2.pending i new p _ id hi rfl
  obtain ⟨hfresh, hrow⟩ := Db.row_commit_of hr fun k r' hr' => (h.inv.2.written hi k r' hr').1
  obtain ⟨-, jsonb, now, rfl⟩ := h.inv.2.written hi id r hr
  have hcarries : ∀ m k, s'.db.Carries none m k ↔ s.db.Carries none m k := by
    intro m k
    rw [hdb, Db.carries_commit]
    have hno : ¬ s.db.Carries (some i) m k := by
      intro hc
      have hof := h.msgInv.sent i m k hc
      rw [hi] at hof
      obtain hof | hof := hof <;> cases hof
    simp [hno]
  have hnone : s'.db.posted id = false := by
    rw [← Bool.not_eq_true, Db.posted_iff]
    rintro ⟨m, hc⟩
    obtain ⟨r', hr', -⟩ := h.msgInv.owner m id ((hcarries m id).mp hc)
    cases hfresh.symm.trans hr'
  obtain ⟨rc, hrc, hf, -, hm⟩ := h.tableInv.target i new p _ c hi rfl
  obtain ⟨key, rc', hk, hrc', hck⟩ := h.keyInv i new p _ c hi rfl
  cases hrc.symm.trans hrc'
  rw [Sys.pool_eq_update (hdb ▸ hrow) hnone fun k _ m => hcarries m k]
  exact ⟨key, hk, .merge (by rw [Sys.pool, hfresh]; rfl) (Sys.pool_of_row hrc) hf hck hm⟩

/-! ### The operations of a step -/

/-- A step leaves the pool as it is, or is one operation its caller intends. -/
theorem Sys.Reachable.pool_cases (h : s.Reachable clients) (hstep : s.step clients l = some s') :
    s'.pool = s.pool ∨
    ∃ i env o, l = .exec i env ∧ o ∈ (s.calls i).intends ∧ s.pool.Does o s'.pool := by
  cases sysStep_of h.inv.1 h.inv.2 hstep with
  | start hi hop => exact .inl (Sys.sameWork_of_db rfl).pool
  | leave hi hl => exact .inl (Sys.sameWork_rollback rfl).pool
  | expire m =>
    exact .inl (Sys.SameWork.pool
      ⟨fun _ => rfl, fun _ _ => Db.carries_of_seen (Db.seen_setHidden ..)⟩)
  | @submit i env new p p' ph ph' db' hi hsub =>
    have puts : ∀ {r : Row}, s.db.Puts db' (some i) r →
        (s.move i ⟨.submit new, p', ph'⟩ { s.world with db := db' }).pool = s.pool := fun hput =>
      Sys.SameWork.pool ⟨hput.row_some, fun _ _ => Db.carries_of_seen (congrArg _ hput.queue)⟩
    cases hsub with
    | insert id hput fresh hland => exact .inl (puts hput)
    | merge id c hput fresh hland => exact .inl (puts hput)
    | record id m hr hput hland => exact .inl (puts hput)
    | send id hland =>
      refine .inl (Sys.SameWork.pool ⟨fun _ => rfl, fun m k => ?_⟩)
      rw [Sys.move_db, Db.carries_send]
      simp
    | commitMerged id c hland =>
      have hnext : (s.move i ⟨.submit new, p', ph'⟩ { s.world with db := s.db.commit i }).db =
          s.db.commit i := rfl
      obtain ⟨key, hk, hdo⟩ := h.merge_step hi hnext
      refine .inr ⟨i, env, _, rfl, ?_, hdo⟩
      simp [hi, Slot.intends, hk]
    | commitQueued id m hland =>
      refine .inr ⟨i, env, _, rfl, ?_, h.accept_step hi rfl⟩
      rw [hi]
      exact List.mem_singleton_self _
    | _ => exact .inl (Sys.sameWork_of_db rfl).pool
  | @change i env c id p p' ph ph' db' hi hch =>
    cases hch with
    | @update a _ hc hup =>
      have hnext : UpdateStep env s.db c id a
          (s.move i ⟨.change c id, p', .afterUpdate a⟩ { s.world with db := db' }).db := hup
      obtain hsame | hdo := hnext.pool_step hc
      · exact .inl hsame
      · refine .inr ⟨i, env, _, rfl, ?_, hdo⟩
        rw [hi]
        exact List.mem_singleton_self _
    | _ => exact .inl (Sys.sameWork_of_db rfl).pool
  | @process i env cp p p' ph ph' w' hi hpl =>
    cases hpl with
    | @update ph c id a db' hph hup =>
      have hnext : UpdateStep env s.db c id a
          (s.move i ⟨.process cp, p', ph.afterUpdate c a⟩ { s.world with db := db' }).db := hup
      obtain hsame | hdo := hnext.pool_step hph.valid
      · exact .inl hsame
      · refine .inr ⟨i, env, _, rfl, ?_, hdo⟩
        rw [hi]
        exact hph.mem_intends
    | archive m id =>
      have hnext : (s.move i ⟨.process cp, p', .closed⟩
          { s.world with db := s.db.archiveMessage m }).db = s.db.archiveMessage m := rfl
      obtain hsame | hdo := h.msgInv.archive_step hi hnext
      · exact .inl hsame
      · refine .inr ⟨i, env, _, rfl, ?_, hdo⟩
        rw [hi]
        exact List.mem_singleton_self _
    | read hmem htxn hhid hland =>
      exact .inl (Sys.SameWork.pool
        ⟨fun _ => rfl, fun _ _ => Db.carries_of_seen (Db.seen_setHidden ..)⟩)
    | _ => exact .inl (Sys.sameWork_of_db rfl).pool

/-- The operations a call may do next leave a job in different states. -/
theorem Slot.intends_inj {x : Slot} {o o' : Pool.Op} (ho : o ∈ x.intends) (ho' : o' ∈ x.intends)
    (hst : o.state = o'.state) : o = o' := by
  have single : ∀ {a : Pool.Op}, x.intends = [a] → o = o' := by
    intro a ha
    rw [ha, List.mem_singleton] at ho ho'
    rw [ho, ho']
  cases x with
  | idle => cases ho
  | ended => cases ho
  | live c =>
    obtain ⟨op, p, ph⟩ := c
    cases op with
    | submit new =>
      cases ph with
      | queued id m => exact single rfl
      | merging id c =>
        obtain ⟨key, hk, rfl⟩ := List.mem_map.mp ho
        obtain ⟨key', hk', rfl⟩ := List.mem_map.mp ho'
        rw [Option.mem_toList] at hk hk'
        rw [Option.mem_unique hk hk']
      | _ => cases ho
    | change c id =>
      cases ph with
      | ready => exact single rfl
      | _ => cases ho
    | process cp =>
      cases ph with
      | fetched m id => exact single rfl
      | completed m id => exact single rfl
      | owning st m id =>
        cases st with
        | claimed => exact single rfl
        | ran =>
          obtain rfl | rfl := List.mem_pair.mp ho <;> obtain rfl | rfl := List.mem_pair.mp ho' <;>
            first | rfl | cases hst
        | _ => cases ho
      | _ => cases ho

theorem Slot.nodup_intends (x : Slot) : x.intends.Nodup := by
  refine List.Nodup.of_map Pool.Op.state ?_
  fun_cases Slot.intends x with
  | case2 new p id c =>
    cases new.dedupKey with
    | none => exact List.nodup_nil
    | some key => exact List.nodup_singleton _
  | case4 cp p ph => fun_cases PlanePhase.intends ph <;> simp [Pool.Op.state]
  | _ => simp

/-- A step that leaves the pool as it is does nothing to it. -/
theorem Sys.acts_of_same (h : s'.pool = s.pool) : s.acts l s' = [] := by
  cases l with
  | exec i env =>
    rw [Sys.acts, h, List.filter_eq_nil_iff.mpr, List.map_nil]
    intro o _
    simp [Pool.Op.done]
  | _ => rfl

/-- A step that is an operation does that and nothing else. -/
theorem Sys.acts_of_does {i : CallId} {env : Env} {o : Pool.Op} (ho : o ∈ (s.calls i).intends)
    (hdo : s.pool.Does o s'.pool) : s.acts (.exec i env) s' = [(i, o)] := by
  have hdone : o.done s.pool s'.pool = true := by
    rw [Pool.Op.done, Bool.and_eq_true, decide_eq_true_eq, decide_eq_true_eq]
    exact hdo.at_id
  have hone : ((s.calls i).intends.filter fun o => o.done s.pool s'.pool) = [o] := by
    refine eq_singleton_of_nodup ((s.calls i).nodup_intends.filter _)
      (List.mem_filter.mpr ⟨ho, hdone⟩) fun o' ho' => ?_
    obtain ⟨hmem, hdone'⟩ := List.mem_filter.mp ho'
    rw [Pool.Op.done, Bool.and_eq_true, decide_eq_true_eq, decide_eq_true_eq] at hdone'
    have hid : o'.id = o.id := by
      by_contra hne
      exact hdone'.1 (hdo.of_ne hne)
    rw [hid] at hdone'
    exact Slot.intends_inj hmem ho (Option.some.inj (hdone'.2.symm.trans hdo.at_id.2))
  rw [Sys.acts, hone]
  rfl

/-- What a step is to the pool: nothing, or one operation of its caller. -/
theorem Sys.Reachable.acts_cases (h : s.Reachable clients) (hstep : s.step clients l = some s') :
    (s'.pool = s.pool ∧ s.acts l s' = []) ∨
    ∃ i env o, l = .exec i env ∧ o ∈ (s.calls i).intends ∧ s.pool.Does o s'.pool ∧
      s.acts l s' = [(i, o)] := by
  obtain hsame | ⟨i, env, o, rfl, ho, hdo⟩ := h.pool_cases hstep
  · exact .inl ⟨hsame, Sys.acts_of_same hsame⟩
  · exact .inr ⟨i, env, o, rfl, ho, hdo, Sys.acts_of_does ho hdo⟩

/-- A step is its operations. -/
theorem Sys.Reachable.pool_step (h : s.Reachable clients) (hstep : s.step clients l = some s') :
    workPool.Run s.pool ((s.acts l s').map Prod.snd) s'.pool := by
  obtain ⟨hsame, hacts⟩ | ⟨i, env, o, -, -, hdo, hacts⟩ := h.acts_cases hstep
  · rw [hacts, hsame]
    exact .nil _
  · rw [hacts]
    exact .single hdo

/-- What a caller does in a step of its own is nothing, or one operation it intends. -/
theorem Sys.Reachable.opsOf_acts (h : s.Reachable clients) (hstep : s.step clients l = some s')
    (i : CallId) :
    (opsOf i (s.acts l s') = [] ∧ ((∀ env, l ≠ .exec i env) ∨ s'.pool = s.pool)) ∨
    ∃ env o, l = .exec i env ∧ o ∈ (s.calls i).intends ∧ s.pool.Does o s'.pool ∧
      opsOf i (s.acts l s') = [o] := by
  obtain ⟨hsame, hacts⟩ | ⟨j, env, o, rfl, ho, hdo, hacts⟩ := h.acts_cases hstep
  · rw [hacts]
    exact .inl ⟨rfl, .inr hsame⟩
  · rw [hacts]
    by_cases hij : i = j
    · subst hij
      exact .inr ⟨env, o, rfl, ho, hdo, opsOf_self [o]⟩
    · refine .inl ⟨opsOf_ne hij [o], .inl fun env' heq => ?_⟩
      cases heq
      exact hij rfl

end Step

/-! ### What a call does -/

/-- What a call does to the pool at most, in all: its own operation, once. -/
def Op.Performs : Op → List Pool.Op → Prop
  | .submit new, os => os = [] ∨ (∃ id, os = [.accept id new.faculty new.dedupKey]) ∨
    ∃ id key c, new.dedupKey = some key ∧ os = [.merge id new.faculty key c]
  | .change c id, os => os = [] ∨ os = [.advance id c.source c.target]
  | .process _, os => ∃ id,
    os <+: [.advance id .queued .claimed, .advance id .claimed .running,
      .advance id .running .completed, .dismiss id] ∨
    os <+: [.advance id .queued .claimed, .advance id .claimed .running,
      .advance id .running .failed]

/-- What a call did when it returned; an error means that nothing was done, where the call met no
fault. -/
def Op.Answers (clean : Bool) : (op : Op) → Except Error op.Result → List Pool.Op → Prop
  | .process cp, _, os => (Op.process cp).Performs os
  | .submit new, .ok (.created item), os => os = [.accept item.id new.faculty new.dedupKey]
  | .submit new, .ok (.merged id c), os =>
    ∃ key, new.dedupKey = some key ∧ os = [.merge id new.faculty key c]
  | .change c id, .ok _, os => os = [.advance id c.source c.target]
  | .submit new, .error _, os => (Op.submit new).Performs os ∧ (clean = true → os = [])
  | .change c id, .error _, os => (Op.change c id).Performs os ∧ (clean = true → os = [])

/-- What a submission has done in a phase. -/
def SubmitPhase.Made (new : NewWorkItem) (db : Db) (clean : Bool) (os : List Pool.Op) :
    SubmitPhase → Prop
  | .created id | .shown id =>
    (db.row id).isSome = true ∧ os = [.accept id new.faculty new.dedupKey]
  | .merged id c => ∃ key, new.dedupKey = some key ∧ os = [.merge id new.faculty key c]
  | .failed => (Op.submit new).Performs os ∧ (clean = true → os = [])
  | _ => os = []

/-- What an update call has done in a phase. -/
def ChangePhase.Made (c : Change) (id : WorkId) (db : Db) (clean : Bool) (os : List Pool.Op) :
    ChangePhase → Prop
  | .ready => os = []
  | .moved | .shown => (db.row id).isSome = true ∧ os = [.advance id c.source c.target]
  | .failed => (Op.change c id).Performs os ∧ (clean = true → os = [])

/-- What a `process_work` call has done in a phase. -/
def PlanePhase.Made (cp : ControlPlane) (os : List Pool.Op) : PlanePhase → Prop
  | .owning .claimed _ id => os = [.advance id .queued .claimed]
  | .owning _ _ id => os = [.advance id .queued .claimed, .advance id .claimed .running]
  | .completed _ id => os = [.advance id .queued .claimed, .advance id .claimed .running,
      .advance id .running .completed]
  | .closed => (Op.process cp).Performs os
  | _ => os = []

/-- What a call has done in a phase. -/
def Op.Made (db : Db) (clean : Bool) (os : List Pool.Op) : (op : Op) → op.Phase → Prop
  | .submit new, ph => SubmitPhase.Made new db clean os ph
  | .change c id, ph => ChangePhase.Made c id db clean os ph
  | .process cp, ph => PlanePhase.Made cp os ph

section Calls

variable {clients : Op → Bool} {s s' : Sys} {l : Label} {i : CallId} {env : Env} {clean : Bool}
  {os : List Pool.Op}

theorem Op.performs_nil (op : Op) : op.Performs [] := by
  cases op with
  | submit new => exact .inl rfl
  | change c id => exact .inl rfl
  | process cp => exact ⟨default, .inl List.nil_prefix⟩

theorem Op.Made.performs {op : Op} {ph : op.Phase} {db : Db} (h : op.Made db clean os ph) :
    op.Performs os := by
  have nil : ∀ {op : Op}, os = [] → op.Performs os := fun hos => hos ▸ Op.performs_nil _
  cases op with
  | submit new =>
    cases ph with
    | created id => exact .inr (.inl ⟨id, h.2⟩)
    | shown id => exact .inr (.inl ⟨id, h.2⟩)
    | merged id c =>
      obtain ⟨key, hk, hos⟩ := h
      exact .inr (.inr ⟨id, key, c, hk, hos⟩)
    | failed => exact h.1
    | _ => exact nil h
  | change c id =>
    cases ph with
    | ready => exact nil h
    | moved => exact .inr h.2
    | shown => exact .inr h.2
    | failed => exact h.1
  | process cp =>
    cases ph with
    | owning st m id =>
      have started : os = [.advance id .queued .claimed, .advance id .claimed .running] →
          (Op.process cp).Performs os := by
        rintro rfl
        exact ⟨id, .inl ⟨_, rfl⟩⟩
      cases st with
      | claimed =>
        cases h
        exact ⟨id, .inl ⟨_, rfl⟩⟩
      | running => exact started h
      | counted => exact started h
      | focused => exact started h
      | ran => exact started h
    | completed m id =>
      cases h
      exact ⟨id, .inl ⟨_, rfl⟩⟩
    | closed => exact h
    | _ => exact nil h

/-- Another caller's step changes nothing of what a call did. -/
theorem Op.Made.other {op : Op} {ph : op.Phase} (h : op.Made s.db clean os ph)
    (hrow : RowStep s l s') {clean' : Bool} (hclean : clean' = true → clean = true) :
    op.Made s'.db clean' os ph := by
  cases op with
  | submit new =>
    cases ph with
    | created id => exact ⟨hrow.isSome h.1, h.2⟩
    | shown id => exact ⟨hrow.isSome h.1, h.2⟩
    | failed => exact ⟨h.1, fun hc => h.2 (hclean hc)⟩
    | _ => exact h
  | change c id =>
    cases ph with
    | ready => exact h
    | moved => exact ⟨hrow.isSome h.1, h.2⟩
    | shown => exact ⟨hrow.isSome h.1, h.2⟩
    | failed => exact ⟨h.1, fun hc => h.2 (hclean hc)⟩
  | process cp => exact h

/-- What a call does in a step of its own that it does not intend. -/
theorem Sys.Reachable.opsOf_nil (h : s.Reachable clients)
    (hstep : s.step clients (.exec i env) = some s') (hi : (s.calls i).intends = []) :
    opsOf i (s.acts (.exec i env) s') = [] := by
  obtain ⟨hnil, -⟩ | ⟨env', o, -, ho, -, -⟩ := h.opsOf_acts hstep i
  · exact hnil
  · rw [hi] at ho
    cases ho

theorem Sys.opsOf_same (h : s'.pool = s.pool) : opsOf i (s.acts l s') = [] := by
  rw [Sys.acts_of_same h]
  rfl

theorem Sys.opsOf_does {o : Pool.Op} (ho : o ∈ (s.calls i).intends)
    (hdo : s.pool.Does o s'.pool) : opsOf i (s.acts (.exec i env) s') = [o] := by
  rw [Sys.acts_of_does ho hdo]
  exact opsOf_self [o]

theorem Sys.isSome_of_does {o : Pool.Op} (hdo : s.pool.Does o s'.pool) :
    (s'.db.row o.id).isSome = true := by
  obtain ⟨j, hj, -⟩ := Option.map_eq_some_iff.mp hdo.at_id.2
  obtain ⟨r, hr, -⟩ := Sys.exists_row_of_pool hj
  rw [hr]
  rfl

/-- A fault is no clean step. -/
theorem Env.not_clean (hf : env.fault.isSome = true) : ¬ (clean && env.fault.isNone) = true := by
  rw [Bool.and_eq_true, Option.isNone_iff_eq_none]
  rintro ⟨-, hnone⟩
  rw [hnone] at hf
  cases hf

/-- A statement that does nothing to the pool leaves nothing to account for. -/
theorem Lands.made_nil {new : NewWorkItem} {db : Db} {ph ph' : SubmitPhase}
    (h : Lands env ph ph') (hmade : ph.Made new db clean []) : ph'.Made new db clean [] := by
  obtain rfl | ⟨-, rfl⟩ := h
  · exact hmade
  · exact ⟨Op.performs_nil _, fun _ => rfl⟩

/-- A submission's own step keeps the account of what it did. -/
theorem Sys.Reachable.submit_made (h : s.Reachable clients)
    (hstep : s.step clients (.exec i env) = some s') {new : NewWorkItem}
    {p : Prog Eff (Except Error SubmitResult)} {ph ph' : SubmitPhase}
    (hi : s.calls i = .live ⟨.submit new, p, ph⟩) (hsub : SubmitStep new i env s.db ph ph' s'.db)
    (hmade : ph.Made new s.db clean os) :
    ph'.Made new s'.db (clean && env.fault.isNone) (os ++ opsOf i (s.acts (.exec i env) s')) := by
  have unchanged : s'.db = s.db → opsOf i (s.acts (.exec i env) s') = [] := fun hdb =>
    Sys.opsOf_same (Sys.sameWork_of_db hdb).pool
  have unintended : (s.calls i).intends = [] → opsOf i (s.acts (.exec i env) s') = [] :=
    h.opsOf_nil hstep
  generalize hdb : s'.db = db' at hsub
  cases hsub with
  | begin => rw [unchanged hdb, hmade]; rfl
  | name => rw [unchanged hdb, hmade]; rfl
  | clock id => rw [unchanged hdb, hmade]; rfl
  | conflict id hk hr => rw [unchanged hdb, hmade]; rfl
  | select id hk hr => rw [unchanged hdb, hmade]; rfl
  | notify id m => rw [unchanged hdb, hmade]; rfl
  | «show» id hr =>
    rw [unchanged hdb, List.append_nil]
    exact hmade
  | insert id hput fresh hland =>
    rw [unintended (by rw [hi]; rfl), hmade]
    exact hland.made_nil rfl
  | merge id c hput fresh hland =>
    rw [unintended (by rw [hi]; rfl), hmade]
    exact hland.made_nil rfl
  | send id hland =>
    rw [unintended (by rw [hi]; rfl), hmade]
    exact hland.made_nil rfl
  | record id m hr hput hland =>
    rw [unintended (by rw [hi]; rfl), hmade]
    exact hland.made_nil rfl
  | commitMerged id c hland =>
    obtain ⟨key, hk, hdo⟩ := h.merge_step hi hdb
    have hmem : .merge id new.faculty key c ∈ (s.calls i).intends := by simp [hi, Slot.intends, hk]
    rw [Sys.opsOf_does hmem hdo, hmade]
    obtain rfl | ⟨hf, rfl⟩ := hland
    · exact ⟨key, hk, rfl⟩
    · exact ⟨.inr (.inr ⟨id, key, c, hk, rfl⟩), fun hc => absurd hc (Env.not_clean hf)⟩
  | commitQueued id m hland =>
    have hdo := h.accept_step hi hdb
    have hmem : .accept id new.faculty new.dedupKey ∈ (s.calls i).intends := by
      rw [hi]
      exact List.mem_singleton_self _
    rw [Sys.opsOf_does hmem hdo, hmade]
    obtain rfl | ⟨hf, rfl⟩ := hland
    · exact ⟨hdb ▸ Sys.isSome_of_does hdo, rfl⟩
    · exact ⟨.inr (.inl ⟨id, rfl⟩), fun hc => absurd hc (Env.not_clean hf)⟩
  | fail why =>
    rw [unchanged hdb, List.append_nil]
    have hop : (Op.submit new).Made s.db clean os ph := hmade
    refine ⟨hop.performs, fun hc => ?_⟩
    have hfault : env.fault.isSome = true → os = [] := fun hf => absurd hc (Env.not_clean hf)
    cases ph with
    | created id =>
      obtain hf | hnone := why
      · exact hfault hf
      · have hrow := hmade.1
        rw [hnone] at hrow
        cases hrow
    | shown id => exact hfault why
    | merged id c => exact hfault why
    | failed => exact hmade.2 (Bool.and_eq_true_iff.mp hc).1
    | _ => exact hmade

/-- So does that of an update call. -/
theorem Sys.Reachable.change_made {c : Change} {id : WorkId}
    {p : Prog Eff (Except Error WorkItem)} {ph ph' : ChangePhase}
    (hi : s.calls i = .live ⟨.change c id, p, ph⟩) (hch : ChangeStep c id env s.db ph ph' s'.db)
    (hmade : ph.Made c id s.db clean os) :
    ph'.Made c id s'.db (clean && env.fault.isNone) (os ++ opsOf i (s.acts (.exec i env) s')) := by
  have unchanged : s'.db = s.db → opsOf i (s.acts (.exec i env) s') = [] := fun hdb =>
    Sys.opsOf_same (Sys.sameWork_of_db hdb).pool
  generalize hdb : s'.db = db' at hch
  cases hch with
  | clock => rw [unchanged hdb, hmade]; rfl
  | «show» hr =>
    rw [unchanged hdb, List.append_nil]
    exact hmade
  | fail why =>
    rw [unchanged hdb, List.append_nil]
    refine ⟨.inr hmade.2, fun hc => ?_⟩
    obtain hf | hnone := why
    · exact absurd hc (Env.not_clean hf)
    · have hrow := hmade.1
      rw [hnone] at hrow
      cases hrow
  | update hc hup =>
    cases hmade
    cases hup with
    | missed hne =>
      rw [unchanged hdb]
      exact ⟨.inl rfl, fun _ => rfl⟩
    | refused why =>
      rw [unchanged hdb]
      exact ⟨.inl rfl, fun _ => rfl⟩
    | @moved r r' now db' a hr hs happ hput ha =>
      have hdo := Sys.does_of_puts hc hr hs happ (hdb ▸ hput)
      have hmem : .advance id c.source c.target ∈ (s.calls i).intends := by
        rw [hi]
        exact List.mem_singleton_self _
      rw [Sys.opsOf_does hmem hdo]
      obtain rfl | ⟨hf, d, rfl⟩ := ha
      · exact ⟨hdb ▸ Sys.isSome_of_does hdo, rfl⟩
      · exact ⟨.inr rfl, fun hc => absurd hc (Env.not_clean hf)⟩

/-- The phase an update leads a `process_work` call to, and what the call has done then. -/
theorem PlanePhase.Issues.made {cp : ControlPlane} {ph : PlanePhase} {c : Change} {id : WorkId}
    (h : ph.Issues c id) (hmade : ph.Made cp os) (a : Except DbError ℕ) :
    (ph.afterUpdate c a).Made cp (os ++ [.advance id c.source c.target]) := by
  have closed : ∀ {x : List Pool.Op}, (Op.process cp).Performs x → ∀ {g}, g = PlanePhase.closed →
      g.Made cp x := fun hx _ hg => hg ▸ hx
  cases ph with
  | fetched m id' =>
    obtain ⟨rfl, rfl⟩ := h
    cases hmade
    cases a with
    | error d => exact closed ⟨id, .inl ⟨_, rfl⟩⟩ rfl
    | ok n =>
      by_cases hn : n = 0
      · exact closed ⟨id, .inl ⟨_, rfl⟩⟩ (if_pos hn)
      · rw [PlanePhase.afterUpdate, if_neg hn]
        rfl
  | owning st m id' =>
    cases st with
    | claimed =>
      obtain ⟨rfl, rfl⟩ := h
      cases hmade
      cases a with
      | error d => exact closed ⟨id, .inl ⟨_, rfl⟩⟩ rfl
      | ok n =>
        by_cases hn : n = 0
        · exact closed ⟨id, .inl ⟨_, rfl⟩⟩ (if_pos hn)
        · rw [PlanePhase.afterUpdate, if_neg hn]
          rfl
    | ran =>
      obtain ⟨⟨o, rfl⟩ | ⟨e, ms, rfl⟩, rfl⟩ := h
      · cases hmade
        cases a with
        | error d => exact closed ⟨id, .inl ⟨_, rfl⟩⟩ rfl
        | ok n =>
          by_cases hn : n = 0
          · exact closed ⟨id, .inl ⟨_, rfl⟩⟩ (if_pos hn)
          · rw [PlanePhase.afterUpdate, if_neg hn]
            rfl
      · cases hmade
        exact closed ⟨id, .inr ⟨[], rfl⟩⟩ (by cases a <;> rfl)
    | _ => exact h.elim
  | _ => exact h.elim

theorem PlanePhase.afterUpdate_missed (ph : PlanePhase) (c : Change) :
    ph.afterUpdate c (.ok 0) = .closed := by
  cases ph with
  | owning st m id => cases st <;> cases c <;> rfl
  | _ => rfl

theorem PlanePhase.afterUpdate_error (ph : PlanePhase) (c : Change) (d : DbError) :
    ph.afterUpdate c (.error d) = .closed := by
  cases ph with
  | owning st m id => cases st <;> cases c <;> rfl
  | _ => rfl

/-- So does that of a `process_work` call. -/
theorem Sys.Reachable.plane_made (h : s.Reachable clients) {cp : ControlPlane}
    {p : Prog Eff (Except Error Unit)} {ph ph' : PlanePhase}
    (hi : s.calls i = .live ⟨.process cp, p, ph⟩) (hpl : PlaneStep cp env s.world ph ph' s'.world)
    (hmade : ph.Made cp os) : ph'.Made cp (os ++ opsOf i (s.acts (.exec i env) s')) := by
  have unchanged : ∀ {w : World}, s'.world = w → w.db = s.db →
      opsOf i (s.acts (.exec i env) s') = [] := fun hw hdb =>
    Sys.opsOf_same (Sys.sameWork_of_db ((congrArg World.db hw).trans hdb)).pool
  have nil : (Op.process cp).Performs [] := Op.performs_nil _
  have hop : (Op.process cp).Made s.db true os ph := hmade
  have hperforms : (Op.process cp).Performs os := hop.performs
  generalize hw : s'.world = w' at hpl
  cases hpl with
  | passive ph dirs =>
    rw [unchanged hw rfl, List.append_nil]
    exact hmade
  | @read msg ph' hmem htxn hhid hland =>
    have hsame : s'.pool = s.pool := by
      refine Sys.SameWork.pool ⟨fun k => ?_, fun m k => Db.carries_of_seen ?_⟩
      · rw [Sys.db, hw]
        rfl
      · rw [Sys.db, hw]
        exact Db.seen_setHidden ..
    rw [Sys.opsOf_same hsame, hmade]
    obtain rfl | ⟨-, rfl⟩ := hland
    · obtain hclosed | ⟨m, id, hread⟩ := PlanePhase.afterRead_cases (some ⟨msg.msgId, msg.message⟩)
      · rw [hclosed]
        exact nil
      · rw [hread]
        rfl
    · exact nil
  | unread why =>
    rw [unchanged hw rfl, hmade]
    exact nil
  | fetch hr =>
    rw [unchanged hw rfl, hmade]
    split
    · rfl
    · exact nil
  | unfetched why =>
    rw [unchanged hw rfl, hmade]
    exact nil
  | count m id => rw [unchanged hw rfl, hmade]; rfl
  | focus m id => rw [unchanged hw rfl, hmade]; rfl
  | uncount m id => rw [unchanged hw rfl, hmade]; rfl
  | unarchived m id why =>
    rw [unchanged hw rfl, List.append_nil]
    exact hperforms
  | archive m id =>
    have hnext : s'.db = s.db.archiveMessage m := congrArg World.db hw
    obtain hsame | hdo := h.msgInv.archive_step hi hnext
    · rw [Sys.opsOf_same hsame, List.append_nil]
      exact hperforms
    · have hmem : .dismiss id ∈ (s.calls i).intends := by
        rw [hi]
        exact List.mem_singleton_self _
      rw [Sys.opsOf_does hmem hdo, hmade]
      exact ⟨id, .inl ⟨[], rfl⟩⟩
  | @update ph c id a db' hph hup =>
    have hdb : s'.db = db' := congrArg World.db hw
    cases hup with
    | missed hne =>
      rw [unchanged hw rfl, List.append_nil, ph.afterUpdate_missed]
      exact hperforms
    | refused why =>
      rw [unchanged hw rfl, List.append_nil, ph.afterUpdate_error]
      exact hperforms
    | moved hr hs happ hput ha =>
      have hdo := Sys.does_of_puts hph.valid hr hs happ (hdb ▸ hput)
      have hmem : .advance id c.source c.target ∈ (s.calls i).intends := by
        rw [hi]
        exact hph.mem_intends
      rw [Sys.opsOf_does hmem hdo]
      exact hph.made hmade a

/-! ### The account of a call -/

/-- What call `i` did along `ls`, by where it is after them. -/
def Slot.Account (ls : List Label) (db : Db) (i : CallId) (os : List Pool.Op) : Slot → Prop
  | .idle => os = [] ∧ ∀ op, .start i op ∉ ls
  | .live ⟨op, _, ph⟩ => (∀ op', .start i op' ∈ ls → op' = op) ∧
    op.Made db (ls.all (Sys.faultless i)) os ph
  | .ended => ∀ op, .start i op ∈ ls → op.Performs os

theorem Slot.Account.performs {x : Slot} {ls : List Label} {db : Db}
    (h : x.Account ls db i os) {op : Op} (hop : .start i op ∈ ls) : op.Performs os := by
  cases x with
  | idle => exact absurd hop (h.2 op)
  | ended => exact h op hop
  | live c =>
    obtain rfl := h.1 op hop
    exact h.2.performs

/-- The steps of others keep the account of a call. -/
theorem Slot.Account.other {x : Slot} {ls : List Label} (h : x.Account ls s.db i os)
    (hrow : RowStep s l s') (hl : l.caller ≠ some i) : x.Account (ls ++ [l]) s'.db i os := by
  have hmem : ∀ {op}, .start i op ∈ ls ++ [l] → .start i op ∈ ls := by
    intro op hop
    obtain hop | hop := List.mem_append.mp hop
    · exact hop
    · rw [← List.mem_singleton.mp hop] at hl
      exact absurd rfl hl
  cases x with
  | idle => exact ⟨h.1, fun op hop => h.2 op (hmem hop)⟩
  | ended => exact fun op hop => h op (hmem hop)
  | live c =>
    refine ⟨fun op hop => h.1 op (hmem hop), h.2.other hrow fun hclean => ?_⟩
    rw [List.all_append, Bool.and_eq_true] at hclean
    exact hclean.1

/-- Every step keeps the account of every call. -/
theorem Sys.Reachable.account_step (h : s.Reachable clients)
    (hstep : s.step clients l = some s') {ls : List Label}
    (hacc : (s.calls i).Account ls s.db i os) :
    (s'.calls i).Account (ls ++ [l]) s'.db i (os ++ opsOf i (s.acts l s')) := by
  have hsys := sysStep_of h.inv.1 h.inv.2 hstep
  have hrow := rowStep_of hsys h.inv.2
  by_cases hl : l.caller = some i
  · cases l with
    | expire m => cases hl
    | start j op =>
      cases hl
      obtain ⟨hidle, -, rfl⟩ := step_start hstep
      rw [hidle] at hacc
      obtain ⟨rfl, hno⟩ := hacc
      rw [Sys.begin_calls_self]
      refine ⟨fun op' hop' => ?_, ?_⟩
      · obtain hop' | hop' := List.mem_append.mp hop'
        · exact absurd hop' (hno op')
        · cases List.mem_singleton.mp hop'
          rfl
      · cases op <;> rfl
    | finish j =>
      cases hl
      obtain ⟨op, a, ph, hi, rfl⟩ := step_finish hstep
      rw [Sys.leave_calls_self]
      intro op' hop'
      have hop : .start i op' ∈ ls := by simpa using hop'
      exact (List.append_nil os).symm ▸ hacc.performs hop
    | crash j =>
      cases hl
      obtain ⟨c, hi, rfl⟩ := step_crash hstep
      rw [Sys.leave_calls_self]
      intro op' hop'
      have hop : .start i op' ∈ ls := by simpa using hop'
      exact (List.append_nil os).symm ▸ hacc.performs hop
    | exec j env =>
      cases hl
      have hmem : ∀ {op}, .start i op ∈ ls ++ [.exec i env] → .start i op ∈ ls := by
        intro op hop
        simpa using hop
      have hclean : (ls ++ [Label.exec i env]).all (Sys.faultless i) =
          (ls.all (Sys.faultless i) && env.fault.isNone) := by
        simp [Sys.faultless]
      cases hsys.slot i with
      | stay hi hl => exact absurd rfl (hl env)
      | start hi hi' =>
        obtain ⟨op, β, e, k, ph, hlive, -⟩ := step_exec hstep
        cases hi.symm.trans hlive
      | ended hi hl hdb => obtain hl | hl := hl <;> cases hl
      | submit hl hi hi' hsub =>
        cases hl
        rw [hi] at hacc
        rw [hi', Slot.Account, hclean]
        exact ⟨fun op hop => hacc.1 op (hmem hop), h.submit_made hstep hi hsub hacc.2⟩
      | change hl hi hi' hch =>
        cases hl
        rw [hi] at hacc
        rw [hi', Slot.Account, hclean]
        exact ⟨fun op hop => hacc.1 op (hmem hop), Sys.Reachable.change_made hi hch hacc.2⟩
      | process hl hi hi' hpl =>
        cases hl
        rw [hi] at hacc
        rw [hi', Slot.Account]
        exact ⟨fun op hop => hacc.1 op (hmem hop), h.plane_made hi hpl hacc.2⟩
  · have hnil : opsOf i (s.acts l s') = [] := by
      obtain ⟨hnil, -⟩ | ⟨env, o, rfl, -⟩ := h.opsOf_acts hstep i
      · exact hnil
      · exact absurd rfl hl
    rw [hnil, List.append_nil, step_calls_ne hstep hl]
    exact hacc.other hrow hl

theorem Sys.account_run {ls : List Label} (hrun : (system clients).Run Sys.initial ls s)
    (i : CallId) : (s.calls i).Account ls s.db i (opsOf i (Sys.linearized clients ls)) := by
  refine Lts.Run.accounts (C := fun ls s os => (s.calls i).Account ls s.db i os) i
    ⟨rfl, fun op => List.not_mem_nil⟩ ?_ hrun
  intro ls m l m' os (hrun : (system clients).Run Sys.initial ls m) hstep hacc
  exact Sys.Reachable.account_step ⟨ls, hrun⟩ hstep hacc

/-- What a call did when it returned. -/
theorem Op.Made.answers {op : Op} {ph : op.Phase} {db : Db} {a : Except Error op.Result}
    (h : op.Made db clean os ph) (hret : op.Returns ph a) : op.Answers clean a os := by
  cases op with
  | submit new =>
    cases ph with
    | shown id =>
      cases a with
      | error e => exact hret.elim
      | ok res =>
        cases res with
        | created item =>
          obtain rfl : item.id = id := hret
          exact h.2
        | merged id' c => exact hret.elim
    | merged id c =>
      cases a with
      | error e => exact hret.elim
      | ok res =>
        cases res with
        | created item => exact hret.elim
        | merged id' c' =>
          obtain ⟨rfl, rfl⟩ := hret
          exact h
    | failed =>
      cases a with
      | error e => exact h
      | ok res => exact hret.elim
    | _ => exact hret.elim
  | change c id =>
    cases ph with
    | shown =>
      cases a with
      | error e => exact hret.elim
      | ok item => exact h.2
    | ready =>
      cases a with
      | error e => exact ⟨.inl h, fun _ => h⟩
      | ok item => exact hret.elim
    | failed =>
      cases a with
      | error e => exact h
      | ok item => exact hret.elim
    | moved => exact hret.elim
  | process cp => exact Op.Made.performs h

/-- The operations of a run lead from the empty pool to the pool of its last state. -/
theorem Sys.pool_run {ls : List Label} (hrun : (system clients).Run Sys.initial ls s) :
    workPool.Run Pool.empty ((Sys.linearized clients ls).map Prod.snd) s.pool :=
  Lts.Run.linearizes (I := Sys.Reachable clients)
    (fun _ _ _ hs hstep => ⟨hs.next hstep, hs.pool_step hstep⟩) hrun (Lts.Reachable.refl _)

/-- What a call that returns did is what its answer says. -/
theorem Sys.answered {ls : List Label} (hrun : (system clients).Run Sys.initial ls s) {i : CallId}
    {op : Op} {a : Except Error op.Result} {ph : op.Phase}
    (hi : s.calls i = .live ⟨op, .ret a, ph⟩) :
    op.Answers (ls.all (Sys.faultless i)) a (opsOf i (Sys.linearized clients ls)) := by
  have hreach : s.Reachable clients := ⟨ls, hrun⟩
  have hacc := Sys.account_run hrun i
  rw [hi] at hacc
  exact hacc.2.answers (hreach.lawful i _ hi).2

/-- The store is linearizable to a pool of work. In every run of any of its users the pool the
database stands for is that of the operations done so far, each of them done at one step of the
call it is done for, and between two jobs accepted for one dedup key the first is finished. A call
does its own operation at most once; it has done it if it returns a result, and has done nothing
if it returns an error and met no fault. -/
theorem store_linearizable {ls : List Label} (hrun : (system clients).Run Sys.initial ls s) :
    workPool.Run Pool.empty ((Sys.linearized clients ls).map Prod.snd) s.pool ∧
    (∀ os₁ os₂ os₃ i i' id id' faculty key, Sys.linearized clients ls =
        os₁ ++ (i, .accept id faculty (some key)) ::
          (os₂ ++ (i', .accept id' faculty (some key)) :: os₃) →
      ∃ x ∈ os₂, x.2.Finishes id) ∧
    (∀ i op, .start i op ∈ ls → op.Performs (opsOf i (Sys.linearized clients ls))) ∧
    ∀ i op a ph, s.calls i = .live ⟨op, .ret a, ph⟩ →
      op.Answers (ls.all (Sys.faultless i)) a (opsOf i (Sys.linearized clients ls)) := by
  refine ⟨Sys.pool_run hrun, ?_, fun i op hop => (Sys.account_run hrun i).performs hop,
    fun i op a ph hi => Sys.answered hrun hi⟩
  intro os₁ os₂ os₃ i i' id id' faculty key hsplit
  have hlin := Sys.pool_run hrun
  rw [hsplit] at hlin
  simp only [List.map_append, List.map_cons] at hlin
  obtain ⟨o, ho, hfin⟩ := Pool.accepts_apart hlin
  obtain ⟨x, hx, rfl⟩ := List.mem_map.mp ho
  exact ⟨x, hx, hfin⟩

end Calls

/-- Two submissions of one dedup key, as operations of the pool. -/
theorem store_linearizable_merged :
    Sys.linearized anyone mergedRun = [(0, .accept (.ofNat 1) "social" (some "k")),
      (1, .merge (.ofNat 2) "social" "k" (.ofNat 1))] ∧
    workPool.Run Pool.empty ((Sys.linearized anyone mergedRun).map Prod.snd)
      ((system anyone).replayed Sys.initial mergedRun).pool :=
  ⟨rfl, (store_linearizable (Lts.run_replayed rfl)).1⟩

end Animus
