import Animus.System.Redelivery

/-!
# Dedup submissions

A submission with a dedup key looks for a conflict, then for the row it
conflicts with, then commits; each statement sees what is committed by then.
It returns `Created` or `Merged` unless that row finishes in between.

## Main definitions

- `Sys.faultless`, `Slot.freshId`: no infrastructure failure, no id drawn twice
- `Sys.canonicalStays`: the row a submission conflicts with is there for its
  lookup, and does not finish before its commit
- `Sys.OnCourse`: how far a submission is whose run meets these

## Main results

- `dedup_submission_race_free`
- `dedup_submission_races`: a submission whose canonical row is cancelled
-/

namespace Animus

open Effect

/-- Is there a committed active row of the faculty and dedup key of a submission? -/
def Db.hasActive (db : Db) (new : NewWorkItem) : Bool :=
  db.table.rows.any fun v => v.txn = none && (v.row.faculty = new.faculty &&
    v.row.dedupKey = new.dedupKey && !v.row.state.isTerminal)

/-- Has a row reached a terminal state? -/
def Sys.isTerminal (s : Sys) (id : WorkId) : Bool := (s.rowState id).any State.isTerminal

/-- Does a step move a row to a terminal state? -/
def Sys.finishes (clients : Op → Bool) (s : Sys) (l : Label) (id : WorkId) : Bool :=
  !s.isTerminal id && (s.step clients l).any fun s' => s'.isTerminal id

/-- Call `i` neither crashes nor meets a fault of the database. -/
def Sys.faultless (i : CallId) : Label → Bool
  | .exec j env => j ≠ i || env.fault.isNone
  | .crash j => j ≠ i
  | _ => true

/-- The id a submission drew is unused until its row is inserted. -/
def Slot.freshId (x : Slot) (db : Db) : Bool :=
  match x with
  | .live ⟨.submit _, _, .named id⟩ | .live ⟨.submit _, _, .canonical id _⟩ =>
    (db.table.find id).isNone
  | _ => true

/-- The lookup of call `i` finds an active row, and from there to its commit the row it found
does not finish. -/
def Sys.canonicalStays (clients : Op → Bool) (i : CallId) (s : Sys) (l : Label) : Bool :=
  match s.calls i with
  | .live ⟨.submit new, _, .conflicted _⟩ => l.caller ≠ some i || s.db.hasActive new
  | .live ⟨.submit _, _, .canonical _ c⟩ | .live ⟨.submit _, _, .merging _ c⟩ =>
    !s.finishes clients l c
  | _ => true

theorem Db.hasActive_iff {db : Db} {new : NewWorkItem} {key : String}
    (hk : new.dedupKey = some key) :
    db.hasActive new = true ↔ ∃ r, db.HoldsActive new.faculty key none r := by
  simp only [Db.hasActive, List.any_eq_true, Bool.and_eq_true, decide_eq_true_eq,
    Bool.not_eq_true', hk]
  constructor
  · rintro ⟨v, hv, htxn, ⟨hf, hd⟩, hs⟩
    have hrow := Db.rowOf_of_mem hv
    rw [htxn] at hrow
    exact ⟨v.row, hrow, hf, hd, hs⟩
  · rintro ⟨r, hr, hf, hd, hs⟩
    exact ⟨⟨r, none⟩, (Db.rowOf_eq_some.mp hr).1, rfl, ⟨hf, hd⟩, hs⟩

/-- Rows that refer to committed rows only refer to rows their transaction sees. -/
theorem Db.references_of {db : Db} {conn : Option CallId} {r : Row}
    (hp : ∀ k, r.parentId = some k → (db.row k).isSome = true)
    (hm : ∀ k, r.mergedInto = some k → (db.row k).isSome = true) : db.references conn r = true := by
  have seen : ∀ k, (db.row k).isSome = true → (decide (k = r.id) ||
      db.table.rows.any fun v => visible conn v && v.row.id = k) = true := by
    intro k hk
    obtain ⟨x, hx⟩ := Option.isSome_iff_exists.mp hk
    rw [Bool.or_eq_true, List.any_eq_true]
    exact .inr ⟨⟨x, none⟩, (Db.rowOf_eq_some.mp hx).1, by simp [visible, Db.rowOf_id hx]⟩
  rw [Db.references, List.all_eq_true]
  intro k hk
  obtain hk | hk := List.mem_append.mp hk
  · exact seen k (hp k (Option.mem_toList.mp hk))
  · exact seen k (hm k (Option.mem_toList.mp hk))

section Steps

variable {clients : Op → Bool} {s s' : Sys} {i : CallId} {new : NewWorkItem} {key : String}

/-- A committed active row of a faculty and dedup key, by its id. -/
def Sys.Active (s : Sys) (faculty key : String) (c : WorkId) : Prop :=
  ∃ r, s.db.row c = some r ∧ r.faculty = faculty ∧ r.dedupKey = some key ∧
    r.state.isTerminal = false

/-- The step commits a new queued row. -/
def Sys.Queues (id : WorkId) (m m' : Sys) : Prop :=
  m.db.row id = none ∧ m'.rowState id = some .queued

/-- The step commits a new row merged into a row that is active then. -/
def Sys.Merges (faculty key : String) (id c : WorkId) (m m' : Sys) : Prop :=
  m.db.row id = none ∧ (∃ r, m'.db.row id = some r ∧ r.state = .merged ∧ r.mergedInto = some c) ∧
    m'.Active faculty key c

/-- How far a submission is, `ls` after `s`. -/
def SubmitPhase.OnCourse (clients : Op → Bool) (faculty key : String) (s : Sys) (ls : List Label)
    (m : Sys) : SubmitPhase → Prop
  | .canonical _ c | .merging _ c => m.Active faculty key c
  | .created id | .shown id =>
    (m.db.row id).isSome = true ∧ (system clients).HasStep s ls (Sys.Queues id)
  | .merged id c => (system clients).HasStep s ls (Sys.Merges faculty key id c)
  | .failed => False
  | _ => True

/-- Call `i` submits `new`, whose parent exists, and is on course. -/
def Sys.OnCourse (clients : Op → Bool) (new : NewWorkItem) (key : String) (i : CallId) (s : Sys)
    (ls : List Label) (m : Sys) : Prop :=
  m.Reachable clients ∧ (∀ k, new.parentId = some k → (m.db.row k).isSome = true) ∧
    ∀ p ph, m.calls i = .live ⟨.submit new, p, ph⟩ →
      ph.OnCourse clients new.faculty key s ls m

theorem RowStep.isSome {l : Label} (h : RowStep s l s') {id : WorkId}
    (hr : (s.db.row id).isSome = true) : (s'.db.row id).isSome = true := by
  obtain ⟨r, hr⟩ := Option.isSome_iff_exists.mp hr
  obtain ⟨r', hr', -⟩ := h.evolves hr
  rw [hr']
  rfl

theorem Row.Evolves.dedupKey {r r' : Row} (h : r.Evolves r') : r'.dedupKey = r.dedupKey := by
  obtain rfl | ⟨c, jsonb, now, -, -, happ⟩ := h
  · rfl
  · exact (c.apply_identity happ).2.2.1

/-- An active row stays active in a step that does not finish it. -/
theorem Sys.Active.step {l : Label} {faculty : String} {c : WorkId} (h : s.Active faculty key c)
    (hrow : RowStep s l s') (hstep : s.step clients l = some s')
    (hstays : s.finishes clients l c = false) : s'.Active faculty key c := by
  obtain ⟨r, hr, hf, hd, hs⟩ := h
  obtain ⟨r', hr', hev⟩ := hrow.evolves hr
  refine ⟨r', hr', hev.faculty.trans hf, hev.dedupKey.trans hd, ?_⟩
  simpa [Sys.finishes, Sys.isTerminal, Sys.rowState, hr, hr', hs, hstep] using hstays

/-- Another call's step keeps a submission on course. -/
theorem SubmitPhase.OnCourse.other {ls : List Label} {m m' : Sys} {l : Label} {faculty : String}
    {ph : SubmitPhase} (h : ph.OnCourse clients faculty key s ls m) (hrow : RowStep m l m')
    (hstep : m.step clients l = some m')
    (hstays : ∀ c, ph.target = some c → m.finishes clients l c = false) :
    ph.OnCourse clients faculty key s (ls ++ [l]) m' := by
  cases ph with
  | canonical id c => exact Sys.Active.step h hrow hstep (hstays c rfl)
  | merging id c => exact Sys.Active.step h hrow hstep (hstays c rfl)
  | created id => exact ⟨hrow.isSome h.1, h.2.snoc l⟩
  | shown id => exact ⟨hrow.isSome h.1, h.2.snoc l⟩
  | merged id c => exact Lts.HasStep.snoc h l
  | failed => exact h
  | _ => trivial

theorem Lands.of_faultless {env : Env} {target ph' : SubmitPhase} (h : Lands env target ph')
    (hf : env.fault = none) : ph' = target := by
  obtain h | ⟨hf', -⟩ := h
  · exact h
  · rw [hf] at hf'
    cases hf'

/-- With a fresh id, its parent in place and no fault, a submission on course does not fail. -/
theorem SubmitPhase.OnCourse.not_fails {ls : List Label} {m : Sys} {env : Env} {ph : SubmitPhase}
    (h : ph.OnCourse clients new.faculty key s ls m) (hk : new.dedupKey = some key)
    (hf : env.fault = none) (hparent : ∀ k, new.parentId = some k → (m.db.row k).isSome = true)
    {p : Prog Eff (Except Error SubmitResult)}
    (hfresh : (Slot.live ⟨.submit new, p, ph⟩).freshId m.db = true)
    (hactive : ∀ id, ph = .conflicted id → m.db.hasActive new = true) :
    ¬ SubmitFails new i env m.db ph := by
  have nofault : ¬ env.fault.isSome = true := by simp [hf]
  intro why
  cases ph with
  | named id =>
    obtain why | ⟨now, e, herr, hor⟩ := why
    · exact nofault why
    -- the id is new, the parent is there and no active row conflicts: the insert goes through
    · have hconf := hor.resolve_left (by simp [hk])
      obtain ⟨db', hok⟩ := Db.insertRow_isOk (some i) (r := new.row env.chance.jsonb id now)
        (Db.rowOf_eq_none.mpr (Option.isNone_iff_eq_none.mp hfresh)) hconf
        (Db.references_of hparent fun k hk => by cases hk)
      rw [hok] at herr
      cases herr
  | conflicted id =>
    obtain why | ⟨key', hk', hnone⟩ := why
    · exact nofault why
    · exact hnone ((Db.hasActive_iff hk').mp (hactive id rfl))
  | canonical id c =>
    obtain why | ⟨now, e, herr⟩ := why
    · exact nofault why
    · obtain ⟨rc, hrc, -⟩ := h
      obtain ⟨db', hok⟩ :=
        Db.insertRow_isOk (some i) (r := new.mergedRow env.chance.jsonb id c now)
        (Db.rowOf_eq_none.mpr (Option.isNone_iff_eq_none.mp hfresh)) (Db.conflicts_eq_false rfl)
        (Db.references_of hparent fun k hk => by cases hk; rw [hrc]; rfl)
      rw [hok] at herr
      cases herr
  | created id =>
    obtain why | hnone := why
    · exact nofault why
    · rw [SubmitPhase.OnCourse, hnone] at h
      cases h.1
  | _ => exact nofault why

/-- Its own steps keep a submission on course. -/
theorem SubmitPhase.OnCourse.own {ls : List Label} {m m' : Sys} {env : Env} {ph ph' : SubmitPhase}
    {p : Prog Eff (Except Error SubmitResult)}
    (h : ph.OnCourse clients new.faculty key s ls m) (hk : new.dedupKey = some key)
    (hsub : SubmitStep new i env m.db ph ph' m'.db) (hrun : (system clients).Run s ls m)
    (hm : m.Reachable clients) (hi : m.calls i = .live ⟨.submit new, p, ph⟩)
    (hstep : m.step clients (.exec i env) = some m') (hf : env.fault = none)
    (hnot : ¬ SubmitFails new i env m.db ph) :
    ph'.OnCourse clients new.faculty key s (ls ++ [.exec i env]) m' := by
  have hrow := hm.rowStep hstep
  have htx := hm.inv.2
  generalize hdb : m'.db = db' at hsub
  cases hsub with
  | insert id hput fresh hland => cases hland.of_faultless hf; trivial
  | select id hk' hr =>
    obtain ⟨hrow', hfac, hd, hs⟩ := hr
    rw [hk] at hk'
    cases hk'
    exact ⟨_, by rw [hdb]; exact hrow', hfac, hd, hs⟩
  | merge id c hput fresh hland =>
    cases hland.of_faultless hf
    obtain ⟨rc, hrc, hrest⟩ := h
    exact ⟨rc, by rw [hdb, hput.row_some, hrc], hrest⟩
  | send id hland => cases hland.of_faultless hf; trivial
  | record id k hr hput hland => cases hland.of_faultless hf; trivial
  | commitMerged id c hland =>
    cases hland.of_faultless hf
    refine Lts.HasStep.last hrun hstep ?_
    have hw : ∀ k r, m.db.rowOf (some i) k = some r →
        (SubmitPhase.merging id c).Writes new k r := htx.written hi
    obtain ⟨r, hr⟩ := htx.pending i new p _ id hi rfl
    obtain ⟨-, jsonb, now, rfl⟩ := hw id r hr
    -- the commit makes this row visible and no other; the canonical row is not touched
    obtain ⟨hnone, hcommit⟩ := Db.row_commit_of hr fun k r' hr' => (hw k r' hr').1
    obtain ⟨rc, hrc, hrest⟩ := h
    have hne : c ≠ id := by
      rintro rfl
      cases hnone.symm.trans hrc
    exact ⟨hnone, ⟨_, by rw [hdb, hcommit, if_pos rfl], rfl, rfl⟩,
      rc, by rw [hdb, hcommit, if_neg hne, hrc], hrest⟩
  | commitQueued id k hland =>
    cases hland.of_faultless hf
    obtain ⟨jsonb, now, t, hcommit⟩ := htx.row_commit hi
    have hnone : m.db.row id = none := by
      obtain ⟨r, hr⟩ := htx.pending i new p _ id hi rfl
      by_contra hne
      obtain ⟨x, hx⟩ := Option.ne_none_iff_exists'.mp hne
      cases (Db.rowOf_unique hr hx).1
    refine ⟨by rw [hdb, hcommit]; rfl, Lts.HasStep.last hrun hstep ⟨hnone, ?_⟩⟩
    rw [Sys.rowState, hdb, hcommit]
    rfl
  | «show» id hr => exact ⟨hrow.isSome h.1, h.2.snoc _⟩
  | fail why => exact absurd why hnot
  | _ => trivial

/-- What one step of a run is to meet for call `i` to be race-free. -/
def Sys.raceFree (clients : Op → Bool) (i : CallId) (s : Sys) (l : Label) : Bool :=
  Sys.faultless i l && (s.calls i).freshId s.db && s.canonicalStays clients i l

theorem Sys.OnCourse.step {ls : List Label} {m m' : Sys} {l : Label}
    (h : Sys.OnCourse clients new key i s ls m) (hk : new.dedupKey = some key)
    (hrun : (system clients).Run s ls m) (hP : m.raceFree clients i l = true)
    (hstep : m.step clients l = some m') (hlive : m.calls i ≠ .idle) :
    Sys.OnCourse clients new key i s (ls ++ [l]) m' := by
  obtain ⟨hm, hparent, hph⟩ := h
  simp only [Sys.raceFree, Bool.and_eq_true] at hP
  obtain ⟨⟨hfaultless, hfresh⟩, hstays⟩ := hP
  have hsys := sysStep_of hm.inv.1 hm.inv.2 hstep
  have hrow := rowStep_of hsys hm.inv.2
  refine ⟨hm.next hstep, fun k hk => hrow.isSome (hparent k hk), fun p ph hi' => ?_⟩
  -- a step of another call, which leaves the canonical row active, or one of its own
  obtain ⟨hi, hl⟩ | ⟨hidle, -⟩ | ⟨env, p₀, ph₀, rfl, hi, hsub⟩ := hsys.submitting hi'
  · refine (hph p ph hi).other hrow hstep fun c hc => ?_
    rw [Sys.canonicalStays, hi] at hstays
    cases ph with
    | canonical id c' => cases hc; simpa using hstays
    | merging id c' => cases hc; simpa using hstays
    | _ => cases hc
  · exact absurd hidle hlive
  · have hf : env.fault = none := by simpa [Sys.faultless] using hfaultless
    have hon := hph p₀ ph₀ hi
    rw [hi] at hfresh
    refine hon.own hk hsub hrun hm hi hstep hf (hon.not_fails hk hf hparent hfresh ?_)
    rintro id rfl
    simpa [Sys.canonicalStays, hi, Label.caller] using hstays

/-- A call that is not idle stays so. -/
theorem SysStep.not_idle {l : Label} (h : SysStep clients s l s') (hi : s.calls i ≠ .idle) :
    s'.calls i ≠ .idle := by
  cases h.slot i with
  | stay hsame hl => rwa [hsame]
  | start hidle hi' => exact absurd hidle hi
  | ended hended => rw [hended]; simp
  | submit hl hi₀ hi' => rw [hi']; simp
  | change hl hi₀ hi' => rw [hi']; simp
  | process hl hi₀ hi' => rw [hi']; simp

/-- A submission with a dedup key, whatever other clients do: without a failure of the database,
with a fresh id, its parent in place, an active row there for its lookup, and that row not finished
before its commit, it returns `Created` with a row it committed as queued, or `Merged` into a row of
the same faculty and key that is active when the merged row is committed. -/
theorem dedup_submission_race_free (h : s.Reachable clients) (hk : new.dedupKey = some key)
    (hparent : ∀ k, new.parentId = some k → (s.db.row k).isSome = true)
    (hi : s.calls i = .live ⟨.submit new, (submitWork new).run, .start⟩) {ls : List Label}
    (hrun : (system clients).Run s ls s')
    (halong : (system clients).along (Sys.raceFree clients i) s ls = true)
    {a : Except Error SubmitResult} {ph : SubmitPhase}
    (hret : s'.calls i = .live ⟨.submit new, .ret a, ph⟩) :
    (∃ item, a = .ok (.created item) ∧ (system clients).HasStep s ls (Sys.Queues item.id)) ∨
    ∃ newId c, a = .ok (.merged newId c) ∧
      (system clients).HasStep s ls (Sys.Merges new.faculty key newId c) := by
  have hcourse : s'.calls i ≠ .idle ∧ Sys.OnCourse clients new key i s ls s' := by
    refine Lts.Run.along_induction
      (I := fun xs m => m.calls i ≠ .idle ∧ Sys.OnCourse clients new key i s xs m)
      ⟨by rw [hi]; simp, h, hparent, fun p ph hi' => ?_⟩ ?_ hrun halong
    · cases hi.symm.trans hi'
      trivial
    · intro xs l m m' hxs hI hP hstep
      have hsys := sysStep_of hI.2.1.inv.1 hI.2.1.inv.2 hstep
      exact ⟨hsys.not_idle hI.1, hI.2.step hk hxs hP hstep hI.1⟩
  have hon := hcourse.2.2.2 _ _ hret
  have hreturns : ph.Returns a := ((h.later hrun).lawful i _ hret).2
  cases ph with
  | shown id =>
    cases a with
    | error e => exact hreturns.elim
    | ok res =>
      cases res with
      | created item =>
        cases hreturns
        exact .inl ⟨item, rfl, hon.2⟩
      | merged newId c => exact hreturns.elim
  | merged id c =>
    cases a with
    | error e => exact hreturns.elim
    | ok res =>
      cases res with
      | created item => exact hreturns.elim
      | merged newId c' =>
        obtain ⟨rfl, rfl⟩ := hreturns
        exact .inr ⟨newId, c', rfl, hon⟩
  | failed => exact hon.elim
  | _ => exact hreturns.elim

end Steps

/-! ### Samples -/

/-- A submission, and the start of another of the same dedup key. -/
def resubmitted : Sys := (system storeClients).replayed Sys.initial
  (Label.alone 0 (.submit sampleItem) { uuid := .ofNat 1 } 9 ++ [.start 1 (.submit sampleItem)])

/-- The second submission, alone: it is merged. -/
def mergeTail : List Label := List.replicate 7 (.exec 1 { uuid := .ofNat 2 })

theorem dedup_submission_race_free_merged : (system storeClients).HasStep resubmitted mergeTail
    (Sys.Merges "social" "k" (.ofNat 2) (.ofNat 1)) := by
  have hret : ((system storeClients).replayed resubmitted mergeTail).calls 1 = .live
    ⟨.submit sampleItem, .ret (.ok (.merged (.ofNat 2) (.ofNat 1))), .merged _ _⟩ := rfl
  obtain ⟨item, hitem, -⟩ | ⟨newId, c, hmerged, hstep⟩ :=
    dedup_submission_race_free ⟨_, Lts.run_replayed rfl⟩ rfl (fun _ h => by cases h) rfl
      (Lts.run_replayed rfl) rfl hret
  · cases hitem
  · cases hmerged
    exact hstep

/-- An operator cancels the first item. -/
def cancel : List Label := Label.alone 2 (.change (.transition .queued .dead) (.ofNat 1)) {} 3

/-- The second submission, the first item cancelled between its insert and its lookup. -/
def cancelledTail : List Label :=
  List.replicate 4 (.exec 1 { uuid := .ofNat 2 }) ++ cancel ++ [.exec 1 { uuid := .ofNat 2 }]

/-- The same, the first item cancelled just before the commit. -/
def lateTail : List Label :=
  List.replicate 6 (.exec 1 { uuid := .ofNat 2 }) ++ cancel ++ [.exec 1 { uuid := .ofNat 2 }]

/-- Without its row staying active, a submission may fail, or be merged into finished work. -/
theorem dedup_submission_races :
    (¬ ∀ (s s' : Sys) (i : CallId) (new : NewWorkItem) (key : String) (ls : List Label)
      (a : Except Error SubmitResult) (ph : SubmitPhase), s.Reachable storeClients →
      new.dedupKey = some key → (∀ k, new.parentId = some k → (s.db.row k).isSome = true) →
      s.calls i = .live ⟨.submit new, (submitWork new).run, .start⟩ →
      (system storeClients).Run s ls s' →
      (system storeClients).along
        (fun s l => Sys.faultless i l && (s.calls i).freshId s.db) s ls = true →
      s'.calls i = .live ⟨.submit new, .ret a, ph⟩ →
      (∃ item, a = .ok (.created item) ∧
        (system storeClients).HasStep s ls (Sys.Queues item.id)) ∨
      ∃ newId c, a = .ok (.merged newId c) ∧
        (system storeClients).HasStep s ls (Sys.Merges new.faculty key newId c)) ∧
    ∃ ph, ((system storeClients).replayed resubmitted lateTail).calls 1 =
        .live ⟨.submit sampleItem, .ret (.ok (.merged (.ofNat 2) (.ofNat 1))), ph⟩ ∧
      ((system storeClients).replayed resubmitted lateTail).rowState (.ofNat 1) = some .dead := by
  refine ⟨fun h => ?_, _, rfl, rfl⟩
  have hres := h resubmitted ((system storeClients).replayed resubmitted cancelledTail) 1 sampleItem
    "k" cancelledTail (.error (.database .rowNotFound)) .failed ⟨_, Lts.run_replayed rfl⟩ rfl
    (fun _ h => by cases h) rfl (Lts.run_replayed rfl) rfl rfl
  obtain ⟨item, hitem, -⟩ | ⟨newId, c, hmerged, -⟩ := hres
  · cases hitem
  · cases hmerged

end Animus
