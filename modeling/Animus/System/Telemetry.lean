import Animus.System.Once
import Animus.System.Trace

/-!
# Recorded transitions

Before each update of its work item a `process_work` call records the
transition the update is to make. The records of a run against the transitions
its rows really made.

## Main definitions

- `Telling`: what a call has recorded and not yet tried
- `Sys.recorded`, `Sys.committed`: the transitions a run recorded, and those it made
- `Slot.announced`: the transition a call makes next
- `Change.lands`: an update takes effect
- `Sys.loses`: the steps after which a recorded transition is never made
- `workers`: submitters and control planes

## Main results

- `processWork_telling`: each update follows the record of its transition
- `recorded_each_iff`: the account of every call, whatever the clients
- `recorded_transitions_iff`
-/

namespace Animus

open Effect Effect.Protocol

/-! ### What a call tells -/

/-- What a `process_work` call has recorded and not yet tried. -/
inductive Telling
  | quiet
  | told (id : WorkId) (source target : String)
  /-- It has looked at the clock: the update is next. -/
  | timed (id : WorkId) (source target : String)

def tellingAllowed : {β : Type} → Telling → Eff β → Prop
  | _, .quiet, .utcNow => False
  | _, .quiet, .pool (.change _ _ _) => False
  | _, .quiet, _ => True
  | _, .told _ _ _, .utcNow => True
  | _, .timed id source target, .pool (.change c id' _) =>
    id' = id ∧ c.source.toText = source ∧ c.target.toText = target ∧
      c.source.canTransitionTo c.target = true
  | _, _, _ => False

def tellingNext : {β : Type} → Telling → Eff β → β → Telling
  | _, .quiet, .recordStateTransition id source target, _ => .told id source target
  | _, .told id source target, .utcNow, _ => .timed id source target
  | _, .timed _ _ _, .pool (.change _ _ _), _ => .quiet
  | _, g, _, _ => g

def tellingProtocol : Protocol Eff Telling where
  answers := Eff.answers
  allowed := tellingAllowed
  next := tellingNext

/-- A call returns with nothing recorded that it has not tried. -/
def Telling.Returns {α : Type} (g : Telling) (_ : α) : Prop := g = .quiet

/-- Effects that record nothing and belong to no update. -/
def Eff.untold : {β : Type} → Eff β → Bool
  | _, .utcNow | _, .recordStateTransition _ _ _ | _, .pool (.change _ _ _) => false
  | _, _ => true

section Calls

variable {β : Type}

theorem telling_idle {e : Eff β} (he : e.untold = true) : Idle tellingProtocol .quiet e := by
  cases e with
  | pool q => cases q <;> first | exact ⟨trivial, fun _ => rfl⟩ | cases he
  | _ => first | exact ⟨trivial, fun _ => rfl⟩ | cases he

theorem telling_rests : Rests tellingProtocol .quiet := by
  intro β e he
  cases e <;> first | exact telling_idle rfl | cases he

theorem getWorkItem_telling (id : WorkId) :
    tellingProtocol.ObeysE (fun g _ => g = .quiet) Telling.Returns .quiet (getWorkItem id) :=
  getWorkItem_obeys (fun _ hr => hr) trivial (fun _ _ _ _ => rfl) (fun _ _ => rfl) fun _ _ _ => rfl

/-- A recorded transition is tried at once. -/
theorem casUpdate_telling (c : Change) (id : WorkId)
    (hc : c.source.canTransitionTo c.target = true) :
    tellingProtocol.ObeysE (fun g _ => g = .quiet) Telling.Returns
      (.told id c.source.toText c.target.toText) (casUpdate c id) := by
  unfold casUpdate
  refine ObeysE.bind (Q := fun g _ => g = .told id c.source.toText c.target.toText)
    (validateTransition_obeys (fun _ => rfl) fun hbad => ?_) ?_
  · rw [hc] at hbad
    cases hbad
  rintro _ - rfl
  refine .perform_bind trivial fun now _ => ?_
  refine .attempt_bind ⟨rfl, rfl, rfl, hc⟩ (fun n _ => ?_) fun _ _ => rfl
  split
  · exact .throw rfl
  · exact getWorkItem_telling id

theorem create_telling (base : String) (item : WorkItem) :
    tellingProtocol.ObeysE (fun g _ => g = .quiet) Telling.Returns .quiet
      (Focus.create base item) := by
  unfold Focus.create
  refine (telling_idle rfl).perform_bind fun id => ?_
  refine (telling_idle rfl).attempt_bind (fun _ => ?_) fun _ => rfl
  refine (telling_idle rfl).attempt_bind (fun _ => ?_) fun _ => rfl
  refine (telling_idle rfl).attempt_bind (fun _ => ?_) fun _ => rfl
  exact .pure rfl

theorem retire_telling (msg : PgmqMessage) (id : WorkId) (result : FocusResult) :
    tellingProtocol.ObeysE (fun g _ => g = .quiet) Telling.Returns .quiet
      (retire msg id result) := by
  cases result with
  | completed data ms =>
    refine .perform_bind trivial fun _ _ => ?_
    refine ObeysE.bind (casUpdate_telling (.complete _) id rfl) ?_
    rintro _ item rfl
    exact .attempt trivial (fun _ _ => rfl) fun _ _ => rfl
  | failed phase error ms =>
    refine .perform_bind trivial fun _ _ => ?_
    refine ObeysE.bind (casUpdate_telling (.fail _ _) id rfl) ?_
    rintro _ item rfl
    exact .pure rfl

theorem runWork_telling (cp : ControlPlane) (msg : PgmqMessage) (id : WorkId) (item : WorkItem)
    (faculty : FacultyMeta) :
    tellingProtocol.ObeysE (fun g _ => g = .quiet) Telling.Returns .quiet
      (runWork cp msg id item faculty) := by
  unfold runWork
  refine .perform_bind trivial fun _ _ => ?_
  refine ObeysE.bind (casUpdate_telling (.transition .queued .claimed) id rfl) ?_
  rintro _ _ rfl
  refine .perform_bind trivial fun _ _ => ?_
  refine ObeysE.bind (casUpdate_telling (.transition .claimed .running) id rfl) ?_
  rintro _ _ rfl
  refine (telling_idle rfl).perform_bind fun _ => ?_
  refine ObeysE.bind (create_telling _ item) ?_
  rintro _ focus rfl
  refine ObeysE.bind (.lift (run_rests telling_rests focus faculty trivial rfl)) ?_
  rintro _ result rfl
  refine (telling_idle rfl).perform_bind fun _ => ?_
  refine ObeysE.bind (retire_telling msg id result) ?_
  rintro _ _ rfl
  refine ObeysE.bind (Q := fun g _ => g = .quiet) (.lift ?_) fun _ _ h => .pure h
  exact (telling_idle rfl).eff fun _ => rfl

/-- Each update of a call follows the record of its transition, and each record is followed by its
update. -/
theorem processWork_telling (cp : ControlPlane) :
    tellingProtocol.Obeys Telling.Returns .quiet (processWork cp).run := by
  have h : tellingProtocol.ObeysE (fun g _ => g = .quiet) Telling.Returns .quiet
      (processWork cp) := by
    unfold processWork
    refine (telling_idle rfl).perform_bind fun active => ?_
    split
    · exact .pure rfl
    refine (telling_idle rfl).attempt_bind (fun msg => ?_) fun _ => rfl
    cases msg with
    | none => exact .pure rfl
    | some msg =>
      dsimp only
      cases extractId msg.message with
      | none => exact .throw rfl
      | some id =>
        refine ObeysE.bind (getWorkItem_telling id) ?_
        rintro _ item rfl
        cases cp.registry item.faculty with
        | none => exact .pure rfl
        | some faculty => exact runWork_telling cp msg id item faculty
  refine Obeys.mono h fun g r hr => ?_
  cases r with
  | ok _ => exact hr
  | error _ => exact hr

end Calls

/-! ### What is announced -/

/-- The update a program makes next, at once or after a look at the clock. -/
def nextUpdate {α : Type} : Prog Eff α → Option (Change × WorkId)
  | .eff .utcNow k =>
    match k 0 with
    | .eff (.pool (.change c id _)) _ => some (c, id)
    | _ => none
  | .eff (.pool (.change c id _)) _ => some (c, id)
  | _ => none

/-- The transition of item `id` that call `i` tries next. -/
def Slot.announced (i : CallId) (id : WorkId) : Slot → List (CallId × String × String)
  | .live ⟨.process _, p, _⟩ =>
    match nextUpdate p with
    | some (c, id') => if id' = id then [(i, c.source.toText, c.target.toText)] else []
    | none => []
  | _ => []

/-- The same, from what the call told. -/
def Telling.announced (i : CallId) (id : WorkId) : Telling → List (CallId × String × String)
  | .quiet => []
  | .told id' source target | .timed id' source target =>
    if id' = id then [(i, source, target)] else []

section Calls

variable {α : Type} {p : Prog Eff (Except Error Unit)} {cp : ControlPlane} {ph : PlanePhase}
  {g : Telling}

/-- A call that looked at the clock makes the update it told of. -/
theorem timed_next {k : WorkId} {source target : String}
    (h : tellingProtocol.Obeys Telling.Returns (.timed k source target) p) :
    ∃ c now f, p = .eff (.pool (.change c k now)) f ∧ c.source.toText = source ∧
      c.target.toText = target := by
  cases p with
  | ret a => cases h
  | eff e f =>
    obtain ⟨ha, -⟩ := h
    cases e with
    | pool q =>
      cases q with
      | change c id now =>
        obtain ⟨rfl, hs, ht, -⟩ := ha
        exact ⟨c, now, f, rfl, hs, ht⟩
      | _ => exact ha.elim
    | _ => exact ha.elim

theorem announced_eq (h : tellingProtocol.Obeys Telling.Returns g p) (i : CallId) (id : WorkId) :
    Slot.announced i id (.live ⟨.process cp, p, ph⟩) = g.announced i id := by
  cases g with
  | quiet =>
    cases p with
    | ret a => rfl
    | eff e f =>
      obtain ⟨ha, -⟩ := h
      cases e with
      | utcNow => exact ha.elim
      | pool q => cases q <;> first | rfl | exact ha.elim
      | _ => rfl
  | timed k source target =>
    obtain ⟨c, now, f, rfl, rfl, rfl⟩ := timed_next h
    rfl
  | told k source target =>
    cases p with
    | ret a => cases h
    | eff e f =>
      obtain ⟨ha, hnext⟩ := h
      cases e with
      | utcNow =>
        obtain ⟨c, now, f', hf, rfl, rfl⟩ := timed_next (hnext 0 trivial)
        simp only [Slot.announced, nextUpdate, hf, Telling.announced]
      | _ => exact ha.elim

end Calls

/-! ### Records and commits -/

/-- The transition of item `id` an effect records. -/
def Answered.records (id : WorkId) : Answered → Option (String × String)
  | ⟨.recordStateTransition id' source target, _⟩ =>
    if id' = id then some (source, target) else none
  | _ => none

/-- The transitions of item `id` a step records. -/
def Sys.records (id : WorkId) (s : Sys) (l : Label) : List (CallId × String × String) :=
  (s.traced l).filterMap fun x => (x.2.records id).map (x.1, ·)

/-- The transition of item `id` a step of a `process_work` call makes. -/
def Sys.commits (id : WorkId) (s : Sys) (l : Label) (s' : Sys) : List (CallId × String × String) :=
  match l with
  | .exec i _ =>
    match s.calls i with
    | .live ⟨.process _, _, _⟩ =>
      match s.rowState id, s'.rowState id with
      | some a, some b => if a = b then [] else [(i, a.toText, b.toText)]
      | _, _ => []
    | _ => []
  | _ => []

/-- The `state_transition` events of item `id` along a run, with the calls that recorded them. -/
def Sys.recorded (clients : Op → Bool) (id : WorkId) (ls : List Label) :
    List (CallId × String × String) :=
  (system clients).emitted (fun s l _ => s.records id l) Sys.initial ls

/-- The transitions of item `id` that `process_work` calls made along a run. -/
def Sys.committed (clients : Op → Bool) (id : WorkId) (ls : List Label) :
    List (CallId × String × String) :=
  (system clients).emitted (fun s l s' => s.commits id l s') Sys.initial ls

/-- Does an update take effect? Its row is in the state it expects and takes the new values, and
the statement is not lost. -/
def Change.lands (c : Change) (env : Env) (db : Db) (id : WorkId) (now : Sql.Timestamp) : Bool :=
  (db.row id).any (fun r => r.state = c.source && (c.apply env.chance.jsonb now r).isSome) &&
    env.fault.all Fault.took

/-- Is the effect an update of item `id` that does not take effect? -/
def Eff.misses (id : WorkId) (env : Env) (db : Db) : {β : Type} → Eff β → Bool
  | _, .pool (.change c id' now) => id' = id && !c.lands env db id now
  | _, _ => false

/-- The steps after which a recorded transition of item `id` is never made: an update that does not
take effect, or the end of a call that has not tried it. -/
def Sys.loses (id : WorkId) (s : Sys) : Label → Bool
  | .exec i env =>
    match s.calls i with
    | .live ⟨.process _, .eff e _, _⟩ => e.misses id env s.db
    | _ => false
  | .crash i => !((s.calls i).announced i id).isEmpty
  | _ => false

/-! ### What one effect does -/

/-- Is the effect an update? -/
def Eff.changes : {β : Type} → Eff β → Bool
  | _, .pool (.change _ _ _) => true
  | _, _ => false

section Effects

variable {cp : ControlPlane} {ph ph' : PlanePhase} {i : CallId} {env : Env} {w w' : World}

theorem Env.reply_snd {γ : Type} (env : Env) (db db' : Db) (r : Except DbError γ) :
    (env.reply db (r, db')).2 = if env.fault.all Fault.took then db' else db := by
  unfold Env.reply
  cases env.fault <;> rfl

/-- An update that takes effect moves its row along its edge; any other leaves the rows. -/
theorem row_of_change (i : CallId) (env : Env) (w : World) {c : Change} (id : WorkId)
    (now : Sql.Timestamp) (hc : c.source.canTransitionTo c.target = true) :
    let db' := (handle i (.pool (.change c id now)) env w).2.db
    if c.lands env w.db id now then
      (w.db.row id).map Row.state = some c.source ∧ (db'.row id).map Row.state = some c.target ∧
        ∀ k, k ≠ id → db'.row k = w.db.row k
    else ∀ k, db'.row k = w.db.row k := by
  intro db'
  have hdb : db' = (env.reply w.db (w.db.exec none env.chance (.change c id now))).2 := rfl
  obtain ⟨hex, hne⟩ | ⟨r, hr, hs, happ, hex⟩ | ⟨r, r', d, hr, hs, happ, hex, hput⟩ :=
    Db.exec_change_cases w.db env.chance id now hc
  · have hlands : c.lands env w.db id now = false := by
      rw [Change.lands]
      cases hr : w.db.row id with
      | none => rfl
      | some r => simp [hne r hr]
    rw [hlands, if_neg Bool.false_ne_true, hdb, hex, Env.reply_snd, ite_self]
    exact fun _ => rfl
  · have hlands : c.lands env w.db id now = false := by simp [Change.lands, hr, happ]
    rw [hlands, if_neg Bool.false_ne_true, hdb, hex, Env.reply_snd, ite_self]
    exact fun _ => rfl
  · have hlands : c.lands env w.db id now = env.fault.all Fault.took := by
      simp [Change.lands, hr, hs, happ]
    have hid : r'.id = id := (c.apply_identity happ).1.trans (Db.rowOf_id hr)
    rw [hlands, hdb, hex, Env.reply_snd]
    by_cases htook : env.fault.all Fault.took = true
    · rw [if_pos htook, if_pos htook, hr, hput.row_none, hid, if_pos rfl]
      refine ⟨congrArg some hs, congrArg some (c.apply_state happ).1, fun k hk => ?_⟩
      rw [hput.row_none, hid, if_neg hk]
    · rw [if_neg htook, if_neg htook]
      exact fun _ => rfl

theorem PlaneStep.row_of_not_issues (h : PlaneStep cp env w ph ph' w')
    (hno : ∀ c id, ¬ ph.Issues c id) (k : WorkId) : w'.db.row k = w.db.row k := by
  cases h with
  | update hph hup => exact absurd hph (hno _ _)
  | _ => rfl

/-- Only an update of a call touches the rows. -/
theorem planeAllowed.row {β : Type} {e : Eff β} (ha : planeAllowed cp ph e)
    (he : e.changes = false) (k : WorkId) : (handle i e env w).2.db.row k = w.db.row k := by
  cases planeEff_of ha with
  | update now hissues => cases he
  | passive hp hstay =>
    obtain ⟨dirs, hd⟩ := handle_passive i env w hp
    rw [hd]
  | _ => exact (planeStep_of ha).row_of_not_issues (fun _ _ h => h) k

end Effects

/-! ### The account of a call -/

/-- Until its update a call goes on to announce what it has recorded. -/
theorem Telling.announced_next {g : Telling} {β : Type} {e : Eff β} (ha : tellingAllowed g e)
    (he : e.changes = false) (r : β) (i : CallId) (id : WorkId) :
    g.announced i id ++ ((Answered.records id ⟨e, r⟩).map (i, ·)).toList =
      (tellingNext g e r).announced i id := by
  cases g with
  | quiet =>
    cases e with
    | recordStateTransition k source target =>
      by_cases hk : k = id <;> simp [Telling.announced, Answered.records, tellingNext, hk]
    | _ => rfl
  | told k source target =>
    cases e with
    | utcNow => exact List.append_nil _
    | _ => exact ha.elim
  | timed k source target =>
    cases e with
    | pool q =>
      cases q with
      | change c k' now => cases he
      | _ => exact ha.elim
    | _ => exact ha.elim

/-- The clients of submissions and updates record nothing. -/
theorem Op.records_eq_none {op : Op} (hop : ∀ cp, op ≠ .process cp) {ph : op.Phase} {β : Type}
    {e : Eff β} (ha : op.protocol.allowed ph e) (r : β) (id : WorkId) :
    Answered.records id ⟨e, r⟩ = none := by
  cases op with
  | process cp => exact absurd rfl (hop cp)
  | submit new =>
    cases e with
    | recordStateTransition k source target => cases ph <;> exact ha.elim
    | _ => rfl
  | change c k =>
    cases e with
    | recordStateTransition k source target => cases ph <;> exact ha.elim
    | _ => rfl

section Steps

variable {clients : Op → Bool} {s s' : Sys} {l : Label} {ls : List Label} {i : CallId} {id : WorkId}

theorem Sys.commits_of_same (h : s'.rowState id = s.rowState id) : s.commits id l s' = [] := by
  rw [Sys.commits.eq_def]
  cases l with
  | exec i env =>
    dsimp only
    split
    · rw [h]
      split
      · next a b hb ha =>
        rw [ha] at hb
        cases hb
        exact if_pos rfl
      · rfl
    · rfl
  | _ => rfl

/-- Every `process_work` call tells before it updates. -/
theorem Sys.Reachable.tells (h : s.Reachable clients) {cp : ControlPlane}
    {p : Prog Eff (Except Error Unit)} {ph : PlanePhase}
    (hi : s.calls i = .live ⟨.process cp, p, ph⟩) :
    ∃ g, tellingProtocol.Obeys Telling.Returns g p := by
  refine (Lts.reachable_invariant (I := fun m => m.Reachable clients ∧ ∀ i cp p ph,
    m.calls i = .live ⟨.process cp, p, ph⟩ → ∃ g, tellingProtocol.Obeys Telling.Returns g p)
    (fun m l m' hm hstep => ⟨hm.1.next hstep, fun i cp p ph hi => ?_⟩) h
    ⟨.refl _, fun _ _ _ _ hi => by cases hi⟩).2 i cp p ph hi
  obtain ⟨hsame, -⟩ | ⟨-, rfl, -⟩ | ⟨env, β, e, k, ph₀, -, hfrom, -, rfl⟩ := hm.1.came hstep hi
  · exact hm.2 i cp p ph hsame
  · exact ⟨.quiet, processWork_telling cp⟩
  · obtain ⟨g, -, hk⟩ := hm.2 i cp _ ph₀ hfrom
    exact ⟨_, hk _ (handle_answers i e env m.world)⟩

/-- Only the caller of a step records. -/
theorem Sys.caller_of_records {x : CallId × String × String} (h : x ∈ s.records id l) :
    l.caller = some x.1 := by
  obtain ⟨⟨j, a⟩, hmem, hx⟩ := List.mem_filterMap.mp h
  obtain ⟨y, -, rfl⟩ := Option.map_eq_some_iff.mp hx
  cases l with
  | exec i env =>
    simp only [Sys.traced] at hmem
    split at hmem
    · rw [List.mem_singleton] at hmem
      cases hmem
      rfl
    · cases hmem
  | _ => cases hmem

/-- Nor does another commit. -/
theorem Sys.caller_of_commits {x : CallId × String × String} (h : x ∈ s.commits id l s') :
    l.caller = some x.1 := by
  cases l with
  | exec i env =>
    simp only [Sys.commits] at h
    split at h
    · split at h
      · split at h
        · cases h
        · obtain rfl := List.mem_singleton.mp h
          rfl
      · cases h
    · cases h
  | _ => cases h

/-- What the entries of a list are when one call made all of them. -/
theorem filter_caller {xs : List (CallId × String × String)} {j : CallId}
    (h : ∀ x ∈ xs, x.1 = j) (i : CallId) :
    xs.filter (·.1 = i) = if i = j then xs else [] := by
  by_cases hij : i = j
  · rw [if_pos hij, List.filter_eq_self]
    exact fun x hx => decide_eq_true ((h x hx).trans hij.symm)
  · rw [if_neg hij, List.filter_eq_nil_iff]
    exact fun x hx => by simpa using fun heq => hij (heq.symm.trans (h x hx))

theorem step_calls_ne (h : s.step clients l = some s') (hl : l.caller ≠ some i) :
    s'.calls i = s.calls i := by
  have hne : ∀ {j}, some j ≠ some i → i ≠ j := fun h heq => h (congrArg some heq.symm)
  cases l with
  | start j op =>
    obtain ⟨-, -, rfl⟩ := step_start h
    exact Sys.begin_calls_ne _ (hne hl) _
  | exec j env =>
    obtain ⟨op, β, e, k, ph, -, -, rfl⟩ := step_exec h
    exact Sys.move_calls_ne _ (hne hl) _ _
  | finish j =>
    obtain ⟨op, a, ph, -, rfl⟩ := step_finish h
    exact Sys.leave_calls_ne _ (hne hl)
  | crash j =>
    obtain ⟨c, -, rfl⟩ := step_crash h
    exact Sys.leave_calls_ne _ (hne hl)
  | expire m =>
    obtain rfl := step_expire h
    rfl

/-- What an effect of a `process_work` call that is no update records and commits. -/
theorem Sys.Reachable.exec_untried (hr : s.Reachable clients) (env : Env) (id : WorkId)
    {cp : ControlPlane} {β : Type} {e : Eff β} {k : β → Prog Eff (Except Error Unit)}
    {ph : PlanePhase}
    (hi : s.calls i = .live ⟨.process cp, .eff e k, ph⟩) (he : e.changes = false) :
    (s.calls i).announced i id ++ s.records id (.exec i env) =
        ((s.perform i env (.process cp) e k ph).calls i).announced i id ∧
      s.commits id (.exec i env) (s.perform i env (.process cp) e k ph) = [] ∧
      s.loses id (.exec i env) = false := by
  obtain ⟨g, hg⟩ := hr.tells hi
  obtain ⟨-, ha, -⟩ := hr.lawful i _ hi
  refine ⟨?_, ?_, ?_⟩
  · have hlast : s.records id (.exec i env) =
        ((Answered.records id ⟨e, (handle i e env s.world).1⟩).map (i, ·)).toList := by
      rw [Sys.records, Sys.traced_exec hi]
      cases hrec : Answered.records id ⟨e, (handle i e env s.world).1⟩ <;> simp [hrec]
    rw [hi, announced_eq hg, hlast, Telling.announced_next hg.1 he, Sys.perform,
      Sys.move_calls_self]
    exact (announced_eq (hg.2 _ (handle_answers i e env s.world)) i id).symm
  · refine Sys.commits_of_same (congrArg (Option.map Row.state) ?_)
    exact planeAllowed.row ha he id
  · simp only [Sys.loses, hi]
    cases e with
    | pool q => cases q <;> first | rfl | cases he
    | _ => rfl

/-- An update tries the transition that was announced: it commits it, or loses it. -/
theorem Sys.Reachable.exec_tried (hr : s.Reachable clients) {env : Env} (id : WorkId)
    {cp : ControlPlane} {c : Change} {k : WorkId} {now : Sql.Timestamp}
    {f : Except DbError ℕ → Prog Eff (Except Error Unit)} {ph : PlanePhase}
    (hi : s.calls i = .live ⟨.process cp, .eff (.pool (.change c k now)) f, ph⟩)
    (hs' : s' = s.perform i env (.process cp) (.pool (.change c k now)) f ph) :
    s.records id (.exec i env) = [] ∧ (s'.calls i).announced i id = [] ∧
      (s.calls i).announced i id =
        (if k = id then [(i, c.source.toText, c.target.toText)] else []) ∧
      s.loses id (.exec i env) = (k = id && !c.lands env s.db id now) ∧
      s.commits id (.exec i env) s' = if k = id ∧ c.lands env s.db id now = true then
        [(i, c.source.toText, c.target.toText)] else [] := by
  obtain ⟨g, hg⟩ := hr.tells hi
  obtain ⟨k', rfl⟩ : ∃ k', g = .timed k' c.source.toText c.target.toText := by
    obtain ⟨ha, -⟩ := hg
    cases g with
    | timed id' source target =>
      obtain ⟨-, rfl, rfl, -⟩ := ha
      exact ⟨id', rfl⟩
    | _ => exact ha.elim
  have hc : c.source.canTransitionTo c.target = true := hg.1.2.2.2
  have hrows := row_of_change i env s.world k now hc
  have hdb : s'.db = (handle i (.pool (.change c k now)) env s.world).2.db := by
    rw [hs']
    rfl
  rw [← hdb] at hrows
  refine ⟨?_, ?_, ?_, ?_, ?_⟩
  · rw [Sys.records, Sys.traced_exec hi]
    rfl
  · rw [hs', Sys.perform, Sys.move_calls_self]
    exact announced_eq (hg.2 _ (handle_answers i (.pool (.change c k now)) env s.world)) i id
  · rw [hi]
    rfl
  · simp only [Sys.loses, hi, Eff.misses]
  · by_cases hk : k = id
    · subst hk
      by_cases hl : c.lands env s.db k now = true
      · -- the row leaves the source of the edge for its target
        rw [if_pos ⟨rfl, hl⟩]
        obtain ⟨hsource, htarget, -⟩ := (if_pos hl).mp hrows
        have hfrom : s.rowState k = some c.source := hsource
        have hto : s'.rowState k = some c.target := htarget
        simp only [Sys.commits, hi, hfrom, hto, if_neg (State.ne_of_canTransitionTo hc)]
      · rw [if_neg fun h => hl h.2]
        have hsame := (if_neg hl).mp hrows
        exact Sys.commits_of_same (congrArg (Option.map Row.state) (hsame k))
    · rw [if_neg fun h => hk h.1]
      refine Sys.commits_of_same (congrArg (Option.map Row.state) ?_)
      split at hrows
      · exact hrows.2.2 id (Ne.symm hk)
      · exact hrows id

/-- What another operation performs is no record, and it announces nothing. -/
theorem Sys.Reachable.exec_other (hr : s.Reachable clients) (env : Env) (id : WorkId) {op : Op}
    (hop : ∀ cp, op ≠ .process cp) {β : Type} {e : Eff β}
    {k : β → Prog Eff (Except Error op.Result)} {ph : op.Phase}
    (hi : s.calls i = .live ⟨op, .eff e k, ph⟩) :
    s.records id (.exec i env) = [] ∧ s.commits id (.exec i env) s' = [] ∧
      s.loses id (.exec i env) = false := by
  obtain ⟨-, ha, -⟩ := hr.lawful i _ hi
  refine ⟨?_, ?_, ?_⟩
  · rw [Sys.records, Sys.traced_exec hi]
    exact List.filterMap_cons_none (by rw [Op.records_eq_none hop ha]; rfl)
  · cases op with
    | process cp => exact absurd rfl (hop cp)
    | _ => simp only [Sys.commits, hi]
  · cases op with
    | process cp => exact absurd rfl (hop cp)
    | _ => simp only [Sys.loses, hi]

theorem Slot.announced_other {op : Op} (hop : ∀ cp, op ≠ .process cp)
    {p : Prog Eff (Except Error op.Result)} {ph : op.Phase} :
    Slot.announced i id (.live ⟨op, p, ph⟩) = [] := by
  cases op with
  | process cp => exact absurd rfl (hop cp)
  | _ => rfl

/-- What a call announced and what it records in its own step is what it commits and what it then
announces, unless the step loses it. -/
theorem Sys.Reachable.account_self (hr : s.Reachable clients) (h : s.step clients l = some s')
    (hl : l.caller = some i) (id : WorkId) :
    if s.loses id l then
      (s.calls i).announced i id ≠ [] ∧ s.records id l = [] ∧ s.commits id l s' = [] ∧
        (s'.calls i).announced i id = []
    else (s.calls i).announced i id ++ s.records id l =
      s.commits id l s' ++ (s'.calls i).announced i id := by
  cases l with
  | start j op =>
    obtain rfl := Option.some.inj hl
    obtain ⟨hidle, -, rfl⟩ := step_start h
    have hnew : ((s.begin j op).calls j).announced j id = [] := by
      rw [Sys.begin_calls_self]
      by_cases hop : ∃ cp, op = .process cp
      · obtain ⟨cp, rfl⟩ := hop
        exact announced_eq (processWork_telling cp) j id
      · exact Slot.announced_other fun cp heq => hop ⟨cp, heq⟩
    have hkeep : s.loses id (.start j op) = false := rfl
    rw [hkeep, if_neg Bool.false_ne_true, hnew, hidle]
    rfl
  | exec j env =>
    obtain rfl := Option.some.inj hl
    obtain ⟨op, β, e, k, ph, hi, -, rfl⟩ := step_exec h
    by_cases hop : ∃ cp, op = .process cp
    · obtain ⟨cp, rfl⟩ := hop
      cases he : e.changes with
      | false =>
        obtain ⟨hsum, hcommit, hkeep⟩ := hr.exec_untried env id hi he
        rw [hkeep, if_neg Bool.false_ne_true, hsum, hcommit, List.nil_append]
      | true =>
        cases e with
        | pool q =>
          cases q with
          | change c k' now =>
            obtain ⟨hrec, hafter, hbefore, hloses, hcommit⟩ :=
              hr.exec_tried id hi rfl
            rw [hrec, hafter, hbefore, hloses, hcommit]
            by_cases hk : k' = id <;> by_cases hlands : c.lands env s.db id now = true <;>
              simp [hk, hlands]
          | _ => cases he
        | _ => cases he
    · have hother : ∀ cp, op ≠ .process cp := fun cp heq => hop ⟨cp, heq⟩
      obtain ⟨hrec, hcommit, hkeep⟩ := hr.exec_other env id hother hi
      rw [hkeep, if_neg Bool.false_ne_true, hrec, hcommit, hi, Slot.announced_other hother,
        Sys.perform, Sys.move_calls_self, Slot.announced_other hother]
  | finish j =>
    obtain rfl := Option.some.inj hl
    obtain ⟨op, a, ph, hi, rfl⟩ := step_finish h
    have hdone : (s.calls j).announced j id = [] := by
      rw [hi]
      cases op <;> rfl
    have hkeep : s.loses id (.finish j) = false := rfl
    rw [hkeep, if_neg Bool.false_ne_true, hdone, Sys.leave_calls_self]
    rfl
  | crash j =>
    obtain rfl := Option.some.inj hl
    obtain ⟨c, hi, rfl⟩ := step_crash h
    rw [Sys.leave_calls_self]
    by_cases hnone : (s.calls j).announced j id = []
    · have hkeep : s.loses id (.crash j) = false := by simp [Sys.loses, hnone]
      rw [hkeep, if_neg Bool.false_ne_true, hnone]
      rfl
    · have hloses : s.loses id (.crash j) = true := by simp [Sys.loses, hnone]
      rw [hloses, if_pos rfl]
      exact ⟨hnone, rfl, rfl, rfl⟩
  | expire m => cases hl

/-- The account of one call in one step. -/
theorem Sys.Reachable.account (hr : s.Reachable clients) (h : s.step clients l = some s')
    (i : CallId) (id : WorkId) :
    if l.caller = some i ∧ s.loses id l = true then
      ((s.commits id l s').filter (·.1 = i)).length + ((s'.calls i).announced i id).length <
        ((s.calls i).announced i id).length + ((s.records id l).filter (·.1 = i)).length
    else (s.calls i).announced i id ++ (s.records id l).filter (·.1 = i) =
      (s.commits id l s').filter (·.1 = i) ++ (s'.calls i).announced i id := by
  by_cases hl : l.caller = some i
  · have hown : ∀ {j}, l.caller = some j → j = i := fun hj => Option.some.inj (hj.symm.trans hl)
    rw [filter_caller (fun x hx => hown (Sys.caller_of_records hx)), if_pos rfl,
      filter_caller (fun x hx => hown (Sys.caller_of_commits hx)), if_pos rfl]
    have hself := hr.account_self h hl id
    cases hloses : s.loses id l with
    | false =>
      rw [hloses, if_neg Bool.false_ne_true] at hself
      rwa [if_neg (fun hx => Bool.false_ne_true hx.2)]
    | true =>
      rw [hloses, if_pos rfl] at hself
      obtain ⟨hsome, hrec, hcommit, hnone⟩ := hself
      rw [if_pos ⟨hl, rfl⟩, hrec, hcommit, hnone]
      simpa [List.length_pos_iff] using hsome
  · -- the step of another call is not on this account
    have hother : ∀ {xs : List (CallId × String × String)},
        (∀ x ∈ xs, l.caller = some x.1) → xs.filter (·.1 = i) = [] := by
      intro xs hxs
      rw [List.filter_eq_nil_iff]
      exact fun x hx hi => hl ((hxs x hx).trans (congrArg some (of_decide_eq_true hi)))
    rw [if_neg (fun hx => hl hx.1), hother fun x => Sys.caller_of_records,
      hother fun x => Sys.caller_of_commits, step_calls_ne h hl, List.append_nil, List.nil_append]

/-- Whatever its clients: every call recorded exactly what it committed and what it tries next, in
that order, as long as no step loses a recorded transition. -/
theorem recorded_each_iff (hrun : (system clients).Run Sys.initial ls s) (id : WorkId) :
    (∀ i, (Sys.recorded clients id ls).filter (·.1 = i) =
      (Sys.committed clients id ls).filter (·.1 = i) ++ (s.calls i).announced i id) ↔
    (system clients).along (fun s l => !s.loses id l) Sys.initial ls = true := by
  have hone : ∀ i, ((Sys.recorded clients id ls).filter (·.1 = i) =
      (Sys.committed clients id ls).filter (·.1 = i) ++ (s.calls i).announced i id ↔
      (system clients).along (fun s l => !(decide (l.caller = some i) && s.loses id l))
        Sys.initial ls = true) := by
    intro i
    rw [Sys.recorded, Sys.committed, Lts.emitted_filter, Lts.emitted_filter]
    refine Lts.Run.ledger_iff (fun s => (s.calls i).announced i id)
      (fun s l => decide (l.caller = some i) && s.loses id l) (I := Sys.Reachable clients)
      (fun _ _ _ hr h => hr.next h) (fun m l m' hr h hlost => ?_) (fun m l m' hr h hlost => ?_)
      hrun (.refl _)
    · have hacc := hr.account h i id
      rwa [if_neg (by simpa using hlost)] at hacc
    · have hacc := hr.account h i id
      rwa [if_pos (by simpa using hlost)] at hacc
  constructor
  · intro h
    refine Lts.along_of_forall (P := fun i m l => !(decide (l.caller = some i) && m.loses id l))
      (fun m l hall => ?_) fun i => (hone i).mp (h i)
    cases l with
    | start i op | exec i env | finish i | crash i => simpa [Label.caller] using hall i
    | expire k => rfl
  · intro h i
    refine (hone i).mpr
      (Lts.along_of_forall (P := fun _ : Unit => _) (fun m l hall => ?_) fun _ => h)
    have hkeep := hall ()
    simp only [Bool.not_eq_true'] at hkeep ⊢
    rw [hkeep, Bool.and_false]

/-! ### Control planes alone -/

/-- Submitters and control planes: a row goes through its life once. -/
def workers : Op → Bool
  | .change _ _ => false
  | _ => true

theorem Sys.Reachable.moves (hr : s.Reachable workers) (h : s.step workers l = some s')
    (id : WorkId) :
    (s.commits id l s' = [] ∧ (s'.rowState id = s.rowState id ∨ s.rowState id = none)) ∨
    ∃ i env cp p ph c, l = .exec i env ∧ s.calls i = .live ⟨.process cp, p, ph⟩ ∧
      ph.Issues c id ∧ s.rowState id = some c.source ∧ s'.rowState id = some c.target ∧
      s.commits id l s' = [(i, c.source.toText, c.target.toText)] := by
  by_cases hsame : s'.rowState id = s.rowState id
  · exact .inl ⟨Sys.commits_of_same hsame, .inl hsame⟩
  obtain ⟨i, env, rfl, hc⟩ := (hr.rowStep h).causes hsame
  cases ha : s.rowState id with
  | none =>
    refine .inl ⟨?_, .inr rfl⟩
    simp only [Sys.commits, ha]
    split <;> rfl
  | some a =>
    cases hb : s'.rowState id with
    | none =>
      rw [ha, hb] at hc
      exact hc.elim
    | some b =>
      rw [ha, hb] at hc hsame
      obtain ⟨c, hup, rfl, rfl⟩ := hc
      cases hi : s.calls i with
      | live x =>
        obtain ⟨op, p, ph⟩ := x
        have hclient := (hr.lawful i _ hi).1
        rw [hi] at hup
        cases op with
        | process cp =>
          refine .inr ⟨i, env, cp, p, ph, c, rfl, hi, hup, rfl, rfl, ?_⟩
          simp only [Sys.commits, hi, ha, hb]
          exact if_neg fun heq => hsame (congrArg some heq.symm)
        | submit new => exact hup.elim
        | change c' k => exact absurd hclient Bool.false_ne_true
      | _ =>
        rw [hi] at hup
        exact hup.elim

variable (id ls s) in
/-- One call makes all the transitions of an item that control planes make. -/
structure Sys.Sole : Prop where
  one : ∀ x ∈ Sys.committed workers id ls, ∀ y ∈ Sys.committed workers id ls, x.1 = y.1
  fresh : s.rowState id = none ∨ s.rowState id = some .queued → Sys.committed workers id ls = []
  owner : ∀ i st, (s.calls i).Owns st id → ∃ x ∈ Sys.committed workers id ls, x.1 = i

/-- An update either claims the item or is its owner's. -/
theorem PlanePhase.Issues.owns (cp : ControlPlane) (p : Prog Eff (Except Error Unit))
    {ph : PlanePhase} {c : Change} (hph : ph.Issues c id) :
    c.target ≠ .queued ∧
      (c.source = .queued ∨ ∃ st, (Slot.live ⟨.process cp, p, ph⟩).Owns st id) := by
  cases ph with
  | fetched m k =>
    obtain ⟨rfl, rfl⟩ := hph
    exact ⟨fun h => (by cases h), .inl rfl⟩
  | owning st m k =>
    cases st with
    | claimed =>
      obtain ⟨rfl, rfl⟩ := hph
      exact ⟨fun h => (by cases h), .inr ⟨.claimed, cp, p, m, rfl⟩⟩
    | ran =>
      obtain ⟨⟨o, rfl⟩ | ⟨e, ms, rfl⟩, rfl⟩ := hph
      · exact ⟨fun h => (by cases h), .inr ⟨.ran, cp, p, m, rfl⟩⟩
      · exact ⟨fun h => (by cases h), .inr ⟨.ran, cp, p, m, rfl⟩⟩
    | _ => exact hph.elim
  | _ => exact hph.elim

/-- An owner owned its item before, or its update has just moved the row. -/
theorem SysStep.owned (h : SysStep clients s l s') {st : Stage} (hi : (s'.calls i).Owns st id) :
    (∃ st₀, (s.calls i).Owns st₀ id) ∨
    ∃ env a, l = .exec i env ∧ s.rowState id = some a ∧ s'.rowState id ≠ some a := by
  obtain ⟨howns, -⟩ | ⟨env, c, r, r', now, hl, -, htarget, hstage, hr, hs, happ, hrow⟩ |
    ⟨env, st₀, -, howns, -⟩ := h.owns hi
  · exact .inl ⟨st, howns⟩
  · refine .inr ⟨env, c.source, hl, by rw [Sys.rowState, hr, ← hs]; rfl, ?_⟩
    rw [Sys.rowState, hrow, if_pos rfl, Option.map_some, (c.apply_state happ).1, htarget]
    obtain ⟨rfl, hsource⟩ | ⟨rfl, hsource, -⟩ := hstage <;> rw [hsource] <;>
      exact fun h => by cases h
  · exact .inl ⟨st₀, howns⟩

theorem Sys.Sole.step (hrun : (system workers).Run Sys.initial ls s)
    (h : s.step workers l = some s') (hs : Sys.Sole s ls id) : Sys.Sole s' (ls ++ [l]) id := by
  have hr : s.Reachable workers := ⟨ls, hrun⟩
  have hcommitted : Sys.committed workers id (ls ++ [l]) =
      Sys.committed workers id ls ++ s.commits id l s' := hrun.emitted_snoc h
  have hsys := sysStep_of hr.inv.1 hr.inv.2 h
  obtain ⟨hnone, hrow⟩ | ⟨i, env, cp, p, ph, c, rfl, hi, hph, hfrom, hto, hone⟩ := hr.moves h id
  · rw [hnone, List.append_nil] at hcommitted
    refine ⟨hcommitted ▸ hs.one, fun hfresh => ?_, fun j st hj => ?_⟩
    · rw [hcommitted]
      exact hs.fresh (hrow.elim (fun hsame => hsame ▸ hfresh) .inl)
    · rw [hcommitted]
      obtain ⟨st₀, howns⟩ | ⟨env, a, -, ha, hne⟩ := hsys.owned hj
      · exact hs.owner j st₀ howns
      · obtain hsame | habsent := hrow
        · exact absurd (hsame.trans ha) hne
        · exact absurd (habsent.symm.trans ha) (Option.some_ne_none a).symm
  · rw [hone] at hcommitted
    obtain ⟨htarget, hsource⟩ := PlanePhase.Issues.owns cp p hph
    -- whoever committed before is the call of this step
    have hall : ∀ x ∈ Sys.committed workers id ls, x.1 = i := by
      obtain hqueued | ⟨st, howns⟩ := hsource
      · rw [hs.fresh (.inr (hqueued ▸ hfrom))]
        exact fun x hx => absurd hx List.not_mem_nil
      · obtain ⟨y, hy, rfl⟩ := hs.owner i st (hi ▸ howns)
        exact fun x hx => hs.one x hx y hy
    have hall' : ∀ x ∈ Sys.committed workers id (ls ++ [.exec i env]), x.1 = i := by
      intro x hx
      rw [hcommitted, List.mem_append, List.mem_singleton] at hx
      obtain hx | rfl := hx
      · exact hall x hx
      · rfl
    refine ⟨fun x hx y hy => (hall' x hx).trans (hall' y hy).symm, fun hfresh => ?_,
      fun j st hj => ?_⟩
    · rw [hto] at hfresh
      obtain habsent | hqueued := hfresh
      · cases habsent
      · exact absurd (Option.some.inj hqueued) htarget
    · rw [hcommitted]
      obtain ⟨st₀, howns⟩ | ⟨env', a, hl, -⟩ := hsys.owned hj
      · obtain ⟨x, hx, hxj⟩ := hs.owner j st₀ howns
        exact ⟨x, List.mem_append_left _ hx, hxj⟩
      · cases hl
        exact ⟨_, List.mem_append_right _ (List.mem_singleton_self _), rfl⟩

theorem Sys.sole (hrun : (system workers).Run Sys.initial ls s) (id : WorkId) :
    Sys.Sole s ls id :=
  Lts.Run.snoc_induction (I := fun xs m => Sys.Sole m xs id)
    ⟨fun _ hx => absurd hx List.not_mem_nil, fun _ => rfl,
      fun _ _ howns => by obtain ⟨cp, p, m, hi⟩ := howns; cases hi⟩
    (fun _ _ _ _ hxs hm hstep => hm.step hxs hstep) hrun

variable (ls s id) in
/-- The records of an item agree with what its row went through: each call recorded what it
committed and what it tries next, and where no call has a transition left to try, the records of
all calls together are the transitions made, in their order. -/
structure Sys.Agrees : Prop where
  each : ∀ i, (Sys.recorded workers id ls).filter (·.1 = i) =
    (Sys.committed workers id ls).filter (·.1 = i) ++ (s.calls i).announced i id
  settled : (∀ i, (s.calls i).announced i id = []) →
    Sys.recorded workers id ls = Sys.committed workers id ls

/-- In a run of control planes the records of an item agree with its row exactly where no step
loses a recorded transition: every update takes effect, and no call ends between the record of a
transition and its update. -/
theorem recorded_transitions_iff (hrun : (system workers).Run Sys.initial ls s) (id : WorkId) :
    Sys.Agrees s ls id ↔
      (system workers).along (fun s l => !s.loses id l) Sys.initial ls = true := by
  rw [← recorded_each_iff hrun id]
  refine ⟨Sys.Agrees.each, fun heach => ⟨heach, fun hnone => ?_⟩⟩
  have hsame : ∀ i, (Sys.recorded workers id ls).filter (·.1 = i) =
      (Sys.committed workers id ls).filter (·.1 = i) := by
    intro i
    rw [heach i, hnone i, List.append_nil]
  have hmem : ∀ x ∈ Sys.recorded workers id ls, x ∈ Sys.committed workers id ls := by
    intro x hx
    have hown : x ∈ (Sys.recorded workers id ls).filter (·.1 = x.1) :=
      List.mem_filter.mpr ⟨hx, decide_eq_true rfl⟩
    rw [hsame] at hown
    exact List.mem_of_mem_filter hown
  have hone := (Sys.sole hrun id).one
  cases hc : Sys.committed workers id ls with
  | nil =>
    rw [hc] at hmem
    exact List.eq_nil_iff_forall_not_mem.mpr fun x hx => absurd (hmem x hx) List.not_mem_nil
  | cons y ys =>
    -- one call made all of them, so it recorded all of them
    have hy : y ∈ Sys.committed workers id ls := hc ▸ List.mem_cons_self
    have hall := hsame y.1
    rw [filter_caller (fun x hx => hone x (hmem x hx) y hy), if_pos rfl,
      filter_caller (fun x hx => hone x hx y hy), if_pos rfl] at hall
    rw [hall, hc]

end Steps

/-! ### Samples -/

/-- A submission that a control plane takes to its end. -/
def retiredRun : List Label := focusedRun ++ List.replicate 12 (.exec 1 {}) ++ [.finish 1]

theorem recorded_transitions_iff_retired :
    Sys.recorded workers (.ofNat 1) retiredRun =
      [(1, "queued", "claimed"), (1, "claimed", "running"), (1, "running", "completed")] ∧
    Sys.Agrees ((system workers).replayed Sys.initial retiredRun) retiredRun (.ofNat 1) :=
  ⟨rfl, (recorded_transitions_iff (Lts.run_replayed rfl) (.ofNat 1)).mpr rfl⟩

/-- The message of a running item is delivered to a second control plane. -/
def redeliveredRun : List Label :=
  focusedRun ++ .expire 1 :: .start 2 (.process { samplePlane with plane := 1 }) ::
    List.replicate 6 (.exec 2 {})

/-- The second plane records a claim that its update does not make. -/
theorem claim_is_recorded :
    ¬ ∀ (ls : List Label) (s : Sys) (id : WorkId), (system workers).Run Sys.initial ls s →
      (∀ i, (s.calls i).announced i id = []) →
      Sys.recorded workers id ls = Sys.committed workers id ls := by
  intro h
  have hrecorded : Sys.recorded workers (.ofNat 1) redeliveredRun =
      [(1, "queued", "claimed"), (1, "claimed", "running"), (2, "queued", "claimed")] := rfl
  have hcommitted : Sys.committed workers (.ofNat 1) redeliveredRun =
      [(1, "queued", "claimed"), (1, "claimed", "running")] := rfl
  have hsame := h redeliveredRun _ (.ofNat 1) (Lts.run_replayed rfl) fun i => match i with
    | 0 => rfl
    | 1 => rfl
    | 2 => rfl
    | _ + 3 => rfl
  rw [hrecorded, hcommitted] at hsame
  cases hsame

end Animus
