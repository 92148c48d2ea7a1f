import Animus.Lib.Lts
import Animus.Db.Spec
import Animus.System.Protocol

/-!
# The system

Any number of calls share one database. A step starts a call, performs the next
effect of one call, ends a call or crashes it, or lets the visibility timeout of
a message run out.

## Main definitions

- `Op`: an operation with its arguments
- `Sys`: the world, the calls, and who started the current attempt of each item
- `system`: the transition system, for the operations its clients use
- `ServedBy`: the runs on a server whose `jsonb` columns give back a given function of a value

## Main results

- `step_exec`: what performing an effect does
- `Sys.lawful_step`: every live call is somewhere in its protocol
- `run_alone`: running a program alone is what the system does with a call nobody interrupts
-/

namespace Animus

open Effect

/-- A call: a submission, one of `transition_state`, `complete_work` and
`fail_work`, or one `process_work` invocation. -/
inductive Op
  | submit (new : NewWorkItem)
  | change (c : Change) (id : WorkId)
  | process (cp : ControlPlane)

namespace Op

@[reducible] def Result : Op → Type
  | .submit _ => SubmitResult
  | .change _ _ => WorkItem
  | .process _ => Unit

@[reducible] def Phase : Op → Type
  | .submit _ => SubmitPhase
  | .change _ _ => ChangePhase
  | .process _ => PlanePhase

def prog : (op : Op) → Prog Eff (Except Error op.Result)
  | .submit new => (submitWork new).run
  | .change c id => (casUpdate c id).run
  | .process cp => (processWork cp).run

def first : (op : Op) → op.Phase
  | .submit _ => .start
  | .change _ _ => .ready
  | .process _ => .idle

def protocol : (op : Op) → Protocol Eff op.Phase
  | .submit new => submitProtocol new
  | .change c id => changeProtocol c id
  | .process cp => planeProtocol cp

def Returns : (op : Op) → op.Phase → Except Error op.Result → Prop
  | .submit _ => SubmitPhase.Returns
  | .change _ _ => ChangePhase.Returns
  | .process _ => PlanePhase.Returns

theorem prog_obeys (op : Op) : op.protocol.Obeys op.Returns op.first op.prog := by
  cases op with
  | submit new => exact submitWork_obeys new
  | change c id => exact casUpdate_obeys c id
  | process cp => exact processWork_obeys cp

theorem answers_eq (op : Op) {β : Type} (e : Eff β) (r : β) :
    op.protocol.answers e r = e.answers r := by
  cases op <;> rfl

end Op

/-- A call in progress: the rest of its program, and where that is in the protocol. -/
structure Live where
  op : Op
  prog : Prog Eff (Except Error op.Result)
  phase : op.Phase

/-- A call id: not used yet, in progress, or done with. -/
inductive Slot
  | idle
  | live (c : Live)
  | ended

structure Sys where
  world : World
  calls : CallId → Slot
  /-- The call whose update last moved an item to `running`. -/
  runner : WorkId → Option CallId

def Sys.db (s : Sys) : Db := s.world.db

def Sys.initial : Sys := ⟨World.initial, fun _ => .idle, fun _ => none⟩

/-- Did an effect move a row to `running`? -/
def becameRunning (db db' : Db) (id : WorkId) : Bool :=
  (db'.row id).map Row.state = some .running && (db.row id).map Row.state ≠ some .running

/-- The state after call `i` began. -/
def Sys.begin (s : Sys) (i : CallId) (op : Op) : Sys :=
  { s with calls := Function.update s.calls i (.live ⟨op, op.prog, op.first⟩) }

/-- The state after call `i` went on to `c`, leaving the world `w`. -/
def Sys.move (s : Sys) (i : CallId) (c : Live) (w : World) : Sys where
  world := w
  calls := Function.update s.calls i (.live c)
  runner := fun id => if becameRunning s.world.db w.db id then some i else s.runner id

/-- The state after call `i` performed the effect `e`. -/
def Sys.perform (s : Sys) (i : CallId) (env : Env) (op : Op) {β : Type} (e : Eff β)
    (k : β → Prog Eff (Except Error op.Result)) (ph : op.Phase) : Sys :=
  s.move i ⟨op, k (handle i e env s.world).1, op.protocol.next ph e (handle i e env s.world).1⟩
    (handle i e env s.world).2

/-- The state after call `i` is gone: an open transaction is rolled back. -/
def Sys.leave (s : Sys) (i : CallId) : Sys :=
  { s with
    world := { s.world with db := s.world.db.rollback i }
    calls := Function.update s.calls i .ended }

/-- The state after the visibility timeout of a message ran out. -/
def Sys.expire (s : Sys) (msgId : ℤ) : Sys :=
  { s with world := { s.world with db := s.world.db.expire msgId } }

@[simp] theorem Sys.expire_db (s : Sys) (m : ℤ) : (s.expire m).db = s.db.expire m := rfl

@[simp] theorem Sys.expire_calls (s : Sys) (m : ℤ) : (s.expire m).calls = s.calls := rfl

@[simp] theorem Sys.begin_db (s : Sys) (i : CallId) (op : Op) : (s.begin i op).db = s.db := rfl

@[simp] theorem Sys.begin_calls_self (s : Sys) (i : CallId) (op : Op) :
    (s.begin i op).calls i = .live ⟨op, op.prog, op.first⟩ := Function.update_self ..

theorem Sys.begin_calls_ne (s : Sys) {i j : CallId} (h : j ≠ i) (op : Op) :
    (s.begin i op).calls j = s.calls j := Function.update_of_ne h ..

@[simp] theorem Sys.move_db (s : Sys) (i : CallId) (c : Live) (w : World) :
    (s.move i c w).db = w.db := rfl

@[simp] theorem Sys.move_world (s : Sys) (i : CallId) (c : Live) (w : World) :
    (s.move i c w).world = w := rfl

@[simp] theorem Sys.move_calls_self (s : Sys) (i : CallId) (c : Live) (w : World) :
    (s.move i c w).calls i = .live c := Function.update_self ..

theorem Sys.move_calls_ne (s : Sys) {i j : CallId} (h : j ≠ i) (c : Live) (w : World) :
    (s.move i c w).calls j = s.calls j := Function.update_of_ne h ..

@[simp] theorem Sys.leave_db (s : Sys) (i : CallId) : (s.leave i).db = s.db.rollback i := rfl

@[simp] theorem Sys.leave_calls_self (s : Sys) (i : CallId) : (s.leave i).calls i = .ended :=
  Function.update_self ..

theorem Sys.leave_calls_ne (s : Sys) {i j : CallId} (h : j ≠ i) :
    (s.leave i).calls j = s.calls j := Function.update_of_ne h ..

inductive Label
  | start (i : CallId) (op : Op)
  | exec (i : CallId) (env : Env)
  | finish (i : CallId)
  | crash (i : CallId)
  | expire (msgId : ℤ)

/-- The call a label is about. -/
def Label.caller : Label → Option CallId
  | .start i _ | .exec i _ | .finish i | .crash i => some i
  | .expire _ => none

/-- One server answers all along a run: its `jsonb` columns give back `jsonb v` for `v`. -/
def ServedBy (jsonb : Json → Json) (ls : List Label) : Prop :=
  ∀ i env, Label.exec i env ∈ ls → env.chance.jsonb = jsonb

section Served

variable {jsonb : Json → Json} {ls ls' : List Label}

theorem servedBy_append : ServedBy jsonb (ls ++ ls') ↔ ServedBy jsonb ls ∧ ServedBy jsonb ls' := by
  simp only [ServedBy, List.mem_append, or_imp, forall_and]

theorem servedBy_nil (jsonb : Json → Json) : ServedBy jsonb [] := fun _ _ h => by cases h

theorem servedBy_replicate {i : CallId} {env : Env} (n : ℕ) (h : env.chance.jsonb = jsonb) :
    ServedBy jsonb (List.replicate n (.exec i env)) := by
  intro j env' hmem
  cases List.eq_of_mem_replicate hmem
  exact h

theorem ServedBy.cons {l : Label} (hl : ∀ i env, l = .exec i env → env.chance.jsonb = jsonb)
    (h : ServedBy jsonb ls) : ServedBy jsonb (l :: ls) := by
  intro i env hmem
  obtain hmem | hmem := List.mem_cons.mp hmem
  · exact hl i env hmem.symm
  · exact h i env hmem

end Served

/-- One step; `clients` says which operations are in use. -/
def Sys.step (clients : Op → Bool) (s : Sys) : Label → Option Sys
  | .start i op =>
    match s.calls i with
    | .idle =>
      if clients op then some (s.begin i op) else none
    | _ => none
  | .exec i env =>
    match s.calls i with
    | .live ⟨op, .eff e k, ph⟩ =>
      if blocked i env s.world e then none else some (s.perform i env op e k ph)
    | _ => none
  | .finish i =>
    match s.calls i with
    | .live ⟨_, .ret _, _⟩ => some (s.leave i)
    | _ => none
  | .crash i =>
    match s.calls i with
    | .live _ => some (s.leave i)
    | _ => none
  | .expire msgId => some (s.expire msgId)

/-- The system its clients drive. -/
def system (clients : Op → Bool) : Lts Sys Label := ⟨Sys.step clients⟩

/-- The states reachable from the empty database. -/
def Sys.Reachable (clients : Op → Bool) (s : Sys) : Prop :=
  (system clients).Reachable Sys.initial s

/-- The labels of a call with `n` effects that runs without interruption. -/
def Label.alone (i : CallId) (op : Op) (env : Env) (n : ℕ) : List Label :=
  .start i op :: List.replicate n (.exec i env) ++ [.finish i]

theorem servedBy_alone {jsonb : Json → Json} {env : Env} (i : CallId) (op : Op) (n : ℕ)
    (h : env.chance.jsonb = jsonb) : ServedBy jsonb (Label.alone i op env n) := by
  unfold Label.alone
  rw [servedBy_append]
  exact ⟨.cons (fun _ _ => Label.noConfusion) (servedBy_replicate n h),
    .cons (fun _ _ => Label.noConfusion) (servedBy_nil jsonb)⟩

section Steps

variable {clients : Op → Bool} {s s' : Sys} {i j : CallId}

theorem step_start {op : Op} (h : s.step clients (.start i op) = some s') :
    s.calls i = .idle ∧ clients op = true ∧
      s' = s.begin i op := by
  simp only [Sys.step] at h
  split at h
  · next hi =>
    rw [Option.ite_none_right_eq_some] at h
    exact ⟨hi, h.1, (Option.some.inj h.2).symm⟩
  · cases h

theorem step_exec {env : Env} (h : s.step clients (.exec i env) = some s') :
    ∃ (op : Op) (β : Type) (e : Eff β) (k : β → Prog Eff (Except Error op.Result)) (ph : op.Phase),
      s.calls i = .live ⟨op, .eff e k, ph⟩ ∧ blocked i env s.world e = false ∧
        s' = s.perform i env op e k ph := by
  simp only [Sys.step] at h
  split at h
  · next op β e k ph hi =>
    rw [Option.ite_none_left_eq_some] at h
    exact ⟨op, _, e, k, ph, hi, (Bool.not_eq_true _).mp h.1, (Option.some.inj h.2).symm⟩
  · cases h

theorem step_finish (h : s.step clients (.finish i) = some s') :
    ∃ op a ph, s.calls i = .live ⟨op, .ret a, ph⟩ ∧ s' = s.leave i := by
  simp only [Sys.step] at h
  split at h
  · next op a ph hi => exact ⟨op, a, ph, hi, (Option.some.inj h).symm⟩
  · cases h

theorem step_crash (h : s.step clients (.crash i) = some s') :
    ∃ c, s.calls i = .live c ∧ s' = s.leave i := by
  simp only [Sys.step] at h
  split at h
  · next c hi => exact ⟨c, hi, (Option.some.inj h).symm⟩
  · cases h

theorem step_expire {m : ℤ} (h : s.step clients (.expire m) = some s') :
    s' = s.expire m :=
  (Option.some.inj h).symm

/-- What the world answers is an answer the protocols rely on. -/
theorem handle_answers (i : CallId) {β : Type} (e : Eff β) (env : Env) (w : World) :
    e.answers (handle i e env w).1 := by
  cases e with
  | pool q =>
    cases q with
    | selectById id =>
      have hreply : (handle i (.pool (.selectById id)) env w).1 =
          (env.reply w.db (w.db.exec none env.chance (.selectById id))).1 := rfl
      rw [hreply, Db.exec_selectById, Env.reply]
      cases env.fault with
      | some f => trivial
      | none =>
        cases hr : w.db.row id with
        | none => trivial
        | some r => exact Db.rowOf_id hr
    | _ => trivial
  | _ => trivial

/-- Every live call is a client's, and somewhere in its protocol. -/
def Sys.Lawful (clients : Op → Bool) (s : Sys) : Prop :=
  ∀ i c, s.calls i = .live c →
    clients c.op = true ∧ c.op.protocol.Obeys c.op.Returns c.phase c.prog

theorem Sys.lawful_initial : Sys.initial.Lawful clients := by
  intro i c h
  cases h

/-- Replacing the slot of one call keeps the others lawful. -/
theorem Sys.Lawful.update (hs : s.Lawful clients) {x : Slot}
    (hx : ∀ c, x = .live c →
      clients c.op = true ∧ c.op.protocol.Obeys c.op.Returns c.phase c.prog)
    (hcalls : s'.calls = Function.update s.calls i x) : s'.Lawful clients := by
  intro j c hj
  rw [hcalls] at hj
  by_cases hji : j = i
  · subst hji
    rw [Function.update_self] at hj
    exact hx c hj
  · rw [Function.update_of_ne hji] at hj
    exact hs j c hj

theorem Sys.lawful_step {l : Label} (hs : s.Lawful clients) (h : s.step clients l = some s') :
    s'.Lawful clients := by
  cases l with
  | start i op =>
    obtain ⟨-, hop, rfl⟩ := step_start h
    refine hs.update (i := i) ?_ rfl
    rintro _ ⟨⟩
    exact ⟨hop, op.prog_obeys⟩
  | exec i env =>
    obtain ⟨op, β, e, k, ph, hi, -, rfl⟩ := step_exec h
    obtain ⟨hop, -, hk⟩ := hs i _ hi
    refine hs.update (i := i) ?_ rfl
    rintro _ ⟨⟩
    refine ⟨hop, hk _ ?_⟩
    rw [op.answers_eq]
    exact handle_answers i e env s.world
  | finish i =>
    obtain ⟨op, a, ph, -, rfl⟩ := step_finish h
    exact hs.update (i := i) (fun _ hc => by cases hc) rfl
  | crash i =>
    obtain ⟨c, -, rfl⟩ := step_crash h
    exact hs.update (i := i) (fun _ hc => by cases hc) rfl
  | expire m =>
    obtain rfl := step_expire h
    exact hs

theorem Sys.Reachable.later (h : s.Reachable clients) {ls : List Label}
    (hrun : (system clients).Run s ls s') : s'.Reachable clients := Lts.Reachable.run h hrun

theorem Sys.Reachable.next (h : s.Reachable clients) {l : Label}
    (hstep : s.step clients l = some s') : s'.Reachable clients := Lts.Reachable.step h hstep

theorem Sys.Reachable.lawful (h : s.Reachable clients) : s.Lawful clients :=
  Lts.reachable_invariant (fun _ _ _ => Sys.lawful_step) h Sys.lawful_initial

end Steps

/-! ### A call left alone -/

/-- Has no effect of a program that runs alone to wait for another transaction? -/
def unblocked {α : Type} (i : CallId) : Prog Eff α → (ℕ → Env) → World → Bool
  | .ret _, _, _ => true
  | .eff e k, env, w => !blocked i (env 0) w e &&
    unblocked i (k (handle i e (env 0) w).1) (fun n => env (n + 1)) (handle i e (env 0) w).2

section Alone

variable {clients : Op → Bool} {s : Sys} {i : CallId} {op : Op} {env : ℕ → Env}

variable (clients) in
/-- A live call that is left alone performs its program to the end. -/
theorem run_live {p : Prog Eff (Except Error op.Result)} {ph : op.Phase}
    (hi : s.calls i = .live ⟨op, p, ph⟩) (hfree : unblocked i p env s.world = true) :
    ∃ s' ph', (system clients).Run s
        ((List.range (p.steps (handle i) env s.world)).map fun n => .exec i (env n)) s' ∧
      s'.calls i = .live ⟨op, .ret (p.interp (handle i) env s.world).1, ph'⟩ ∧
      s'.world = (p.interp (handle i) env s.world).2 := by
  induction p generalizing s ph env with
  | ret a => exact ⟨s, ph, .refl s, hi, rfl⟩
  | eff e k ih =>
    rw [unblocked, Bool.and_eq_true, Bool.not_eq_true'] at hfree
    have hstep : s.step clients (.exec i (env 0)) = some (s.perform i (env 0) op e k ph) := by
      simp only [Sys.step, hi, hfree.1, Bool.false_eq_true, if_false]
    obtain ⟨s', ph', hrun, hcalls, hworld⟩ := ih (handle i e (env 0) s.world).1
      (s := s.perform i (env 0) op e k ph) (Sys.move_calls_self ..) hfree.2
    refine ⟨s', ph', ?_, hcalls, hworld⟩
    rw [Prog.steps, List.range_succ_eq_map, List.map_cons, List.map_map]
    exact .head hstep hrun

/-- Running a program alone is what the system does with a call nobody interrupts. -/
theorem run_alone (hi : s.calls i = .idle) (hop : clients op = true)
    (hfree : unblocked i op.prog env s.world = true) :
    ∃ s' ph', (system clients).Run s (.start i op ::
        (List.range (op.prog.steps (handle i) env s.world)).map fun n => .exec i (env n)) s' ∧
      s'.calls i = .live ⟨op, .ret (op.prog.interp (handle i) env s.world).1, ph'⟩ ∧
      s'.world = (op.prog.interp (handle i) env s.world).2 := by
  have hstart : s.step clients (.start i op) = some (s.begin i op) := by
    simp only [Sys.step, hi, hop, if_true]
  obtain ⟨s', ph', hrun, hcalls, hworld⟩ :=
    run_live clients (s := s.begin i op) (Sys.begin_calls_self ..) hfree
  exact ⟨s', ph', .head hstart hrun, hcalls, hworld⟩

end Alone

end Animus
