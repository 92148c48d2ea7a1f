import Animus.Lib.Transcript
import Animus.System.Telemetry

/-!
# What calls performed

The transcript of a call along a run, and what it says about the call: it is a
play of the protocol of its operation, and the rows it read are still there.

## Main definitions

- `Sys.performed`: what a call of a run performed

## Main results

- `Sys.call_induction`: what holds as a call begins and is kept by its effects
- `Sys.plays`: what a call performed leads to the phase it is in
- `Sys.lasting`: a row a call has read is there, with what every update keeps
-/

namespace Animus

open Effect

def Answered.event (a : Answered) : Event Eff := ⟨a.eff, a.answer⟩

/-- What call `i` performed. -/
def Sys.performed (clients : Op → Bool) (i : CallId) (ls : List Label) : List (Event Eff) :=
  (Sys.own clients i ls).map Answered.event

section Runs

variable {clients : Op → Bool} {s s' : Sys} {l : Label} {ls : List Label} {i : CallId}

theorem Sys.performed_exec (hrun : (system clients).Run Sys.initial ls s) {env : Env}
    (h : s.step clients (.exec i env) = some s') {op : Op} {β : Type} {e : Eff β}
    {k : β → Prog Eff (Except Error op.Result)} {ph : op.Phase}
    (hi : s.calls i = .live ⟨op, .eff e k, ph⟩) :
    Sys.performed clients i (ls ++ [.exec i env]) =
      Sys.performed clients i ls ++ [⟨e, (handle i e env s.world).1⟩] := by
  rw [Sys.performed, Sys.own_snoc_self hrun h (Sys.traced_exec hi), List.map_append]
  rfl

/-- One step adds to what a call performed the effect it performs, if it is the call's. -/
theorem Sys.performed_snoc (hrun : (system clients).Run Sys.initial ls s)
    (h : s.step clients l = some s') (i : CallId) :
    (Sys.performed clients i (ls ++ [l]) = Sys.performed clients i ls ∧ ∀ env, l ≠ .exec i env) ∨
    ∃ (env : Env) (op : Op) (β : Type) (e : Eff β) (k : β → Prog Eff (Except Error op.Result))
      (ph : op.Phase), l = .exec i env ∧ s.calls i = .live ⟨op, .eff e k, ph⟩ ∧
      s' = s.perform i env op e k ph ∧ Sys.performed clients i (ls ++ [l]) =
        Sys.performed clients i ls ++ [⟨e, (handle i e env s.world).1⟩] := by
  obtain ⟨j, env, op, β, e, k, ph, rfl, hj, rfl, ht⟩ | ⟨hne, ht, -⟩ := traced_cases h
  · by_cases hji : j = i
    · subst hji
      exact .inr ⟨env, op, β, e, k, ph, rfl, hj, rfl, Sys.performed_exec hrun h hj⟩
    · refine .inl ⟨congrArg (List.map Answered.event) (Sys.own_snoc_ne hrun h ht hji), ?_⟩
      intro env' heq
      cases heq
      exact hji rfl
  · exact .inl ⟨congrArg (List.map Answered.event) (Sys.own_snoc_quiet hrun h ht i),
      fun env => hne i env⟩

/-- A call that has not begun has performed nothing. -/
theorem Sys.performed_nil (hrun : (system clients).Run Sys.initial ls s) (hi : s.calls i = .idle) :
    Sys.performed clients i ls = [] := by
  rw [Sys.performed, Sys.own_nil hrun hi]
  rfl

/-- How a call in progress came to where it is. -/
inductive Came (s : Sys) (l : Label) (i : CallId) (c : Live) : Prop
  | stayed (h : s.calls i = .live c) (hl : ∀ env, l ≠ .exec i env)
  | began {op : Op} (hl : l = .start i op) (h : s.calls i = .idle)
      (hc : c = ⟨op, op.prog, op.first⟩)
  | performed {op : Op} {β : Type} {e : Eff β} {k : β → Prog Eff (Except Error op.Result)}
      {ph : op.Phase} {env : Env} (hl : l = .exec i env)
      (h : s.calls i = .live ⟨op, .eff e k, ph⟩)
      (hc : c = ⟨op, k (handle i e env s.world).1,
        op.protocol.next ph e (handle i e env s.world).1⟩)

theorem came_of_step (h : s.step clients l = some s') {c : Live} (hi : s'.calls i = .live c) :
    Came s l i c := by
  by_cases hcaller : l.caller = some i
  · cases l with
    | start j op =>
      cases hcaller
      obtain ⟨hidle, -, rfl⟩ := step_start h
      rw [Sys.begin_calls_self] at hi
      cases hi
      exact .began rfl hidle rfl
    | exec j env =>
      cases hcaller
      obtain ⟨op, β, e, k, ph, hj, -, rfl⟩ := step_exec h
      rw [Sys.perform, Sys.move_calls_self] at hi
      cases hi
      exact .performed rfl hj rfl
    | finish j =>
      cases hcaller
      obtain ⟨op, a, ph, -, rfl⟩ := step_finish h
      cases (Sys.leave_calls_self s i).symm.trans hi
    | crash j =>
      cases hcaller
      obtain ⟨c, -, rfl⟩ := step_crash h
      cases (Sys.leave_calls_self s i).symm.trans hi
    | expire m => cases hcaller
  · refine .stayed ((step_calls_ne h hcaller).symm.trans hi) fun env hl => ?_
    subst hl
    exact hcaller rfl

/-- What holds of a call as it begins, and is kept by each effect it performs, holds of every call
in progress and what it performed. -/
theorem Sys.call_induction {I : Live → List (Event Eff) → Prop}
    (base : ∀ op : Op, I ⟨op, op.prog, op.first⟩ [])
    (step : ∀ (op : Op) {β : Type} (e : Eff β) (k : β → Prog Eff (Except Error op.Result))
      (ph : op.Phase) (t : List (Event Eff)), I ⟨op, .eff e k, ph⟩ t → ∀ r, e.answers r →
      I ⟨op, k r, op.protocol.next ph e r⟩ (t ++ [⟨e, r⟩]))
    (hrun : (system clients).Run Sys.initial ls s) {c : Live} (hi : s.calls i = .live c) :
    I c (Sys.performed clients i ls) := by
  refine Lts.Run.snoc_induction (I := fun xs m => ∀ c, m.calls i = .live c →
    I c (Sys.performed clients i xs)) (fun _ h => by cases h) ?_ hrun c hi
  intro xs l m m' hxs ih (hstep : m.step clients l = some m') c hi
  cases came_of_step hstep hi with
  | stayed h hl =>
    obtain ⟨hsame, -⟩ | ⟨env, op, β, e, k, ph, rfl, -⟩ := Sys.performed_snoc hxs hstep i
    · rw [hsame]
      exact ih c h
    · exact absurd rfl (hl env)
  | began hl h hc =>
    obtain ⟨hsame, -⟩ | ⟨env, op, β, e, k, ph, rfl, -⟩ := Sys.performed_snoc hxs hstep i
    · rw [hsame, Sys.performed_nil hxs h, hc]
      exact base _
    · cases hl
  | performed hl h hc =>
    subst hl
    rw [Sys.performed_exec hxs hstep h, hc]
    exact step _ _ _ _ _ (ih _ h) _ (handle_answers i _ _ m.world)

/-- A call in progress was started. -/
theorem Sys.start_mem (hrun : (system clients).Run Sys.initial ls s) {c : Live}
    (hi : s.calls i = .live c) : Label.start i c.op ∈ ls := by
  refine Lts.Run.snoc_induction (I := fun xs m => ∀ c, m.calls i = .live c →
    Label.start i c.op ∈ xs) (fun _ h => by cases h) ?_ hrun c hi
  intro xs l m m' hxs ih (hstep : m.step clients l = some m') c hi
  cases came_of_step hstep hi with
  | stayed h hl => exact List.mem_append_left _ (ih c h)
  | began hl h hc =>
    subst hl hc
    exact List.mem_append_right _ (List.mem_singleton_self _)
  | @performed op β e k ph env hl h hc =>
    subst hc
    exact List.mem_append_left _ (ih ⟨op, .eff e k, ph⟩ h)

/-- What a call performed is a play of its protocol, which leads to its phase. -/
theorem Sys.plays (hrun : (system clients).Run Sys.initial ls s) {c : Live}
    (hi : s.calls i = .live c) :
    Plays c.op.protocol c.op.first (Sys.performed clients i ls) c.phase := by
  refine (Sys.call_induction (I := fun c t => c.op.protocol.Obeys c.op.Returns c.phase c.prog ∧
    Plays c.op.protocol c.op.first t c.phase) (fun op => ⟨op.prog_obeys, rfl⟩) ?_ hrun hi).2
  intro op β e k ph t ⟨⟨ha, hk⟩, ht⟩ r hr
  rw [← op.answers_eq] at hr
  exact ⟨hk r hr, ht.snoc ha⟩

/-- A read of a row on the pool is answered with a committed row. -/
theorem row_of_selectById {id : WorkId} {env : Env} {w : World} {row : Row}
    (h : (handle i (.pool (.selectById id)) env w).1 = .ok (some row)) :
    w.db.row id = some row := by
  have hreply : (env.reply w.db (w.db.exec none env.chance (.selectById id))).1 =
      .ok (some row) := h
  rw [Db.exec_selectById, Env.reply] at hreply
  cases hf : env.fault with
  | some f =>
    rw [hf] at hreply
    cases hreply
  | none =>
    rw [hf] at hreply
    exact Except.ok.inj hreply

/-- A row a call has read is there, with what every update keeps. -/
theorem Sys.lasting (hrun : (system clients).Run Sys.initial ls s) {id : WorkId} {row : Row}
    {P : Row → Prop} (keep : ∀ r r' : Row, r.Evolves r' → P r → P r')
    (hrow : ∀ m : Sys, m.Reachable clients → m.db.row id = some row → P row)
    (hmem : (⟨.pool (.selectById id), .ok (some row)⟩ : Event Eff) ∈
      Sys.performed clients i ls) : ∃ r, s.db.row id = some r ∧ P r := by
  refine Lts.Run.snoc_induction (I := fun xs m =>
    (⟨.pool (.selectById id), .ok (some row)⟩ : Event Eff) ∈ Sys.performed clients i xs →
    ∃ r, m.db.row id = some r ∧ P r) (fun h => by cases h) ?_ hrun hmem
  intro xs l m m' hxs ih (hstep : m.step clients l = some m') hmem
  have hbefore : ∃ r, m.db.row id = some r ∧ P r := by
    obtain ⟨hsame, -⟩ | ⟨env, op, β, e, k, ph, -, -, -, hmore⟩ := Sys.performed_snoc hxs hstep i
    · exact ih (hsame ▸ hmem)
    · rw [hmore] at hmem
      obtain hmem | hmem := List.mem_append.mp hmem
      · exact ih hmem
      · injection List.mem_singleton.mp hmem with hβ he ha
        subst hβ
        cases he
        have hr := row_of_selectById (eq_of_heq ha).symm
        exact ⟨row, hr, hrow m ⟨xs, hxs⟩ hr⟩
  obtain ⟨r, hr, hP⟩ := hbefore
  have hreach : m.Reachable clients := ⟨xs, hxs⟩
  obtain ⟨r', hr', hev⟩ := (hreach.rowStep hstep).evolves hr
  exact ⟨r', hr', keep r r' hev hP⟩

end Runs

end Animus
