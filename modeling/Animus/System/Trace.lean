import Animus.System.Rows

/-!
# Traces

What the calls of a run did, in order: each effect with the answer it got.

## Main definitions

- `Answered`: an effect and its answer
- `Sys.trace`: the effects of a run, with who performed them
- `Sys.own`: those of one call

## Main results

- `Sys.trace_snoc`, `traced_cases`: what one step adds
- `Sys.Reachable.came`: how a `process_work` call came to its program
- `Sys.own_nil`: a call that has not begun did nothing
-/

namespace Animus

open Effect

/-- An effect and the answer it got. -/
structure Answered where
  {Ans : Type}
  eff : Eff Ans
  answer : Ans

/-- What a step adds to the trace. -/
def Sys.traced (s : Sys) : Label → List (CallId × Answered)
  | .exec i env =>
    match s.calls i with
    | .live ⟨_, .eff e _, _⟩ => [(i, ⟨e, (handle i e env s.world).1⟩)]
    | _ => []
  | _ => []

/-- The effects the calls of a run performed, from the empty database on. -/
def Sys.trace (clients : Op → Bool) (ls : List Label) : List (CallId × Answered) :=
  (system clients).emitted (fun s l _ => s.traced l) Sys.initial ls

/-- The effects one call of a run performed. -/
def Sys.own (clients : Op → Bool) (i : CallId) (ls : List Label) : List Answered :=
  ((Sys.trace clients ls).filter (·.1 = i)).map Prod.snd

section Steps

variable {clients : Op → Bool} {s s' : Sys} {l : Label} {ls : List Label}

theorem Sys.trace_snoc (hrun : (system clients).Run Sys.initial ls s)
    (h : s.step clients l = some s') :
    Sys.trace clients (ls ++ [l]) = Sys.trace clients ls ++ s.traced l := hrun.emitted_snoc h

theorem Sys.traced_exec {i : CallId} {env : Env} {op : Op} {β : Type} {e : Eff β}
    {k : β → Prog Eff (Except Error op.Result)} {ph : op.Phase}
    (hi : s.calls i = .live ⟨op, .eff e k, ph⟩) :
    s.traced (.exec i env) = [(i, ⟨e, (handle i e env s.world).1⟩)] := by
  simp only [Sys.traced, hi]

/-- What one step does to the slots and to the trace: one call performs an effect, or no effect is
performed and the world keeps its directories. -/
theorem traced_cases (h : s.step clients l = some s') :
    (∃ (i : CallId) (env : Env) (op : Op) (β : Type) (e : Eff β)
      (k : β → Prog Eff (Except Error op.Result)) (ph : op.Phase), l = .exec i env ∧
      s.calls i = .live ⟨op, .eff e k, ph⟩ ∧ s' = s.perform i env op e k ph ∧
      s.traced l = [(i, ⟨e, (handle i e env s.world).1⟩)]) ∨
    ((∀ i env, l ≠ .exec i env) ∧ s.traced l = [] ∧ s'.world.dirs = s.world.dirs) := by
  cases l with
  | exec i env =>
    obtain ⟨op, β, e, k, ph, hi, -, rfl⟩ := step_exec h
    exact .inl ⟨i, env, op, β, e, k, ph, rfl, hi, rfl, Sys.traced_exec hi⟩
  | start i op =>
    obtain ⟨-, -, rfl⟩ := step_start h
    exact .inr ⟨fun _ _ hl => (by cases hl), rfl, rfl⟩
  | finish i =>
    obtain ⟨op, a, ph, -, rfl⟩ := step_finish h
    exact .inr ⟨fun _ _ hl => (by cases hl), rfl, rfl⟩
  | crash i =>
    obtain ⟨c, -, rfl⟩ := step_crash h
    exact .inr ⟨fun _ _ hl => (by cases hl), rfl, rfl⟩
  | expire m =>
    obtain rfl := step_expire h
    exact .inr ⟨fun _ _ hl => (by cases hl), rfl, rfl⟩

theorem Sys.own_snoc (hrun : (system clients).Run Sys.initial ls s)
    (h : s.step clients l = some s') (i : CallId) :
    Sys.own clients i (ls ++ [l]) =
      Sys.own clients i ls ++ ((s.traced l).filter (·.1 = i)).map Prod.snd := by
  rw [Sys.own, Sys.trace_snoc hrun h, List.filter_append, List.map_append, Sys.own]

/-- Another call's effect is not a call's own. -/
theorem Sys.own_snoc_ne (hrun : (system clients).Run Sys.initial ls s)
    (h : s.step clients l = some s') {i j : CallId} {a : Answered} (ht : s.traced l = [(j, a)])
    (hj : j ≠ i) : Sys.own clients i (ls ++ [l]) = Sys.own clients i ls := by
  rw [Sys.own_snoc hrun h, ht]
  simp [hj]

theorem Sys.own_snoc_self (hrun : (system clients).Run Sys.initial ls s)
    (h : s.step clients l = some s') {i : CallId} {a : Answered} (ht : s.traced l = [(i, a)]) :
    Sys.own clients i (ls ++ [l]) = Sys.own clients i ls ++ [a] := by
  rw [Sys.own_snoc hrun h, ht]
  simp

/-- A step without an effect. -/
theorem Sys.own_snoc_quiet (hrun : (system clients).Run Sys.initial ls s)
    (h : s.step clients l = some s') (ht : s.traced l = []) (i : CallId) :
    Sys.own clients i (ls ++ [l]) = Sys.own clients i ls := by
  rw [Sys.own_snoc hrun h, ht]
  exact List.append_nil _

/-- How a `process_work` call came to its program: it had it before, it began, or it performed an
effect. -/
theorem Sys.Reachable.came (hr : s.Reachable clients) (h : s.step clients l = some s') {i : CallId}
    {cp : ControlPlane} {p : Prog Eff (Except Error Unit)} {ph : PlanePhase}
    (hi : s'.calls i = .live ⟨.process cp, p, ph⟩) :
    (s.calls i = .live ⟨.process cp, p, ph⟩ ∧ ∀ env, l ≠ .exec i env) ∨
    (s.calls i = .idle ∧ p = (processWork cp).run ∧ s.traced l = []) ∨
    ∃ (env : Env) (β : Type) (e : Eff β) (k : β → Prog Eff (Except Error Unit)) (ph₀ : PlanePhase),
      l = .exec i env ∧ s.calls i = .live ⟨.process cp, .eff e k, ph₀⟩ ∧
        s' = s.perform i env (.process cp) e k ph₀ ∧ p = k (handle i e env s.world).1 := by
  have hslot := (sysStep_of hr.inv.1 hr.inv.2 h).slot i
  obtain ⟨j, env, op, β, e, k, ph₀, rfl, hj, rfl, -⟩ | ⟨hexec, ht, -⟩ := traced_cases h
  · by_cases hji : i = j
    · subst hji
      rw [Sys.perform, Sys.move_calls_self] at hi
      cases hi
      exact .inr (.inr ⟨env, β, e, k, ph₀, rfl, hj, rfl, rfl⟩)
    · rw [Sys.perform, Sys.move_calls_ne _ hji] at hi
      refine .inl ⟨hi, fun env' heq => ?_⟩
      cases heq
      exact hji rfl
  · cases hslot with
    | stay hstay hl => exact .inl ⟨hstay ▸ hi, hl⟩
    | start hidle hstart =>
      cases hstart.symm.trans hi
      exact .inr (.inl ⟨hidle, rfl, ht⟩)
    | ended hend hl hdb => cases hend.symm.trans hi
    | submit hl => exact absurd hl (hexec i _)
    | change hl => exact absurd hl (hexec i _)
    | process hl => exact absurd hl (hexec i _)

/-- No call becomes idle again. -/
theorem SysStep.idle (h : SysStep clients s l s') {i : CallId} (hi : s'.calls i = .idle) :
    s.calls i = .idle ∧ ∀ env, l ≠ .exec i env := by
  cases h.slot i with
  | stay h hl => exact ⟨h.symm.trans hi, hl⟩
  | start hi' h => cases h.symm.trans hi
  | ended h hl hdb => cases h.symm.trans hi
  | submit hl hi' h => cases h.symm.trans hi
  | change hl hi' h => cases h.symm.trans hi
  | process hl hi' h => cases h.symm.trans hi

/-- A call that has not begun did nothing. -/
theorem Sys.own_nil (hrun : (system clients).Run Sys.initial ls s) {i : CallId}
    (hi : s.calls i = .idle) : Sys.own clients i ls = [] := by
  refine Lts.Run.snoc_induction (I := fun xs m => m.calls i = .idle → Sys.own clients i xs = [])
    (fun _ => rfl) (fun xs l m m' hxs ih (hstep : m.step clients l = some m') hidle => ?_) hrun hi
  have hinv := Sys.Reachable.inv ⟨xs, hxs⟩
  obtain ⟨hbefore, hne⟩ := (sysStep_of hinv.1 hinv.2 hstep).idle hidle
  obtain ⟨j, env, op, β, e, k, ph, rfl, hj, -, ht⟩ | ⟨-, ht, -⟩ := traced_cases hstep
  · have hji : j ≠ i := fun heq => hne env (by rw [heq])
    rw [Sys.own_snoc_ne hxs hstep ht hji]
    exact ih hbefore
  · rw [Sys.own_snoc_quiet hxs hstep ht]
    exact ih hbefore

end Steps

end Animus
