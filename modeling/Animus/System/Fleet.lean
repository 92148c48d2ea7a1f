import Animus.Lib.Notify
import Animus.System.Telemetry
import Mathlib.Data.List.Perm.Subperm

/-!
# Run loops

`ControlPlane::run`, any number of times at once: each loop waits for a signal
to shut down, a notification or its poll interval, then awaits one
`process_work` call. Clones of a control plane share the signal, which is any
notifier; what is said of signals needs the laws of notifiers.

## Main definitions

- `Loop`: where a `run` call is
- `Fleet`: the system, its loops, and the shutdown signal of each control plane
- `fleet`: the transition system

## Main results

- `Fleet.step_run`: a step of the fleet is a run of the system
- `fleet_runs_in_the_system`: a fleet drives the system, one call a loop
- `shutdowns_are_accounted_for`
-/

namespace Animus

open Effect

abbrev LoopId := ℕ

/-- The steps of `run` before its loop; each may fail. -/
inductive Setup
  | createDirAll
  | connect
  | listen

/-- Where a `run` call is. -/
inductive Loop
  | unspawned
  | starting (cp : ControlPlane) (stage : Setup)
  /-- In `select!`: for the signal, a notification or the poll interval. -/
  | selecting (cp : ControlPlane)
  /-- It awaits its `process_work` call. -/
  | working (cp : ControlPlane) (call : CallId)
  | returned (r : Except Error Unit)
  /-- Its task is gone. -/
  | killed

structure Fleet (N : Type) where
  sys : Sys
  loops : LoopId → Loop
  shutdown : PlaneId → N

variable {N : Type}

def Fleet.initial (T : Notifier N) : Fleet N :=
  ⟨Sys.initial, fun _ => .unspawned, fun _ => T.new⟩

inductive FleetLabel
  | spawn (i : LoopId) (cp : ControlPlane)
  | setup (i : LoopId) (r : Except Error Unit)
  /-- `select!` polls `shutdown.notified()`. -/
  | poll (i : LoopId)
  /-- A notification, an error of the listener or the end of the poll interval. -/
  | wake (i : LoopId) (call : CallId)
  /-- The `process_work` call returned; an error is only logged. -/
  | settle (i : LoopId)
  | kill (i : LoopId)
  | shutdown (p : PlaneId)
  /-- A step of the system that is not the loop's own. -/
  | other (l : Label)

/-- After one of the steps before the loop. -/
def Setup.next (cp : ControlPlane) : Setup → Loop
  | .createDirAll => .starting cp .connect
  | .connect => .starting cp .listen
  | .listen => .selecting cp

/-- The control plane of a `process_work` call in progress. -/
def Slot.control : Slot → Option ControlPlane
  | .live ⟨.process cp, _, _⟩ => some cp
  | _ => none

/-- Only a loop begins and ends `process_work` calls. -/
def Fleet.free (s : Sys) : Label → Bool
  | .start _ (.process _) => false
  | .finish c | .crash c => (s.calls c).control.isNone
  | _ => true

/-- The fleet after a loop went on. -/
def Fleet.go (f : Fleet N) (i : LoopId) (x : Loop) : Fleet N :=
  { f with loops := Function.update f.loops i x }

/-- The fleet after the signal of a control plane changed. -/
def Fleet.signal (f : Fleet N) (p : PlaneId) (n : N) : Fleet N :=
  { f with shutdown := Function.update f.shutdown p n }

/-- The fleet after a step of the system. -/
def Fleet.inSys (f : Fleet N) (clients : Op → Bool) (l : Label) : Option (Fleet N) :=
  (f.sys.step clients l).map fun s => { f with sys := s }

def Fleet.step (T : Notifier N) (clients : Op → Bool) (f : Fleet N) :
    FleetLabel → Option (Fleet N)
  | .spawn i cp =>
    match f.loops i with
    | .unspawned => some (f.go i (.starting cp .createDirAll))
    | _ => none
  | .setup i r =>
    match f.loops i, r with
    | .starting cp st, .ok () => some (f.go i (st.next cp))
    | .starting _ _, .error e => some (f.go i (.returned (.error e)))
    | _, _ => none
  | .poll i =>
    match f.loops i with
    | .selecting cp =>
      let (served, n) := T.poll (f.shutdown cp.plane) i
      let f' := f.signal cp.plane n
      some (if served then f'.go i (.returned (.ok ())) else f')
    | _ => none
  | .wake i call =>
    match f.loops i with
    | .selecting cp =>
      -- the future of the signal is dropped with the other branches
      ((f.signal cp.plane (T.drop (f.shutdown cp.plane) i)).go i (.working cp call)).inSys clients
        (.start call (.process cp))
    | _ => none
  | .settle i =>
    match f.loops i with
    | .working cp call => (f.go i (.selecting cp)).inSys clients (.finish call)
    | _ => none
  | .kill i =>
    match f.loops i with
    | .starting _ _ => some (f.go i .killed)
    | .selecting cp => some ((f.signal cp.plane (T.drop (f.shutdown cp.plane) i)).go i .killed)
    | .working _ call => (f.go i .killed).inSys clients (.crash call)
    | _ => none
  | .shutdown p => some (f.signal p (T.notifyOne (f.shutdown p)))
  | .other l => if Fleet.free f.sys l then f.inSys clients l else none

/-- The loops, and whoever else uses the system. -/
def fleet (T : Notifier N) (clients : Op → Bool) : Lts (Fleet N) FleetLabel :=
  ⟨Fleet.step T clients⟩

/-- What a step of the fleet does in the system. -/
def Fleet.labels (f : Fleet N) : FleetLabel → List Label
  | .wake i call =>
    match f.loops i with
    | .selecting cp => [.start call (.process cp)]
    | _ => []
  | .settle i =>
    match f.loops i with
    | .working _ call => [.finish call]
    | _ => []
  | .kill i =>
    match f.loops i with
    | .working _ call => [.crash call]
    | _ => []
  | .other l => [l]
  | _ => []

/-- What a run of the fleet does in the system. -/
def Fleet.sysLabels (T : Notifier N) (clients : Op → Bool) (ls : List FleetLabel) : List Label :=
  (fleet T clients).emitted (fun f l _ => f.labels l) (Fleet.initial T) ls

/-- The steps of the fleet, by what its loops and the system do. -/
inductive FleetStep (T : Notifier N) (clients : Op → Bool) (f : Fleet N) :
    FleetLabel → Fleet N → Prop
  | spawn {i : LoopId} {cp : ControlPlane} (hi : f.loops i = .unspawned) :
      FleetStep T clients f (.spawn i cp) (f.go i (.starting cp .createDirAll))
  | setup {i : LoopId} {cp : ControlPlane} {st : Setup} (hi : f.loops i = .starting cp st) :
      FleetStep T clients f (.setup i (.ok ())) (f.go i (st.next cp))
  | refuse {i : LoopId} {cp : ControlPlane} {st : Setup} {e : Error}
      (hi : f.loops i = .starting cp st) :
      FleetStep T clients f (.setup i (.error e)) (f.go i (.returned (.error e)))
  | wait {i : LoopId} {cp : ControlPlane} (hi : f.loops i = .selecting cp)
      (hserved : (T.poll (f.shutdown cp.plane) i).1 = false) :
      FleetStep T clients f (.poll i) (f.signal cp.plane (T.poll (f.shutdown cp.plane) i).2)
  | stop {i : LoopId} {cp : ControlPlane} (hi : f.loops i = .selecting cp)
      (hserved : (T.poll (f.shutdown cp.plane) i).1 = true) :
      FleetStep T clients f (.poll i)
        ((f.signal cp.plane (T.poll (f.shutdown cp.plane) i).2).go i (.returned (.ok ())))
  | wake {i : LoopId} {call : CallId} {cp : ControlPlane} {s : Sys}
      (hi : f.loops i = .selecting cp)
      (hs : f.sys.step clients (.start call (.process cp)) = some s) :
      FleetStep T clients f (.wake i call)
        { (f.signal cp.plane (T.drop (f.shutdown cp.plane) i)).go i (.working cp call) with
          sys := s }
  | settle {i : LoopId} {call : CallId} {cp : ControlPlane} {s : Sys}
      (hi : f.loops i = .working cp call) (hs : f.sys.step clients (.finish call) = some s) :
      FleetStep T clients f (.settle i) { f.go i (.selecting cp) with sys := s }
  | killEarly {i : LoopId} {cp : ControlPlane} {st : Setup} (hi : f.loops i = .starting cp st) :
      FleetStep T clients f (.kill i) (f.go i .killed)
  | killIdle {i : LoopId} {cp : ControlPlane} (hi : f.loops i = .selecting cp) :
      FleetStep T clients f (.kill i)
        ((f.signal cp.plane (T.drop (f.shutdown cp.plane) i)).go i .killed)
  | killWorking {i : LoopId} {call : CallId} {cp : ControlPlane} {s : Sys}
      (hi : f.loops i = .working cp call) (hs : f.sys.step clients (.crash call) = some s) :
      FleetStep T clients f (.kill i) { f.go i .killed with sys := s }
  | shutdown (p : PlaneId) :
      FleetStep T clients f (.shutdown p) (f.signal p (T.notifyOne (f.shutdown p)))
  | other {l : Label} {s : Sys} (hfree : Fleet.free f.sys l = true)
      (hs : f.sys.step clients l = some s) : FleetStep T clients f (.other l) { f with sys := s }

section Steps

variable {T : Notifier N} {clients : Op → Bool} {f f' : Fleet N} {l : FleetLabel}
  {ls : List FleetLabel}

theorem Fleet.inSys_eq_some {k : Label} :
    f.inSys clients k = some f' ↔
      ∃ s, f.sys.step clients k = some s ∧ f' = { f with sys := s } := by
  rw [Fleet.inSys, Option.map_eq_some_iff]
  exact exists_congr fun s => and_congr_right fun _ => eq_comm

theorem fleetStep_of (h : f.step T clients l = some f') : FleetStep T clients f l f' := by
  cases l with
  | spawn i cp =>
    simp only [Fleet.step] at h
    split at h
    · next hi =>
      cases h
      exact .spawn hi
    · cases h
  | setup i r =>
    simp only [Fleet.step] at h
    split at h
    · next hi =>
      cases h
      exact .setup hi
    · next hi =>
      cases h
      exact .refuse hi
    · cases h
  | poll i =>
    simp only [Fleet.step] at h
    split at h
    · next cp hi =>
      cases hserved : (T.poll (f.shutdown cp.plane) i).1 with
      | true =>
        rw [hserved, if_pos rfl] at h
        cases h
        exact .stop hi hserved
      | false =>
        rw [hserved, if_neg Bool.false_ne_true] at h
        cases h
        exact .wait hi hserved
    · cases h
  | wake i call =>
    simp only [Fleet.step] at h
    split at h
    · next cp hi =>
      obtain ⟨s, hs, rfl⟩ := Fleet.inSys_eq_some.mp h
      exact .wake hi hs
    · cases h
  | settle i =>
    simp only [Fleet.step] at h
    split at h
    · next cp call hi =>
      obtain ⟨s, hs, rfl⟩ := Fleet.inSys_eq_some.mp h
      exact .settle hi hs
    · cases h
  | kill i =>
    simp only [Fleet.step] at h
    split at h
    · next hi =>
      cases h
      exact .killEarly hi
    · next hi =>
      cases h
      exact .killIdle hi
    · next cp call hi =>
      obtain ⟨s, hs, rfl⟩ := Fleet.inSys_eq_some.mp h
      exact .killWorking hi hs
    · cases h
  | shutdown p =>
    cases h
    exact .shutdown p
  | other k =>
    simp only [Fleet.step, Option.ite_none_right_eq_some] at h
    obtain ⟨s, hs, rfl⟩ := Fleet.inSys_eq_some.mp h.2
    exact .other h.1 hs

/-- A step of the fleet is a run of the system. -/
theorem Fleet.step_run (h : f.step T clients l = some f') :
    (system clients).Run f.sys (f.labels l) f'.sys := by
  cases fleetStep_of h with
  | wake hi hs =>
    rw [Fleet.labels, hi]
    exact .head hs (.refl _)
  | settle hi hs =>
    rw [Fleet.labels, hi]
    exact .head hs (.refl _)
  | killWorking hi hs =>
    rw [Fleet.labels, hi]
    exact .head hs (.refl _)
  | killEarly hi =>
    rw [Fleet.labels, hi]
    exact .refl _
  | killIdle hi =>
    rw [Fleet.labels, hi]
    exact .refl _
  | other hfree hs => exact .head hs (.refl _)
  | _ => exact .refl _

theorem Fleet.sys_run (hrun : (fleet T clients).Run (Fleet.initial T) ls f) :
    (system clients).Run Sys.initial (Fleet.sysLabels T clients ls) f.sys :=
  hrun.simulates (f := Fleet.sys) fun _ _ _ => Fleet.step_run

/-! ### Who awaits whom -/

section Control

variable {s s' : Sys} {c j : CallId}

/-- A step that is not a loop's own neither begins nor ends a `process_work` call. -/
theorem control_of_free {k : Label} (h : s.step clients k = some s')
    (hfree : Fleet.free s k = true) (j : CallId) :
    (s'.calls j).control = (s.calls j).control := by
  by_cases hj : k.caller = some j
  · cases k with
    | start i op =>
      cases hj
      obtain ⟨hidle, -, rfl⟩ := step_start h
      rw [Sys.begin_calls_self, hidle]
      cases op <;> first | rfl | cases hfree
    | exec i env =>
      cases hj
      obtain ⟨op, β, e, k, ph, hi, -, rfl⟩ := step_exec h
      rw [Sys.perform, Sys.move_calls_self, hi]
      cases op <;> rfl
    | finish i =>
      cases hj
      obtain ⟨op, a, ph, -, rfl⟩ := step_finish h
      rw [Sys.leave_calls_self]
      exact (Option.isNone_iff_eq_none.mp hfree).symm
    | crash i =>
      cases hj
      obtain ⟨c, -, rfl⟩ := step_crash h
      rw [Sys.leave_calls_self]
      exact (Option.isNone_iff_eq_none.mp hfree).symm
    | expire m => cases hj
  · rw [step_calls_ne h hj]

theorem control_of_start {cp : ControlPlane}
    (h : s.step clients (.start c (.process cp)) = some s') :
    (s.calls c).control = none ∧
      ∀ j, (s'.calls j).control = if j = c then some cp else (s.calls j).control := by
  obtain ⟨hidle, -, rfl⟩ := step_start h
  refine ⟨by rw [hidle]; rfl, fun j => ?_⟩
  by_cases hj : j = c
  · rw [hj, Sys.begin_calls_self, if_pos rfl]
    rfl
  · rw [Sys.begin_calls_ne _ hj, if_neg hj]

theorem control_of_leave {k : Label} (hk : k = .finish c ∨ k = .crash c)
    (h : s.step clients k = some s') (j : CallId) :
    (s'.calls j).control = if j = c then none else (s.calls j).control := by
  have hleave : s' = s.leave c := by
    obtain rfl | rfl := hk
    · obtain ⟨op, a, ph, -, rfl⟩ := step_finish h
      rfl
    · obtain ⟨c, -, rfl⟩ := step_crash h
      rfl
  subst hleave
  by_cases hj : j = c
  · rw [hj, Sys.leave_calls_self, if_pos rfl]
    rfl
  · rw [Sys.leave_calls_ne _ hj, if_neg hj]

end Control

/-- The call a loop awaits. -/
def Loop.call : Loop → Option (ControlPlane × CallId)
  | .working cp c => some (cp, c)
  | _ => none

/-- Loops and `process_work` calls in progress go together. -/
structure Fleet.Inv (f : Fleet N) : Prop where
  working : ∀ i cp c, (f.loops i).call = some (cp, c) → (f.sys.calls c).control = some cp
  owned : ∀ c cp, (f.sys.calls c).control = some cp → ∃ i, (f.loops i).call = some (cp, c)
  unique : ∀ i j cp cp' c, (f.loops i).call = some (cp, c) →
    (f.loops j).call = some (cp', c) → i = j

theorem Fleet.inv_initial (T : Notifier N) : (Fleet.initial T).Inv where
  working _ _ _ h := by cases h
  owned _ _ h := by cases h
  unique _ _ _ _ _ h := by cases h

/-- A loop that awaits no call goes on to await none. -/
theorem Fleet.Inv.idle (h : f.Inv) {i : LoopId} {x : Loop} (hi : (f.loops i).call = none)
    (hx : x.call = none) (hloops : f'.loops = Function.update f.loops i x)
    (hsys : f'.sys = f.sys) : f'.Inv := by
  have hcall : ∀ j, (f'.loops j).call = (f.loops j).call := by
    intro j
    rw [hloops]
    by_cases hj : j = i
    · rw [hj, Function.update_self, hx, hi]
    · rw [Function.update_of_ne hj]
  constructor
  · intro j cp c hj
    rw [hsys]
    exact h.working j cp c ((hcall j).symm.trans hj)
  · intro c cp hc
    rw [hsys] at hc
    obtain ⟨j, hj⟩ := h.owned c cp hc
    exact ⟨j, (hcall j).trans hj⟩
  · intro j j' cp cp' c hj hj'
    exact h.unique j j' cp cp' c ((hcall j).symm.trans hj) ((hcall j').symm.trans hj')

/-- A loop begins a call. -/
theorem Fleet.Inv.begins (h : f.Inv) {i : LoopId} {cp : ControlPlane} {c : CallId}
    (hi : (f.loops i).call = none) (hfresh : (f.sys.calls c).control = none)
    (hloops : f'.loops = Function.update f.loops i (.working cp c))
    (hsys : ∀ j, (f'.sys.calls j).control = if j = c then some cp else (f.sys.calls j).control) :
    f'.Inv := by
  have hne : ∀ {j cp' c'}, (f.loops j).call = some (cp', c') → j ≠ i ∧ c' ≠ c := by
    intro j cp' c' hj
    constructor
    · rintro rfl
      rw [hi] at hj
      cases hj
    · rintro rfl
      rw [h.working j cp' c' hj] at hfresh
      cases hfresh
  have hcall : ∀ j cp' c', (f'.loops j).call = some (cp', c') ↔
      (j = i ∧ cp' = cp ∧ c' = c) ∨ (f.loops j).call = some (cp', c') := by
    intro j cp' c'
    rw [hloops]
    by_cases hj : j = i
    · rw [hj, Function.update_self, hi]
      simp only [Loop.call, Option.some.injEq, Prod.mk.injEq, true_and, reduceCtorEq, or_false]
      exact ⟨fun h => ⟨h.1.symm, h.2.symm⟩, fun h => ⟨h.1.symm, h.2.symm⟩⟩
    · rw [Function.update_of_ne hj]
      simp [hj]
  constructor
  · intro j cp' c' hj
    rw [hsys]
    obtain ⟨-, rfl, rfl⟩ | hj := (hcall j cp' c').mp hj
    · rw [if_pos rfl]
    · rw [if_neg (hne hj).2]
      exact h.working j cp' c' hj
  · intro c' cp' hc
    rw [hsys] at hc
    split at hc
    · next heq =>
      cases hc
      exact ⟨i, (hcall i _ _).mpr (.inl ⟨rfl, rfl, heq⟩)⟩
    · obtain ⟨j, hj⟩ := h.owned c' cp' hc
      exact ⟨j, (hcall j _ _).mpr (.inr hj)⟩
  · intro j j' cp₁ cp₂ c' hj hj'
    obtain ⟨rfl, -, rfl⟩ | hj := (hcall j _ _).mp hj
    · obtain ⟨rfl, -, -⟩ | hj' := (hcall j' _ _).mp hj'
      · rfl
      · exact absurd rfl (hne hj').2
    · obtain ⟨-, -, rfl⟩ | hj' := (hcall j' _ _).mp hj'
      · exact absurd rfl (hne hj).2
      · exact h.unique j j' _ _ _ hj hj'

/-- The call a loop awaits is gone. -/
theorem Fleet.Inv.ends (h : f.Inv) {i : LoopId} {cp : ControlPlane} {c : CallId} {x : Loop}
    (hi : (f.loops i).call = some (cp, c)) (hx : x.call = none)
    (hloops : f'.loops = Function.update f.loops i x)
    (hsys : ∀ j, (f'.sys.calls j).control = if j = c then none else (f.sys.calls j).control) :
    f'.Inv := by
  have hcall : ∀ j cp' c', (f'.loops j).call = some (cp', c') ↔
      j ≠ i ∧ (f.loops j).call = some (cp', c') := by
    intro j cp' c'
    rw [hloops]
    by_cases hj : j = i
    · rw [hj, Function.update_self, hx]
      simp
    · rw [Function.update_of_ne hj]
      simp [hj]
  constructor
  · intro j cp' c' hj
    obtain ⟨hne, hj⟩ := (hcall j cp' c').mp hj
    rw [hsys, if_neg]
    · exact h.working j cp' c' hj
    · rintro rfl
      exact hne (h.unique j i _ _ _ hj hi)
  · intro c' cp' hc
    rw [hsys] at hc
    split at hc
    · cases hc
    · next hne =>
      obtain ⟨j, hj⟩ := h.owned c' cp' hc
      refine ⟨j, (hcall j _ _).mpr ⟨?_, hj⟩⟩
      rintro rfl
      rw [hi] at hj
      cases hj
      exact hne rfl
  · intro j j' cp₁ cp₂ c' hj hj'
    exact h.unique j j' _ _ _ ((hcall j _ _).mp hj).2 ((hcall j' _ _).mp hj').2

theorem FleetStep.inv (hstep : FleetStep T clients f l f') (h : f.Inv) : f'.Inv := by
  cases hstep with
  | spawn hi => exact h.idle (by rw [hi]; rfl) rfl rfl rfl
  | @setup i cp st hi => exact h.idle (by rw [hi]; rfl) (by cases st <;> rfl) rfl rfl
  | refuse hi => exact h.idle (by rw [hi]; rfl) rfl rfl rfl
  | wait hi hserved => exact ⟨h.working, h.owned, h.unique⟩
  | stop hi hserved => exact h.idle (by rw [hi]; rfl) rfl rfl rfl
  | wake hi hs =>
    obtain ⟨hfresh, hcontrol⟩ := control_of_start hs
    exact h.begins (by rw [hi]; rfl) hfresh rfl hcontrol
  | settle hi hs => exact h.ends (by rw [hi]; rfl) rfl rfl (control_of_leave (.inl rfl) hs)
  | killEarly hi => exact h.idle (by rw [hi]; rfl) rfl rfl rfl
  | killIdle hi => exact h.idle (by rw [hi]; rfl) rfl rfl rfl
  | killWorking hi hs => exact h.ends (by rw [hi]; rfl) rfl rfl (control_of_leave (.inr rfl) hs)
  | shutdown p => exact ⟨h.working, h.owned, h.unique⟩
  | other hfree hs =>
    have hsame := control_of_free hs hfree
    exact ⟨fun i cp c hi => (hsame c).trans (h.working i cp c hi),
      fun c cp hc => h.owned c cp ((hsame c).symm.trans hc), h.unique⟩

theorem Fleet.inv (hrun : (fleet T clients).Run (Fleet.initial T) ls f) : f.Inv :=
  Lts.run_invariant (I := Fleet.Inv) (fun m k m' h (hstep : m.step T clients k = some m') =>
    (fleetStep_of hstep).inv h) hrun (Fleet.inv_initial T)

/-- A fleet drives the system: what it does is a run of it, in which each `process_work` call in
progress is awaited by one loop, and no loop awaits two. So a control plane has never more calls in
progress than it has loops. -/
theorem fleet_runs_in_the_system (hrun : (fleet T clients).Run (Fleet.initial T) ls f) :
    (system clients).Run Sys.initial (Fleet.sysLabels T clients ls) f.sys ∧
    (∀ i cp c, f.loops i = .working cp c → (f.sys.calls c).control = some cp) ∧
    (∀ c cp, (f.sys.calls c).control = some cp → ∃! i, f.loops i = .working cp c) ∧
    ∀ (p : PlaneId) (cs : List CallId) (is : List LoopId), cs.Nodup →
      (∀ c ∈ cs, ∃ cp, (f.sys.calls c).control = some cp ∧ cp.plane = p) →
      (∀ i cp c, f.loops i = .working cp c → cp.plane = p → i ∈ is) → cs.length ≤ is.length := by
  have hinv := Fleet.inv hrun
  have hcall : ∀ i cp c, (f.loops i).call = some (cp, c) ↔ f.loops i = .working cp c := by
    intro i cp c
    cases f.loops i <;> simp [Loop.call]
  have howned : ∀ c cp, (f.sys.calls c).control = some cp → ∃ i, f.loops i = .working cp c := by
    intro c cp hc
    obtain ⟨i, hi⟩ := hinv.owned c cp hc
    exact ⟨i, (hcall i cp c).mp hi⟩
  refine ⟨Fleet.sys_run hrun, fun i cp c hi => hinv.working i cp c ((hcall i cp c).mpr hi), ?_, ?_⟩
  · intro c cp hc
    obtain ⟨i, hi⟩ := howned c cp hc
    exact ⟨i, hi, fun j hj => hinv.unique j i cp cp c ((hcall j cp c).mpr hj)
      ((hcall i cp c).mpr hi)⟩
  · intro p cs is hnodup hcs his
    -- each call has its loop, and a loop has one call
    have hloop : ∀ c, ∃ i, c ∈ cs → i ∈ is ∧ ∃ cp, f.loops i = .working cp c := by
      intro c
      by_cases hc : c ∈ cs
      · obtain ⟨cp, hcp, hp⟩ := hcs c hc
        obtain ⟨i, hi⟩ := howned c cp hcp
        exact ⟨i, fun _ => ⟨his i cp c hi hp, cp, hi⟩⟩
      · exact ⟨0, fun h => absurd h hc⟩
    choose loop hloop using hloop
    have hinj : (cs.map loop).Nodup := by
      refine List.Nodup.map_on (fun c hc c' hc' heq => ?_) hnodup
      obtain ⟨-, cp, hi⟩ := hloop c hc
      obtain ⟨-, cp', hi'⟩ := hloop c' hc'
      rw [heq, hi'] at hi
      cases hi
      rfl
    have hsub : cs.map loop ⊆ is := by
      intro i hi
      obtain ⟨c, hc, rfl⟩ := List.mem_map.mp hi
      exact (hloop c hc).1
    have hle := (hinj.subperm hsub).length_le
    rwa [List.length_map] at hle

/-! ### Signals -/

/-- A loop of the control plane takes a signal to shut down. -/
def Fleet.stops (T : Notifier N) (p : PlaneId) (f : Fleet N) : FleetLabel → Bool
  | .poll i =>
    match f.loops i with
    | .selecting cp => decide (cp.plane = p) && (T.poll (f.shutdown cp.plane) i).1
    | _ => false
  | _ => false

/-- A signal finds another one stored that no loop has taken. -/
def Fleet.merges (T : Notifier N) (p : PlaneId) (f : Fleet N) : FleetLabel → Bool
  | .shutdown p' => decide (p' = p) && (T.seen (f.shutdown p')).merges
  | .wake i _ | .kill i =>
    match f.loops i with
    | .selecting cp => decide (cp.plane = p) && (T.seen (f.shutdown cp.plane)).dropMerges i
    | _ => false
  | _ => false

/-- `shutdown()` of the control plane. -/
def Fleet.shuts (p : PlaneId) (_ : Fleet N) : FleetLabel → Bool
  | .shutdown p' => decide (p' = p)
  | _ => false

/-- Who waits for a signal, or was sent one, is in `select!`. -/
structure Fleet.Signals (T : Notifier N) (f : Fleet N) : Prop where
  sound : ∀ p, (T.seen (f.shutdown p)).Sound
  selecting : ∀ p i, (T.seen (f.shutdown p)).Holds i →
    ∃ cp, f.loops i = .selecting cp ∧ cp.plane = p

theorem Fleet.signals_initial (hT : T.Laws) : (Fleet.initial T).Signals T := by
  have hnew : ∀ p, T.seen ((Fleet.initial T).shutdown p) = {} := fun _ => hT.new
  refine ⟨fun p => hnew p ▸ Notify.sound_empty, fun p i h => ?_⟩
  rw [hnew] at h
  obtain h | h := h <;> cases h

/-- A loop that is not in `select!` goes on. -/
theorem Fleet.Signals.elsewhere (h : f.Signals T) {i : LoopId} {x : Loop}
    (hi : ∀ cp, f.loops i ≠ .selecting cp) (hloops : f'.loops = Function.update f.loops i x)
    (hshutdown : f'.shutdown = f.shutdown) : f'.Signals T := by
  refine ⟨fun p => hshutdown ▸ h.sound p, fun p j hj => ?_⟩
  rw [hshutdown] at hj
  obtain ⟨cp, hcp, hp⟩ := h.selecting p j hj
  refine ⟨cp, ?_, hp⟩
  rw [hloops, Function.update_of_ne, hcp]
  rintro rfl
  exact hi cp hcp

/-- A loop leaves `select!`, and waits for no signal any more. -/
theorem Fleet.Signals.leaves (h : f.Signals T) {i : LoopId} {cp : ControlPlane} {x : Loop}
    {n : N} (hi : f.loops i = .selecting cp) (hn : (T.seen n).Sound)
    (hheld : ∀ j, (T.seen n).Holds j → (T.seen (f.shutdown cp.plane)).Holds j ∧ j ≠ i)
    (hloops : f'.loops = Function.update f.loops i x)
    (hshutdown : f'.shutdown = Function.update f.shutdown cp.plane n) : f'.Signals T := by
  constructor
  · intro p
    rw [hshutdown]
    by_cases hp : p = cp.plane
    · rw [hp, Function.update_self]
      exact hn
    · rw [Function.update_of_ne hp]
      exact h.sound p
  · intro p j hj
    rw [hshutdown] at hj
    have hbefore : (T.seen (f.shutdown p)).Holds j ∧ j ≠ i := by
      by_cases hp : p = cp.plane
      · rw [hp, Function.update_self] at hj
        exact hp ▸ hheld j hj
      · rw [Function.update_of_ne hp] at hj
        refine ⟨hj, ?_⟩
        rintro rfl
        obtain ⟨cp', hcp', hp'⟩ := h.selecting p j hj
        rw [hi] at hcp'
        cases hcp'
        exact hp hp'.symm
    rw [hloops, Function.update_of_ne hbefore.2]
    exact h.selecting p j hbefore.1

/-- The signal of a control plane changes. -/
theorem Fleet.Signals.signal (h : f.Signals T) {p : PlaneId} {n : N} (hn : (T.seen n).Sound)
    (hheld : ∀ j, (T.seen n).Holds j → ∃ cp, f.loops j = .selecting cp ∧ cp.plane = p) :
    (f.signal p n).Signals T := by
  constructor
  · intro p'
    show (T.seen (Function.update f.shutdown p n p')).Sound
    by_cases hp : p' = p
    · rw [hp, Function.update_self]
      exact hn
    · rw [Function.update_of_ne hp]
      exact h.sound p'
  · intro p' j hj
    have hj : (T.seen (Function.update f.shutdown p n p')).Holds j := hj
    by_cases hp : p' = p
    · rw [hp, Function.update_self] at hj
      exact hp ▸ hheld j hj
    · rw [Function.update_of_ne hp] at hj
      exact h.selecting p' j hj

theorem FleetStep.signals (hT : T.Laws) (hstep : FleetStep T clients f l f') (h : f.Signals T) :
    f'.Signals T := by
  have hne : ∀ {i x}, f.loops i = x → (∀ cp, x ≠ .selecting cp) →
      ∀ cp, f.loops i ≠ .selecting cp := fun hi hx cp heq => hx cp (hi.symm.trans heq)
  -- a loop that goes away leaves the signal to the others
  have gone : ∀ {i cp x} {f' : Fleet N}, f.loops i = .selecting cp →
      f'.loops = Function.update f.loops i x →
      f'.shutdown = Function.update f.shutdown cp.plane (T.drop (f.shutdown cp.plane) i) →
      f'.Signals T := by
    intro i cp x f' hi hloops hshutdown
    have hseen := hT.seen_drop (f.shutdown cp.plane) i
    refine h.leaves hi ?_ (fun j hj => ?_) hloops hshutdown
    · rw [hseen]
      exact (h.sound _).drop i
    · rw [hseen] at hj
      exact hj.of_drop (h.sound _)
  cases hstep with
  | spawn hi => exact h.elsewhere (hne hi fun _ => by simp) rfl rfl
  | setup hi => exact h.elsewhere (hne hi fun _ => by simp) rfl rfl
  | refuse hi => exact h.elsewhere (hne hi fun _ => by simp) rfl rfl
  | @wait i cp hi hserved =>
    obtain ⟨-, hseen⟩ := hT.seen_poll (f.shutdown cp.plane) i
    refine h.signal (hseen ▸ (h.sound _).poll i) fun j hj => ?_
    rw [hseen] at hj
    obtain hj | rfl := hj.of_poll
    · exact h.selecting _ j hj
    · exact ⟨cp, hi, rfl⟩
  | @stop i cp hi hserved =>
    obtain ⟨hready, hseen⟩ := hT.seen_poll (f.shutdown cp.plane) i
    refine h.leaves hi (hseen ▸ (h.sound _).poll i) (fun j hj => ?_) rfl rfl
    rw [hseen] at hj
    exact hj.of_ready (h.sound _) (hready.symm.trans hserved)
  | wake hi hs => exact gone hi rfl rfl
  | settle hi hs => exact h.elsewhere (hne hi fun _ => by simp) rfl rfl
  | killEarly hi => exact h.elsewhere (hne hi fun _ => by simp) rfl rfl
  | killIdle hi => exact gone hi rfl rfl
  | killWorking hi hs => exact h.elsewhere (hne hi fun _ => by simp) rfl rfl
  | shutdown p =>
    have hseen := hT.seen_notifyOne (f.shutdown p)
    refine h.signal (hseen ▸ (h.sound p).notifyOne) fun j hj => ?_
    rw [hseen] at hj
    exact h.selecting p j hj.of_notifyOne
  | other hfree hs => exact ⟨h.sound, h.selecting⟩

/-- The signals of control plane `p` that no loop has taken. -/
def Fleet.pending (T : Notifier N) (p : PlaneId) (f : Fleet N) : ℕ :=
  (T.seen (f.shutdown p)).pending

theorem Fleet.pending_signal (T : Notifier N) (f : Fleet N) (p q : PlaneId) (n : N) :
    (f.signal q n).pending T p = if p = q then (T.seen n).pending else f.pending T p := by
  rw [Fleet.pending, Fleet.signal]
  dsimp only
  by_cases hp : p = q
  · rw [hp, Function.update_self, if_pos rfl]
  · rw [Function.update_of_ne hp, if_neg hp, Fleet.pending]

/-- A signal is pending until a loop takes it, or it finds another one stored. -/
theorem FleetStep.conserves (hT : T.Laws) (hstep : FleetStep T clients f l f') (p : PlaneId) :
    f'.pending T p + (Fleet.stops T p f l).toNat + (Fleet.merges T p f l).toNat =
      f.pending T p + (Fleet.shuts p f l).toNat := by
  have hdrop : ∀ {i cp}, f.loops i = .selecting cp →
      (f.signal cp.plane (T.drop (f.shutdown cp.plane) i)).pending T p +
        (decide (cp.plane = p) && (T.seen (f.shutdown cp.plane)).dropMerges i).toNat =
          f.pending T p := by
    intro i cp hi
    rw [Fleet.pending_signal, hT.seen_drop]
    by_cases hp : cp.plane = p
    · subst hp
      have := Notify.pending_drop (T.seen (f.shutdown cp.plane)) i
      simpa [Fleet.pending] using this
    · simp [hp, Ne.symm hp]
  have hpoll : ∀ (i : LoopId) (cp : ControlPlane),
      (f.signal cp.plane (T.poll (f.shutdown cp.plane) i).2).pending T p +
        (decide (cp.plane = p) && (T.poll (f.shutdown cp.plane) i).1).toNat = f.pending T p := by
    intro i cp
    obtain ⟨hready, hseen⟩ := hT.seen_poll (f.shutdown cp.plane) i
    rw [Fleet.pending_signal, hready, hseen]
    by_cases hp : cp.plane = p
    · subst hp
      have := Notify.pending_poll (T.seen (f.shutdown cp.plane)) i
      simpa [Fleet.pending] using this
    · simp [hp, Ne.symm hp]
  cases hstep with
  | @wait i cp hi hserved =>
    simp only [Fleet.stops, hi]
    exact hpoll i cp
  | @stop i cp hi hserved =>
    simp only [Fleet.stops, hi]
    exact hpoll i cp
  | @wake i c cp s hi hs =>
    simp only [Fleet.merges, hi]
    exact hdrop hi
  | @killIdle i cp hi =>
    simp only [Fleet.merges, hi]
    exact hdrop hi
  | killEarly hi => simp [Fleet.stops, Fleet.merges, Fleet.shuts, hi, Fleet.go, Fleet.pending]
  | killWorking hi hs =>
    simp [Fleet.stops, Fleet.merges, Fleet.shuts, hi, Fleet.go, Fleet.pending]
  | shutdown q =>
    have hone := Notify.pending_notifyOne (T.seen (f.shutdown q))
    rw [Fleet.pending_signal, hT.seen_notifyOne]
    by_cases hp : q = p
    · subst hp
      simpa [Fleet.stops, Fleet.merges, Fleet.shuts, Fleet.pending] using hone
    · simp [Fleet.stops, Fleet.merges, Fleet.shuts, hp, Ne.symm hp]
  | _ => rfl

/-- Unless a task is killed, a `process_work` call goes on until it returns. -/
theorem FleetStep.goes_on (hstep : FleetStep T clients f l f') (hkill : ∀ i, l ≠ .kill i)
    {c : CallId} {cp : ControlPlane} (hc : (f.sys.calls c).control = some cp) :
    Label.finish c ∈ f.labels l ∨ (f'.sys.calls c).control = some cp := by
  cases hstep with
  | wake hi hs =>
    obtain ⟨hfresh, hcontrol⟩ := control_of_start hs
    refine .inr ?_
    show (Slot.control _) = _
    rw [hcontrol, if_neg, hc]
    rintro rfl
    rw [hfresh] at hc
    cases hc
  | @settle i call cp' s hi hs =>
    by_cases hcall : c = call
    · refine .inl ?_
      rw [Fleet.labels, hi, hcall]
      exact List.mem_singleton_self _
    · refine .inr ?_
      show (Slot.control _) = _
      rw [control_of_leave (.inl rfl) hs, if_neg hcall, hc]
  | killEarly hi => exact absurd rfl (hkill _)
  | killIdle hi => exact absurd rfl (hkill _)
  | killWorking hi hs => exact absurd rfl (hkill _)
  | other hfree hs => exact .inr ((control_of_free hs hfree c).trans hc)
  | _ => exact .inr hc

/-- A `process_work` call is begun by a loop, which awaits it. -/
theorem FleetStep.begins (hstep : FleetStep T clients f l f') {c : CallId} {cp : ControlPlane}
    (hc : Label.start c (.process cp) ∈ f.labels l) : (f'.sys.calls c).control = some cp := by
  cases hstep with
  | wake hi hs =>
    rw [Fleet.labels, hi] at hc
    cases List.mem_singleton.mp hc
    obtain ⟨-, hcontrol⟩ := control_of_start hs
    show (Slot.control _) = _
    rw [hcontrol, if_pos rfl]
  | settle hi hs =>
    rw [Fleet.labels, hi] at hc
    cases List.mem_singleton.mp hc
  | killWorking hi hs =>
    rw [Fleet.labels, hi] at hc
    cases List.mem_singleton.mp hc
  | killEarly hi =>
    rw [Fleet.labels, hi] at hc
    cases hc
  | killIdle hi =>
    rw [Fleet.labels, hi] at hc
    cases hc
  | other hfree hs =>
    cases List.mem_singleton.mp hc
    cases hfree
  | _ => cases hc

/-- The `process_work` calls a run of the fleet begins have returned, or are awaited, if no task was
killed. -/
theorem Fleet.calls_return (hrun : (fleet T clients).Run (Fleet.initial T) ls f)
    (hkill : ∀ i, FleetLabel.kill i ∉ ls) {c : CallId} {cp : ControlPlane}
    (hc : Label.start c (.process cp) ∈ Fleet.sysLabels T clients ls) :
    Label.finish c ∈ Fleet.sysLabels T clients ls ∨ (f.sys.calls c).control = some cp := by
  refine Lts.Run.snoc_induction (I := fun xs m => (∀ i, FleetLabel.kill i ∉ xs) →
    Label.start c (.process cp) ∈ Fleet.sysLabels T clients xs →
    Label.finish c ∈ Fleet.sysLabels T clients xs ∨ (m.sys.calls c).control = some cp)
    (fun _ h => by cases h) ?_ hrun hkill hc
  intro xs l m m' hxs ih (hstep : m.step T clients l = some m') hkill hc
  have hmore : Fleet.sysLabels T clients (xs ++ [l]) =
      Fleet.sysLabels T clients xs ++ m.labels l := hxs.emitted_snoc hstep
  have hlast : ∀ i, l ≠ .kill i := fun i hl =>
    hkill i (List.mem_append_right _ (List.mem_singleton.mpr hl.symm))
  rw [hmore] at hc ⊢
  obtain hc | hc := List.mem_append.mp hc
  · obtain hdone | hlive := ih (fun i hi => hkill i (List.mem_append_left _ hi)) hc
    · exact .inl (List.mem_append_left _ hdone)
    · exact ((fleetStep_of hstep).goes_on hlast hlive).imp (List.mem_append_right _) id
  · exact .inr ((fleetStep_of hstep).begins hc)

theorem Fleet.signals (hT : T.Laws) (hrun : (fleet T clients).Run (Fleet.initial T) ls f) :
    f.Signals T :=
  Lts.run_invariant (I := Fleet.Signals T) (fun m k m' h (hstep : m.step T clients k = some m') =>
    (fleetStep_of hstep).signals hT h) hrun (Fleet.signals_initial hT)

/-- A signal that is there stops the loop that polls it. -/
theorem Fleet.Signals.stopped (hT : T.Laws) (h : f.Signals T) {i : LoopId} {cp : ControlPlane}
    (hi : f.loops i = .selecting cp)
    (hthere : (T.seen (f.shutdown cp.plane)).permit = true ∨
      i ∈ (T.seen (f.shutdown cp.plane)).notified) :
    ∃ f', f.step T clients (.poll i) = some f' ∧ f'.loops i = .returned (.ok ()) := by
  have hserved : (T.poll (f.shutdown cp.plane) i).1 = true := by
    rw [(hT.seen_poll _ i).1, Notify.ready]
    obtain hpermit | hi := hthere
    · rw [hpermit, (h.sound cp.plane).permit hpermit]
      simp
    · simp [hi]
  refine ⟨(f.signal cp.plane (T.poll (f.shutdown cp.plane) i).2).go i (.returned (.ok ())), ?_, ?_⟩
  · simp only [Fleet.step, hi, hserved, if_true]
  · exact Function.update_self ..

/-- Every signal to shut a control plane down has stopped one of its loops, or is pending, or found
another one stored that none had taken. While one is stored none of its loops waits in vain, who
waits or was sent one is a loop in `select!`, and one that is stored or was sent to a loop stops it
when it polls. No signal interrupts a `process_work` call: if no task is killed, every call has
returned or is awaited. -/
theorem shutdowns_are_accounted_for (hT : T.Laws)
    (hrun : (fleet T clients).Run (Fleet.initial T) ls f) (p : PlaneId) :
    (fleet T clients).occurrences (Fleet.shuts p) (Fleet.initial T) ls =
      (fleet T clients).occurrences (Fleet.stops T p) (Fleet.initial T) ls + f.pending T p +
        (fleet T clients).occurrences (Fleet.merges T p) (Fleet.initial T) ls ∧
    ((T.seen (f.shutdown p)).permit = true → (T.seen (f.shutdown p)).waiters = []) ∧
    (∀ i, (T.seen (f.shutdown p)).Holds i → ∃ cp, f.loops i = .selecting cp ∧ cp.plane = p) ∧
    (∀ i cp, f.loops i = .selecting cp → cp.plane = p →
      (T.seen (f.shutdown p)).permit = true ∨ i ∈ (T.seen (f.shutdown p)).notified →
      ∃ f', f.step T clients (.poll i) = some f' ∧ f'.loops i = .returned (.ok ())) ∧
    ((∀ i, FleetLabel.kill i ∉ ls) → ∀ c cp,
      Label.start c (.process cp) ∈ Fleet.sysLabels T clients ls →
      Label.finish c ∈ Fleet.sysLabels T clients ls ∨ ∃ i, f.loops i = .working cp c) := by
  have hsignals := Fleet.signals hT hrun
  have haccount := hrun.conserves (I := fun _ => True) (a := Fleet.pending T p)
    (Q := Fleet.shuts p) (fun m k m' _ (hstep : m.step T clients k = some m') =>
      ⟨trivial, (fleetStep_of hstep).conserves hT p⟩) trivial
  have hnone : (Fleet.initial T).pending T p = 0 := congrArg Notify.pending hT.new
  refine ⟨by omega, (hsignals.sound p).permit, hsignals.selecting p, ?_, ?_⟩
  · rintro i cp hi rfl hthere
    exact hsignals.stopped hT hi hthere
  · intro hkill c cp hc
    obtain hdone | hlive := Fleet.calls_return hrun hkill hc
    · exact .inl hdone
    · obtain ⟨i, hi, -⟩ := (fleet_runs_in_the_system hrun).2.2.1 c cp hlive
      exact .inr ⟨i, hi⟩

end Steps

/-! ### Samples -/

/-- A loop up to its first `select!`. -/
def spawned (i : LoopId) : List FleetLabel :=
  [.spawn i samplePlane, .setup i (.ok ()), .setup i (.ok ()), .setup i (.ok ()), .poll i]

/-- A loop that is woken and works on the item of a submission. -/
def workingRun : List FleetLabel :=
  spawned 0 ++ (Label.alone 0 (.submit sampleItem) { uuid := .ofNat 1 } 9).map .other ++
    .wake 0 1 :: (List.replicate 17 (.exec 1 { uuid := .ofNat 2 })).map .other

/-- The loops of control planes whose signals are what is seen of them. -/
abbrev sampleFleet : Lts (Fleet Notify) FleetLabel := fleet Notify.notifier planeClients

theorem fleet_runs_in_the_system_working :
    Fleet.sysLabels Notify.notifier planeClients workingRun = focusedRun ∧
    ∃! i, (sampleFleet.replayed (Fleet.initial Notify.notifier) workingRun).loops i =
      .working samplePlane 1 :=
  ⟨rfl, (fleet_runs_in_the_system (Lts.run_replayed rfl)).2.2.1 1 samplePlane rfl⟩

/-- Two signals for one loop: the second finds the first one sent, and is stored. -/
def signalledRun : List FleetLabel := spawned 0 ++ [.shutdown 0, .shutdown 0, .poll 0]

theorem shutdowns_are_accounted_for_signalled :
    sampleFleet.occurrences (Fleet.shuts 0) (Fleet.initial Notify.notifier) signalledRun =
      sampleFleet.occurrences (Fleet.stops Notify.notifier 0) (Fleet.initial Notify.notifier)
          signalledRun +
        (sampleFleet.replayed (Fleet.initial Notify.notifier) signalledRun).pending
          Notify.notifier 0 +
        sampleFleet.occurrences (Fleet.merges Notify.notifier 0) (Fleet.initial Notify.notifier)
          signalledRun ∧
    sampleFleet.occurrences (Fleet.shuts 0) (Fleet.initial Notify.notifier) signalledRun = 2 :=
  ⟨(shutdowns_are_accounted_for Notify.laws (Lts.run_replayed rfl) 0).1, rfl⟩

end Animus
