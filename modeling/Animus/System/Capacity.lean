import Animus.Lib.Tally
import Animus.System.Messages

/-!
# Capacity

The counter of active foci against the calls that are between its increment and
its decrement. Every step keeps the two apart by what they were apart before,
but for the steps that take a slot along.

## Main definitions

- `Holding`: what a `process_work` call holds of the capacity of its plane
- `Sys.executing`: how many foci of a plane execute
- `Sys.leaks`: the steps that take a slot along
- `Sys.CountInv`: what the account of a plane rests on
- `Sys.CapacityKept`: the counter is the number of foci executing

## Main results

- `processWork_holding`: a call leaves counted only when making its focus failed
- `Sys.CountInv.balance_step`: what one step does to the counter and to the foci executing
- `capacity_kept_iff`: capacity is kept as long as no step leaks
-/

namespace Animus

open Effect Effect.Protocol

/-! ### What a call holds -/

/-- What a `process_work` call holds of the capacity of its plane. -/
inductive Holding
  | nothing
  /-- It is counted, and its focus is being made. -/
  | creating
  /-- It is counted, and its focus runs. -/
  | running
  /-- Making the focus failed: the call returns, still counted. -/
  | leaked
  deriving DecidableEq

/-- Is a focus of the call executing? -/
def Holding.executing : Holding → Bool
  | .creating | .running => true
  | _ => false

/-- The effects of `Focus::create` whose errors it returns. -/
def Eff.creates : {β : Type} → Eff β → Bool
  | _, .createDirAll _ | _, .toStringPretty _ | _, .write _ _ => true
  | _, _ => false

def holdingAllowed (cp : ControlPlane) : {β : Type} → Holding → Eff β → Prop
  | _, .nothing, .addActive p => p = cp.plane
  | _, .nothing, .subActive _ => False
  | _, .nothing, _ => True
  | _, .creating, .newV4 => True
  | _, .creating, .focusStart _ => True
  | _, .creating, e => e.creates = true
  | _, .running, .subActive p => p = cp.plane
  | _, .running, e => e.passive = true
  | _, .leaked, _ => False

def holdingNext : {β : Type} → Holding → Eff β → β → Holding
  | _, .nothing, .addActive _, _ => .creating
  | _, .creating, .focusStart _, _ => .running
  | _, .creating, .createDirAll _, .error _ => .leaked
  | _, .creating, .toStringPretty _, .error _ => .leaked
  | _, .creating, .write _ _, .error _ => .leaked
  | _, .running, .subActive _, _ => .nothing
  | _, h, _, _ => h

def holdingProtocol (cp : ControlPlane) : Protocol Eff Holding where
  answers := Eff.answers
  allowed := holdingAllowed cp
  next := holdingNext

section Calls

variable {cp : ControlPlane} {g : Holding} {β : Type}

theorem idles_nothing : Idles (holdingProtocol cp) .nothing := by
  intro β e he
  cases e <;> first | exact ⟨trivial, fun _ => rfl⟩ | cases he

theorem idles_running : Idles (holdingProtocol cp) .running := by
  intro β e he
  cases e <;> first | exact ⟨he, fun _ => rfl⟩ | cases he

/-- The call returns no focus executing. -/
def Holding.Returns {α : Type} (g : Holding) (_ : α) : Prop := g.executing = false

theorem casUpdate_holding (c : Change) (id : WorkId) :
    (holdingProtocol cp).ObeysE (fun g _ => g = .nothing) Holding.Returns .nothing
      (casUpdate c id) :=
  casUpdate_moves idles_nothing idles_nothing (fun _ hr => hr) (fun _ => trivial)
    (fun _ _ _ => rfl) (fun _ _ => rfl) (fun _ _ _ => rfl) (fun _ => rfl) fun _ => rfl

/-- Making a focus either succeeds or takes the slot along. -/
theorem create_holding (base : String) (item : WorkItem) :
    (holdingProtocol cp).ObeysE (fun g _ => g = .creating) (fun g _ => g = .leaked) .creating
      (Focus.create base item) := by
  unfold Focus.create
  refine .perform_bind trivial fun id _ => ?_
  refine .attempt_bind rfl (fun _ _ => ?_) fun _ _ => rfl
  refine .attempt_bind rfl (fun json _ => ?_) fun _ _ => rfl
  refine .attempt_bind rfl (fun _ _ => ?_) fun _ _ => rfl
  exact .pure rfl

theorem retire_holding (msg : PgmqMessage) (id : WorkId) (result : FocusResult) :
    (holdingProtocol cp).ObeysE (fun g _ => g = .nothing) Holding.Returns .nothing
      (retire msg id result) := by
  cases result with
  | completed data ms =>
    refine passive_perform_bind idles_nothing rfl fun _ => ?_
    refine ObeysE.bind (casUpdate_holding _ id) ?_
    rintro _ item rfl
    exact .attempt trivial (fun _ _ => rfl) fun _ _ => rfl
  | failed phase error ms =>
    refine passive_perform_bind idles_nothing rfl fun _ => ?_
    refine ObeysE.bind (casUpdate_holding _ id) ?_
    rintro _ item rfl
    exact .pure rfl

theorem runWork_holding (msg : PgmqMessage) (id : WorkId) (item : WorkItem)
    (faculty : FacultyMeta) :
    (holdingProtocol cp).ObeysE (fun g _ => g = .nothing) Holding.Returns .nothing
      (runWork cp msg id item faculty) := by
  unfold runWork
  refine passive_perform_bind idles_nothing rfl fun _ => ?_
  refine ObeysE.bind (casUpdate_holding _ id) ?_
  rintro _ _ rfl
  refine passive_perform_bind idles_nothing rfl fun _ => ?_
  refine ObeysE.bind (casUpdate_holding _ id) ?_
  rintro _ _ rfl
  -- from the increment to the decrement the call holds a slot; only `Focus::create` can fail there
  refine .perform_bind rfl fun _ _ => ?_
  refine ObeysE.bind ((create_holding _ item).mono (fun _ _ h => h) fun _ _ h => h ▸ rfl) ?_
  rintro _ focus rfl
  refine ObeysE.bind (.lift (run_leads idles_running focus faculty trivial rfl)) ?_
  rintro _ result rfl
  refine .perform_bind rfl fun _ _ => ?_
  refine ObeysE.bind (retire_holding msg id result) ?_
  rintro _ _ rfl
  refine ObeysE.bind (Q := fun g _ => g = .nothing) (.lift ?_) fun _ _ h => .pure h
  exact passive_eff idles_nothing rfl fun _ => rfl

/-- A call returns holding nothing, or the slot it took along. -/
theorem processWork_holding (cp : ControlPlane) :
    (holdingProtocol cp).Obeys Holding.Returns .nothing (processWork cp).run := by
  have h : (holdingProtocol cp).ObeysE Holding.Returns Holding.Returns .nothing
      (processWork cp) := by
    unfold processWork
    refine passive_perform_bind idles_nothing rfl fun active => ?_
    split
    · exact .pure rfl
    refine .attempt_bind trivial (fun msg _ => ?_) fun _ _ => rfl
    cases msg with
    | none => exact .pure rfl
    | some msg =>
      dsimp only
      cases extractId msg.message with
      | none => exact .throw rfl
      | some id =>
        refine ObeysE.bind ((getWorkItem_stays idles_nothing (fun _ hr => hr) id).mono
          (fun _ _ h => h) fun _ _ h => h ▸ rfl) ?_
        rintro _ item ⟨rfl, -⟩
        cases cp.registry item.faculty with
        | none => exact .pure rfl
        | some faculty =>
          exact (runWork_holding msg id item faculty).mono (fun _ _ h => h ▸ rfl) fun _ _ h => h
  refine Obeys.mono h fun g r hr => ?_
  cases r with
  | ok _ => exact hr
  | error _ => exact hr

end Calls

/-! ### What one effect does to the counter -/

/-- Does the effect count a focus of plane `p`? -/
def Eff.adds (p : PlaneId) : {β : Type} → Eff β → Bool
  | _, .addActive q => p = q
  | _, _ => false

/-- Does the effect count one off? -/
def Eff.subs (p : PlaneId) : {β : Type} → Eff β → Bool
  | _, .subActive q => p = q
  | _, _ => false

section Effects

variable {cp : ControlPlane} {g : Holding} {β : Type} {e : Eff β}

theorem handle_active (i : CallId) (env : Env) (w : World) (p : PlaneId) :
    (handle i e env w).2.active p = w.active p + (e.adds p).toNat - (e.subs p).toNat := by
  cases e with
  | addActive q =>
    by_cases hpq : p = q
    · simp [handle, Eff.adds, Eff.subs, hpq]
    · simp [handle, Eff.adds, Eff.subs, hpq]
  | subActive q =>
    by_cases hpq : p = q
    · simp [handle, Eff.adds, Eff.subs, hpq]
    · simp [handle, Eff.adds, Eff.subs, hpq]
  | createDirAll dir =>
    simp only [handle]
    cases env.file () <;> rfl
  | removeDirAll dir =>
    simp only [handle]
    cases env.file () <;> rfl
  | _ => rfl

/-- A call touches the counter of its own plane only. -/
theorem holdingAllowed.plane (ha : holdingAllowed cp g e) (p : PlaneId) :
    e.adds p = (cp.plane = p && e.adds cp.plane) ∧
      e.subs p = (cp.plane = p && e.subs cp.plane) := by
  cases e with
  | addActive q =>
    cases g with
    | nothing =>
      obtain rfl := ha
      simp [Eff.adds, Eff.subs, eq_comm]
    | _ => cases ha
  | subActive q =>
    cases g with
    | running =>
      obtain rfl := ha
      simp [Eff.adds, Eff.subs, eq_comm]
    | _ => cases ha
  | _ => simp [Eff.adds, Eff.subs]

/-- What is counted is what executes, but for the slot a failed creation takes along. -/
theorem holdingAllowed.balance (ha : holdingAllowed cp g e) (r : β) :
    (e.adds cp.plane).toNat + g.executing.toNat = (e.subs cp.plane).toNat +
      (holdingNext g e r).executing.toNat + (decide (holdingNext g e r = .leaked)).toNat := by
  cases g with
  | nothing =>
    cases e with
    | addActive q =>
      obtain rfl := ha
      simp [Eff.adds, Eff.subs, holdingNext, Holding.executing]
    | subActive q => exact ha.elim
    | _ => rfl
  | creating =>
    cases e with
    | createDirAll dir => cases r <;> rfl
    | toStringPretty item => cases r <;> rfl
    | write path contents => cases r <;> rfl
    | newV4 => rfl
    | focusStart work => rfl
    | _ => cases ha
  | running =>
    cases e with
    | subActive q =>
      obtain rfl := ha
      simp [Eff.adds, Eff.subs, holdingNext, Holding.executing]
    | _ => first | rfl | cases ha
  | leaked => exact ha.elim

/-- A slot leaks where an effect of `Focus::create` fails. -/
theorem holdingNext_leaked (ha : holdingAllowed cp g e) (i : CallId) (env : Env) (w : World) :
    decide (holdingNext g e (handle i e env w).1 = .leaked) =
      (g = .creating && e.creates && env.io.isSome) := by
  cases g with
  | creating =>
    cases e with
    | createDirAll dir | toStringPretty item | write path contents =>
      obtain ⟨_, _, _, _, _, io, _, _, _, _⟩ := env
      cases io <;> rfl
    | newV4 | focusStart work => rfl
    | _ => cases ha
  | nothing =>
    cases e with
    | subActive q => exact ha.elim
    | _ => rfl
  | running =>
    cases e with
    | _ => rfl
  | leaked => exact ha.elim

end Effects

/-! ### Where a call stands -/

/-- What the phase of a `process_work` call says it holds. -/
def PlanePhase.holding : PlanePhase → Holding
  | .owning .counted _ _ => .creating
  | .owning .focused _ _ => .running
  | _ => .nothing

@[simp] theorem PlanePhase.holding_afterRead (msg : Option PgmqMessage) :
    (PlanePhase.afterRead msg).holding = .nothing := by
  obtain hafter | ⟨m, id, hafter⟩ := PlanePhase.afterRead_cases msg
  · rw [hafter]
    rfl
  · rw [hafter]
    rfl

@[simp] theorem PlanePhase.holding_afterUpdate (ph : PlanePhase) (c : Change)
    (a : Except DbError ℕ) : (ph.afterUpdate c a).holding = .nothing := by
  fun_cases PlanePhase.afterUpdate ph c a <;> rfl

/-- No update is issued while a focus executes. -/
theorem PlanePhase.Issues.holding {ph : PlanePhase} {c : Change} {id : WorkId}
    (h : ph.Issues c id) : ph.holding = .nothing := by
  cases ph with
  | owning st m id' => cases st <;> first | rfl | exact h.elim
  | _ => rfl

section Phases

variable {cp : ControlPlane} {ph : PlanePhase} {β : Type} {e : Eff β}

/-- A passive effect leaves what a call holds as it is, but for a failed creation. -/
theorem PlanePhase.holding_passive (he : e.passive = true) (hh : holdingAllowed cp ph.holding e)
    (r : β) : holdingNext ph.holding e r = .leaked ∨
      holdingNext ph.holding e r = ph.holding := by
  cases hhold : ph.holding with
  | nothing =>
    have hidle : Idles (holdingProtocol cp) .nothing := idles_nothing
    exact .inr ((hidle e he).2 r)
  | running =>
    have hidle : Idles (holdingProtocol cp) .running := idles_running
    exact .inr ((hidle e he).2 r)
  | leaked => exact .inr rfl
  | creating =>
    rw [hhold] at hh
    cases e with
    | createDirAll dir | toStringPretty item | write path contents => cases r <;> simp [holdingNext]
    | newV4 => exact .inr rfl
    | focusStart work => cases he
    | _ => cases hh

/-- The phases of the two protocols agree until a slot leaks. -/
theorem PlanePhase.holding_next (ha : planeAllowed cp ph e) (hh : holdingAllowed cp ph.holding e)
    (r : β) : holdingNext ph.holding e r = .leaked ∨
      (planeNext cp ph e r).holding = holdingNext ph.holding e r := by
  cases planeEff_of ha with
  | read vt =>
    refine .inr ?_
    cases r with
    | ok msg => exact PlanePhase.holding_afterRead msg
    | error d => rfl
  | fetch m id =>
    refine .inr ?_
    cases r with
    | error d => rfl
    | ok row =>
      cases row with
      | none => rfl
      | some r =>
        simp only [planeNext]
        split <;> rfl
  | update now hissues =>
    rw [planeNext_change, PlanePhase.holding_afterUpdate, hissues.holding]
    exact .inr rfl
  | count m id => exact .inr rfl
  | focus m id => exact .inr rfl
  | uncount m id => exact .inr rfl
  | archive m id => exact .inr rfl
  | passive he hstay =>
    rw [hstay]
    exact (PlanePhase.holding_passive he hh r).imp id Eq.symm

end Phases

/-! ### The system -/

/-- Is a focus of plane `p` executing in the call: counted, and not yet counted off? -/
def Slot.executing (p : PlaneId) : Slot → Bool
  | .live ⟨.process cp, .eff _ _, ph⟩ => cp.plane = p && ph.holding.executing
  | _ => false

/-- How many foci of plane `p` execute. -/
noncomputable def Sys.executing (p : PlaneId) (s : Sys) : ℕ := tally (Slot.executing p) s.calls

/-- The steps that take a slot of plane `p` along: an effect of `Focus::create` fails, or a call is
dropped while its focus executes. -/
def Sys.leaks (p : PlaneId) (s : Sys) : Label → Bool
  | .exec i env =>
    match s.calls i with
    | .live ⟨.process cp, .eff e _, ph⟩ =>
      cp.plane = p && (ph.holding = .creating && e.creates && env.io.isSome)
    | _ => false
  | .crash i => (s.calls i).executing p
  | _ => false

/-- A call that has effects left is somewhere in the protocol of its slot. -/
def Slot.Holds : Slot → Prop
  | .live ⟨.process cp, p, ph⟩ =>
    (∃ a, p = .ret a) ∨ (holdingProtocol cp).Obeys Holding.Returns ph.holding p
  | _ => True

/-- What the account of plane `p` rests on. -/
structure Sys.CountInv (clients : Op → Bool) (p : PlaneId) (s : Sys) : Prop where
  lawful : s.Lawful clients
  holds : ∀ i, (s.calls i).Holds
  finite : {i | (s.calls i).executing p = true}.Finite
  le : s.executing p ≤ s.world.active p

section Steps

variable {clients : Op → Bool} {p : PlaneId} {s s' : Sys} {l : Label}

section Exec

variable {i : CallId} {env : Env} {cp : ControlPlane} {β : Type} {e : Eff β}
  {k : β → Prog Eff (Except Error Unit)} {ph : PlanePhase}

/-- What the answer to an effect of a `process_work` call leads to. -/
theorem Slot.Holds.answered (hs : Slot.Holds (.live ⟨.process cp, .eff e k, ph⟩))
    (ha : planeAllowed cp ph e) :
    holdingAllowed cp ph.holding e ∧ ∀ r, e.answers r →
      (holdingNext ph.holding e r = .leaked ∧ ∃ a, k r = .ret a) ∨
      ((planeNext cp ph e r).holding = holdingNext ph.holding e r ∧
        (holdingProtocol cp).Obeys Holding.Returns (planeNext cp ph e r).holding (k r)) := by
  obtain ⟨a, hret⟩ | ⟨hh, hk⟩ := hs
  · cases hret
  refine ⟨hh, fun r hr => ?_⟩
  have hnext : (holdingProtocol cp).Obeys Holding.Returns (holdingNext ph.holding e r) (k r) :=
    hk r hr
  obtain hleak | hsame := PlanePhase.holding_next ha hh r
  · cases hret : k r with
    | ret a => exact .inl ⟨hleak, a, rfl⟩
    | eff e' k' =>
      rw [hleak, hret] at hnext
      exact hnext.1.elim
  · rw [← hsame] at hnext
    exact .inr ⟨hsame, hnext⟩

/-- Whether the focus still executes is what the protocol of the slot says. -/
theorem Slot.Holds.executing_next (hs : Slot.Holds (.live ⟨.process cp, .eff e k, ph⟩))
    (ha : planeAllowed cp ph e) {r : β} (hr : e.answers r) :
    Slot.Holds (.live ⟨.process cp, k r, planeNext cp ph e r⟩) ∧
      Slot.executing p (.live ⟨.process cp, k r, planeNext cp ph e r⟩) =
        (cp.plane = p && (holdingNext ph.holding e r).executing) := by
  obtain ⟨hleak, a, hret⟩ | ⟨hsame, hobeys⟩ := (hs.answered ha).2 r hr
  · refine ⟨.inl ⟨a, hret⟩, ?_⟩
    rw [hret, hleak]
    simp [Slot.executing, Holding.executing]
  · refine ⟨.inr hobeys, ?_⟩
    rw [← hsame]
    cases hp : k r with
    | ret a =>
      rw [hp] at hobeys
      have hnone : (planeNext cp ph e r).holding.executing = false := hobeys
      simp [Slot.executing, hnone]
    | eff e' k' => rfl

variable (env) in
/-- What an effect of a `process_work` call does to the counter and to what the call holds. -/
theorem Sys.CountInv.exec_balance (hs : s.CountInv clients p)
    (hi : s.calls i = .live ⟨.process cp, .eff e k, ph⟩) :
    (s.perform i env (.process cp) e k ph).world.active p + ((s.calls i).executing p).toNat =
      s.world.active p + (((s.perform i env (.process cp) e k ph).calls i).executing p).toNat +
        (s.leaks p (.exec i env)).toNat := by
  obtain ⟨-, ha, -⟩ := hs.lawful i _ hi
  have hslot := hs.holds i
  rw [hi] at hslot
  have hh := (hslot.answered ha).1
  have hbal := hh.balance (handle i e env s.world).1
  -- what this call holds is among what is counted
  have hle : ((s.calls i).executing p).toNat ≤ s.world.active p :=
    (toNat_le_tally hs.finite i).trans hs.le
  have hafter : (((s.perform i env (.process cp) e k ph).calls i).executing p) =
      (cp.plane = p && (holdingNext ph.holding e (handle i e env s.world).1).executing) := by
    rw [Sys.perform, Sys.move_calls_self]
    exact (hslot.executing_next ha (handle_answers i e env s.world)).2
  have hleak : s.leaks p (.exec i env) =
      (cp.plane = p && decide (holdingNext ph.holding e (handle i e env s.world).1 = .leaked)) := by
    rw [holdingNext_leaked hh]
    simp only [Sys.leaks, hi]
  have hactive : (s.perform i env (.process cp) e k ph).world.active p =
      s.world.active p + (e.adds p).toNat - (e.subs p).toNat := handle_active i env s.world p
  have hbefore : (s.calls i).executing p = (cp.plane = p && ph.holding.executing) := by
    rw [hi]
    rfl
  rw [hbefore] at hle
  rw [hactive, hafter, hleak, hbefore, (hh.plane p).1, (hh.plane p).2]
  by_cases hp : cp.plane = p
  · -- the subtraction does not underflow: what the call holds is counted
    simp only [hp, decide_true, Bool.true_and] at hle hbal ⊢
    omega
  · simp [hp]

end Exec

/-- Replacing one slot keeps the account when what the counter gains or loses is what the slot
gains or loses, but for `n` slots taken along. -/
theorem Sys.CountInv.replace (hs : s.CountInv clients p) {i : CallId} {x : Slot} {n : ℕ}
    (hlawful : s'.Lawful clients) (hcalls : s'.calls = Function.update s.calls i x)
    (hx : x.Holds) (hactive : s'.world.active p + ((s.calls i).executing p).toNat =
      s.world.active p + (x.executing p).toNat + n) :
    s'.CountInv clients p ∧
      s'.world.active p + s.executing p = s.world.active p + s'.executing p + n := by
  have htally := tally_update hs.finite i x
  rw [← hcalls] at htally
  have hbal : s'.world.active p + s.executing p = s.world.active p + s'.executing p + n := by
    unfold Sys.executing
    omega
  refine ⟨⟨hlawful, fun j => ?_, ?_, ?_⟩, hbal⟩
  · rw [hcalls]
    by_cases hji : j = i
    · rw [hji, Function.update_self]
      exact hx
    · rw [Function.update_of_ne hji]
      exact hs.holds j
  · rw [hcalls]
    exact finite_update hs.finite i x
  · have hle := hs.le
    omega

/-- No focus executes in a call that only begins. -/
theorem Slot.executing_first (op : Op) :
    Slot.executing p (.live ⟨op, op.prog, op.first⟩) = false := by
  cases op with
  | process cp =>
    change (decide (cp.plane = p) && PlanePhase.idle.holding.executing) = false
    exact Bool.and_false _
  | _ => rfl

/-- Nor in one that only returns. -/
theorem Slot.executing_ret (op : Op) (a : Except Error op.Result) (ph : op.Phase) :
    Slot.executing p (.live ⟨op, .ret a, ph⟩) = false := by
  cases op <;> rfl

/-- Submissions and updates touch no counter. -/
theorem Op.uncounted {op : Op} (hop : ∀ cp, op ≠ .process cp) {ph : op.Phase} {β : Type}
    {e : Eff β} (ha : op.protocol.allowed ph e) : e.adds p = false ∧ e.subs p = false := by
  cases op with
  | process cp => exact absurd rfl (hop cp)
  | submit new =>
    cases e with
    | addActive q | subActive q => cases ph <;> exact ha.elim
    | _ => exact ⟨rfl, rfl⟩
  | change c id =>
    cases e with
    | addActive q | subActive q => cases ph <;> exact ha.elim
    | _ => exact ⟨rfl, rfl⟩

/-- One step moves the counter and the foci executing together, unless it leaks a slot. -/
theorem Sys.CountInv.balance_step (hs : s.CountInv clients p) (h : s.step clients l = some s') :
    s'.CountInv clients p ∧ s'.world.active p + s.executing p =
      s.world.active p + s'.executing p + (s.leaks p l).toNat := by
  have hlawful := Sys.lawful_step hs.lawful h
  cases l with
  | start i op =>
    obtain ⟨hi, -, rfl⟩ := step_start h
    refine hs.replace hlawful rfl ?_ ?_
    · cases op with
      | process cp => exact .inr (processWork_holding cp)
      | _ => trivial
    · rw [hi, Slot.executing_first]
      rfl
  | exec i env =>
    obtain ⟨op, β, e, k, ph, hi, -, rfl⟩ := step_exec h
    have hcalls : (s.perform i env op e k ph).calls = Function.update s.calls i
        (.live ⟨op, k (handle i e env s.world).1,
          op.protocol.next ph e (handle i e env s.world).1⟩) := rfl
    obtain ⟨-, ha, -⟩ := hs.lawful i _ hi
    by_cases hop : ∃ cp, op = .process cp
    · -- a control plane: what its call gains or loses, the counter gains or loses
      obtain ⟨cp, rfl⟩ := hop
      have hslot := hs.holds i
      rw [hi] at hslot
      have hnext := (hslot.executing_next (p := p) ha (handle_answers i e env s.world)).1
      refine hs.replace hlawful hcalls hnext ?_
      have hbal := hs.exec_balance env hi
      rwa [hcalls, Function.update_self] at hbal
    · -- the other operations touch no counter
      have hother : ∀ cp, op ≠ .process cp := fun cp heq => hop ⟨cp, heq⟩
      obtain ⟨hadds, hsubs⟩ := op.uncounted (p := p) hother ha
      have hactive : (s.perform i env op e k ph).world.active p =
          s.world.active p + (e.adds p).toNat - (e.subs p).toNat := handle_active i env s.world p
      rw [hadds, hsubs] at hactive
      refine hs.replace hlawful hcalls ?_ ?_
      · cases op with
        | process cp => exact absurd rfl (hother cp)
        | _ => trivial
      · rw [hactive, hi]
        cases op with
        | process cp => exact absurd rfl (hother cp)
        | _ => simp [Slot.executing, Sys.leaks, hi]
  | finish i =>
    obtain ⟨op, a, ph, hi, rfl⟩ := step_finish h
    refine hs.replace hlawful rfl trivial ?_
    rw [hi, Slot.executing_ret]
    rfl
  | crash i =>
    obtain ⟨c, hi, rfl⟩ := step_crash h
    exact hs.replace hlawful rfl trivial rfl
  | expire m =>
    obtain rfl := step_expire h
    exact ⟨⟨hlawful, hs.holds, hs.finite, hs.le⟩, rfl⟩

variable (clients p) in
theorem Sys.countInv_initial : Sys.initial.CountInv clients p where
  lawful := Sys.lawful_initial
  holds _ := trivial
  finite := by simp [Sys.initial, Slot.executing]
  le := (tally_eq_zero fun _ => rfl).le

theorem Sys.Reachable.countInv (h : s.Reachable clients) : s.CountInv clients p :=
  Lts.reachable_invariant (fun _ _ _ hs hstep => (hs.balance_step hstep).1) h
    (Sys.countInv_initial clients p)

/-- Along a run the counter and the foci executing move together, but for the slots leaked. -/
theorem Sys.Reachable.balance (h : s.Reachable clients) {ls : List Label}
    (hrun : (system clients).Run s ls s') :
    s'.world.active p + s.executing p = s.world.active p + s'.executing p +
      (system clients).occurrences (Sys.leaks p) s ls :=
  hrun.balance (fun _ _ _ hs hstep => hs.balance_step hstep) h.countInv

/-! ### Capacity is kept -/

/-- The first effect of a `process_work` call looks at the counter, and the second reads the
queue. -/
def Sys.GoesOnToRead (s : Sys) (i : CallId) (cp : ControlPlane) : Prop :=
  ∃ k, s.calls i = .live ⟨.process cp, .eff (.pool (.pgmqRead cp.visibilityTimeout)) k, .idle⟩

/-- The counter of plane `p` is the number of its foci executing; so a call of the plane goes on to
read the queue when none executes. -/
structure Sys.CapacityKept (clients : Op → Bool) (p : PlaneId) (s : Sys) : Prop where
  counted : s.world.active p = s.executing p
  reads : s.executing p = 0 → ∀ i cp env s', cp.plane = p → 1 ≤ cp.maxConcurrent →
    s.calls i = .live ⟨.process cp, (Op.process cp).prog, .idle⟩ →
    s.step clients (.exec i env) = some s' → s'.GoesOnToRead i cp

theorem processWork_prog (cp : ControlPlane) :
    ∃ k, (Op.process cp).prog = .eff (.loadActive cp.plane) k ∧
      ∀ active < cp.maxConcurrent,
        ∃ k', k active = .eff (.pool (.pgmqRead cp.visibilityTimeout)) k' := by
  refine ⟨_, rfl, fun active hroom => ?_⟩
  simp only [Prog.ret_bind, ExceptT.bindCont, if_neg (Nat.not_le.mpr hroom)]
  exact ⟨_, rfl⟩

/-- A call that finds its plane below capacity goes on to read the queue. -/
theorem goesOnToRead {i : CallId} {env : Env} {cp : ControlPlane}
    (hi : s.calls i = .live ⟨.process cp, (Op.process cp).prog, .idle⟩)
    (hroom : s.world.active cp.plane < cp.maxConcurrent)
    (h : s.step clients (.exec i env) = some s') : s'.GoesOnToRead i cp := by
  obtain ⟨k, hprog, hk⟩ := processWork_prog cp
  obtain ⟨k', hread⟩ := hk _ hroom
  obtain ⟨op, β, e, k₀, ph, hi', -, rfl⟩ := step_exec h
  rw [hi, hprog] at hi'
  cases hi'
  refine ⟨k', ?_⟩
  rw [Sys.perform, Sys.move_calls_self]
  change Slot.live ⟨.process cp, k (s.world.active cp.plane), .idle⟩ = _
  rw [hread]

theorem Sys.capacityKept_iff : s.CapacityKept clients p ↔ s.world.active p = s.executing p := by
  refine ⟨fun h => h.counted, fun h => ⟨h, fun hnone i cp env s' hp hmax hi hstep => ?_⟩⟩
  refine goesOnToRead hi ?_ hstep
  rw [hp, h, hnone]
  exact hmax

/-- Capacity is kept exactly as long as no step takes a slot along: when no effect of
`Focus::create` fails between the increment and the decrement, and no call is dropped there. From
any state on, the counter moves with the foci executing under the same condition. -/
theorem capacity_kept_iff {s₁ s₂ : Sys} {ls ks : List Label}
    (h₁ : (system clients).Run Sys.initial ls s₁) (h₂ : (system clients).Run s₁ ks s₂) :
    (s₂.CapacityKept clients p ↔
      (system clients).along (fun s l => !s.leaks p l) Sys.initial (ls ++ ks) = true) ∧
    (s₂.world.active p + s₁.executing p = s₁.world.active p + s₂.executing p ↔
      (system clients).along (fun s l => !s.leaks p l) s₁ ks = true) := by
  have hrun := h₁.trans h₂
  have hinit : Sys.initial.executing p = 0 := tally_eq_zero fun _ => rfl
  have hwhole := Sys.Reachable.balance (p := p) (.refl _) hrun
  have hpart := Sys.Reachable.balance (p := p) ⟨ls, h₁⟩ h₂
  have hzero : Sys.initial.world.active p = 0 := rfl
  rw [hinit, hzero] at hwhole
  constructor
  · rw [Sys.capacityKept_iff, ← hrun.occurrences_eq_zero_iff]
    omega
  · rw [← h₂.occurrences_eq_zero_iff]
    omega

end Steps

/-! ### Samples -/

/-- A focus of the plane is running. -/
def focusedState : Sys := (system planeClients).replayed Sys.initial focusedRun

/-- The rest of its call. -/
def focusedTail : List Label := List.replicate 12 (.exec 1 {}) ++ [.finish 1]

/-- While the focus runs it is counted, and when its call has returned none is. -/
theorem capacity_kept_iff_focused :
    focusedState.world.active samplePlane.plane = 1 ∧
    focusedState.CapacityKept planeClients samplePlane.plane ∧
    ((system planeClients).replayed focusedState focusedTail).world.active samplePlane.plane +
        focusedState.executing samplePlane.plane =
      1 + ((system planeClients).replayed focusedState focusedTail).executing samplePlane.plane :=
  have hrun : (system planeClients).Run Sys.initial focusedRun focusedState := Lts.run_replayed rfl
  ⟨rfl, (capacity_kept_iff hrun (.refl _)).1.mpr rfl,
    (capacity_kept_iff hrun (Lts.run_replayed rfl)).2.mpr rfl⟩

/-- A submission whose focus directory cannot be made. -/
def uncreatedRun : List Label :=
  Label.alone 0 (.submit sampleItem) { uuid := .ofNat 1 } 9 ++
    Label.alone 1 (.process samplePlane) { io := some "No space left on device" } 14

/-- One failed creation: nothing executes, and the only slot of the plane is gone for good. -/
theorem slot_is_leaked :
    ¬ ∀ (ls : List Label) (s : Sys), (system planeClients).Run Sys.initial ls s →
      (∀ i, Label.crash i ∉ ls) → s.CapacityKept planeClients samplePlane.plane := by
  intro h
  have hrun : (system planeClients).Run Sys.initial uncreatedRun
      ((system planeClients).replayed Sys.initial uncreatedRun) := Lts.run_replayed rfl
  have hkept := (h _ _ hrun (by simp [uncreatedRun, Label.alone])).counted
  have hnone : ((system planeClients).replayed Sys.initial uncreatedRun).executing
      samplePlane.plane = 0 := tally_eq_zero fun i => match i with
    | 0 => rfl
    | 1 => rfl
    | _ + 2 => rfl
  rw [hnone] at hkept
  cases hkept

end Animus
