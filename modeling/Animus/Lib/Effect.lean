import Mathlib.Data.Nat.Notation
import Mathlib.Logic.Function.Basic

/-!
# Effect programs and their protocols

A program performs effects one at a time and continues with each answer. The
same program is run alone against a handler (`Prog.interp`) and interleaved
with others by whoever holds its remainder.

## Main definitions

- `Prog`: a program over a family of effects
- `Prog.interp`: run a program alone, one answer of the outside world a step
- `Protocol`: which effects a program may perform in which phase
- `Protocol.Obeys`: every effect a program performs is allowed, whatever the
  answers, and its result satisfies a postcondition
-/

namespace Effect

universe u

/-- A program: a result, or one effect and what follows its answer. -/
inductive Prog (E : Type → Type u) (α : Type) : Type (max 1 u)
  | ret (a : α)
  | eff {β : Type} (e : E β) (k : β → Prog E α)

namespace Prog

variable {E : Type → Type u} {α β γ : Type}

def bind : Prog E α → (α → Prog E β) → Prog E β
  | .ret a, f => f a
  | .eff e k, f => .eff e fun r => (k r).bind f

instance : Monad (Prog E) where
  pure := .ret
  bind := .bind

@[simp] theorem pure_eq (a : α) : (pure a : Prog E α) = .ret a := rfl

@[simp] theorem bind_eq (p : Prog E α) (f : α → Prog E β) : p >>= f = p.bind f := rfl

@[simp] theorem ret_bind (a : α) (f : α → Prog E β) : (Prog.ret a).bind f = f a := rfl

@[simp] theorem eff_bind (e : E γ) (k : γ → Prog E α) (f : α → Prog E β) :
    (Prog.eff e k).bind f = .eff e fun r => (k r).bind f := rfl

theorem bind_assoc {δ : Type} (p : Prog E α) (f : α → Prog E β) (g : β → Prog E δ) :
    (p.bind f).bind g = p.bind fun a => (f a).bind g := by
  induction p with
  | ret a => rfl
  | eff e k ih => exact congrArg (Prog.eff e) (funext ih)

/-- Perform one effect and return its answer. -/
def perform (e : E α) : Prog E α := .eff e .ret

variable {S A : Type*}

/-- Run a program alone: the handler answers the `n`-th effect from the `n`-th
entry of `env`. -/
def interp (handle : {β : Type} → E β → A → S → β × S) : Prog E α → (ℕ → A) → S → α × S
  | .ret a, _, s => (a, s)
  | .eff e k, env, s =>
    (k (handle e (env 0) s).1).interp handle (fun n => env (n + 1)) (handle e (env 0) s).2

theorem interp_bind_ret (handle : {β : Type} → E β → A → S → β × S) (p : Prog E α) (g : α → β)
    (env : ℕ → A) (s : S) : (p.bind fun a => .ret (g a)).interp handle env s =
      (g (p.interp handle env s).1, (p.interp handle env s).2) := by
  induction p generalizing env s with
  | ret a => rfl
  | eff e k ih => exact ih _ _ _

/-- How many effects a run performs. -/
def steps (handle : {β : Type} → E β → A → S → β × S) : Prog E α → (ℕ → A) → S → ℕ
  | .ret _, _, _ => 0
  | .eff e k, env, s =>
    (k (handle e (env 0) s).1).steps handle (fun n => env (n + 1)) (handle e (env 0) s).2 + 1

end Prog

/-- A protocol: which answers an effect may get, which effects a phase allows, and
the phase after an answer. -/
structure Protocol (E : Type → Type u) (G : Type*) where
  answers : {β : Type} → E β → β → Prop
  allowed : {β : Type} → G → E β → Prop
  next : {β : Type} → G → E β → β → G

namespace Protocol

variable {E : Type → Type u} {G : Type*} {α β : Type} (P : Protocol E G)

/-- From phase `g` the program performs allowed effects only, relying on possible
answers, and ends in a phase and with a result satisfying `Q`. -/
def Obeys (Q : G → α → Prop) : G → Prog E α → Prop
  | g, .ret a => Q g a
  | g, .eff e k => P.allowed g e ∧ ∀ r, P.answers e r → Obeys Q (P.next g e r) (k r)

variable {P}

@[simp] theorem obeys_ret {Q : G → α → Prop} {g : G} {a : α} :
    P.Obeys Q g (.ret a) ↔ Q g a := Iff.rfl

theorem Obeys.mono {Q Q' : G → α → Prop} {g : G} {p : Prog E α} (h : P.Obeys Q g p)
    (imp : ∀ g a, Q g a → Q' g a) : P.Obeys Q' g p := by
  induction p generalizing g with
  | ret a => exact imp g a h
  | eff e k ih => exact ⟨h.1, fun r hr => ih r (h.2 r hr)⟩

/-- The sequencing rule: what follows a program may assume its postcondition. -/
theorem Obeys.bind {Q : G → α → Prop} {Q' : G → β → Prop} {g : G} {p : Prog E α}
    {f : α → Prog E β} (h : P.Obeys Q g p)
    (hf : ∀ g a, Q g a → P.Obeys Q' g (f a)) : P.Obeys Q' g (p.bind f) := by
  induction p generalizing g with
  | ret a => exact hf g a h
  | eff e k ih => exact ⟨h.1, fun r hr => ih r (h.2 r hr)⟩

theorem Obeys.perform {Q : G → α → Prop} {g : G} {e : E α} (ha : P.allowed g e)
    (h : ∀ a, P.answers e a → Q (P.next g e a) a) : P.Obeys Q g (Prog.perform e) := ⟨ha, h⟩

end Protocol

/-! ### Programs that may stop with an error -/

/-- Programs with early return: the `?` operator is the bind of this monad. -/
abbrev Fallible (E : Type → Type u) (ε α : Type) := ExceptT ε (Prog E) α

namespace Fallible

variable {E : Type → Type u} {ε α β : Type}

/-- Perform an effect that cannot fail. -/
def perform (e : E α) : Fallible E ε α := ExceptT.mk (.eff e fun a => .ret (.ok a))

/-- Perform an effect whose answer may be an error, and stop on the error. -/
def attempt {δ : Type} (wrap : δ → ε) (e : E (Except δ α)) : Fallible E ε α :=
  ExceptT.mk (.eff e fun r => .ret (r.mapError wrap))

/-- The `?` operator on a result at hand. -/
def ofResult (r : Except ε α) : Fallible E ε α := ExceptT.mk (.ret r)

/-- The same program, whose errors are turned into others. -/
def mapError {ε' : Type} (f : ε → ε') (x : Fallible E ε α) : Fallible E ε' α :=
  ExceptT.mk (x.run.bind fun r => .ret (r.mapError f))

@[simp] theorem run_ofResult (r : Except ε α) :
    (ofResult r : Fallible E ε α).run = .ret r := rfl

@[simp] theorem run_perform (e : E α) :
    (perform e : Fallible E ε α).run = .eff e fun a => .ret (.ok a) := rfl

@[simp] theorem run_attempt {δ : Type} (wrap : δ → ε) (e : E (Except δ α)) :
    (attempt wrap e : Fallible E ε α).run = .eff e fun r => .ret (r.mapError wrap) := rfl

theorem run_bind (x : Fallible E ε α) (f : α → Fallible E ε β) :
    (x >>= f).run = x.run.bind fun r => match r with
      | .ok a => (f a).run
      | .error e => .ret (.error e) := rfl

theorem mapError_attempt_bind {δ ε' : Type} (g : ε → ε') (wrap : δ → ε) (e : E (Except δ α))
    (f : α → Fallible E ε β) :
    mapError g (attempt wrap e >>= f) = attempt (g ∘ wrap) e >>= fun a => mapError g (f a) := by
  refine ExceptT.ext (congrArg (Prog.eff e) (funext fun r => ?_))
  cases r <;> rfl

section Interp

variable {S A : Type*} (handle : {β : Type} → E β → A → S → β × S) (env : ℕ → A) (s : S)

theorem interp_perform_bind (e : E α) (f : α → Fallible E ε β) :
    (perform e >>= f).run.interp handle env s =
      (f (handle e (env 0) s).1).run.interp handle (fun n => env (n + 1)) (handle e (env 0) s).2 :=
  rfl

theorem interp_attempt_ok {δ : Type} {wrap : δ → ε} {e : E (Except δ α)}
    {f : α → Fallible E ε β} {a : α} {s' : S} (h : handle e (env 0) s = (.ok a, s')) :
    (attempt wrap e >>= f).run.interp handle env s =
      (f a).run.interp handle (fun n => env (n + 1)) s' := by
  simp only [run_bind, run_attempt, Prog.eff_bind, Prog.ret_bind, Prog.interp, h]
  rfl

theorem interp_attempt_error {δ : Type} {wrap : δ → ε} {e : E (Except δ α)}
    {f : α → Fallible E ε β} {d : δ} {s' : S} (h : handle e (env 0) s = (.error d, s')) :
    (attempt wrap e >>= f).run.interp handle env s = (.error (wrap d), s') := by
  simp only [run_bind, run_attempt, Prog.eff_bind, Prog.ret_bind, Prog.interp, h]
  rfl

theorem interp_mapError {ε' : Type} (f : ε → ε') (x : Fallible E ε α) :
    (mapError f x).run.interp handle env s =
      ((x.run.interp handle env s).1.mapError f, (x.run.interp handle env s).2) :=
  Prog.interp_bind_ret handle _ _ env s

theorem interp_map (x : Fallible E ε α) (g : α → β) :
    (x >>= fun a => pure (g a)).run.interp handle env s =
      ((x.run.interp handle env s).1.map g, (x.run.interp handle env s).2) := by
  have hg : (fun r : Except ε α => match r with
      | .ok a => (pure (g a) : Fallible E ε β).run
      | .error e => .ret (.error e)) = fun r => .ret (r.map g) := by
    funext r
    cases r <;> rfl
  rw [run_bind, hg]
  exact Prog.interp_bind_ret handle _ _ env s

/-- A run that is mapped ends in `ok` where it did before. -/
theorem interp_map_ok {x : Fallible E ε α} {g : α → β} {b : β} {s' : S}
    (h : (x >>= fun a => pure (g a)).run.interp handle env s = (.ok b, s')) :
    ∃ a, x.run.interp handle env s = (.ok a, s') ∧ b = g a := by
  rw [interp_map] at h
  generalize x.run.interp handle env s = out at h
  obtain ⟨result, t⟩ := out
  cases result with
  | ok a =>
    cases h
    exact ⟨a, rfl, rfl⟩
  | error e => cases h

end Interp

end Fallible

namespace Protocol

variable {E : Type → Type u} {G : Type*} {ε α β : Type} (P : Protocol E G)

/-- `Obeys` for programs with early return: `Q` of an ordinary result and `R`
of an error. -/
def ObeysE (Q : G → α → Prop) (R : G → ε → Prop) (g : G) (x : Fallible E ε α) : Prop :=
  P.Obeys (fun g r => match r with
    | .ok a => Q g a
    | .error e => R g e) g x.run

variable {P}

theorem ObeysE.pure {Q : G → α → Prop} {R : G → ε → Prop} {g : G} {a : α} (h : Q g a) :
    P.ObeysE Q R g (Pure.pure a) := h

theorem ObeysE.throw {Q : G → α → Prop} {R : G → ε → Prop} {g : G} {e : ε} (h : R g e) :
    P.ObeysE Q R g (MonadExcept.throw e) := h

theorem ObeysE.mono {Q Q' : G → α → Prop} {R R' : G → ε → Prop} {g : G}
    {x : Fallible E ε α} (h : P.ObeysE Q R g x) (hQ : ∀ g a, Q g a → Q' g a)
    (hR : ∀ g e, R g e → R' g e) : P.ObeysE Q' R' g x :=
  Obeys.mono h fun g r hr => by
    cases r with
    | ok a => exact hQ g a hr
    | error e => exact hR g e hr

theorem ObeysE.bind {Q : G → α → Prop} {Q' : G → β → Prop} {R : G → ε → Prop} {g : G}
    {x : Fallible E ε α} {f : α → Fallible E ε β} (h : P.ObeysE Q R g x)
    (hf : ∀ g a, Q g a → P.ObeysE Q' R g (f a)) : P.ObeysE Q' R g (x >>= f) := by
  unfold ObeysE
  rw [Fallible.run_bind]
  refine Obeys.bind h fun g r hr => ?_
  cases r with
  | ok a => exact hf g a hr
  | error e => exact hr

/-- A program that cannot fail, inside one that can. -/
theorem ObeysE.lift {Q : G → α → Prop} {R : G → ε → Prop} {g : G} {p : Prog E α}
    (h : P.Obeys Q g p) : P.ObeysE Q R g (ExceptT.lift p) :=
  Obeys.bind h fun _ _ h => h

theorem ObeysE.ofResult {Q : G → α → Prop} {R : G → ε → Prop} {g : G} {r : Except ε α}
    (hok : ∀ a, r = .ok a → Q g a) (herr : ∀ e, r = .error e → R g e) :
    P.ObeysE Q R g (Fallible.ofResult r) := by
  cases r with
  | ok a => exact hok a rfl
  | error e => exact herr e rfl

theorem ObeysE.attempt {δ : Type} {wrap : δ → ε} {Q : G → α → Prop} {R : G → ε → Prop}
    {g : G} {e : E (Except δ α)} (ha : P.allowed g e)
    (hok : ∀ a, P.answers e (.ok a) → Q (P.next g e (.ok a)) a)
    (herr : ∀ d, P.answers e (.error d) → R (P.next g e (.error d)) (wrap d)) :
    P.ObeysE Q R g (Fallible.attempt wrap e) := by
  refine ⟨ha, fun r hr => ?_⟩
  cases r with
  | ok a => exact hok a hr
  | error d => exact herr d hr

/-- Perform an effect, then go on. -/
theorem ObeysE.perform_bind {Q : G → β → Prop} {R : G → ε → Prop} {g : G} {e : E α}
    {f : α → Fallible E ε β} (ha : P.allowed g e)
    (h : ∀ a, P.answers e a → P.ObeysE Q R (P.next g e a) (f a)) :
    P.ObeysE Q R g (Fallible.perform e >>= f) := ⟨ha, h⟩

/-- Attempt an effect, then go on or stop. -/
theorem ObeysE.attempt_bind {δ : Type} {wrap : δ → ε} {Q : G → β → Prop} {R : G → ε → Prop}
    {g : G} {e : E (Except δ α)} {f : α → Fallible E ε β} (ha : P.allowed g e)
    (hok : ∀ a, P.answers e (.ok a) → P.ObeysE Q R (P.next g e (.ok a)) (f a))
    (herr : ∀ d, P.answers e (.error d) → R (P.next g e (.error d)) (wrap d)) :
    P.ObeysE Q R g (Fallible.attempt wrap e >>= f) := by
  refine ⟨ha, fun r hr => ?_⟩
  cases r with
  | ok a => exact hok a hr
  | error d => exact herr d hr

end Protocol

end Effect
