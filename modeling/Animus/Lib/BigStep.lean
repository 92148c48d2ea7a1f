import Animus.Lib.Transcript

/-!
# Big steps of effect programs

The runs of a program left alone, when all that is known of the outside world is
a condition on its answers. A fact about every big step is a fact about every
run of that kind.

## Main definitions

- `Ends`: a program left alone may end with a result in a state

## Main results

- `ends_bind`, `ends_run_bind`: a run of a sequence passes through the end of its first part
- `ends_interp`: what a program computes is a big step
- `Ends.keeps`: effects of a kind that keep an invariant keep it in a big step
-/

namespace Effect

universe u

variable {E : Type → Type u} {S A : Type*} {ε α β : Type}

section Ends

variable (handle : {β : Type} → E β → A → S → β × S) (H : A → Prop)

/-- Left alone in a state, with an outside world of the kind `H`, the program may end with a
result in a state. -/
def Ends : Prog E α → S → α → S → Prop
  | .ret a, s, b, s' => b = a ∧ s' = s
  | .eff e k, s, b, s' => ∃ x, H x ∧ Ends (k (handle e x s).1) (handle e x s).2 b s'

variable {handle H} {s s' : S}

@[simp] theorem ends_ret {a b : α} : Ends handle H (.ret a) s b s' ↔ b = a ∧ s' = s := Iff.rfl

@[simp] theorem ends_eff {e : E β} {k : β → Prog E α} {b : α} :
    Ends handle H (.eff e k) s b s' ↔
      ∃ x, H x ∧ Ends handle H (k (handle e x s).1) (handle e x s).2 b s' := Iff.rfl

/-- A run of a sequence is a run of its first part, then one of what follows its result. -/
theorem ends_bind {p : Prog E α} {f : α → Prog E β} {b : β} :
    Ends handle H (p.bind f) s b s' ↔
      ∃ a m, Ends handle H p s a m ∧ Ends handle H (f a) m b s' := by
  induction p generalizing s with
  | ret a =>
    constructor
    · exact fun h => ⟨a, s, ⟨rfl, rfl⟩, h⟩
    · rintro ⟨_, _, ⟨rfl, rfl⟩, h⟩
      exact h
  | eff e k ih =>
    constructor
    · rintro ⟨x, hx, h⟩
      obtain ⟨a, m, h₁, h₂⟩ := (ih _).mp h
      exact ⟨a, m, ⟨x, hx, h₁⟩, h₂⟩
    · rintro ⟨a, m, ⟨x, hx, h₁⟩, h₂⟩
      exact ⟨x, hx, (ih _).mpr ⟨a, m, h₁, h₂⟩⟩

/-- What a program computes is a big step. -/
theorem ends_interp {env : ℕ → A} (hH : ∀ n, H (env n)) (p : Prog E α) (s : S) :
    Ends handle H p s (p.interp handle env s).1 (p.interp handle env s).2 := by
  induction p generalizing env s with
  | ret a => exact ⟨rfl, rfl⟩
  | eff e k ih => exact ⟨env 0, hH 0, ih _ (fun n => hH (n + 1)) _⟩

/-- Effects of a kind that keep an invariant keep it in a big step. -/
theorem Ends.keeps {answers : {β : Type} → E β → β → Prop} {K : {β : Type} → E β → Prop}
    {I : S → Prop} {Q : Unit → α → Prop}
    (answered : ∀ {β : Type} (e : E β) x s, answers e (handle e x s).1)
    (step : ∀ {β : Type} (e : E β), K e → ∀ x s, I s → I (handle e x s).2)
    {p : Prog E α} (hp : (kind answers K).Obeys Q () p) {b : α} (h : Ends handle H p s b s')
    (hs : I s) : I s' := by
  induction p generalizing s with
  | ret a =>
    obtain ⟨-, rfl⟩ := h
    exact hs
  | eff e k ih =>
    obtain ⟨x, -, h⟩ := h
    exact ih _ (hp.2 _ (answered e x s)) h (step e hp.1 x s hs)

/-! ### Programs that may stop with an error -/

/-- Either the first part stopped with an error, or the second went on from its result. -/
theorem ends_run_bind {x : Fallible E ε α} {f : α → Fallible E ε β} {r : Except ε β} :
    Ends handle H (x >>= f).run s r s' ↔
      (∃ a m, Ends handle H x.run s (.ok a) m ∧ Ends handle H (f a).run m r s') ∨
      ∃ e, r = .error e ∧ Ends handle H x.run s (.error e) s' := by
  rw [Fallible.run_bind, ends_bind]
  constructor
  · rintro ⟨a, m, h₁, h₂⟩
    cases a with
    | ok a => exact .inl ⟨a, m, h₁, h₂⟩
    | error e =>
      obtain ⟨rfl, rfl⟩ := h₂
      exact .inr ⟨e, rfl, h₁⟩
  · rintro (⟨a, m, h₁, h₂⟩ | ⟨e, rfl, h⟩)
    · exact ⟨.ok a, m, h₁, h₂⟩
    · exact ⟨.error e, s', h, rfl, rfl⟩

theorem ends_lift_bind {p : Prog E α} {f : α → Fallible E ε β} {r : Except ε β} :
    Ends handle H (ExceptT.lift p >>= f).run s r s' ↔
      ∃ a m, Ends handle H p s a m ∧ Ends handle H (f a).run m r s' := by
  rw [ends_run_bind]
  constructor
  · rintro (⟨a, m, h, hf⟩ | ⟨e, rfl, h⟩)
    · obtain ⟨b, _, hp, hb, rfl⟩ := ends_bind.mp h
      cases hb
      exact ⟨a, m, hp, hf⟩
    · obtain ⟨b, _, -, hb, -⟩ := ends_bind.mp h
      cases hb
  · rintro ⟨a, m, hp, hf⟩
    exact .inl ⟨a, m, ends_bind.mpr ⟨a, m, hp, rfl, rfl⟩, hf⟩

theorem ends_attempt {δ : Type} {wrap : δ → ε} {e : E (Except δ α)} {r : Except ε α} :
    Ends handle H (Fallible.attempt wrap e).run s r s' ↔
      ∃ x, H x ∧ r = (handle e x s).1.mapError wrap ∧ s' = (handle e x s).2 := Iff.rfl

end Ends

end Effect
