import Animus.Lib.Effect

/-!
# Transcripts of programs

The effects a program performs with the answers they got, in order. A protocol
whose phase is the transcript so far lets a program be judged by its past.

## Main definitions

- `Event`: an effect and its answer
- `Yields`: a program performs a transcript and ends in a result
- `kind`: the protocol under which every effect is of a kind
- `transcript`: the protocol whose phase is what was performed
- `Plays`: events allowed one after the other

## Main results

- `yields_bind`: a transcript of a sequence is cut where its first part ends
- `obeys_transcript`: what a program performs ends up in the phase
-/

namespace Effect

universe u

/-- An effect and the answer it got. -/
structure Event (E : Type → Type u) where
  {Ans : Type}
  eff : E Ans
  answer : Ans

variable {E : Type → Type u} {ε α β : Type}

/-- The program performs the events in order and ends in the result. -/
def Yields : Prog E α → List (Event E) → α → Prop
  | .ret a, t, b => t = [] ∧ b = a
  | .eff e k, t, b => ∃ r t', t = ⟨e, r⟩ :: t' ∧ Yields (k r) t' b

@[simp] theorem yields_ret {a b : α} {t : List (Event E)} :
    Yields (.ret a) t b ↔ t = [] ∧ b = a := Iff.rfl

@[simp] theorem yields_eff {e : E β} {k : β → Prog E α} {t : List (Event E)} {b : α} :
    Yields (.eff e k) t b ↔ ∃ r t', t = ⟨e, r⟩ :: t' ∧ Yields (k r) t' b := Iff.rfl

/-- A transcript of a sequence is one of its first part, then one of what follows its result. -/
theorem yields_bind {p : Prog E α} {f : α → Prog E β} {t : List (Event E)} {b : β} :
    Yields (p.bind f) t b ↔ ∃ t₁ t₂ a, t = t₁ ++ t₂ ∧ Yields p t₁ a ∧ Yields (f a) t₂ b := by
  induction p generalizing t with
  | ret a =>
    constructor
    · intro h
      exact ⟨[], t, a, rfl, ⟨rfl, rfl⟩, h⟩
    · rintro ⟨_, t₂, _, rfl, ⟨rfl, rfl⟩, h⟩
      exact h
  | eff e k ih =>
    constructor
    · rintro ⟨r, t', rfl, h⟩
      obtain ⟨t₁, t₂, a, rfl, h₁, h₂⟩ := (ih r).mp h
      exact ⟨⟨e, r⟩ :: t₁, t₂, a, rfl, ⟨r, t₁, rfl, h₁⟩, h₂⟩
    · rintro ⟨_, t₂, a, rfl, ⟨r, t₁, rfl, h₁⟩, h₂⟩
      exact ⟨r, t₁ ++ t₂, rfl, (ih r).mpr ⟨t₁, t₂, a, rfl, h₁, h₂⟩⟩

theorem yields_perform {e : E α} {t : List (Event E)} {a : α} :
    Yields (Prog.perform e) t a ↔ t = [⟨e, a⟩] := by
  constructor
  · rintro ⟨r, _, rfl, rfl, rfl⟩
    rfl
  · rintro rfl
    exact ⟨a, [], rfl, rfl, rfl⟩

/-! ### Programs that may stop with an error -/

/-- Either the first part stopped with an error, or the second went on from its result. -/
theorem yields_run_bind {x : Fallible E ε α} {f : α → Fallible E ε β} {t : List (Event E)}
    {r : Except ε β} : Yields (x >>= f).run t r ↔
      (∃ t₁ t₂ a, t = t₁ ++ t₂ ∧ Yields x.run t₁ (.ok a) ∧ Yields (f a).run t₂ r) ∨
      ∃ e, r = .error e ∧ Yields x.run t (.error e) := by
  rw [Fallible.run_bind, yields_bind]
  constructor
  · rintro ⟨t₁, t₂, a, rfl, h₁, h₂⟩
    cases a with
    | ok a => exact .inl ⟨t₁, t₂, a, rfl, h₁, h₂⟩
    | error e =>
      obtain ⟨rfl, rfl⟩ := h₂
      exact .inr ⟨e, rfl, by rwa [List.append_nil]⟩
  · rintro (⟨t₁, t₂, a, rfl, h₁, h₂⟩ | ⟨e, rfl, h⟩)
    · exact ⟨t₁, t₂, .ok a, rfl, h₁, h₂⟩
    · exact ⟨t, [], .error e, (List.append_nil t).symm, h, rfl, rfl⟩

theorem yields_attempt {δ : Type} {wrap : δ → ε} {e : E (Except δ α)} {t : List (Event E)}
    {r : Except ε α} : Yields (Fallible.attempt wrap e).run t r ↔
      ∃ a : Except δ α, t = [⟨e, a⟩] ∧ r = a.mapError wrap := by
  constructor
  · rintro ⟨a, _, rfl, rfl, rfl⟩
    exact ⟨a, rfl, rfl⟩
  · rintro ⟨a, rfl, rfl⟩
    exact ⟨a, [], rfl, rfl, rfl⟩

/-! ### The transcript as a phase -/

/-- The protocol without phases, under which every effect is of a kind. -/
def kind (answers : {β : Type} → E β → β → Prop) (K : {β : Type} → E β → Prop) :
    Protocol E Unit where
  answers := answers
  allowed _ e := K e
  next _ _ _ := ()

/-- The protocol whose phase is what was performed. -/
def transcript (answers : {β : Type} → E β → β → Prop)
    (allowed : {β : Type} → List (Event E) → E β → Prop) : Protocol E (List (Event E)) where
  answers := answers
  allowed := allowed
  next t e r := t ++ [⟨e, r⟩]

/-- From the first phase the protocol allows the events one after the other, and they lead to the
last. -/
def Plays {G : Type*} (P : Protocol E G) : G → List (Event E) → G → Prop
  | g, [], g' => g' = g
  | g, x :: t, g' => P.allowed g x.eff ∧ Plays P (P.next g x.eff x.answer) t g'

section Plays

variable {G : Type*} {P : Protocol E G} {g g' : G} {t t' : List (Event E)}

theorem plays_append : Plays P g (t ++ t') g' ↔ ∃ m, Plays P g t m ∧ Plays P m t' g' := by
  induction t generalizing g with
  | nil =>
    constructor
    · exact fun h => ⟨g, rfl, h⟩
    · rintro ⟨m, rfl, h⟩
      exact h
  | cons x t ih =>
    constructor
    · rintro ⟨ha, h⟩
      obtain ⟨m, hm, h⟩ := ih.mp h
      exact ⟨m, ⟨ha, hm⟩, h⟩
    · rintro ⟨m, ⟨ha, hm⟩, h⟩
      exact ⟨ha, ih.mpr ⟨m, hm, h⟩⟩

theorem Plays.snoc (h : Plays P g t g') {x : Event E} (ha : P.allowed g' x.eff) :
    Plays P g (t ++ [x]) (P.next g' x.eff x.answer) := plays_append.mpr ⟨g', h, ha, rfl⟩

/-- Events that leave a phase as it is. -/
theorem Plays.stays {K : {β : Type} → E β → Prop}
    (hK : ∀ {β : Type} (e : E β), K e → ∀ r, P.next g e r = g) (h : Plays P g t g')
    (ht : ∀ x ∈ t, K x.eff) : g' = g := by
  induction t with
  | nil => exact h
  | cons x t ih =>
    obtain ⟨-, h⟩ := h
    obtain ⟨hx, ht⟩ := List.forall_mem_cons.mp ht
    rw [hK x.eff hx] at h
    exact ih h ht

end Plays

section Transcript

variable {answers : {β : Type} → E β → β → Prop} {K : {β : Type} → E β → Prop}
  {allowed : {β : Type} → List (Event E) → E β → Prop}

/-- What is of one kind is of every wider one. -/
theorem Protocol.Obeys.of_kind {K' : {β : Type} → E β → Prop} {Q : Unit → α → Prop} {p : Prog E α}
    (h : (kind answers K).Obeys Q () p) (hK : ∀ {β : Type} (e : E β), K e → K' e) :
    (kind answers K').Obeys Q () p := by
  induction p with
  | ret a => exact h
  | eff e k ih => exact ⟨hK e h.1, fun r hr => ih r (h.2 r hr)⟩

/-- A program whose effects are of a kind, and allowed after any of that kind, leads from a
transcript to that transcript followed by its own. -/
theorem obeys_transcript {Q : α → Prop} {p : Prog E α}
    (h : (kind answers K).Obeys (fun _ a => Q a) () p) {t₀ : List (Event E)}
    (hK : ∀ {β : Type} (e : E β) t', K e → (∀ x ∈ t', K x.eff) → allowed (t₀ ++ t') e) :
    (transcript answers allowed).Obeys
      (fun t a => ∃ t', t = t₀ ++ t' ∧ Yields p t' a ∧ (∀ x ∈ t', K x.eff) ∧ Q a) t₀ p := by
  induction p generalizing t₀ with
  | ret a => exact ⟨[], (List.append_nil t₀).symm, ⟨rfl, rfl⟩, List.forall_mem_nil _, h⟩
  | eff e k ih =>
    obtain ⟨he, hk⟩ := h
    refine ⟨?_, fun r hr => ?_⟩
    · have hnow := hK e [] he (List.forall_mem_nil _)
      rwa [List.append_nil] at hnow
    -- what was performed grows by the effect, and what is allowed after it is as before
    have hlater : ∀ {β : Type} (e' : E β) t', K e' → (∀ x ∈ t', K x.eff) →
        allowed (t₀ ++ [⟨e, r⟩] ++ t') e' := by
      intro β e' t' he' ht'
      rw [List.append_assoc]
      exact hK e' _ he' (List.forall_mem_cons.mpr ⟨he, ht'⟩)
    refine (ih r (hk r hr) hlater).mono ?_
    rintro _ a ⟨t', rfl, hy, ht', hQ⟩
    exact ⟨⟨e, r⟩ :: t', List.append_assoc .., ⟨r, t', rfl, hy⟩,
      List.forall_mem_cons.mpr ⟨he, ht'⟩, hQ⟩

end Transcript

end Effect
