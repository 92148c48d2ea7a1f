import Animus.Lib.Lts

/-!
# Atomic objects

An object does each of its operations at once. A system of interleaved callers
linearizes to it when every step of a caller is some operations of the object,
done in the name of that caller.

## Main definitions

- `AtomicObject`, `AtomicObject.Run`: operations, and operations one after the other
- `opsOf`: what one caller did

## Main results

- `Lts.Run.linearizes`: what the callers of a run did, in order, leads from state to state
- `Lts.Run.accounts`: what each caller did so far, by where it is
-/

universe u v w

/-- An object by what each of its operations may do. -/
structure AtomicObject (X : Type u) (O : Type v) where
  Does : X → O → X → Prop

namespace AtomicObject

variable {X : Type u} {O : Type v} {obj : AtomicObject X O} {x m x' : X} {o : O} {os os' : List O}

variable (obj) in
/-- Operations done one after the other. -/
inductive Run : X → List O → X → Prop
  | nil (x : X) : Run x [] x
  | cons {x m x' : X} {o : O} {os : List O} (h : obj.Does x o m) (rest : Run m os x') :
      Run x (o :: os) x'

theorem Run.single (h : obj.Does x o x') : obj.Run x [o] x' := .cons h (.nil x')

theorem run_append : obj.Run x (os ++ os') x' ↔ ∃ m, obj.Run x os m ∧ obj.Run m os' x' := by
  induction os generalizing x with
  | nil =>
    refine ⟨fun h => ⟨x, .nil x, h⟩, ?_⟩
    rintro ⟨m, hm, h⟩
    cases hm
    exact h
  | cons o os ih =>
    constructor
    · intro h
      cases h with
      | cons hdoes hrest =>
        obtain ⟨m, hm, h⟩ := ih.mp hrest
        exact ⟨m, .cons hdoes hm, h⟩
    · rintro ⟨m, hm, h⟩
      cases hm with
      | cons hdoes hrest => exact .cons hdoes (ih.mpr ⟨m, hrest, h⟩)

/-- What every operation but those of one kind keeps is kept by a run without that kind. -/
theorem Run.keeps {I : X → Prop} {K : O → Prop}
    (keep : ∀ x o x', I x → ¬ K o → obj.Does x o x' → I x') (h : obj.Run x os x') (hx : I x)
    (hos : ∀ o ∈ os, ¬ K o) : I x' := by
  induction h with
  | nil x => exact hx
  | @cons x m x' o os h rest ih =>
    rw [List.forall_mem_cons] at hos
    exact ih (keep x o m hx hos.1 h) hos.2

end AtomicObject

/-- What one caller did of what all did. -/
def opsOf {ι : Type w} {O : Type v} [DecidableEq ι] (i : ι) (h : List (ι × O)) : List O :=
  (h.filter fun x => x.1 = i).map Prod.snd

section Ops

variable {ι : Type w} {O : Type v} [DecidableEq ι] {i j : ι}

theorem opsOf_append (h h' : List (ι × O)) : opsOf i (h ++ h') = opsOf i h ++ opsOf i h' := by
  rw [opsOf, opsOf, opsOf, List.filter_append, List.map_append]

@[simp] theorem opsOf_self (os : List O) : opsOf i (os.map (i, ·)) = os := by
  induction os with
  | nil => rfl
  | cons o os ih =>
    simp only [opsOf, List.map_cons, List.filter_cons, decide_true, if_true] at ih ⊢
    rw [ih]

theorem mem_of_opsOf {o : O} {h : List (ι × O)} (ho : o ∈ opsOf i h) : (i, o) ∈ h := by
  obtain ⟨⟨j, o⟩, hmem, rfl⟩ := List.mem_map.mp ho
  obtain ⟨hmem, hj⟩ := List.mem_filter.mp hmem
  rwa [← of_decide_eq_true hj]

theorem opsOf_ne (h : i ≠ j) (os : List O) : opsOf i (os.map (j, ·)) = [] := by
  simp [opsOf, List.filter_map, Function.comp_def, h.symm]

end Ops

namespace Lts

variable {S L : Type*} {sys : Lts S L} {X : Type u} {O : Type v} {ι : Type w}
  {obj : AtomicObject X O} {acts : S → L → S → List (ι × O)} {s s' : S} {ls : List L}

/-- Where each step is some operations of an object, a run is. -/
theorem Run.linearizes {I : S → Prop} {abs : S → X}
    (keep : ∀ s l s', I s → sys.step s l = some s' →
      I s' ∧ obj.Run (abs s) ((acts s l s').map Prod.snd) (abs s'))
    (hr : sys.Run s ls s') (hs : I s) :
    obj.Run (abs s) ((sys.emitted acts s ls).map Prod.snd) (abs s') := by
  induction ls generalizing s with
  | nil =>
    obtain rfl := run_nil.mp hr
    exact .nil _
  | cons l ls ih =>
    obtain ⟨m, hm, hr⟩ := run_cons.mp hr
    obtain ⟨hI, hdo⟩ := keep s l m hs hm
    rw [emitted_cons hm, List.map_append]
    exact AtomicObject.run_append.mpr ⟨abs m, hdo, ih hr hI⟩

/-- An account of what a caller did, kept by every step, holds after every run. -/
theorem Run.accounts [DecidableEq ι] {C : List L → S → List O → Prop} (i : ι) (base : C [] s [])
    (keep : ∀ ls m l m' os, sys.Run s ls m → sys.step m l = some m' → C ls m os →
      C (ls ++ [l]) m' (os ++ opsOf i (acts m l m')))
    (hr : sys.Run s ls s') : C ls s' (opsOf i (sys.emitted acts s ls)) := by
  refine Run.snoc_induction (I := fun ls s' => C ls s' (opsOf i (sys.emitted acts s ls))) base ?_ hr
  intro ls l m m' (hrun : sys.Run s ls m) ih hstep
  rw [hrun.emitted_snoc hstep, opsOf_append]
  exact keep ls m l m' _ hrun hstep ih

end Lts
