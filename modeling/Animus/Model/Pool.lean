import Animus.Lib.Linear
import Animus.Model.Work
import Mathlib.Logic.Function.Basic

/-!
# The work pool

What the work table and its queue are for, with every operation done at once: a
pool of jobs that are accepted or merged, advance along the lifecycle graph, and
whose message is dismissed when they are done.

## Main definitions

- `Job`, `Pool`: the jobs by id
- `Pool.Op`, `Pool.Does`: the operations and what they do
- `workPool`: the pool as an atomic object

## Main results

- `Pool.became`: a job stays what it is
- `Pool.accepts_apart`: a dedup key is a lock, taken by an accepted job until that is finished
-/

namespace Animus

/-- A job of the pool. -/
structure Job where
  faculty : String
  dedupKey : Option String
  state : State
  /-- The job it was merged into. -/
  mergedInto : Option WorkId
  attempts : ℤ
  /-- Its message is in the queue. -/
  posted : Bool
  deriving DecidableEq

namespace Job

/-- A job that was just accepted. -/
def accepted (faculty : String) (dedupKey : Option String) : Job :=
  ⟨faculty, dedupKey, .queued, none, 0, true⟩

/-- A job that was merged into another when it came. -/
def merged (faculty : String) (canonical : WorkId) : Job :=
  ⟨faculty, none, .merged, some canonical, 0, false⟩

/-- The job in its next state; entering `running` is an attempt. -/
def advance (j : Job) (b : State) : Job :=
  { j with state := b, attempts := j.attempts + if b = .running then 1 else 0 }

/-- The job without its message. -/
def dismiss (j : Job) : Job := { j with posted := false }

/-- The job keeps others of its faculty and dedup key out. -/
def Holds (j : Job) (faculty key : String) : Prop :=
  j.faculty = faculty ∧ j.dedupKey = some key ∧ j.state.isTerminal = false

/-- The job `j'` is `j` later: what was submitted and whether it was merged do not change. -/
structure Became (j j' : Job) : Prop where
  faculty : j'.faculty = j.faculty
  dedupKey : j'.dedupKey = j.dedupKey
  mergedInto : j'.mergedInto = j.mergedInto
  state : j.state ≠ .created → j'.state ≠ .created ∧ (j'.state = .merged ↔ j.state = .merged)

theorem Became.refl (j : Job) : j.Became j := ⟨rfl, rfl, rfl, fun h => ⟨h, Iff.rfl⟩⟩

theorem Became.trans {j j' j'' : Job} (h : j.Became j') (h' : j'.Became j'') : j.Became j'' where
  faculty := h'.faculty.trans h.faculty
  dedupKey := h'.dedupKey.trans h.dedupKey
  mergedInto := h'.mergedInto.trans h.mergedInto
  state hj := by
    obtain ⟨hcreated, hmerged⟩ := h.state hj
    obtain ⟨hcreated', hmerged'⟩ := h'.state hcreated
    exact ⟨hcreated', hmerged'.trans hmerged⟩

theorem became_advance {j : Job} {b : State} (h : j.state.canTransitionTo b = true) :
    j.Became (j.advance b) where
  faculty := rfl
  dedupKey := rfl
  mergedInto := rfl
  state hj := by
    obtain ⟨hcreated, hmerged⟩ := State.target_of_canTransitionTo h hj
    refine ⟨hcreated, iff_of_false hmerged fun hm => ?_⟩
    have hterm := State.not_isTerminal_of_canTransitionTo h
    rw [hm] at hterm
    cases hterm

end Job

abbrev Pool := WorkId → Option Job

namespace Pool

/-- What is done to a pool. -/
inductive Op
  | accept (id : WorkId) (faculty : String) (dedupKey : Option String)
  | merge (id : WorkId) (faculty key : String) (canonical : WorkId)
  | advance (id : WorkId) (a b : State)
  | dismiss (id : WorkId)
  deriving DecidableEq

/-- The job an operation is about. -/
def Op.id : Op → WorkId
  | .accept id _ _ | .merge id _ _ _ | .advance id _ _ | .dismiss id => id

/-- The state it leaves that job in. -/
def Op.state : Op → State
  | .accept _ _ _ => .queued
  | .merge _ _ _ _ => .merged
  | .advance _ _ b => b
  | .dismiss _ => .completed

/-- Does it finish a job? -/
def Op.Finishes (id : WorkId) (o : Op) : Prop :=
  ∃ a b, o = .advance id a b ∧ b.isTerminal = true

/-- What each operation does, and when it is possible. -/
inductive Does (p : Pool) : Op → Pool → Prop
  | accept {id : WorkId} {faculty : String} {dedupKey : Option String} (fresh : p id = none)
      (free : ∀ key, dedupKey = some key → ∀ k j, p k = some j → ¬ j.Holds faculty key) :
      Does p (.accept id faculty dedupKey)
        (Function.update p id (some (.accepted faculty dedupKey)))
  | merge {id c : WorkId} {faculty key : String} {j : Job} (fresh : p id = none)
      (hj : p c = some j) (hf : j.faculty = faculty) (hk : j.dedupKey = some key)
      (hm : j.state ≠ .merged) :
      Does p (.merge id faculty key c) (Function.update p id (some (.merged faculty c)))
  | advance {id : WorkId} {a b : State} {j : Job} (hj : p id = some j) (ha : j.state = a)
      (hab : a.canTransitionTo b = true) :
      Does p (.advance id a b) (Function.update p id (some (j.advance b)))
  | dismiss {id : WorkId} {j : Job} (hj : p id = some j) (hp : j.posted = true)
      (hs : j.state = .completed) : Does p (.dismiss id) (Function.update p id (some j.dismiss))

/-- The pool nothing was submitted to. -/
def empty : Pool := fun _ => none

section Does

variable {p p' : Pool} {o : Op} {id k : WorkId} {faculty key : String}

/-- An operation leaves every other job alone. -/
theorem Does.of_ne (h : p.Does o p') (hk : k ≠ o.id) : p' k = p k := by
  cases h <;> exact Function.update_of_ne hk _ _

/-- It changes its own, and leaves it in the state it says. -/
theorem Does.at_id (h : p.Does o p') :
    p' o.id ≠ p o.id ∧ (p' o.id).map Job.state = some o.state := by
  cases h with
  | accept fresh free =>
    rw [Op.id, fresh, Function.update_self]
    exact ⟨Option.some_ne_none _, rfl⟩
  | merge fresh hj hf hk hm =>
    rw [Op.id, fresh, Function.update_self]
    exact ⟨Option.some_ne_none _, rfl⟩
  | @advance id a b j hj ha hab =>
    rw [Op.id, hj, Function.update_self]
    refine ⟨fun heq => ?_, rfl⟩
    have hstate : b = j.state := congrArg Job.state (Option.some.inj heq)
    exact State.ne_of_canTransitionTo hab (ha.symm.trans hstate.symm)
  | @dismiss id j hj hp hs =>
    rw [Op.id, hj, Function.update_self]
    refine ⟨fun heq => ?_, congrArg some hs⟩
    have hposted : false = j.posted := congrArg Job.posted (Option.some.inj heq)
    exact Bool.false_ne_true (hposted.trans hp)

/-- A job never disappears, and stays what it is. -/
theorem Does.became {j : Job} (h : p.Does o p') (hj : p id = some j) :
    ∃ j', p' id = some j' ∧ j.Became j' := by
  by_cases hid : id = o.id
  · cases h with
    | accept fresh free =>
      cases hid
      cases fresh.symm.trans hj
    | merge fresh hj' hf hk hm =>
      cases hid
      cases fresh.symm.trans hj
    | @advance id₀ a b j₀ hj₀ ha hab =>
      cases hid
      cases hj.symm.trans hj₀
      subst ha
      exact ⟨j.advance b, Function.update_self .., Job.became_advance hab⟩
    | @dismiss id₀ j₀ hj₀ hp hs =>
      cases hid
      cases hj.symm.trans hj₀
      exact ⟨j.dismiss, Function.update_self .., rfl, rfl, rfl, fun h => ⟨h, Iff.rfl⟩⟩
  · exact ⟨j, (h.of_ne hid).trans hj, .refl j⟩

/-- A job holds its dedup key until it is finished. -/
theorem Does.holds (h : p.Does o p') (hp : ∃ j, p id = some j ∧ j.Holds faculty key)
    (ho : ¬ o.Finishes id) : ∃ j, p' id = some j ∧ j.Holds faculty key := by
  obtain ⟨j, hj, hf, hk, hs⟩ := hp
  by_cases hid : id = o.id
  · cases h with
    | accept fresh free =>
      cases hid
      cases fresh.symm.trans hj
    | merge fresh hj' hf' hk' hm =>
      cases hid
      cases fresh.symm.trans hj
    | @advance id₀ a b j' hj' ha hab =>
      cases hid
      cases hj.symm.trans hj'
      have hb : b.isTerminal = false := by
        rw [← Bool.not_eq_true]
        exact fun hterm => ho ⟨a, b, rfl, hterm⟩
      exact ⟨j.advance b, Function.update_self .., hf, hk, hb⟩
    | dismiss hj' hp' hs' =>
      cases hid
      cases hj.symm.trans hj'
      exact ⟨j.dismiss, Function.update_self .., hf, hk, hs⟩
  · exact ⟨j, (h.of_ne hid).trans hj, hf, hk, hs⟩

end Does

end Pool

/-- The pool as an object whose operations take effect at once. -/
def workPool : AtomicObject Pool Pool.Op := ⟨Pool.Does⟩

/-- A job stays what it is over any operations. -/
theorem Pool.became {p p' : Pool} {os : List Op} {id : WorkId} {j : Job}
    (h : workPool.Run p os p') (hj : p id = some j) : ∃ j', p' id = some j' ∧ j.Became j' := by
  induction h generalizing j with
  | nil p => exact ⟨j, hj, .refl j⟩
  | cons hdo rest ih =>
    obtain ⟨j₁, hj₁, hb⟩ := Does.became hdo hj
    obtain ⟨j₂, hj₂, hb'⟩ := ih hj₁
    exact ⟨j₂, hj₂, hb.trans hb'⟩

/-- A job that was accepted is there. -/
theorem Pool.became_accepted {p p' : Pool} {os : List Op} {id : WorkId} {faculty : String}
    {dedupKey : Option String} (h : workPool.Run p os p') (ho : .accept id faculty dedupKey ∈ os) :
    ∃ j, p' id = some j ∧ (Job.accepted faculty dedupKey).Became j := by
  obtain ⟨os₁, os₂, rfl⟩ := List.append_of_mem ho
  obtain ⟨m, -, h⟩ := AtomicObject.run_append.mp h
  cases h with
  | cons hdo hrest =>
    cases hdo with
    | accept fresh free => exact Pool.became hrest (Function.update_self ..)

/-- So is one that was merged, and the one it was merged into. -/
theorem Pool.became_merged {p p' : Pool} {os : List Op} {id c : WorkId} {faculty key : String}
    (h : workPool.Run p os p') (ho : .merge id faculty key c ∈ os) :
    (∃ j, p' id = some j ∧ (Job.merged faculty c).Became j) ∧
    ∃ j, p' c = some j ∧ j.faculty = faculty ∧ j.dedupKey = some key := by
  obtain ⟨os₁, os₂, rfl⟩ := List.append_of_mem ho
  obtain ⟨m, -, h⟩ := AtomicObject.run_append.mp h
  cases h with
  | cons hdo hrest =>
    have hne := hdo.of_ne (k := c)
    cases hdo with
    | @merge id c faculty key j fresh hj hf hk hm =>
      have hc : c ≠ id := by
        rintro rfl
        cases fresh.symm.trans hj
      obtain ⟨j', hj', hb⟩ := Pool.became hrest ((hne hc).trans hj)
      exact ⟨Pool.became hrest (Function.update_self ..), j', hj', hb.faculty.trans hf,
        hb.dedupKey.trans hk⟩

/-- A job is accepted at most once: its id is taken from then on. -/
theorem Pool.not_accepts {p p' : Pool} {os : List Op} {id : WorkId} {j : Job}
    (h : workPool.Run p os p') (hj : p id = some j) (faculty : String)
    (dedupKey : Option String) : .accept id faculty dedupKey ∉ os := by
  intro ho
  obtain ⟨os₁, os₂, rfl⟩ := List.append_of_mem ho
  obtain ⟨m, hbefore, h⟩ := AtomicObject.run_append.mp h
  obtain ⟨j', hj', -⟩ := Pool.became hbefore hj
  cases h with
  | cons hdo hrest =>
    cases hdo with
    | accept fresh free => cases fresh.symm.trans hj'

/-- So what was accepted under one id was accepted for one caller. -/
theorem Pool.accept_unique {ι : Type} {p : Pool} {os : List (ι × Op)} {id : WorkId} {j j' : ι}
    {faculty faculty' : String} {dedupKey dedupKey' : Option String}
    (h : workPool.Run Pool.empty (os.map Prod.snd) p) (hj : (j, .accept id faculty dedupKey) ∈ os)
    (hj' : (j', .accept id faculty' dedupKey') ∈ os) : j = j' := by
  have later : ∀ {i f k} {os₁ os₂ : List (ι × Op)}, os = os₁ ++ (i, .accept id f k) :: os₂ →
      ∀ i' f' k', (i', .accept id f' k') ∉ os₂ := by
    rintro i f k os₁ os₂ rfl i' f' k' hmem
    rw [List.map_append, List.map_cons] at h
    obtain ⟨m, -, h⟩ := AtomicObject.run_append.mp h
    cases h with
    | cons haccept hrest =>
      cases haccept with
      | accept fresh free =>
        exact Pool.not_accepts hrest (Function.update_self ..) f' k' (List.mem_map_of_mem hmem)
  obtain ⟨os₁, os₂, hsplit⟩ := List.append_of_mem hj
  rw [hsplit] at hj'
  obtain hmem | hmem := List.mem_append.mp hj'
  · obtain ⟨os₃, os₄, rfl⟩ := List.append_of_mem hmem
    rw [List.append_assoc, List.cons_append] at hsplit
    exact absurd (List.mem_append_right _ (List.mem_cons_self ..)) (later hsplit j faculty dedupKey)
  · obtain heq | hmem := List.mem_cons.mp hmem
    · cases heq
      rfl
    · exact absurd hmem (later hsplit j' faculty' dedupKey')

/-- A dedup key is a lock: between two jobs that are accepted with it, the first is finished. -/
theorem Pool.accepts_apart {p p' : Pool} {os₁ os₂ os₃ : List Op} {id id' : WorkId}
    {faculty key : String}
    (h : workPool.Run p (os₁ ++ .accept id faculty (some key) ::
      (os₂ ++ .accept id' faculty (some key) :: os₃)) p') : ∃ o ∈ os₂, o.Finishes id := by
  obtain ⟨m₁, -, h⟩ := AtomicObject.run_append.mp h
  cases h with
  | @cons _ m₂ _ _ _ haccept h =>
    obtain ⟨m₃, hbetween, h⟩ := AtomicObject.run_append.mp h
    cases h with
    | cons haccept' h =>
      by_contra hnone
      rw [not_exists] at hnone
      have hholds : ∃ j, m₂ id = some j ∧ j.Holds faculty key := by
        cases haccept with
        | accept fresh free => exact ⟨_, Function.update_self .., rfl, rfl, rfl⟩
      obtain ⟨j, hj, hj'⟩ := hbetween.keeps (I := fun p => ∃ j, p id = some j ∧ j.Holds faculty key)
        (K := Op.Finishes id) (fun _ _ _ hx ho hdoes => Does.holds hdoes hx ho) hholds
        fun o ho hfin => hnone o ⟨ho, hfin⟩
      cases haccept' with
      | accept fresh free => exact free key rfl id j hj hj'

end Animus
