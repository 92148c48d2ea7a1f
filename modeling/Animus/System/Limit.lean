import Animus.System.Capacity

/-!
# The limit on concurrent foci

A call compares the counter of active foci with the limit before it reads the
queue and increments it only once its item is running. Clones share the counter,
and the increments of others fall in between.

## Main definitions

- `clonesOf`: the clones of one plane, which have its limit
- `Sys.overruns`: an increment at which the check of the call would no longer pass
- `Sys.passes`: a check that passes
- `Sys.admitted`: the calls between their check and the end of their focus

## Main results

- `limit_respected_iff`: when no more foci execute than the limit allows
- `limit_is_exceeded`: two clones that check before either increments
-/

namespace Animus

open Effect

/-- Clones of plane `p` have its limit; nothing is said of other operations. -/
def clonesOf (p : PlaneId) (max : ℕ) : Op → Bool
  | .process cp => cp.plane ≠ p || cp.maxConcurrent = max
  | _ => true

/-- Does a step increment the counter of plane `p` where the check would no longer pass? -/
def Sys.overruns (p : PlaneId) (max : ℕ) (s : Sys) : Label → Bool
  | .exec i _ =>
    match s.calls i with
    | .live ⟨_, .eff e _, _⟩ => e.adds p && max ≤ s.world.active p
    | _ => false
  | _ => false

/-- Does an effect look at a counter of active foci? -/
def Eff.looks : {β : Type} → Eff β → Bool
  | _, .loadActive _ => true
  | _, _ => false

/-- Is a call in this phase, with effect `e` next, between its check and the end of its focus? -/
def PlanePhase.admitted {β : Type} (e : Eff β) (ph : PlanePhase) : Bool :=
  ph.rank = 1 || (ph.rank = 0 && !e.looks)

/-- Is the call one of plane `p` between its check and the end of its focus? -/
def Slot.admitted (p : PlaneId) : Slot → Bool
  | .live ⟨.process cp, .eff e _, ph⟩ => cp.plane = p && ph.admitted e
  | _ => false

/-- How many calls of plane `p` are between their check and the end of their focus. -/
noncomputable def Sys.admitted (p : PlaneId) (s : Sys) : ℕ := tally (Slot.admitted p) s.calls

/-- Does the check of a call of plane `p` pass in this step? -/
def Sys.passes (p : PlaneId) (max : ℕ) (s : Sys) : Label → Bool
  | .exec i _ =>
    match s.calls i with
    | .live ⟨.process cp, .eff e _, _⟩ => cp.plane = p && (e.looks && s.world.active p < max)
    | _ => false
  | _ => false

/-- A check passes only while fewer calls than the limit are between theirs and the end of their
focus. -/
noncomputable def Sys.hasRoom (p : PlaneId) (max : ℕ) (s : Sys) (l : Label) : Bool :=
  !s.passes p max l || s.admitted p < max

/-! ### The counter at the increment -/

section Counter

variable {clients : Op → Bool} {p : PlaneId} {max : ℕ} {s s' : Sys} {l : Label}

theorem Sys.overruns_exec {i : CallId} {op : Op} {β : Type} {e : Eff β}
    {k : β → Prog Eff (Except Error op.Result)} {ph : op.Phase} (env : Env)
    (hi : s.calls i = .live ⟨op, .eff e k, ph⟩) :
    s.overruns p max (.exec i env) = (e.adds p && decide (max ≤ s.world.active p)) := by
  simp only [Sys.overruns, hi]

/-- A counter within the limit stays there, unless a step overruns it. -/
theorem Sys.step_active_le (h : s.step clients l = some s') (hroom : s.overruns p max l = false)
    (hs : s.world.active p ≤ max) : s'.world.active p ≤ max := by
  cases l with
  | exec i env =>
    obtain ⟨op, β, e, k, ph, hi, -, rfl⟩ := step_exec h
    have hactive : (s.perform i env op e k ph).world.active p =
        s.world.active p + (e.adds p).toNat - (e.subs p).toNat := handle_active i env s.world p
    rw [Sys.overruns_exec env hi] at hroom
    rw [hactive]
    -- only an increment can take the counter past the limit, and this one finds it below
    cases hadds : e.adds p with
    | true =>
      rw [hadds, Bool.true_and, decide_eq_false_iff_not] at hroom
      rw [Bool.toNat_true]
      omega
    | false =>
      rw [Bool.toNat_false]
      omega
  | start i op =>
    obtain ⟨-, -, rfl⟩ := step_start h
    exact hs
  | finish i =>
    obtain ⟨op, a, ph, -, rfl⟩ := step_finish h
    exact hs
  | crash i =>
    obtain ⟨c, -, rfl⟩ := step_crash h
    exact hs
  | expire m =>
    obtain rfl := step_expire h
    exact hs

theorem Eff.subs_of_adds {β : Type} {e : Eff β} (h : e.adds p = true) : e.subs p = false := by
  cases e <;> first | rfl | cases h

/-- A step that overruns the limit leaves the counter above it. -/
theorem Sys.step_active_of_overruns (h : s.step clients l = some s')
    (hover : s.overruns p max l = true) : max < s'.world.active p := by
  cases l with
  | exec i env =>
    obtain ⟨op, β, e, k, ph, hi, -, rfl⟩ := step_exec h
    have hactive : (s.perform i env op e k ph).world.active p =
        s.world.active p + (e.adds p).toNat - (e.subs p).toNat := handle_active i env s.world p
    rw [Sys.overruns_exec env hi, Bool.and_eq_true, decide_eq_true_eq] at hover
    rw [hactive, hover.1, Eff.subs_of_adds hover.1, Bool.toNat_true, Bool.toNat_false]
    omega
  | _ => cases hover

/-- Without an overrun the foci executing stay within the limit. -/
theorem executing_le_of_along {ls : List Label}
    (ha : (system clients).along (fun s l => !s.overruns p max l) Sys.initial ls = true) :
    (system clients).throughout (fun s => s.executing p ≤ max) Sys.initial ls :=
  Lts.throughout_of_along (I := fun s => s.CountInv clients p ∧ s.world.active p ≤ max)
    (fun _ _ _ hs hroom hstep => ⟨(hs.1.balance_step hstep).1,
      Sys.step_active_le hstep (Bool.eq_false_of_not_eq_true' hroom) hs.2⟩)
    (fun _ hs => hs.1.le.trans hs.2) ha ⟨Sys.countInv_initial clients p, Nat.zero_le max⟩

/-- Where no slot is taken along, staying within the limit takes that no increment overruns it. -/
theorem along_of_executing_le {ls : List Label} (hrun : (system clients).Run Sys.initial ls s)
    (hleak : (system clients).along (fun s l => !s.leaks p l) Sys.initial ls = true)
    (h : (system clients).throughout (fun s => s.executing p ≤ max) Sys.initial ls) :
    (system clients).along (fun s l => !s.overruns p max l) Sys.initial ls = true := by
  have hstep : ∀ (s : Sys) (l : Label) (s' : Sys),
      s.CountInv clients p ∧ s.world.active p = s.executing p → (!s.leaks p l) = true →
      s.step clients l = some s' →
      s'.CountInv clients p ∧ s'.world.active p = s'.executing p := by
    intro s l s' hs hnone hstep
    obtain ⟨hinv, hbal⟩ := hs.1.balance_step hstep
    rw [Bool.eq_false_of_not_eq_true' hnone, Bool.toNat_false] at hbal
    exact ⟨hinv, by omega⟩
  refine hrun.along_of_throughout hstep (fun s l s' hs hnone hs' hle => ?_) hleak
    ⟨Sys.countInv_initial clients p, (tally_eq_zero fun _ => rfl).symm⟩ h
  rw [Bool.not_eq_true']
  by_contra hover
  have hlt := Sys.step_active_of_overruns hs' ((Bool.not_eq_false _).mp hover)
  have heq := (hstep s l s' hs hnone hs').2
  omega

end Counter

/-! ### The calls admitted -/

/-- A call that has not read the queue is at its check, is about to read, or returns. -/
def Slot.Fresh : Slot → Prop
  | .live ⟨.process cp, p, .idle⟩ => p = (Op.process cp).prog ∨ (∃ a, p = .ret a) ∨
      ∃ vt k, p = .eff (.pool (.pgmqRead vt)) k
  | _ => True

section Admission

variable {cp : ControlPlane} {ph : PlanePhase} {β : Type} {e : Eff β}
  {k : β → Prog Eff (Except Error Unit)} {i : CallId} {env : Env} {w : World} {p : PlaneId}

theorem processWork_full (cp : ControlPlane) :
    ∃ k, (Op.process cp).prog = .eff (.loadActive cp.plane) k ∧
      ∀ active, cp.maxConcurrent ≤ active → ∃ a, k active = .ret a := by
  refine ⟨_, rfl, fun active hfull => ?_⟩
  simp only [Prog.ret_bind, ExceptT.bindCont, if_pos hfull]
  exact ⟨_, rfl⟩

theorem Slot.fresh_of_rank {p : Prog Eff (Except Error Unit)} (h : ph.rank ≠ 0) :
    Slot.Fresh (.live ⟨.process cp, p, ph⟩) := by
  cases ph with
  | idle => exact absurd rfl h
  | _ => trivial

/-- The read of the queue ends the first phase. -/
theorem planeNext_read (cp : ControlPlane) (vt : ℤ) (r : Except DbError (Option PgmqMessage)) :
    (planeNext cp .idle (.pool (.pgmqRead vt)) r).rank ≠ 0 := by
  cases r with
  | error d => exact Nat.succ_ne_zero 1
  | ok msg =>
    show (PlanePhase.afterRead msg).rank ≠ 0
    obtain hafter | ⟨m, id, hafter⟩ := PlanePhase.afterRead_cases msg
    · rw [hafter]
      exact Nat.succ_ne_zero 1
    · rw [hafter]
      exact Nat.succ_ne_zero 0

theorem Slot.Fresh.next (hs : Slot.Fresh (.live ⟨.process cp, .eff e k, ph⟩))
    (ha : planeAllowed cp ph e) :
    Slot.Fresh (.live ⟨.process cp, k (handle i e env w).1,
      planeNext cp ph e (handle i e env w).1⟩) := by
  by_cases hph : ph = .idle
  · subst hph
    obtain hprog | ⟨a, hret⟩ | ⟨vt, k', hread⟩ := hs
    · obtain ⟨k', hroom, hpass⟩ := processWork_prog cp
      obtain ⟨k'', hfull, hstop⟩ := processWork_full cp
      cases hprog.trans hroom
      cases hroom.symm.trans hfull
      obtain hlt | hle := Nat.lt_or_ge (w.active cp.plane) cp.maxConcurrent
      · obtain ⟨k₁, hk₁⟩ := hpass _ hlt
        exact .inr (.inr ⟨_, _, hk₁⟩)
      · exact .inr (.inl (hstop _ hle))
    · cases hret
    · cases hread
      exact Slot.fresh_of_rank (planeNext_read cp vt _)
  · have hrank : ph.rank ≠ 0 := fun h => hph (PlanePhase.rank_eq_zero.mp h)
    have hstep : PlaneStep cp env w ph _ _ := planeStep_of (i := i) ha
    have hle := hstep.rank_le
    exact Slot.fresh_of_rank (by omega)

/-- A call is admitted by its check, and only where the check passes. -/
theorem Slot.Fresh.admitted_next (hs : Slot.Fresh (.live ⟨.process cp, .eff e k, ph⟩))
    (ha : planeAllowed cp ph e)
    (hnext : Slot.admitted p (.live ⟨.process cp, k (handle i e env w).1,
      planeNext cp ph e (handle i e env w).1⟩) = true) :
    Slot.admitted p (.live ⟨.process cp, .eff e k, ph⟩) = true ∨
      cp.plane = p ∧ e.looks = true ∧ w.active p < cp.maxConcurrent := by
  have hstep : PlaneStep cp env w ph _ _ := planeStep_of (i := i) ha
  have hle := hstep.rank_le
  cases hk : k (handle i e env w).1 with
  | ret a =>
    rw [hk] at hnext
    cases hnext
  | eff e' k' =>
    rw [hk, Slot.admitted, Bool.and_eq_true, decide_eq_true_eq, PlanePhase.admitted,
      Bool.or_eq_true, decide_eq_true_eq, Bool.and_eq_true, decide_eq_true_eq] at hnext
    rw [Slot.admitted, Bool.and_eq_true, decide_eq_true_eq, PlanePhase.admitted, Bool.or_eq_true,
      decide_eq_true_eq, Bool.and_eq_true, decide_eq_true_eq, Bool.not_eq_true']
    have hrank : ph.rank = 0 ∨ ph.rank = 1 := by omega
    obtain hzero | hone := hrank
    · cases hlooks : e.looks with
      | false => exact .inl ⟨hnext.1, .inr ⟨hzero, rfl⟩⟩
      | true =>
        refine .inr ⟨hnext.1, rfl, ?_⟩
        obtain rfl := PlanePhase.rank_eq_zero.mp hzero
        obtain hprog | ⟨a, hret⟩ | ⟨vt, k₀, hread⟩ := hs
        · obtain ⟨k₁, hfull, hstop⟩ := processWork_full cp
          cases hprog.trans hfull
          -- a check that does not pass would have ended the call
          by_contra hle
          obtain ⟨a, ha'⟩ := hstop (w.active cp.plane) (by rw [hnext.1]; exact Nat.not_lt.mp hle)
          cases hk.symm.trans ha'
        · cases hret
        · cases hread
          cases hlooks
    · exact .inl ⟨hnext.1, .inl hone⟩

end Admission

/-- What the account of the admitted calls of plane `p` rests on. -/
structure Sys.LimitInv (p : PlaneId) (max : ℕ) (s : Sys) : Prop where
  lawful : s.Lawful (clonesOf p max)
  fresh : ∀ i, (s.calls i).Fresh
  finite : {i | (s.calls i).admitted p = true}.Finite

section Account

variable {p : PlaneId} {max : ℕ} {s s' : Sys} {l : Label}

/-- Replacing one slot admits at most that call. -/
theorem Sys.LimitInv.replace (hs : s.LimitInv p max) {i : CallId} {x : Slot} {n : ℕ}
    (hlawful : s'.Lawful (clonesOf p max)) (hcalls : s'.calls = Function.update s.calls i x)
    (hx : x.Fresh) (hadm : (x.admitted p).toNat ≤ ((s.calls i).admitted p).toNat + n) :
    s'.LimitInv p max ∧ s'.admitted p ≤ s.admitted p + n := by
  have htally := tally_update hs.finite i x
  rw [← hcalls] at htally
  refine ⟨⟨hlawful, fun j => ?_, ?_⟩, ?_⟩
  · rw [hcalls]
    by_cases hji : j = i
    · rw [hji, Function.update_self]
      exact hx
    · rw [Function.update_of_ne hji]
      exact hs.fresh j
  · rw [hcalls]
    exact finite_update hs.finite i x
  · unfold Sys.admitted
    omega

/-- A call that begins has not made its check. -/
theorem Slot.admitted_first (op : Op) :
    Slot.admitted p (.live ⟨op, op.prog, op.first⟩) = false := by
  cases op with
  | process cp =>
    obtain ⟨k, hprog, -⟩ := processWork_full cp
    rw [hprog]
    exact Bool.and_false _
  | _ => rfl

variable (env : Env) in
/-- An effect of a `process_work` call admits it only as a check that passes. -/
theorem Sys.LimitInv.exec_admitted (hs : s.LimitInv p max) {i : CallId} {cp : ControlPlane}
    {β : Type} {e : Eff β} {k : β → Prog Eff (Except Error Unit)} {ph : PlanePhase}
    (hi : s.calls i = .live ⟨.process cp, .eff e k, ph⟩) :
    (Slot.admitted p (.live ⟨.process cp, k (handle i e env s.world).1,
        planeNext cp ph e (handle i e env s.world).1⟩)).toNat ≤
      ((s.calls i).admitted p).toNat + (s.passes p max (.exec i env)).toNat := by
  obtain ⟨hclient, ha, -⟩ := hs.lawful i _ hi
  have hfresh := hs.fresh i
  rw [hi] at hfresh
  cases hadm : Slot.admitted p (.live ⟨.process cp, k (handle i e env s.world).1,
      planeNext cp ph e (handle i e env s.world).1⟩) with
  | false => exact Nat.zero_le _
  | true =>
    rw [hi]
    obtain hbefore | ⟨hplane, hlooks, hlt⟩ := hfresh.admitted_next ha hadm
    · rw [hbefore]
      exact Nat.le_add_right _ _
    -- clones have one limit, so the check of this one is the check against `max`
    · have hmax : cp.maxConcurrent = max := by simpa [clonesOf, hplane] using hclient
      have hpasses : s.passes p max (.exec i env) = true := by
        simp only [Sys.passes, hi, hplane, hlooks, ← hmax, hlt, decide_true, Bool.and_self]
      rw [hpasses]
      exact Nat.le_add_left _ _

/-- A step admits a call only where its check passes. -/
theorem Sys.LimitInv.step (hs : s.LimitInv p max) (h : s.step (clonesOf p max) l = some s') :
    s'.LimitInv p max ∧ s'.admitted p ≤ s.admitted p + (s.passes p max l).toNat := by
  have hlawful := Sys.lawful_step hs.lawful h
  cases l with
  | start i op =>
    obtain ⟨hi, -, rfl⟩ := step_start h
    refine hs.replace hlawful rfl ?_ ?_
    · cases op with
      | process cp => exact .inl rfl
      | _ => trivial
    · rw [Slot.admitted_first]
      exact Nat.zero_le _
  | exec i env =>
    obtain ⟨op, β, e, k, ph, hi, -, rfl⟩ := step_exec h
    obtain ⟨-, ha, -⟩ := hs.lawful i _ hi
    have hfresh := hs.fresh i
    rw [hi] at hfresh
    refine hs.replace (x := .live ⟨op, k (handle i e env s.world).1,
      op.protocol.next ph e (handle i e env s.world).1⟩) hlawful rfl ?_ ?_
    · cases op with
      | process cp => exact hfresh.next ha
      | _ => trivial
    · cases op with
      | process cp => exact hs.exec_admitted env hi
      | _ => exact Nat.zero_le _
  | finish i =>
    obtain ⟨op, a, ph, hi, rfl⟩ := step_finish h
    exact hs.replace hlawful rfl trivial (Nat.zero_le _)
  | crash i =>
    obtain ⟨c, hi, rfl⟩ := step_crash h
    exact hs.replace hlawful rfl trivial (Nat.zero_le _)
  | expire m =>
    obtain rfl := step_expire h
    exact ⟨⟨hlawful, hs.fresh, hs.finite⟩, le_refl _⟩

theorem Sys.limitInv_initial : Sys.initial.LimitInv p max where
  lawful := Sys.lawful_initial
  fresh _ := trivial
  finite := by simp [Sys.initial, Slot.admitted]

/-- A call whose focus executes is admitted. -/
theorem Slot.admitted_of_executing (x : Slot) (h : x.executing p = true) :
    x.admitted p = true := by
  obtain _ | ⟨⟨op, prog, ph⟩⟩ | _ := x
  · cases h
  · cases op with
    | process cp =>
      cases prog with
      | ret a => cases h
      | eff e k =>
        obtain ⟨hplane, hexec⟩ := Bool.and_eq_true_iff.mp h
        refine Bool.and_eq_true_iff.mpr ⟨hplane, ?_⟩
        cases ph with
        | owning st m id => cases st <;> first | rfl | cases hexec
        | _ => cases hexec
    | _ => cases h
  · cases h

/-- Where checks pass only while there is room, the foci executing stay within the limit. -/
theorem executing_le_of_hasRoom {ls : List Label}
    (ha : (system (clonesOf p max)).along (Sys.hasRoom p max) Sys.initial ls = true) :
    (system (clonesOf p max)).throughout (fun s => s.executing p ≤ max) Sys.initial ls := by
  refine Lts.throughout_of_along (I := fun s => s.LimitInv p max ∧ s.admitted p ≤ max)
    (fun s l s' hs hroom hstep => ?_) (fun s hs => ?_) ha
    ⟨Sys.limitInv_initial, (tally_eq_zero fun _ => rfl).trans_le (Nat.zero_le max)⟩
  -- a check that passes adds one admitted call, and had room for it
  · obtain ⟨hinv, hle⟩ := hs.1.step hstep
    refine ⟨hinv, ?_⟩
    rw [Sys.hasRoom, Bool.or_eq_true, Bool.not_eq_true', decide_eq_true_eq] at hroom
    obtain hpasses | hlt := hroom
    · rw [hpasses, Bool.toNat_false] at hle
      exact hle.trans hs.2
    · have hone := (s.passes p max l).toNat_le
      omega
  · exact (tally_mono hs.1.finite Slot.admitted_of_executing).trans hs.2

end Account

/-- The foci executing stay within the limit if no increment is made where the check of the call
would no longer pass; where no slot is taken along, only then. In particular they do if checks pass
only while fewer calls than the limit are between theirs and the end of their focus. -/
theorem limit_respected_iff {p : PlaneId} {max : ℕ} {ls : List Label} {s : Sys}
    (hrun : (system (clonesOf p max)).Run Sys.initial ls s) :
    ((system (clonesOf p max)).along (fun s l => !s.overruns p max l) Sys.initial ls = true →
      (system (clonesOf p max)).throughout (fun s => s.executing p ≤ max) Sys.initial ls) ∧
    ((system (clonesOf p max)).along (fun s l => !s.leaks p l) Sys.initial ls = true →
      ((system (clonesOf p max)).throughout (fun s => s.executing p ≤ max) Sys.initial ls ↔
        (system (clonesOf p max)).along (fun s l => !s.overruns p max l) Sys.initial ls = true)) ∧
    ((system (clonesOf p max)).along (Sys.hasRoom p max) Sys.initial ls = true →
      (system (clonesOf p max)).throughout (fun s => s.executing p ≤ max) Sys.initial ls) :=
  ⟨executing_le_of_along, fun hleak => ⟨along_of_executing_le hrun hleak, executing_le_of_along⟩,
    executing_le_of_hasRoom⟩

/-! ### Samples -/

/-- One clone at work stays within its limit. -/
theorem limit_respected_iff_focused :
    (system (clonesOf 0 1)).throughout (fun s => s.executing 0 ≤ 1) Sys.initial focusedRun :=
  (limit_respected_iff (Lts.run_replayed (s := Sys.initial) rfl)).1 rfl

/-- Two items are submitted; two clones make their check before either increments. -/
def crowdedRun : List Label :=
  Label.alone 0 (.submit (.new "social" "cli")) { uuid := .ofNat 1 } 9 ++
    Label.alone 1 (.submit (.new "social" "cli")) { uuid := .ofNat 2 } 9 ++
    [.start 2 (.process samplePlane), .start 3 (.process samplePlane), .exec 2 {}, .exec 3 {}] ++
    List.replicate 11 (.exec 2 {}) ++ List.replicate 11 (.exec 3 {})

/-- Two foci execute where one is allowed. -/
theorem limit_is_exceeded :
    ¬ ∀ (p : PlaneId) (max : ℕ) (ls : List Label) (s : Sys),
      (system (clonesOf p max)).Run Sys.initial ls s → s.executing p ≤ max := by
  intro h
  have hrun : (system (clonesOf 0 1)).Run Sys.initial crowdedRun
      ((system (clonesOf 0 1)).replayed Sys.initial crowdedRun) := Lts.run_replayed rfl
  have hle := h 0 1 _ _ hrun
  have hbal := Sys.Reachable.balance (p := 0) (.refl _) hrun
  have hactive : ((system (clonesOf 0 1)).replayed Sys.initial crowdedRun).world.active 0 = 2 := rfl
  have hzero : Sys.initial.executing 0 = 0 := tally_eq_zero fun _ => rfl
  have hnone : (system (clonesOf 0 1)).occurrences (Sys.leaks 0) Sys.initial crowdedRun = 0 := rfl
  rw [hactive, hzero, hnone] at hbal
  have hinit : Sys.initial.world.active 0 = 0 := rfl
  omega

end Animus
