import Animus.System.Accounts
import Animus.System.Capacity
import Animus.System.Redelivery
import Animus.System.Retirement
import Mathlib.Data.Set.Finite.Basic

/-!
# What can still be completed

From a reachable state, which items some continuation completes.

## Main definitions

- `Sys.Completable`: some continuation completes an item
- `Sys.Unowned`: no call works on an item
- `Sys.Lost`: an item is where nothing completes it

## Main results

- `completable_iff`: an item nobody works on can be completed if and only if it is queued or failed
  and one more attempt can be counted
-/

namespace Animus

open Effect

/-- Some continuation completes the item. -/
def Sys.Completable (s : Sys) (id : WorkId) : Prop :=
  ∃ ls s', (system planeClients).Run s ls s' ∧ s'.rowState id = some .completed

/-- No call is between its claim of the item and its retirement of it. -/
def Sys.Unowned (s : Sys) (id : WorkId) : Prop := ∀ j st, ¬ (s.calls j).Owns st id

/-- The item is where nothing completes it: cancelled or merged, claimed or running with nobody at
work on it, or without room for one more attempt. -/
def Sys.Lost (s : Sys) (id : WorkId) : Prop :=
  ∃ r, s.db.row id = some r ∧ r.state ≠ .completed ∧ (r.state.isTerminal = true ∨
    (s.Unowned id ∧ (r.state = .claimed ∨ r.state = .running)) ∨
    (¬ Sql.Value.inInt4 (r.attempts + 1) ∧ r.state ≠ .running))

section Lost

variable {s s' : Sys} {l : Label} {id : WorkId}

/-- An update of a claimed or running row is that of a call at work on it. -/
theorem owns_of_updates (hs : s.Lawful planeClients) {i : CallId} {c : Change}
    (hi : (s.calls i).Updates c id) (hc : c.source = .claimed ∨ c.source = .running) :
    ∃ st, (s.calls i).Owns st id := by
  cases hslot : s.calls i with
  | idle => rw [hslot] at hi; exact hi.elim
  | ended => rw [hslot] at hi; exact hi.elim
  | live x =>
    rw [hslot] at hi
    obtain ⟨op, p, ph⟩ := x
    cases op with
    | submit new => exact hi.elim
    | change c' id' =>
      obtain ⟨-, rfl, rfl⟩ := hi
      obtain hq | hf := operator_source (hs i _ hslot).1 <;> simp_all
    | process cp =>
      cases ph with
      | fetched m id' =>
        obtain ⟨rfl, rfl⟩ := hi
        obtain hc | hc := hc <;> cases hc
      | owning st m id' =>
        have hid : id' = id := by
          cases st with
          | claimed => exact hi.2.symm
          | ran => exact hi.2.symm
          | _ => exact hi.elim
        exact ⟨st, cp, p, m, hid ▸ rfl⟩
      | _ => exact hi.elim

/-- Nobody takes over an item that is claimed or running. -/
theorem Sys.Unowned.step (h : s.Unowned id) (hstep : SysStep planeClients s l s') {r : Row}
    (hr : s.db.row id = some r) (hq : r.state ≠ .queued) : s'.Unowned id := by
  intro j st hj
  obtain ⟨st₀, hj₀⟩ | ⟨env, r₀, -, hr₀, hq₀⟩ := hstep.owned_before hj
  · exact h j st₀ hj₀
  · cases hr.symm.trans hr₀
    exact hq hq₀

/-- Entering `running` counts an attempt. -/
theorem Change.counts {c : Change} {jsonb : Json → Json} {t : Sql.Timestamp} {r r' : Row}
    (happ : c.apply jsonb t r = some r') (htarget : c.target = .running) :
    Sql.Value.inInt4 (r.attempts + 1) := by
  cases c with
  | transition a b =>
    cases htarget
    by_contra hfull
    simp [Change.apply, hfull] at happ
  | complete o => cases htarget
  | fail e ms => cases htarget

theorem Sys.Lost.step (h : s.Lost id) (hs : s.Reachable planeClients)
    (hstep : s.step planeClients l = some s') : s'.Lost id := by
  obtain ⟨r, hr, hne, hwhy⟩ := h
  have hsys := sysStep_of hs.inv.1 hs.inv.2 hstep
  -- where the row stays, so does the reason
  have stays : s'.db.row id = s.db.row id → s'.Lost id := by
    intro hsame
    refine ⟨r, hsame.trans hr, hne, hwhy.imp_right (Or.imp_left ?_)⟩
    rintro ⟨hun, hst⟩
    exact ⟨hun.step hsys hr (by obtain h | h := hst <;> simp [h]), hst⟩
  cases hs.rowStep hstep with
  | same hsame => exact stays (hsame id)
  | insert hl hi hph fresh hrow =>
    refine stays ((hrow id).trans (if_neg ?_))
    rintro rfl
    cases fresh.symm.trans hr
  | @update i env c id₀ r₀ r' now hl hi hc hr₀ hsrc happ hrow =>
    by_cases hid : id = id₀
    · subst hid
      cases hr.symm.trans hr₀
      obtain ⟨hst', -, hatt⟩ := c.apply_state happ
      obtain hterm | ⟨hun, hst⟩ | ⟨hfull, hrun⟩ := hwhy
      · rw [hsrc, State.not_isTerminal_of_canTransitionTo hc] at hterm
        cases hterm
      · obtain ⟨st, hown⟩ := owns_of_updates hs.inv.1 hi (hsrc ▸ hst)
        exact absurd hown (hun i st)
      · have htarget : c.target ≠ .running := fun heq => hfull (Change.counts happ heq)
        rw [if_neg htarget, Int.add_zero] at hatt
        refine ⟨r', (hrow id).trans (if_pos rfl), fun heq => hrun ?_,
          .inr (.inr ⟨hatt ▸ hfull, hst' ▸ htarget⟩)⟩
        rw [hsrc]
        exact State.source_of_retired hc (by rw [← hst', heq]; rfl)
    · exact stays ((hrow id).trans (if_neg hid))

/-- What is lost is not completed by any continuation. -/
theorem Sys.Lost.not_completable (h : s.Lost id) (hs : s.Reachable planeClients) :
    ¬ s.Completable id := by
  rintro ⟨ls, s', hrun, hst⟩
  obtain ⟨-, r, hr, hne, -⟩ := Lts.run_invariant
    (I := fun m => m.Reachable planeClients ∧ m.Lost id)
    (fun m l m' hm hstep => ⟨hm.1.next hstep, hm.2.step hm.1 hstep⟩) hrun ⟨hs, h⟩
  rw [Sys.rowState, hr] at hst
  exact hne (Option.some.inj hst)

end Lost

section Completes

variable {s : Sys} {id : WorkId} {r : Row}

/-- Some call id is not used yet. -/
theorem Sys.Reachable.exists_idle {clients : Op → Bool} (h : s.Reachable clients) :
    ∃ i, s.calls i = .idle := by
  obtain ⟨i, hi⟩ := h.finite_calls.exists_notMem
  exact ⟨i, not_not.mp hi⟩

/-- A message of the queue is visible once its timeout has run out. -/
theorem Db.Carries.readable {db : Db} {m : ℤ} (h : db.Carries none m id) :
    ∃ (k : ℕ) (msg : Message), (db.expire m).readable[k]? = some msg ∧
      extractId msg.message = some id := by
  obtain ⟨msg, hmsg, htxn, rfl, hid⟩ := h
  have hmem : { msg with hidden := false } ∈ (db.expire msg.msgId).readable := by
    refine List.mem_filter.mpr ⟨List.mem_map.mpr ⟨msg, hmsg, if_pos rfl⟩, ?_⟩
    simp [htxn]
  obtain ⟨k, hk⟩ := List.mem_iff_getElem?.mp hmem
  exact ⟨k, _, hk, hid⟩

/-- A control plane that runs any item with one hook, and has a slot to spare. -/
def ControlPlane.spare (active : ℕ) : ControlPlane where
  plane := 0
  registry _ := some { name := "", engage := "" }
  maxConcurrent := active + 1

/-- The world is as a run should find it, and a read gets the `k`-th visible message. -/
def Env.healthy (k : ℕ) : Env := { chance := { pick := k } }

theorem Env.healthy_healthy (k : ℕ) : (Env.healthy k).Healthy k :=
  ⟨⟨rfl, rfl⟩, rfl, rfl, _, rfl⟩

/-- A call that gets the message of a queued item with a registered faculty, and is spared all
faults, completes the item. -/
theorem ControlPlane.Polls.completes {cp : ControlPlane} {i : CallId} {k : ℕ} {w w' : World}
    {H : Env → Prop} (hH : ∀ x, H x → x.Healthy k) {a : Except Error Unit}
    (h : cp.Polls i H k w a w') (hcap : w.active cp.plane < cp.maxConcurrent) {msg : Message}
    (hmsg : w.db.readable[k]? = some msg) (hid : extractId msg.message = some id)
    (hr : w.db.row id = some r) (hf : (cp.registry r.faculty).isSome) (hq : r.state = .queued)
    (hfit : Sql.Value.inInt4 (r.attempts + 1)) :
    ∃ r', w'.db.row id = some r' ∧ r'.state = .completed := by
  cases h with
  | full hfull => exact absurd hcap hfull.not_gt
  | empty _ hnone => cases hmsg.symm.trans hnone
  | took _ hmsg' h =>
    cases hmsg.symm.trans hmsg'
    cases h with
    | unnamed hnone => cases hid.symm.trans hnone
    | missing hid' hnone =>
      cases hid.symm.trans hid'
      cases hr.symm.trans hnone
    | unrouted hid' hr' hnone =>
      cases hid.symm.trans hid'
      cases hr.symm.trans hr'
      rw [hnone] at hf
      cases hf
    | routed hid' hr' hitem hf' h =>
      cases hid.symm.trans hid'
      cases hr.symm.trans hr'
      cases h with
      | refused hne => exact absurd hq hne
      | overrun _ hfull => exact absurd hfit hfull
      | uncreated _ _ _ hio =>
        obtain ⟨x, hx, hio⟩ := hio
        rw [(hH x hx).io] at hio
        cases hio
      | retired _ _ _ hrun hmoved hput =>
        obtain ⟨data, ms, rfl⟩ := ends_run_healthy hH hrun
        refine ⟨_, ?_, hmoved.state⟩
        change (Db.archiveMessage _ _).row id = _
        rw [Db.row, Db.rowOf_archiveMessage, ← Db.rowOf_id hr, ← hmoved.identity.1]
        exact hput.rowOf_self

theorem Sys.Reachable.completable_of_queued (h : s.Reachable planeClients)
    (hr : s.db.row id = some r) (hq : r.state = .queued)
    (hfit : Sql.Value.inInt4 (r.attempts + 1)) : s.Completable id := by
  obtain ⟨m, hc⟩ := h.msgInv.kept id r hr (by rw [hq]; rfl)
  obtain ⟨k, msg, hmsg, hid⟩ := hc.readable
  obtain ⟨i, hi⟩ := h.exists_idle
  have hexpire : (system planeClients).step s (.expire m) = some (s.expire m) := rfl
  -- the visibility timeout runs out, and a call reads the message
  have hop : planeClients (.process (.spare (s.world.active 0))) = true := rfl
  obtain ⟨ls, s', a, hrun, hends⟩ := Sys.exists_run_ends (s := s.expire m) hi hop
    (processWork_unblocked _ i) (Env.healthy_healthy k)
  have hpolls : (ControlPlane.spare (s.world.active 0)).Polls i (Env.Healthy k) k (s.expire m).world
      a s'.world := processWork_polls (fun x hx => hx.serves) h.countersFit hends
  obtain ⟨r', hr', hst⟩ := hpolls.completes (fun x hx => hx) (Nat.lt_succ_self _) hmsg hid hr rfl
    hq hfit
  exact ⟨_, s', .head hexpire hrun, (congrArg (Option.map Row.state) hr').trans (congrArg some hst)⟩

/-- An operator queues a failed item again. -/
theorem Sys.Reachable.requeue (h : s.Reachable planeClients) (hr : s.db.row id = some r)
    (hf : r.state = .failed) : ∃ ls s' r', (system planeClients).Run s ls s' ∧
      s'.db.row id = some r' ∧ r'.state = .queued ∧ r'.attempts = r.attempts := by
  obtain ⟨i, hi⟩ := h.exists_idle
  have hop : planeClients (.change (.transition .failed .queued) id) = true := rfl
  obtain ⟨ls, s', a, hrun, hends⟩ := Sys.exists_run_ends hi hop (casUpdate_unblocked _ id i)
    (Env.healthy_healthy 0)
  generalize hw : s'.world = w' at hends
  cases ends_casUpdate (fun x hx => hx.serves.1) rfl hr hends with
  | missed hne => exact absurd hf hne
  | overrun _ hnone =>
    have hatt := h.countersFit id r hr
    simp [Change.apply, hatt] at hnone
  | @moved _ t r' item db _ happ hput =>
    obtain ⟨hst, -, hatt⟩ := Change.apply_state _ happ
    refine ⟨ls, s', r', hrun, ?_, hst, hatt.trans (Int.add_zero _)⟩
    rw [Sys.db, hw, ← Db.rowOf_id hr, ← (Change.apply_identity _ happ).1]
    exact hput.rowOf_self

/-- An item that nobody works on can be completed, by some continuation of the run, if and only if
it is completed already, or it is queued or failed and its counter has room for one more attempt:
a crash or an error between the claim and the retirement of an item puts it out of reach for good. -/
theorem completable_iff (h : s.Reachable planeClients) (hun : s.Unowned id)
    (hr : s.db.row id = some r) : s.Completable id ↔ r.state = .completed ∨
      (r.state = .queued ∨ r.state = .failed) ∧ Sql.Value.inInt4 (r.attempts + 1) := by
  constructor
  · intro hc
    by_contra hno
    rw [not_or, not_and, or_imp] at hno
    obtain ⟨hne, hq, hf⟩ := hno
    refine Sys.Lost.not_completable ⟨r, hr, hne, ?_⟩ h hc
    cases hst : r.state with
    | created => exact absurd hst (h.tableInv.sound id r hr).notCreated
    | queued => exact .inr (.inr ⟨hq hst, by decide⟩)
    | failed => exact .inr (.inr ⟨hf hst, by decide⟩)
    | claimed => exact .inr (.inl ⟨hun, .inl rfl⟩)
    | running => exact .inr (.inl ⟨hun, .inr rfl⟩)
    | completed | dead | merged => exact .inl rfl
  · rintro (hdone | ⟨hq | hf, hfit⟩)
    · exact ⟨[], s, .refl s, by rw [Sys.rowState, hr, Option.map_some, hdone]⟩
    · exact h.completable_of_queued hr hq hfit
    · obtain ⟨ls, s', r', hrun, hr', hq, hatt⟩ := h.requeue hr hf
      obtain ⟨ks, t, hrun', hst⟩ := (h.later hrun).completable_of_queued hr' hq (hatt ▸ hfit)
      exact ⟨ls ++ ks, t, hrun.trans hrun', hst⟩

end Completes

/-- An item whose focus directory could not be made is left running with nobody at work on it, and
an item whose hook failed is left failed: the second can be completed, the first cannot. -/
theorem completable_iff_left :
    ((system planeClients).replayed Sys.initial hookFailedRun).Completable (.ofNat 1) ∧
    ¬ ((system planeClients).replayed Sys.initial uncreatedRun).Completable (.ofNat 1) := by
  have hfailed :
      ((system planeClients).replayed Sys.initial hookFailedRun).Reachable planeClients :=
    ⟨hookFailedRun, Lts.run_replayed rfl⟩
  have hleft : ((system planeClients).replayed Sys.initial uncreatedRun).Reachable planeClients :=
    ⟨uncreatedRun, Lts.run_replayed rfl⟩
  refine ⟨(completable_iff hfailed (hfailed.unowned rfl (by decide) (by decide)) rfl).mpr
    (.inr ⟨.inr rfl, by decide⟩), fun hc => ?_⟩
  have hun : ((system planeClients).replayed Sys.initial uncreatedRun).Unowned (.ofNat 1) := by
    rintro j st ⟨cp, p, m, hj⟩
    match j with
    | 0 | 1 | _ + 2 => cases hj
  exact absurd ((completable_iff hleft hun rfl).mp hc) (by decide)

end Animus
