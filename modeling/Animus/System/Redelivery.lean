import Animus.System.Messages

/-!
# Redelivery

What a `process_work` call does with the message of an open item nobody owns.
It tries one transition, from `queued`, so it retries an item that is queued
and leaves one that is failed, claimed or running as it found it.

## Main definitions

- `calmProtocol`: the protocol of a call none of whose statements fails
- `Sys.Redelivered`: a call reads the message of an open item
- `Sys.Retried`: the item started an attempt, or reached a terminal state

## Main results

- `processWork_calm`: a calm call stops before the claim only where it misses
- `redelivery_retries_when_queued`
- `redelivery_leaves_failed`: a redelivery that retries nothing
-/

namespace Animus

open Effect Effect.Protocol

/-! ### A call none of whose statements fails -/

/-- No statement fails, and the row that is read exists. -/
def calmAnswers : {β : Type} → Eff β → β → Prop
  | _, .pool (.selectById id), .ok (some r) => r.id = id
  | _, .pool (.selectById _), _ => False
  | _, .pool (.pgmqRead _), .error _ => False
  | _, .pool (.change _ _ _), .error _ => False
  | _, _, _ => True

/-- Before its attempt starts, a call reads no row but its own. -/
def calmAllowed : {β : Type} → PlanePhase → Eff β → Prop
  | _, .idle, .pool (.selectById _) => False
  | _, .read _ id, .pool (.selectById id') | _, .fetched _ id, .pool (.selectById id')
  | _, .owning .claimed _ id, .pool (.selectById id') => id' = id
  | _, _, _ => True

/-- A phase in which a call has a message and its attempt has not started. -/
def PlanePhase.starting : PlanePhase → Bool
  | .read _ _ | .fetched _ _ | .owning .claimed _ _ => true
  | _ => false

def calmProtocol (cp : ControlPlane) : Protocol Eff PlanePhase where
  answers := calmAnswers
  allowed := calmAllowed
  next := planeNext cp

/-- A call that does not stop while it is starting an attempt. -/
def Calm (cp : ControlPlane) (g : PlanePhase) (p : Prog Eff (Except Error Unit)) : Prop :=
  (calmProtocol cp).Obeys (fun g _ => g.starting = false) g p

/-- A phase in which the attempt has started, or the call gave up. -/
def PlanePhase.past : PlanePhase → Bool
  | .owning .claimed _ _ => false
  | .owning _ _ _ | .completed _ _ | .closed => true
  | _ => false

section Calm

variable {cp : ControlPlane} {g : PlanePhase} {β : Type}

theorem PlanePhase.starting_of_past (h : g.past = true) : g.starting = false := by
  cases g with
  | owning st m id => cases st <;> first | rfl | cases h
  | _ => first | rfl | cases h

theorem PlanePhase.afterUpdate_past (h : g.past = true) (c : Change) (a : Except DbError ℕ) :
    (g.afterUpdate c a).past = true := by
  fun_cases PlanePhase.afterUpdate g c a <;> first | rfl | cases h

theorem planeNext_past (h : g.past = true) (e : Eff β) (r : β) :
    (planeNext cp g e r).past = true := by
  cases g with
  | owning st m id =>
    cases st with
    | claimed => cases h
    | _ =>
      cases e with
      | pool q => cases q <;> first | rfl | exact PlanePhase.afterUpdate_past rfl _ r
      | _ => rfl
  | completed m id =>
    cases e with
    | pool q => cases q <;> rfl
    | _ => rfl
  | closed =>
    cases e with
    | pool q => cases q <;> rfl
    | _ => rfl
  | _ => cases h

theorem calmAllowed_past (h : g.past = true) (e : Eff β) : calmAllowed g e := by
  cases g with
  | owning st m id =>
    cases st with
    | claimed => cases h
    | _ => exact trivial
  | completed m id => exact trivial
  | closed => exact trivial
  | _ => cases h

/-- Nothing is asked of a call past its start. -/
theorem calm_of_past (p : Prog Eff (Except Error Unit)) (h : g.past = true) : Calm cp g p := by
  induction p generalizing g with
  | ret a => exact g.starting_of_past h
  | eff e k ih => exact ⟨calmAllowed_past h e, fun r _ => ih r (planeNext_past h e r)⟩

/-- One update on the way to the attempt: it leads from phase `g` to phase `g'`, or closes. -/
theorem casUpdate_calm {c : Change} {id : WorkId} (g' : PlanePhase)
    (hvalid : c.source.canTransitionTo c.target = true) (hnow : ∀ t, planeNext cp g .utcNow t = g)
    (hallow : calmAllowed g (.utcNow : Eff Sql.Timestamp) ∧
      ∀ now, calmAllowed g (.pool (.change c id now)))
    (hupdate : ∀ now a, planeNext cp g (.pool (.change c id now)) a =
      match a with
      | .ok n => if n = 0 then .closed else g'
      | .error _ => .closed)
    (hread : calmAllowed g' (.pool (.selectById id)))
    (hback : ∀ r, planeNext cp g' (.pool (.selectById id)) (.ok (some r)) = g') :
    (calmProtocol cp).ObeysE (fun g₁ _ => g₁ = g') (fun g₁ _ => g₁.starting = false) g
      (casUpdate c id) := by
  refine casUpdate_obeys_of g' (fun h => ?_) hallow.1 hnow (fun _ => hallow.2) ?_ ?_ ?_ ?_
  · rw [hvalid] at h
    cases h
  · intro now e
    exact congrArg PlanePhase.starting (hupdate now (.ok 0))
  · intro now d e
    exact congrArg PlanePhase.starting (hupdate now (.error d))
  · intro now n hn
    exact (hupdate now (.ok n)).trans (if_neg hn)
  · exact getWorkItem_obeys (fun r hr => hr) hread (fun r _ _ _ => hback r) (fun h => h.elim)
      fun _ h => h.elim

/-- A calm call that owns its item does not stop before the item runs. -/
theorem runWork_calm (msg : PgmqMessage) (item : WorkItem) (faculty : FacultyMeta) :
    Calm cp (.fetched msg.msgId item.id) (runWork cp msg item.id item faculty).run := by
  have hrest : ∀ (g : PlanePhase) (x : Fallible Eff Error Unit), g.past = true →
      (calmProtocol cp).ObeysE (fun g _ => g.starting = false)
        (fun g _ => g.starting = false) g x :=
    fun g x hg => Obeys.mono (calm_of_past x.run hg) fun g r h => by cases r <;> exact h
  suffices h : (calmProtocol cp).ObeysE (fun g _ => g.starting = false)
      (fun g _ => g.starting = false) (.fetched msg.msgId item.id)
      (runWork cp msg item.id item faculty) from
    Obeys.mono h fun g r h => by cases r <;> exact h
  unfold runWork
  refine .perform_bind trivial fun _ _ => ?_
  refine ObeysE.bind (casUpdate_calm (.owning .claimed msg.msgId item.id) rfl (fun _ => rfl)
    ⟨trivial, fun _ => trivial⟩ (fun _ a => by cases a <;> rfl) rfl fun _ => rfl) ?_
  rintro _ _ rfl
  refine .perform_bind trivial fun _ _ => ?_
  refine ObeysE.bind (casUpdate_calm (.owning .running msg.msgId item.id) rfl (fun _ => rfl)
    ⟨trivial, fun _ => trivial⟩ (fun _ a => by cases a <;> rfl) trivial fun _ => rfl) ?_
  rintro _ _ rfl
  exact hrest _ _ rfl

/-- A calm call stops before its attempt starts only where there is nothing to start. -/
theorem processWork_calm (cp : ControlPlane) : Calm cp .idle (processWork cp).run := by
  suffices h : (calmProtocol cp).ObeysE (fun g _ => g.starting = false)
      (fun g _ => g.starting = false) .idle (processWork cp) from
    Obeys.mono h fun g r h => by cases r <;> exact h
  unfold processWork
  refine .perform_bind trivial fun active _ => ?_
  split
  · exact .pure rfl
  refine .attempt_bind trivial (fun msg _ => ?_) fun _ h => h.elim
  cases msg with
  | none => exact .pure rfl
  | some msg =>
    have hidle : (calmProtocol cp).next .idle (.loadActive cp.plane) active = .idle := rfl
    have hnext : (calmProtocol cp).next .idle (.pool (.pgmqRead cp.visibilityTimeout))
        (.ok (some msg)) = .afterRead (some msg) := rfl
    rw [hidle, hnext, PlanePhase.afterRead]
    dsimp only
    cases hid : extractId msg.message with
    | none => exact .throw rfl
    | some id =>
      refine ObeysE.bind (Q := fun g (item : WorkItem) => item.id = id ∧
        g = if (cp.registry item.faculty).isSome then .fetched msg.msgId id else .closed)
        (getWorkItem_obeys (fun r hr => hr) rfl (fun r item hid hfac => ⟨hid, by rw [hfac]; rfl⟩)
          (fun h => h.elim) fun _ h => h.elim) ?_
      rintro g item ⟨rfl, rfl⟩
      cases hfac : cp.registry item.faculty with
      | none => exact .pure rfl
      | some faculty =>
        exact Obeys.mono (runWork_calm msg item faculty) fun g r h => by cases r <;> exact h

end Calm

/-! ### From the read to the attempt -/

/-- The phases from the read of an item's message to the start of its attempt, before and
after the claim. -/
inductive PlanePhase.StartsOn (id : WorkId) : Bool → PlanePhase → Prop
  | read (m : ℤ) : StartsOn id false (.read m id)
  | fetched (m : ℤ) : StartsOn id false (.fetched m id)
  | claimed (m : ℤ) : StartsOn id true (.owning .claimed m id)

/-- Call `i` is about to start an attempt of an item it can route. -/
def Sys.Starting (s : Sys) (i : CallId) (id : WorkId) (b : Bool) : Prop :=
  ∃ cp p ph r, s.calls i = .live ⟨.process cp, p, ph⟩ ∧ ph.StartsOn id b ∧ Calm cp ph p ∧
    s.db.row id = some r ∧ (cp.registry r.faculty).isSome = true

/-- Does the statement a call performs next report an error? -/
def Sys.fails (s : Sys) (i : CallId) (env : Env) : Bool :=
  match s.calls i with
  | .live ⟨_, .eff (.pool q) _, _⟩ =>
    match (handle i (.pool q) env s.world).1 with
    | .ok _ => false
    | .error _ => true
  | _ => false

/-- Is the next effect of a call its claim of an item? -/
def Slot.claims (x : Slot) (id : WorkId) : Bool :=
  match x with
  | .live ⟨.process _, .eff (.pool (.change (.transition .queued .claimed) id' _)) _, _⟩ => id' = id
  | _ => false

/-- Call `i` neither crashes nor has a statement fail. -/
def Sys.calm (i : CallId) (s : Sys) : Label → Bool
  | .exec j env => j ≠ i || !s.fails i env
  | .crash j => j ≠ i
  | _ => true

/-- Where call `i` claims an item, the row of the item is queued. -/
def Sys.claimsQueued (i : CallId) (id : WorkId) (s : Sys) : Label → Bool
  | .exec j _ => j ≠ i || !(s.calls i).claims id || s.rowState id = some .queued
  | _ => true

/-- Call `i` has returned. -/
def Sys.Ended (s : Sys) (i : CallId) : Prop :=
  s.calls i = .ended ∨ ∃ op a ph, s.calls i = .live ⟨op, .ret a, ph⟩

/-- What one step of a calm call does on the way to its attempt. -/
inductive StartStep (s : Sys) (i : CallId) (id : WorkId) (s' : Sys) : Bool → Prop
  | onward {b : Bool} (h : s'.Starting i id b) (hrow : s'.db.row id = s.db.row id) :
      StartStep s i id s' b
  | claim (hq : s.rowState id = some .queued) (h : s'.Starting i id true) :
      StartStep s i id s' false
  | start (h : s'.attempts id = s.attempts id + 1) : StartStep s i id s' true
  | miss (hc : (s.calls i).claims id = true) (hq : s.rowState id ≠ some .queued)
      (hrow : s'.db.row id = s.db.row id) {cp : ControlPlane} {p : Prog Eff (Except Error Unit)}
      (h : s'.calls i = .live ⟨.process cp, p, .closed⟩) : StartStep s i id s' false

section Steps

variable {s s' : Sys} {i : CallId} {id : WorkId} {env : Env} {cp : ControlPlane}
  {ph : PlanePhase} {b : Bool} {r : Row}

theorem step_process {clients : Op → Bool} (h : s.step clients (.exec i env) = some s')
    {p : Prog Eff (Except Error Unit)} (hi : s.calls i = .live ⟨.process cp, p, ph⟩) :
    ∃ (β : Type) (e : Eff β) (k : β → Prog Eff (Except Error Unit)), p = .eff e k ∧
      s'.calls i = .live ⟨.process cp, k (handle i e env s.world).1,
        planeNext cp ph e (handle i e env s.world).1⟩ ∧
      s'.world = (handle i e env s.world).2 := by
  obtain ⟨op, β, e, k, ph, hi', -, rfl⟩ := step_exec h
  cases hi.symm.trans hi'
  exact ⟨β, e, k, rfl, Sys.move_calls_self .., rfl⟩

/-- A read of an existing row that does not fail. -/
theorem handle_selectById (hr : s.db.row id = some r)
    (hok : ∀ d, (handle i (.pool (.selectById id)) env s.world).1 ≠ .error d) :
    handle i (.pool (.selectById id)) env s.world = (.ok (some r), s.world) := by
  have hexec : handle i (.pool (.selectById id)) env s.world =
      s.world.withDb (env.reply s.db (.ok (some r), s.db)) := by
    simp only [handle]
    rw [Db.exec_selectById]
    exact congrArg (fun o => World.withDb _ (env.reply s.db (.ok o, s.db))) hr
  obtain ⟨-, hrep⟩ | ⟨-, d, hrep⟩ :=
    env.reply_same s.db (.ok (some r) : Except DbError (Option Row))
  · rw [hexec, hrep]
    rfl
  · exact absurd (by rw [hexec, hrep]; rfl) (hok d)

/-- An update of an existing row that does not fail: it misses, or moves the row. -/
theorem handle_change {c : Change} {now : Sql.Timestamp}
    (hvalid : c.source.canTransitionTo c.target = true) (hr : s.db.row id = some r)
    (hok : ∀ d, (handle i (.pool (.change c id now)) env s.world).1 ≠ .error d) :
    (r.state ≠ c.source ∧ handle i (.pool (.change c id now)) env s.world = (.ok 0, s.world)) ∨
    ∃ r' t w', r.state = c.source ∧ c.apply env.chance.jsonb t r = some r' ∧
      w'.db.row id = some r' ∧ handle i (.pool (.change c id now)) env s.world = (.ok 1, w') := by
  have hup : UpdateStep env s.db c id (handle i (.pool (.change c id now)) env s.world).1
    (handle i (.pool (.change c id now)) env s.world).2.db := updateStep_of env s.db hvalid
  have hworld : (handle i (.pool (.change c id now)) env s.world).2 =
    { s.world with db := (handle i (.pool (.change c id now)) env s.world).2.db } := rfl
  generalize handle i (.pool (.change c id now)) env s.world = out at hup hworld hok
  obtain ⟨a, w'⟩ := out
  dsimp only at hup hworld hok
  generalize hdb : w'.db = db' at hup hworld
  cases hup with
  | missed h => exact .inl ⟨h r hr, by rw [hworld]; rfl⟩
  | @moved r₀ r' t _ _ hr₀ hs happ hput ha =>
    cases hr.symm.trans hr₀
    obtain rfl | ⟨-, d, rfl⟩ := ha
    · refine .inr ⟨r', t, w', hs, happ, ?_, rfl⟩
      rw [hdb, hput.row_none, (c.apply_identity happ).1, Db.rowOf_id hr, if_pos rfl]
    · exact absurd rfl (hok d)
  | refused why => exact absurd rfl (hok _)

theorem Sys.attempts_of_row (h : s.db.row id = some r) : s.attempts id = r.attempts := by
  rw [Sys.attempts, h]
  rfl

/-- The next statement of a call does not fail in a calm step. -/
theorem Sys.not_error_of_calm {op : Op} {γ : Type} {q : Stmt γ}
    {k : Except DbError γ → Prog Eff (Except Error op.Result)} {ph : op.Phase}
    (hi : s.calls i = .live ⟨op, .eff (.pool q) k, ph⟩) (hcalm : s.fails i env = false)
    (d : DbError) : (handle i (.pool q) env s.world).1 ≠ .error d := by
  intro hd
  simp [Sys.fails, hi, hd] at hcalm

/-- A calm step of a call on the way to its attempt. -/
theorem Sys.Starting.exec (h : s.Starting i id b) (hs : s.Lawful planeClients) (hinv : s.OnceInv)
    (hstep : s.step planeClients (.exec i env) = some s') (hcalm : s.fails i env = false) :
    StartStep s i id s' b := by
  obtain ⟨cp, p, ph, r, hi, hph, hc, hr, hf⟩ := h
  obtain ⟨β, e, k, rfl, hcalls, hworld⟩ := step_process hstep hi
  obtain ⟨-, ha, -⟩ := hs i _ hi
  obtain ⟨hallow, hk⟩ := hc
  have onward : ∀ {ph'}, planeNext cp ph e (handle i e env s.world).1 = ph' → ph'.StartsOn id b →
      calmAnswers e (handle i e env s.world).1 → (handle i e env s.world).2.db = s.db →
      StartStep s i id s' b := by
    intro ph' hnext hph' hans hdb
    have hrow : s'.db.row id = s.db.row id := by rw [Sys.db, hworld, hdb]
    have hcalm' := hk _ hans
    subst hnext
    exact .onward ⟨cp, _, _, r, hcalls, hph', hcalm', hrow.trans hr, hf⟩ hrow
  cases planeEff_of ha with
  | fetch m id' =>
    cases hph
    have hh := handle_selectById hr (Sys.not_error_of_calm hi hcalm)
    rw [hh] at onward
    exact onward (if_pos hf) (.fetched m) (Db.rowOf_id hr) rfl
  | @update ph c id' now hissues =>
    have hok := Sys.not_error_of_calm hi hcalm
    cases hph with
    | read m => exact hissues.elim
    | fetched m =>
      -- the claim: it misses unless the row is queued
      obtain ⟨rfl, rfl⟩ := hissues
      have hstate : s.rowState id' = some r.state := by rw [Sys.rowState, hr]; rfl
      obtain ⟨hne, hh⟩ | ⟨r', t, w', hq, happ, hr', hh⟩ := handle_change rfl hr hok
      · rw [hh] at hcalls hworld
        refine .miss (by rw [hi]; exact decide_eq_true rfl) ?_ (by rw [Sys.db, hworld]; rfl)
          hcalls
        rw [hstate]
        exact fun heq => hne (Option.some.inj heq)
      · have hk' := hk (.ok 1) trivial
        rw [hh] at hcalls hworld
        refine .claim (by rw [hstate, hq]; rfl)
          ⟨cp, _, _, r', hcalls, .claimed m, hk', by rw [Sys.db, hworld, hr'], ?_⟩
        rw [((Change.transition .queued .claimed).apply_identity happ).2.1]
        exact hf
    | claimed m =>
      -- the call owns the item, so its row is still claimed
      obtain ⟨rfl, rfl⟩ := hissues
      obtain ⟨r₀, hr₀, hclaimed⟩ := hinv.row i .claimed id' ⟨cp, _, m, hi⟩
      cases hr.symm.trans hr₀
      obtain ⟨hne, -⟩ | ⟨r', t, w', -, happ, hr', hh⟩ := handle_change rfl hr hok
      · exact absurd hclaimed hne
      · rw [hh] at hworld
        refine .start ?_
        have hrow' : s'.db.row id' = some r' := by rw [Sys.db, hworld, hr']
        rw [Sys.attempts_of_row hrow', Sys.attempts_of_row hr,
          ((Change.transition .claimed .running).apply_state happ).2.2]
        rfl
  | passive he hstay =>
    obtain ⟨dirs, hd⟩ := handle_passive i env s.world he
    refine onward (hstay _) hph ?_ (by rw [hd]; rfl)
    cases e with
    | pool q =>
      cases q with
      | selectById id' =>
        obtain rfl : id' = id := by cases hph <;> exact hallow
        rw [handle_selectById hr (Sys.not_error_of_calm hi hcalm)]
        exact Db.rowOf_id hr
      | _ => cases he
    | _ => trivial
  | _ => cases hph

/-- A call on the way to its attempt is live, and not at its end. -/
theorem Sys.Starting.not_ended (h : s.Starting i id b) : ¬ s.Ended i := by
  obtain ⟨cp, p, ph, r, hi, hph, hc, -⟩ := h
  rintro (hended | ⟨op, a, ph', hret⟩)
  · cases hi.symm.trans hended
  · cases hi.symm.trans hret
    cases hph <;> cases hc

/-- A calm step of the system keeps a call on its way, or is a step of the call. -/
theorem Sys.Starting.step (h : s.Starting i id b) (hr : s.Reachable planeClients) {l : Label}
    (hstep : s.step planeClients l = some s') (hcalm : s.calm i l = true) :
    (s'.Starting i id b ∧ l.caller ≠ some i) ∨
      (∃ env, l = .exec i env) ∧ StartStep s i id s' b := by
  have hsys := sysStep_of hr.inv.1 hr.inv.2 hstep
  have hend := h.not_ended
  have hstart := h
  obtain ⟨cp, p, ph, r, hi, hph, hc, hrow, hf⟩ := h
  have stay : s'.calls i = s.calls i → l.caller ≠ some i →
      (s'.Starting i id b ∧ l.caller ≠ some i) ∨
        (∃ env, l = .exec i env) ∧ StartStep s i id s' b := by
    intro hsame hl
    obtain ⟨r', hr', hev⟩ := (rowStep_of hsys hr.inv.2).evolves hrow
    exact .inl ⟨⟨cp, p, ph, r', hsame.trans hi, hph, hc, hr', by rw [hev.faculty]; exact hf⟩, hl⟩
  cases l with
  | start j op =>
    obtain ⟨hj, -, rfl⟩ := step_start hstep
    have hij : i ≠ j := by rintro rfl; cases hi.symm.trans hj
    exact stay (Sys.begin_calls_ne _ hij _) fun heq => hij (Option.some.inj heq).symm
  | exec j env =>
    by_cases hij : j = i
    · subst hij
      refine .inr ⟨⟨env, rfl⟩, hstart.exec hr.inv.1 hr.onceInv hstep ?_⟩
      simpa [Sys.calm] using hcalm
    · cases hsys.slot i with
      | stay hsame hl => exact stay hsame fun heq => hij (Option.some.inj heq)
      | start hidle => cases hi.symm.trans hidle
      | ended hended hl => obtain hl | hl := hl <;> cases hl
      | submit hl => cases hl; exact absurd rfl hij
      | change hl => cases hl; exact absurd rfl hij
      | process hl => cases hl; exact absurd rfl hij
  | finish j =>
    obtain ⟨op, a, ph', hj, rfl⟩ := step_finish hstep
    have hij : i ≠ j := by rintro rfl; exact hend (.inr ⟨op, a, ph', hj⟩)
    exact stay (Sys.leave_calls_ne _ hij) fun heq => hij (Option.some.inj heq).symm
  | crash j =>
    obtain ⟨c, hj, rfl⟩ := step_crash hstep
    have hij : i ≠ j := fun heq => by simp [Sys.calm, heq] at hcalm
    exact stay (Sys.leave_calls_ne _ hij) fun heq => hij (Option.some.inj heq).symm
  | expire m =>
    obtain rfl := step_expire hstep
    exact stay rfl fun heq => by cases heq

/-- The call has started an attempt since `s`, or is on its way to one. -/
def Sys.Heading (s : Sys) (i : CallId) (id : WorkId) (m : Sys) : Prop :=
  s.attempts id < m.attempts id ∨ ∃ b, m.Starting i id b ∧ s.attempts id ≤ m.attempts id

/-- A calm step whose claim finds its row queued keeps the call on its way. -/
theorem Sys.Heading.step {m m' : Sys} {l : Label} (h : s.Heading i id m)
    (hm : m.Reachable planeClients) (hstep : m.step planeClients l = some m')
    (hcalm : m.calm i l = true) (hq : m.claimsQueued i id l = true) : s.Heading i id m' := by
  have hle := (hm.rowStep hstep).attempts_le id
  obtain hlt | ⟨b, hst, hbefore⟩ := h
  · exact .inl (hlt.trans_le hle)
  · obtain ⟨hst', -⟩ | ⟨⟨env, rfl⟩, hss⟩ := hst.step hm hstep hcalm
    · exact .inr ⟨b, hst', hbefore.trans hle⟩
    · cases hss with
      | onward hst' hrow => exact .inr ⟨b, hst', hbefore.trans hle⟩
      | claim hq' hst' => exact .inr ⟨true, hst', hbefore.trans hle⟩
      | start hplus => exact .inl (by omega)
      | miss hc hne hrow hcl => exact absurd (by simpa [Sys.claimsQueued, hc] using hq) hne

/-- In a calm run in which the claim finds its row queued, the call starts an attempt. -/
theorem Sys.Reachable.starts (h : s.Reachable planeClients) (hstart : s.Starting i id false)
    {ls : List Label} (hrun : (system planeClients).Run s ls s')
    (halong : (system planeClients).along (fun s l => s.calm i l && s.claimsQueued i id l) s ls =
      true)
    (hend : s'.Ended i) : s.attempts id < s'.attempts id := by
  obtain ⟨-, hlt | ⟨b, hstart', -⟩⟩ := Lts.along_invariant
    (I := fun m => m.Reachable planeClients ∧ s.Heading i id m)
    (fun m l m' hm hP hstep => by
      rw [Bool.and_eq_true] at hP
      exact ⟨hm.1.next hstep, hm.2.step hm.1 hstep hP.1 hP.2⟩)
    hrun halong ⟨h, .inr ⟨false, hstart, le_refl _⟩⟩
  · exact hlt
  · exact absurd hend hstart'.not_ended

/-- How far a call is that runs alone from the read of an open item's message. -/
inductive Sys.Alone (s : Sys) (i : CallId) (id : WorkId) (r : Row) (m : Sys) : Prop
  | before (h : m.Starting i id false) (hrow : m.db.row id = some r)
  | queued (hq : r.state = .queued) (h : m.Starting i id true) (hle : s.attempts id ≤ m.attempts id)
  | started (hq : r.state = .queued) (h : s.attempts id < m.attempts id)
  | stuck (hq : r.state ≠ .queued) (hrow : m.db.row id = some r)
      (h : m.calls i = .ended ∨ ∃ cp p, m.calls i = .live ⟨.process cp, p, .closed⟩)

theorem Sys.Alone.step {m m' : Sys} {l : Label} (h : s.Alone i id r m)
    (hs : s.attempts id = r.attempts) (hm : m.Reachable planeClients)
    (hstep : m.step planeClients l = some m') (hcalm : m.calm i l = true)
    (hl : l.caller = some i) : s.Alone i id r m' := by
  have hle := (hm.rowStep hstep).attempts_le id
  cases h with
  | before hst hrow =>
    have hstate : m.rowState id = some r.state := by rw [Sys.rowState, hrow]; rfl
    obtain ⟨-, hne⟩ | ⟨-, hss⟩ := hst.step hm hstep hcalm
    · exact absurd hl hne
    · cases hss with
      | onward hst' hsame => exact .before hst' (hsame.trans hrow)
      | claim hq hst' =>
        refine .queued (Option.some.inj (hstate.symm.trans hq)) hst' ?_
        rw [hs, ← Sys.attempts_of_row hrow]
        exact hle
      | miss hc hq hsame hcl =>
        refine .stuck (fun heq => hq (hstate.trans (congrArg some heq))) (hsame.trans hrow)
          (.inr ⟨_, _, hcl⟩)
  | queued hq hst hbefore =>
    obtain ⟨-, hne⟩ | ⟨-, hss⟩ := hst.step hm hstep hcalm
    · exact absurd hl hne
    · cases hss with
      | onward hst' hsame => exact .queued hq hst' (hbefore.trans hle)
      | start hplus => exact .started hq (by omega)
  | started hq hlt => exact .started hq (hlt.trans_le hle)
  -- a closed call does nothing more, so the row stays as it was
  | stuck hq hrow hend =>
    have hstands : m.Stands i fun _ ph => ph = .closed := by
      obtain hend | ⟨cp, p, hcl⟩ := hend
      · exact .inl hend
      · exact .inr ⟨cp, p, _, hcl, rfl⟩
    have hun : m.Unroutable i := hstands.mono fun _ _ => .inl
    have hsys := sysStep_of hm.inv.1 hm.inv.2 hstep
    have hnext : m'.Stands i fun _ ph => ph = .closed := by
      refine hsys.stands hstands (fun _ _ hph => hph) fun cp env ph ph' hph hpl => ?_
      obtain ⟨-, hclosed | hsame⟩ := hpl.unroutable (.inl hph)
      · exact hclosed
      · exact hsame.trans hph
    refine .stuck hq (((hsys.sameWork hl hun).1 id).trans hrow) ?_
    obtain hend' | ⟨cp, p, ph, hcl, hph⟩ := hnext
    · exact .inl hend'
    · exact .inr ⟨cp, p, hph ▸ hcl⟩

/-! ### Reading the message -/

/-- A call that has read nothing, or just its message, is calm so far. -/
theorem Calm.next_idle {β : Type} {e : Eff β} {k : β → Prog Eff (Except Error Unit)}
    (hc : Calm cp .idle (.eff e k)) (ha : planeAllowed cp .idle e) {a : β}
    (hph : planeNext cp .idle e a = .idle ∨ ∃ m id, planeNext cp .idle e a = .read m id) :
    Calm cp (planeNext cp .idle e a) (k a) := by
  refine hc.2 a ?_
  cases e with
  | pool q =>
    cases q with
    | pgmqRead vt =>
      cases a with
      | ok msg => trivial
      | error d => obtain h | ⟨m, id, h⟩ := hph <;> cases h
    | selectById id => exact hc.1.elim
    | change c id now => exact ha.elim
    | _ => exact absurd ha Bool.false_ne_true
  | _ => exact trivial

/-- No step leads back to `idle`. -/
theorem PlaneStep.idle {w w' : World} (h : PlaneStep cp env w ph .idle w') : ph = .idle :=
  PlanePhase.rank_eq_zero.mp (Nat.le_zero.mp h.rank_le)

/-- What a step that leaves a call reading leaves calm. -/
theorem Calm.step_idle {clients : Op → Bool} {p p' : Prog Eff (Except Error Unit)}
    (hs : s.Lawful clients) (hstep : s.step clients (.exec i env) = some s')
    (hi : s.calls i = .live ⟨.process cp, p, .idle⟩) (hc : Calm cp .idle p)
    (hi' : s'.calls i = .live ⟨.process cp, p', ph⟩) (hph : ph = .idle ∨ ∃ m id, ph = .read m id) :
    Calm cp ph p' := by
  obtain ⟨β, e, k, rfl, hcalls, -⟩ := step_process hstep hi
  obtain ⟨-, ha, -⟩ := hs i _ hi
  have hlive := Slot.live.inj (hcalls.symm.trans hi')
  simp only [Live.mk.injEq, heq_eq_eq, true_and] at hlive
  obtain ⟨rfl, rfl⟩ := hlive
  exact hc.next_idle ha hph

/-- Every call that has read nothing yet is calm. -/
def Sys.CalmIdle (s : Sys) : Prop :=
  ∀ i cp p, s.calls i = .live ⟨.process cp, p, .idle⟩ → Calm cp .idle p

theorem Sys.Reachable.calmIdle {clients : Op → Bool} (h : s.Reachable clients) : s.CalmIdle := by
  refine (Lts.reachable_invariant (I := fun s => s.Reachable clients ∧ s.CalmIdle)
    (fun s l s' hs hstep => ⟨hs.1.next hstep, fun j cp p hj => ?_⟩) h
    ⟨Lts.Reachable.refl _, fun _ _ _ h => by cases h⟩).2
  have hs₁ : Sys.Reachable clients s := hs.1
  have hsys := sysStep_of hs₁.inv.1 hs₁.inv.2 hstep
  obtain ⟨hj₀, -⟩ | ⟨hidle, -⟩ | ⟨env, p₀, ph₀, rfl, hj₀, hpl⟩ := hsys.processing hj
  · exact hs.2 j cp p hj₀
  · cases hsys.slot j with
    | stay hsame => cases hidle.symm.trans (hsame.symm.trans hj)
    | @start op hidle hj' =>
      cases op <;> cases hj'.symm.trans hj
      exact processWork_calm cp
    | ended hended => cases hended.symm.trans hj
    | submit hl hi => cases hidle.symm.trans hi
    | change hl hi => cases hidle.symm.trans hi
    | process hl hi => cases hidle.symm.trans hi
  · obtain rfl := hpl.idle
    exact (hs.2 j cp p₀ hj₀).step_idle hs₁.inv.1 hstep hj₀ hj (.inl rfl)

/-- In the step from `s` to `s₁` call `i` reads the message of an item that is open, that no
call owns and that it can route; `r` is the item's row. -/
structure Sys.Redelivered (s s₁ : Sys) (i : CallId) (id : WorkId) (r : Row) : Prop where
  reads : ∃ cp p p₁ m env, s.calls i = .live ⟨.process cp, p, .idle⟩ ∧
    s.step planeClients (.exec i env) = some s₁ ∧
    s₁.calls i = .live ⟨.process cp, p₁, .read m id⟩ ∧ (cp.registry r.faculty).isSome = true
  row : s₁.db.row id = some r
  isOpen : r.state.isTerminal = false
  unowned : ∀ j st, ¬ (s₁.calls j).Owns st id

/-- An attempt of the item was started, or the item reached a terminal state. -/
def Sys.Retried (s s' : Sys) (id : WorkId) : Prop :=
  s.attempts id < s'.attempts id ∨ ∃ r, s'.db.row id = some r ∧ r.state.isTerminal = true

theorem Sys.Redelivered.starting {s₁ : Sys} (h : s.Redelivered s₁ i id r)
    (hr : s.Reachable planeClients) : s₁.Starting i id false ∧ s₁.Reachable planeClients := by
  obtain ⟨cp, p, p₁, m, env, hi, hstep, hi₁, hf⟩ := h.reads
  exact ⟨⟨cp, p₁, _, r, hi₁, .read m, (hr.calmIdle i cp p hi).step_idle hr.inv.1 hstep hi hi₁
    (.inr ⟨m, id, rfl⟩), h.row, hf⟩, hr.next hstep⟩

/-- Only a claimed or running item has an owner. -/
theorem Sys.Reachable.unowned (h : s.Reachable planeClients) {a : State}
    (hr : s.rowState id = some a) (hc : a ≠ .claimed) (hrun : a ≠ .running) (j : CallId)
    (st : Stage) : ¬ (s.calls j).Owns st id := by
  intro hown
  obtain ⟨r, hr', hst⟩ := h.onceInv.row j st id hown
  rw [Sys.rowState, hr', Option.map_some, Option.some.injEq, hst] at hr
  subst hr
  cases st <;> first | exact hc rfl | exact hrun rfl

/-- A call that reads the message of an open item nobody owns, and that neither crashes nor has a
statement fail, starts an attempt of the item when its claim finds the row queued, whatever other
calls do meanwhile. When it runs alone to its end, the item has started an attempt or reached a
terminal state if and only if its row was queued when the message was read. -/
theorem redelivery_retries_when_queued {s₁ : Sys} (h : s.Reachable planeClients)
    (hd : s.Redelivered s₁ i id r) :
    (∀ ls s₂, (system planeClients).Run s₁ ls s₂ →
      (system planeClients).along (fun s l => s.calm i l && s.claimsQueued i id l) s₁ ls = true →
      s₂.Ended i → s₁.Retried s₂ id) ∧
    ∀ ls s₂, (system planeClients).Run s₁ ls s₂ →
      (system planeClients).along (fun s l => s.calm i l && l.caller = some i) s₁ ls = true →
      s₂.Ended i → (s₁.Retried s₂ id ↔ r.state = .queued) := by
  obtain ⟨hstart, h₁⟩ := hd.starting h
  refine ⟨fun ls s₂ hrun halong hend => .inl (h₁.starts hstart hrun halong hend), ?_⟩
  intro ls s₂ hrun halong hend
  have hs₁ := Sys.attempts_of_row hd.row
  obtain ⟨-, halone⟩ := Lts.along_invariant
    (I := fun m => m.Reachable planeClients ∧ s₁.Alone i id r m)
    (fun m l m' hm hP hstep => by
      rw [Bool.and_eq_true, decide_eq_true_eq] at hP
      exact ⟨hm.1.next hstep, hm.2.step hs₁ hm.1 hstep hP.1 hP.2⟩)
    hrun halong ⟨h₁, .before hstart hd.row⟩
  cases halone with
  | before hst => exact absurd hend hst.not_ended
  | queued hq hst => exact absurd hend hst.not_ended
  | started hq hlt => exact ⟨fun _ => hq, fun _ => .inl hlt⟩
  | stuck hq hrow =>
    refine ⟨fun hret => ?_, fun heq => absurd heq hq⟩
    obtain hlt | ⟨r', hr', hterm⟩ := hret
    · rw [hs₁, Sys.attempts_of_row hrow] at hlt
      exact absurd hlt (lt_irrefl _)
    · cases hrow.symm.trans hr'
      rw [hd.isOpen] at hterm
      cases hterm

end Steps

/-! ### Samples -/

/-- A control plane about to read a message. -/
def readingRun (i : CallId) : List Label := [.start i (.process samplePlane), .exec i {}]

/-- A submission, and a control plane about to read its message. -/
def submittedRun : List Label :=
  Label.alone 0 (.submit sampleItem) { uuid := .ofNat 1 } 9 ++ readingRun 1

def submittedRead : Sys := (system planeClients).replayed Sys.initial (submittedRun ++ [.exec 1 {}])

/-- The rest of the call: the focus run completes, and its message is archived. -/
def completedTail : List Label := List.replicate 27 (.exec 1 {}) ++ [.finish 1]

theorem redelivery_retries_when_queued_submitted :
    submittedRead.Retried ((system planeClients).replayed submittedRead completedTail) (.ofNat 1) :=
  have hreach : ((system planeClients).replayed Sys.initial submittedRun).Reachable planeClients :=
    ⟨submittedRun, Lts.run_replayed rfl⟩
  have hread : submittedRead.Reachable planeClients := ⟨_, Lts.run_replayed rfl⟩
  (redelivery_retries_when_queued (i := 1) hreach
    ⟨⟨samplePlane, _, _, 1, {}, rfl, rfl, rfl, rfl⟩, rfl, rfl,
      hread.unowned rfl (by decide) (by decide)⟩).1
    completedTail _ (Lts.run_replayed rfl) rfl (.inl rfl)

/-- A submission whose first focus run fails; its message turns visible again, and a control plane
is about to read it. -/
def hookFailedRun : List Label :=
  Label.alone 0 (.submit sampleItem) { uuid := .ofNat 1 } 9 ++
    Label.alone 1 (.process samplePlane) { exit := some 1 } 25 ++ .expire 1 :: readingRun 2

def hookFailedRead : Sys :=
  (system planeClients).replayed Sys.initial (hookFailedRun ++ [.exec 2 {}])

/-- The rest of the call: its claim finds the row failed. -/
def refusedTail : List Label := List.replicate 4 (.exec 2 {}) ++ [.finish 2]

/-- A redelivery that retries nothing: the item stays failed, as it was found. -/
theorem redelivery_leaves_failed :
    ¬ ∀ (s s₁ s₂ : Sys) (i : CallId) (id : WorkId) (r : Row) (ls : List Label),
      s.Reachable planeClients → s.Redelivered s₁ i id r → (system planeClients).Run s₁ ls s₂ →
      (system planeClients).along (fun s l => s.calm i l) s₁ ls = true → s₂.Ended i →
      s₁.Retried s₂ id := by
  intro h
  have hreach : ((system planeClients).replayed Sys.initial hookFailedRun).Reachable planeClients :=
    ⟨hookFailedRun, Lts.run_replayed rfl⟩
  have hread : hookFailedRead.Reachable planeClients := ⟨_, Lts.run_replayed rfl⟩
  have hret := h _ hookFailedRead ((system planeClients).replayed hookFailedRead refusedTail) 2
    (.ofNat 1) _ refusedTail hreach ⟨⟨samplePlane, _, _, 1, {}, rfl, rfl, rfl, rfl⟩, rfl, rfl,
      hread.unowned rfl (by decide) (by decide)⟩ (Lts.run_replayed rfl) rfl (.inl rfl)
  obtain hlt | ⟨r, hr, hterm⟩ := hret
  · exact absurd hlt (by decide)
  · cases hr
    cases hterm

end Animus
