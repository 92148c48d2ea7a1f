import Animus.System.Redelivery

/-!
# Finished items

What becomes of the message of an item in a terminal state. A call that reads it
tries to claim the item, misses, and leaves the message where it was; the only
way out of the queue is the archive statement of the call that completed the item.

## Main definitions

- `Sys.archives`: the steps that archive a message
- `Sys.Spent`: a call that has nothing left to do with a finished item
- `Sys.ReadsFinished`: a call reads the message of a finished item

## Main results

- `Sys.Reachable.carries_iff`: a message is in the queue until it is archived
- `finished_leaves_queue_iff`: reading takes no message of a finished item out of the queue
-/

namespace Animus

open Effect

/-- Is the effect the statement that archives message `m`? -/
def Eff.archives (m : ℤ) : {β : Type} → Eff β → Bool
  | _, .pool (.pgmqArchive m') => m' = m
  | _, _ => false

/-- The steps in which message `m` is archived, whatever is reported. -/
def Sys.archives (m : ℤ) (s : Sys) : Label → Bool
  | .exec i env =>
    match s.calls i with
    | .live ⟨_, .eff e _, _⟩ => e.archives m && env.fault.all Fault.took
    | _ => false
  | _ => false

/-- Message `m` has left the queue, and its id is not given out again. -/
def Db.Gone (db : Db) (m : ℤ) : Prop :=
  m < db.nextMsgId ∧ ∀ tag id, ¬ db.Carries tag m id

section Steps

variable {clients : Op → Bool} {s s' : Sys} {l : Label} {i : CallId} {env : Env}
  {m : ℤ} {id : WorkId}

theorem Db.Labelled.gone_iff {db : Db} (h : db.Labelled) (hm : m < db.nextMsgId) :
    db.Gone m ↔ ∀ msg ∈ db.queue, msg.msgId ≠ m := by
  constructor
  · rintro ⟨-, hno⟩ msg hmsg rfl
    obtain ⟨id, hid⟩ := h.named msg.read (List.mem_map_of_mem hmsg)
    exact hno msg.txn id ⟨msg, hmsg, rfl, rfl, hid⟩
  · refine fun hno => ⟨hm, fun tag id hc => ?_⟩
    obtain ⟨msg, hmsg, -, hid, -⟩ := hc
    exact hno msg hmsg hid

/-- A message that is gone stays gone. -/
theorem QueueStep.gone (h : QueueStep s l s') (hm : s.db.Gone m) : s'.db.Gone m := by
  refine ⟨hm.1.trans_le h.nextMsgId_le, fun tag id hc => ?_⟩
  obtain hc | ⟨-, -, -, -, -, -, -, hnext⟩ | ⟨j, -, -, -, -, -, -, -, -, -, hc⟩ := h.origin hc
  · exact hm.2 tag id hc
  · exact absurd hnext hm.1.ne
  · exact hm.2 (some j) id hc

theorem handle_archive (i : CallId) (env : Env) (w : World) {β : Type} {e : Eff β}
    (he : e.archives m = true) : (handle i e env w).2.db =
      if env.fault.all Fault.took then w.db.archiveMessage m else w.db := by
  cases e with
  | pool q =>
    cases q with
    | pgmqArchive m' =>
      obtain rfl : m' = m := of_decide_eq_true he
      obtain ⟨fault, _, _, _, _, _, _, _, _, _⟩ := env
      cases fault with
      | none => rfl
      | some f =>
        obtain ⟨error, took⟩ := f
        cases took <;> rfl
    | _ => cases he
  | _ => cases he

theorem Sys.archives_iff : s.archives m l = true ↔ ∃ i env op β, ∃ (e : Eff β), ∃ k ph,
    l = .exec i env ∧ s.calls i = .live ⟨op, .eff e k, ph⟩ ∧ e.archives m = true ∧
      env.fault.all Fault.took = true := by
  constructor
  · intro h
    cases l with
    | exec i env =>
      rw [Sys.archives] at h
      split at h
      · next op β e k ph hi =>
        rw [Bool.and_eq_true] at h
        exact ⟨i, env, op, _, e, k, ph, rfl, hi, h⟩
      · cases h
    | _ => cases h
  · rintro ⟨i, env, op, β, e, k, ph, rfl, hi, he, htook⟩
    simp [Sys.archives, hi, he, htook]

/-- An archived message is gone. -/
theorem Sys.Reachable.gone_of_archives (h : s.Reachable clients)
    (hstep : s.step clients l = some s') (hc : s.db.Carries none m id)
    (ha : s.archives m l = true) : s'.db.Gone m := by
  have hl := h.msgInv.labelled
  obtain ⟨i, env, op, β, e, k, ph, rfl, hi, he, htook⟩ := Sys.archives_iff.mp ha
  have hdb : s'.db = s.db.archiveMessage m := by
    obtain ⟨op', β', e', k', ph', hi', -, rfl⟩ := step_exec hstep
    cases hi.symm.trans hi'
    exact (handle_archive i env s.world he).trans (if_pos htook)
  rw [hdb]
  refine ⟨hc.msgId_lt hl, fun tag id' hc' => ?_⟩
  obtain ⟨hc', hne⟩ := Db.carries_archiveMessage.mp hc'
  exact hne ⟨(hc'.unique hc hl).1, rfl⟩

/-- A call whose item is completed archives its message, or does nothing to the database. -/
theorem planeAllowed.passive_of_completed {cp : ControlPlane} {β : Type} {e : Eff β}
    (ha : planeAllowed cp (.completed m id) e) (he : e.archives m = false) : e.passive = true := by
  cases planeEff_of ha with
  | update now hissues => exact hissues.elim
  | archive m' id' => exact absurd rfl (of_decide_eq_false he)
  | passive hpass hstay => exact hpass

/-- A message that is not archived stays. -/
theorem Sys.Reachable.carries_of_not_archives (h : s.Reachable clients)
    (hstep : s.step clients l = some s') (hc : s.db.Carries none m id)
    (ha : s.archives m l = false) : s'.db.Carries none m id := by
  obtain hkeep | ⟨i, env, cp, p, id', rfl, hi⟩ :=
    (sysStep_of h.inv.1 h.inv.2 hstep).queueStep.keeps hc
  · exact hkeep
  obtain ⟨β, e, k, rfl, -, hworld⟩ := step_process hstep hi
  obtain ⟨-, hallow, -⟩ := h.inv.1 i _ hi
  have hsame : (handle i e env s.world).2.db = s.db := by
    cases he : e.archives m with
    | true =>
      have htook : ¬ env.fault.all Fault.took = true := fun htook => by
        rw [Sys.archives_iff.mpr ⟨i, env, _, _, _, _, _, rfl, hi, he, htook⟩] at ha
        cases ha
      exact (handle_archive i env s.world he).trans (if_neg htook)
    | false =>
      obtain ⟨dirs, hd⟩ := handle_passive i env s.world (hallow.passive_of_completed he)
      rw [hd]
      rfl
  rw [Sys.db, hworld, hsame]
  exact hc

/-- Along a run a message of the queue stays until it is archived, and then is gone for good. -/
theorem Sys.Reachable.carries_run (h : s.Reachable clients) {ls : List Label}
    (hrun : (system clients).Run s ls s') (hc : s.db.Carries none m id) :
    (s'.db.Carries none m id ∧ (system clients).along (fun s l => !s.archives m l) s ls = true) ∨
    (s'.db.Gone m ∧ (system clients).along (fun s l => !s.archives m l) s ls = false) := by
  induction ls generalizing s with
  | nil =>
    obtain rfl := Lts.run_nil.mp hrun
    exact .inl ⟨hc, rfl⟩
  | cons l ls ih =>
    obtain ⟨a, ha, hrest⟩ := Lts.run_cons.mp hrun
    have halong : (system clients).along (fun s l => !s.archives m l) s (l :: ls) =
        (!s.archives m l && (system clients).along (fun s l => !s.archives m l) a ls) := by
      rw [Lts.along, ha, Option.all_some]
    rw [halong]
    cases harch : s.archives m l with
    | true =>
      have hgone := h.gone_of_archives ha hc harch
      refine .inr ⟨?_, rfl⟩
      exact (Lts.run_invariant (I := fun x => x.Reachable clients ∧ x.db.Gone m)
        (fun _ _ _ hx hstep => ⟨hx.1.next hstep,
          (sysStep_of hx.1.inv.1 hx.1.inv.2 hstep).queueStep.gone hx.2⟩) hrest
        ⟨h.next ha, hgone⟩).2
    | false => exact ih (h.next ha) hrest (h.carries_of_not_archives ha hc harch)

/-! ### Reading a finished item -/

/-- Where a call is with the message `m` of a finished item: it has fetched its row at most. -/
def PlanePhase.Spent (m : ℤ) (id : WorkId) (ph : PlanePhase) : Prop :=
  ph = .read m id ∨ ph = .fetched m id ∨ ph = .closed

/-- Call `i` has nothing left to do with a finished item, or is done. -/
def Sys.Spent (s : Sys) (i : CallId) (m : ℤ) (id : WorkId) : Prop :=
  s.Stands i fun _ ph => ph.Spent m id

/-- The claim of a finished item misses. -/
theorem PlaneStep.spent {cp : ControlPlane} {w w' : World} {ph ph' : PlanePhase} {r : Row}
    (h : PlaneStep cp env w ph ph' w') (hr : w.db.row id = some r)
    (hterm : r.state.isTerminal = true) (hph : ph.Spent m id) : ph'.Spent m id := by
  obtain rfl | rfl | rfl := hph
  · cases h with
    | passive ph dirs => exact .inl rfl
    | fetch hr' =>
      split
      · exact .inr (.inl rfl)
      · exact .inr (.inr rfl)
    | unfetched why => exact .inr (.inr rfl)
    | update hissue hup => exact hissue.elim
  · cases h with
    | passive ph dirs => exact .inr (.inl rfl)
    | update hissue hup =>
      obtain ⟨rfl, rfl⟩ := hissue
      cases hup with
      | missed hmiss => exact .inr (.inr rfl)
      | refused why => exact .inr (.inr rfl)
      | moved hr' hs happ hput ha =>
        cases hr.symm.trans hr'
        rw [hs] at hterm
        cases hterm
  · cases h with
    | passive ph dirs => exact .inr (.inr rfl)
    | update hissue hup => exact hissue.elim

theorem Sys.Spent.step (h : s.Spent i m id) (hstep : SysStep clients s l s') {r : Row}
    (hr : s.db.row id = some r) (hterm : r.state.isTerminal = true) : s'.Spent i m id :=
  hstep.stands h (fun _ _ hph => hph) fun _ _ _ _ hph hpl => hpl.spent hr hterm hph

/-- Such a call archives nothing. -/
theorem Sys.Spent.not_archives (h : s.Spent i m id) (hl : s.Lawful clients) {k : ℤ}
    (hcaller : l.caller = some i) : s.archives k l = false := by
  refine (Bool.not_eq_true _).mp fun ha => ?_
  obtain ⟨j, env, op, β, e, kont, ph, rfl, hi, he, -⟩ := Sys.archives_iff.mp ha
  cases hcaller
  obtain ⟨-, hallow, -⟩ := hl i _ hi
  obtain hended | ⟨cp, p, ph', hi', hph⟩ := h
  · cases hi.symm.trans hended
  · cases hi.symm.trans hi'
    cases e with
    | pool q =>
      cases q with
      | pgmqArchive m' => obtain rfl | rfl | rfl := hph <;> cases hallow
      | _ => cases he
    | _ => cases he

/-- In the step from `s` to `s₁` call `i` reads message `m`, whose item `id` is in a terminal state
and can be routed; `r` is the item's row. -/
structure Sys.ReadsFinished (clients : Op → Bool) (s s₁ : Sys) (i : CallId) (m : ℤ) (id : WorkId)
    (r : Row) : Prop where
  reads : ∃ cp p p₁ env, s.calls i = .live ⟨.process cp, p, .idle⟩ ∧
    s.step clients (.exec i env) = some s₁ ∧
    s₁.calls i = .live ⟨.process cp, p₁, .read m id⟩ ∧ (cp.registry r.faculty).isSome = true
  row : s₁.db.row id = some r
  finished : r.state.isTerminal = true

/-- What was read is in the queue. -/
theorem Sys.ReadsFinished.carries {s₁ : Sys} {r : Row} (hread : s.ReadsFinished clients s₁ i m id r)
    (h : s.Reachable clients) : s₁.db.Carries none m id := by
  obtain ⟨cp, p, p₁, env, hi, hstep, hi₁, -⟩ := hread.reads
  have hsys := sysStep_of h.inv.1 h.inv.2 hstep
  refine ((hsys.sameWork_of_idle rfl hi).2 m id).mpr ?_
  obtain ⟨-, hl⟩ | ⟨hidle, -⟩ | ⟨env', p₀, ph₀, -, hi₀, hpl⟩ := hsys.processing hi₁
  · exact absurd rfl (hl env)
  · cases hi.symm.trans hidle
  · cases hi.symm.trans hi₀
    obtain hheld | hc := hpl.message rfl
    · cases hheld
    · exact hc

/-- A call that reads the message of a finished item does not take it out of the queue, whatever
becomes of the call. From the read on the message is gone exactly if some other call archives it,
which only the call that completed the item does: the message of an item that was cancelled stays
for good. -/
theorem finished_leaves_queue_iff {s₁ s₂ : Sys} {r : Row} {ls : List Label}
    (h : s.Reachable clients) (hread : s.ReadsFinished clients s₁ i m id r)
    (hrun : (system clients).Run s₁ ls s₂) :
    ((∀ msg ∈ s₂.db.queue, msg.msgId ≠ m) ↔
      (system clients).along (fun s l => l.caller = some i || !s.archives m l) s₁ ls = false) ∧
    (r.state ≠ .completed → s₂.db.Carries none m id) := by
  obtain ⟨cp, p, p₁, env, hi, hstep, hi₁, -⟩ := hread.reads
  have h₁ := h.next hstep
  have h₂ := h₁.later hrun
  have hc := hread.carries h
  -- the call itself archives nothing, so the steps of the others are all the steps that count
  have hothers : (system clients).along (fun s l => l.caller = some i || !s.archives m l) s₁ ls =
      (system clients).along (fun s l => !s.archives m l) s₁ ls := by
    refine Lts.along_congr (I := fun x => x.Reachable clients ∧ x.db.row id = some r ∧
      x.Spent i m id) (fun x l x' hx hstep => ?_) (fun x l hx => ?_)
      ⟨h₁, hread.row, .inr ⟨cp, p₁, _, hi₁, .inl rfl⟩⟩ ls
    · exact ⟨hx.1.next hstep, hx.1.run_row (.head hstep (.refl _)) hx.2.1 hread.finished,
        hx.2.2.step (sysStep_of hx.1.inv.1 hx.1.inv.2 hstep) hx.2.1 hread.finished⟩
    · by_cases hl : l.caller = some i
      · simp [hx.2.2.not_archives hx.1.inv.1 hl]
      · simp [hl]
  rw [hothers]
  refine ⟨?_, fun hne => ?_⟩
  · obtain ⟨hstill, halong⟩ | ⟨hgone, halong⟩ := h₁.carries_run hrun hc
    · obtain ⟨msg, hmsg, -, hid, -⟩ := hstill
      simp only [halong, Bool.true_eq_false, iff_false]
      exact fun hno => hno msg hmsg hid
    · simp only [halong, iff_true]
      exact (h₂.msgInv.labelled.gone_iff hgone.1).mp hgone
  · exact (Lts.run_invariant (I := fun x => x.Reachable clients ∧ x.db.row id = some r ∧
      x.db.Carries none m id)
      (fun x l x' hx hstep => ⟨hx.1.next hstep,
        hx.1.run_row (.head hstep (.refl _)) hx.2.1 hread.finished,
        hx.1.msgInv.keeps (sysStep_of hx.1.inv.1 hx.1.inv.2 hstep) hx.2.2 hx.2.1 hne⟩) hrun
      ⟨h₁, hread.row, hc⟩).2.2

end Steps

/-! ### Samples -/

/-- An item is completed; before its message is archived, the message turns visible and a second
control plane is about to read it. -/
def unarchivedRun : List Label :=
  Label.alone 0 (.submit sampleItem) { uuid := .ofNat 1 } 9 ++
    .start 1 (.process samplePlane) :: List.replicate 27 (.exec 1 {}) ++ .expire 1 :: readingRun 2

def unarchivedRead : Sys :=
  (system planeClients).replayed Sys.initial (unarchivedRun ++ [.exec 2 {}])

/-- The first call archives the message, and the second ends. -/
def archivedTail : List Label := .exec 1 {} :: refusedTail

/-- Only the call that completed the item takes its message out of the queue. -/
theorem finished_leaves_queue_iff_unarchived :
    (∀ msg ∈ ((system planeClients).replayed unarchivedRead archivedTail).db.queue,
      msg.msgId ≠ 1) ∧
    ¬ ∀ msg ∈ ((system planeClients).replayed unarchivedRead refusedTail).db.queue,
      msg.msgId ≠ 1 := by
  have hreach : ((system planeClients).replayed Sys.initial unarchivedRun).Reachable
      planeClients := ⟨unarchivedRun, Lts.run_replayed rfl⟩
  have hread : ((system planeClients).replayed Sys.initial unarchivedRun).ReadsFinished
      planeClients unarchivedRead 2 1 (.ofNat 1) _ :=
    ⟨⟨samplePlane, _, _, {}, rfl, rfl, rfl, rfl⟩, rfl, rfl⟩
  refine ⟨(finished_leaves_queue_iff hreach hread (Lts.run_replayed rfl)).1.mpr rfl, fun hno => ?_⟩
  have halong := (finished_leaves_queue_iff hreach hread (Lts.run_replayed rfl)).1.mp hno
  exact absurd halong (by decide)

/-- An item is cancelled while its message waits, and a control plane is about to read it. -/
def cancelledRun : List Label :=
  Label.alone 0 (.submit sampleItem) { uuid := .ofNat 1 } 9 ++
    Label.alone 1 (.change (.transition .queued .dead) (.ofNat 1)) {} 3 ++ readingRun 2

def cancelledRead : Sys := (system planeClients).replayed Sys.initial (cancelledRun ++ [.exec 2 {}])

/-- A call reads the message of a cancelled item, none of its statements fails, and when it has
returned the message is still in the queue. -/
theorem finished_message_stays :
    ¬ ∀ (s s₁ s₂ : Sys) (i : CallId) (m : ℤ) (id : WorkId) (r : Row) (ls : List Label),
      s.Reachable planeClients → s.ReadsFinished planeClients s₁ i m id r →
      (system planeClients).Run s₁ ls s₂ →
      (system planeClients).along (fun s l => s.calm i l) s₁ ls = true → s₂.Ended i →
      ∀ msg ∈ s₂.db.queue, msg.msgId ≠ m := by
  intro h
  have hreach : ((system planeClients).replayed Sys.initial cancelledRun).Reachable planeClients :=
    ⟨cancelledRun, Lts.run_replayed rfl⟩
  have hno := h _ cancelledRead ((system planeClients).replayed cancelledRead refusedTail) 2 1
    (.ofNat 1) _ refusedTail hreach ⟨⟨samplePlane, _, _, {}, rfl, rfl, rfl, rfl⟩, rfl, rfl⟩
    (Lts.run_replayed rfl) rfl (.inl rfl)
  exact hno _ (.head _) rfl

end Animus
