import Animus.System.Once

/-!
# The table and the queue

A row and its message are written by one transaction and retired by two
statements; nothing in between loses an accepted item.

## Main definitions

- `Db.Carries`: a message of the queue that names a work item
- `Db.messagesOf`: the messages of the queue that name a work item
- `QueueStep`: what a step does to the queue
- `Sys.MsgInv`: the invariant

## Main results

- `Sys.Reachable.msgInv`: it holds in every reachable state
- `no_accepted_work_lost`
-/

namespace Animus

open Effect

/-- What a reader gets of a message. -/
def Message.read (msg : Message) : PgmqMessage := ⟨msg.msgId, msg.message⟩

/-- A message but for its visibility. -/
def Message.seen (msg : Message) : Message := { msg with hidden := false }

namespace Db

/-- The queue has a message `m`, written by `tag`, whose payload names `id`. -/
def Carries (db : Db) (tag : Option CallId) (m : ℤ) (id : WorkId) : Prop :=
  ∃ msg ∈ db.queue, msg.txn = tag ∧ msg.msgId = m ∧ extractId msg.message = some id

/-- The messages of the queue that name a work item. -/
def messagesOf (db : Db) (id : WorkId) : List Message :=
  db.queue.filter fun msg => msg.txn = none && extractId msg.message = some id

/-- Message ids are distinct and below the sequence, and every message names a work item. -/
structure Labelled (db : Db) : Prop where
  nodup : ((db.queue.map Message.read).map PgmqMessage.msgId).Nodup
  below : ∀ msg ∈ db.queue.map Message.read, msg.msgId < db.nextMsgId
  named : ∀ msg ∈ db.queue.map Message.read, ∃ id, extractId msg.message = some id

section Carries

variable {db : Db} {tag : Option CallId} {m k : ℤ} {id : WorkId} {i : CallId}

theorem carries_of_seen {db' : Db} (h : db'.queue.map Message.seen = db.queue.map Message.seen) :
    db'.Carries tag m id ↔ db.Carries tag m id := by
  have imp : ∀ {a b : Db}, a.queue.map Message.seen = b.queue.map Message.seen →
      a.Carries tag m id → b.Carries tag m id := by
    rintro a b hab ⟨msg, hmsg, htag, hm, hid⟩
    have hseen : msg.seen ∈ b.queue.map Message.seen := hab ▸ List.mem_map_of_mem hmsg
    obtain ⟨x, hx, hxmsg⟩ := List.mem_map.mp hseen
    exact ⟨x, hx, (congrArg Message.txn hxmsg).trans htag, (congrArg Message.msgId hxmsg).trans hm,
      (congrArg (fun y => extractId y.message) hxmsg).trans hid⟩
  exact ⟨imp h, imp h.symm⟩

theorem seen_setHidden (db : Db) (k : ℤ) (b : Bool) :
    (db.setHidden k b).queue.map Message.seen = db.queue.map Message.seen := by
  simp only [Db.setHidden, List.map_map]
  refine List.map_congr_left fun msg _ => ?_
  simp only [Function.comp]
  split <;> rfl

theorem carries_send {conn : Option CallId} {payload : Json} :
    (db.send conn payload).Carries tag m id ↔ db.Carries tag m id ∨
      (tag = conn ∧ m = db.nextMsgId ∧ extractId payload = some id) := by
  constructor
  · rintro ⟨msg, hmem, htag, hm, hid⟩
    obtain hmem | hmem := List.mem_append.mp hmem
    · exact .inl ⟨msg, hmem, htag, hm, hid⟩
    · cases List.mem_singleton.mp hmem
      exact .inr ⟨htag.symm, hm.symm, hid⟩
  · rintro (⟨msg, hmem, h⟩ | ⟨rfl, rfl, hid⟩)
    · exact ⟨msg, List.mem_append_left _ hmem, h⟩
    · exact ⟨_, List.mem_append_right _ (List.mem_singleton_self _), rfl, rfl, hid⟩

theorem carries_archiveMessage :
    (db.archiveMessage k).Carries tag m id ↔ db.Carries tag m id ∧ ¬ (tag = none ∧ m = k) := by
  constructor
  · rintro ⟨msg, hmem, rfl, rfl, hid⟩
    obtain ⟨hmem, hkeep⟩ := List.mem_filter.mp hmem
    exact ⟨⟨msg, hmem, rfl, rfl, hid⟩, by simpa [isArchived, imp_iff_not_or] using hkeep⟩
  · rintro ⟨⟨msg, hmem, rfl, rfl, hid⟩, hkeep⟩
    refine ⟨msg, List.mem_filter.mpr ⟨hmem, ?_⟩, rfl, rfl, hid⟩
    simpa [isArchived, imp_iff_not_or] using hkeep

theorem carries_commit : (db.commit i).Carries tag m id ↔
    (tag ≠ some i ∧ db.Carries tag m id) ∨ (tag = none ∧ db.Carries (some i) m id) := by
  constructor
  · rintro ⟨_, hmem, rfl, rfl, hid⟩
    obtain ⟨msg, hmsg, rfl⟩ := List.mem_map.mp hmem
    by_cases hi : msg.txn = some i
    · rw [if_pos hi] at hid ⊢
      exact .inr ⟨rfl, msg, hmsg, hi, rfl, hid⟩
    · rw [if_neg hi] at hid ⊢
      exact .inl ⟨hi, msg, hmsg, rfl, rfl, hid⟩
  · rintro (⟨hne, msg, hmsg, rfl, rfl, hid⟩ | ⟨rfl, msg, hmsg, hi, rfl, hid⟩)
    · refine ⟨_, List.mem_map_of_mem hmsg, ?_⟩
      rw [if_neg hne]
      exact ⟨rfl, rfl, hid⟩
    · refine ⟨_, List.mem_map_of_mem hmsg, ?_⟩
      rw [if_pos hi]
      exact ⟨rfl, rfl, hid⟩

theorem carries_rollback :
    (db.rollback i).Carries tag m id ↔ tag ≠ some i ∧ db.Carries tag m id := by
  constructor
  · rintro ⟨msg, hmem, rfl, rfl, hid⟩
    obtain ⟨hmem, hkeep⟩ := List.mem_filter.mp hmem
    exact ⟨by simpa using hkeep, msg, hmem, rfl, rfl, hid⟩
  · rintro ⟨hne, msg, hmem, rfl, rfl, hid⟩
    exact ⟨msg, List.mem_filter.mpr ⟨hmem, by simpa using hne⟩, rfl, rfl, hid⟩

end Carries

section Labelled

variable {db db' : Db}

/-- Only what readers see and the sequence matter. -/
theorem Labelled.of_read (h : db.Labelled)
    (hsub : (db'.queue.map Message.read).Sublist (db.queue.map Message.read))
    (hnext : db'.nextMsgId = db.nextMsgId) : db'.Labelled :=
  ⟨h.nodup.sublist (hsub.map _), fun msg hmsg => hnext ▸ h.below msg (hsub.subset hmsg),
    fun msg hmsg => h.named msg (hsub.subset hmsg)⟩

theorem Labelled.of_seen (h : db.Labelled)
    (hseen : db'.queue.map Message.seen = db.queue.map Message.seen)
    (hnext : db'.nextMsgId = db.nextMsgId) : db'.Labelled := by
  have hread : ∀ q : List Message, q.map Message.read = (q.map Message.seen).map Message.read :=
    fun q => by rw [List.map_map]; rfl
  refine h.of_read ?_ hnext
  rw [hread, hread db.queue, hseen]

theorem Labelled.send (h : db.Labelled) (conn : Option CallId) (id : WorkId) (params : Json) :
    (db.send conn (workPayload id params)).Labelled := by
  have hmem : ∀ msg ∈ (db.send conn (workPayload id params)).queue.map Message.read,
      msg ∈ db.queue.map Message.read ∨ msg = ⟨db.nextMsgId, workPayload id params⟩ := by
    intro msg hmsg
    simpa [Db.send, Message.read] using hmsg
  refine ⟨?_, fun msg hmsg => ?_, fun msg hmsg => ?_⟩
  · simp only [Db.send, List.map_append, List.map_cons, List.map_nil]
    refine List.Nodup.append h.nodup (List.nodup_singleton _) ?_
    intro m hm hn
    obtain ⟨msg, hmsg, rfl⟩ := List.mem_map.mp hm
    exact absurd (List.mem_singleton.mp hn) (h.below msg hmsg).ne
  · obtain hmsg | rfl := hmem msg hmsg
    · exact (h.below msg hmsg).trans (lt_add_one _)
    · exact lt_add_one _
  · obtain hmsg | rfl := hmem msg hmsg
    · exact h.named msg hmsg
    · exact ⟨id, extractId_workPayload id params⟩

theorem Labelled.archiveMessage (h : db.Labelled) (k : ℤ) : (db.archiveMessage k).Labelled :=
  h.of_read (List.filter_sublist.map _) rfl

theorem Labelled.commit (h : db.Labelled) (i : CallId) : (db.commit i).Labelled := by
  have hread : (db.commit i).queue.map Message.read = db.queue.map Message.read := by
    simp only [Db.commit, List.map_map]
    refine List.map_congr_left fun msg _ => ?_
    simp only [Function.comp]
    split <;> rfl
  exact h.of_read (hread ▸ List.Sublist.refl _) rfl

theorem Labelled.rollback (h : db.Labelled) (i : CallId) : (db.rollback i).Labelled :=
  h.of_read (List.filter_sublist.map _) rfl

/-- An id names one message. -/
theorem Labelled.eq_of_msgId (h : db.Labelled) {a b : Message} (ha : a ∈ db.queue)
    (hb : b ∈ db.queue) (hid : a.msgId = b.msgId) : a = b := by
  have hnd := h.nodup
  rw [List.map_map] at hnd
  exact List.inj_on_of_nodup_map hnd ha hb hid

end Labelled

end Db

/-! ### What a step does to the queue -/

/-- The message a submission has sent and not committed. -/
def SubmitPhase.message : SubmitPhase → Option (ℤ × WorkId)
  | .sent id m | .queued id m => some (m, id)
  | _ => none

/-- The messages a call may have sent and not committed. -/
def Slot.Sent : Slot → ℤ → WorkId → Prop
  | .live ⟨.submit _, _, ph⟩, m, id => ph = .failed ∨ ph.message = some (m, id)
  | _, _, _ => False

/-- The message a `process_work` call has in hand, with the item it names. -/
def PlanePhase.message : PlanePhase → Option (ℤ × WorkId)
  | .read m id | .fetched m id | .owning _ m id | .completed m id => some (m, id)
  | _ => none

inductive QueueStep (s : Sys) (l : Label) (s' : Sys) : Prop
  | same (hq : s'.db.queue.map Message.seen = s.db.queue.map Message.seen)
      (ha : s'.db.archive = s.db.archive) (hn : s'.db.nextMsgId = s.db.nextMsgId)
  | send {i : CallId} {env : Env} {new : NewWorkItem} {p : Prog Eff (Except Error SubmitResult)}
      {id : WorkId} (hl : l = .exec i env) (hi : s.calls i = .live ⟨.submit new, p, .inserted id⟩)
      (h : s'.db = s.db.send (some i) (workPayload id new.params))
  | archive {i : CallId} {env : Env} {cp : ControlPlane} {p : Prog Eff (Except Error Unit)}
      {m : ℤ} {id : WorkId} (hl : l = .exec i env)
      (hi : s.calls i = .live ⟨.process cp, p, .completed m id⟩)
      (h : s'.db = s.db.archiveMessage m)
  | commit {i : CallId} {env : Env} {new : NewWorkItem} {p : Prog Eff (Except Error SubmitResult)}
      {ph : SubmitPhase} {id : WorkId} (hl : l = .exec i env)
      (hi : s.calls i = .live ⟨.submit new, p, ph⟩)
      (hph : (∃ c, ph = .merging id c) ∨ ∃ m, ph = .queued id m) (h : s'.db = s.db.commit i)
  | rollback {i : CallId} (hi : s'.calls i = .ended) (h : s'.db = s.db.rollback i)

section Steps

variable {clients : Op → Bool} {s s' : Sys} {l : Label}

theorem SysStep.queueStep (h : SysStep clients s l s') : QueueStep s l s' := by
  have puts : ∀ {tag r}, s.db.Puts s'.db tag r → QueueStep s l s' := fun hput =>
    .same (congrArg _ hput.queue) hput.archive hput.nextMsgId
  have update : ∀ {env c id a}, UpdateStep env s.db c id a s'.db → QueueStep s l s' := by
    intro env c id a hup
    generalize hdb : s'.db = db' at hup
    cases hup with
    | missed h => exact .same (by rw [hdb]) (by rw [hdb]) (by rw [hdb])
    | moved hr hs happ hput ha => exact puts (hdb ▸ hput)
    | refused why => exact .same (by rw [hdb]) (by rw [hdb]) (by rw [hdb])
  cases h with
  | start hi hop => exact .same rfl rfl rfl
  | @submit i env new p p' ph ph' db' hi h =>
    cases h with
    | insert id hput fresh hland => exact puts hput
    | merge id c hput fresh hland => exact puts hput
    | record id m hr hput hland => exact puts hput
    | send id hland => exact .send rfl hi rfl
    | commitMerged id c hland => exact .commit rfl hi (.inl ⟨c, rfl⟩) rfl
    | commitQueued id m hland => exact .commit rfl hi (.inr ⟨m, rfl⟩) rfl
    | _ => exact .same rfl rfl rfl
  | @change i env c id p p' ph ph' db' hi h =>
    cases h with
    | update hc hup => exact update hup
    | _ => exact .same rfl rfl rfl
  | @process i env cp p p' ph ph' w' hi h =>
    cases h with
    | read hmem htxn hhid hland => exact .same (Db.seen_setHidden ..) rfl rfl
    | update hph hup => exact update hup
    | archive m id => exact .archive rfl hi rfl
    | _ => exact .same rfl rfl rfl
  | @leave i c l hi hl => exact .rollback (Sys.leave_calls_self ..) rfl
  | expire m => exact .same (Db.seen_setHidden ..) rfl rfl

/-! ### The invariant -/

structure Sys.MsgInv (s : Sys) : Prop where
  labelled : s.db.Labelled
  /-- A message in the queue is that of the row it names. -/
  owner : ∀ m id, s.db.Carries none m id →
    ∃ r, s.db.row id = some r ∧ r.pgmqMsgId = some m ∧ r.state ≠ .merged
  sent : ∀ i m id, s.db.Carries (some i) m id → (s.calls i).Sent m id
  pending : ∀ i new p ph m id, s.calls i = .live ⟨.submit new, p, ph⟩ →
    ph.message = some (m, id) → s.db.Carries (some i) m id
  kept : ∀ id r, s.db.row id = some r → r.state.isTerminal = false → ∃ m, s.db.Carries none m id
  /-- The message a call has in hand names its item, now and later. -/
  held : ∀ i cp p ph m id, s.calls i = .live ⟨.process cp, p, ph⟩ → ph.message = some (m, id) →
    m < s.db.nextMsgId ∧ ∀ tag id', s.db.Carries tag m id' → id' = id
  done : ∀ i cp p m id, s.calls i = .live ⟨.process cp, p, .completed m id⟩ →
    ∃ r, s.db.row id = some r ∧ r.state = .completed
  archived : ∀ msg ∈ s.db.archive, ∃ id r, extractId msg.message = some id ∧
    s.db.row id = some r ∧ r.state = .completed ∧ ∀ m, ¬ s.db.Carries none m id
  archivedOnce : (s.db.archive.map fun msg => extractId msg.message).Nodup

theorem Db.Carries.msgId_lt {db : Db} {tag : Option CallId} {m : ℤ} {id : WorkId}
    (h : db.Carries tag m id) (hl : db.Labelled) : m < db.nextMsgId := by
  obtain ⟨msg, hmsg, -, rfl, -⟩ := h
  exact hl.below msg.read (List.mem_map_of_mem hmsg)

theorem Db.Carries.unique {db : Db} {tag tag' : Option CallId} {m : ℤ} {id id' : WorkId}
    (h : db.Carries tag m id) (h' : db.Carries tag' m id') (hl : db.Labelled) :
    tag = tag' ∧ id = id' := by
  obtain ⟨msg, hmsg, rfl, rfl, hid⟩ := h
  obtain ⟨msg', hmsg', rfl, hm, hid'⟩ := h'
  cases hl.eq_of_msgId hmsg hmsg' hm.symm
  exact ⟨rfl, Option.some.inj (hid.symm.trans hid')⟩

theorem Sys.msgInv_initial : Sys.initial.MsgInv where
  labelled := ⟨List.nodup_nil, fun _ h => (by cases h), fun _ h => (by cases h)⟩
  owner _ _ h := by obtain ⟨msg, h, -⟩ := h; cases h
  sent _ _ _ h := by obtain ⟨msg, h, -⟩ := h; cases h
  pending _ _ _ _ _ _ h := by cases h
  kept _ _ h := by cases h
  held _ _ _ _ _ _ h := by cases h
  done _ _ _ _ _ h := by cases h
  archived _ h := by cases h
  archivedOnce := List.nodup_nil

theorem QueueStep.labelled (h : QueueStep s l s') (hl : s.db.Labelled) : s'.db.Labelled := by
  cases h with
  | same hq ha hn => exact hl.of_seen hq hn
  | send hl' hi h => exact h ▸ hl.send _ _ _
  | archive hl' hi h => exact h ▸ hl.archiveMessage _
  | commit hl' hi hph h => exact h ▸ hl.commit _
  | rollback hi h => exact h ▸ hl.rollback _

/-- Where a message of the next state comes from: it was there, it is being sent, or its
submission commits. -/
theorem QueueStep.origin (h : QueueStep s l s') {tag : Option CallId} {m : ℤ} {id : WorkId}
    (hc : s'.db.Carries tag m id) :
    s.db.Carries tag m id ∨
    (∃ i env new p, l = .exec i env ∧ s.calls i = .live ⟨.submit new, p, .inserted id⟩ ∧
      tag = some i ∧ m = s.db.nextMsgId) ∨
    ∃ i env new p ph, l = .exec i env ∧ s.calls i = .live ⟨.submit new, p, ph⟩ ∧ tag = none ∧
      ((∃ k c, ph = .merging k c) ∨ ∃ k m, ph = .queued k m) ∧ s'.db = s.db.commit i ∧
      s.db.Carries (some i) m id := by
  cases h with
  | same hq ha hn => exact .inl ((Db.carries_of_seen hq).mp hc)
  | send hl hi h =>
    rw [h, Db.carries_send] at hc
    obtain hc | ⟨rfl, rfl, hid⟩ := hc
    · exact .inl hc
    · rw [extractId_workPayload] at hid
      cases hid
      exact .inr (.inl ⟨_, _, _, _, hl, hi, rfl, rfl⟩)
  | archive hl hi h =>
    rw [h, Db.carries_archiveMessage] at hc
    exact .inl hc.1
  | @commit i env new p ph k hl hi hph h =>
    rw [h, Db.carries_commit] at hc
    obtain ⟨-, hc⟩ | ⟨rfl, hc⟩ := hc
    · exact .inl hc
    · exact .inr (.inr ⟨i, env, new, p, ph, hl, hi, rfl, hph.imp (⟨k, ·⟩) (⟨k, ·⟩), h, hc⟩)
  | rollback hi h =>
    rw [h, Db.carries_rollback] at hc
    exact .inl hc.2

theorem QueueStep.nextMsgId_le (h : QueueStep s l s') : s.db.nextMsgId ≤ s'.db.nextMsgId := by
  cases h with
  | same hq ha hn => rw [hn]
  | send hl hi h =>
    rw [h]
    exact (lt_add_one _).le
  | archive hl hi h => rw [h]; exact le_refl _
  | commit hl hi hph h => rw [h]; exact le_refl _
  | rollback hi h => rw [h]; exact le_refl _

/-- Whoever writes a message of the next state: it was there, or call `j` is just sending it. -/
theorem QueueStep.origin_tx (h : QueueStep s l s') {j : CallId} {m : ℤ} {id : WorkId}
    (hc : s'.db.Carries (some j) m id) : s.db.Carries (some j) m id ∨
      ∃ env new p, l = .exec j env ∧ s.calls j = .live ⟨.submit new, p, .inserted id⟩ ∧
        m = s.db.nextMsgId := by
  obtain hc | ⟨i, env, new, p, hl, hi, htag, hm⟩ | ⟨i, env, new, p, ph, -, -, htag, -⟩ :=
    h.origin hc
  · exact .inl hc
  · cases htag
    exact .inr ⟨env, new, p, hl, hi, hm⟩
  · cases htag

/-- A message of the queue stays until it is archived. -/
theorem QueueStep.keeps (h : QueueStep s l s') {m : ℤ} {id : WorkId} (hc : s.db.Carries none m id) :
    s'.db.Carries none m id ∨
    ∃ i env cp p id', l = .exec i env ∧ s.calls i = .live ⟨.process cp, p, .completed m id'⟩ := by
  cases h with
  | same hq ha hn => exact .inl ((Db.carries_of_seen hq).mpr hc)
  | send hl hi h =>
    rw [h, Db.carries_send]
    exact .inl (.inl hc)
  | @archive i env cp p k id' hl hi h =>
    by_cases hk : m = k
    · exact .inr ⟨i, env, cp, p, id', hl, hk ▸ hi⟩
    · rw [h, Db.carries_archiveMessage]
      exact .inl ⟨hc, fun heq => hk heq.2⟩
  | commit hl hi hph h =>
    rw [h, Db.carries_commit]
    exact .inl (.inl ⟨by simp, hc⟩)
  | rollback hi h =>
    rw [h, Db.carries_rollback]
    exact .inl ⟨by simp, hc⟩

/-- A message of an open transaction stays until its call goes on. -/
theorem QueueStep.keeps_tx (h : QueueStep s l s') {j : CallId} {m : ℤ} {id : WorkId}
    (hc : s.db.Carries (some j) m id) (hl : ∀ env, l ≠ .exec j env) (hlive : s'.calls j ≠ .ended) :
    s'.db.Carries (some j) m id := by
  cases h with
  | same hq ha hn => exact (Db.carries_of_seen hq).mpr hc
  | send hl' hi h =>
    rw [h, Db.carries_send]
    exact .inl hc
  | archive hl' hi h =>
    rw [h, Db.carries_archiveMessage]
    exact ⟨hc, fun heq => by cases heq.1⟩
  | @commit i env new p ph k hl' hi hph h =>
    rw [h, Db.carries_commit]
    refine .inl ⟨fun heq => ?_, hc⟩
    cases heq
    exact hl env hl'
  | rollback hi h =>
    rw [h, Db.carries_rollback]
    refine ⟨fun heq => ?_, hc⟩
    cases heq
    exact hlive hi

section Submitting

variable {new : NewWorkItem} {i : CallId} {env : Env} {db db' : Db} {ph ph' : SubmitPhase}

theorem Lands.sent {target : SubmitPhase} {m : ℤ} {id : WorkId} (h : Lands env target ph')
    (ht : target.message = some (m, id)) : ph' = .failed ∨ ph'.message = some (m, id) := by
  obtain rfl | ⟨-, rfl⟩ := h
  · exact .inr ht
  · exact .inl rfl

theorem Lands.message {target : SubmitPhase} {m : ℤ} {id : WorkId} (h : Lands env target ph')
    (hm : ph'.message = some (m, id)) : target.message = some (m, id) := by
  obtain rfl | ⟨-, rfl⟩ := h
  · exact hm
  · cases hm

/-- What a submission has sent, it still has sent until it commits. -/
theorem SubmitStep.sent (h : SubmitStep new i env db ph ph' db') {m : ℤ} {id : WorkId}
    (hs : ph = .failed ∨ ph.message = some (m, id)) (hc : db'.Carries (some i) m id) :
    ph' = .failed ∨ ph'.message = some (m, id) := by
  cases h with
  | notify id' m' => exact hs
  | fail why => exact .inl rfl
  | record id' m' hr hput hland => exact hland.sent (hs.resolve_left fun h => by cases h)
  | commitQueued id' m' hland =>
    rw [Db.carries_commit] at hc
    obtain ⟨hne, -⟩ | ⟨hne, -⟩ := hc
    · exact absurd rfl hne
    · cases hne
  | _ => obtain hs | hs := hs <;> cases hs

/-- What it is about to commit, it has sent. -/
theorem SubmitStep.message (h : SubmitStep new i env db ph ph' db')
    (hp : ∀ m id, ph.message = some (m, id) → db.Carries (some i) m id) {m : ℤ} {id : WorkId}
    (hm : ph'.message = some (m, id)) : db'.Carries (some i) m id := by
  cases h with
  | notify id' m' => exact hp m id hm
  | send id' hland =>
    cases hland.message hm
    exact Db.carries_send.mpr (.inr ⟨rfl, rfl, extractId_workPayload ..⟩)
  | record id' m' hr hput hland =>
    cases hland.message hm
    exact (Db.carries_of_seen (congrArg _ hput.queue)).mpr (hp m id rfl)
  | insert id' hput fresh hland => cases hland.message hm
  | merge id' c hput fresh hland => cases hland.message hm
  | commitMerged id' c hland => cases hland.message hm
  | commitQueued id' m' hland => cases hland.message hm
  | _ => cases hm

end Submitting

section Planes

variable {cp : ControlPlane} {env : Env} {w w' : World} {ph ph' : PlanePhase}

theorem PlanePhase.afterRead_message {msg : PgmqMessage} {m : ℤ} {id : WorkId}
    (h : (PlanePhase.afterRead (some msg)).message = some (m, id)) :
    msg.msgId = m ∧ extractId msg.message = some id := by
  rw [PlanePhase.afterRead] at h
  cases hid : extractId msg.message with
  | none =>
    rw [hid] at h
    cases h
  | some id' =>
    rw [hid] at h
    cases h
    exact ⟨rfl, rfl⟩

theorem PlanePhase.afterUpdate_message {c : Change} {a : Except DbError ℕ} {m : ℤ} {id : WorkId}
    (h : (ph.afterUpdate c a).message = some (m, id)) : ph.message = some (m, id) := by
  revert h
  fun_cases PlanePhase.afterUpdate ph c a <;> intro h <;> first | exact h | cases h

/-- The message in hand was read from the queue, and stays in hand. -/
theorem PlaneStep.message (h : PlaneStep cp env w ph ph' w') {m : ℤ} {id : WorkId}
    (hm : ph'.message = some (m, id)) :
    ph.message = some (m, id) ∨ w.db.Carries none m id := by
  cases h with
  | passive ph dirs => exact .inl hm
  | @read msg ph' hmem htxn hhid hland =>
    obtain rfl | ⟨-, rfl⟩ := hland
    · obtain ⟨hmsg, hid⟩ := PlanePhase.afterRead_message hm
      exact .inr ⟨msg, hmem, htxn, hmsg, hid⟩
    · cases hm
  | fetch hr =>
    split at hm
    · exact .inl hm
    · cases hm
  | update hph hup => exact .inl (PlanePhase.afterUpdate_message hm)
  | count m' id' => exact .inl hm
  | focus m' id' => exact .inl hm
  | uncount m' id' => exact .inl hm
  | _ => cases hm

/-- A call that is to archive its message has completed its item. -/
theorem PlaneStep.completed (h : PlaneStep cp env w ph ph' w') {m : ℤ} {id : WorkId}
    (hph : ph' = .completed m id) :
    (ph = .completed m id ∧ w'.db = w.db) ∨ ∃ r, w'.db.row id = some r ∧ r.state = .completed := by
  cases h with
  | passive ph dirs => exact .inl ⟨hph, rfl⟩
  | @read msg ph' hmem htxn hhid hland =>
    subst hph
    obtain hread | ⟨-, hclosed⟩ := hland
    · obtain hafter | ⟨m', id', hafter⟩ := PlanePhase.afterRead_cases _ <;> cases hread.trans hafter
    · cases hclosed
  | fetch hr => split at hph <;> cases hph
  | @update ph c id' a db' hissue hup =>
    revert hph
    fun_cases PlanePhase.afterUpdate ph c a <;> intro hph
    case case6 m' k o n hn =>
      cases hph
      obtain ⟨-, rfl⟩ := hissue
      obtain ⟨r, r', now, -, -, happ, hrow⟩ := hup.of_ok rfl hn
      exact .inr ⟨r', by rw [hrow, if_pos rfl], ((Change.complete o).apply_state happ).1⟩
    all_goals cases hph
  | _ => cases hph

end Planes

/-! ### Every step keeps it -/

/-- The row a submission is about to commit with its message. -/
theorem Sys.TxInv.row_commit (htx : s.TxInv) {i : CallId} {new : NewWorkItem}
    {p : Prog Eff (Except Error SubmitResult)} {id : WorkId} {m : ℤ}
    (hi : s.calls i = .live ⟨.submit new, p, .queued id m⟩) :
    ∃ jsonb now t, (s.db.commit i).row id = some ((new.row jsonb id now).queue m t) := by
  have hw : ∀ k r, s.db.rowOf (some i) k = some r → (SubmitPhase.queued id m).Writes new k r :=
    htx.written hi
  obtain ⟨r, hr⟩ := htx.pending i new p _ id hi rfl
  obtain ⟨-, jsonb, now, t, rfl⟩ := hw id r hr
  obtain ⟨-, hrow⟩ := Db.row_commit_of hr fun k r' hr' => (hw k r' hr').1
  exact ⟨jsonb, now, t, by rw [hrow, if_pos rfl]⟩

theorem Sys.MsgInv.owner_step (h : s.MsgInv) (hstep : SysStep clients s l s') (htx : s.TxInv)
    (htable : s.TableInv) {m : ℤ} {id : WorkId} (hc : s'.db.Carries none m id) :
    ∃ r, s'.db.row id = some r ∧ r.pgmqMsgId = some m ∧ r.state ≠ .merged := by
  obtain hc | ⟨i, env, new, p, -, -, htag, -⟩ | ⟨i, env, new, p, ph, -, hi, -, hph, hdb, hc⟩ :=
    hstep.queueStep.origin hc
  · obtain ⟨r, hr, hm, hne⟩ := h.owner m id hc
    obtain ⟨r', hr', hev⟩ := (rowStep_of hstep htx).evolves hr
    have hmerged := (hev.state (htable.sound id r hr).notCreated).2
    refine ⟨r', hr', ?_, fun hm' => hne (hmerged.mp hm')⟩
    obtain rfl | ⟨c, jsonb, now, -, -, happ⟩ := hev
    · exact hm
    · rw [(c.apply_identity happ).2.2.2.2, hm]
  · cases htag
  · have hsent := h.sent i m id hc
    rw [hi] at hsent
    obtain ⟨k, c, rfl⟩ | ⟨k, m', rfl⟩ := hph
    · obtain hs | hs := hsent <;> cases hs
    · obtain hs | hs := hsent
      · cases hs
      · cases hs
        obtain ⟨jsonb, now, t, hrow⟩ := htx.row_commit hi
        exact ⟨_, by rw [hdb, hrow], rfl, by simp [Row.queue]⟩

theorem Sys.MsgInv.sent_step (h : s.MsgInv) (hstep : SysStep clients s l s') {j : CallId} {m : ℤ}
    {id : WorkId} (hc : s'.db.Carries (some j) m id) : (s'.calls j).Sent m id := by
  obtain hold | ⟨env, new, p, hl, hj, hm⟩ := hstep.queueStep.origin_tx hc
  · have hs := h.sent j m id hold
    cases hstep.slot j with
    | stay hj hl => rwa [hj]
    | start hj hj' =>
      rw [hj] at hs
      exact hs.elim
    | ended hj hl' hdb =>
      rw [hdb, Db.carries_rollback] at hc
      exact absurd rfl hc.1
    | submit hl hj hj' hsub =>
      rw [hj] at hs
      rw [hj']
      exact hsub.sent hs hc
    | change hl hj hj' hch =>
      rw [hj] at hs
      exact hs.elim
    | process hl hj hj' hpl =>
      rw [hj] at hs
      exact hs.elim
  · cases hstep.slot j with
    | stay hj' hl' => exact absurd hl (hl' env)
    | start hj' hj'' => cases hj.symm.trans hj'
    | ended hj' hl' hdb =>
      rw [hdb, Db.carries_rollback] at hc
      exact absurd rfl hc.1
    | submit hl' hj₀ hj' hsub =>
      cases hj.symm.trans hj₀
      rw [hj']
      generalize s'.db = db' at hsub
      cases hsub with
      | send _ hland => exact hland.sent (by rw [hm]; rfl)
      | fail why => exact .inl rfl
    | change hl' hj' => cases hj.symm.trans hj'
    | process hl' hj' => cases hj.symm.trans hj'

theorem Sys.MsgInv.pending_step (h : s.MsgInv) (hstep : SysStep clients s l s') {j : CallId}
    {new : NewWorkItem} {p : Prog Eff (Except Error SubmitResult)} {ph : SubmitPhase} {m : ℤ}
    {id : WorkId} (hj : s'.calls j = .live ⟨.submit new, p, ph⟩)
    (hm : ph.message = some (m, id)) : s'.db.Carries (some j) m id := by
  obtain ⟨hj₀, hl⟩ | ⟨-, rfl⟩ | ⟨env, p₀, ph₀, -, hj₀, hsub⟩ := hstep.submitting hj
  · exact hstep.queueStep.keeps_tx (h.pending j new p ph m id hj₀ hm) hl (by rw [hj]; simp)
  · cases hm
  · exact hsub.message (fun m id => h.pending j new p₀ ph₀ m id hj₀) hm

/-- A message of an item that is not completed stays in the queue. -/
theorem Sys.MsgInv.keeps (h : s.MsgInv) (hstep : SysStep clients s l s') {m : ℤ} {id : WorkId}
    {r : Row} (hc : s.db.Carries none m id) (hr : s.db.row id = some r)
    (hne : r.state ≠ .completed) : s'.db.Carries none m id := by
  obtain hc | ⟨i, env, cp, p, id', -, hi⟩ := hstep.queueStep.keeps hc
  · exact hc
  · obtain rfl := (h.held i cp p _ m id' hi rfl).2 none id hc
    obtain ⟨r', hr', hdone⟩ := h.done i cp p m id hi
    rw [hr] at hr'
    cases hr'
    exact absurd hdone hne

theorem Sys.MsgInv.kept_step (h : s.MsgInv) (hstep : SysStep clients s l s') (htx : s.TxInv)
    {id : WorkId} {r' : Row} (hr' : s'.db.row id = some r') (hopen : r'.state.isTerminal = false) :
    ∃ m, s'.db.Carries none m id := by
  obtain ⟨r, hr, hev⟩ | ⟨i, env, new, p, ph, rfl, hi, hph, hnone, -⟩ :=
    (rowStep_of hstep htx).origin hr'
  · have hopen₀ : r.state.isTerminal = false := by
      by_contra hterm
      rw [hev.of_terminal ((Bool.not_eq_false _).mp hterm)] at hopen
      exact hterm hopen
    obtain ⟨m, hc⟩ := h.kept id r hr hopen₀
    refine ⟨m, h.keeps hstep hc hr fun hdone => ?_⟩
    rw [hdone] at hopen₀
    cases hopen₀
  -- the row is new: it was committed together with its message
  · cases ph with
    | queued k m =>
      obtain ⟨rfl, jsonb, now, t, rfl⟩ := hph
      have hc := h.pending i new p _ m id hi rfl
      refine ⟨m, ?_⟩
      cases hstep.slot i with
      | stay hi' hl' => exact absurd rfl (hl' env)
      | start hi' => cases hi.symm.trans hi'
      | ended hi' hl' hdb =>
        rw [hdb, Db.row, Db.rowOf_rollback, if_neg (by simp)] at hr'
        cases hnone.symm.trans hr'
      | submit hl' hi₀ hi' hsub =>
        cases hi.symm.trans hi₀
        generalize s'.db = db' at hsub hr' ⊢
        cases hsub with
        | commitQueued _ _ hland => exact Db.carries_commit.mpr (.inr ⟨rfl, hc⟩)
        | notify => cases hnone.symm.trans hr'
        | fail why => cases hnone.symm.trans hr'
      | change hl' hi' => cases hi.symm.trans hi'
      | process hl' hi' => cases hi.symm.trans hi'
    | merging k c =>
      obtain ⟨-, jsonb, now, rfl⟩ := hph
      cases hopen
    | _ => exact hph.elim

theorem Sys.MsgInv.held_step (h : s.MsgInv) (hstep : SysStep clients s l s') {j : CallId}
    {cp : ControlPlane} {p : Prog Eff (Except Error Unit)} {ph : PlanePhase} {m : ℤ} {id : WorkId}
    (hj : s'.calls j = .live ⟨.process cp, p, ph⟩) (hm : ph.message = some (m, id)) :
    m < s'.db.nextMsgId ∧ ∀ tag id', s'.db.Carries tag m id' → id' = id := by
  have hbefore : m < s.db.nextMsgId ∧ ∀ tag id', s.db.Carries tag m id' → id' = id := by
    have read : s.db.Carries none m id →
        m < s.db.nextMsgId ∧ ∀ tag id', s.db.Carries tag m id' → id' = id := fun hc =>
      ⟨hc.msgId_lt h.labelled, fun tag id' hc' => (hc'.unique hc h.labelled).2⟩
    obtain ⟨hj, -⟩ | ⟨-, rfl⟩ | ⟨env, p₀, ph₀, -, hj, hpl⟩ := hstep.processing hj
    · exact h.held j cp p ph m id hj hm
    · cases hm
    · obtain hm₀ | hc := hpl.message hm
      · exact h.held j cp p₀ ph₀ m id hj hm₀
      · exact read hc
  obtain ⟨hlt, honly⟩ := hbefore
  refine ⟨hlt.trans_le hstep.queueStep.nextMsgId_le, fun tag id' hc => ?_⟩
  obtain hc | ⟨i, env, new, p, -, -, -, rfl⟩ | ⟨i, env, new, p, ph, -, -, -, -, -, hc⟩ :=
    hstep.queueStep.origin hc
  · exact honly tag id' hc
  · exact absurd hlt (lt_irrefl _)
  · exact honly _ id' hc

/-- A completed row stays completed. -/
theorem RowStep.completed (h : RowStep s l s') {id : WorkId}
    (hr : ∃ r, s.db.row id = some r ∧ r.state = .completed) :
    ∃ r, s'.db.row id = some r ∧ r.state = .completed := by
  obtain ⟨r, hr, hst⟩ := hr
  obtain ⟨r', hr', hev⟩ := h.evolves hr
  exact ⟨r', hr', by rw [hev.of_terminal (by rw [hst]; rfl), hst]⟩

theorem Sys.MsgInv.done_step (h : s.MsgInv) (hstep : SysStep clients s l s') (htx : s.TxInv)
    {j : CallId} {cp : ControlPlane} {p : Prog Eff (Except Error Unit)} {m : ℤ} {id : WorkId}
    (hj : s'.calls j = .live ⟨.process cp, p, .completed m id⟩) :
    ∃ r, s'.db.row id = some r ∧ r.state = .completed := by
  obtain ⟨hj, -⟩ | ⟨-, hidle⟩ | ⟨env, p₀, ph₀, -, hj, hpl⟩ := hstep.processing hj
  · exact (rowStep_of hstep htx).completed (h.done j cp p m id hj)
  · cases hidle
  · obtain ⟨rfl, hdb⟩ | hdone := hpl.completed rfl
    · exact (rowStep_of hstep htx).completed (h.done j cp p₀ m id hj)
    · exact hdone

/-- A completed item gets no new message. -/
theorem Sys.MsgInv.not_carries (h : s.MsgInv) (hstep : SysStep clients s l s') (htx : s.TxInv)
    {id : WorkId} {r : Row} (hr : s.db.row id = some r) (hno : ∀ m, ¬ s.db.Carries none m id)
    (m : ℤ) : ¬ s'.db.Carries none m id := by
  intro hc
  obtain hc | ⟨i, env, new, p, -, -, htag, -⟩ | ⟨i, env, new, p, ph, -, hi, -, hph, -, hc⟩ :=
    hstep.queueStep.origin hc
  · exact hno m hc
  · cases htag
  · have hsent := h.sent i m id hc
    rw [hi] at hsent
    obtain ⟨k, c, rfl⟩ | ⟨k, m', rfl⟩ := hph
    · obtain hs | hs := hsent <;> cases hs
    · obtain hs | hs := hsent
      · cases hs
      · cases hs
        obtain ⟨r', hr'⟩ := htx.pending i new p _ id hi rfl
        cases (Db.rowOf_unique hr hr').1

/-- What an archiving call takes out of the queue is the message of its item. -/
theorem Sys.MsgInv.archives (h : s.MsgInv) {i : CallId} {cp : ControlPlane}
    {p : Prog Eff (Except Error Unit)} {m : ℤ} {id : WorkId}
    (hi : s.calls i = .live ⟨.process cp, p, .completed m id⟩) {x : Message}
    (hx : x ∈ s.db.queue.filter (Db.isArchived m)) :
    x.msgId = m ∧ extractId x.message = some id ∧ s.db.Carries none m id := by
  obtain ⟨hmem, harch⟩ := List.mem_filter.mp hx
  simp only [Db.isArchived, Bool.and_eq_true, decide_eq_true_eq] at harch
  obtain ⟨id', hid'⟩ := h.labelled.named x.read (List.mem_map_of_mem hmem)
  have hc : s.db.Carries none m id' := ⟨x, hmem, harch.1, harch.2, hid'⟩
  obtain rfl := (h.held i cp p _ m id hi rfl).2 none id' hc
  exact ⟨harch.2, hid', hc⟩

theorem Sys.MsgInv.archived_step (h : s.MsgInv) (hstep : SysStep clients s l s') (htx : s.TxInv)
    {msg : PgmqMessage} (hmsg : msg ∈ s'.db.archive) : ∃ id r, extractId msg.message = some id ∧
      s'.db.row id = some r ∧ r.state = .completed ∧ ∀ m, ¬ s'.db.Carries none m id := by
  have kept : msg ∈ s.db.archive → ∃ id r, extractId msg.message = some id ∧
      s'.db.row id = some r ∧ r.state = .completed ∧ ∀ m, ¬ s'.db.Carries none m id := by
    intro hmsg
    obtain ⟨id, r, hid, hr, hst, hno⟩ := h.archived msg hmsg
    obtain ⟨r', hr', hst'⟩ := (rowStep_of hstep htx).completed ⟨r, hr, hst⟩
    exact ⟨id, r', hid, hr', hst', h.not_carries hstep htx hr hno⟩
  cases hstep.queueStep with
  | same hq ha hn => exact kept (ha ▸ hmsg)
  | send hl hi hdb => exact kept (by rw [hdb] at hmsg; exact hmsg)
  | @archive i env cp p m id hl hi hdb =>
    rw [hdb] at hmsg
    obtain hmsg | hmsg := List.mem_append.mp hmsg
    · exact kept hmsg
    · obtain ⟨x, hx, rfl⟩ := List.mem_map.mp hmsg
      obtain ⟨-, hid, hc⟩ := h.archives hi hx
      obtain ⟨r, hr, hst⟩ := (rowStep_of hstep htx).completed (h.done i cp p m id hi)
      -- another message of the item would be that of its row too, hence the archived one
      refine ⟨id, r, hid, hr, hst, fun m' hc' => ?_⟩
      rw [hdb, Db.carries_archiveMessage] at hc'
      obtain ⟨r₀, hr₀, hm₀, -⟩ := h.owner m id hc
      obtain ⟨r₁, hr₁, hm₁, -⟩ := h.owner m' id hc'.1
      cases hr₀.symm.trans hr₁
      cases hm₀.symm.trans hm₁
      exact hc'.2 ⟨rfl, rfl⟩
  | commit hl hi hph hdb => exact kept (by rw [hdb] at hmsg; exact hmsg)
  | rollback hi hdb => exact kept (by rw [hdb] at hmsg; exact hmsg)

theorem eq_singleton_of_nodup {α : Type*} {l : List α} {a : α} (h : l.Nodup) (ha : a ∈ l)
    (honly : ∀ b ∈ l, b = a) : l = [a] := by
  refine List.perm_singleton.mp ((List.perm_ext_iff_of_nodup h (List.nodup_singleton a)).mpr ?_)
  intro b
  rw [List.mem_singleton]
  exact ⟨honly b, fun hb => hb ▸ ha⟩

theorem Db.Labelled.queue_nodup {db : Db} (h : db.Labelled) : db.queue.Nodup := by
  have hnd := h.nodup
  rw [List.map_map] at hnd
  exact hnd.of_map _

theorem Sys.MsgInv.archivedOnce_step (h : s.MsgInv) (hstep : SysStep clients s l s') :
    (s'.db.archive.map fun msg => extractId msg.message).Nodup := by
  cases hstep.queueStep with
  | same hq ha hn => exact ha ▸ h.archivedOnce
  | send hl hi hdb => exact hdb ▸ h.archivedOnce
  | @archive i env cp p m id hl hi hdb =>
    rw [hdb]
    by_cases hnil : s.db.queue.filter (Db.isArchived m) = []
    · simpa [Db.archiveMessage, hnil] using h.archivedOnce
    -- one message has that number, and no message of its item was archived before
    · obtain ⟨x, hx⟩ := List.exists_mem_of_ne_nil _ hnil
      obtain ⟨hm, hid, hc⟩ := h.archives hi hx
      have hone : s.db.queue.filter (Db.isArchived m) = [x] := by
        refine eq_singleton_of_nodup (h.labelled.queue_nodup.filter _) hx fun y hy => ?_
        exact h.labelled.eq_of_msgId (List.mem_filter.mp hy).1 (List.mem_filter.mp hx).1
          ((h.archives hi hy).1.trans hm.symm)
      simp only [Db.archiveMessage, hone, List.map_append, List.map_cons, List.map_nil]
      refine List.Nodup.append h.archivedOnce (List.nodup_singleton _) ?_
      intro k hk hk'
      obtain ⟨msg, hmsg, rfl⟩ := List.mem_map.mp hk
      obtain ⟨id', r, hid', -, -, hno⟩ := h.archived msg hmsg
      rw [List.mem_singleton, hid', hid] at hk'
      cases hk'
      exact hno m hc
  | commit hl hi hph hdb => exact hdb ▸ h.archivedOnce
  | rollback hi hdb => exact hdb ▸ h.archivedOnce

theorem SysStep.msgInv (hstep : SysStep clients s l s') (htx : s.TxInv) (htable : s.TableInv)
    (h : s.MsgInv) : s'.MsgInv where
  labelled := hstep.queueStep.labelled h.labelled
  owner _ _ hc := h.owner_step hstep htx htable hc
  sent _ _ _ hc := h.sent_step hstep hc
  pending _ _ _ _ _ _ hj hm := h.pending_step hstep hj hm
  kept _ _ hr hopen := h.kept_step hstep htx hr hopen
  held _ _ _ _ _ _ hj hm := h.held_step hstep hj hm
  done _ _ _ _ _ hj := h.done_step hstep htx hj
  archived _ hmsg := h.archived_step hstep htx hmsg
  archivedOnce := h.archivedOnce_step hstep

theorem Sys.Reachable.msgInv (h : s.Reachable clients) : s.MsgInv :=
  (Lts.reachable_invariant (I := fun s => s.Reachable clients ∧ s.MsgInv)
    (fun _ _ _ hs hstep => ⟨hs.1.next hstep,
      (sysStep_of hs.1.inv.1 hs.1.inv.2 hstep).msgInv hs.1.inv.2 hs.1.tableInv hs.2⟩) h
    ⟨Lts.Reachable.refl _, Sys.msgInv_initial⟩).2

theorem Db.mem_messagesOf {db : Db} {id : WorkId} {msg : Message} : msg ∈ db.messagesOf id ↔
    msg ∈ db.queue ∧ msg.txn = none ∧ extractId msg.message = some id := by
  simp [Db.messagesOf]

/-- An item whose message is in the queue has that one message. -/
theorem Sys.MsgInv.messagesOf_eq (h : s.MsgInv) {m : ℤ} {id : WorkId}
    (hc : s.db.Carries none m id) : ∃ msg, s.db.messagesOf id = [msg] ∧ msg.msgId = m ∧
      extractId msg.message = some id := by
  obtain ⟨msg, hmsg, htxn, rfl, hid⟩ := hc
  refine ⟨msg, eq_singleton_of_nodup (h.labelled.queue_nodup.filter _)
    (Db.mem_messagesOf.mpr ⟨hmsg, htxn, hid⟩) fun x hx => ?_, rfl, hid⟩
  obtain ⟨hxq, hxt, hxid⟩ := Db.mem_messagesOf.mp hx
  obtain ⟨r, hr, hm, -⟩ := h.owner _ id ⟨msg, hmsg, htxn, rfl, hid⟩
  obtain ⟨r', hr', hm', -⟩ := h.owner _ id ⟨x, hxq, hxt, rfl, hxid⟩
  cases hr.symm.trans hr'
  exact h.labelled.eq_of_msgId hxq hmsg (Option.some.inj (hm'.symm.trans hm))

/-- An item has a message in the queue, or none. -/
theorem Db.messagesOf_cases (db : Db) (id : WorkId) :
    db.messagesOf id = [] ∨ ∃ m, db.Carries none m id := by
  by_cases hnil : db.messagesOf id = []
  · exact .inl hnil
  · obtain ⟨msg, hmsg⟩ := List.exists_mem_of_ne_nil _ hnil
    obtain ⟨hq, ht, hid⟩ := Db.mem_messagesOf.mp hmsg
    exact .inr ⟨msg.msgId, msg, hq, ht, rfl, hid⟩

/-! ### Unroutable items -/

/-- The rows are the same, and so is the presence of every message. -/
def Sys.SameWork (s s' : Sys) : Prop :=
  (∀ k, s'.db.row k = s.db.row k) ∧ ∀ m k, s'.db.Carries none m k ↔ s.db.Carries none m k

/-- Call `i` is done with, or a `process_work` call whose phase satisfies `K`. -/
def Sys.Stands (s : Sys) (i : CallId) (K : ControlPlane → PlanePhase → Prop) : Prop :=
  s.calls i = .ended ∨ ∃ cp p ph, s.calls i = .live ⟨.process cp, p, ph⟩ ∧ K cp ph

theorem Sys.Stands.mono {i : CallId} {K K' : ControlPlane → PlanePhase → Prop}
    (h : s.Stands i K) (hK : ∀ cp ph, K cp ph → K' cp ph) : s.Stands i K' := by
  obtain hended | ⟨cp, p, ph, hc, hph⟩ := h
  · exact .inl hended
  · exact .inr ⟨cp, p, ph, hc, hK cp ph hph⟩

/-- Only a `process_work` call stands anywhere. -/
theorem Sys.Stands.process {i : CallId} {K : ControlPlane → PlanePhase → Prop} (h : s.Stands i K)
    {op : Op} {p : Prog Eff (Except Error op.Result)} {ph : op.Phase}
    (hc : s.calls i = .live ⟨op, p, ph⟩) : ∃ cp, op = .process cp := by
  obtain hended | ⟨cp, p', ph', hc', -⟩ := h
  · cases hc.symm.trans hended
  · cases hc.symm.trans hc'
    exact ⟨cp, rfl⟩

/-- Where a call stands changes by its own steps only. -/
theorem SysStep.stands (h : SysStep clients s l s') {i : CallId}
    {K K' : ControlPlane → PlanePhase → Prop} (hi : s.Stands i K)
    (stay : ∀ cp ph, K cp ph → K' cp ph)
    (next : ∀ cp env ph ph', K cp ph → PlaneStep cp env s.world ph ph' s'.world → K' cp ph') :
    s'.Stands i K' := by
  cases h.slot i with
  | stay hi' hl =>
    obtain hended | ⟨cp, p, ph, hc, hph⟩ := hi.mono stay
    · exact .inl (hi'.trans hended)
    · exact .inr ⟨cp, p, ph, hi'.trans hc, hph⟩
  | start hidle hi' =>
    obtain hended | ⟨cp, p, ph, hc, hph⟩ := hi
    · cases hidle.symm.trans hended
    · cases hidle.symm.trans hc
  | ended hi' hl' hdb => exact .inl hi'
  | submit hl hc hi' hsub =>
    obtain ⟨cp, hop⟩ := hi.process hc
    cases hop
  | change hl hc hi' hch =>
    obtain ⟨cp, hop⟩ := hi.process hc
    cases hop
  | process hl hc hi' hpl =>
    obtain hended | ⟨cp, p, ph, hc', hph⟩ := hi
    · cases hc.symm.trans hended
    · cases hc.symm.trans hc'
      exact .inr ⟨_, _, _, hi', next _ _ _ _ hph hpl⟩

/-- A call that cannot route the item it read, or is done with it. -/
def Sys.Unroutable (s : Sys) (i : CallId) : Prop :=
  s.calls i = .ended ∨ ∃ cp p ph, s.calls i = .live ⟨.process cp, p, ph⟩ ∧ (ph = .closed ∨
    ∃ m id r, ph = .read m id ∧ s.db.row id = some r ∧ cp.registry r.faculty = none)

/-- A call that cannot route its item goes nowhere. -/
theorem PlaneStep.unroutable {cp : ControlPlane} {env : Env} {w w' : World} {ph ph' : PlanePhase}
    (h : PlaneStep cp env w ph ph' w') (hph : ph = .closed ∨
      ∃ m id r, ph = .read m id ∧ w.db.row id = some r ∧ cp.registry r.faculty = none) :
    w'.db = w.db ∧ (ph' = .closed ∨ ph' = ph) := by
  obtain rfl | ⟨m, id, r, rfl, hr, hf⟩ := hph
  · cases h with
    | passive ph dirs => exact ⟨rfl, .inl rfl⟩
    | update hph hup => exact hph.elim
  · cases h with
    | passive ph dirs => exact ⟨rfl, .inr rfl⟩
    | fetch hr' =>
      cases hr.symm.trans hr'
      exact ⟨rfl, .inl (by simp [hf])⟩
    | unfetched why => exact ⟨rfl, .inl rfl⟩
    | update hph hup => exact hph.elim

theorem SysStep.unroutable (h : SysStep clients s l s') (htx : s.TxInv) {i : CallId}
    (hi : s.Unroutable i) : s'.Unroutable i := by
  have hrow : ∀ {cp : ControlPlane} {ph : PlanePhase}, (ph = .closed ∨
      ∃ m id r, ph = .read m id ∧ s.db.row id = some r ∧ cp.registry r.faculty = none) →
      ph = .closed ∨ ∃ m id r, ph = .read m id ∧ s'.db.row id = some r ∧
        cp.registry r.faculty = none := by
    rintro cp ph (rfl | ⟨m, id, r, rfl, hr, hf⟩)
    · exact .inl rfl
    · obtain ⟨r', hr', hev⟩ := (rowStep_of h htx).evolves hr
      exact .inr ⟨m, id, r', rfl, hr', by rw [hev.faculty, hf]⟩
  refine h.stands hi (fun _ _ => hrow) fun cp env ph ph' hph hpl => ?_
  obtain ⟨-, rfl | rfl⟩ := hpl.unroutable hph
  · exact .inl rfl
  · exact hrow hph

/-- What ends or drops a call without a transaction is no work. -/
theorem Sys.sameWork_of_db (h : s'.db = s.db) : s.SameWork s' :=
  ⟨fun _ => by rw [h], fun _ _ => by rw [h]⟩

theorem Sys.sameWork_rollback {i : CallId} (h : s'.db = s.db.rollback i) : s.SameWork s' := by
  refine ⟨fun k => ?_, fun m k => ?_⟩
  · rw [h, Db.row, Db.rowOf_rollback, if_neg (by simp)]
    rfl
  · rw [h, Db.carries_rollback]
    exact and_iff_right (by simp)

theorem SysStep.sameWork (h : SysStep clients s l s') {i : CallId} (hl : l.caller = some i)
    (hi : s.Unroutable i) : s.SameWork s' := by
  cases h with
  | start hidle hop => exact Sys.sameWork_of_db rfl
  | leave hc hl' => exact Sys.sameWork_rollback rfl
  | expire m => cases hl
  | submit hc hsub =>
    cases hl
    obtain ⟨cp, hop⟩ := Sys.Stands.process hi hc
    cases hop
  | change hc hch =>
    cases hl
    obtain ⟨cp, hop⟩ := Sys.Stands.process hi hc
    cases hop
  | process hc hpl =>
    cases hl
    obtain hended | ⟨cp, p, ph, hc', hph⟩ := hi
    · cases hc.symm.trans hended
    · cases hc.symm.trans hc'
      exact Sys.sameWork_of_db (hpl.unroutable hph).1

/-- Reading a message takes it from no one. -/
theorem SysStep.sameWork_of_idle (h : SysStep clients s l s') {i : CallId} {env : Env}
    (hl : l = .exec i env) {cp : ControlPlane} {p : Prog Eff (Except Error Unit)}
    (hi : s.calls i = .live ⟨.process cp, p, .idle⟩) : s.SameWork s' := by
  cases h with
  | process hc hpl =>
    cases hl
    cases hc.symm.trans hi
    cases hpl with
    | passive ph dirs => exact Sys.sameWork_of_db rfl
    | read hmem htxn hhid hland =>
      exact ⟨fun _ => rfl, fun _ _ => Db.carries_of_seen (Db.seen_setHidden ..)⟩
    | unread why => exact Sys.sameWork_of_db rfl
    | update hph hup => exact hph.elim
  | submit hc hsub =>
    cases hl
    cases hc.symm.trans hi
  | change hc hch =>
    cases hl
    cases hc.symm.trans hi
  | leave hc hl' => obtain rfl | rfl := hl' <;> cases hl
  | _ => cases hl

theorem Sys.Reachable.unroutable_run (h : s.Reachable clients) {ls : List Label}
    (hrun : (system clients).Run s ls s') {i : CallId} (hi : s.Unroutable i) : s'.Unroutable i :=
  (Lts.run_invariant (I := fun s => s.Reachable clients ∧ s.Unroutable i)
    (fun _ _ _ hx hstep => ⟨hx.1.next hstep,
      (sysStep_of hx.1.inv.1 hx.1.inv.2 hstep).unroutable hx.1.inv.2 hx.2⟩) hrun ⟨h, hi⟩).2

/-- No accepted work is lost, whatever the clients do: an open row has exactly one message, which
names it and which it names; no two messages name one item, archived ones included; a merged row
has none; a message is archived once its row is completed; and a call that reads a message it
cannot route leaves every row and every message where it was, from the read to its end. -/
theorem no_accepted_work_lost (h : s.Reachable clients) :
    (∀ id r, s.db.row id = some r →
      r.state = .queued ∨ r.state = .claimed ∨ r.state = .running ∨ r.state = .failed →
      ∃ msg, s.db.messagesOf id = [msg] ∧ extractId msg.message = some id ∧
        r.pgmqMsgId = some msg.msgId) ∧
    (∀ id, (s.db.messagesOf id).length ≤ 1) ∧
    (∀ id r, s.db.row id = some r → r.state = .merged → s.db.messagesOf id = []) ∧
    ((s.db.archive.map fun msg => extractId msg.message).Nodup ∧
      ∀ msg ∈ s.db.archive, ∃ id r, extractId msg.message = some id ∧ s.db.row id = some r ∧
        r.state = .completed ∧ s.db.messagesOf id = []) ∧
    ∀ i cp p env s₁, s.calls i = .live ⟨.process cp, p, .idle⟩ →
      s.step clients (.exec i env) = some s₁ → s.SameWork s₁ ∧
      ∀ p₁ m id r, s₁.calls i = .live ⟨.process cp, p₁, .read m id⟩ → s₁.db.row id = some r →
        cp.registry r.faculty = none → ∀ ls s₂ l s₃, (system clients).Run s₁ ls s₂ →
          s₂.step clients l = some s₃ → l.caller = some i → s₂.SameWork s₃ := by
  have hinv := h.msgInv
  refine ⟨?_, ?_, ?_, ⟨hinv.archivedOnce, ?_⟩, ?_⟩
  · intro id r hr hst
    have hopen : r.state.isTerminal = false := by
      obtain hst | hst | hst | hst := hst <;> rw [hst] <;> rfl
    obtain ⟨m, hc⟩ := hinv.kept id r hr hopen
    -- two messages of the item would both be the one its row names
    obtain ⟨msg, hmsg, rfl, hid⟩ := hinv.messagesOf_eq hc
    obtain ⟨r', hr', hm, -⟩ := hinv.owner _ id hc
    cases hr.symm.trans hr'
    exact ⟨msg, hmsg, hid, hm⟩
  · intro id
    obtain hnil | ⟨m, hc⟩ := s.db.messagesOf_cases id
    · simp [hnil]
    · obtain ⟨msg, hmsg, -⟩ := hinv.messagesOf_eq hc
      simp [hmsg]
  · intro id r hr hst
    obtain hnil | ⟨m, hc⟩ := s.db.messagesOf_cases id
    · exact hnil
    · obtain ⟨r', hr', -, hne⟩ := hinv.owner m id hc
      cases hr.symm.trans hr'
      exact absurd hst hne
  · intro msg hmsg
    obtain ⟨id, r, hid, hr, hst, hno⟩ := hinv.archived msg hmsg
    refine ⟨id, r, hid, hr, hst, (s.db.messagesOf_cases id).resolve_right ?_⟩
    rintro ⟨m, hc⟩
    exact hno m hc
  · intro i cp p env s₁ hi hstep
    refine ⟨(sysStep_of h.inv.1 h.inv.2 hstep).sameWork_of_idle rfl hi, ?_⟩
    intro p₁ m id r hi₁ hr hf ls s₂ l s₃ hrun hstep₂ hl
    have h₁ := h.next hstep
    have h₂ := h₁.later hrun
    have hun : s₁.Unroutable i := .inr ⟨cp, p₁, _, hi₁, .inr ⟨m, id, r, rfl, hr, hf⟩⟩
    exact (sysStep_of h₂.inv.1 h₂.inv.2 hstep₂).sameWork hl (h₁.unroutable_run hrun hun)

end Steps

/-- The message of a running item, in the queue while its focus runs. -/
theorem no_accepted_work_lost_focused :
    ∃ msg, ((system planeClients).replayed Sys.initial focusedRun).db.messagesOf (.ofNat 1) =
      [msg] := by
  have h := (no_accepted_work_lost (⟨focusedRun, Lts.run_replayed rfl⟩ :
    ((system planeClients).replayed Sys.initial focusedRun).Reachable planeClients)).1 (.ofNat 1)
  obtain ⟨msg, hmsg, -⟩ := h _ rfl (.inr (.inr (.inl rfl)))
  exact ⟨msg, hmsg⟩

end Animus
