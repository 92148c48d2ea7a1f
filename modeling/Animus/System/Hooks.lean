import Animus.Engine.Pipeline
import Animus.System.Cleanup
import Animus.System.Transcripts

/-!
# What a hook finds

A hook process is started from the environment and the directory its focus was
given. Everything it may rely on is in the transcript of its call, or follows
from the phase the transcript leads to.

## Main definitions

- `Fetched`, `Focus.Housed`: what a call did for its focus
- `Accounts`: the result of a focus run, in the transcript of a call
- `heedProtocol`: hooks run inside a focus run, and an item is retired with the result of one

## Main results

- `processWork_heeds`: `process_work` keeps to it
- `hooks_find_their_focus`: the row, the owner and the directory behind a hook that runs
-/

namespace Animus

open Effect Effect.Protocol

/-- Does the effect retire an item? -/
def Eff.retires : {β : Type} → Eff β → Bool
  | _, .pool (.change c _ _) => c.source = .running
  | _, _ => false

/-- Neither a hook nor a retirement. -/
def Eff.plain {β : Type} (e : Eff β) : Bool := !e.runsHook && !e.retires

theorem Eff.plain_iff {β : Type} {e : Eff β} :
    e.plain = true ↔ e.runsHook = false ∧ e.retires = false := by
  simp [Eff.plain]

def PlainEvents (t : List (Event Eff)) : Prop := ∀ x ∈ t, x.eff.plain = true

theorem PlainEvents.append {t t' : List (Event Eff)} (h : PlainEvents t) (h' : PlainEvents t') :
    PlainEvents (t ++ t') := List.forall_mem_append.mpr ⟨h, h'⟩

theorem PlainEvents.snoc {t : List (Event Eff)} (h : PlainEvents t) {x : Event Eff}
    (hx : x.eff.plain = true) : PlainEvents (t ++ [x]) :=
  h.append (List.forall_mem_singleton.mpr hx)

theorem PlainEvents.hookRuns_eq_nil {t : List (Event Eff)} (h : PlainEvents t) : hookRuns t = [] :=
  Animus.hookRuns_eq_nil fun x hx => (Eff.plain_iff.mp (h x hx)).1

/-- What a focus run performs after its first effect retires nothing. -/
theorem Focus.Works.retires {focus : Focus} {faculty : FacultyMeta} {β : Type} {e : Eff β}
    (h : focus.Works faculty e) : e.retires = false := by
  cases e <;> first | rfl | exact h.elim

/-- The row of the item was read, and nothing else of note happened. -/
def Fetched (item : WorkItem) (t : List (Event Eff)) : Prop :=
  PlainEvents t ∧ ∃ row : Row, (⟨.pool (.selectById item.id), .ok (some row)⟩ : Event Eff) ∈ t ∧
    row.tryIntoWorkItem = .ok item

theorem Fetched.append {item : WorkItem} {t t' : List (Event Eff)} (h : Fetched item t)
    (h' : PlainEvents t') : Fetched item (t ++ t') := by
  obtain ⟨hplain, row, hmem, hrow⟩ := h
  exact ⟨hplain.append h', row, List.mem_append_left _ hmem, hrow⟩

theorem Fetched.snoc {item : WorkItem} {t : List (Event Eff)} (h : Fetched item t) {x : Event Eff}
    (hx : x.eff.plain = true) : Fetched item (t ++ [x]) :=
  h.append (List.forall_mem_singleton.mpr hx)

/-- The directory of the focus was made, and its item written to it. -/
def Focus.Housed (focus : Focus) (t : List (Event Eff)) : Prop :=
  ∃ json, (⟨.createDirAll focus.dir, .ok ()⟩ : Event Eff) ∈ t ∧
    (⟨.toStringPretty focus.workItem, .ok json⟩ : Event Eff) ∈ t ∧
    (⟨.write (joinPath focus.dir "work.json") json, .ok ()⟩ : Event Eff) ∈ t

theorem Focus.Housed.mono {focus : Focus} {t t' : List (Event Eff)} (h : focus.Housed t)
    (hsub : t ⊆ t') : focus.Housed t' := by
  obtain ⟨json, hdir, hjson, hwrite⟩ := h
  exact ⟨json, hsub hdir, hsub hjson, hsub hwrite⟩

/-- The focus is ready to run, with the faculty of its item. -/
structure Focus.Ready (cp : ControlPlane) (focus : Focus) (faculty : FacultyMeta)
    (t : List (Event Eff)) : Prop where
  fetched : Fetched focus.workItem t
  housed : focus.Housed t
  registered : cp.registry focus.workItem.faculty = some faculty

/-- A focus was ready, and is being run. -/
def Focus.Running (cp : ControlPlane) (focus : Focus) (faculty : FacultyMeta)
    (t : List (Event Eff)) : Prop :=
  ∃ before during, t = before ++ ⟨.focusStart focus.workItem.id, ()⟩ :: during ∧
    focus.Ready cp faculty before ∧ ∀ x ∈ during, focus.Works faculty x.eff

theorem Focus.Running.retires {cp : ControlPlane} {focus : Focus} {faculty : FacultyMeta}
    {t : List (Event Eff)} (h : Focus.Running cp focus faculty t) :
    ∀ x ∈ t, x.eff.retires = false := by
  obtain ⟨before, during, rfl, hready, hworks⟩ := h
  intro x hx
  obtain hx | hx | ⟨_, hx⟩ := List.mem_append.mp hx
  · exact (Eff.plain_iff.mp (hready.fetched.1 x hx)).2
  · rfl
  · exact (hworks x hx).retires

/-- A focus for the item was ready, it ran to the result, and no hook ran since. -/
def Accounts (cp : ControlPlane) (id : WorkId) (result : FocusResult) (t : List (Event Eff)) :
    Prop :=
  ∃ (before run after : List (Event Eff)) (focus : Focus) (faculty : FacultyMeta),
    t = before ++ run ++ after ∧ focus.workItem.id = id ∧ focus.Ready cp faculty before ∧
    Yields (focus.run faculty) run result ∧ hookRuns after = []

theorem Accounts.append {cp : ControlPlane} {id : WorkId} {result : FocusResult}
    {t t' : List (Event Eff)} (h : Accounts cp id result t) (h' : hookRuns t' = []) :
    Accounts cp id result (t ++ t') := by
  obtain ⟨before, run, after, focus, faculty, rfl, hid, hready, hrun, hafter⟩ := h
  exact ⟨before, run, after ++ t', focus, faculty, by rw [List.append_assoc], hid, hready, hrun,
    by rw [hookRuns_append, hafter, h', List.nil_append]⟩

/-- The update a result is retired by. -/
def FocusResult.change : FocusResult → Change
  | .completed data ms => .complete ⟨true, some data, none, ms⟩
  | .failed phase error ms => .fail (phase ++ ": " ++ error) ms

/-- A hook is one of a focus that is run, and an item is retired with the result of a focus run. -/
def heeds (cp : ControlPlane) : {β : Type} → List (Event Eff) → Eff β → Prop
  | _, t, .status command dir env => ∃ focus faculty, Focus.Running cp focus faculty t ∧
    focus.Works faculty (.status command dir env)
  | _, t, .pool (.change c id _) =>
    c.source = .running → ∃ result, result.change = c ∧ Accounts cp id result t
  | _, _, _ => True

/-- The protocol of a `process_work` call, as a condition on its transcript. -/
abbrev heedProtocol (cp : ControlPlane) : Protocol Eff (List (Event Eff)) :=
  transcript Eff.answers (heeds cp)

/-! ### Every call heeds -/

section Calls

variable {cp : ControlPlane} {α β : Type} {t : List (Event Eff)} {item : WorkItem}

theorem heeds_of_plain {e : Eff β} (he : e.plain = true) : heeds cp t e := by
  obtain ⟨hhook, hretire⟩ := Eff.plain_iff.mp he
  cases e with
  | status command dir env => cases hhook
  | pool q =>
    cases q with
    | change c id now => exact fun hc => absurd hc (of_decide_eq_false hretire)
    | _ => trivial
  | _ => trivial

/-- A program of plain effects, however it ends, leads from one fetched transcript to another. -/
theorem fetched_of_plain {x : Fallible Eff Error α} (hx : (kind Eff.answers fun e => e.plain =
      true).ObeysE (fun _ _ => True) (fun _ _ => True) () x) (ht : Fetched item t) :
    (heedProtocol cp).ObeysE (fun t' _ => Fetched item t') (fun _ _ => True) t x := by
  have hall : (kind Eff.answers fun e => e.plain = true).Obeys (fun _ _ => True) () x.run :=
    Obeys.mono hx fun _ _ _ => trivial
  refine Obeys.mono (obeys_transcript (Q := fun _ => True) hall fun e _ he _ =>
    heeds_of_plain he) ?_
  rintro _ r ⟨t', rfl, -, hplain, -⟩
  cases r with
  | ok a => exact ht.append hplain
  | error e => trivial

theorem casUpdate_plain {c : Change} {id : WorkId} (hc : c.source ≠ .running) :
    (kind Eff.answers fun e => e.plain = true).ObeysE (fun _ _ => True) (fun _ _ => True) ()
      (casUpdate c id) := by
  have hplain : ∀ now, (Eff.pool (.change c id now)).plain = true := fun now =>
    Eff.plain_iff.mpr ⟨rfl, decide_eq_false hc⟩
  refine casUpdate_obeys_of () (fun _ _ => trivial) rfl (fun _ => rfl) (fun _ => hplain)
    (fun _ _ => trivial) (fun _ _ _ => trivial) (fun _ _ _ => rfl) ?_
  exact getWorkItem_obeys (fun r hr => hr) rfl (fun _ _ _ _ => trivial) (fun _ _ => trivial)
    fun _ _ _ => trivial

/-- Making a focus makes its directory and writes its item. -/
theorem create_heeds {faculty : FacultyMeta} (ht : Fetched item t)
    (hfac : cp.registry item.faculty = some faculty) :
    (heedProtocol cp).ObeysE (fun t' (focus : Focus) => focus.workItem = item ∧
      focus.Ready cp faculty t') (fun _ _ => True) t (Focus.create cp.focusBaseDir item) := by
  unfold Focus.create
  refine .perform_bind trivial fun id _ => ?_
  refine .attempt_bind trivial (fun _ _ => ?_) fun _ _ => trivial
  refine .attempt_bind trivial (fun json _ => ?_) fun _ _ => trivial
  refine .attempt_bind trivial (fun _ _ => .pure ⟨rfl, ?_, ⟨json, ?_⟩, hfac⟩) fun _ _ => trivial
  · exact (((ht.snoc rfl).snoc rfl).snoc rfl).snoc rfl
  · refine ⟨?_, ?_, ?_⟩ <;> simp [transcript]

/-- After a focus run its result is accounted for. -/
theorem run_heeds {focus : Focus} {faculty : FacultyMeta} (ht : focus.Ready cp faculty t) :
    (heedProtocol cp).Obeys (fun t' result => Accounts cp focus.workItem.id result t') t
      (focus.run faculty) := by
  obtain ⟨p, hrun, hworks⟩ := focus.run_works Eff.answers faculty
  rw [hrun]
  refine ⟨trivial, fun _ _ => ?_⟩
  refine Obeys.mono (obeys_transcript (Q := fun _ => True) hworks ?_) ?_
  · intro β e t' he ht'
    cases e with
    | status command dir env =>
      exact ⟨focus, faculty, ⟨t, t', List.append_assoc .., ht, ht'⟩, he⟩
    | pool q => exact he.elim
    | _ => trivial
  · rintro _ result ⟨t', rfl, hy, -, -⟩
    refine ⟨t, ⟨.focusStart focus.workItem.id, ()⟩ :: t', [], focus, faculty, ?_, rfl, ht, ?_, rfl⟩
    · rw [List.append_nil]
      exact List.append_assoc ..
    · rw [hrun]
      exact ⟨(), t', rfl, hy⟩

/-- Once the result is accounted for, the item may be retired with it. -/
theorem casUpdate_heeds {id : WorkId} {result : FocusResult} (h : Accounts cp id result t) :
    (heedProtocol cp).ObeysE (fun _ _ => True) (fun _ _ => True) t
      (casUpdate result.change id) := by
  unfold casUpdate
  refine ObeysE.bind (Q := fun t' _ => t' = t) (validateTransition_obeys (fun _ => rfl)
    fun _ _ => trivial) ?_
  rintro _ _ rfl
  refine .perform_bind trivial fun now _ => ?_
  refine .attempt_bind (fun _ => ⟨result, rfl, h.append rfl⟩) (fun n _ => ?_) fun _ _ => trivial
  split
  · exact .throw trivial
  · exact getWorkItem_obeys (fun r hr => hr) trivial (fun _ _ _ _ => trivial)
      (fun _ _ => trivial) fun _ _ _ => trivial

theorem retire_heeds (msg : PgmqMessage) {id : WorkId} {result : FocusResult}
    (h : Accounts cp id result t) :
    (heedProtocol cp).ObeysE (fun _ _ => True) (fun _ _ => True) t (retire msg id result) := by
  cases result with
  | completed data ms =>
    refine .perform_bind trivial fun _ _ => ?_
    refine ObeysE.bind (casUpdate_heeds (h.append rfl)) ?_
    rintro t' _ -
    exact .attempt trivial (fun _ _ => trivial) fun _ _ => trivial
  | failed phase error ms =>
    refine .perform_bind trivial fun _ _ => ?_
    refine ObeysE.bind (casUpdate_heeds (h.append rfl)) ?_
    rintro t' _ -
    exact .pure trivial

theorem runWork_heeds (msg : PgmqMessage) {faculty : FacultyMeta} (ht : Fetched item t)
    (hfac : cp.registry item.faculty = some faculty) :
    (heedProtocol cp).ObeysE (fun _ _ => True) (fun _ _ => True) t
      (runWork cp msg item.id item faculty) := by
  unfold runWork
  -- up to the focus nothing of note happens
  refine ObeysE.bind (fetched_of_plain ⟨rfl, fun _ _ => trivial⟩ ht) fun t _ ht => ?_
  refine ObeysE.bind (fetched_of_plain (casUpdate_plain (by decide)) ht) fun t _ ht => ?_
  refine ObeysE.bind (fetched_of_plain ⟨rfl, fun _ _ => trivial⟩ ht) fun t _ ht => ?_
  refine ObeysE.bind (fetched_of_plain (casUpdate_plain (by decide)) ht) fun t _ ht => ?_
  refine ObeysE.bind (fetched_of_plain ⟨rfl, fun _ _ => trivial⟩ ht) fun t _ ht => ?_
  refine ObeysE.bind (create_heeds ht hfac) ?_
  rintro t focus ⟨rfl, hready⟩
  refine ObeysE.bind (.lift (run_heeds hready)) fun t result h => ?_
  refine .perform_bind trivial fun _ _ => ?_
  refine ObeysE.bind (retire_heeds msg (h.append rfl)) ?_
  rintro t _ -
  refine ObeysE.bind (Q := fun _ _ => True) (.lift ⟨trivial, fun _ _ => trivial⟩) ?_
  exact fun _ _ _ => .pure trivial

/-- Reading the row back leaves the read in the transcript. -/
theorem getWorkItem_heeds {id : WorkId} (ht : PlainEvents t) :
    (heedProtocol cp).ObeysE (fun t' (item : WorkItem) => item.id = id ∧ Fetched item t')
      (fun _ _ => True) t (getWorkItem id) := by
  unfold getWorkItem
  refine .attempt_bind trivial (fun row hrow => ?_) fun _ _ => trivial
  cases row with
  | none => exact .throw trivial
  | some r =>
    refine .ofResult (fun item hitem => ?_) fun _ _ => trivial
    have hid : item.id = id := (Row.of_read hitem).1.trans hrow
    refine ⟨hid, ht.snoc rfl, r, ?_, hitem⟩
    rw [hid]
    exact List.mem_append_right _ (List.mem_singleton_self _)

/-- A `process_work` call runs hooks inside a focus run only, and retires its item with the result
of that run. -/
theorem processWork_heeds (cp : ControlPlane) :
    (heedProtocol cp).Obeys (fun _ _ => True) [] (processWork cp).run := by
  have h : (heedProtocol cp).ObeysE (fun _ (_ : Unit) => True) (fun _ _ => True) []
      (processWork cp) := by
    have hnone : PlainEvents [] := List.forall_mem_nil _
    unfold processWork
    refine .perform_bind trivial fun active _ => ?_
    split
    · exact .pure trivial
    refine .attempt_bind trivial (fun msg _ => ?_) fun _ _ => trivial
    cases msg with
    | none => exact .pure trivial
    | some msg =>
      dsimp only
      cases extractId msg.message with
      | none => exact .throw trivial
      | some id =>
        refine ObeysE.bind (getWorkItem_heeds ((hnone.snoc rfl).snoc rfl)) ?_
        rintro t item ⟨rfl, ht⟩
        cases hfac : cp.registry item.faculty with
        | none => exact .pure trivial
        | some faculty => exact runWork_heeds msg ht hfac
  exact Obeys.mono h fun _ _ _ => trivial

end Calls

/-! ### Hooks along a run -/

section Runs

variable {clients : Op → Bool} {s s' : Sys} {l : Label} {ls : List Label} {i j : CallId}

/-- A `process_work` call keeps to its protocol after what it performed. -/
def Live.Heeds (t : List (Event Eff)) : Live → Prop
  | ⟨.process cp, p, _⟩ => (heedProtocol cp).Obeys (fun _ _ => True) t p
  | _ => True

/-- Every `process_work` call in progress heeds what it performed. -/
theorem Sys.heeding (hrun : (system clients).Run Sys.initial ls s) {cp : ControlPlane}
    {p : Prog Eff (Except Error Unit)} {ph : PlanePhase}
    (hi : s.calls i = .live ⟨.process cp, p, ph⟩) :
    (heedProtocol cp).Obeys (fun _ _ => True) (Sys.performed clients i ls) p := by
  refine Sys.call_induction (I := fun c t => c.Heeds t) (fun op => ?_) ?_ hrun hi
  · cases op with
    | process cp => exact processWork_heeds cp
    | _ => trivial
  · intro op β e k ph t ht r hr
    cases op with
    | process cp => exact ht.2 r hr
    | _ => trivial

/-- The other operations run no hook. -/
theorem Op.runsHook_eq_false {op : Op} (hop : ∀ cp, op ≠ .process cp) {ph : op.Phase} {β : Type}
    {e : Eff β} (ha : op.protocol.allowed ph e) : e.runsHook = false := by
  cases op with
  | process cp => exact absurd rfl (hop cp)
  | submit new =>
    cases e with
    | status command dir env => cases ph <;> exact ha.elim
    | _ => rfl
  | change c id =>
    cases e with
    | status command dir env => cases ph <;> exact ha.elim
    | _ => rfl

/-- While a focus is run, its call owns its item. -/
theorem Focus.Running.phase {cp : ControlPlane} {focus : Focus} {faculty : FacultyMeta}
    {t : List (Event Eff)} (h : Focus.Running cp focus faculty t) {ph : PlanePhase}
    (hplays : Plays (planeProtocol cp) .idle t ph) :
    ∃ m, ph = .owning .focused m focus.workItem.id := by
  obtain ⟨before, during, rfl, -, hworks⟩ := h
  obtain ⟨g, -, ha, hduring⟩ := plays_append.mp hplays
  have hg : ∃ m, g = .owning .counted m focus.workItem.id := by
    cases g with
    | owning st m id =>
      cases st with
      | counted =>
        obtain rfl : focus.workItem.id = id := ha
        exact ⟨m, rfl⟩
      | _ => cases ha
    | _ => cases ha
  obtain ⟨m, rfl⟩ := hg
  refine ⟨m, Plays.stays (K := focus.Works faculty) ?_ hduring hworks⟩
  intro β e he r
  cases e <;> first | rfl | exact he.elim

end Runs

section Planes

variable {s : Sys} {ls : List Label} {i : CallId} {op : Op} {command dir : String}
  {env : List (String × String)} {k : Except String (Option ℤ) → Prog Eff (Except Error op.Result)}
  {ph : op.Phase}

/-- A call that runs a hook is a `process_work` call that runs a focus, and owns its item. -/
theorem Sys.focus_of_hook {clients : Op → Bool} (hrun : (system clients).Run Sys.initial ls s)
    (hi : s.calls i = .live ⟨op, .eff (.status command dir env) k, ph⟩) :
    ∃ cp focus faculty, op = .process cp ∧
      Focus.Running cp focus faculty (Sys.performed clients i ls) ∧
      focus.Works faculty (.status command dir env) ∧
      (s.calls i).Owns .focused focus.workItem.id := by
  by_cases hop : ∃ cp, op = .process cp
  · obtain ⟨cp, rfl⟩ := hop
    obtain ⟨⟨focus, faculty, hrunning, hworks⟩, -⟩ := Sys.heeding hrun hi
    obtain ⟨m, rfl⟩ := hrunning.phase (Sys.plays hrun hi)
    exact ⟨cp, focus, faculty, rfl, hrunning, hworks, cp, _, m, hi⟩
  · obtain ⟨-, ha, -⟩ := (Sys.Reachable.lawful ⟨ls, hrun⟩) i _ hi
    cases Op.runsHook_eq_false (fun cp heq => hop ⟨cp, heq⟩) ha

end Planes

end Animus
