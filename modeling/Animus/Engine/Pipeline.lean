import Animus.Engine.Focus
import Animus.Lib.Transcript

/-!
# What a focus run did

From the result of a focus run back to its transcript: which hooks ran, how
each ended, and what was read of the outcome.

## Main definitions

- `Focus.Ran`: an event is the run of a hook of a focus
- `Focus.Succeeded`: the events are successful runs of hooks, in their order
- `Focus.Stopped`: why a phase failed
- `Focus.Read`, `Focus.Unread`: what became of the outcome file
- `Focus.Works`: an effect of a focus run after its first

## Main results

- `run_completed`: a completed run ran every hook with success and read its data
- `run_failed`: a failed run stopped at the first hook that failed, or found no outcome
- `run_works`: a focus run is its first effect, then hooks of its faculty and what surrounds them
-/

namespace Animus

open Effect Effect.Fallible

/-- Is the effect the run of a hook process? -/
def Eff.runsHook : {β : Type} → Eff β → Bool
  | _, .status _ _ _ => true
  | _, _ => false

/-- The runs of hook processes among some events. -/
def hookRuns (t : List (Event Eff)) : List (Event Eff) := t.filter (·.eff.runsHook)

@[simp] theorem hookRuns_append (t t' : List (Event Eff)) :
    hookRuns (t ++ t') = hookRuns t ++ hookRuns t' := List.filter_append ..

theorem hookRuns_eq_nil {t : List (Event Eff)} (h : ∀ x ∈ t, x.eff.runsHook = false) :
    hookRuns t = [] :=
  List.filter_eq_nil_iff.mpr fun x hx => by rw [h x hx]; exact Bool.false_ne_true

namespace Focus

/-- The path a command is run by. -/
def Resolved (command absCommand : String) : Prop :=
  if isRelative command then ∃ cwd, absCommand = joinPath cwd command else absCommand = command

/-- The variables a hook is run with. -/
def environment (focus : Focus) (phase : String) : List (String × String) :=
  [("ANIMUS_FOCUS_DIR", focus.dir), ("ANIMUS_FACULTY", focus.workItem.faculty),
    ("ANIMUS_WORK_ID", focus.workItem.id.hyphenated), ("ANIMUS_PHASE", phase)]

/-- The event is the run of a hook, a phase with its command, in the directory of the focus. -/
def Ran (focus : Focus) (answer : Except String (Option ℤ)) (hook : String × String)
    (x : Event Eff) : Prop :=
  ∃ absCommand, Resolved hook.2 absCommand ∧
    x = ⟨.status absCommand focus.dir (focus.environment hook.1), answer⟩

/-- The events are the hooks, one after the other, each ended with exit code 0. -/
def Succeeded (focus : Focus) (hooks : List (String × String)) (xs : List (Event Eff)) : Prop :=
  List.Forall₂ (focus.Ran (.ok (some 0))) hooks xs

/-- The file an outcome is read from, by whether consolidate-out.json exists. -/
def outcomePath (focus : Focus) (exist : Bool) : String :=
  if exist then joinPath focus.dir "consolidate-out.json" else joinPath focus.dir "engage-out.json"

/-- Data was read from the outcome file there is. -/
def Read (focus : Focus) (data : Json) (t : List (Event Eff)) : Prop :=
  ∃ exist content,
    (⟨.fileExists (joinPath focus.dir "consolidate-out.json"), exist⟩ : Event Eff) ∈ t ∧
    (⟨.readToString (focus.outcomePath exist), .ok content⟩ : Event Eff) ∈ t ∧
    (⟨.parseJson content, .ok data⟩ : Event Eff) ∈ t

/-- No data was read from the outcome file there is, for the reason an error gives. -/
def Unread (focus : Focus) (error : String) (t : List (Event Eff)) : Prop :=
  ∃ exist,
    (⟨.fileExists (joinPath focus.dir "consolidate-out.json"), exist⟩ : Event Eff) ∈ t ∧
    ((∃ e, (⟨.readToString (focus.outcomePath exist), .error e⟩ : Event Eff) ∈ t ∧
      error = "missing consolidate-out.json: " ++ e) ∨
    ∃ content e, (⟨.readToString (focus.outcomePath exist), .ok content⟩ : Event Eff) ∈ t ∧
      (⟨.parseJson content, .error e⟩ : Event Eff) ∈ t ∧
      error = "bad consolidate-out.json: " ++ e)

theorem Read.mono {focus : Focus} {data : Json} {t t' : List (Event Eff)} (h : focus.Read data t)
    (hsub : t ⊆ t') : focus.Read data t' := by
  obtain ⟨exist, content, hexist, hcontent, hdata⟩ := h
  exact ⟨exist, content, hsub hexist, hsub hcontent, hsub hdata⟩

theorem Unread.mono {focus : Focus} {error : String} {t t' : List (Event Eff)}
    (h : focus.Unread error t) (hsub : t ⊆ t') : focus.Unread error t' := by
  obtain ⟨exist, hexist, ⟨e, hread, herror⟩ | ⟨content, e, hread, hparse, herror⟩⟩ := h
  · exact ⟨exist, hsub hexist, .inl ⟨e, hsub hread, herror⟩⟩
  · exact ⟨exist, hsub hexist, .inr ⟨content, e, hsub hread, hsub hparse, herror⟩⟩

/-- Why a phase failed: its process ended otherwise, did not run, or its path was not found. -/
inductive Stopped (focus : Focus) (t : List (Event Eff)) (hook : String × String) :
    String → List (Event Eff) → Prop
  | exited {code : Option ℤ} {x : Event Eff} (hcode : code ≠ some 0)
      (hran : focus.Ran (.ok code) hook x) :
      Stopped focus t hook (Error.other
        (hook.1 ++ " hook exited with status " ++ toString (code.getD (-1)))).toText [x]
  | unstarted {e : String} {x : Event Eff} (hran : focus.Ran (.error e) hook x) :
      Stopped focus t hook (Error.io e).toText [x]
  | unresolved {e : String} (hrel : isRelative hook.2 = true)
      (hcwd : (⟨.currentDir, .error e⟩ : Event Eff) ∈ t) :
      Stopped focus t hook (Error.io e).toText []

theorem Stopped.mono {focus : Focus} {t t' : List (Event Eff)} {hook : String × String}
    {error : String} {ys : List (Event Eff)} (h : focus.Stopped t hook error ys) (hsub : t ⊆ t') :
    focus.Stopped t' hook error ys := by
  cases h with
  | exited hcode hran => exact .exited hcode hran
  | unstarted hran => exact .unstarted hran
  | unresolved hrel hcwd => exact .unresolved hrel (hsub hcwd)

section Yields

variable {focus : Focus} {t : List (Event Eff)}

theorem yields_resolveCommand {command : String} {r : Except Error String} :
    Yields (resolveCommand command).run t r → hookRuns t = [] ∧ match r with
      | .ok absCommand => Resolved command absCommand
      | .error e => isRelative command = true ∧
        ∃ e', e = .io e' ∧ (⟨.currentDir, .error e'⟩ : Event Eff) ∈ t := by
  intro h
  unfold resolveCommand at h
  by_cases hrel : isRelative command = true
  · rw [if_pos hrel, yields_run_bind] at h
    obtain ⟨t₁, t₂, cwd, rfl, h₁, h₂⟩ | ⟨e, rfl, h⟩ := h
    · obtain ⟨a, rfl, ha⟩ := yields_attempt.mp h₁
      obtain ⟨rfl, rfl⟩ := h₂
      refine ⟨rfl, ?_⟩
      show Resolved command (joinPath cwd command)
      rw [Resolved, if_pos hrel]
      exact ⟨cwd, rfl⟩
    · obtain ⟨a, rfl, ha⟩ := yields_attempt.mp h
      refine ⟨rfl, ?_⟩
      cases a with
      | ok a => cases ha
      | error e' =>
        cases ha
        exact ⟨hrel, e', rfl, List.mem_singleton_self _⟩
  · rw [if_neg hrel] at h
    obtain ⟨rfl, rfl⟩ := h
    refine ⟨rfl, ?_⟩
    show Resolved command command
    rw [Resolved, if_neg hrel]

/-- A hook that succeeded ran once, with exit code 0; one that failed says why. -/
theorem yields_runHook {phase command : String} {r : Except Error Unit} :
    Yields (focus.runHook phase command).run t r → match r with
      | .ok _ => ∃ x, hookRuns t = [x] ∧ focus.Ran (.ok (some 0)) (phase, command) x
      | .error e => focus.Stopped t (phase, command) e.toText (hookRuns t) := by
  intro h
  unfold runHook at h
  obtain ⟨t₁, t₂, absCommand, rfl, hres, hrun⟩ | ⟨e, rfl, hres⟩ := yields_run_bind.mp h
  · obtain ⟨hnone, hres⟩ := yields_resolveCommand hres
    rw [hookRuns_append, hnone, List.nil_append]
    obtain ⟨t₃, t₄, code, rfl, hstatus, hend⟩ | ⟨e, rfl, hstatus⟩ := yields_run_bind.mp hrun
    · obtain ⟨a, rfl, ha⟩ := yields_attempt.mp hstatus
      cases a with
      | error e => cases ha
      | ok a =>
        cases ha
        have hran : focus.Ran (.ok code) (phase, command) _ := ⟨absCommand, hres, rfl⟩
        by_cases hcode : code = some 0
        · rw [if_pos hcode] at hend
          obtain ⟨rfl, rfl⟩ := hend
          exact ⟨_, rfl, hcode ▸ hran⟩
        · rw [if_neg hcode] at hend
          obtain ⟨rfl, rfl⟩ := hend
          exact .exited hcode hran
    · obtain ⟨a, rfl, ha⟩ := yields_attempt.mp hstatus
      cases a with
      | ok a => cases ha
      | error e' =>
        cases ha
        exact .unstarted ⟨absCommand, hres, rfl⟩
  · obtain ⟨hnone, hrel, e', rfl, hcwd⟩ := yields_resolveCommand hres
    rw [hnone]
    exact .unresolved hrel hcwd

/-- The phases before the one that failed succeeded, and those after it did not run. -/
theorem yields_runPhases {hooks : List (String × String)} {r : Option FocusResult} :
    Yields (focus.runPhases hooks) t r → match r with
      | none => focus.Succeeded hooks (hookRuns t)
      | some result => ∃ before hook after xs ys error ms, hooks = before ++ hook :: after ∧
          hookRuns t = xs ++ ys ∧ focus.Succeeded before xs ∧ focus.Stopped t hook error ys ∧
          result = .failed hook.1 error ms := by
  intro h
  induction hooks generalizing t r with
  | nil =>
    obtain ⟨rfl, rfl⟩ := h
    exact .nil
  | cons hook hooks ih =>
    obtain ⟨t₁, t₂, a, rfl, hhook, h⟩ := yields_bind.mp h
    have hfirst := yields_runHook hhook
    rw [hookRuns_append]
    cases a with
    | ok u =>
      obtain ⟨x, hx, hran⟩ := hfirst
      have hrest := ih h
      rw [hx]
      cases r with
      | none => exact .cons hran hrest
      | some result =>
        obtain ⟨before, hook', after, xs, ys, error, ms, rfl, hruns, hbefore, hstop, rfl⟩ := hrest
        exact ⟨hook :: before, hook', after, x :: xs, ys, error, ms, rfl,
          congrArg (x :: ·) hruns, .cons hran hbefore,
          hstop.mono (List.subset_append_right ..), rfl⟩
    | error e =>
      obtain ⟨t₃, t₄, ms, rfl, hms, rfl, rfl⟩ := yields_bind.mp h
      rw [yields_perform.mp hms]
      exact ⟨[], hook, hooks, [], hookRuns t₁, e.toText, ms, rfl,
        List.append_nil _, .nil, hfirst.mono (List.subset_append_left ..), rfl⟩

/-- Reading the outcome runs no hook. -/
theorem yields_readOutcome {result : FocusResult} :
    Yields focus.readOutcome t result → hookRuns t = [] ∧ match result with
      | .completed data _ => focus.Read data t
      | .failed phase error _ => phase = "consolidate" ∧ focus.Unread error t := by
  rintro ⟨exist, _, rfl, a, _, rfl, h⟩
  cases a with
  | error e =>
    obtain ⟨ms, _, rfl, rfl, rfl⟩ := h
    exact ⟨rfl, rfl, exist, .head _, .inl ⟨e, .tail _ (.head _), rfl⟩⟩
  | ok content =>
    obtain ⟨b, _, rfl, h⟩ := h
    cases b with
    | ok data =>
      obtain ⟨ms, _, rfl, rfl, rfl⟩ := h
      exact ⟨rfl, exist, content, .head _, .tail _ (.head _), .tail _ (.tail _ (.head _))⟩
    | error e =>
      obtain ⟨ms, _, rfl, rfl, rfl⟩ := h
      exact ⟨rfl, rfl, exist, .head _,
        .inr ⟨content, e, .tail _ (.head _), .tail _ (.tail _ (.head _)), rfl⟩⟩

/-- The result of a focus run is that of its phases, or, where they all succeeded, that of reading
the outcome. -/
theorem yields_run {faculty : FacultyMeta} {result : FocusResult}
    (h : Yields (focus.run faculty) t result) :
    ∃ t' u, hookRuns t = hookRuns t' ∧ t' ⊆ t ∧ u ⊆ t ∧
      (Yields (focus.runPhases (phases faculty)) t' (some result) ∨
        Yields (focus.runPhases (phases faculty)) t' none ∧ Yields focus.readOutcome u result) := by
  obtain ⟨t₁, t₂, _, rfl, hstart, hrest⟩ := yields_bind.mp h
  rw [yields_perform.mp hstart]
  obtain ⟨t₃, t₄, failure, rfl, hphases, hend⟩ := yields_bind.mp hrest
  cases failure with
  | some failure =>
    obtain ⟨rfl, rfl⟩ := hend
    refine ⟨t₃, [], by rw [List.append_nil]; rfl, fun x hx => ?_, List.nil_subset _, .inl hphases⟩
    exact List.mem_append_right _ (List.mem_append_left _ hx)
  | none =>
    refine ⟨t₃, t₄, ?_, fun x hx => ?_, fun x hx => ?_, .inr ⟨hphases, hend⟩⟩
    · rw [hookRuns_append, hookRuns_append, (yields_readOutcome hend).1, List.append_nil]
      rfl
    · exact List.mem_append_right _ (List.mem_append_left _ hx)
    · exact List.mem_append_right _ (List.mem_append_right _ hx)

/-- A completed focus ran every hook of its faculty in order, each with success, and its data was
read from the outcome file. -/
theorem run_completed {faculty : FacultyMeta} {data : Json} {ms : UInt64}
    (h : Yields (focus.run faculty) t (.completed data ms)) :
    focus.Succeeded (phases faculty) (hookRuns t) ∧ focus.Read data t := by
  obtain ⟨t', u, hruns, -, hsub, hphases | ⟨hphases, hread⟩⟩ := yields_run h
  · obtain ⟨_, _, _, _, _, _, _, _, _, _, _, heq⟩ := yields_runPhases hphases
    cases heq
  · rw [hruns]
    exact ⟨yields_runPhases hphases, (yields_readOutcome hread).2.mono hsub⟩

/-- A failed focus stopped at the first hook that failed, and ran none after it, or ran all of them
with success and found no outcome to read. -/
theorem run_failed {faculty : FacultyMeta} {phase error : String} {ms : UInt64}
    (h : Yields (focus.run faculty) t (.failed phase error ms)) :
    (∃ before hook after xs ys, phases faculty = before ++ hook :: after ∧ hook.1 = phase ∧
      hookRuns t = xs ++ ys ∧ focus.Succeeded before xs ∧ focus.Stopped t hook error ys) ∨
    focus.Succeeded (phases faculty) (hookRuns t) ∧ phase = "consolidate" ∧
      focus.Unread error t := by
  obtain ⟨t', u, hruns, hphase, hsub, hphases | ⟨hphases, hread⟩⟩ := yields_run h
  · obtain ⟨before, hook, after, xs, ys, _, _, hhooks, hxs, hbefore, hstop, heq⟩ :=
      yields_runPhases hphases
    cases heq
    exact .inl ⟨before, hook, after, xs, ys, hhooks, rfl, hruns.trans hxs, hbefore,
      hstop.mono hphase⟩
  · obtain ⟨-, hphase, hwhy⟩ := yields_readOutcome hread
    rw [hruns]
    exact .inr ⟨yields_runPhases hphases, hphase, hwhy.mono hsub⟩

end Yields

/-! ### What a focus run performs -/

/-- What a focus run performs after its first effect: the hooks of its faculty, run in its
directory for its item, and what finds them and reads what they left. -/
def Works (focus : Focus) (faculty : FacultyMeta) : {β : Type} → Eff β → Prop
  | _, .status command dir env => ∃ hook ∈ phases faculty,
    Resolved hook.2 command ∧ dir = focus.dir ∧ env = focus.environment hook.1
  | _, .elapsedMs | _, .currentDir | _, .fileExists _ | _, .readToString _ | _, .parseJson _ => True
  | _, _ => False

section Works

open Effect.Protocol

variable {answers : {β : Type} → Eff β → β → Prop} {focus : Focus} {faculty : FacultyMeta}

theorem resolveCommand_works (command : String) :
    (kind answers (focus.Works faculty)).ObeysE (fun _ => Resolved command) (fun _ _ => True) ()
      (resolveCommand command) := by
  unfold resolveCommand
  by_cases hrel : isRelative command = true
  · rw [if_pos hrel]
    refine .attempt_bind trivial (fun cwd _ => .pure ?_) fun _ _ => trivial
    rw [Resolved, if_pos hrel]
    exact ⟨cwd, rfl⟩
  · rw [if_neg hrel]
    refine .pure ?_
    rw [Resolved, if_neg hrel]

theorem runHook_works {hook : String × String} (hmem : hook ∈ phases faculty) :
    (kind answers (focus.Works faculty)).ObeysE (fun _ _ => True) (fun _ _ => True) ()
      (focus.runHook hook.1 hook.2) := by
  unfold runHook
  refine ObeysE.bind (resolveCommand_works hook.2) fun _ absCommand hres => ?_
  refine .attempt_bind ⟨hook, hmem, hres, rfl, rfl⟩ (fun code _ => ?_) fun _ _ => trivial
  split
  · exact .pure trivial
  · exact .throw trivial

theorem runPhases_works {hooks : List (String × String)} (hmem : hooks ⊆ phases faculty) :
    (kind answers (focus.Works faculty)).Obeys (fun _ _ => True) () (focus.runPhases hooks) := by
  induction hooks with
  | nil => exact trivial
  | cons hook hooks ih =>
    obtain ⟨hfirst, hrest⟩ := List.cons_subset.mp hmem
    refine Obeys.bind (runHook_works hfirst) fun _ r _ => ?_
    cases r with
    | ok _ => exact ih hrest
    | error e => exact ⟨trivial, fun _ _ => trivial⟩

theorem readOutcome_works :
    (kind answers (focus.Works faculty)).Obeys (fun _ _ => True) () focus.readOutcome := by
  refine ⟨trivial, fun _ _ => ⟨trivial, fun r _ => ?_⟩⟩
  cases r with
  | error e => exact ⟨trivial, fun _ _ => trivial⟩
  | ok content =>
    refine ⟨trivial, fun r _ => ?_⟩
    cases r <;> exact ⟨trivial, fun _ _ => trivial⟩

/-- A focus run is its first effect, then hooks of its faculty and what surrounds them. -/
theorem run_works (answers : {β : Type} → Eff β → β → Prop) (focus : Focus)
    (faculty : FacultyMeta) :
    ∃ p, focus.run faculty = .eff (.focusStart focus.workItem.id) (fun _ => p) ∧
      (kind answers (focus.Works faculty)).Obeys (fun _ _ => True) () p := by
  refine ⟨_, rfl, Obeys.bind (runPhases_works (List.Subset.refl _)) fun _ failure _ => ?_⟩
  cases failure with
  | some failure => exact trivial
  | none => exact readOutcome_works

end Works

end Focus

end Animus
