import Animus.System.Once
import Animus.System.Trace

/-!
# Focus directories

A `process_work` call makes the directory of its focus in `Focus::create` and
removes it in its last effect. In between every `?` leaves early.

## Main definitions

- `Eff.stops`: the answers `process_work` passes on with `?`
- `Lodging`: what a call has of a focus directory
- `Sys.made`, `Sys.unremoved`, `Sys.drawn`: what a run did to directories and ids
- `Sys.stopped`: a call got an answer that stops it

## Main results

- `processWork_lodging`: a call ends with its directory removed, kept by the file system, or left
- `focus_directory_removed_iff`
-/

namespace Animus

open Effect Effect.Protocol

/-- The answers on which `process_work` returns early. -/
def Eff.stops : {β : Type} → Eff β → β → Bool
  | _, .pool (.pgmqRead _), .error _ => true
  | _, .pool (.selectById _), .error _ => true
  | _, .pool (.selectById _), .ok none => true -- no row with this id
  | _, .pool (.change _ _ _), .error _ => true
  | _, .pool (.change _ _ _), .ok n => n = 0 -- the row is not in the expected state
  | _, .pool (.pgmqArchive _), .error _ => true
  | _, .createDirAll _, .error _ => true
  | _, .toStringPretty _, .error _ => true
  | _, .write _ _, .error _ => true
  | _, _, _ => false

/-- What a `process_work` call has of a focus directory. -/
inductive Lodging
  | outside
  /-- It was stopped with no directory made. -/
  | over
  | named (id : Uuid)
  | made (id : Uuid)
  /-- It was stopped with its directory made. -/
  | left (id : Uuid)
  | removed (id : Uuid)
  /-- The file system refused to remove the directory. -/
  | kept (id : Uuid)

/-- The directory of a focus. -/
def focusDir (cp : ControlPlane) (id : Uuid) : String := joinPath cp.focusBaseDir id.hyphenated

def lodgingAllowed (cp : ControlPlane) : {β : Type} → Lodging → Eff β → Prop
  | _, .outside, .createDirAll _ => False
  | _, .outside, .removeDirAll _ => False
  | _, .outside, _ => True
  | _, .named id, .createDirAll dir => dir = focusDir cp id
  | _, .made id, .removeDirAll dir => dir = focusDir cp id
  | _, .made _, .newV4 => False
  | _, .made _, .createDirAll _ => False
  | _, .made _, _ => True
  | _, _, _ => False

def lodgingNext : {β : Type} → Lodging → Eff β → β → Lodging
  | _, .outside, .newV4, id => .named id
  | _, .outside, e, r => if e.stops r then .over else .outside
  | _, .named id, .createDirAll _, .ok _ => .made id
  | _, .named _, .createDirAll _, .error _ => .over
  | _, .made id, .removeDirAll _, .ok _ => .removed id
  | _, .made id, .removeDirAll _, .error _ => .kept id
  | _, .made id, e, r => if e.stops r then .left id else .made id
  | _, g, _, _ => g

def lodgingProtocol (cp : ControlPlane) : Protocol Eff Lodging where
  answers := Eff.answers
  allowed := lodgingAllowed cp
  next := lodgingNext

/-- A call returns with no directory left to remove, or stopped. -/
def Lodging.returns : Lodging → Bool
  | .named _ | .made _ => false
  | _ => true

def Lodging.Returns {α : Type} (g : Lodging) (_ : α) : Prop := g.returns = true

/-! ### Every call obeys -/

section Calls

variable {cp : ControlPlane} {g : Lodging} {β : Type}

/-- Before the focus and while it is made, other effects that do not stop change nothing. -/
def Lodging.open : Lodging → Bool
  | .outside | .made _ => true
  | _ => false

/-- Where a call is that is stopped. -/
def Lodging.stop : Lodging → Lodging
  | .outside => .over
  | .made id => .left id
  | g => g

/-- Effects that have nothing to do with directories. -/
def Eff.apart : {β : Type} → Eff β → Bool
  | _, .newV4 | _, .createDirAll _ | _, .removeDirAll _ => false
  | _, _ => true

variable (cp) in
theorem lodging_apart (hg : g.open = true) {e : Eff β} (he : e.apart = true) :
    lodgingAllowed cp g e ∧ ∀ r, lodgingNext g e r = if e.stops r then g.stop else g := by
  cases g with
  | outside => cases e <;> first | exact ⟨trivial, fun _ => rfl⟩ | cases he
  | made id => cases e <;> first | exact ⟨trivial, fun _ => rfl⟩ | cases he
  | _ => cases hg

/-- An effect apart from directories that never stops a call. -/
theorem lodging_idle (hg : g.open = true) {e : Eff β} (he : e.apart = true)
    (hgo : ∀ r, e.stops r = false) : Idle (lodgingProtocol cp) g e := by
  obtain ⟨ha, hnext⟩ := lodging_apart cp hg he
  exact ⟨ha, fun r => (hnext r).trans (by rw [hgo r, if_neg Bool.false_ne_true])⟩

theorem lodging_rests (hg : g.open = true) : Rests (lodgingProtocol cp) g := by
  intro β e he
  cases e <;> first | exact lodging_idle hg rfl fun _ => rfl | cases he

theorem getWorkItem_lodging (hg : g.open = true) (id : WorkId) :
    (lodgingProtocol cp).ObeysE (fun g' _ => g' = g) (fun g' _ => g' = g.stop) g
      (getWorkItem id) := by
  have happart : (Eff.pool (.selectById id)).apart = true := rfl
  obtain ⟨ha, hnext⟩ := lodging_apart cp hg happart
  exact getWorkItem_obeys (fun r hr => hr) ha (fun r item _ _ => hnext (.ok (some r)))
    (fun _ _ => hnext (.ok none)) fun d _ _ => hnext (.error d)

/-- An update that moves its row goes on; any other answer stops the call. -/
theorem casUpdate_lodging (hg : g.open = true) {c : Change} {id : WorkId}
    (hc : c.source.canTransitionTo c.target = true) :
    (lodgingProtocol cp).ObeysE (fun g' _ => g' = g) (fun g' _ => g' = g.stop) g
      (casUpdate c id) := by
  have hchange : ∀ now, lodgingAllowed cp g (.pool (.change c id now)) ∧
      ∀ r, lodgingNext g (.pool (.change c id now)) r =
        if Eff.stops (.pool (.change c id now)) r then g.stop else g :=
    fun now => lodging_apart cp hg rfl
  have hnow : Idle (lodgingProtocol cp) g .utcNow := lodging_idle hg rfl fun _ => rfl
  refine casUpdate_obeys_of g (fun hbad => ?_) hnow.1 hnow.2 (fun _ now => (hchange now).1)
    (fun now _ => (hchange now).2 (.ok 0)) (fun now d _ => (hchange now).2 (.error d)) ?_
    (getWorkItem_lodging hg id)
  · rw [hc] at hbad
    cases hbad
  · intro now n hn
    refine ((hchange now).2 (.ok n)).trans (if_neg ?_)
    simpa [Eff.stops] using hn

/-- Making a focus leads into its directory, or stops the call. -/
theorem create_lodging (item : WorkItem) :
    (lodgingProtocol cp).ObeysE (fun g (focus : Focus) => ∃ id, g = .made id ∧
        focus.dir = focusDir cp id ∧ focus.workItem = item)
      Lodging.Returns .outside (Focus.create cp.focusBaseDir item) := by
  unfold Focus.create
  refine .perform_bind trivial fun id _ => ?_
  refine .attempt_bind rfl (fun _ _ => ?_) fun _ _ => rfl
  refine .attempt_bind trivial (fun json _ => ?_) fun _ _ => rfl
  refine .attempt_bind trivial (fun _ _ => ?_) fun _ _ => rfl
  exact .pure ⟨id, rfl, rfl, rfl⟩

theorem retire_lodging (msg : PgmqMessage) (work : WorkId) (result : FocusResult) (id : Uuid) :
    (lodgingProtocol cp).ObeysE (fun g _ => g = .made id) Lodging.Returns (.made id)
      (retire msg work result) := by
  cases result with
  | completed data ms =>
    refine (lodging_idle rfl rfl fun _ => rfl).perform_bind fun _ => ?_
    refine ObeysE.bind ((casUpdate_lodging rfl rfl).mono (fun _ _ h => h) fun _ _ h => h ▸ rfl) ?_
    rintro _ item rfl
    exact .attempt trivial (fun _ _ => rfl) fun _ _ => rfl
  | failed phase error ms =>
    refine (lodging_idle rfl rfl fun _ => rfl).perform_bind fun _ => ?_
    refine ObeysE.bind ((casUpdate_lodging rfl rfl).mono (fun _ _ h => h) fun _ _ h => h ▸ rfl) ?_
    rintro _ item rfl
    exact .pure rfl

theorem runWork_lodging (msg : PgmqMessage) (work : WorkId) (item : WorkItem)
    (faculty : FacultyMeta) :
    (lodgingProtocol cp).ObeysE Lodging.Returns Lodging.Returns .outside
      (runWork cp msg work item faculty) := by
  have claim : ∀ c : Change, c.source.canTransitionTo c.target = true →
      (lodgingProtocol cp).ObeysE (fun g _ => g = .outside) Lodging.Returns .outside
        (casUpdate c work) := fun c hc =>
    (casUpdate_lodging (g := .outside) rfl hc).mono (fun _ _ h => h) fun _ _ h => h ▸ rfl
  unfold runWork
  refine (lodging_idle rfl rfl fun _ => rfl).perform_bind fun _ => ?_
  refine ObeysE.bind (claim _ rfl) ?_
  rintro _ _ rfl
  refine (lodging_idle rfl rfl fun _ => rfl).perform_bind fun _ => ?_
  refine ObeysE.bind (claim _ rfl) ?_
  rintro _ _ rfl
  refine (lodging_idle rfl rfl fun _ => rfl).perform_bind fun _ => ?_
  refine ObeysE.bind (create_lodging item) ?_
  -- from here on only the last effect leaves the directory without stopping
  rintro _ focus ⟨id, rfl, hdir, rfl⟩
  refine ObeysE.bind (.lift (run_rests (lodging_rests rfl) focus faculty trivial rfl)) ?_
  rintro _ result rfl
  refine (lodging_idle rfl rfl fun _ => rfl).perform_bind fun _ => ?_
  refine ObeysE.bind (retire_lodging msg work result id) ?_
  rintro _ _ rfl
  refine ObeysE.bind (Q := Lodging.Returns) (.lift ⟨hdir, fun r _ => ?_⟩) fun _ _ h => .pure h
  cases r <;> rfl

/-- A call ends with its directory removed, kept by the file system, or left. -/
theorem processWork_lodging (cp : ControlPlane) :
    (lodgingProtocol cp).Obeys Lodging.Returns .outside (processWork cp).run := by
  have h : (lodgingProtocol cp).ObeysE Lodging.Returns Lodging.Returns .outside
      (processWork cp) := by
    unfold processWork
    refine (lodging_idle rfl rfl fun _ => rfl).perform_bind fun active => ?_
    split
    · exact .pure rfl
    refine .attempt_bind trivial (fun msg _ => ?_) fun _ _ => rfl
    cases msg with
    | none => exact .pure rfl
    | some msg =>
      dsimp only
      cases extractId msg.message with
      | none => exact .throw rfl
      | some id =>
        refine ObeysE.bind ((getWorkItem_lodging (g := .outside) rfl id).mono (fun _ _ h => h)
          fun _ _ h => h ▸ rfl) ?_
        rintro _ item rfl
        cases cp.registry item.faculty with
        | none => exact .pure rfl
        | some faculty => exact runWork_lodging msg id item faculty
  refine Obeys.mono h fun g r hr => ?_
  cases r with
  | ok _ => exact hr
  | error _ => exact hr

end Calls

/-! ### What a call did -/

/-- The directory an effect made. -/
def Answered.made : Answered → Option String
  | ⟨.createDirAll dir, .ok _⟩ => some dir
  | _ => none

/-- The directory the file system refused to remove. -/
def Answered.unremoved : Answered → Option String
  | ⟨.removeDirAll dir, .error _⟩ => some dir
  | _ => none

/-- The id an effect drew. -/
def Answered.drawn : Answered → Option Uuid
  | ⟨.newV4, id⟩ => some id
  | _ => none

def Answered.stops (a : Answered) : Bool := a.eff.stops a.answer

namespace Lodging

/-- The id of the focus. -/
def id? : Lodging → Option Uuid
  | .outside | .over => none
  | .named id | .made id | .left id | .removed id | .kept id => some id

/-- The id of the focus whose directory was made. -/
def dir? : Lodging → Option Uuid
  | .made id | .left id | .removed id | .kept id => some id
  | _ => none

/-- The id of the focus whose directory could not be removed. -/
def kept? : Lodging → Option Uuid
  | .kept id => some id
  | _ => none

def isStopped : Lodging → Bool
  | .over | .left _ => true
  | _ => false

/-- Is the directory still there? -/
def stands : Lodging → Bool
  | .removed _ => false
  | _ => true

/-- Where a call is says what it did. -/
structure Tells (cp : ControlPlane) (g : Lodging) (t : List Answered) : Prop where
  made : t.filterMap Answered.made = (g.dir?.map (focusDir cp)).toList
  unremoved : t.filterMap Answered.unremoved = (g.kept?.map (focusDir cp)).toList
  stopped : t.any Answered.stops = g.isStopped
  drawn : ∀ id, g.id? = some id → id ∈ t.filterMap Answered.drawn

end Lodging

section Calls

variable {cp : ControlPlane} {g : Lodging} {t : List Answered} {β : Type} {e : Eff β} {r : β}

theorem Lodging.tells_nil (cp : ControlPlane) : Lodging.outside.Tells cp [] :=
  ⟨rfl, rfl, rfl, fun _ h => by cases h⟩

/-- One more effect, and where it leads. -/
theorem Lodging.Tells.snoc (h : g.Tells cp t) {a : Answered} {g' : Lodging}
    (hmade : (g.dir?.map (focusDir cp)).toList ++ a.made.toList =
      (g'.dir?.map (focusDir cp)).toList)
    (hkept : (g.kept?.map (focusDir cp)).toList ++ a.unremoved.toList =
      (g'.kept?.map (focusDir cp)).toList)
    (hstop : (g.isStopped || a.stops) = g'.isStopped)
    (hid : ∀ id, g'.id? = some id → g.id? = some id ∨ a.drawn = some id) :
    g'.Tells cp (t ++ [a]) := by
  have hlast : ∀ {γ : Type} (f : Answered → Option γ), [a].filterMap f = (f a).toList := by
    intro γ f
    cases hf : f a <;> simp [hf]
  constructor
  · rw [List.filterMap_append, h.made, hlast, hmade]
  · rw [List.filterMap_append, h.unremoved, hlast, hkept]
  · rw [List.any_append, h.stopped, ← hstop]
    simp
  · intro id hsome
    rw [List.filterMap_append, hlast, List.mem_append, Option.mem_toList]
    exact (hid id hsome).imp (h.drawn id) fun h => h

/-- What an effect apart from directories tells is whether it stops the call. -/
theorem Lodging.Tells.apart (h : g.Tells cp t) (hg : g.open = true) (he : e.apart = true) :
    (if e.stops r then g.stop else g).Tells cp (t ++ [⟨e, r⟩]) := by
  have hmade : Answered.made ⟨e, r⟩ = none := by
    cases e <;> first | rfl | cases he
  have hkept : Answered.unremoved ⟨e, r⟩ = none := by
    cases e <;> first | rfl | cases he
  have hopen : g.isStopped = false ∧ g.stop.isStopped = true ∧ g.stop.dir? = g.dir? ∧
      g.stop.kept? = g.kept? ∧ g.stop.id? = g.id? := by
    cases g <;> first | exact ⟨rfl, rfl, rfl, rfl, rfl⟩ | cases hg
  obtain ⟨hno, hyes, hdir, hkeep, hid⟩ := hopen
  by_cases hs : e.stops r = true
  · rw [if_pos hs]
    refine h.snoc (by simp [hmade, hdir]) (by simp [hkept, hkeep]) ?_ fun id h => .inl (hid ▸ h)
    rw [hyes, hno]
    exact hs
  · rw [if_neg hs]
    refine h.snoc (by simp [hmade]) (by simp [hkept]) ?_ fun id h => .inl h
    rw [hno]
    exact (Bool.not_eq_true _).mp hs

/-- What a call did goes with where it is. -/
theorem Lodging.Tells.step (h : g.Tells cp t) (ha : lodgingAllowed cp g e) :
    (lodgingNext g e r).Tells cp (t ++ [⟨e, r⟩]) := by
  by_cases hpass : g.open = true ∧ e.apart = true
  · rw [(lodging_apart cp hpass.1 hpass.2).2 r]
    exact h.apart hpass.1 hpass.2
  cases g with
  | outside =>
    cases e with
    | newV4 => exact h.snoc rfl rfl rfl fun _ h => .inr h
    | createDirAll dir | removeDirAll dir => exact ha.elim
    | _ => exact absurd ⟨rfl, rfl⟩ hpass
  | named id =>
    cases e with
    | createDirAll dir =>
      obtain rfl := ha
      cases r with
      | ok _ => exact h.snoc rfl rfl rfl fun _ h => .inl h
      | error d => exact h.snoc rfl rfl rfl fun _ h => by cases h
    | _ => exact ha.elim
  | made id =>
    cases e with
    | removeDirAll dir =>
      obtain rfl := ha
      cases r with
      | ok _ => exact h.snoc rfl rfl rfl fun _ h => .inl h
      | error d => exact h.snoc rfl rfl rfl fun _ h => .inl h
    | newV4 | createDirAll dir => exact ha.elim
    | _ => exact absurd ⟨rfl, rfl⟩ hpass
  | _ => cases e <;> exact ha.elim

end Calls

/-! ### Directories along a run -/

/-- The directory an effect is about. -/
def Eff.dir? : {β : Type} → Eff β → Option String
  | _, .createDirAll dir | _, .removeDirAll dir => some dir
  | _, _ => none

/-- The directory of a call stands or not as the call says. -/
def Lodging.Stands (cp : ControlPlane) (g : Lodging) (dirs : List String) : Prop :=
  ∀ id, g.dir? = some id → (focusDir cp id ∈ dirs ↔ g.stands = true)

/-- An effect leaves the directories it is not about. -/
theorem mem_dirs_iff {β : Type} {e : Eff β} {dir : String} (i : CallId) (env : Env) (w : World)
    (hne : e.dir? ≠ some dir) : dir ∈ (handle i e env w).2.dirs ↔ dir ∈ w.dirs := by
  cases e with
  | createDirAll d =>
    have hd : dir ≠ d := fun h => hne (congrArg some h.symm)
    simp only [handle]
    cases env.file () <;> simp [hd]
  | removeDirAll d =>
    have hd : dir ≠ d := fun h => hne (congrArg some h.symm)
    simp only [handle]
    cases env.file () <;> simp [hd]
  | _ => exact Iff.rfl

section Calls

variable {cp : ControlPlane} {g : Lodging} {β : Type} {e : Eff β}

theorem Lodging.Stands.step (i : CallId) (env : Env) {w : World} (h : g.Stands cp w.dirs)
    (ha : lodgingAllowed cp g e) : (lodgingNext g e (handle i e env w).1).Stands cp
      (handle i e env w).2.dirs := by
  by_cases hpass : g.open = true ∧ e.apart = true
  · have hdir : ∀ dir, e.dir? ≠ some dir := by
      intro dir
      cases e with
      | createDirAll d | removeDirAll d => exact absurd hpass.2 Bool.false_ne_true
      | _ => exact (Option.some_ne_none dir).symm
    have hstop : g.stop.dir? = g.dir? ∧ g.stop.stands = g.stands := by
      cases g <;> exact ⟨rfl, rfl⟩
    intro id hid
    rw [(lodging_apart cp hpass.1 hpass.2).2] at hid ⊢
    rw [mem_dirs_iff i env w (hdir _)]
    split at hid <;> split
    · rw [hstop.2]
      exact h id (hstop.1 ▸ hid)
    · contradiction
    · contradiction
    · exact h id hid
  cases g with
  | outside =>
    cases e with
    | newV4 => exact fun _ hid => by cases hid
    | createDirAll dir | removeDirAll dir => exact ha.elim
    | _ => exact absurd ⟨rfl, rfl⟩ hpass
  | named id =>
    cases e with
    | createDirAll dir =>
      obtain rfl := ha
      simp only [handle]
      cases env.file () with
      | ok _ =>
        rintro _ ⟨⟩
        exact iff_of_true (List.mem_cons_self ..) rfl
      | error d => exact fun _ hid => by cases hid
    | _ => exact ha.elim
  | made id =>
    cases e with
    | removeDirAll dir =>
      obtain rfl := ha
      simp only [handle]
      cases env.file () with
      | ok _ =>
        rintro _ ⟨⟩
        exact iff_of_false (by simp) Bool.false_ne_true
      | error d =>
        rintro _ ⟨⟩
        exact h id rfl
    | newV4 | createDirAll dir => exact ha.elim
    | _ => exact absurd ⟨rfl, rfl⟩ hpass
  | _ => cases e <;> exact ha.elim

/-- A call touches the directory of its own focus only. -/
theorem lodgingAllowed.dir (ha : lodgingAllowed cp g e) {dir : String} (hd : e.dir? = some dir) :
    ∃ id, g.id? = some id ∧ dir = focusDir cp id := by
  cases e with
  | createDirAll d =>
    cases hd
    cases g with
    | named id => exact ⟨id, rfl, ha⟩
    | _ => exact ha.elim
  | removeDirAll d =>
    cases hd
    cases g with
    | made id => exact ⟨id, rfl, ha⟩
    | _ => exact ha.elim
  | _ => cases hd

/-- The other operations touch no directory. -/
theorem Op.dir_eq_none {op : Op} (hop : ∀ cp, op ≠ .process cp) {ph : op.Phase}
    (ha : op.protocol.allowed ph e) : e.dir? = none := by
  cases op with
  | process cp => exact absurd rfl (hop cp)
  | submit new =>
    cases e with
    | createDirAll d | removeDirAll d => cases ph <;> exact ha.elim
    | _ => rfl
  | change c id =>
    cases e with
    | createDirAll d | removeDirAll d => cases ph <;> exact ha.elim
    | _ => rfl

theorem joinPath_hyphenated_inj {base base' : String} {u v : Uuid}
    (h : joinPath base u.hyphenated = joinPath base' v.hyphenated) : u = v := by
  have hchars := congrArg String.toList h
  simp only [joinPath, String.toList_append] at hchars
  have htail : u.hyphenated.toList = v.hyphenated.toList :=
    List.append_inj_right' hchars (by rw [Uuid.length_hyphenated, Uuid.length_hyphenated])
  have hparse := congrArg Uuid.parseStr (String.toList_inj.mp htail)
  rw [Uuid.parseStr_hyphenated, Uuid.parseStr_hyphenated] at hparse
  exact Option.some.inj hparse

end Calls

/-- The directories call `i` made. -/
def Sys.made (clients : Op → Bool) (i : CallId) (ls : List Label) : List String :=
  (Sys.own clients i ls).filterMap Answered.made

/-- The directories the file system did not let call `i` remove. -/
def Sys.unremoved (clients : Op → Bool) (i : CallId) (ls : List Label) : List String :=
  (Sys.own clients i ls).filterMap Answered.unremoved

/-- Did call `i` get an answer on which it returns early? -/
def Sys.stopped (clients : Op → Bool) (i : CallId) (ls : List Label) : Bool :=
  (Sys.own clients i ls).any Answered.stops

/-- The ids the calls of a run drew. -/
def Sys.drawn (clients : Op → Bool) (ls : List Label) : List (CallId × Uuid) :=
  (Sys.trace clients ls).filterMap fun x => x.2.drawn.map (x.1, ·)

/-- No two calls of a run drew the same id: what `Uuid::new_v4` promises. -/
def Sys.DistinctIds (clients : Op → Bool) (ls : List Label) : Prop :=
  ((Sys.drawn clients ls).map Prod.snd).Nodup

section Runs

variable {clients : Op → Bool} {s s' : Sys} {l : Label} {ls : List Label} {i j : CallId}

theorem Sys.mem_drawn {id : Uuid}
    (h : id ∈ (Sys.own clients i ls).filterMap Answered.drawn) :
    (i, id) ∈ Sys.drawn clients ls := by
  obtain ⟨a, ha, hid⟩ := List.mem_filterMap.mp h
  obtain ⟨⟨j, b⟩, hx, rfl⟩ := List.mem_map.mp ha
  obtain ⟨hmem, hj⟩ := List.mem_filter.mp hx
  obtain rfl : j = i := of_decide_eq_true hj
  exact List.mem_filterMap.mpr ⟨(j, b), hmem, by rw [hid]; rfl⟩

theorem Sys.DistinctIds.eq (h : Sys.DistinctIds clients ls) {id : Uuid}
    (hi : id ∈ (Sys.own clients i ls).filterMap Answered.drawn)
    (hj : id ∈ (Sys.own clients j ls).filterMap Answered.drawn) : i = j :=
  congrArg Prod.fst (List.inj_on_of_nodup_map h (Sys.mem_drawn hi) (Sys.mem_drawn hj) rfl)

theorem Sys.DistinctIds.of_snoc (hrun : (system clients).Run Sys.initial ls s)
    (h : s.step clients l = some s') (hids : Sys.DistinctIds clients (ls ++ [l])) :
    Sys.DistinctIds clients ls := by
  rw [Sys.DistinctIds, Sys.drawn, Sys.trace_snoc hrun h, List.filterMap_append,
    List.map_append] at hids
  exact hids.of_append_left

variable (clients ls s i) in
/-- Where a call with the program `p` is, what it did, and whether its directory stands. -/
structure Sys.LodgedAt (cp : ControlPlane) (p : Prog Eff (Except Error Unit)) (g : Lodging) :
    Prop where
  obeys : (lodgingProtocol cp).Obeys Lodging.Returns g p
  tells : g.Tells cp (Sys.own clients i ls)
  stands : Sys.DistinctIds clients ls → g.Stands cp s.world.dirs

variable (clients ls s) in
/-- Every `process_work` call in progress is somewhere. -/
def Sys.Lodged : Prop :=
  ∀ i cp p ph, s.calls i = .live ⟨.process cp, p, ph⟩ → ∃ g, Sys.LodgedAt clients s ls i cp p g

section Step

variable (hrun : (system clients).Run Sys.initial ls s) (h : s.step clients l = some s')

include hrun h

/-- The effect of a call, for the call itself. -/
theorem Sys.LodgedAt.exec {cp : ControlPlane} {g : Lodging} {env : Env} {β : Type} {e : Eff β}
    {k : β → Prog Eff (Except Error Unit)} (hg : Sys.LodgedAt clients s ls i cp (.eff e k) g)
    (ht : s.traced l = [(i, ⟨e, (handle i e env s.world).1⟩)])
    (hw : s'.world = (handle i e env s.world).2) :
    Sys.LodgedAt clients s' (ls ++ [l]) i cp (k (handle i e env s.world).1)
      (lodgingNext g e (handle i e env s.world).1) := by
  obtain ⟨ha, hk⟩ := hg.obeys
  refine ⟨hk _ (handle_answers i e env s.world), ?_, fun hids => ?_⟩
  · rw [Sys.own_snoc_self hrun h ht]
    exact hg.tells.step ha
  · rw [hw]
    exact (hg.stands (hids.of_snoc hrun h)).step i env ha

/-- The effect of a call, for another call. -/
theorem Sys.LodgedAt.exec_ne (hlodged : Sys.Lodged clients s ls) {cp : ControlPlane} {g : Lodging}
    {p : Prog Eff (Except Error Unit)} (hg : Sys.LodgedAt clients s ls i cp p g) {env : Env}
    {op : Op} {β : Type} {e : Eff β} {k : β → Prog Eff (Except Error op.Result)} {ph : op.Phase}
    (hj : s.calls j = .live ⟨op, .eff e k, ph⟩) (hne : j ≠ i)
    (ht : s.traced l = [(j, ⟨e, (handle j e env s.world).1⟩)])
    (hw : s'.world = (handle j e env s.world).2) :
    Sys.LodgedAt clients s' (ls ++ [l]) i cp p g := by
  have hown := Sys.own_snoc_ne hrun h ht hne
  refine ⟨hg.obeys, hown ▸ hg.tells, fun hids id hid => ?_⟩
  have hbefore := hids.of_snoc hrun h
  -- the other call has another id, so another directory
  have hother : e.dir? ≠ some (focusDir cp id) := by
    intro hdir
    obtain ⟨-, ha, -⟩ := (Sys.Reachable.lawful ⟨ls, hrun⟩) j _ hj
    by_cases hop : ∃ cp', op = .process cp'
    · obtain ⟨cp', rfl⟩ := hop
      obtain ⟨g', hg'⟩ := hlodged j cp' _ ph hj
      obtain ⟨id', hid', heq⟩ := hg'.obeys.1.dir hdir
      obtain rfl := joinPath_hyphenated_inj heq
      have hsome : g.id? = some id := by cases g <;> first | exact hid | cases hid
      exact hne (hbefore.eq (hg'.tells.drawn id hid') (hg.tells.drawn id hsome))
    · rw [Op.dir_eq_none (fun cp' heq => hop ⟨cp', heq⟩) ha] at hdir
      cases hdir
  rw [hw, mem_dirs_iff j env s.world hother]
  exact hg.stands hbefore id hid

theorem Sys.Lodged.step (hlodged : Sys.Lodged clients s ls) :
    Sys.Lodged clients s' (ls ++ [l]) := by
  intro i cp p ph hi
  have hr : s.Reachable clients := ⟨ls, hrun⟩
  obtain ⟨hsame, hl⟩ | ⟨hidle, rfl, ht⟩ | ⟨env, β, e, k, ph₀, rfl, hfrom, rfl, rfl⟩ := hr.came h hi
  · obtain ⟨g, hg⟩ := hlodged i cp p ph hsame
    obtain ⟨j, env, op, β, e, k, ph', rfl, hj, rfl, ht⟩ | ⟨-, ht, hdirs⟩ := traced_cases h
    · exact ⟨g, hg.exec_ne hrun h hlodged hj (fun hji => hl env (by rw [hji])) ht rfl⟩
    · refine ⟨g, hg.obeys, Sys.own_snoc_quiet hrun h ht i ▸ hg.tells, fun hids => ?_⟩
      rw [hdirs]
      exact hg.stands (hids.of_snoc hrun h)
  · -- a call that begins is outside, and has done nothing
    refine ⟨.outside, processWork_lodging cp, ?_, fun _ _ hid => by cases hid⟩
    rw [Sys.own_snoc_quiet hrun h ht, Sys.own_nil hrun hidle]
    exact Lodging.tells_nil cp
  · obtain ⟨g, hg⟩ := hlodged i cp _ ph₀ hfrom
    exact ⟨_, hg.exec hrun h (Sys.traced_exec hfrom) rfl⟩

end Step

theorem Sys.lodged (hrun : (system clients).Run Sys.initial ls s) : Sys.Lodged clients s ls :=
  Lts.Run.snoc_induction (I := fun xs m => Sys.Lodged clients m xs)
    (fun _ _ _ _ hi => by cases hi) (fun _ _ _ _ hxs hm hstep => hm.step hxs hstep) hrun

/-- When a `process_work` call returns, the focus directory it made and may remove is gone exactly
where none of its effects was answered so that it returned early. -/
theorem focus_directory_removed_iff (hrun : (system clients).Run Sys.initial ls s)
    (hids : Sys.DistinctIds clients ls) {cp : ControlPlane} {a : Except Error Unit}
    {ph : PlanePhase} (hi : s.calls i = .live ⟨.process cp, .ret a, ph⟩) {dir : String}
    (hmade : dir ∈ Sys.made clients i ls) (hremovable : dir ∉ Sys.unremoved clients i ls) :
    dir ∉ s.world.dirs ↔ Sys.stopped clients i ls = false := by
  obtain ⟨g, hg⟩ := Sys.lodged hrun i cp _ ph hi
  have hreturns : g.returns = true := hg.obeys
  rw [Sys.made, hg.tells.made] at hmade
  rw [Sys.unremoved, hg.tells.unremoved] at hremovable
  rw [Sys.stopped, hg.tells.stopped]
  obtain ⟨id, hid, rfl⟩ := Option.map_eq_some_iff.mp (Option.mem_toList.mp hmade)
  rw [hg.stands hids id hid]
  cases g with
  | left id => exact iff_of_false (fun h => h rfl) (fun h => by cases h)
  | removed id => exact iff_of_true Bool.false_ne_true rfl
  | kept id' =>
    cases hid
    exact absurd (List.mem_singleton_self _) hremovable
  | made id => cases hreturns
  | _ => cases hid

end Runs

/-! ### Samples -/

/-- The directory of the focus with id 2. -/
def sampleDir : String := focusDir samplePlane (.ofNat 2)

/-- A submission whose focus runs to its end. -/
def housedRun : List Label := focusedRun ++ List.replicate 12 (.exec 1 {})

theorem focus_directory_removed_iff_housed :
    (sampleDir ∉ ((system planeClients).replayed Sys.initial housedRun).world.dirs ↔
      Sys.stopped planeClients 1 housedRun = false) ∧
    Sys.stopped planeClients 1 housedRun = false := by
  have hdrawn : Sys.drawn planeClients housedRun = [(0, .ofNat 1), (1, .ofNat 2)] := rfl
  have hmade : Sys.made planeClients 1 housedRun = [sampleDir] := rfl
  have hkept : Sys.unremoved planeClients 1 housedRun = [] := rfl
  have hids : Sys.DistinctIds planeClients housedRun := by
    rw [Sys.DistinctIds, hdrawn]
    decide
  exact ⟨focus_directory_removed_iff (Lts.run_replayed rfl) hids rfl
    (hmade ▸ List.mem_singleton_self _) (hkept ▸ List.not_mem_nil), rfl⟩

/-- A submission whose focus directory takes no work.json. -/
def unwrittenRun : List Label :=
  Label.alone 0 (.submit sampleItem) { uuid := .ofNat 1 } 9 ++
    .start 1 (.process samplePlane) :: List.replicate 15 (.exec 1 { uuid := .ofNat 2 }) ++
    [.exec 1 { io := some "No space left on device" }]

/-- The call returns the error of the write, and its directory stays. -/
theorem focus_directory_is_left :
    ¬ ∀ (ls : List Label) (s : Sys) (i : CallId) (cp : ControlPlane) (a : Except Error Unit)
      (ph : PlanePhase) (dir : String), (system planeClients).Run Sys.initial ls s →
      Sys.DistinctIds planeClients ls → s.calls i = .live ⟨.process cp, .ret a, ph⟩ →
      dir ∈ Sys.made planeClients i ls → dir ∉ Sys.unremoved planeClients i ls →
      dir ∉ s.world.dirs := by
  intro h
  have hdrawn : Sys.drawn planeClients unwrittenRun = [(0, .ofNat 1), (1, .ofNat 2)] := rfl
  have hmade : Sys.made planeClients 1 unwrittenRun = [sampleDir] := rfl
  have hkept : Sys.unremoved planeClients 1 unwrittenRun = [] := rfl
  have hdirs : ((system planeClients).replayed Sys.initial unwrittenRun).world.dirs =
      [sampleDir] := rfl
  have hids : Sys.DistinctIds planeClients unwrittenRun := by
    rw [Sys.DistinctIds, hdrawn]
    decide
  refine h unwrittenRun _ 1 samplePlane _ _ sampleDir (Lts.run_replayed rfl) hids rfl
    (hmade ▸ List.mem_singleton_self _) (hkept ▸ List.not_mem_nil) ?_
  rw [hdirs]
  exact List.mem_singleton_self _

end Animus
