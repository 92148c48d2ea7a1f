import Animus.Engine.Focus
import Mathlib.Data.List.DropRight
import Mathlib.Data.List.Induction

/-!
# Faculty registry

All `.toml` files of a directory, read in the order in which the directory lists
them, into a map by the name each file gives. `tomlFromStr` stands for
`toml::from_str`.

## Main definitions

- `Faculty`: the metadata of a faculty as its file gives it
- `FacultyRegistry.loadFromDir`
- `SameLoad`: two loads that cannot be told apart

## Main results

- `get_insertAll`: what the registry has for a name
- `load_order_irrelevant_iff`: when the order does not matter
-/

namespace Animus

deriving instance DecidableEq for FacultyMeta

/-- Recovery hook with retry limit. -/
structure RecoverConfig where
  command : String
  maxAttempts : UInt32
  deriving DecidableEq

/-- The metadata of a faculty as its file gives it; what a focus does not use comes last. -/
structure Faculty extends FacultyMeta where
  concurrent : Bool := false
  isolation : Option String := none
  recover : RecoverConfig
  deriving DecidableEq

/-- An entry of a directory, and what reading the file gives. -/
structure DirEntry where
  fileName : String
  content : Except String String

/-- `path.extension()`: what follows the last dot, if something comes before it. -/
def DirEntry.extension (entry : DirEntry) : Option String :=
  let before := entry.fileName.toList.rdropWhile (· ≠ '.')
  if entry.fileName = ".." ∨ before.dropLast = [] then none
  else some (String.ofList (entry.fileName.toList.rtakeWhile (· ≠ '.')))

/-- Registry of loaded faculties, indexed by name. -/
structure FacultyRegistry where
  faculties : String → Option Faculty

namespace FacultyRegistry

/-- Create an empty registry with no faculties. -/
def empty : FacultyRegistry := ⟨fun _ => none⟩

def insert (reg : FacultyRegistry) (f : Faculty) : FacultyRegistry :=
  ⟨fun name => if f.name = name then some f else reg.faculties name⟩

/-- Look up a faculty by name. -/
def get (reg : FacultyRegistry) (name : String) : Option Faculty := reg.faculties name

section Load

variable (tomlFromStr : String → Except String Faculty) (dir : String)

/-- The faculty of a directory entry; files of another kind have none. -/
def readEntry (entry : Except String DirEntry) : Except Error (Option Faculty) :=
  match entry with
  | .error e => .error (.io e)
  | .ok entry =>
    if entry.extension = some "toml" then
      match entry.content with
      | .error e => .error (.io e)
      | .ok content => match tomlFromStr content with
        | .error e => .error (.config
            s!"bad faculty config {joinPath dir entry.fileName}: {e}")
        | .ok f => .ok (some f)
    else .ok none

/-- The loop over the entries; the first one that fails ends it. -/
def readEntries (reg : FacultyRegistry) :
    List (Except String DirEntry) → Except Error FacultyRegistry
  | [] => .ok reg
  | entry :: entries => match readEntry tomlFromStr dir entry with
    | .error e => .error e
    | .ok none => readEntries reg entries
    | .ok (some f) => readEntries (reg.insert f) entries

/-- Load all `.toml` files from a directory and build the registry. -/
def loadFromDir (listing : Except String (List (Except String DirEntry))) :
    Except Error FacultyRegistry :=
  match listing with
  | .error e => .error (.config s!"cannot read faculty dir {dir}: {e}")
  | .ok entries => readEntries tomlFromStr dir empty entries

end Load

/-! ### What a registry has for a name -/

/-- The faculties of a list, one after the other. -/
def insertAll (reg : FacultyRegistry) (fs : List Faculty) : FacultyRegistry := fs.foldl insert reg

theorem get_insert (reg : FacultyRegistry) (f : Faculty) (name : String) :
    (reg.insert f).get name = if f.name = name then some f else reg.get name := rfl

theorem insertAll_concat (reg : FacultyRegistry) (fs : List Faculty) (f : Faculty) :
    reg.insertAll (fs ++ [f]) = (reg.insertAll fs).insert f := by
  rw [insertAll, List.foldl_append]
  rfl

/-- The last faculty of that name counts. -/
theorem get_insertAll (reg : FacultyRegistry) (fs : List Faculty) (name : String) :
    (reg.insertAll fs).get name = (fs.filter (·.name = name)).getLast?.or (reg.get name) := by
  induction fs using List.reverseRecOn with
  | nil => rfl
  | append_singleton fs f ih =>
    rw [insertAll_concat, get_insert, List.filter_append]
    by_cases hname : f.name = name
    · simp [hname]
    · simp [hname, ih]

section Load

variable (tomlFromStr : String → Except String Faculty) (dir : String)

/-- An entry that cannot be read, or whose text is not a faculty. -/
def Unreadable (entry : Except String DirEntry) : Prop :=
  ∃ e, readEntry tomlFromStr dir entry = .error e

/-- The faculty that an entry gives, if it is read. -/
def facultyOf (entry : Except String DirEntry) : Option Faculty :=
  (readEntry tomlFromStr dir entry).toOption.join

variable {tomlFromStr dir} {entries : List (Except String DirEntry)}

theorem readEntries_error (h : ∃ entry ∈ entries, Unreadable tomlFromStr dir entry)
    (reg : FacultyRegistry) : ∃ e, readEntries tomlFromStr dir reg entries = .error e := by
  induction entries generalizing reg with
  | nil =>
    obtain ⟨entry, hmem, -⟩ := h
    cases hmem
  | cons entry entries ih =>
    rw [readEntries]
    cases hread : readEntry tomlFromStr dir entry with
    | error e => exact ⟨e, rfl⟩
    | ok meta? =>
      have hrest : ∃ entry ∈ entries, Unreadable tomlFromStr dir entry := by
        obtain ⟨bad, hmem, e, hbad⟩ := h
        obtain rfl | hmem := List.mem_cons.mp hmem
        · rw [hread] at hbad
          cases hbad
        · exact ⟨bad, hmem, e, hbad⟩
      cases meta? with
      | none => exact ih hrest reg
      | some f => exact ih hrest (reg.insert f)

theorem readEntries_ok (h : ∀ entry ∈ entries, ¬ Unreadable tomlFromStr dir entry)
    (reg : FacultyRegistry) : readEntries tomlFromStr dir reg entries =
      .ok (reg.insertAll (entries.filterMap (facultyOf tomlFromStr dir))) := by
  induction entries generalizing reg with
  | nil => rfl
  | cons entry entries ih =>
    have hrest := ih fun entry hmem => h entry (List.mem_cons_of_mem _ hmem)
    rw [readEntries, List.filterMap_cons, facultyOf]
    cases hread : readEntry tomlFromStr dir entry with
    | error e => exact absurd ⟨e, hread⟩ (h entry List.mem_cons_self)
    | ok meta? =>
      cases meta? with
      | none => exact hrest reg
      | some f => exact hrest (reg.insert f)

end Load

/-! ### Two orders of one directory -/

/-- Both loads fail, or both have the same for every name. -/
def SameLoad : Except Error FacultyRegistry → Except Error FacultyRegistry → Prop
  | .error _, .error _ => True
  | .ok reg, .ok reg' => ∀ name, reg.get name = reg'.get name
  | _, _ => False

section Orders

variable {tomlFromStr : String → Except String Faculty} {dir : String}
  {entries first second : List (Except String DirEntry)}

variable (tomlFromStr dir entries) in
/-- Files that give the same name give the same faculty. -/
def NamesAgree : Prop :=
  ∀ entry ∈ entries, ∀ entry' ∈ entries, ∀ f f', facultyOf tomlFromStr dir entry = some f →
    facultyOf tomlFromStr dir entry' = some f' → f.name = f'.name → f = f'

/-- What a registry of a directory has for a name is the faculty of one of its files. -/
theorem exists_of_get {fs : List Faculty} {name : String} {f : Faculty}
    (h : (empty.insertAll fs).get name = some f) : f ∈ fs ∧ f.name = name := by
  rw [get_insertAll, show empty.get name = none from rfl, Option.or_none] at h
  simpa using List.mem_of_getLast? h

/-- It has something for the name of each file. -/
theorem get_of_mem {fs : List Faculty} {f : Faculty} (h : f ∈ fs) :
    ∃ f', (empty.insertAll fs).get f.name = some f' := by
  rw [get_insertAll, show empty.get f.name = none from rfl, Option.or_none,
    ← Option.isSome_iff_exists, List.getLast?_isSome]
  exact List.ne_nil_of_mem (List.mem_filter.mpr ⟨h, decide_eq_true rfl⟩)

theorem loadFromDir_of_perm (h : ∀ entry ∈ entries, ¬ Unreadable tomlFromStr dir entry)
    (hperm : first.Perm entries) : loadFromDir tomlFromStr dir (.ok first) =
      .ok (empty.insertAll (first.filterMap (facultyOf tomlFromStr dir))) :=
  readEntries_ok (fun entry hmem => h entry (hperm.mem_iff.mp hmem)) empty

/-- One order has what the other has, where names agree. -/
theorem get_of_namesAgree (hagree : NamesAgree tomlFromStr dir entries)
    (hfirst : first.Perm entries) (hsecond : second.Perm entries) {name : String} {f : Faculty}
    (h : (empty.insertAll (first.filterMap (facultyOf tomlFromStr dir))).get name = some f) :
    (empty.insertAll (second.filterMap (facultyOf tomlFromStr dir))).get name = some f := by
  obtain ⟨hmem, rfl⟩ := exists_of_get h
  obtain ⟨entry, hentry, hf⟩ := List.mem_filterMap.mp hmem
  have hother : f ∈ second.filterMap (facultyOf tomlFromStr dir) :=
    List.mem_filterMap.mpr ⟨entry, hsecond.mem_iff.mpr (hfirst.mem_iff.mp hentry), hf⟩
  obtain ⟨f', hget⟩ := get_of_mem hother
  obtain ⟨hmem', hname⟩ := exists_of_get hget
  obtain ⟨entry', hentry', hf'⟩ := List.mem_filterMap.mp hmem'
  rw [hget, hagree entry (hfirst.mem_iff.mp hentry) entry' (hsecond.mem_iff.mp hentry') f f' hf hf'
    hname.symm]

/-- Where the order does not matter, two orders give one registry. -/
theorem get_eq_of_sameLoad {load : List (Except String DirEntry) → Except Error FacultyRegistry}
    (h : ∀ first second, first.Perm entries → second.Perm entries →
      SameLoad (load first) (load second))
    (hfirst : first.Perm entries) (hsecond : second.Perm entries) {reg reg' : FacultyRegistry}
    (hreg : load first = .ok reg) (hreg' : load second = .ok reg') (name : String) :
    reg.get name = reg'.get name := by
  have hsame := h first second hfirst hsecond
  rw [hreg, hreg'] at hsame
  exact hsame name

/-- Some order lists an entry last. -/
theorem exists_perm_last {entry : Except String DirEntry} (h : entry ∈ entries) :
    ∃ rest, (rest ++ [entry]).Perm entries := by
  obtain ⟨pre, post, rfl⟩ := List.append_of_mem h
  exact ⟨pre ++ post, (List.perm_append_singleton _ _).trans List.perm_middle.symm⟩

theorem filterMap_concat {α β : Type} {f : α → Option β} {l : List α} {a : α} {b : β}
    (h : f a = some b) : (l ++ [a]).filterMap f = l.filterMap f ++ [b] := by
  rw [List.filterMap_append, List.filterMap_cons_some h, List.filterMap_nil]

variable (tomlFromStr dir entries) in
/-- Loading does not depend on the order of the directory exactly when loading fails, or no two
files give the same name to different faculties. -/
theorem load_order_irrelevant_iff :
    (∀ first second, first.Perm entries → second.Perm entries →
      SameLoad (loadFromDir tomlFromStr dir (.ok first))
        (loadFromDir tomlFromStr dir (.ok second))) ↔
    (∃ entry ∈ entries, Unreadable tomlFromStr dir entry) ∨
      NamesAgree tomlFromStr dir entries := by
  by_cases hbad : ∃ entry ∈ entries, Unreadable tomlFromStr dir entry
  · refine iff_of_true (fun first second hfirst hsecond => ?_) (.inl hbad)
    obtain ⟨entry, hmem, hbad⟩ := hbad
    obtain ⟨e, he⟩ := readEntries_error ⟨entry, hfirst.mem_iff.mpr hmem, hbad⟩ empty
    obtain ⟨e', he'⟩ := readEntries_error ⟨entry, hsecond.mem_iff.mpr hmem, hbad⟩ empty
    rw [loadFromDir, he, loadFromDir, he']
    trivial
  · have hread : ∀ entry ∈ entries, ¬ Unreadable tomlFromStr dir entry :=
      fun entry hmem hentry => hbad ⟨entry, hmem, hentry⟩
    rw [or_iff_right hbad]
    constructor
    · intro hsame entry hentry entry' hentry' f f' hf hf' hname
      -- in each of the two orders one of the files has the last word
      obtain ⟨rest, hrest⟩ := exists_perm_last hentry
      obtain ⟨rest', hrest'⟩ := exists_perm_last hentry'
      have hlast := get_eq_of_sameLoad hsame hrest hrest' (loadFromDir_of_perm hread hrest)
        (loadFromDir_of_perm hread hrest') f.name
      rw [filterMap_concat hf, filterMap_concat hf', insertAll_concat, insertAll_concat,
        get_insert, get_insert, if_pos rfl, if_pos hname.symm] at hlast
      exact Option.some.inj hlast
    · intro hagree first second hfirst hsecond
      rw [loadFromDir_of_perm hread hfirst, loadFromDir_of_perm hread hsecond]
      exact fun name => Option.ext fun f => ⟨get_of_namesAgree hagree hfirst hsecond,
        get_of_namesAgree hagree hsecond hfirst⟩

end Orders

/-! ### Two files of one name -/

/-- The text of `social.toml`. -/
def socialToml : String := "[faculty]
name = \"social\"

[faculty.engage]
command = \"scripts/social/engage.sh\"

[faculty.recover]
command = \"scripts/social/recover.sh\"
max_attempts = 3
"

/-- The text of `social-old.toml`. -/
def socialOldToml : String := "[faculty]
name = \"social\"

[faculty.engage]
command = \"scripts/social-old/engage.sh\"

[faculty.recover]
command = \"scripts/social-old/recover.sh\"
max_attempts = 3
"

/-- The faculty that such a text gives, with its scripts in a directory. -/
def socialFaculty (scripts : String) : Faculty where
  name := "social"
  orient := none
  engage := joinPath scripts "engage.sh"
  consolidate := none
  recover := ⟨joinPath scripts "recover.sh", 3⟩

/-- What the two texts give, as a table. -/
def socialTable (content : String) : Except String Faculty :=
  if content = socialToml then .ok (socialFaculty "scripts/social")
  else if content = socialOldToml then .ok (socialFaculty "scripts/social-old")
  else .error "not in the table"

theorem socialTable_social : socialTable socialToml = .ok (socialFaculty "scripts/social") :=
  if_pos rfl

theorem socialTable_old :
    socialTable socialOldToml = .ok (socialFaculty "scripts/social-old") := by
  rw [socialTable, if_neg (by decide +kernel), if_pos rfl]

def socialFile : Except String DirEntry := .ok ⟨"social.toml", .ok socialToml⟩

def socialOldFile : Except String DirEntry := .ok ⟨"social-old.toml", .ok socialOldToml⟩

theorem readEntry_social (dir : String) :
    readEntry socialTable dir socialFile = .ok (some (socialFaculty "scripts/social")) := by
  have hext : DirEntry.extension ⟨"social.toml", .ok socialToml⟩ = some "toml" := by decide
  simp only [readEntry, socialFile, hext, if_true, socialTable_social]

theorem readEntry_old (dir : String) :
    readEntry socialTable dir socialOldFile = .ok (some (socialFaculty "scripts/social-old")) := by
  have hext : DirEntry.extension ⟨"social-old.toml", .ok socialOldToml⟩ = some "toml" := by decide
  simp only [readEntry, socialOldFile, hext, if_true, socialTable_old]

/-- Two files name the faculty `social`: the one that is listed last is the one that runs. -/
theorem order_picks_faculty : ¬ ∀ tomlFromStr dir entries first second,
    first.Perm entries → second.Perm entries →
      SameLoad (loadFromDir tomlFromStr dir (.ok first))
        (loadFromDir tomlFromStr dir (.ok second)) := by
  intro h
  have hfirst : loadFromDir socialTable "faculties" (.ok [socialFile, socialOldFile]) =
      .ok ((empty.insert (socialFaculty "scripts/social")).insert
        (socialFaculty "scripts/social-old")) := by
    simp only [loadFromDir, readEntries, readEntry_social, readEntry_old]
  have hsecond : loadFromDir socialTable "faculties" (.ok [socialOldFile, socialFile]) =
      .ok ((empty.insert (socialFaculty "scripts/social-old")).insert
        (socialFaculty "scripts/social")) := by
    simp only [loadFromDir, readEntries, readEntry_social, readEntry_old]
  have hget := get_eq_of_sameLoad (h socialTable "faculties" [socialFile, socialOldFile])
    (List.Perm.refl _) (List.Perm.swap socialFile socialOldFile []) hfirst hsecond "social"
  exact absurd hget (by decide)

end FacultyRegistry

end Animus
