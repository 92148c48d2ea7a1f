import Animus.Lib.Lines
import Mathlib.Data.List.DropRight
import Mathlib.Data.List.ReduceOption

/-!
# A reader of YAML mappings

The part of YAML 1.2 that block mappings make up whose values are literal block
scalars, plain scalars of letters and digits, or mappings of such scalars;
anything else is refused. The indentation of a literal block scalar is that of
its first non-empty line, and a less indented line ends it.

## Main definitions

- `crlf`, `lines`: line ends, and the lines of a stream
- `literal`: the value of a literal block scalar
- `blocks`: the entries of the outer mapping, with the lines that belong to each
- `read`: the mapping a stream is
- `SameText`: equality up to line ends of two characters and line ends at the end

## Main results

- `printable_of_read`: a stream that is read has printable characters only
- `flush_of_read`: a scalar that is read has no carriage return, and its first line that is not
  empty starts with no blank
- `literal_indented`: what is read of lines that are indented by two
- `blocks_entry`: an entry is cut off with its lines
-/

namespace Yaml

/-- The characters of a line. -/
abbrev Line := List Char

/-! ### Line ends -/

/-- Every carriage return before a line feed goes away. -/
def crlf : List Char → List Char
  | [] => []
  | c :: cs => if c = '\r' ∧ cs.head? = some '\n' then crlf cs else c :: crlf cs

/-- A line ends at a line feed, at a carriage return, or at both. -/
def lines (cs : List Char) : List Line :=
  ((crlf cs).map fun c => if c = '\r' then '\n' else c).splitOn '\n'

/-- The text without the line feeds at its end. -/
def trimBreaks (cs : List Char) : List Char := cs.rdropWhile (· = '\n')

/-- Equality up to line ends of two characters and line ends at the end. -/
def SameText (a b : List Char) : Prop := trimBreaks (crlf a) = trimBreaks (crlf b)

/-- The first character that is no line feed is no blank: the first line that is not empty starts
with none. -/
def Flush (cs : List Char) : Prop := (cs.dropWhile (· = '\n')).head? ≠ some ' '

/-- The same of the lines of a text. -/
def FlushLines : List Line → Prop
  | [] => True
  | [] :: ls => FlushLines ls
  | (c :: _) :: _ => c ≠ ' '

/-! ### Characters and lines -/

/-- The characters that may stand in a line. -/
def printable (c : Char) : Bool :=
  c = '\t' || (0x20 ≤ c.toNat && c.toNat ≤ 0x7E) || c.toNat = 0x85 ||
    (0xA0 ≤ c.toNat && c.toNat ≤ 0xD7FF) ||
    (0xE000 ≤ c.toNat && c.toNat ≤ 0xFFFD && c.toNat ≠ 0xFEFF) || 0x10000 ≤ c.toNat

def isBlank (l : Line) : Bool := l.all (· = ' ')

def indent (l : Line) : ℕ := (l.takeWhile (· = ' ')).length

/-- A blank line or a comment. -/
def skipped (l : Line) : Bool := isBlank l || (l.dropWhile (· = ' ')).head? = some '#'

/-- A plain scalar of letters and digits. -/
def isPlain (cs : List Char) : Bool := !cs.isEmpty && cs.all Char.isAlphanum

/-- The blanks at both ends go away. -/
def trimBlanks (cs : List Char) : List Char := (cs.dropWhile (· = ' ')).rdropWhile (· = ' ')

/-- The key of an entry, and what follows its colon. -/
def keyOf (l : Line) : Option (Line × Line) :=
  match l.dropWhile (· ≠ ':') with
  | [] => none
  | _ :: rest =>
    if isPlain (l.takeWhile (· ≠ ':')) && rest.head?.all (· = ' ') then
      some (l.takeWhile (· ≠ ':'), trimBlanks rest)
    else none

/-! ### Values -/

inductive Value
  | scalar (cs : List Char)
  | mapping (entries : List (Line × Line))

/-- One line feed ends a text that is not empty. -/
def clip (cs : List Char) : List Char :=
  if trimBreaks cs = [] then [] else trimBreaks cs ++ ['\n']

/-- The value of a literal block scalar, of the lines that are no entries of the outer mapping. -/
def literal (body : List Line) : Option (List Char) :=
  match body.dropWhile isBlank with
  | [] => some []
  | first :: more =>
    -- an empty line before the first one that is not may not be indented deeper
    if (body.takeWhile isBlank).any (indent first < ·.length) then none
    else
      let inside := fun l => isBlank l || decide (indent first ≤ indent l)
      if ((first :: more).dropWhile inside).all skipped then
        some (clip (['\n'].intercalate ((body.takeWhile isBlank).map (fun _ => []) ++
          ((first :: more).takeWhile inside).map (List.drop (indent first)))))
      else none

/-- The entries of an inner mapping, all indented alike. -/
def inner (body : List Line) : Option (List (Line × Line)) :=
  match body.filter fun l => !skipped l with
  | [] => none
  | first :: more => (first :: more).mapM fun l =>
    if indent l = indent first then (keyOf (l.drop (indent l))).filter fun e => isPlain e.2
    else none

/-- Does a line belong to the entry above it? -/
def isInner (l : Line) : Bool := l.head?.all (· = ' ')

/-- The lines before the first entry, and the entries with the lines that belong to them. -/
def blocks : List Line → List Line × List (Line × List Line)
  | [] => ([], [])
  | l :: ls =>
    if isInner l then (l :: (blocks ls).1, (blocks ls).2)
    else ([], (l, (blocks ls).1) :: (blocks ls).2)

/-- The entry of a line that is not indented; none for a comment. -/
def entry (block : Line × List Line) : Option (Option (Line × Value)) :=
  if skipped block.1 then
    if block.2.all skipped then some none else none
  else (keyOf block.1).bind fun e =>
    if e.2 = ['|'] then (literal block.2).map fun v => some (e.1, .scalar v)
    else if e.2 = [] then (inner block.2).map fun es => some (e.1, .mapping es)
    else if isPlain e.2 && block.2.all skipped then some (some (e.1, .scalar e.2))
    else none

/-- The mapping a stream is; its keys differ. -/
def read (cs : List Char) : Option (List (Line × Value)) :=
  if (crlf cs).all fun c => c = '\n' || c = '\r' || printable c then
    if (blocks (lines cs)).1.all skipped then
      (((blocks (lines cs)).2.mapM entry).map List.reduceOption).filter fun es =>
        (es.map Prod.fst).Nodup
    else none
  else none

/-- A number in decimal digits. -/
def natOf (cs : List Char) : Option ℕ :=
  if !cs.isEmpty && cs.all Char.isDigit then some (Nat.ofDigitChars 10 cs 0) else none

/-! ### Line ends at the start and at the end -/

theorem flush_append_breaks {cs bs : List Char} (h : ∀ c ∈ bs, c = '\n') :
    Flush (cs ++ bs) ↔ Flush cs := by
  have hbs : bs.dropWhile (· = '\n') = [] :=
    List.dropWhile_eq_nil_iff.mpr fun c hc => decide_eq_true (h c hc)
  rw [Flush, Flush, List.dropWhile_append, hbs]
  split
  · next hempty => rw [List.isEmpty_iff.mp hempty]
  · next hne =>
    obtain ⟨c, rest, hcs⟩ := List.exists_cons_of_ne_nil fun heq => hne (List.isEmpty_iff.mpr heq)
    rw [hcs]
    rfl

theorem trimBreaks_append (cs : List Char) :
    ∃ bs, trimBreaks cs ++ bs = cs ∧ ∀ c ∈ bs, c = '\n' := by
  refine ⟨cs.rtakeWhile (· = '\n'), List.rdropWhile_append_rtakeWhile, fun c hc => ?_⟩
  exact of_decide_eq_true (List.mem_rtakeWhile_imp (p := fun c => decide (c = '\n')) hc)

theorem mem_of_mem_trimBreaks {c : Char} {cs : List Char} (h : c ∈ trimBreaks cs) : c ∈ cs :=
  (List.rdropWhile_prefix _ _).subset h

theorem mem_trimBreaks {c : Char} {cs : List Char} (h : c ∈ cs) (hc : c ≠ '\n') :
    c ∈ trimBreaks cs := by
  obtain ⟨bs, hbs, hbreaks⟩ := trimBreaks_append cs
  rw [← hbs] at h
  exact (List.mem_append.mp h).resolve_right fun hmem => hc (hbreaks c hmem)

theorem flush_trimBreaks {cs : List Char} : Flush (trimBreaks cs) ↔ Flush cs := by
  obtain ⟨bs, hbs, hbreaks⟩ := trimBreaks_append cs
  rw [← flush_append_breaks hbreaks, hbs]

@[simp] theorem trimBreaks_snoc (cs : List Char) : trimBreaks (cs ++ ['\n']) = trimBreaks cs :=
  List.rdropWhile_concat_pos _ _ _ rfl

@[simp] theorem trimBreaks_trimBreaks (cs : List Char) :
    trimBreaks (trimBreaks cs) = trimBreaks cs := List.rdropWhile_idempotent _ _

@[simp] theorem trimBreaks_clip (cs : List Char) : trimBreaks (clip cs) = trimBreaks cs := by
  rw [clip]
  split
  · next h => rw [h]; rfl
  · rw [trimBreaks_snoc, trimBreaks_trimBreaks]

theorem flush_clip {cs : List Char} : Flush (clip cs) ↔ Flush cs := by
  rw [← flush_trimBreaks, trimBreaks_clip, flush_trimBreaks]

theorem mem_of_mem_clip {c : Char} {cs : List Char} (h : c ∈ clip cs) (hc : c ≠ '\n') : c ∈ cs := by
  have hmem := mem_trimBreaks h hc
  rw [trimBreaks_clip] at hmem
  exact mem_of_mem_trimBreaks hmem

/-- A text of lines begins as they do. -/
theorem flush_intercalate {ls : List Line} (h : ∀ l ∈ ls, '\n' ∉ l) :
    Flush (['\n'].intercalate ls) ↔ FlushLines ls := by
  induction ls with
  | nil => exact iff_of_true nofun trivial
  | cons l ls ih =>
    obtain ⟨hl, hls⟩ := List.forall_mem_cons.mp h
    cases l with
    | nil =>
      rw [FlushLines, ← ih hls]
      cases ls with
      | nil => rfl
      | cons x xs => rfl
    | cons c l =>
      have hc : c ≠ '\n' := fun heq => hl (heq ▸ List.mem_cons_self)
      have hhead : ∃ rest, ['\n'].intercalate ((c :: l) :: ls) = c :: rest := by
        cases ls with
        | nil => exact ⟨l, List.intercalate_singleton⟩
        | cons x xs => exact ⟨_, List.intercalate_cons_cons⟩
      obtain ⟨rest, hrest⟩ := hhead
      rw [hrest, Flush, FlushLines, List.dropWhile_cons_of_neg (by simpa using hc), List.head?_cons]
      exact not_congr Option.some_inj

/-! ### What is read -/

/-- Characters that may end a line are in no line. -/
def Unbroken (l : Line) : Prop := '\r' ∉ l ∧ '\n' ∉ l

theorem Unbroken.of_subset {l l' : Line} (h : Unbroken l) (hsub : l' ⊆ l) : Unbroken l' :=
  ⟨fun hmem => h.1 (hsub hmem), fun hmem => h.2 (hsub hmem)⟩

theorem unbroken_of_mem_lines {cs : List Char} {l : Line} (h : l ∈ lines cs) : Unbroken l := by
  refine ⟨fun hmem => ?_, Framing.notMem_of_mem_splitOn h⟩
  obtain ⟨c, -, hc⟩ := List.mem_map.mp (Framing.mem_of_mem_splitOn h hmem)
  split at hc
  · cases hc
  · contradiction

theorem mem_blocks {ls : List Line} : (∀ l ∈ (blocks ls).1, l ∈ ls) ∧
    ∀ block ∈ (blocks ls).2, block.1 ∈ ls ∧ ∀ l ∈ block.2, l ∈ ls := by
  induction ls with
  | nil => exact ⟨List.forall_mem_nil _, List.forall_mem_nil _⟩
  | cons l ls ih =>
    have hlater : ∀ block ∈ (blocks ls).2, block.1 ∈ l :: ls ∧ ∀ x ∈ block.2, x ∈ l :: ls :=
      fun block hblock => ⟨List.mem_cons_of_mem _ (ih.2 block hblock).1,
        fun x hx => List.mem_cons_of_mem _ ((ih.2 block hblock).2 x hx)⟩
    have hbefore : ∀ x ∈ (blocks ls).1, x ∈ l :: ls := fun x hx =>
      List.mem_cons_of_mem _ (ih.1 x hx)
    rw [blocks]
    split
    · exact ⟨List.forall_mem_cons.mpr ⟨List.mem_cons_self, hbefore⟩, hlater⟩
    · exact ⟨List.forall_mem_nil _,
        List.forall_mem_cons.mpr ⟨⟨List.mem_cons_self, hbefore⟩, hlater⟩⟩

theorem drop_indent (l : Line) : l.drop (indent l) = l.dropWhile (· = ' ') := by
  induction l with
  | nil => rfl
  | cons c l ih =>
    by_cases hc : c = ' '
    · rw [indent, List.takeWhile_cons_of_pos (by simpa using hc),
        List.dropWhile_cons_of_pos (by simpa using hc), ← ih]
      rfl
    · rw [indent, List.takeWhile_cons_of_neg (by simpa using hc),
        List.dropWhile_cons_of_neg (by simpa using hc)]
      rfl

/-- A line that is not blank has some character behind its indentation. -/
theorem drop_indent_of_not_isBlank {l : Line} (h : isBlank l = false) :
    ∃ c cs, l.drop (indent l) = c :: cs ∧ c ≠ ' ' := by
  rw [drop_indent]
  cases hl : l.dropWhile (· = ' ') with
  | nil =>
    have hall : isBlank l = true := List.all_eq_true.mpr (List.dropWhile_eq_nil_iff.mp hl)
    rw [hall] at h
    cases h
  | cons c cs =>
    have hc := List.head?_dropWhile_not (fun c => decide (c = ' ')) l
    rw [hl] at hc
    exact ⟨c, cs, rfl, of_decide_eq_false hc⟩

theorem flushLines_nils {α : Type} (ls : List α) {x : Line} {xs : List Line} {c : Char}
    {cs : List Char} (hx : x = c :: cs) (hc : c ≠ ' ') :
    FlushLines (ls.map (fun _ => []) ++ x :: xs) := by
  induction ls with
  | nil =>
    rw [hx]
    exact hc
  | cons a ls ih => exact ih

theorem mem_intercalate {ls : List Line} {c : Char} (h : c ∈ ['\n'].intercalate ls)
    (hc : c ≠ '\n') : ∃ l ∈ ls, c ∈ l := by
  induction ls with
  | nil => cases h
  | cons l ls ih =>
    cases ls with
    | nil =>
      rw [List.intercalate_singleton] at h
      exact ⟨l, List.mem_cons_self, h⟩
    | cons x xs =>
      rw [List.intercalate_cons_cons, List.append_assoc, List.mem_append, List.mem_append] at h
      obtain h | h | h := h
      · exact ⟨l, List.mem_cons_self, h⟩
      · exact absurd (List.mem_singleton.mp h) hc
      · obtain ⟨y, hy, hmem⟩ := ih h
        exact ⟨y, List.mem_cons_of_mem _ hy, hmem⟩

theorem mem_intercalate_of_mem {ls : List Line} {l : Line} {c : Char} (hl : l ∈ ls) (hc : c ∈ l) :
    c ∈ ['\n'].intercalate ls := by
  induction ls with
  | nil => cases hl
  | cons x xs ih =>
    cases xs with
    | nil =>
      rw [List.intercalate_singleton]
      exact List.mem_singleton.mp hl ▸ hc
    | cons y ys =>
      rw [List.intercalate_cons_cons, List.append_assoc, List.mem_append, List.mem_append]
      obtain rfl | hl := List.mem_cons.mp hl
      · exact .inl hc
      · exact .inr (.inr (ih hl))

theorem intercalate_concat_nil {ls : List Line} (h : ls ≠ []) :
    ['\n'].intercalate (ls ++ [[]]) = ['\n'].intercalate ls ++ ['\n'] := by
  induction ls with
  | nil => exact absurd rfl h
  | cons l ls ih =>
    cases ls with
    | nil => simp
    | cons x xs =>
      rw [List.cons_append, List.cons_append, List.intercalate_cons_cons,
        List.intercalate_cons_cons, ← List.cons_append, ih (List.cons_ne_nil x xs),
        List.append_assoc (l ++ ['\n'])]

/-- The value of a literal block scalar has no carriage return, and starts with no blank. -/
theorem flush_of_literal {body : List Line} {v : List Char} (h : literal body = some v)
    (hbody : ∀ l ∈ body, Unbroken l) : '\r' ∉ v ∧ Flush v := by
  rw [literal] at h
  cases hfirst : body.dropWhile isBlank with
  | nil =>
    rw [hfirst] at h
    cases h
    exact ⟨List.not_mem_nil, nofun⟩
  | cons first more =>
    rw [hfirst] at h
    dsimp only at h
    rw [Option.ite_none_left_eq_some, Option.ite_none_right_eq_some, Option.some.injEq] at h
    obtain ⟨-, -, rfl⟩ := h
    have hblank : isBlank first = false := by
      have hnot := List.head?_dropWhile_not isBlank body
      rw [hfirst] at hnot
      exact hnot
    have hmem : ∀ l ∈ first :: more, Unbroken l :=
      fun l hl => hbody l (List.dropWhile_subset _ (hfirst ▸ hl))
    have hlines : ∀ l ∈ (body.takeWhile isBlank).map (fun _ => []) ++ ((first :: more).takeWhile
        fun l => isBlank l || decide (indent first ≤ indent l)).map (List.drop (indent first)),
        Unbroken l := by
      intro l hl
      obtain hl | hl := List.mem_append.mp hl
      · obtain ⟨-, -, rfl⟩ := List.mem_map.mp hl
        exact ⟨List.not_mem_nil, List.not_mem_nil⟩
      · obtain ⟨y, hy, rfl⟩ := List.mem_map.mp hl
        exact (hmem y (List.takeWhile_subset _ hy)).of_subset (List.drop_subset _ _)
    refine ⟨fun hcr => ?_, flush_clip.mpr ((flush_intercalate fun l hl => (hlines l hl).2).mpr ?_)⟩
    · obtain ⟨l, hl, hmem⟩ := mem_intercalate (mem_of_mem_clip hcr (by decide)) (by decide)
      exact (hlines l hl).1 hmem
    · obtain ⟨c, cs, hdrop, hc⟩ := drop_indent_of_not_isBlank hblank
      rw [List.takeWhile_cons_of_pos (by simp), List.map_cons]
      exact flushLines_nils _ hdrop hc

/-- A plain scalar is flush, and in one line. -/
theorem flush_of_isPlain {cs : List Char} (h : isPlain cs = true) : '\r' ∉ cs ∧ Flush cs := by
  rw [isPlain, Bool.and_eq_true, List.all_eq_true] at h
  refine ⟨fun hcr => absurd (h.2 _ hcr) (by decide), ?_⟩
  cases cs with
  | nil => exact nofun
  | cons c cs =>
    have hc := h.2 c List.mem_cons_self
    have hbreak : c ≠ '\n' := by
      rintro rfl
      exact absurd hc (by decide)
    rw [Flush, List.dropWhile_cons_of_neg (by simpa using hbreak), List.head?_cons]
    intro hblank
    rw [Option.some.inj hblank] at hc
    exact absurd hc (by decide)

theorem flush_of_entry {block : Line × List Line} {k : Line} {v : List Char}
    (h : entry block = some (some (k, .scalar v))) (hbody : ∀ l ∈ block.2, Unbroken l) :
    '\r' ∉ v ∧ Flush v := by
  rw [entry] at h
  by_cases hcomment : skipped block.1 = true
  · rw [if_pos hcomment, Option.ite_none_right_eq_some] at h
    cases h.2
  rw [if_neg hcomment] at h
  obtain ⟨e, -, h⟩ := Option.bind_eq_some_iff.mp h
  by_cases hbar : e.2 = ['|']
  · rw [if_pos hbar] at h
    obtain ⟨w, hw, heq⟩ := Option.map_eq_some_iff.mp h
    cases heq
    exact flush_of_literal hw hbody
  by_cases hnil : e.2 = []
  · rw [if_neg hbar, if_pos hnil] at h
    obtain ⟨es, -, heq⟩ := Option.map_eq_some_iff.mp h
    cases heq
  · rw [if_neg hbar, if_neg hnil, Option.ite_none_right_eq_some, Bool.and_eq_true] at h
    obtain ⟨⟨hplain, -⟩, heq⟩ := h
    cases heq
    exact flush_of_isPlain hplain

theorem mem_of_mapM {α β : Type} {f : α → Option β} {xs : List α} {ys : List β}
    (h : xs.mapM f = some ys) {y : β} (hy : y ∈ ys) : ∃ x ∈ xs, f x = some y := by
  induction xs generalizing ys with
  | nil =>
    cases h
    cases hy
  | cons x xs ih =>
    rw [List.mapM_cons] at h
    obtain ⟨z, hz, h⟩ := Option.bind_eq_some_iff.mp h
    obtain ⟨zs, hzs, h⟩ := Option.bind_eq_some_iff.mp h
    cases h
    obtain rfl | hy := List.mem_cons.mp hy
    · exact ⟨x, List.mem_cons_self, hz⟩
    · obtain ⟨w, hw, hf⟩ := ih hzs hy
      exact ⟨w, List.mem_cons_of_mem _ hw, hf⟩

theorem read_eq_some {cs : List Char} {m : List (Line × Value)} : read cs = some m ↔
    (∀ c ∈ crlf cs, c = '\n' ∨ c = '\r' ∨ printable c = true) ∧
      (∀ l ∈ (blocks (lines cs)).1, skipped l = true) ∧
      ∃ es, (blocks (lines cs)).2.mapM entry = some es ∧ es.reduceOption = m ∧
        (m.map Prod.fst).Nodup := by
  rw [read, Option.ite_none_right_eq_some, Option.ite_none_right_eq_some, List.all_eq_true,
    List.all_eq_true]
  refine and_congr (forall₂_congr fun c _ => ?_) (and_congr_right fun _ => ?_)
  · rw [Bool.or_eq_true, Bool.or_eq_true, decide_eq_true_iff, decide_eq_true_iff, or_assoc]
  · rw [Option.filter_eq_some_iff, decide_eq_true_iff, Option.map_eq_some_iff]
    constructor
    · rintro ⟨⟨es, hes, hm⟩, hnodup⟩
      exact ⟨es, hes, hm, hnodup⟩
    · rintro ⟨es, hes, hm, hnodup⟩
      exact ⟨⟨es, hes, hm⟩, hnodup⟩

/-- A stream that is read has printable characters only. -/
theorem printable_of_read {cs : List Char} {m : List (Line × Value)} (h : read cs = some m) :
    ∀ c ∈ crlf cs, c = '\n' ∨ c = '\r' ∨ printable c = true := (read_eq_some.mp h).1

theorem mem_of_lookup {α β : Type} [BEq α] [LawfulBEq α] {m : List (α × β)} {k : α} {v : β}
    (h : m.lookup k = some v) : (k, v) ∈ m := by
  induction m with
  | nil => cases h
  | cons e m ih =>
    rw [List.lookup_cons] at h
    split at h
    · next hk =>
      cases h
      rw [eq_of_beq hk]
      exact List.mem_cons_self
    · exact List.mem_cons_of_mem _ (ih h)

/-- A scalar that is read has no carriage return, and is flush. -/
theorem flush_of_read {cs : List Char} {m : List (Line × Value)} {k : Line} {v : List Char}
    (h : read cs = some m) (hk : m.lookup k = some (.scalar v)) : '\r' ∉ v ∧ Flush v := by
  obtain ⟨-, -, es, hes, rfl, -⟩ := read_eq_some.mp h
  obtain ⟨block, hblock, hentry⟩ :=
    mem_of_mapM hes (List.reduceOption_mem_iff.mp (mem_of_lookup hk))
  refine flush_of_entry hentry fun l hl => ?_
  exact unbroken_of_mem_lines ((mem_blocks.2 block hblock).2 l hl)

/-! ### Reading what was written -/

/-- A line is indented by two. -/
def indentTwo (l : Line) : Line := ' ' :: ' ' :: l

@[simp] theorem isBlank_indentTwo (l : Line) : isBlank (indentTwo l) = isBlank l := rfl

@[simp] theorem drop_indentTwo (l : Line) : (indentTwo l).drop 2 = l := rfl

theorem isInner_indentTwo (l : Line) : isInner (indentTwo l) = true := rfl

theorem two_le_indent (l : Line) : 2 ≤ indent (indentTwo l) := by
  rw [indent, indentTwo, List.takeWhile_cons_of_pos rfl, List.takeWhile_cons_of_pos rfl,
    List.length_cons, List.length_cons]
  exact Nat.le_add_left 2 _

theorem indent_indentTwo {l : Line} (h : l.head? ≠ some ' ') : indent (indentTwo l) = 2 := by
  cases l with
  | nil => rfl
  | cons c l =>
    have hc : c ≠ ' ' := fun heq => h (congrArg some heq)
    rw [indent, indentTwo, List.takeWhile_cons_of_pos rfl, List.takeWhile_cons_of_pos rfl,
      List.takeWhile_cons_of_neg (by simpa using hc)]
    rfl

/-- Flush lines are empty up to one that starts with no blank. -/
theorem FlushLines.cases {ls : List Line} (h : FlushLines ls) :
    (∀ l ∈ ls.takeWhile isBlank, l = []) ∧
      ∀ l ls', ls.dropWhile isBlank = l :: ls' → l.head? ≠ some ' ' := by
  induction ls with
  | nil => exact ⟨List.forall_mem_nil _, nofun⟩
  | cons l ls ih =>
    cases l with
    | nil =>
      obtain ⟨hnil, hfirst⟩ := ih h
      rw [List.takeWhile_cons_of_pos rfl, List.dropWhile_cons_of_pos rfl]
      exact ⟨List.forall_mem_cons.mpr ⟨rfl, hnil⟩, hfirst⟩
    | cons c cs =>
      have hblank : ¬ isBlank (c :: cs) = true := by
        rw [isBlank, List.all_cons, Bool.and_eq_true, decide_eq_true_iff]
        exact fun hall => h hall.1
      rw [List.takeWhile_cons_of_neg hblank, List.dropWhile_cons_of_neg hblank]
      refine ⟨List.forall_mem_nil _, ?_⟩
      rintro _ _ ⟨⟩ hhead
      exact h (Option.some.inj hhead)

theorem trimBreaks_nils {ls : List Line} (h : ∀ l ∈ ls, l = []) :
    trimBreaks (['\n'].intercalate ls) = [] := by
  refine List.rdropWhile_eq_nil_iff.mpr fun c hc => decide_eq_true ?_
  by_contra hne
  obtain ⟨l, hl, hmem⟩ := mem_intercalate hc hne
  rw [h l hl] at hmem
  cases hmem

/-- What is read of flush lines that are indented by two. -/
theorem literal_indented {ls : List Line} (h : FlushLines ls) :
    literal (ls.map indentTwo) = some (clip (['\n'].intercalate ls)) := by
  obtain ⟨hnils, hfirst⟩ := h.cases
  have hcomp : isBlank ∘ indentTwo = isBlank := funext isBlank_indentTwo
  rw [literal, List.dropWhile_map, List.takeWhile_map, hcomp]
  cases hls : ls.dropWhile isBlank with
  | nil =>
    have hall : ∀ l ∈ ls, l = [] := by
      rw [← List.takeWhile_append_dropWhile (p := isBlank) (l := ls), hls, List.append_nil]
      exact hnils
    rw [clip, if_pos (trimBreaks_nils hall)]
    rfl
  | cons x xs =>
    have hindent := indent_indentTwo (hfirst x xs hls)
    have hshort : ((ls.takeWhile isBlank).map indentTwo).any (2 < ·.length) = false := by
      rw [List.any_map, List.any_eq_false]
      intro l hl
      rw [hnils l hl]
      decide
    have hinside : ∀ l ∈ (x :: xs).map indentTwo, (isBlank l || decide (2 ≤ indent l)) = true := by
      intro l hl
      obtain ⟨y, -, rfl⟩ := List.mem_map.mp hl
      rw [decide_eq_true (two_le_indent y), Bool.or_true]
    have hblanks : ((ls.takeWhile isBlank).map indentTwo).map (fun _ => ([] : Line)) =
        ls.takeWhile isBlank := by
      rw [List.map_map]
      refine (List.map_congr_left fun l hl => ?_).trans (List.map_id _)
      exact (hnils l hl).symm
    rw [List.map_cons]
    dsimp only
    rw [← List.map_cons, hindent, if_neg (by rw [hshort]; exact Bool.false_ne_true),
      List.takeWhile_eq_self_iff.mpr hinside, List.dropWhile_eq_nil_iff.mpr hinside, hblanks]
    rw [List.all_nil, if_pos rfl, List.map_map]
    have hdrop : List.drop 2 ∘ indentTwo = id := rfl
    rw [hdrop, List.map_id, ← hls, List.takeWhile_append_dropWhile]

/-- The lines of an entry are cut off with it. -/
theorem blocks_entry {l : Line} (body : List Line) {rest : List Line} (hl : isInner l = false)
    (hbody : ∀ x ∈ body, isInner x = true) (hrest : (blocks rest).1 = []) :
    (blocks (l :: body ++ rest)) = ([], (l, body) :: (blocks rest).2) := by
  have hinner : blocks (body ++ rest) = (body, (blocks rest).2) := by
    induction body with
    | nil => exact Prod.ext hrest rfl
    | cons x body ih =>
      obtain ⟨hx, hbody⟩ := List.forall_mem_cons.mp hbody
      rw [List.cons_append, blocks, if_pos hx, ih hbody]
  rw [List.cons_append, blocks, hl, hinner]
  rfl

theorem ne_of_isPlain {cs : List Char} (h : isPlain cs = true) {c : Char} (hc : c ∈ cs) {d : Char}
    (hd : d.isAlphanum = false) : c ≠ d := by
  rintro rfl
  rw [isPlain, Bool.and_eq_true, List.all_eq_true] at h
  exact absurd (h.2 c hc) (by rw [hd]; exact Bool.false_ne_true)

/-- A plain scalar has a first character, which no blank and no comment has. -/
theorem not_skipped_of_isPlain {cs : List Char} (h : isPlain cs = true) (rest : Line) :
    isInner (cs ++ rest) = false ∧ skipped (cs ++ rest) = false ∧ indent (cs ++ rest) = 0 := by
  cases cs with
  | nil => cases h
  | cons c cs =>
    have hblank : c ≠ ' ' := ne_of_isPlain h List.mem_cons_self rfl
    have hhash : c ≠ '#' := ne_of_isPlain h List.mem_cons_self rfl
    refine ⟨?_, ?_, ?_⟩
    · simpa [isInner] using hblank
    · simp [skipped, isBlank, hblank, hhash]
    · rw [indent, List.cons_append, List.takeWhile_cons_of_neg (by simpa using hblank)]
      rfl

theorem trimBlanks_of_isPlain {cs : List Char} (h : isPlain cs = true) :
    trimBlanks (' ' :: cs) = cs := by
  have hblank : ∀ c ∈ cs, c ≠ ' ' := fun c hc => ne_of_isPlain h hc rfl
  have hleft : (' ' :: cs).dropWhile (· = ' ') = cs := by
    rw [List.dropWhile_cons_of_pos rfl]
    cases cs with
    | nil => rfl
    | cons c cs =>
      rw [List.dropWhile_cons_of_neg (by simpa using hblank c List.mem_cons_self)]
  rw [trimBlanks, hleft]
  refine List.rdropWhile_eq_self_iff.mpr fun hne => ?_
  simpa using hblank _ (List.getLast_mem hne)

theorem keyOf_append {key rest : Line} (hkey : isPlain key = true)
    (hrest : rest.head?.all (· = ' ') = true) :
    keyOf (key ++ ':' :: rest) = some (key, trimBlanks rest) := by
  have hcolon : ∀ c ∈ key, decide (c ≠ ':') = true :=
    fun c hc => decide_eq_true (ne_of_isPlain hkey hc rfl)
  have htake : (key ++ ':' :: rest).takeWhile (· ≠ ':') = key := by
    rw [List.takeWhile_append_of_pos hcolon, List.takeWhile_cons_of_neg (by simp), List.append_nil]
  have hdrop : (key ++ ':' :: rest).dropWhile (· ≠ ':') = ':' :: rest := by
    rw [List.dropWhile_append_of_pos hcolon, List.dropWhile_cons_of_neg (by simp)]
  rw [keyOf, hdrop, htake]
  dsimp only
  rw [hkey, hrest]
  rfl

/-- The head of a literal block scalar. -/
theorem entry_literal (key : Line) {body : List Line} {v : List Char} (hkey : isPlain key = true)
    (hv : literal body = some v) :
    entry (key ++ [':', ' ', '|'], body) = some (some (key, .scalar v)) := by
  have hbar : trimBlanks [' ', '|'] = ['|'] := by decide
  rw [entry, (not_skipped_of_isPlain hkey _).2.1, if_neg Bool.false_ne_true,
    keyOf_append hkey rfl, Option.bind_some]
  dsimp only
  rw [if_pos hbar, hv]
  rfl

/-- The head of an inner mapping. -/
theorem entry_inner (key : Line) {body : List Line} {es : List (Line × Line)}
    (hkey : isPlain key = true) (hes : inner body = some es) :
    entry (key ++ [':'], body) = some (some (key, .mapping es)) := by
  have hnil : trimBlanks [] = [] := by decide
  rw [entry, (not_skipped_of_isPlain hkey _).2.1, if_neg Bool.false_ne_true,
    keyOf_append hkey rfl, Option.bind_some]
  dsimp only
  rw [hnil, if_neg (by decide), if_pos rfl, hes]
  rfl

/-- What is read of plain entries that are indented by two. -/
theorem inner_indented (es : List (Line × Line)) (hne : es ≠ [])
    (h : ∀ e ∈ es, isPlain e.1 = true ∧ isPlain e.2 = true) :
    inner (es.map fun e => indentTwo (e.1 ++ ':' :: ' ' :: e.2)) = some es := by
  have hindent : ∀ e ∈ es, indent (indentTwo (e.1 ++ ':' :: ' ' :: e.2)) = 2 := by
    intro e he
    have hzero := (not_skipped_of_isPlain (h e he).1 (':' :: ' ' :: e.2)).2.2
    rw [indent, indentTwo, List.takeWhile_cons_of_pos rfl, List.takeWhile_cons_of_pos rfl,
      List.length_cons, List.length_cons]
    rw [indent] at hzero
    rw [hzero]
  have hentry : ∀ e ∈ es, (keyOf ((indentTwo (e.1 ++ ':' :: ' ' :: e.2)).drop 2)).filter
      (fun e => isPlain e.2) = some e := by
    intro e he
    rw [drop_indentTwo, keyOf_append (h e he).1 rfl, trimBlanks_of_isPlain (h e he).2]
    exact Option.filter_some.trans (if_pos (h e he).2)
  have hkept : (es.map fun e => indentTwo (e.1 ++ ':' :: ' ' :: e.2)).filter (fun l => !skipped l) =
      es.map fun e => indentTwo (e.1 ++ ':' :: ' ' :: e.2) := by
    refine List.filter_eq_self.mpr fun l hl => ?_
    obtain ⟨e, he, rfl⟩ := List.mem_map.mp hl
    have hskip := (not_skipped_of_isPlain (h e he).1 (':' :: ' ' :: e.2)).2.1
    rw [Bool.not_eq_true']
    exact hskip
  -- every line is at the indentation of the first, and read as its entry
  have hread : ∀ all ⊆ es, (all.map fun e => indentTwo (e.1 ++ ':' :: ' ' :: e.2)).mapM (fun l =>
      if indent l = 2 then (keyOf (l.drop (indent l))).filter fun e => isPlain e.2 else none) =
      some all := by
    intro all hall
    induction all with
    | nil => rfl
    | cons x xs ih =>
      have hx : x ∈ es := hall List.mem_cons_self
      rw [List.map_cons, List.mapM_cons, if_pos (hindent x hx), hindent x hx, hentry x hx,
        ih fun y hy => hall (List.mem_cons_of_mem x hy)]
      rfl
  rw [inner, hkept]
  cases es with
  | nil => exact absurd rfl hne
  | cons e es =>
    rw [List.map_cons]
    dsimp only
    rw [hindent e List.mem_cons_self]
    exact hread (e :: es) (List.Subset.refl _)

/-- The digits of a number are a plain scalar, and read back. -/
theorem natOf_toDigits (n : ℕ) :
    isPlain (Nat.toDigits 10 n) = true ∧ natOf (Nat.toDigits 10 n) = some n := by
  have hne : (Nat.toDigits 10 n).isEmpty = false := by
    rw [List.isEmpty_eq_false_iff]
    exact Nat.toDigits_ne_nil
  have hdigits : ∀ c ∈ Nat.toDigits 10 n, c.isDigit = true :=
    fun c hc => Nat.isDigit_of_mem_toDigits (by decide) (by decide) hc
  have hall : (Nat.toDigits 10 n).all Char.isDigit = true := List.all_eq_true.mpr hdigits
  constructor
  · rw [isPlain, hne, Bool.not_false, Bool.true_and, List.all_eq_true]
    intro c hc
    rw [Char.isAlphanum, hdigits c hc, Bool.or_true]
  · rw [natOf, hne, hall, Nat.ofDigitChars_ten_toDigits]
    rfl

theorem printable_of_isDigit {c : Char} (h : c.isDigit = true) : printable c = true := by
  rw [Char.isDigit, Bool.and_eq_true, decide_eq_true_iff, decide_eq_true_iff] at h
  have hlow : 0x20 ≤ c.toNat := le_trans (by decide) h.1
  have hhigh : c.toNat ≤ 0x7E := le_trans h.2 (by decide)
  simp [printable, hlow, hhigh]

/-! ### Line ends of two characters -/

theorem crlf_of_notMem {cs : List Char} (h : '\r' ∉ cs) : crlf cs = cs := by
  induction cs with
  | nil => rfl
  | cons c cs ih =>
    rw [List.mem_cons, not_or] at h
    rw [crlf, if_neg fun heq => h.1 heq.1.symm, ih h.2]

theorem lines_of_notMem {cs : List Char} (h : '\r' ∉ cs) : lines cs = cs.splitOn '\n' := by
  rw [lines, crlf_of_notMem h]
  refine congrArg _ ((List.map_congr_left fun c hc => ?_).trans (List.map_id cs))
  have hne : c ≠ '\r' := fun heq => h (heq ▸ hc)
  exact if_neg hne

theorem mem_crlf {c : Char} {cs : List Char} (h : c ∈ cs) (hc : c ≠ '\r') : c ∈ crlf cs := by
  induction cs with
  | nil => cases h
  | cons d cs ih =>
    rw [crlf]
    obtain rfl | h := List.mem_cons.mp h
    · rw [if_neg fun heq => hc heq.1]
      exact List.mem_cons_self
    · split
      · exact ih h
      · exact List.mem_cons_of_mem _ (ih h)

end Yaml
