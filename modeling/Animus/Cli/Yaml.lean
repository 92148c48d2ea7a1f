import Animus.Cli.Llm
import Animus.Lib.Yaml

/-!
# The YAML format

What a reader of the output of `--format yaml` gets. The text and the reasoning
are written as literal block scalars, and those are read with the indentation
of their first line that is not empty.

## Main definitions

- `ReadsBack`: a mapping has the text, the reasoning and the usage
- `YamlReadsBack`: the output is read as such a mapping
- `Writable`: the texts that a literal block scalar can hold as the command writes it

## Main results

- `strLines_spec`: the lines of a text, and the text they are of
- `yamlReadsBack_iff`: exactly when the output reads back
-/

namespace Animus

open Yaml (Line Value crlf trimBreaks Flush FlushLines indentTwo SameText)

/-- A mapping has a text, a reasoning unless it is empty, and the numbers of a usage. -/
structure ReadsBack (text thinking : String) (usage : Usage) (m : List (Line × Value)) : Prop where
  text : ∃ v, m.lookup "text".toList = some (.scalar v) ∧ SameText v text.toList
  thinking : thinking ≠ "" →
    ∃ v, m.lookup "thinking".toList = some (.scalar v) ∧ SameText v thinking.toList
  usage : ∃ es, m.lookup "usage".toList = some (.mapping es) ∧
    (es.lookup "input".toList).bind Yaml.natOf = some usage.inputTokens.toNat ∧
    (es.lookup "output".toList).bind Yaml.natOf = some usage.outputTokens.toNat

/-- The output is read as a mapping of what it was made of. -/
def YamlReadsBack (pretty : Json → String) (text thinking : String) (usage : Usage) : Prop :=
  ∃ output m, formatOutput pretty text thinking usage "yaml" = .ok output ∧
    Yaml.read output.toList = some m ∧ ReadsBack text thinking usage m

/-- A text of printable lines, of which the first that is not empty starts with no blank. -/
structure Writable (t : String) : Prop where
  printable : ∀ c ∈ crlf t.toList, c = '\n' ∨ Yaml.printable c = true
  flush : Flush (crlf t.toList)

/-! ### The lines of a text -/

theorem stripCr_cons {c : Char} {p : List Char} (h : p ≠ [] ∨ c ≠ '\r') :
    stripCr (c :: p) = c :: stripCr p := by
  cases p with
  | nil =>
    have hc : c ≠ '\r' := h.resolve_left fun hne => hne rfl
    rw [stripCr, List.getLast?_singleton, if_neg fun heq => hc (Option.some.inj heq)]
    rfl
  | cons d p =>
    rw [stripCr, stripCr, List.getLast?_cons_cons]
    split
    · rfl
    · rfl

theorem head?_of_splitOn {cs p : List Char} {ps : List (List Char)}
    (h : cs.splitOn '\n' = [] :: p :: ps) : cs.head? = some '\n' := by
  cases cs with
  | nil => cases h
  | cons c cs =>
    rw [List.splitOn_cons_eq_if_modifyHead] at h
    by_cases hc : (c == '\n') = true
    · rw [eq_of_beq hc]
      rfl
    · rw [if_neg hc] at h
      obtain ⟨x, xs, hx⟩ := List.exists_cons_of_ne_nil (List.splitOn_ne_nil '\n' cs)
      rw [hx] at h
      cases h

/-- Only the last line keeps a carriage return at its end. -/
def stripLines (ps : List (List Char)) : List (List Char) :=
  ps.dropLast.map stripCr ++ ps.getLast?.toList

theorem splitOn_crlf (cs : List Char) :
    (crlf cs).splitOn '\n' = stripLines (cs.splitOn '\n') := by
  induction cs with
  | nil => rfl
  | cons c cs ih =>
    obtain ⟨p, ps, hps⟩ := List.exists_cons_of_ne_nil (List.splitOn_ne_nil '\n' cs)
    rw [crlf, List.splitOn_cons_eq_if_modifyHead, hps]
    rw [hps] at ih
    by_cases hreturn : c = '\r' ∧ cs.head? = some '\n'
    -- the carriage return goes away with its line feed
    · obtain ⟨rfl, hhead⟩ := hreturn
      obtain ⟨cs, rfl⟩ : ∃ rest, cs = '\n' :: rest := by
        cases cs with
        | nil => cases hhead
        | cons d rest => exact ⟨rest, by rw [Option.some.inj hhead]⟩
      rw [if_pos ⟨rfl, hhead⟩, ih, if_neg (by decide)]
      rw [List.splitOn_cons_eq_if_modifyHead, if_pos (beq_self_eq_true _)] at hps
      cases hps
      obtain ⟨x, xs, hx⟩ := List.exists_cons_of_ne_nil (List.splitOn_ne_nil '\n' cs)
      rw [hx]
      rfl
    rw [if_neg hreturn, List.splitOn_cons_eq_if_modifyHead, ih]
    by_cases hc : (c == '\n') = true
    · rw [if_pos hc, if_pos hc]
      rfl
    · rw [if_neg hc, if_neg hc]
      cases ps with
      | nil => rfl
      | cons q qs =>
        have hstrip : stripCr (c :: p) = c :: stripCr p := by
          refine stripCr_cons (or_iff_not_imp_left.mpr fun hp heq => hreturn ⟨heq, ?_⟩)
          rw [not_not.mp hp] at hps
          exact head?_of_splitOn hps
        simp only [stripLines, List.modifyHead_cons, List.dropLast_cons_cons, List.map_cons,
          List.cons_append, List.getLast?_cons_cons, hstrip]

/-- The lines of a text, as lists of characters. -/
def lineChars (s : String) : List Line := (strLines s).map String.toList

theorem lineChars_eq (s : String) : lineChars s = ((crlf s.toList).splitOn '\n').dropLast ++
    ((crlf s.toList).splitOn '\n').getLast?.toList.filter (· ≠ []) := by
  rw [splitOn_crlf]
  obtain ⟨D, x, hx⟩ : ∃ D x, s.toList.splitOn '\n' = D ++ [x] :=
    ⟨_, _, (List.dropLast_append_getLast (List.splitOn_ne_nil '\n' s.toList)).symm⟩
  have hid : String.toList ∘ String.ofList = id := funext fun _ => String.toList_ofList
  rw [lineChars, strLines, stripLines, hx, List.map_map, hid, List.map_id]
  simp

/-- The lines of a text are those of its line feeds, up to line feeds at its end. -/
theorem lineChars_spec (s : String) :
    (∀ l ∈ lineChars s, '\n' ∉ l ∧ l ⊆ crlf s.toList) ∧
      trimBreaks (['\n'].intercalate (lineChars s)) = trimBreaks (crlf s.toList) := by
  obtain ⟨D, x, hx⟩ : ∃ D x, (crlf s.toList).splitOn '\n' = D ++ [x] :=
    ⟨_, _, (List.dropLast_append_getLast (List.splitOn_ne_nil '\n' _)).symm⟩
  have hlines : lineChars s = D ++ [x].filter (· ≠ []) := by
    rw [lineChars_eq, hx, List.dropLast_concat, List.getLast?_concat]
    rfl
  have htext : ['\n'].intercalate (D ++ [x]) = crlf s.toList := hx ▸ List.intercalate_splitOn '\n'
  refine ⟨fun l hl => ?_, ?_⟩
  · have hmem : l ∈ (crlf s.toList).splitOn '\n' := by
      rw [hlines, List.mem_append] at hl
      rw [hx, List.mem_append]
      exact hl.imp_right fun h => (List.mem_filter.mp h).1
    exact ⟨Framing.notMem_of_mem_splitOn hmem, fun c hc => Framing.mem_of_mem_splitOn hmem hc⟩
  · rw [hlines, ← htext]
    by_cases hempty : x = []
    · have hnone : [x].filter (· ≠ []) = [] := by simp [hempty]
      rw [hnone, List.append_nil, hempty]
      cases D with
      | nil => rfl
      | cons d D =>
        rw [Yaml.intercalate_concat_nil (List.cons_ne_nil d D), Yaml.trimBreaks_snoc]
    · have hsome : [x].filter (· ≠ []) = [x] := by simp [hempty]
      rw [hsome]

theorem flushLines_lineChars {s : String} : FlushLines (lineChars s) ↔ Flush (crlf s.toList) := by
  rw [← Yaml.flush_intercalate fun l hl => ((lineChars_spec s).1 l hl).1, ← Yaml.flush_trimBreaks,
    (lineChars_spec s).2, Yaml.flush_trimBreaks]

theorem exists_mem_lineChars {s : String} {c : Char} (h : c ∈ crlf s.toList) (hc : c ≠ '\n') :
    ∃ l ∈ lineChars s, c ∈ l := by
  have hmem := Yaml.mem_trimBreaks h hc
  rw [← (lineChars_spec s).2] at hmem
  exact Yaml.mem_intercalate (Yaml.mem_of_mem_trimBreaks hmem) hc

/-! ### The lines of the output -/

/-- The lines of an indented block: one at least. -/
def blockLines (s : String) : List Line :=
  if lineChars s = [] then [[]] else (lineChars s).map indentTwo

theorem toList_indented (s : String) :
    (indented s).toList = ['\n'].intercalate ((lineChars s).map indentTwo) := by
  rw [indented, String.toList_intercalate, List.map_map, lineChars, List.map_map]
  refine congrArg _ (List.map_congr_left fun l _ => ?_)
  exact String.toList_append

theorem splitOn_indented (s : String) : (indented s).toList.splitOn '\n' = blockLines s := by
  rw [toList_indented, blockLines]
  split
  · next h => rw [h]; rfl
  · next h =>
    refine List.splitOn_intercalate '\n' (fun l hl => ?_) (by simpa using h)
    obtain ⟨x, hx, rfl⟩ := List.mem_map.mp hl
    have hx := ((lineChars_spec s).1 x hx).1
    simpa [indentTwo] using hx

/-- The characters of the output. -/
theorem formatOutput_yaml (pretty : Json → String) (text thinking : String) (usage : Usage) :
    ∃ output, formatOutput pretty text thinking usage "yaml" = .ok output ∧
      output.toList = (if thinking = "" then [] else
          "thinking: |".toList ++ '\n' :: ((indented thinking).toList ++ ['\n'])) ++
        ("text: |".toList ++ '\n' :: ((indented text).toList ++ '\n' :: ("usage:".toList ++
          '\n' :: (("  input: ".toList ++ Nat.toDigits 10 usage.inputTokens.toNat) ++
            '\n' :: ("  output: ".toList ++ Nat.toDigits 10 usage.outputTokens.toNat))))) := by
  refine ⟨_, rfl, ?_⟩
  have hstring : ∀ s : String, toString s = s := fun _ => rfl
  by_cases hthinking : thinking = ""
  · simp [hthinking, hstring]
  · simp [hthinking, hstring]

/-- The first line of a literal block scalar. -/
def literalHead (key : String) : Line := key.toList ++ [':', ' ', '|']

/-- The entries of the usage. -/
def usageEntries (usage : Usage) : List (Line × Line) :=
  [("input".toList, Nat.toDigits 10 usage.inputTokens.toNat),
    ("output".toList, Nat.toDigits 10 usage.outputTokens.toNat)]

/-- The lines of the output. -/
def outputLines (text thinking : String) (usage : Usage) : List Line :=
  (if thinking = "" then [] else literalHead "thinking" :: blockLines thinking) ++
    (literalHead "text" :: blockLines text ++ (("usage".toList ++ [':']) ::
      ((usageEntries usage).map fun e => indentTwo (e.1 ++ ':' :: ' ' :: e.2)) ++ []))

theorem notMem_toDigits (n : ℕ) {c : Char} (hc : c.isAlphanum = false) : c ∉ Nat.toDigits 10 n :=
  fun hmem => Yaml.ne_of_isPlain (Yaml.natOf_toDigits n).1 hmem hc rfl

theorem splitOn_output (pretty : Json → String) (text thinking : String) (usage : Usage) :
    ∃ output, formatOutput pretty text thinking usage "yaml" = .ok output ∧
      output.toList.splitOn '\n' = outputLines text thinking usage := by
  obtain ⟨output, hformat, houtput⟩ := formatOutput_yaml pretty text thinking usage
  have hlast : ∀ (l : Line) (n : ℕ), '\n' ∉ l → '\n' ∉ l ++ Nat.toDigits 10 n :=
    fun l n hl hmem => (List.mem_append.mp hmem).elim hl (notMem_toDigits n rfl)
  have htail : ("text: |".toList ++ '\n' :: ((indented text).toList ++ '\n' :: ("usage:".toList ++
      '\n' :: (("  input: ".toList ++ Nat.toDigits 10 usage.inputTokens.toNat) ++
        '\n' :: ("  output: ".toList ++ Nat.toDigits 10 usage.outputTokens.toNat))))).splitOn '\n' =
      literalHead "text" :: blockLines text ++ (("usage".toList ++ [':']) ::
        ((usageEntries usage).map fun e => indentTwo (e.1 ++ ':' :: ' ' :: e.2)) ++ []) := by
    rw [List.splitOn_append_cons_self_of_not_mem (by decide), List.splitOn_append_cons_self,
      List.splitOn_append_cons_self_of_not_mem (by decide),
      List.splitOn_append_cons_self_of_not_mem (hlast _ _ (by decide)),
      List.splitOn_eq_singleton (hlast _ _ (by decide)), splitOn_indented]
    rfl
  refine ⟨output, hformat, ?_⟩
  rw [houtput, outputLines, ← htail]
  split
  · rfl
  · rw [List.append_assoc, List.cons_append, List.append_assoc, List.singleton_append,
      List.splitOn_append_cons_self_of_not_mem (by decide), List.splitOn_append_cons_self,
      splitOn_indented]
    rfl

/-! ### Writing and reading -/

section Write

variable {text thinking : String} {usage : Usage}

theorem isInner_blockLines (s : String) : ∀ l ∈ blockLines s, Yaml.isInner l = true := by
  intro l hl
  rw [blockLines] at hl
  split at hl
  · rw [List.mem_singleton.mp hl]
    rfl
  · obtain ⟨x, -, rfl⟩ := List.mem_map.mp hl
    exact Yaml.isInner_indentTwo x

/-- The value a writable text is read as. -/
theorem literal_blockLines {s : String} (h : Writable s) :
    Yaml.literal (blockLines s) = some (Yaml.clip (['\n'].intercalate (lineChars s))) := by
  rw [blockLines]
  split
  · next hnil =>
    rw [hnil]
    rfl
  · exact Yaml.literal_indented (flushLines_lineChars.mpr h.flush)

theorem notMem_of_writable {s : String} (h : Writable s) : ∀ l ∈ lineChars s, '\r' ∉ l := by
  intro l hl hmem
  obtain hc | hc := h.printable _ (((lineChars_spec s).1 l hl).2 hmem)
  · cases hc
  · exact absurd hc (by decide)

/-- The value is the text. -/
theorem sameText_clip {s : String} (h : Writable s) :
    SameText (Yaml.clip (['\n'].intercalate (lineChars s))) s.toList := by
  have hreturn : '\r' ∉ Yaml.clip (['\n'].intercalate (lineChars s)) := by
    intro hmem
    obtain ⟨l, hl, hc⟩ := Yaml.mem_intercalate (Yaml.mem_of_mem_clip hmem (by decide)) (by decide)
    exact notMem_of_writable h l hl hc
  rw [SameText, Yaml.crlf_of_notMem hreturn, Yaml.trimBreaks_clip, (lineChars_spec s).2]

theorem printable_blockLines {s : String} (h : Writable s) :
    ∀ l ∈ blockLines s, ∀ c ∈ l, Yaml.printable c = true := by
  intro l hl c hc
  rw [blockLines] at hl
  split at hl
  · rw [List.mem_singleton.mp hl] at hc
    cases hc
  · obtain ⟨x, hx, rfl⟩ := List.mem_map.mp hl
    obtain ⟨hbreak, hsub⟩ := (lineChars_spec s).1 x hx
    have hc : c = ' ' ∨ c ∈ x := by simpa [indentTwo] using hc
    obtain rfl | hc := hc
    · rfl
    · refine (h.printable c (hsub hc)).resolve_left ?_
      rintro rfl
      exact hbreak hc

theorem printable_outputLines (htext : Writable text)
    (hthinking : thinking ≠ "" → Writable thinking) :
    ∀ l ∈ outputLines text thinking usage, ∀ c ∈ l, Yaml.printable c = true := by
  have hdigits : ∀ n : ℕ, ∀ c ∈ Nat.toDigits 10 n, Yaml.printable c = true := fun n c hc =>
    Yaml.printable_of_isDigit (Nat.isDigit_of_mem_toDigits (by decide) (by decide) hc)
  have hhead : ∀ c ∈ literalHead "thinking" ++ literalHead "text" ++ "usage:".toList ++
      "  input: ".toList ++ "  output: ".toList, Yaml.printable c = true :=
    List.all_eq_true.mp rfl
  simp only [List.mem_append] at hhead
  intro l hl c hc
  rw [outputLines, List.mem_append, List.append_nil, List.cons_append, List.mem_cons,
    List.mem_append, List.mem_cons] at hl
  obtain hl | rfl | hl | rfl | hl := hl
  · split at hl
    · cases hl
    · next hne =>
      obtain rfl | hl := List.mem_cons.mp hl
      · exact hhead c (by simp [hc])
      · exact printable_blockLines (hthinking hne) l hl c hc
  · exact hhead c (by simp [hc])
  · exact printable_blockLines htext l hl c hc
  · exact hhead c (.inl (.inl (.inr hc)))
  · rw [usageEntries, List.map_cons, List.map_singleton, List.mem_pair] at hl
    obtain rfl | rfl := hl
    · have hc : c ∈ "  input: ".toList ++ Nat.toDigits 10 usage.inputTokens.toNat := hc
      obtain hc | hc := List.mem_append.mp hc
      · exact hhead c (.inl (.inr hc))
      · exact hdigits _ c hc
    · have hc : c ∈ "  output: ".toList ++ Nat.toDigits 10 usage.outputTokens.toNat := hc
      obtain hc | hc := List.mem_append.mp hc
      · exact hhead c (.inr hc)
      · exact hdigits _ c hc

/-- The mapping that is read of writable texts. -/
def outputMapping (text thinking : String) (usage : Usage) : List (Line × Value) :=
  (if thinking = "" then [] else
    [("thinking".toList, .scalar (Yaml.clip (['\n'].intercalate (lineChars thinking))))]) ++
    [("text".toList, .scalar (Yaml.clip (['\n'].intercalate (lineChars text)))),
      ("usage".toList, .mapping (usageEntries usage))]

/-- The entries of the output, with their lines. -/
theorem blocks_outputLines (text thinking : String) (usage : Usage) :
    Yaml.blocks (outputLines text thinking usage) = ([],
      (if thinking = "" then [] else [(literalHead "thinking", blockLines thinking)]) ++
        [(literalHead "text", blockLines text), ("usage".toList ++ [':'],
          (usageEntries usage).map fun e => indentTwo (e.1 ++ ':' :: ' ' :: e.2))]) := by
  have hinner : ∀ l ∈ (usageEntries usage).map fun e => indentTwo (e.1 ++ ':' :: ' ' :: e.2),
      Yaml.isInner l = true := by
    intro l hl
    obtain ⟨e, -, rfl⟩ := List.mem_map.mp hl
    exact Yaml.isInner_indentTwo _
  have hnil : (Yaml.blocks []).1 = [] := rfl
  have husage := Yaml.blocks_entry (l := "usage".toList ++ [':']) _ rfl hinner hnil
  have htext := Yaml.blocks_entry (l := literalHead "text") _ rfl (isInner_blockLines text)
    (congrArg Prod.fst husage)
  rw [husage] at htext
  rw [outputLines]
  split
  · exact htext
  · rw [Yaml.blocks_entry (l := literalHead "thinking") _ rfl (isInner_blockLines thinking)
      (congrArg Prod.fst htext), htext]
    rfl

variable (usage) in
/-- Writable texts are read. -/
theorem read_output (pretty : Json → String) (htext : Writable text)
    (hthinking : thinking ≠ "" → Writable thinking) :
    ∃ output, formatOutput pretty text thinking usage "yaml" = .ok output ∧
      Yaml.read output.toList = some (outputMapping text thinking usage) := by
  obtain ⟨output, hformat, hsplit⟩ := splitOn_output pretty text thinking usage
  have hprintable : ∀ c ∈ output.toList, c = '\n' ∨ Yaml.printable c = true := by
    intro c hc
    by_cases hbreak : c = '\n'
    · exact .inl hbreak
    · have hjoin : ['\n'].intercalate (output.toList.splitOn '\n') = output.toList :=
        List.intercalate_splitOn '\n'
      rw [← hjoin, hsplit] at hc
      obtain ⟨l, hl, hmem⟩ := Yaml.mem_intercalate hc hbreak
      exact .inr (printable_outputLines htext hthinking l hl c hmem)
  have hreturn : '\r' ∉ output.toList := by
    intro hmem
    obtain hc | hc := hprintable _ hmem
    · cases hc
    · exact absurd hc (by decide)
  have hlines : Yaml.lines output.toList = outputLines text thinking usage :=
    (Yaml.lines_of_notMem hreturn).trans hsplit
  refine ⟨output, hformat, Yaml.read_eq_some.mpr ⟨fun c hc => ?_, ?_, ?_⟩⟩
  · rw [Yaml.crlf_of_notMem hreturn] at hc
    exact (hprintable c hc).imp_right .inr
  · rw [hlines, blocks_outputLines]
    exact List.forall_mem_nil _
  · have husage := Yaml.entry_inner "usage".toList rfl (Yaml.inner_indented
      (usageEntries usage) (List.cons_ne_nil _ _) fun e he => by
        obtain rfl | rfl := List.mem_pair.mp he
        · exact ⟨rfl, (Yaml.natOf_toDigits _).1⟩
        · exact ⟨rfl, (Yaml.natOf_toDigits _).1⟩)
    have hentry := Yaml.entry_literal "text".toList rfl (literal_blockLines htext)
    rw [hlines, blocks_outputLines, outputMapping]
    by_cases hempty : thinking = ""
    · rw [if_pos hempty, if_pos hempty]
      refine ⟨[some _, some _], ?_, rfl, ?_⟩
      · rw [List.nil_append, List.mapM_cons, List.mapM_cons, literalHead, hentry, husage]
        rfl
      · change ["text".toList, "usage".toList].Nodup
        decide
    · have hfirst := Yaml.entry_literal "thinking".toList rfl
        (literal_blockLines (hthinking hempty))
      rw [if_neg hempty, if_neg hempty]
      refine ⟨[some _, some _, some _], ?_, rfl, ?_⟩
      · rw [List.singleton_append, List.mapM_cons, List.mapM_cons, List.mapM_cons, literalHead,
          literalHead, hfirst, hentry, husage]
        rfl
      · change ["thinking".toList, "text".toList, "usage".toList].Nodup
        decide

end Write

/-! ### What a read text is -/

/-- A text whose output is accepted, and is read as a scalar that is flush, is writable. -/
theorem writable_of_read {s : String} {v : List Char}
    (hchars : ∀ c ∈ (indented s).toList, c = '\n' ∨ c = '\r' ∨ Yaml.printable c = true)
    (hv : '\r' ∉ v ∧ Flush v) (hsame : SameText v s.toList) : Writable s := by
  rw [SameText, Yaml.crlf_of_notMem hv.1] at hsame
  refine ⟨fun c hc => or_iff_not_imp_left.mpr fun hbreak => ?_, ?_⟩
  · have hreturn : c ≠ '\r' := by
      rintro rfl
      have hmem := Yaml.mem_trimBreaks hc hbreak
      rw [← hsame] at hmem
      exact hv.1 (Yaml.mem_of_mem_trimBreaks hmem)
    -- the character is in a line of the text, so in one of the block
    obtain ⟨l, hl, hmem⟩ := exists_mem_lineChars hc hbreak
    have hblock : c ∈ (indented s).toList := by
      rw [toList_indented]
      refine Yaml.mem_intercalate_of_mem (List.mem_map_of_mem hl) ?_
      exact List.mem_cons_of_mem _ (List.mem_cons_of_mem _ hmem)
    exact ((hchars c hblock).resolve_left hbreak).resolve_left hreturn
  · rw [← Yaml.flush_trimBreaks, ← hsame, Yaml.flush_trimBreaks]
    exact hv.2

/-- What is printed of a text and of a reasoning is in the output. -/
theorem indented_subset_output {pretty : Json → String} {text thinking output : String}
    {usage : Usage} (h : formatOutput pretty text thinking usage "yaml" = .ok output) :
    (indented text).toList ⊆ output.toList ∧
      (thinking ≠ "" → (indented thinking).toList ⊆ output.toList) := by
  obtain ⟨output', hformat, houtput⟩ := formatOutput_yaml pretty text thinking usage
  cases h.symm.trans hformat
  rw [houtput]
  refine ⟨fun c hc => ?_, fun hne c hc => ?_⟩
  · refine List.mem_append_right _ (List.mem_append_right _ (List.mem_cons_of_mem _ ?_))
    exact List.mem_append_left _ hc
  · rw [if_neg hne]
    refine List.mem_append_left _ (List.mem_append_right _ (List.mem_cons_of_mem _ ?_))
    exact List.mem_append_left _ hc

/-- What reads back was writable. -/
theorem YamlReadsBack.writable {pretty : Json → String} {text thinking : String} {usage : Usage}
    (h : YamlReadsBack pretty text thinking usage) :
    Writable text ∧ (thinking ≠ "" → Writable thinking) := by
  obtain ⟨output, m, hformat, hread, hback⟩ := h
  have hchars : ∀ c ∈ output.toList, c = '\n' ∨ c = '\r' ∨ Yaml.printable c = true := by
    intro c hc
    by_cases hreturn : c = '\r'
    · exact .inr (.inl hreturn)
    · exact Yaml.printable_of_read hread c (Yaml.mem_crlf hc hreturn)
  obtain ⟨htext, hthinking⟩ := indented_subset_output hformat
  refine ⟨?_, fun hne => ?_⟩
  · obtain ⟨v, hv, hsame⟩ := hback.text
    exact writable_of_read (fun c hc => hchars c (htext hc)) (Yaml.flush_of_read hread hv) hsame
  · obtain ⟨v, hv, hsame⟩ := hback.thinking hne
    exact writable_of_read (fun c hc => hchars c (hthinking hne hc))
      (Yaml.flush_of_read hread hv) hsame

/-- The output of the format `yaml` reads back exactly when its texts are printable and start with
no blank, after their first line ends. -/
theorem yamlReadsBack_iff (pretty : Json → String) (text thinking : String) (usage : Usage) :
    YamlReadsBack pretty text thinking usage ↔
      Writable text ∧ (thinking ≠ "" → Writable thinking) := by
  refine ⟨YamlReadsBack.writable, ?_⟩
  rintro ⟨htext, hthinking⟩
  obtain ⟨output, hformat, hread⟩ := read_output usage pretty htext hthinking
  refine ⟨output, _, hformat, hread, ⟨_, ?_, sameText_clip htext⟩, fun hne => ?_,
    usageEntries usage, ?_, ?_, ?_⟩
  · rw [outputMapping]
    split <;> rfl
  · refine ⟨_, ?_, sameText_clip (hthinking hne)⟩
    rw [outputMapping, if_neg hne]
    rfl
  · rw [outputMapping]
    split <;> rfl
  · exact (Yaml.natOf_toDigits _).2
  · exact (Yaml.natOf_toDigits _).2

/-- The indentation of a first line is not read as part of the text. -/
theorem indented_text_changes : ¬ ∀ (pretty : Json → String) (text thinking : String)
    (usage : Usage), YamlReadsBack pretty text thinking usage := by
  intro h
  have hback := h (fun _ => "\x7b\x7d") "    return None" "" ⟨12, 5⟩
  exact hback.writable.1.flush (by decide)

end Animus
