import Animus.Lib.Framing

/-!
# Reading line by line

A reader of lines keeps a state, and an empty line makes it dispatch what it
has and start again. Cutting the text at empty lines first and reading the
lines of each block comes to the same.

## Main definitions

- `LineReader`: how a line changes the state, and what a state dispatches
- `LineReader.run`: what the reader dispatches on a sequence of lines
- `lines`: the complete lines of a text

## Main results

- `blocks_induction`: lines as blocks that end in an empty line
- `lines_unlines`: lines that are written are read back
- `lines_tail_ne_nil`: without two line ends in a row, only the first line may be empty
- `LineReader.Fresh.filterMap_frames`: block by block is line by line
-/

namespace Framing

/-! ### Readers -/

/-- How a line changes what a reader has, and what it dispatches at an empty line. -/
structure LineReader (α σ ε : Type) where
  start : σ
  read : σ → List α → σ
  dispatch : σ → Option ε

namespace LineReader

variable {α σ ε : Type} (R : LineReader α σ ε)

/-- An empty line dispatches, and clears in any case. -/
def run : σ → List (List α) → List ε
  | _, [] => []
  | s, line :: ls =>
    if line = [] then (R.dispatch s).toList ++ run R.start ls else run (R.read s line) ls

/-- Lines that are not empty are only read. -/
theorem run_append {ls : List (List α)} (h : ∀ line ∈ ls, line ≠ []) (s : σ)
    (rest : List (List α)) : R.run s (ls ++ rest) = R.run (ls.foldl R.read s) rest := by
  induction ls generalizing s with
  | nil => rfl
  | cons line ls ih =>
    rw [List.cons_append, run, if_neg (h line List.mem_cons_self)]
    exact ih (fun x hx => h x (List.mem_cons_of_mem line hx)) _

theorem run_eq_nil {ls : List (List α)} (h : ∀ line ∈ ls, line ≠ []) (s : σ) : R.run s ls = [] := by
  have hrun := R.run_append h s []
  rwa [List.append_nil] at hrun

/-- A block of lines is read, and dispatched at its end. -/
theorem run_block {ls : List (List α)} (h : ∀ line ∈ ls, line ≠ []) (s : σ)
    (rest : List (List α)) : R.run s (ls ++ [] :: rest) =
      (R.dispatch (ls.foldl R.read s)).toList ++ R.run R.start rest := by
  rw [R.run_append h, run, if_pos rfl]

/-- A new reader has nothing to dispatch, and does not mind an empty line. -/
structure Fresh : Prop where
  dispatch_start : R.dispatch R.start = none
  read_nil : R.read R.start [] = R.start

variable {R}

theorem Fresh.run_append (hR : R.Fresh) {ls : List (List α)} (h : ∀ line ∈ ls.tail, line ≠ [])
    (rest : List (List α)) :
    R.run R.start (ls ++ rest) = R.run (ls.foldl R.read R.start) rest := by
  cases ls with
  | nil => rfl
  | cons line ls =>
    by_cases hl : line = []
    · rw [hl, List.cons_append, run, if_pos rfl, hR.dispatch_start, Option.toList_none,
        List.nil_append, List.foldl_cons, hR.read_nil]
      exact R.run_append h _ rest
    · exact R.run_append (List.forall_mem_cons.mpr ⟨hl, h⟩) _ rest

end LineReader

/-- Lines are blocks that end in an empty line, and lines after the last one. -/
theorem blocks_induction {α : Type} {motive : List (List α) → Prop}
    (pending : ∀ ls, (∀ line ∈ ls, line ≠ []) → motive ls)
    (block : ∀ b ls, (∀ line ∈ b, line ≠ []) → motive ls → motive (b ++ [] :: ls))
    (ls : List (List α)) : motive ls := by
  -- the lines since the last empty one are those of a block that is still open
  have hopen : ∀ b, (∀ line ∈ b, line ≠ []) → motive (b ++ ls) := by
    induction ls with
    | nil => exact fun b hb => (List.append_nil b).symm ▸ pending b hb
    | cons line ls ih =>
      intro b hb
      by_cases hl : line = []
      · exact hl ▸ block b ls hb (ih [] fun _ h => absurd h List.not_mem_nil)
      · rw [List.append_cons]
        refine ih _ fun x hx => ?_
        obtain hx | hx := List.mem_append.mp hx
        · exact hb x hx
        · exact List.mem_singleton.mp hx ▸ hl
  exact hopen [] fun _ h => absurd h List.not_mem_nil

/-! ### The lines of a text -/

variable {α : Type} [DecidableEq α]

/-- The complete lines of a text; what follows the last line end is not one. -/
def lines (nl : α) (l : List α) : List (List α) := (l.splitOn nl).dropLast

/-- An empty line, seen from the end of the line before it. -/
def emptyLine (nl : α) : Terminator α := ⟨[nl, nl], List.cons_ne_nil _ _⟩

variable {nl : α} {l b r : List α}

@[simp] theorem lines_nil : lines nl [] = [] := rfl

@[simp] theorem lines_cons_self : lines nl (nl :: l) = [] :: lines nl l := by
  rw [lines, List.splitOn_cons_eq_if_modifyHead, if_pos (beq_self_eq_true nl),
    List.dropLast_cons_of_ne_nil (List.splitOn_ne_nil nl l), lines]

theorem lines_cons_of_ne {c : α} (h : c ≠ nl) :
    lines nl (c :: l) = (lines nl l).modifyHead (c :: ·) := by
  rw [lines, List.splitOn_cons_eq_if_modifyHead, if_neg (mt beq_iff_eq.mp h), lines]
  match l.splitOn nl with
  | [] => rfl
  | [_] => rfl
  | _ :: _ :: _ => rfl

/-- The last line of a text ends at the next line end. -/
theorem lines_append : lines nl (b ++ nl :: r) = b.splitOn nl ++ lines nl r := by
  rw [lines, List.splitOn_append_cons_self,
    List.dropLast_append_of_ne_nil (List.splitOn_ne_nil nl r),
    lines]

theorem splitOn_eq_lines (b : List α) : b.splitOn nl = lines nl (b ++ [nl]) := by
  rw [lines_append, lines_nil, List.append_nil]

theorem splitOn_of_notMem (h : nl ∉ b) : b.splitOn nl = [b] := by
  rw [List.splitOn_eq_splitOnP]
  refine List.splitOnP_eq_singleton fun c hc => beq_eq_false_iff_ne.mpr ?_
  rintro rfl
  exact h hc

/-- Lines that are written each with its line end are read back. -/
theorem lines_unlines {ls : List (List α)} (h : ∀ line ∈ ls, nl ∉ line) :
    lines nl (ls.flatMap (· ++ [nl])) = ls := by
  induction ls with
  | nil => rfl
  | cons line ls ih =>
    rw [List.flatMap_cons, List.append_assoc, List.singleton_append, lines_append,
      splitOn_of_notMem (h line List.mem_cons_self), ih fun x hx => h x (List.mem_cons_of_mem _ hx)]
    rfl

/-- A text with an empty first line starts with a line end. -/
theorem eq_cons_of_lines {ls : List (List α)} (h : lines nl l = [] :: ls) : [nl] <+: l := by
  cases l with
  | nil => cases h
  | cons c l =>
    by_cases hc : c = nl
    · exact hc ▸ List.prefix_append [c] l
    · rw [lines_cons_of_ne hc] at h
      cases hl : lines nl l with
      | nil =>
        rw [hl] at h
        cases h
      | cons x xs =>
        rw [hl] at h
        cases h

/-- Without two line ends in a row, only the first line may be empty. -/
theorem lines_tail_ne_nil (h : ¬ [nl, nl] <:+: l) : ∀ line ∈ (lines nl l).tail, line ≠ [] := by
  induction l with
  | nil => exact fun line hline => absurd hline List.not_mem_nil
  | cons c l ih =>
    rw [List.infix_cons_iff, not_or] at h
    by_cases hc : c = nl
    · subst hc
      rw [lines_cons_self, List.tail_cons]
      cases hl : lines c l with
      | nil => exact fun line hline => absurd hline List.not_mem_nil
      | cons x xs =>
        intro line hline
        obtain rfl | hline := List.mem_cons.mp hline
        · rintro rfl
          exact h.1 ((List.prefix_append_right_inj [c]).mpr (eq_cons_of_lines hl))
        · have ih' := ih h.2
          rw [hl] at ih'
          exact ih' line hline
    · rw [lines_cons_of_ne hc]
      cases hl : lines nl l with
      | nil => exact fun line hline => absurd hline List.not_mem_nil
      | cons x xs =>
        have ih' := ih h.2
        rwa [hl] at ih'

/-- What ends a line is in none. -/
theorem notMem_of_mem_splitOn {line : List α} (hline : line ∈ l.splitOn nl) : nl ∉ line := by
  induction l generalizing line with
  | nil =>
    rw [List.splitOn_nil, List.mem_singleton] at hline
    rw [hline]
    exact List.not_mem_nil
  | cons a l ih =>
    rw [List.splitOn_cons_eq_if_modifyHead] at hline
    split at hline
    · obtain rfl | hline := List.mem_cons.mp hline
      · exact List.not_mem_nil
      · exact ih hline
    · next ha =>
      cases hl : l.splitOn nl with
      | nil => exact absurd hl (List.splitOn_ne_nil nl l)
      | cons x xs =>
        rw [hl] at hline ih
        obtain rfl | hline := List.mem_cons.mp hline
        · rw [List.mem_cons, not_or]
          exact ⟨fun heq => ha (beq_iff_eq.mpr heq.symm), ih List.mem_cons_self⟩
        · exact ih (List.mem_cons_of_mem x hline)

/-- A symbol of a line is one of the text. -/
theorem mem_of_mem_splitOn {c : α} {line : List α} (hline : line ∈ l.splitOn nl) (hc : c ∈ line) :
    c ∈ l := by
  induction l generalizing line with
  | nil =>
    rw [List.splitOn_nil, List.mem_singleton] at hline
    rwa [hline] at hc
  | cons a l ih =>
    rw [List.splitOn_cons_eq_if_modifyHead] at hline
    split at hline
    · obtain rfl | hline := List.mem_cons.mp hline
      · cases hc
      · exact List.mem_cons_of_mem a (ih hline hc)
    · cases hl : l.splitOn nl with
      | nil => exact absurd hl (List.splitOn_ne_nil nl l)
      | cons x xs =>
        rw [hl] at hline ih
        obtain rfl | hline := List.mem_cons.mp hline
        · obtain rfl | hc := List.mem_cons.mp hc
          · exact List.mem_cons_self
          · exact List.mem_cons_of_mem a (ih List.mem_cons_self hc)
        · exact List.mem_cons_of_mem a (ih (List.mem_cons_of_mem x hline) hc)

namespace LineReader

variable {σ ε : Type} {R : LineReader α σ ε}

variable (R nl) in
/-- What the lines of a block dispatch, all read at once. -/
def readBlock (block : List α) : Option ε := R.dispatch ((block.splitOn nl).foldl R.read R.start)

variable (nl) in
/-- Block by block is line by line. -/
theorem Fresh.filterMap_frames (hR : R.Fresh) (l : List α) :
    (frames (emptyLine nl) l).1.filterMap (R.readBlock nl) = R.run R.start (lines nl l) := by
  induction l using frames.induct (emptyLine nl) with
  | case1 l h =>
    have hrun := hR.run_append (lines_tail_ne_nil (cut?_eq_none_iff.mp h)) []
    rw [List.append_nil] at hrun
    rw [frames_of_none h, hrun]
    rfl
  -- a block ends in two line ends: its lines, and an empty line that dispatches it
  | case2 l b r h ih =>
    have hb : ∀ line ∈ (b.splitOn nl).tail, line ≠ [] := by
      rw [splitOn_eq_lines]
      exact lines_tail_ne_nil (cut?_first h)
    have hl : lines nl l = b.splitOn nl ++ [] :: lines nl r := by
      have heq : l = b ++ nl :: nl :: r := by
        rw [cut?_eq_some h, List.append_assoc]
        rfl
      rw [heq, lines_append, lines_cons_self]
    rw [frames_of_some h, hl, hR.run_append hb, run, if_pos rfl, ← ih]
    cases hd : R.readBlock nl b with
    | none =>
      rw [List.filterMap_cons_none hd, ← readBlock, hd]
      rfl
    | some e =>
      rw [List.filterMap_cons_some hd, ← readBlock, hd]
      rfl

end LineReader

end Framing
