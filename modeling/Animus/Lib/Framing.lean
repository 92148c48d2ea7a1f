import Mathlib.Data.List.Basic
import Mathlib.Tactic.Common

/-!
# Splitting a stream at a terminator

A buffer is cut at the first occurrence of the terminator as long as there is
one; what is left waits for more input. The frames do not depend on how the
input is cut into pieces.

## Main definitions

- `Terminator`: a non-empty word
- `cut?`: what stands before and after its first occurrence
- `frames`: all complete frames of a buffer, and the rest

## Main results

- `cut?_first`: the cut is at the first terminator
- `frames_append`: more input adds frames
- `frames_join`, `first_of_mem_frames`: a buffer is its frames and what is left
-/

namespace Framing

/-- The word that ends a frame. -/
structure Terminator (α : Type) where
  word : List α
  nonempty : word ≠ []

variable {α : Type} [DecidableEq α] (sep : Terminator α)

/-- What stands before and after the first occurrence of the terminator. -/
def cut? : List α → Option (List α × List α)
  | [] => none
  | a :: l =>
    if sep.word.isPrefixOf (a :: l) then some ([], (a :: l).drop sep.word.length)
    else (cut? l).map fun p => (a :: p.1, p.2)

variable {sep} {l : List α} {b r : List α}

theorem cut?_eq_some (h : cut? sep l = some (b, r)) : l = b ++ sep.word ++ r := by
  induction l generalizing b r with
  | nil => cases h
  | cons a l ih =>
    rw [cut?] at h
    split at h
    · next hp =>
      cases h
      exact (List.prefix_iff_eq_append.mp (List.isPrefixOf_iff_prefix.mp hp)).symm
    · obtain ⟨⟨b', r'⟩, hcut, heq⟩ := Option.map_eq_some_iff.mp h
      cases heq
      rw [ih hcut]
      rfl

/-- The rest after a cut is shorter. -/
theorem length_lt_of_cut? (h : cut? sep l = some (b, r)) : r.length < l.length := by
  have hpos := List.length_pos_iff.mpr sep.nonempty
  rw [cut?_eq_some h, List.length_append, List.length_append]
  omega

/-- A terminator that has been seen is not moved by more input. -/
theorem cut?_append (h : cut? sep l = some (b, r)) (more : List α) :
    cut? sep (l ++ more) = some (b, r ++ more) := by
  induction l generalizing b r with
  | nil => cases h
  | cons a l ih =>
    rw [cut?] at h
    rw [List.cons_append, cut?]
    split at h
    · next hp =>
      cases h
      have hpre := List.isPrefixOf_iff_prefix.mp hp
      have hpre' : sep.word <+: a :: (l ++ more) := hpre.trans (List.prefix_append (a :: l) more)
      rw [if_pos (List.isPrefixOf_iff_prefix.mpr hpre')]
      have hdrop : (a :: (l ++ more)).drop sep.word.length =
          (a :: l).drop sep.word.length ++ more :=
        List.drop_append_of_le_length hpre.length_le
      rw [hdrop]
    · next hp =>
      obtain ⟨⟨b', r'⟩, hcut, heq⟩ := Option.map_eq_some_iff.mp h
      cases heq
      have hlen : sep.word.length ≤ (a :: l).length := by
        rw [cut?_eq_some hcut, List.length_cons, List.length_append, List.length_append]
        omega
      -- the terminator ends inside `l`, so it does not begin here with `more` behind either
      have hnot : ¬ sep.word.isPrefixOf (a :: (l ++ more)) = true := fun hp' =>
        hp (List.isPrefixOf_iff_prefix.mpr (List.prefix_of_prefix_length_le
          (List.isPrefixOf_iff_prefix.mp hp') (List.prefix_append (a :: l) more) hlen))
      rw [if_neg hnot, ih hcut]
      rfl

/-- Symbols that are not in the terminator are passed over. -/
theorem cut?_skip (h : ∀ a ∈ b, a ∉ sep.word) (l : List α) :
    cut? sep (b ++ l) = (cut? sep l).map fun p => (b ++ p.1, p.2) := by
  induction b with
  | nil =>
    rw [List.nil_append]
    exact Option.map_id'.symm
  | cons a b ih =>
    have hnot : ¬ sep.word.isPrefixOf (a :: (b ++ l)) = true := by
      intro hp
      obtain ⟨s, hs⟩ := List.isPrefixOf_iff_prefix.mp hp
      cases hw : sep.word with
      | nil => exact sep.nonempty hw
      | cons x w =>
        rw [hw, List.cons_append] at hs
        have hx : x = a := (List.cons.inj hs).1
        exact h a List.mem_cons_self (by rw [hw, hx]; exact List.mem_cons_self)
    rw [List.cons_append, cut?, if_neg hnot, ih fun x hx => h x (List.mem_cons_of_mem a hx),
      Option.map_map]
    rfl

theorem cut?_word (r : List α) : cut? sep (sep.word ++ r) = some ([], r) := by
  cases hw : sep.word ++ r with
  | nil => exact absurd (List.append_eq_nil_iff.mp hw).1 sep.nonempty
  | cons a l =>
    rw [cut?, ← hw, if_pos (List.isPrefixOf_iff_prefix.mpr (List.prefix_append _ _)),
      List.drop_left]

/-- A frame without a symbol of the terminator ends where the terminator follows it. -/
theorem cut?_of_disjoint (h : ∀ a ∈ b, a ∉ sep.word) (r : List α) :
    cut? sep (b ++ sep.word ++ r) = some (b, r) := by
  rw [List.append_assoc, cut?_skip h, cut?_word, Option.map_some, List.append_nil]

/-- A terminator is found wherever there is one. -/
theorem cut?_eq_none_iff : cut? sep l = none ↔ ¬ sep.word <:+: l := by
  induction l with
  | nil => exact iff_of_true rfl fun h => sep.nonempty (List.infix_nil.mp h)
  | cons a l ih =>
    rw [cut?, List.infix_cons_iff, ← List.isPrefixOf_iff_prefix]
    split
    · next hp => exact iff_of_false (Option.some_ne_none _) fun h => h (.inl hp)
    · next hp => rw [Option.map_eq_none_iff, ih, or_iff_right hp]

/-- The terminator that is found is the first one. -/
theorem cut?_first (h : cut? sep l = some (b, r)) : ¬ sep.word <:+: b ++ sep.word.dropLast := by
  intro hmem
  obtain ⟨⟨b', r'⟩, hcut⟩ := Option.ne_none_iff_exists'.mp
    (mt cut?_eq_none_iff.mp (not_not_intro hmem))
  have hl : l = b ++ sep.word.dropLast ++ (sep.word.getLast sep.nonempty :: r) := by
    conv_lhs => rw [cut?_eq_some h, ← List.dropLast_append_getLast sep.nonempty]
    simp
  rw [hl, cut?_append hcut] at h
  obtain ⟨rfl, hr⟩ := Prod.mk.inj (Option.some.inj h)
  have hlen := congrArg List.length hr
  rw [List.length_append, List.length_cons] at hlen
  omega

variable (sep) in
/-- The complete frames of a buffer, and what is left of it. -/
def frames (buf : List α) : List (List α) × List α :=
  match _h : cut? sep buf with
  | none => ([], buf)
  | some (b, r) => (b :: (frames r).1, (frames r).2)
termination_by buf.length
decreasing_by exact length_lt_of_cut? _h

theorem frames_of_none (h : cut? sep l = none) : frames sep l = ([], l) := by
  rw [frames]
  split
  · rfl
  · next hs =>
    rw [h] at hs
    cases hs

theorem frames_of_some (h : cut? sep l = some (b, r)) :
    frames sep l = (b :: (frames sep r).1, (frames sep r).2) := by
  rw [frames]
  split
  · next hn =>
    rw [h] at hn
    cases hn
  · next hs =>
    rw [h] at hs
    cases hs
    rfl

/-- What is left has no terminator. -/
theorem cut?_rest (l : List α) : cut? sep (frames sep l).2 = none := by
  induction l using frames.induct sep with
  | case1 l h => rwa [frames_of_none h]
  | case2 l b r h ih => rwa [frames_of_some h]

/-- More input adds frames, from what was left. -/
theorem frames_append (l more : List α) : frames sep (l ++ more) =
    ((frames sep l).1 ++ (frames sep ((frames sep l).2 ++ more)).1,
      (frames sep ((frames sep l).2 ++ more)).2) := by
  induction l using frames.induct sep with
  | case1 l h => rw [frames_of_none h, List.nil_append]
  | case2 l b r h ih =>
    rw [frames_of_some h, frames_of_some (cut?_append h more), ih, List.cons_append]

variable (sep) in
/-- The frames with their terminators, and what is left, make up the buffer. -/
theorem frames_join (l : List α) :
    (frames sep l).1.flatMap (· ++ sep.word) ++ (frames sep l).2 = l := by
  induction l using frames.induct sep with
  | case1 l h => rw [frames_of_none h, List.flatMap_nil, List.nil_append]
  | case2 l b r h ih =>
    rw [frames_of_some h, List.flatMap_cons, List.append_assoc, ih, ← cut?_eq_some h]

/-- A frame ends at the first terminator. -/
theorem first_of_mem_frames (h : b ∈ (frames sep l).1) :
    ¬ sep.word <:+: b ++ sep.word.dropLast := by
  induction l using frames.induct sep with
  | case1 l hn =>
    rw [frames_of_none hn] at h
    cases h
  | case2 l b' r hs ih =>
    rw [frames_of_some hs] at h
    obtain rfl | h := List.mem_cons.mp h
    · exact cut?_first hs
    · exact ih h

/-- A frame, its terminator, and more. -/
theorem frames_frame (h : ∀ a ∈ b, a ∉ sep.word) (r : List α) :
    frames sep (b ++ sep.word ++ r) = (b :: (frames sep r).1, (frames sep r).2) :=
  frames_of_some (cut?_of_disjoint h r)

end Framing
