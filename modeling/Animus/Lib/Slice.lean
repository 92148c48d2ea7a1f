import Mathlib.Algebra.GroupWithZero.Nat
import Mathlib.Data.Nat.Notation
import Mathlib.Tactic.Common

/-!
# Strings cut at a byte offset

A prefix given by its length in bytes exists where the offset lies within the
string and between two characters.

## Main definitions

- `takeBytes`: the characters of the first bytes of a text
- `sliceTo`: the same of a string

## Main results

- `sliceTo_eq_some`: what a cut leaves
- `sliceTo_isSome_iff`: where a string can be cut
-/

namespace Slice

/-- The characters of the first `n` bytes; none where the cut is past the end or inside a
character. -/
def takeBytes (n : ℕ) : List Char → Option (List Char)
  | [] => if n = 0 then some [] else none
  | c :: cs =>
    if n = 0 then some []
    else if c.utf8Size ≤ n then (takeBytes (n - c.utf8Size) cs).map (c :: ·)
    else none

/-- `&s[..n]`, none where the program panics. -/
def sliceTo (s : String) (n : ℕ) : Option String := (takeBytes n s.toList).map String.ofList

/-- How many bytes a text has. -/
def byteCount (cs : List Char) : ℕ := (cs.map Char.utf8Size).sum

@[simp] theorem byteCount_nil : byteCount [] = 0 := rfl

@[simp] theorem byteCount_cons (c : Char) (cs : List Char) :
    byteCount (c :: cs) = c.utf8Size + byteCount cs := rfl

theorem byteCount_eq_zero {cs : List Char} : byteCount cs = 0 ↔ cs = [] := by
  cases cs with
  | nil => simp
  | cons c cs =>
    have hpos := c.utf8Size_pos
    simp only [byteCount_cons, reduceCtorEq, iff_false]
    omega

theorem utf8ByteSize_eq (s : String) : s.utf8ByteSize = byteCount s.toList := by
  obtain ⟨cs, rfl⟩ := s.exists_eq_ofList
  rw [String.toList_ofList]
  induction cs with
  | nil => rfl
  | cons c cs ih => simp [String.ofList_cons, ih, String.utf8ByteSize_append]

theorem takeBytes_eq_some {n : ℕ} {cs ds : List Char} :
    takeBytes n cs = some ds ↔ ds <+: cs ∧ byteCount ds = n := by
  induction cs generalizing n ds with
  | nil =>
    rw [takeBytes, Option.ite_none_right_eq_some, List.prefix_nil]
    constructor
    · rintro ⟨rfl, ⟨⟩⟩
      exact ⟨rfl, rfl⟩
    · rintro ⟨rfl, rfl⟩
      exact ⟨rfl, rfl⟩
  | cons c cs ih =>
    have hpos := c.utf8Size_pos
    rw [takeBytes]
    by_cases hn : n = 0
    · rw [if_pos hn, hn, byteCount_eq_zero]
      constructor
      · rintro ⟨⟩
        exact ⟨List.nil_prefix, rfl⟩
      · rintro ⟨-, rfl⟩
        rfl
    rw [if_neg hn, Option.ite_none_right_eq_some, Option.map_eq_some_iff]
    constructor
    · rintro ⟨hle, es, hes, rfl⟩
      obtain ⟨hpre, hcount⟩ := ih.mp hes
      refine ⟨List.cons_prefix_cons.mpr ⟨rfl, hpre⟩, ?_⟩
      rw [byteCount_cons, hcount]
      omega
    · rintro ⟨hpre, hcount⟩
      cases ds with
      | nil => exact absurd hcount.symm hn
      | cons d ds =>
        obtain ⟨rfl, htail⟩ := List.cons_prefix_cons.mp hpre
        rw [byteCount_cons] at hcount
        exact ⟨by omega, ds, ih.mpr ⟨htail, by omega⟩, rfl⟩

/-- A cut leaves the prefix of that many bytes. -/
theorem sliceTo_eq_some {s p : String} {n : ℕ} :
    sliceTo s n = some p ↔ (∃ q, s = p ++ q) ∧ p.utf8ByteSize = n := by
  rw [sliceTo, Option.map_eq_some_iff, utf8ByteSize_eq]
  constructor
  · rintro ⟨ds, hds, rfl⟩
    obtain ⟨⟨es, hes⟩, hcount⟩ := takeBytes_eq_some.mp hds
    rw [String.toList_ofList]
    refine ⟨⟨String.ofList es, ?_⟩, hcount⟩
    rw [← String.ofList_append, hes, String.ofList_toList]
  · rintro ⟨⟨q, rfl⟩, hcount⟩
    refine ⟨p.toList, takeBytes_eq_some.mpr ⟨?_, hcount⟩, String.ofList_toList⟩
    rw [String.toList_append]
    exact List.prefix_append ..

/-- A string can be cut where the offset is a position of it. -/
theorem sliceTo_isSome_iff {s : String} {n : ℕ} :
    (sliceTo s n).isSome ↔ (String.Pos.Raw.mk n).IsValid s := by
  rw [Option.isSome_iff_exists, String.Pos.Raw.isValid_iff_exists_append]
  constructor
  · rintro ⟨p, hp⟩
    obtain ⟨⟨q, hq⟩, rfl⟩ := sliceTo_eq_some.mp hp
    exact ⟨p, q, hq, rfl⟩
  · rintro ⟨p, q, hq, hp⟩
    exact ⟨p, sliceTo_eq_some.mpr ⟨⟨q, hq⟩, (congrArg String.Pos.Raw.byteIdx hp).symm⟩⟩

end Slice
