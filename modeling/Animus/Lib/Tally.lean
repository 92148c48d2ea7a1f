import Mathlib.Data.Set.Card

/-!
# Counting the members of a family

How many entries of a family are of a kind, where only finitely many are, and
what replacing one entry does to that number.

## Main definitions

- `tally`: the number of indices whose entry is of a kind

## Main results

- `tally_update`: replacing an entry counts it out and its successor in
- `tally_eq_zero`: it is zero when no entry is of the kind
- `tally_mono`: a wider kind has at least as many members
-/

variable {ι α : Type*} {f : ι → α} {P : α → Bool}

/-- How many entries of a family are of the kind `P`. -/
noncomputable def tally (P : α → Bool) (f : ι → α) : ℕ := {i | P (f i) = true}.ncard

theorem tally_eq_zero (h : ∀ i, P (f i) = false) : tally P f = 0 := by
  have hempty : {i | P (f i) = true} = ∅ := by
    ext i
    simp [h i]
  rw [tally, hempty, Set.ncard_empty]

/-- An entry of the kind, apart from the others. -/
theorem tally_split (hf : {i | P (f i) = true}.Finite) (i : ι) :
    tally P f = ({j | P (f j) = true} \ {i}).ncard + (P (f i)).toNat := by
  cases hi : P (f i) with
  | true =>
    have hmem : i ∈ {j | P (f j) = true} := hi
    exact (Set.ncard_sdiff_singleton_add_one hmem hf).symm
  | false =>
    have hnot : i ∉ {j | P (f j) = true} := by simp [hi]
    rw [Set.sdiff_singleton_eq_self hnot]
    rfl

theorem toNat_le_tally (hf : {i | P (f i) = true}.Finite) (i : ι) :
    (P (f i)).toNat ≤ tally P f := by
  rw [tally_split hf i]
  exact Nat.le_add_left _ _

/-- A kind has no more members than one that contains it. -/
theorem tally_mono {Q : α → Bool} (hf : {i | Q (f i) = true}.Finite)
    (h : ∀ a, P a = true → Q a = true) : tally P f ≤ tally Q f :=
  Set.ncard_le_ncard (fun i hi => h (f i) hi) hf

section Update

variable [DecidableEq ι]

theorem finite_update (hf : {i | P (f i) = true}.Finite) (i : ι) (x : α) :
    {j | P (Function.update f i x j) = true}.Finite := by
  refine (hf.insert i).subset fun j hj => ?_
  by_cases hji : j = i
  · exact .inl hji
  · refine .inr ?_
    simpa [hji] using hj

/-- Replacing an entry counts it out and its successor in. -/
theorem tally_update (hf : {i | P (f i) = true}.Finite) (i : ι) (x : α) :
    tally P (Function.update f i x) + (P (f i)).toNat = tally P f + (P x).toNat := by
  have hsame : {j | P (Function.update f i x j) = true} \ {i} = {j | P (f j) = true} \ {i} := by
    ext j
    by_cases hji : j = i
    · simp [hji]
    · simp [hji]
  rw [tally_split (finite_update hf i x) i, tally_split hf i, hsame, Function.update_self]
  omega

end Update
