import Mathlib.Data.List.Basic
import Mathlib.Data.List.Nodup
import Mathlib.Data.List.Pairwise
import Mathlib.Tactic.Common

/-!
# Tables with a primary key and a uniqueness constraint

A table is a list of rows that carries its constraints: no two rows share a key,
and no two rows clash (the pairs a unique index refuses). Every operation keeps
both or reports that it cannot.

## Main definitions

- `Table.find`: the row with a key
- `Table.insert?`, `Table.update?`: refused when a constraint would break
- `Table.restrict`, `Table.relabel`: operations that cannot break one
-/

namespace Keyed

/-- The key of a row, and which rows may not be present together. -/
structure Schema (K R : Type) where
  key : R → K
  clash : R → R → Bool
  symm : ∀ a b, clash a b = clash b a

variable {K R : Type}

/-- What a list of rows must satisfy to be a table. -/
structure Valid (sch : Schema K R) (rows : List R) : Prop where
  nodup : (rows.map sch.key).Nodup
  unique : rows.Pairwise fun a b => sch.clash a b = false

theorem valid_iff (sch : Schema K R) (rows : List R) :
    Valid sch rows ↔ (rows.map sch.key).Nodup ∧ rows.Pairwise fun a b => sch.clash a b = false :=
  ⟨fun h => ⟨h.nodup, h.unique⟩, fun h => ⟨h.1, h.2⟩⟩

instance [DecidableEq K] (sch : Schema K R) (rows : List R) : Decidable (Valid sch rows) :=
  decidable_of_iff _ (valid_iff sch rows).symm

structure Table (sch : Schema K R) where
  rows : List R
  valid : Valid sch rows

namespace Table

variable {sch : Schema K R}

/-- The table with no rows. -/
def empty (sch : Schema K R) : Table sch := ⟨[], ⟨List.nodup_nil, .nil⟩⟩

theorem ext {t t' : Table sch} (h : t.rows = t'.rows) : t = t' := by
  cases t
  cases t'
  cases h
  rfl

/-- Two rows of a table that clash are one row. -/
theorem eq_of_clash {t : Table sch} {a b : R} (ha : a ∈ t.rows) (hb : b ∈ t.rows)
    (h : sch.clash a b = true) : a = b := by
  by_contra hne
  have : Std.Symm fun a b => sch.clash a b = false := ⟨fun a b h => by rw [sch.symm, h]⟩
  have hp := t.valid.unique.forall ha hb hne
  exact Bool.false_ne_true (hp.symm.trans h)

variable [DecidableEq K]

/-- The row with a key. -/
def find (t : Table sch) (k : K) : Option R := t.rows.find? fun r => sch.key r = k

@[simp] theorem find_empty (k : K) : (empty sch).find k = none := rfl

theorem find_eq_some {t : Table sch} {k : K} {r : R} :
    t.find k = some r ↔ r ∈ t.rows ∧ sch.key r = k := by
  constructor
  · intro h
    exact ⟨List.mem_of_find?_eq_some h, by simpa using List.find?_some h⟩
  · rintro ⟨hmem, rfl⟩
    obtain ⟨x, hx⟩ : ∃ x, t.rows.find? (fun x => sch.key x = sch.key r) = some x := by
      rw [← Option.isSome_iff_exists, List.find?_isSome]
      exact ⟨r, hmem, by simp⟩
    have hkey : sch.key x = sch.key r := by simpa using List.find?_some hx
    rw [find, hx, List.inj_on_of_nodup_map t.valid.nodup (List.mem_of_find?_eq_some hx) hmem hkey]

theorem find_key {t : Table sch} {k : K} {r : R} (h : t.find k = some r) : sch.key r = k :=
  (find_eq_some.mp h).2

theorem find_of_mem {t : Table sch} {r : R} (h : r ∈ t.rows) : t.find (sch.key r) = some r :=
  find_eq_some.mpr ⟨h, rfl⟩

theorem find_eq_none {t : Table sch} {k : K} : t.find k = none ↔ ∀ r ∈ t.rows, sch.key r ≠ k := by
  simp [find]

/-- Among rows with distinct keys at most one has a given key. -/
theorem countP_key_of_nodup {key : R → K} {rows : List R} (h : (rows.map key).Nodup) (k : K)
    (q : R → Bool) : (rows.countP fun r => decide (key r = k) && q r) =
      ((rows.find? fun r => key r = k).any q).toNat := by
  induction rows with
  | nil => rfl
  | cons r rows ih =>
    rw [List.map_cons, List.nodup_cons] at h
    rw [List.countP_cons, List.find?_cons]
    by_cases hk : key r = k
    · have hzero : (rows.countP fun r => decide (key r = k) && q r) = 0 := by
        rw [List.countP_eq_zero]
        intro x hx hq
        rw [Bool.and_eq_true, decide_eq_true_eq] at hq
        exact h.1 (List.mem_map.mpr ⟨x, hx, hq.1.trans hk.symm⟩)
      cases hq : q r <;> simp [hk, hzero, hq]
    · simpa [hk] using ih h.2

/-- At most one row has a key. -/
theorem countP_key (t : Table sch) (k : K) (q : R → Bool) :
    (t.rows.countP fun r => decide (sch.key r = k) && q r) = ((t.find k).any q).toNat :=
  countP_key_of_nodup t.valid.nodup k q

/-- Add a row, unless its key is taken or it clashes. -/
def insert? (t : Table sch) (r : R) : Option (Table sch) :=
  if h : Valid sch (r :: t.rows) then some ⟨r :: t.rows, h⟩ else none

theorem insert?_eq_some {t t' : Table sch} {r : R} (h : t.insert? r = some t') :
    t'.rows = r :: t.rows := by
  unfold insert? at h
  split at h
  · cases h; rfl
  · cases h

theorem insert?_isSome {t : Table sch} {r : R} (hkey : ∀ x ∈ t.rows, sch.key x ≠ sch.key r)
    (hclash : ∀ x ∈ t.rows, sch.clash r x = false) : ∃ t', t.insert? r = some t' := by
  have hv : Valid sch (r :: t.rows) := by
    refine ⟨?_, List.pairwise_cons.mpr ⟨hclash, t.valid.unique⟩⟩
    rw [List.map_cons, List.nodup_cons]
    refine ⟨fun hmem => ?_, t.valid.nodup⟩
    obtain ⟨x, hx, hk⟩ := List.mem_map.mp hmem
    exact hkey x hx hk
  exact ⟨⟨_, hv⟩, dif_pos hv⟩

theorem find_insert? {t t' : Table sch} {r : R} (h : t.insert? r = some t') (k : K) :
    t'.find k = if sch.key r = k then some r else t.find k := by
  rw [find, insert?_eq_some h, List.find?_cons]
  by_cases hk : sch.key r = k <;> simp [hk, find]

/-- Why an update is refused. -/
inductive Refusal
  | failed
  | violation
  deriving DecidableEq

/-- What an update makes of a row. -/
def changed (p : R → Bool) (f : R → Option R) (r : R) : R := if p r then (f r).getD r else r

/-- Replace each row `p` holds of by what `f` makes of it. The update fails as a
whole when one row fails, or when the rows it leaves break a constraint. -/
def update? (t : Table sch) (p : R → Bool) (f : R → Option R) : Except Refusal (Table sch) :=
  if t.rows.any fun r => p r && (f r).isNone then .error .failed
  else if h : Valid sch (t.rows.map (changed p f)) then .ok ⟨t.rows.map (changed p f), h⟩
  else .error .violation

theorem update?_eq_ok {t t' : Table sch} {p : R → Bool} {f : R → Option R}
    (h : t.update? p f = .ok t') :
    t'.rows = t.rows.map (changed p f) ∧ ∀ r ∈ t.rows, p r = true → ∃ r', f r = some r' := by
  unfold update? at h
  split at h
  · cases h
  · next hany =>
    split at h
    · cases h
      refine ⟨rfl, fun r hr hp => ?_⟩
      by_contra hnone
      simp only [List.any_eq_true, not_exists, not_and, Bool.and_eq_true, Option.isNone_iff_eq_none]
        at hany
      exact hany r hr hp (Option.eq_none_iff_forall_ne_some.mpr fun r' hr' => hnone ⟨r', hr'⟩)
    · cases h

/-- An update that touches no row changes nothing. -/
theorem update?_of_forall_not {t : Table sch} {p : R → Bool} {f : R → Option R}
    (h : ∀ r ∈ t.rows, p r = false) : t.update? p f = .ok t := by
  have hany : ¬ (t.rows.any fun r => p r && (f r).isNone) = true := by
    simp only [List.any_eq_true, not_exists, not_and]
    intro r hr hp
    rw [h r hr] at hp
    cases hp
  have hmap : t.rows.map (changed p f) = t.rows := by
    refine (List.map_congr_left fun r hr => ?_).trans (List.map_id _)
    simp [changed, h r hr]
  have hvalid : Valid sch (t.rows.map (changed p f)) := by
    rw [hmap]
    exact t.valid
  rw [update?, if_neg hany, dif_pos hvalid]
  exact congrArg Except.ok (ext hmap)

/-- An update that fails on a row it touches is refused. -/
theorem update?_of_failed {t : Table sch} {p : R → Bool} {f : R → Option R} {r : R}
    (hr : r ∈ t.rows) (hp : p r = true) (hf : f r = none) : t.update? p f = .error .failed := by
  have hany : (t.rows.any fun r => p r && (f r).isNone) = true :=
    List.any_eq_true.mpr ⟨r, hr, by rw [hp, hf]; rfl⟩
  rw [update?, if_pos hany]

/-- An update of rows to rows with the same key acts on each row found by key. -/
theorem find_update? {t t' : Table sch} {p : R → Bool} {f : R → Option R}
    (h : t.update? p f = .ok t') (hkey : ∀ r r', f r = some r' → sch.key r' = sch.key r) (k : K) :
    t'.find k = (t.find k).map (changed p f) := by
  have hk : ∀ r, sch.key (changed p f r) = sch.key r := by
    intro r
    unfold changed
    split
    · cases hf : f r with
      | none => rfl
      | some r' => exact hkey r r' hf
    · rfl
  rw [find, (update?_eq_ok h).1, List.find?_map]
  simp only [Function.comp_def, hk, find]

/-- An update is accepted when it succeeds on the rows it touches, keeps their
keys, and makes no row clash that did not clash before. -/
theorem update?_isOk {t : Table sch} {p : R → Bool} {f : R → Option R}
    (hf : ∀ r ∈ t.rows, p r = true → ∃ r', f r = some r' ∧ sch.key r' = sch.key r ∧
      ∀ x, sch.clash r' x = true → sch.clash r x = true) :
    ∃ t', t.update? p f = .ok t' := by
  have hch : ∀ r ∈ t.rows, sch.key (changed p f r) = sch.key r ∧
      ∀ x, sch.clash (changed p f r) x = true → sch.clash r x = true := by
    intro r hr
    unfold changed
    split
    · next hp =>
      obtain ⟨r', hr', hkey, hcl⟩ := hf r hr hp
      simpa [hr'] using ⟨hkey, hcl⟩
    · exact ⟨rfl, fun _ h => h⟩
  have hany : ¬ (t.rows.any fun r => p r && (f r).isNone) = true := by
    simp only [List.any_eq_true, Bool.and_eq_true, Option.isNone_iff_eq_none, not_exists, not_and]
    intro r hr hp hnone
    obtain ⟨r', hr', -⟩ := hf r hr hp
    rw [hnone] at hr'
    cases hr'
  have hvalid : Valid sch (t.rows.map (changed p f)) := by
    constructor
    · have hkeys : (t.rows.map (changed p f)).map sch.key = t.rows.map sch.key := by
        rw [List.map_map]
        exact List.map_congr_left fun r hr => (hch r hr).1
      rw [hkeys]
      exact t.valid.nodup
    · -- two changed rows that clash would have clashed before
      rw [List.pairwise_map]
      refine t.valid.unique.imp_of_mem fun {a b} ha hb hab => ?_
      by_contra hne
      have h1 := (hch a ha).2 _ ((Bool.not_eq_false _).mp hne)
      rw [sch.symm] at h1
      have h2 := (hch b hb).2 _ h1
      rw [sch.symm, hab] at h2
      cases h2
  exact ⟨_, by rw [update?, if_neg hany, dif_pos hvalid]⟩

/-- Keep the rows `p` holds of. -/
def restrict (t : Table sch) (p : R → Bool) : Table sch where
  rows := t.rows.filter p
  valid := ⟨t.valid.nodup.sublist (List.filter_sublist.map _),
    t.valid.unique.sublist List.filter_sublist⟩

theorem find_restrict (t : Table sch) (p : R → Bool) (k : K) :
    (t.restrict p).find k = (t.find k).filter p := by
  cases h : t.find k with
  | none =>
    rw [find_eq_none] at h
    simp only [Option.filter_none, find_eq_none, restrict, List.mem_filter]
    exact fun r hr => h r hr.1
  | some r =>
    obtain ⟨hmem, hkey⟩ := find_eq_some.mp h
    rw [Option.filter_some]
    split
    · next hp => exact find_eq_some.mpr ⟨List.mem_filter.mpr ⟨hmem, hp⟩, hkey⟩
    · next hp =>
      refine find_eq_none.mpr fun x hx hk => hp ?_
      obtain ⟨hx, hpx⟩ := List.mem_filter.mp hx
      have hxr : some x = some r := by rw [← find_of_mem hx, ← h, hk]
      exact Option.some.inj hxr ▸ hpx

/-- Rewrite every row to one with the same key that clashes with the same rows. -/
def relabel (t : Table sch) (f : R → R) (hkey : ∀ r, sch.key (f r) = sch.key r)
    (hclash : ∀ a b, sch.clash (f a) (f b) = sch.clash a b) : Table sch where
  rows := t.rows.map f
  valid := by
    constructor
    · rw [List.map_map, show sch.key ∘ f = sch.key from funext hkey]
      exact t.valid.nodup
    · rw [List.pairwise_map]
      exact t.valid.unique.imp fun {a b} h => by rw [hclash, h]

theorem find_relabel (t : Table sch) (f : R → R) (hkey : ∀ r, sch.key (f r) = sch.key r)
    (hclash : ∀ a b, sch.clash (f a) (f b) = sch.clash a b) (k : K) :
    (t.relabel f hkey hclash).find k = (t.find k).map f := by
  rw [find, relabel, List.find?_map]
  simp only [Function.comp_def, hkey, find]

end Table

end Keyed
