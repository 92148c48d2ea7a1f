import Mathlib.Algebra.Order.Ring.Nat
import Mathlib.Data.Nat.Notation
import Mathlib.Tactic.Ring

/-!
# UUIDs and their text forms

A UUID is a 128-bit number. Its text is the lower-case hyphenated form; parsing
accepts that form, the 32 digits alone, and the two wrapped forms.

## Main results

- `Uuid.parseStr_hyphenated`: parsing undoes printing
- `Uuid.utf8ByteSize_of_isPrefix`: the printed form is one byte a character
-/

/-- A 128-bit identifier. -/
structure Uuid where
  val : ℕ
  lt : val < 2 ^ 128
  deriving DecidableEq

namespace Uuid

/-- The identifier with a given number, read modulo `2 ^ 128`. -/
def ofNat (n : ℕ) : Uuid := ⟨n % 2 ^ 128, Nat.mod_lt _ (by decide)⟩

instance : Inhabited Uuid := ⟨ofNat 0⟩

@[ext] theorem ext {a b : Uuid} (h : a.val = b.val) : a = b := by
  cases a; cases b; cases h; rfl

/-- The lower-case digit of a number below sixteen. -/
def hexDigit (d : ℕ) : Char :=
  if d < 10 then Char.ofNat ('0'.toNat + d) else Char.ofNat ('a'.toNat + (d - 10))

/-- The value of a digit in either case. -/
def hexVal (c : Char) : Option ℕ :=
  if '0' ≤ c ∧ c ≤ '9' then some (c.toNat - '0'.toNat)
  else if 'a' ≤ c ∧ c ≤ 'f' then some (c.toNat - 'a'.toNat + 10)
  else if 'A' ≤ c ∧ c ≤ 'F' then some (c.toNat - 'A'.toNat + 10)
  else none

theorem hexVal_hexDigit : ∀ d < 16, hexVal (hexDigit d) = some d := by decide

theorem hexDigit_ne_hyphen : ∀ d < 16, hexDigit d ≠ '-' := by decide

/-- The last `k` hexadecimal digits of a number. -/
def toHex : ℕ → ℕ → List Char
  | 0, _ => []
  | k + 1, n => toHex k (n / 16) ++ [hexDigit (n % 16)]

/-- The number a digit string denotes after the digits read so far. -/
def fromHex (acc : ℕ) (cs : List Char) : Option ℕ :=
  cs.foldlM (fun acc c => (hexVal c).map (16 * acc + ·)) acc

@[simp] theorem length_toHex (k n : ℕ) : (toHex k n).length = k := by
  induction k generalizing n with
  | zero => rfl
  | succ k ih => simp [toHex, ih]

theorem hyphen_notMem_toHex (k n : ℕ) : '-' ∉ toHex k n := by
  induction k generalizing n with
  | zero => simp [toHex]
  | succ k ih =>
    simp only [toHex, List.mem_append, List.mem_singleton, not_or]
    exact ⟨ih _, (hexDigit_ne_hyphen _ (Nat.mod_lt _ (by decide))).symm⟩

theorem fromHex_toHex (k n acc : ℕ) :
    fromHex acc (toHex k n) = some (acc * 16 ^ k + n % 16 ^ k) := by
  induction k generalizing n with
  | zero => simp [fromHex, toHex, Nat.mod_one]
  | succ k ih =>
    have hd := hexVal_hexDigit (n % 16) (Nat.mod_lt _ (by decide))
    have hsplit : n % 16 ^ (k + 1) = 16 * (n / 16 % 16 ^ k) + n % 16 := by
      rw [pow_succ, Nat.mul_comm (16 ^ k) 16, Nat.mod_mul, Nat.add_comm]
    have hrest : (toHex k (n / 16)).foldlM
        (fun acc c => (hexVal c).map (16 * acc + ·)) acc =
        some (acc * 16 ^ k + n / 16 % 16 ^ k) := ih (n / 16)
    simp only [fromHex, toHex, List.foldlM_append, hrest, Option.bind_eq_bind, Option.bind_some,
      List.foldlM_cons, hd, Option.map_some, List.foldlM_nil, Option.pure_def, hsplit,
      Option.some.injEq]
    ring

/-- Cut thirty-two digits into the groups `8-4-4-4-12`. -/
def groups (ds : List Char) : List (List Char) :=
  [ds.take 8, (ds.drop 8).take 4, (ds.drop 12).take 4, (ds.drop 16).take 4, ds.drop 20]

theorem flatten_groups (ds : List Char) : (groups ds).flatten = ds := by
  have h16 : (ds.drop 16).take 4 ++ ds.drop 20 = ds.drop 16 := by
    rw [show ds.drop 20 = (ds.drop 16).drop 4 by simp, List.take_append_drop]
  have h12 : (ds.drop 12).take 4 ++ ds.drop 16 = ds.drop 12 := by
    rw [show ds.drop 16 = (ds.drop 12).drop 4 by simp, List.take_append_drop]
  have h8 : (ds.drop 8).take 4 ++ ds.drop 12 = ds.drop 8 := by
    rw [show ds.drop 12 = (ds.drop 8).drop 4 by simp, List.take_append_drop]
  simp only [groups, List.flatten_cons, List.flatten_nil, List.append_nil]
  rw [h16, h12, h8, List.take_append_drop]

/-- The printed form. -/
def hyphenated (u : Uuid) : String :=
  String.ofList (['-'].intercalate (groups (toHex 32 u.val)))

/-- The identifier of thirty-two digits. -/
def ofHex (cs : List Char) : Option Uuid :=
  (fromHex 0 cs).bind fun n => if h : n < 2 ^ 128 then some ⟨n, h⟩ else none

/-- Thirty-six characters: digits in five groups of fixed sizes. -/
def parseHyphenated (cs : List Char) : Option Uuid :=
  if (cs.splitOn '-').map List.length = [8, 4, 4, 4, 12] then ofHex (cs.splitOn '-').flatten
  else none

/-- `Uuid::parse_str`: thirty-two digits, the hyphenated form, or that form in
braces or after `urn:uuid:`. -/
def parseStr (s : String) : Option Uuid :=
  let cs := s.toList
  if cs.length = 32 then ofHex cs
  else if cs.length = 36 then parseHyphenated cs
  else if cs.length = 38 ∧ cs.head? = some '{' ∧ cs.getLast? = some '}' then
    parseHyphenated (cs.drop 1).dropLast
  else if cs.length = 45 ∧ cs.take 9 = "urn:uuid:".toList then parseHyphenated (cs.drop 9)
  else none

theorem ofHex_toHex (u : Uuid) : ofHex (toHex 32 u.val) = some u := by
  have hval : u.val % 16 ^ 32 = u.val :=
    Nat.mod_eq_of_lt (by have := u.lt; norm_num at this ⊢; omega)
  have h : fromHex 0 (toHex 32 u.val) = some u.val := by
    rw [fromHex_toHex, hval, Nat.zero_mul, Nat.zero_add]
  simp only [ofHex, h, Option.bind_some, dif_pos u.lt]

theorem splitOn_groups (u : Uuid) :
    (['-'].intercalate (groups (toHex 32 u.val))).splitOn '-' = groups (toHex 32 u.val) := by
  refine List.splitOn_intercalate '-' (fun l hl hmem => ?_) (by simp [groups])
  refine hyphen_notMem_toHex 32 u.val ?_
  rw [← flatten_groups (toHex 32 u.val)]
  exact List.mem_flatten.mpr ⟨l, hl, hmem⟩

theorem length_hyphenated (u : Uuid) : u.hyphenated.toList.length = 36 := by
  simp [hyphenated, groups, List.intercalate]

/-- Parsing undoes printing. -/
theorem parseStr_hyphenated (u : Uuid) : parseStr u.hyphenated = some u := by
  have hlen := length_hyphenated u
  have hgroups : (groups (toHex 32 u.val)).map List.length = [8, 4, 4, 4, 12] := by
    simp [groups]
  unfold parseStr
  simp only [hlen, Nat.reduceEqDiff, if_false, if_true]
  simp only [parseHyphenated, hyphenated, String.toList_ofList, splitOn_groups, hgroups, if_true,
    flatten_groups, ofHex_toHex]

/-! ### The length of a text in bytes -/

/-- A text of one-byte characters has as many bytes as characters. -/
theorem utf8ByteSize_ofList {cs : List Char} (h : ∀ c ∈ cs, c.utf8Size = 1) :
    (String.ofList cs).utf8ByteSize = cs.length := by
  induction cs with
  | nil => rfl
  | cons c cs ih =>
    have hcons : String.ofList (c :: cs) = String.singleton c ++ String.ofList cs :=
      @String.ofList_append [c] cs
    rw [hcons, String.utf8ByteSize_append, String.utf8ByteSize_singleton, h c List.mem_cons_self,
      ih fun d hd => h d (List.mem_cons_of_mem c hd), List.length_cons, Nat.add_comm]

theorem utf8Size_hexDigit : ∀ d < 16, (hexDigit d).utf8Size = 1 := by decide

theorem utf8Size_of_mem_toHex {k n : ℕ} {c : Char} (h : c ∈ toHex k n) : c.utf8Size = 1 := by
  induction k generalizing n with
  | zero => cases h
  | succ k ih =>
    obtain h | h := List.mem_append.mp h
    · exact ih h
    · rw [List.mem_singleton.mp h]
      exact utf8Size_hexDigit _ (Nat.mod_lt _ (by decide))

theorem mem_intercalate {α : Type} {sep a : α} {ls : List (List α)}
    (h : a ∈ [sep].intercalate ls) : a = sep ∨ a ∈ ls.flatten := by
  induction ls with
  | nil => cases h
  | cons l ls ih =>
    cases ls with
    | nil =>
      rw [List.intercalate_singleton] at h
      exact .inr (List.mem_append_left _ h)
    | cons m ls =>
      rw [List.intercalate_cons_cons, List.mem_append, List.mem_append, List.mem_singleton] at h
      obtain (h | h) | h := h
      · exact .inr (List.mem_append_left _ h)
      · exact .inl h
      · exact (ih h).imp_right (List.mem_append_right _)

/-- The printed form is one byte a character. -/
theorem utf8Size_of_mem_hyphenated {u : Uuid} {c : Char} (h : c ∈ u.hyphenated.toList) :
    c.utf8Size = 1 := by
  rw [hyphenated, String.toList_ofList] at h
  obtain rfl | h := mem_intercalate h
  · rfl
  · rw [flatten_groups] at h
    exact utf8Size_of_mem_toHex h

/-- So are its prefixes. -/
theorem utf8ByteSize_of_isPrefix {p : String} {u : Uuid} (h : p.toList <+: u.hyphenated.toList) :
    p.utf8ByteSize = p.length := by
  have hsize := utf8ByteSize_ofList fun c hc => utf8Size_of_mem_hyphenated (h.subset hc)
  rwa [String.ofList_toList, String.length_toList] at hsize

theorem utf8Size_of_hexVal {c : Char} {d : ℕ} (h : hexVal c = some d) : c.utf8Size = 1 := by
  have hle : ∀ {e : Char}, c ≤ e → e.val ≤ 127 → c.utf8Size = 1 := fun hce he =>
    Char.utf8Size_eq_one_iff.mpr (UInt32.le_trans hce he)
  unfold hexVal at h
  split at h
  · next hc => exact hle hc.2 (by decide)
  · split at h
    · next hc => exact hle hc.2 (by decide)
    · split at h
      · next hc => exact hle hc.2 (by decide)
      · cases h

theorem utf8Size_of_fromHex {cs : List Char} {acc n : ℕ} (h : fromHex acc cs = some n) :
    ∀ c ∈ cs, c.utf8Size = 1 := by
  induction cs generalizing acc with
  | nil => exact fun c hc => nomatch hc
  | cons c cs ih =>
    rw [fromHex, List.foldlM_cons, Option.bind_eq_bind, Option.bind_eq_some_iff] at h
    obtain ⟨m, hm, hrest⟩ := h
    obtain ⟨d, hd, -⟩ := Option.map_eq_some_iff.mp hm
    exact List.forall_mem_cons.mpr ⟨utf8Size_of_hexVal hd, ih hrest⟩

/-- A text of fewer than 36 characters and more bytes than that is no UUID. -/
theorem parseStr_eq_none {s : String} (hlen : s.length < 36) (hbytes : ¬ s.utf8ByteSize < 36) :
    parseStr s = none := by
  rw [← String.length_toList] at hlen
  unfold parseStr
  simp only
  split
  · rw [ofHex, Option.bind_eq_none_iff]
    intro n hn
    have hsize := utf8ByteSize_ofList (utf8Size_of_fromHex hn)
    rw [String.ofList_toList] at hsize
    omega
  · rw [if_neg (by omega), if_neg (by omega), if_neg (by omega)]

end Uuid
