import Mathlib.Data.Nat.Notation
import Mathlib.Tactic.Common

/-!
# UTF-8

Encoding, and the decoding that never fails: the longest prefix of a character
that bytes break off is replaced by one `U+FFFD`.

## Main definitions

- `encode`: the bytes of a list of characters
- `decodeLossy`: the characters of any bytes, read one byte at a time

## Main results

- `decodeLossy_encode`: decoding undoes encoding
-/

namespace Utf8

/-- The bytes of a list of characters. -/
def encode (cs : List Char) : List UInt8 := cs.flatMap String.utf8EncodeChar

@[simp] theorem encode_nil : encode [] = [] := rfl

@[simp] theorem encode_cons (c : Char) (cs : List Char) :
    encode (c :: cs) = String.utf8EncodeChar c ++ encode cs := rfl

theorem encode_append (cs ds : List Char) : encode (cs ++ ds) = encode cs ++ encode ds := by
  simp [encode]

/-- The replacement character. -/
def replacement : Char := '\uFFFD'

/-- A character whose first bytes are read: how many more it needs, the range of
the next one, and the bits so far. -/
structure Pending where
  need : ℕ
  low : ℕ
  high : ℕ
  bits : ℕ

/-- A byte where a character may begin. Overlong forms, surrogates and values
past `U+10FFFF` are ruled out by the range of the second byte. -/
def start (b : ℕ) : List Char × Option Pending :=
  if b < 0x80 then ([Char.ofNat b], none)
  else if 0xC2 ≤ b ∧ b ≤ 0xDF then ([], some ⟨1, 0x80, 0xBF, b - 0xC0⟩)
  else if 0xE0 ≤ b ∧ b ≤ 0xEF then
    ([], some ⟨2, if b = 0xE0 then 0xA0 else 0x80, if b = 0xED then 0x9F else 0xBF, b - 0xE0⟩)
  else if 0xF0 ≤ b ∧ b ≤ 0xF4 then
    ([], some ⟨3, if b = 0xF0 then 0x90 else 0x80, if b = 0xF4 then 0x8F else 0xBF, b - 0xF0⟩)
  else ([replacement], none)

/-- One byte: the characters it completes, and what is left open. -/
def step : Option Pending → ℕ → List Char × Option Pending
  | none, b => start b
  | some p, b =>
    if p.low ≤ b ∧ b ≤ p.high then
      if p.need = 1 then ([Char.ofNat (p.bits * 64 + b % 64)], none)
      else ([], some ⟨p.need - 1, 0x80, 0xBF, p.bits * 64 + b % 64⟩)
    -- the broken character is replaced, and the byte may begin another
    else (replacement :: (start b).1, (start b).2)

def decodeFrom : Option Pending → List UInt8 → List Char
  | none, [] => []
  | some _, [] => [replacement]
  | q, b :: bs => (step q b.toNat).1 ++ decodeFrom (step q b.toNat).2 bs

/-- `String::from_utf8_lossy`. -/
def decodeLossy (bs : List UInt8) : List Char := decodeFrom none bs

theorem decodeFrom_cons (q : Option Pending) (b : UInt8) (bs : List UInt8) :
    decodeFrom q (b :: bs) = (step q b.toNat).1 ++ decodeFrom (step q b.toNat).2 bs := by
  cases q <;> rfl

/-! ### Decoding undoes encoding -/

theorem start_ascii {b : ℕ} (h : b < 0x80) : start b = ([Char.ofNat b], none) := if_pos h

theorem start_two {b : ℕ} (h : 0xC2 ≤ b ∧ b ≤ 0xDF) :
    start b = ([], some ⟨1, 0x80, 0xBF, b - 0xC0⟩) := by
  rw [start, if_neg (by omega), if_pos h]

theorem start_three {b : ℕ} (h : 0xE0 ≤ b ∧ b ≤ 0xEF) : start b =
    ([], some ⟨2, if b = 0xE0 then 0xA0 else 0x80, if b = 0xED then 0x9F else 0xBF, b - 0xE0⟩) := by
  rw [start, if_neg (by omega), if_neg (by omega), if_pos h]

theorem start_four {b : ℕ} (h : 0xF0 ≤ b ∧ b ≤ 0xF4) : start b =
    ([], some ⟨3, if b = 0xF0 then 0x90 else 0x80, if b = 0xF4 then 0x8F else 0xBF, b - 0xF0⟩) := by
  rw [start, if_neg (by omega), if_neg (by omega), if_neg (by omega), if_pos h]

/-- A continuation byte that completes the character. -/
theorem step_last {p : Pending} {b : ℕ} (h : p.low ≤ b ∧ b ≤ p.high) (hn : p.need = 1) :
    step (some p) b = ([Char.ofNat (p.bits * 64 + b % 64)], none) := by
  rw [step, if_pos h, if_pos hn]

/-- A continuation byte after which more are needed. -/
theorem step_next {p : Pending} {b : ℕ} (h : p.low ≤ b ∧ b ≤ p.high) (hn : p.need ≠ 1) :
    step (some p) b = ([], some ⟨p.need - 1, 0x80, 0xBF, p.bits * 64 + b % 64⟩) := by
  rw [step, if_pos h, if_neg hn]

theorem step_ofNat {q : Option Pending} {n : ℕ} (h : n < 256) (bs : List UInt8) :
    decodeFrom q (UInt8.ofNat n :: bs) = (step q n).1 ++ decodeFrom (step q n).2 bs := by
  rw [decodeFrom_cons, UInt8.toNat_ofNat_of_lt' h]

theorem decodeFrom_two {v : ℕ} (h : 0x80 ≤ v ∧ v ≤ 0x7FF) (bs : List UInt8) :
    decodeFrom none (UInt8.ofNat (v / 64 % 0x20 + 0xC0) :: UInt8.ofNat (v % 0x40 + 0x80) :: bs) =
      Char.ofNat v :: decodeFrom none bs := by
  have h1 : 0xC2 ≤ v / 64 % 0x20 + 0xC0 ∧ v / 64 % 0x20 + 0xC0 ≤ 0xDF := by omega
  have h2 : 0x80 ≤ v % 0x40 + 0x80 ∧ v % 0x40 + 0x80 ≤ 0xBF := by omega
  have hv : (v / 64 % 0x20 + 0xC0 - 0xC0) * 64 + (v % 0x40 + 0x80) % 64 = v := by omega
  rw [step_ofNat (by omega), step, start_two h1, List.nil_append, step_ofNat (by omega),
    step_last h2 rfl]
  simp only [hv, List.cons_append, List.nil_append]

theorem decodeFrom_three {v : ℕ} (h : 0x800 ≤ v ∧ v ≤ 0xFFFF) (hs : v < 0xD800 ∨ 0xDFFF < v)
    (bs : List UInt8) :
    decodeFrom none (UInt8.ofNat (v / 4096 % 0x10 + 0xE0) :: UInt8.ofNat (v / 64 % 0x40 + 0x80) ::
      UInt8.ofNat (v % 0x40 + 0x80) :: bs) = Char.ofNat v :: decodeFrom none bs := by
  have h1 : 0xE0 ≤ v / 4096 % 0x10 + 0xE0 ∧ v / 4096 % 0x10 + 0xE0 ≤ 0xEF := by omega
  have h2 : (if v / 4096 % 0x10 + 0xE0 = 0xE0 then 0xA0 else 0x80) ≤ v / 64 % 0x40 + 0x80 ∧
      v / 64 % 0x40 + 0x80 ≤ if v / 4096 % 0x10 + 0xE0 = 0xED then 0x9F else 0xBF := by
    split <;> split <;> omega
  have h3 : 0x80 ≤ v % 0x40 + 0x80 ∧ v % 0x40 + 0x80 ≤ 0xBF := by omega
  have hv : ((v / 4096 % 0x10 + 0xE0 - 0xE0) * 64 + (v / 64 % 0x40 + 0x80) % 64) * 64 +
      (v % 0x40 + 0x80) % 64 = v := by omega
  rw [step_ofNat (by omega), step, start_three h1, List.nil_append, step_ofNat (by omega),
    step_next h2 (by simp), List.nil_append, step_ofNat (by omega), step_last h3 rfl]
  simp only [hv, List.cons_append, List.nil_append]

theorem decodeFrom_four {v : ℕ} (h : 0x10000 ≤ v ∧ v < 0x110000) (bs : List UInt8) :
    decodeFrom none (UInt8.ofNat (v / 262144 % 0x08 + 0xF0) ::
      UInt8.ofNat (v / 4096 % 0x40 + 0x80) :: UInt8.ofNat (v / 64 % 0x40 + 0x80) ::
      UInt8.ofNat (v % 0x40 + 0x80) :: bs) = Char.ofNat v :: decodeFrom none bs := by
  have h1 : 0xF0 ≤ v / 262144 % 0x08 + 0xF0 ∧ v / 262144 % 0x08 + 0xF0 ≤ 0xF4 := by omega
  have h2 : (if v / 262144 % 0x08 + 0xF0 = 0xF0 then 0x90 else 0x80) ≤ v / 4096 % 0x40 + 0x80 ∧
      v / 4096 % 0x40 + 0x80 ≤ if v / 262144 % 0x08 + 0xF0 = 0xF4 then 0x8F else 0xBF := by
    split <;> split <;> omega
  have h3 : 0x80 ≤ v / 64 % 0x40 + 0x80 ∧ v / 64 % 0x40 + 0x80 ≤ 0xBF := by omega
  have h4 : 0x80 ≤ v % 0x40 + 0x80 ∧ v % 0x40 + 0x80 ≤ 0xBF := by omega
  have hv : (((v / 262144 % 0x08 + 0xF0 - 0xF0) * 64 + (v / 4096 % 0x40 + 0x80) % 64) * 64 +
      (v / 64 % 0x40 + 0x80) % 64) * 64 + (v % 0x40 + 0x80) % 64 = v := by omega
  rw [step_ofNat (by omega), step, start_four h1, List.nil_append, step_ofNat (by omega),
    step_next h2 (by simp), List.nil_append, step_ofNat (by omega), step_next h3 (by simp),
    List.nil_append, step_ofNat (by omega), step_last h4 rfl]
  simp only [hv, List.cons_append, List.nil_append]

theorem decodeFrom_encodeChar (c : Char) (bs : List UInt8) :
    decodeFrom none (String.utf8EncodeChar c ++ bs) = c :: decodeFrom none bs := by
  have hvalid : c.val.toNat < 0xD800 ∨ 0xDFFF < c.val.toNat ∧ c.val.toNat < 0x110000 := c.valid
  have hchar : Char.ofNat c.val.toNat = c := c.ofNat_toNat
  unfold String.utf8EncodeChar
  by_cases h1 : c.val.toNat ≤ 0x7F
  · rw [if_pos h1, List.cons_append, List.nil_append, step_ofNat (by omega), step,
      start_ascii (by omega), hchar]
    rfl
  rw [if_neg h1]
  by_cases h2 : c.val.toNat ≤ 0x7FF
  · rw [if_pos h2]
    exact (decodeFrom_two ⟨by omega, h2⟩ bs).trans (by rw [hchar])
  rw [if_neg h2]
  by_cases h3 : c.val.toNat ≤ 0xFFFF
  · rw [if_pos h3]
    exact (decodeFrom_three ⟨by omega, h3⟩ (by omega) bs).trans (by rw [hchar])
  · rw [if_neg h3]
    exact (decodeFrom_four ⟨by omega, by omega⟩ bs).trans (by rw [hchar])

/-- Decoding undoes encoding. -/
@[simp] theorem decodeLossy_encode (cs : List Char) : decodeLossy (encode cs) = cs := by
  induction cs with
  | nil => rfl
  | cons c cs ih => exact (decodeFrom_encodeChar c (encode cs)).trans (congrArg (c :: ·) ih)

theorem encode_injective {cs ds : List Char} (h : encode cs = encode ds) : cs = ds := by
  rw [← decodeLossy_encode cs, h, decodeLossy_encode]

end Utf8
