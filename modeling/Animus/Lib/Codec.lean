import Animus.Lib.Json
import Mathlib.Data.List.Nodup
import Mathlib.Data.List.Basic
import Mathlib.Order.Basic
import Mathlib.Algebra.Order.Ring.Int

/-!
# JSON codecs

How values of a type are written as JSON and read back, built from the codecs of
their parts as a serialization framework derives them: a record is an object of
its members, in any order and among others, or the array of their values.

## Main definitions

- `Codec`, `Codec.Reads`: writing and reading, and what a value is read back as
- `Codec.str`, `Codec.bool`, `Codec.value`, `Codec.integer`, `Codec.parsed`, `Codec.variant`,
  `Codec.option`: the codecs of scalars and optional values
- `Members`, `Codec.record`: the codecs of records

## Main results

- `Codec.reads_option`, `Codec.reads_record`: one rule for each
- `Codec.dec_obj_of_mem`: neither the order of members nor others beside them matter
-/

universe u v

/-- The JSON number of an integer. -/
def Json.ofInt (z : ℤ) : Json :=
  if 0 ≤ z then .num (.posInt (UInt64.ofNat z.toNat)) else .num (.negInt (Int64.ofInt z))

/-- The integer of a JSON number, if it is one. -/
def Json.toInt? : Json → Option ℤ
  | .num (.posInt n) => some n.toNat
  | .num (.negInt n) => some n.toInt
  | _ => none

theorem Json.toInt?_ofInt {z : ℤ} (hlow : -2 ^ 63 ≤ z) (hhigh : z < 2 ^ 64) :
    (Json.ofInt z).toInt? = some z := by
  unfold Json.ofInt
  split
  · next hz =>
    have hnat : (UInt64.ofNat z.toNat).toNat = z.toNat :=
      UInt64.toNat_ofNat_of_lt' (by change z.toNat < 2 ^ 64; omega)
    rw [Json.toInt?, hnat, Int.toNat_of_nonneg hz]
  · next hz => rw [Json.toInt?, Int64.toInt_ofInt_of_le (by omega) (by omega)]

theorem Json.ofInt_ne_null (z : ℤ) : Json.ofInt z ≠ .null := by
  unfold Json.ofInt
  split <;> nofun

/-- How values are written and read. -/
structure Codec (α : Type u) where
  enc : α → Json
  dec : Json → Option α
  /-- What is read where a member of this type is missing. -/
  absent : Option α := none

namespace Codec

variable {α : Type u} {β : Type v}

/-- The value `a`, written, is read back as `b`. -/
def Reads (c : Codec α) (a b : α) : Prop := c.dec (c.enc a) = some b

/-! ### Scalars -/

def str : Codec String where
  enc := .str
  dec := Json.asStr

/-- The Boolean of a value. -/
def decBool : Json → Option Bool
  | .bool b => some b
  | _ => none

def bool : Codec Bool where
  enc := .bool
  dec := decBool

/-- Any value, as it is. -/
def value : Codec Json where
  enc := id
  dec := some

/-- Integers from `lo` to below `hi`. -/
def integer (lo hi : ℤ) (toInt : α → ℤ) (ofInt : ℤ → α) : Codec α where
  enc a := .ofInt (toInt a)
  dec v := v.toInt?.bind fun z => if lo ≤ z ∧ z < hi then some (ofInt z) else none

/-- Values with a text form. -/
def parsed (print : α → String) (parse : String → Option α) : Codec α where
  enc a := .str (print a)
  dec v := v.asStr.bind parse

/-- The name of a variant without data: a text, or the only member of an object, which is null. -/
def variantName : Json → Option String
  | .str s => some s
  | .obj [(s, .null)] => some s
  | _ => none

/-- An enumeration by the names of its variants. -/
def variant (print : α → String) (parse : String → Option α) : Codec α where
  enc a := .str (print a)
  dec v := (variantName v).bind parse

theorem reads_str (s : String) : str.Reads s s := rfl

theorem reads_bool (b : Bool) : bool.Reads b b := rfl

theorem reads_value (v : Json) : value.Reads v v := rfl

theorem reads_integer {lo hi : ℤ} {toInt : α → ℤ} {ofInt : ℤ → α} {a : α} (hlo : -2 ^ 63 ≤ lo)
    (hhi : hi ≤ 2 ^ 64) (hlow : lo ≤ toInt a) (hhigh : toInt a < hi) (hback : ofInt (toInt a) = a) :
    (integer lo hi toInt ofInt).Reads a a := by
  change (Json.ofInt (toInt a)).toInt?.bind _ = _
  rw [Json.toInt?_ofInt (le_trans hlo hlow) (lt_of_lt_of_le hhigh hhi), Option.bind_some,
    if_pos ⟨hlow, hhigh⟩, hback]

theorem reads_parsed {print : α → String} {parse : String → Option α} {a : α}
    (h : parse (print a) = some a) : (parsed print parse).Reads a a := h

theorem reads_variant {print : α → String} {parse : String → Option α} {a : α}
    (h : parse (print a) = some a) : (variant print parse).Reads a a := h

/-! ### Optional values -/

/-- An optional value as it is written: `null` without one. -/
def encOption (c : Codec α) : Option α → Json
  | none => .null
  | some a => c.enc a

def decOption (c : Codec α) : Json → Option (Option α)
  | .null => some none
  | v => (c.dec v).map some

/-- A missing member is no value. -/
def option (c : Codec α) : Codec (Option α) where
  enc := c.encOption
  dec := c.decOption
  absent := some none

theorem reads_none (c : Codec α) : c.option.Reads none none := rfl

theorem reads_some {c : Codec α} {a b : α} (h : c.Reads a b) (hne : c.enc a ≠ .null) :
    c.option.Reads (some a) (some b) := by
  have hdec : c.decOption (c.enc a) = (c.dec (c.enc a)).map some := by
    cases hv : c.enc a with
    | null => exact absurd hv hne
    | _ => rfl
  change c.decOption (c.enc a) = some (some b)
  rw [hdec, h]
  rfl

/-- A value that is written as `null` is read back as none. -/
theorem reads_some_null {c : Codec α} {a : α} (h : c.enc a = .null) :
    c.option.Reads (some a) none := by
  change c.decOption (c.enc a) = some none
  rw [h]
  rfl

/-- An optional value whose codec loses nothing and never writes `null`. -/
theorem reads_option {c : Codec α} (h : ∀ a, c.Reads a a) (hne : ∀ a, c.enc a ≠ .null)
    (o : Option α) : c.option.Reads o o := by
  cases o with
  | none => exact c.reads_none
  | some a => exact reads_some (h a) (hne a)

end Codec

/-! ### Records -/

/-- The members of a record in order, with the readers of an object and of an array of them. -/
structure Members (α : Type u) where
  names : List String
  enc : α → List Json
  ofObject : (String → Option Json) → Option α
  ofArray : List Json → Option α
  length_enc : ∀ a, (enc a).length = names.length

namespace Members

variable {α : Type u} {β : Type v}

/-- No more elements are left. -/
def ofNil : List Json → Option Unit
  | [] => some ()
  | _ => none

def nil : Members Unit where
  names := []
  enc _ := []
  ofObject _ := some ()
  ofArray := ofNil
  length_enc _ := rfl

/-- A member as it is found. -/
def readMember (c : Codec α) : Option Json → Option α
  | some v => c.dec v
  | none => c.absent

/-- The first element, then the others. -/
def ofCons (c : Codec α) (rest : Members β) : List Json → Option (α × β)
  | [] => none
  | v :: vs => (c.dec v).bind fun a => (rest.ofArray vs).map fun b => (a, b)

/-- One more member, before the others. -/
def cons (name : String) (c : Codec α) (rest : Members β) : Members (α × β) where
  names := name :: rest.names
  enc a := c.enc a.1 :: rest.enc a.2
  ofObject get := (readMember c (get name)).bind fun a => (rest.ofObject get).map fun b => (a, b)
  ofArray := ofCons c rest
  length_enc a := congrArg (· + 1) (rest.length_enc a.2)

theorem enc_cons (name : String) (c : Codec α) (rest : Members β) (a : α) (b : β) :
    (cons name c rest).enc (a, b) = c.enc a :: rest.enc b := rfl

/-- The members of `a` are read back as those of `b`. -/
structure Reads (ms : Members α) (a b : α) : Prop where
  object : ∀ get : String → Option Json,
    (∀ p ∈ ms.names.zip (ms.enc a), get p.1 = some p.2) → ms.ofObject get = some b
  array : ms.ofArray (ms.enc a) = some b

theorem reads_nil : nil.Reads () () := ⟨fun _ _ => rfl, rfl⟩

theorem reads_cons {name : String} {c : Codec α} {rest : Members β} {a a' : α} {b b' : β}
    (h : c.Reads a a') (hrest : rest.Reads b b') :
    (cons name c rest).Reads (a, b) (a', b') where
  object get hget := by
    rw [cons, List.zip_cons_cons, List.forall_mem_cons] at hget
    have hread : readMember c (get name) = some a' := by
      rw [show get name = some (c.enc a) from hget.1]
      exact h
    change (readMember c (get name)).bind _ = _
    rw [hread, Option.bind_some, hrest.object get hget.2]
    rfl
  array := by
    change (c.dec (c.enc a)).bind _ = _
    rw [show c.dec (c.enc a) = some a' from h, Option.bind_some, hrest.array]
    rfl

end Members

/-- The members of an object that have one of the names. -/
def Json.known (names : List String) (fields : List (String × Json)) : List (String × Json) :=
  fields.filter fun p => p.1 ∈ names

/-- A member is found by its name where the name occurs once. -/
theorem Json.lookup_of_known {names : List String} {fields : List (String × Json)}
    (h : ((Json.known names fields).map Prod.fst).Nodup) {p : String × Json}
    (hname : p.1 ∈ names) (hp : p ∈ fields) : fields.lookup p.1 = some p.2 := by
  induction fields with
  | nil => cases hp
  | cons q fields ih =>
    obtain rfl | hp := List.mem_cons.mp hp
    · exact List.lookup_cons_self
    · have hknown : p ∈ Json.known names fields := List.mem_filter.mpr ⟨hp, decide_eq_true hname⟩
      have hne : (p.1 == q.1) = false := by
        rw [beq_eq_false_iff_ne]
        intro heq
        have hq : decide (q.1 ∈ names) = true := decide_eq_true (heq ▸ hname)
        rw [Json.known, List.filter_cons, if_pos hq, List.map_cons, List.nodup_cons] at h
        exact h.1 (heq ▸ List.mem_map_of_mem hknown)
      have hsub : (Json.known names fields).Sublist (Json.known names (q :: fields)) :=
        (List.sublist_cons_self q fields).filter _
      rw [List.lookup_cons, hne]
      exact ih ((hsub.map Prod.fst).nodup h) hp

namespace Codec

variable {α : Type u} {ρ : Type v}

/-- The value of an object, which has no member twice, or of an array. -/
def decRecord (ms : Members α) : Json → Option α
  | .obj fields =>
    if ((Json.known ms.names fields).map Prod.fst).Nodup then
      ms.ofObject fun k => fields.lookup k
    else none
  | .arr vs => ms.ofArray vs
  | _ => none

/-- A record by its members. -/
def record (ms : Members α) (parts : ρ → α) (make : α → ρ) : Codec ρ where
  enc r := .object (ms.names.zip (ms.enc (parts r)))
  dec v := (decRecord ms v).map make

variable {ms : Members α} {parts : ρ → α} {make : α → ρ} {r : ρ} {b : α}

/-- Members are read in any order, and others beside them are ignored. -/
theorem dec_obj_of_mem (h : ms.Reads (parts r) b) {fields : List (String × Json)}
    (hnodup : ((Json.known ms.names fields).map Prod.fst).Nodup)
    (hmem : ∀ p ∈ ms.names.zip (ms.enc (parts r)), p ∈ fields) :
    (record ms parts make).dec (.obj fields) = some (make b) := by
  have hget : ∀ p ∈ ms.names.zip (ms.enc (parts r)), fields.lookup p.1 = some p.2 := fun p hp =>
    Json.lookup_of_known hnodup (List.of_mem_zip hp).1 (hmem p hp)
  change (decRecord ms (.obj fields)).map make = _
  rw [decRecord, if_pos hnodup, h.object _ hget]
  rfl

/-- So is an array of their values. -/
theorem dec_arr (h : ms.Reads (parts r) b) :
    (record ms parts make).dec (.arr (ms.enc (parts r))) = some (make b) := by
  change (ms.ofArray (ms.enc (parts r))).map make = _
  rw [h.array]
  rfl

theorem nodup_known (hnames : ms.names.Nodup) :
    ((Json.known ms.names (ms.names.zip (ms.enc (parts r)))).map Prod.fst).Nodup := by
  have hsub : (Json.known ms.names (ms.names.zip (ms.enc (parts r)))).Sublist _ :=
    List.filter_sublist
  have hfst := hsub.map Prod.fst
  rw [List.map_fst_zip (Nat.le_of_eq (ms.length_enc _).symm)] at hfst
  exact hfst.nodup hnames

/-- A member is found under its name. -/
theorem key_of_mem (hnames : ms.names.Nodup) {p : String × Json}
    (hp : p ∈ ms.names.zip (ms.enc (parts r))) :
    ((record ms parts make).enc r).key p.1 = p.2 := by
  have hget := Json.lookup_of_known (nodup_known hnames) (List.of_mem_zip hp).1 hp
  change ((ms.names.zip (ms.enc (parts r))).lookup p.1).getD .null = p.2
  rw [hget, Option.getD_some]

/-- A record with distinct names is read back member by member. -/
theorem reads_record (hnames : ms.names.Nodup) (h : ms.Reads (parts r) b) :
    (record ms parts make).Reads r (make b) :=
  dec_obj_of_mem h (nodup_known hnames) fun _ hp => hp

end Codec
