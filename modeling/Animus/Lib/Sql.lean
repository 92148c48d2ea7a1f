import Animus.Lib.Json
import Animus.Lib.Uuid

/-!
# SQL statements with numbered placeholders

`INSERT` and `UPDATE` as they are written: a column list, expressions over
`$1`, `$2`, … and the values bound to them. A `Schema` says how a row is read
column by column and built back.

## Main definitions

- `Value`, `Expr`: column values and expressions
- `Value.kept`: a value as its column holds it
- `Insert.row`: the row an `INSERT` makes
- `Update.hits`, `Update.apply`: the rows an `UPDATE` touches and what it makes of them
-/

namespace Sql

/-- A point in time, in microseconds. -/
abbrev Timestamp := ℤ

/-- A column value or a bound parameter. -/
inductive Value
  | null
  | uuid (u : Uuid)
  | text (s : String)
  | jsonb (j : Json)
  | int4 (n : ℤ)
  | int8 (n : ℤ)
  | timestamptz (t : Timestamp)

namespace Value

def ofOption {α : Type} (f : α → Value) : Option α → Value
  | some a => f a
  | none => .null

@[simp] theorem ofOption_some {α : Type} (f : α → Value) (a : α) : ofOption f (some a) = f a := rfl
@[simp] theorem ofOption_none {α : Type} (f : α → Value) : ofOption f none = .null := rfl

def isNull : Value → Bool
  | .null => true
  | _ => false

/-- The value as its column holds it, where `jsonb` is what a `jsonb` column gives back of the
JSON that is stored in it. -/
def kept (jsonb : Json → Json) : Value → Value
  | .jsonb j => .jsonb (jsonb j)
  | v => v

section Kept

variable (jsonb : Json → Json)

@[simp] theorem kept_jsonb (j : Json) : (Value.jsonb j).kept jsonb = .jsonb (jsonb j) := rfl
@[simp] theorem kept_uuid (u : Uuid) : (Value.uuid u).kept jsonb = .uuid u := rfl
@[simp] theorem kept_text (s : String) : (Value.text s).kept jsonb = .text s := rfl
@[simp] theorem kept_int4 (n : ℤ) : (Value.int4 n).kept jsonb = .int4 n := rfl
@[simp] theorem kept_int8 (n : ℤ) : (Value.int8 n).kept jsonb = .int8 n := rfl

@[simp] theorem kept_timestamptz (t : Timestamp) :
    (Value.timestamptz t).kept jsonb = .timestamptz t := rfl

@[simp] theorem kept_ofOption_jsonb (o : Option Json) :
    (ofOption .jsonb o).kept jsonb = ofOption .jsonb (o.map jsonb) := by cases o <;> rfl

@[simp] theorem kept_ofOption_uuid (o : Option Uuid) :
    (ofOption .uuid o).kept jsonb = ofOption .uuid o := by cases o <;> rfl

@[simp] theorem kept_ofOption_text (o : Option String) :
    (ofOption .text o).kept jsonb = ofOption .text o := by cases o <;> rfl

@[simp] theorem kept_ofOption_int4 (o : Option ℤ) :
    (ofOption .int4 o).kept jsonb = ofOption .int4 o := by cases o <;> rfl

@[simp] theorem kept_ofOption_timestamptz (o : Option Timestamp) :
    (ofOption .timestamptz o).kept jsonb = ofOption .timestamptz o := by cases o <;> rfl

end Kept

/-- The least and greatest `integer`. -/
def inInt4 (n : ℤ) : Prop := -2 ^ 31 ≤ n ∧ n < 2 ^ 31

instance (n : ℤ) : Decidable (inInt4 n) := by unfold inInt4; infer_instance

/-- `integer` addition: out of range is an error. -/
def add : Value → Value → Option Value
  | .int4 m, .int4 n => if inInt4 (m + n) then some (.int4 (m + n)) else none
  | _, _ => none

/-- `=` where it is true; a comparison with `NULL` is not. -/
def same : Value → Value → Bool
  | .uuid a, .uuid b => a = b
  | .text a, .text b => a = b
  | .int4 a, .int4 b => a = b
  | .int8 a, .int8 b => a = b
  | .timestamptz a, .timestamptz b => a = b
  | _, _ => false

end Value

variable {C R : Type} [DecidableEq C]

/-- Expressions over the columns `C`. -/
inductive Expr (C : Type)
  | param (n : ℕ)
  | null
  | text (s : String)
  | col (c : C)
  | now
  | coalesce (a b : Expr C)
  | add (a b : Expr C)

/-- The value bound to `$n`; counting starts at one. -/
def bound (binds : List Value) : ℕ → Option Value
  | 0 => none
  | n + 1 => binds[n]?

/-- The value of an expression, or `none` when it raises an error. -/
def Expr.eval (binds : List Value) (now : Timestamp) (row : C → Value) : Expr C → Option Value
  | .param n => bound binds n
  | .null => some .null
  | .text s => some (.text s)
  | .col c => some (row c)
  | .now => some (.timestamptz now)
  | .coalesce a b =>
    (a.eval binds now row).bind fun v => if v.isNull then b.eval binds now row else some v
  | .add a b =>
    (a.eval binds now row).bind fun v => (b.eval binds now row).bind fun w => v.add w

/-- How rows `R` are laid out in columns `C`. -/
structure Schema (C R : Type) where
  read : R → C → Value
  build : (C → Value) → Option R
  default : Timestamp → C → Value

/-- `INSERT INTO … (columns) VALUES (values)`. -/
structure Insert (C : Type) where
  columns : List C
  values : List (Expr C)

/-- The inserted row: a column that is not listed takes its default. -/
def Insert.row (sch : Schema C R) (ins : Insert C) (binds : List Value) (now : Timestamp) :
    Option R :=
  (ins.values.mapM (Expr.eval binds now fun _ => .null)).bind fun vs =>
    if ins.columns.length = vs.length then
      sch.build fun c => ((ins.columns.zip vs).lookup c).getD (sch.default now c)
    else none

theorem Insert.row_eq {sch : Schema C R} {ins : Insert C} {binds vs : List Value}
    {now : Timestamp} (hv : ins.values.mapM (Expr.eval binds now fun _ => .null) = some vs)
    (hlen : ins.columns.length = vs.length) :
    ins.row sch binds now =
      sch.build fun c => ((ins.columns.zip vs).lookup c).getD (sch.default now c) := by
  rw [Insert.row, hv, Option.bind_some, if_pos hlen]

/-- `UPDATE … SET sets WHERE keys`, the condition a conjunction of equations. -/
structure Update (C : Type) where
  sets : List (C × Expr C)
  keys : List (C × Expr C)

/-- Does the condition hold of a row? -/
def Update.hits (sch : Schema C R) (upd : Update C) (binds : List Value) (now : Timestamp)
    (r : R) : Bool :=
  upd.keys.all fun (c, e) => match e.eval binds now (sch.read r) with
    | some v => (sch.read r c).same v
    | none => false

/-- The row as the assignments leave it, all of them reading the old row. -/
def Update.apply (sch : Schema C R) (upd : Update C) (binds : List Value) (now : Timestamp)
    (r : R) : Option R :=
  (upd.sets.mapM fun (s : C × Expr C) =>
    (s.2.eval binds now (sch.read r)).map (s.1, ·)).bind fun vs =>
      sch.build fun c => (vs.lookup c).getD (sch.read r c)

theorem Update.apply_eq {sch : Schema C R} {upd : Update C} {binds : List Value}
    {now : Timestamp} {r : R} {vs : List (C × Value)}
    (hv : (upd.sets.mapM fun (s : C × Expr C) =>
      (s.2.eval binds now (sch.read r)).map (s.1, ·)) = some vs) :
    upd.apply sch binds now r = sch.build fun c => (vs.lookup c).getD (sch.read r c) := by
  rw [Update.apply, hv, Option.bind_some]

end Sql
