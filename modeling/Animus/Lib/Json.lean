import Mathlib.Data.Nat.Notation

/-!
# JSON values

The value type of a JSON library and its total accessors: indexing a value that
has no such member gives `null`, and a typed view of a value of another type is
absent.
-/

/-- A JSON number as it is held in memory; a float by its bits. -/
inductive JsonNumber
  | posInt (n : UInt64)
  | negInt (n : Int64)
  | float (bits : UInt64)
  deriving DecidableEq

/-- A JSON value. -/
inductive Json
  | null
  | bool (b : Bool)
  | num (n : JsonNumber)
  | str (s : String)
  | arr (vs : List Json)
  | obj (fields : List (String × Json))

namespace Json

instance : Inhabited Json := ⟨.null⟩

/-- The member of an object, if the value is an object and has it. -/
def get (v : Json) (key : String) : Option Json :=
  match v with
  | .obj fields => fields.lookup key
  | _ => none

/-- The element of an array, if the value is an array that long. -/
def getIdx (v : Json) (i : ℕ) : Option Json :=
  match v with
  | .arr vs => vs[i]?
  | _ => none

/-- `v["key"]`. -/
def key (v : Json) (k : String) : Json := (v.get k).getD .null

/-- `v[i]`. -/
def idx (v : Json) (i : ℕ) : Json := (v.getIdx i).getD .null

def asStr : Json → Option String
  | .str s => some s
  | _ => none

def asArray : Json → Option (List Json)
  | .arr vs => some vs
  | _ => none

/-- Only non-negative integers have this view. -/
def asU64 : Json → Option UInt64
  | .num (.posInt n) => some n
  | _ => none

/-- The object of a list of members. -/
def object (fields : List (String × Json)) : Json := .obj fields

@[simp] theorem asStr_str (s : String) : (Json.str s).asStr = some s := rfl
@[simp] theorem asStr_null : Json.null.asStr = none := rfl
@[simp] theorem asArray_arr (vs : List Json) : (Json.arr vs).asArray = some vs := rfl
@[simp] theorem asArray_null : Json.null.asArray = none := rfl
@[simp] theorem asU64_posInt (n : UInt64) : (Json.num (.posInt n)).asU64 = some n := rfl
@[simp] theorem asU64_null : Json.null.asU64 = none := rfl
@[simp] theorem get_obj (fields : List (String × Json)) (k : String) :
    (Json.obj fields).get k = fields.lookup k := rfl
@[simp] theorem key_obj (fields : List (String × Json)) (k : String) :
    (Json.obj fields).key k = (fields.lookup k).getD .null := rfl
@[simp] theorem key_null (k : String) : Json.null.key k = .null := rfl
@[simp] theorem idx_arr (vs : List Json) (i : ℕ) : (Json.arr vs).idx i = vs[i]?.getD .null := rfl
@[simp] theorem idx_null (i : ℕ) : Json.null.idx i = .null := rfl
@[simp] theorem getIdx_arr (vs : List Json) (i : ℕ) : (Json.arr vs).getIdx i = vs[i]? := rfl

end Json
