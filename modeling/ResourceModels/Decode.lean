import ResourceModels.Json
import ResourceModels.Text.Printable
import ResourceModels.Yaml.Value

/-!
Typed reading of values. A value that does not fit is refused with a cause that says what was found
and what was expected. Formats differ in what may stand for a record or a list; a `Dialect` says
how. Fields are taken in the order they stand, so the first one that does not fit is reported.
-/

namespace ResourceModels

open Yaml (Value)

/-- Why a value does not fit a type. -/
inductive Mismatch
  | type (found expected : String)
  | value (found expected : String)
  | missing (field : String)
  | duplicate (field : String)
  | length (n : Nat) (expected : String)
  | noVariant (name : String)
  | unknownVariant (given : String) (expected : String)
  | ownTag
deriving DecidableEq, Repr

def Mismatch.message : Mismatch → String
  | .type found expected => "invalid type: " ++ found ++ ", expected " ++ expected
  | .value found expected => "invalid value: " ++ found ++ ", expected " ++ expected
  | .missing field => "missing field `" ++ field ++ "`"
  | .duplicate field => "duplicate field `" ++ field ++ "`"
  | .length n expected => "invalid length " ++ toString n ++ ", expected " ++ expected
  | .noVariant name => "data did not match any variant of untagged enum " ++ name
  | .unknownVariant given expected =>
    "unknown variant `" ++ given ++ "`, expected " ++ expected
  | .ownTag => "untagged and internally tagged enums do not support enum input"

/-- What a format lets stand for records and lists, and how it names what it finds. -/
structure Dialect where
  nullName : String
  /-- Whether null is an empty list and a record without fields. -/
  nullIsEmpty : Bool
  /-- Whether a list is a record, its items being the fields in order. -/
  listIsRecord : Bool
  floatText : Decimal → String

namespace Dialect

def json : Dialect := ⟨"null", false, true, Decimal.render "+"⟩

def yaml : Dialect := ⟨"unit value", true, false, Decimal.written⟩

/-- A YAML value after a first pass that tells variants apart. -/
def buffered : Dialect := ⟨"unit value", false, false, Decimal.written⟩

end Dialect

/-- How the fields of a record are given: by name or by position. -/
inductive Shape
  | named
  | listed (record : String) (size : Nat)

namespace Yaml.Value

mutual

def ofJson : Json → Value
  | .null => .null
  | .bool b => .bool b
  | .int n => .int n
  | .float x => .float (.finite x)
  | .str s => .str s
  | .arr items => .seq (ofJsonItems items)
  | .obj fields => .map (ofJsonFields fields)

def ofJsonItems : List Json → List Value
  | [] => []
  | j :: rest => ofJson j :: ofJsonItems rest

def ofJsonFields : List (String × Json) → List (Value × Value)
  | [] => []
  | (key, j) :: rest => (.str key, ofJson j) :: ofJsonFields rest

end

/-- The value below a tag of one's own. -/
def untag : Value → Value
  | .tagged _ v => v
  | v => v

end Yaml.Value

namespace Decode

variable (d : Dialect)

/-- What a value is called when it does not fit. -/
def describe : Value → String
  | .null => d.nullName
  | .bool true => "boolean `true`"
  | .bool false => "boolean `false`"
  | .int n => "integer `" ++ toString n ++ "`"
  | .float (.finite x) => "floating point `" ++ d.floatText x ++ "`"
  | .float (.infinity true) => "floating point `-inf`"
  | .float (.infinity false) => "floating point `inf`"
  | .float .nan => "floating point `NaN`"
  | .str s => "string " ++ Text.quoted s
  | .seq _ => "sequence"
  | .map _ => "map"
  | .tagged .. => "enum"

def mismatch (v : Value) (expected : String) : Except Mismatch α :=
  .error (.type (describe d v) expected)

def text (v : Value) : Except Mismatch String :=
  match v.untag with
  | .str s => .ok s
  | v => mismatch d v "a string"

def bool (v : Value) : Except Mismatch Bool :=
  match v.untag with
  | .bool b => .ok b
  | v => mismatch d v "a boolean"

/-- A natural number below `2 ^ bits`. -/
def word (bits : Nat) (v : Value) : Except Mismatch Nat :=
  let name := "u" ++ toString bits
  match v.untag with
  | .int n =>
    if 0 ≤ n ∧ n < Nat.pow 2 bits then .ok n.toNat else .error (.value (describe d v.untag) name)
  | v => mismatch d v name

/-- A value that may be null or missing. -/
def optional (read : Value → Except Mismatch α) : Value → Except Mismatch (Option α)
  | .null => .ok none
  | v => do return some (← read v)

def list (read : Value → Except Mismatch α) (v : Value) : Except Mismatch (List α) :=
  match v.untag with
  | .seq items => items.mapM read
  | .null => if d.nullIsEmpty then .ok [] else mismatch d .null "a sequence"
  | v => mismatch d v "a sequence"

def fieldName (key : Value) : Except Mismatch String :=
  match key.untag with
  | .str s => .ok s
  | v => mismatch d v "field identifier"

/-- A map from texts. Of two values at one key the later stays. -/
def dict (read : Value → Except Mismatch α) (v : Value) : Except Mismatch (Dict α) :=
  match v.untag with
  | .map pairs => do
    return Dict.ofList (← pairs.mapM fun pair => do return (← text d pair.1, ← read pair.2))
  | .null => if d.nullIsEmpty then .ok [] else mismatch d .null "a map"
  | v => mismatch d v "a map"

/-- Takes up the pairs of a record one after the other. No field with a meaning may stand twice. -/
def fields (known : List String) (take : σ → String → Value → Except Mismatch σ) :
    σ → List String → List (Value × Value) → Except Mismatch σ
  | s, _, [] => .ok s
  | s, seen, (key, v) :: rest => do
    let key ← fieldName d key
    if key ∈ known ∧ key ∈ seen then throw (.duplicate key)
    else fields known take (← take s key v) (key :: seen) rest

/-- Takes up the fields of a record. `order` are the names of all fields by position. -/
def record (name : String) (order : List String) (take : σ → String → Value → Except Mismatch σ)
    (start : σ) (v : Value) : Except Mismatch (σ × Shape) :=
  let expected := "struct " ++ name
  match v.untag with
  | .map pairs => do return (← fields d order take start [] pairs, .named)
  | .null => if d.nullIsEmpty then .ok (start, .named) else mismatch d .null expected
  | .seq items =>
    if d.listIsRecord then do
      let s ← (order.zip items).foldlM (fun s field => take s field.1 field.2) start
      if order.length < items.length then
        .error (.length items.length "fewer elements in array")
      else return (s, .listed name order.length)
    else mismatch d v.untag expected
  | v => mismatch d v expected

/-- A field that must be given, the one at the given position. -/
def required (shape : Shape) (field : String) (position : Nat) : Option α → Except Mismatch α
  | some a => .ok a
  | none =>
    match shape with
    | .named => .error (.missing field)
    | .listed record size =>
      .error (.length position ("struct " ++ record ++ " with " ++ toString size ++
        (if size = 1 then " element" else " elements")))

mutual

/-- Whether a tag of one's own stands anywhere in a value. -/
def hasTag : Value → Bool
  | .tagged .. => true
  | .seq items => hasTagItems items
  | .map pairs => hasTagPairs pairs
  | _ => false

def hasTagItems : List Value → Bool
  | [] => false
  | v :: rest => hasTag v || hasTagItems rest

def hasTagPairs : List (Value × Value) → Bool
  | [] => false
  | (k, v) :: rest => hasTag k || hasTag v || hasTagPairs rest

end

mutual

/-- Any JSON value. A number that is none becomes null. -/
def json : Value → Except Mismatch Json
  | .null => .ok .null
  | .bool b => .ok (.bool b)
  | .int n => .ok (.int n)
  | .float (.finite x) => .ok (.float x)
  | .float (.infinity _) => .ok .null
  | .float .nan => .ok .null
  | .str s => .ok (.str s)
  | .seq items => do return .arr (← jsonItems items)
  | .map pairs => do return .ofFields (← jsonPairs "a string key" pairs)
  | .tagged _ _ => .error (.type "enum" "any valid JSON value")

def jsonItems : List Value → Except Mismatch (List Json)
  | [] => .ok []
  | v :: rest => do return (← json v) :: (← jsonItems rest)

/-- The fields of an object. `expected` says what the first key has to be; a further one has to be
a string like any other. -/
def jsonPairs (expected : String) : List (Value × Value) → Except Mismatch (List (String × Json))
  | [] => .ok []
  | (k, v) :: rest => do
    match k.untag with
    | .str key => return (key, ← json v) :: (← jsonPairs "a string" rest)
    | k => mismatch d k expected

end

end Decode

end ResourceModels
