import ResourceModels.Decode
import ResourceModels.Schema

/-!
Reading a schema. Null and a missing keyword are the same for the keywords that have a meaning here;
every other keyword is kept as it stands.
-/

namespace ResourceModels.Schema

open Yaml (Value)

/-- A schema under construction, with the keywords that are not yet taken up and the names of those
with a meaning that were met. -/
structure Draft where
  schema : Schema := {}
  others : List (String × Value) := []
  seen : List String := []

def withKeywords (p : Draft) (k : Keywords) : Draft :=
  { p with schema := { p.schema with keywords := k } }

def knownKeywords : List String :=
  ["$ref", "type", "format", "description", "properties", "items", "required", "allOf", "anyOf",
    "oneOf", "not", "additionalProperties", "enum", "default"]

/-- Notes a keyword, unless it has a meaning and was met before. -/
def Draft.meet? (p : Draft) (key : String) : Option Draft :=
  if key ∉ knownKeywords then some p
  else if key ∈ p.seen then none
  else some { p with seen := key :: p.seen }

section

variable (d : Dialect)

/-- A keyword that holds no schema. -/
def takeKeyword (p : Draft) (key : String) (v : Value) : Except Mismatch Draft :=
  let k := p.schema.keywords
  match key with
  | "$ref" => do
    return withKeywords p { k with reference := ← Decode.optional (Decode.text d) v }
  | "type" => do
    return withKeywords p { k with typeName := ← Decode.optional (Decode.text d) v }
  | "format" => do
    return withKeywords p { k with format := ← Decode.optional (Decode.text d) v }
  | "description" => do
    return withKeywords p { k with description := ← Decode.optional (Decode.text d) v }
  | "required" => do
    return withKeywords p { k with required := ← Decode.list d (Decode.text d) v }
  | "enum" => do
    return withKeywords p { k with values := ← Decode.list d (Decode.json d) v }
  | "default" => do
    return withKeywords p { k with default? := ← Decode.optional (Decode.json d) v }
  | key =>
    if Decode.hasTag v then .error .ownTag
    else .ok { p with others := p.others ++ [(key, v)] }

def finish (p : Draft) : Except Mismatch Schema := do
  let extensions ← p.others.mapM fun pair => do return (pair.1, ← Decode.json d pair.2)
  return { p.schema with
    keywords := { p.schema.keywords with extensions := Dict.ofList extensions } }

/-- The pairs of a map that a schema or its properties are read from. -/
def pairs? (v : Value) : Option (List (Value × Value)) :=
  match v.untag with
  | .map pairs => some pairs
  | .null => if d.nullIsEmpty then some [] else none
  | _ => none

end

mutual

def ofValue (d : Dialect) : Value → Except Mismatch Schema
  | .map pairs => ofPairs d {} pairs
  | .tagged _ v => ofUntagged d v
  | .null => if d.nullIsEmpty then .ok {} else Decode.mismatch d .null "struct Schema"
  | v => Decode.mismatch d v "struct Schema"
termination_by structural v => v

/-- The value below a tag, which is no other tag. -/
def ofUntagged (d : Dialect) : Value → Except Mismatch Schema
  | .map pairs => ofPairs d {} pairs
  | .null => if d.nullIsEmpty then .ok {} else Decode.mismatch d .null "struct Schema"
  | v => Decode.mismatch d v "struct Schema"
termination_by structural v => v

/-- Takes up keyword after keyword. -/
def ofPairs (d : Dialect) (p : Draft) : List (Value × Value) → Except Mismatch Schema
  | [] => finish d p
  | (key, v) :: rest => do
    let key ← Decode.fieldName d key
    let p ← (p.meet? key).elim (.error (.duplicate key)) .ok
    let s := p.schema
    match key with
    | "properties" =>
      ofPairs d { p with schema := { s with properties := ← ofProperties d v } } rest
    | "items" =>
      ofPairs d { p with schema := { s with items := ← ofOptional d v } } rest
    | "not" =>
      ofPairs d { p with schema := { s with not := ← ofOptional d v } } rest
    | "allOf" => ofPairs d { p with schema := { s with allOf := ← ofList d v } } rest
    | "anyOf" => ofPairs d { p with schema := { s with anyOf := ← ofList d v } } rest
    | "oneOf" => ofPairs d { p with schema := { s with oneOf := ← ofList d v } } rest
    | "additionalProperties" =>
      ofPairs d { p with schema := { s with additional := ← ofExtra d v } } rest
    | key => ofPairs d (← takeKeyword d p key v) rest
termination_by structural pairs => pairs

def ofOptional (d : Dialect) : Value → Except Mismatch (Option Schema)
  | .null => .ok none
  | .map pairs => do return some (← ofPairs d {} pairs)
  | .tagged _ v => do return some (← ofUntagged d v)
  | v => Decode.mismatch d v "struct Schema"
termination_by structural v => v

def ofProperties (d : Dialect) : Value → Except Mismatch (List (String × Schema))
  | .map pairs => do return Dict.ofList (← ofNamed d pairs)
  | .tagged _ (.map pairs) => do return Dict.ofList (← ofNamed d pairs)
  | v => if d.nullIsEmpty && v.untag == .null then .ok [] else Decode.mismatch d v.untag "a map"
termination_by structural v => v

def ofNamed (d : Dialect) : List (Value × Value) → Except Mismatch (List (String × Schema))
  | [] => .ok []
  | (key, v) :: rest => do
    let name ← Decode.text d key
    let s ← ofValue d v
    return (name, s) :: (← ofNamed d rest)
termination_by structural pairs => pairs

def ofList (d : Dialect) : Value → Except Mismatch (List Schema)
  | .seq items => ofItems d items
  | .tagged _ (.seq items) => ofItems d items
  | v =>
    if d.nullIsEmpty && v.untag == .null then .ok [] else Decode.mismatch d v.untag "a sequence"
termination_by structural v => v

def ofItems (d : Dialect) : List Value → Except Mismatch (List Schema)
  | [] => .ok []
  | v :: rest => do
    let s ← ofValue d v
    return s :: (← ofItems d rest)
termination_by structural items => items

/-- A flag or a schema; a mismatch within the schema only shows that it is neither. -/
def ofExtra (_ : Dialect) : Value → Except Mismatch (Option (Extra Schema))
  | .null => .ok none
  | .bool b => .ok (some (.flag b))
  | .map pairs =>
    if Decode.hasTagPairs pairs then .error .ownTag
    else match ofPairs .buffered {} pairs with
      | .ok s => .ok (some (.schema s))
      | .error _ => .error (.noVariant "AdditionalProperties")
  | .tagged .. => .error .ownTag
  | v => .error (if Decode.hasTag v then .ownTag else .noVariant "AdditionalProperties")
termination_by structural v => v

end

def ofJson (j : Json) : Except Mismatch Schema := ofValue .json (.ofJson j)

end ResourceModels.Schema
