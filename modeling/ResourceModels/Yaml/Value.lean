import ResourceModels.Yaml.Spelling
import ResourceModels.Yaml.Walk

/-!
YAML values. A plain scalar is a null, a boolean, an integer or a number with a fraction if it is
spelled like one, and a text otherwise; other scalars are texts. Standard tags fix the type, and a
tag of one's own is kept with the value.
-/

namespace ResourceModels.Yaml

inductive Value
  | null
  | bool (b : Bool)
  | int (n : Int)
  | float (x : FloatValue)
  | str (s : String)
  | seq (items : List Value)
  | map (pairs : List (Value × Value))
  | tagged (tag : String) (v : Value)
deriving BEq, Inhabited

/-- Whether two numbers are the same. A zero is one number with either sign, and what is no number
is the same as itself. -/
def FloatValue.same : FloatValue → FloatValue → Bool
  | .finite x, .finite y => x = y || (x.digits = 0 && y.digits = 0)
  | x, y => x = y

namespace Value

mutual

/-- Whether two values are the same key. The order of the pairs of a mapping does not matter. -/
def same : Value → Value → Bool
  | .null, .null => true
  | .bool a, .bool b => a = b
  | .int m, .int n => m = n
  | .float x, .float y => x.same y
  | .str s, .str t => s = t
  | .seq items, .seq others => sameItems items others
  | .map pairs, .map others => pairs.length = others.length && samePairs pairs others
  | .tagged s v, .tagged t w => Tag.bareName s = Tag.bareName t && same v w
  | _, _ => false
termination_by structural v => v

def sameItems : List Value → List Value → Bool
  | [], [] => true
  | v :: rest, w :: others => same v w && sameItems rest others
  | _, _ => false
termination_by structural items => items

/-- Whether every pair is among others. -/
def samePairs : List (Value × Value) → List (Value × Value) → Bool
  | [], _ => true
  | (k, v) :: rest, others =>
    others.any (fun other => same k other.1 && same v other.2) && samePairs rest others
termination_by structural pairs => pairs

end

/-- Whether an integer fits into 64 bits, with or without sign. -/
def isWord (n : Int) : Bool := -(Nat.pow 2 63 : Int) ≤ n && n < Nat.pow 2 64

/-- The value of a plain scalar; integers beyond 64 bits are refused. -/
def ofPlain? (s : String) : Option Value :=
  match Spelling.reading s with
  | .null => some .null
  | .bool b => some (.bool b)
  | .int n => if isWord n then some (.int n) else none
  | .float x => some (.float x)
  | .str => some (.str s)

/-- The value of a scalar apart from a tag of one's own. A tag that has no meaning leaves it to the
spelling of a plain scalar. -/
def ofScalar? (tag : Option Tag) (style : ScalarStyle) (s : String) : Option Value :=
  match tag with
  | some .bool => (Spelling.bool? s).map .bool
  | some .int => ((Spelling.int? s.toList).filter isWord).map .int
  | some .float => (Spelling.float? s).map .float
  | some .null => if Spelling.null? s then some .null else none
  | some .other => some (.str s)
  | _ => if style = .plain then ofPlain? s else some (.str s)

/-- The value with a tag of one's own, if it has one. -/
def withTag (tag : Option Tag) (v : Value) : Value :=
  match Tag.ownName? tag with
  | some name => .tagged name v
  | none => v

/-- What is asked of a value: whether its keys have to differ, and whether it may have tags of one's
own. -/
structure Demands where
  distinctKeys : Bool
  ownTags : Bool

open Walk (node items collection fault orFault)

/-- Reads a value from its first event on. A key is compared with those before it as soon as it is
read. The fuel bounds how deep collections are nested. -/
def read (d : Demands) : Nat → Event → Walk Value
  | 0, _ => fault
  | _ + 1, .void => return .null
  | _ + 1, .scalar _ tag style s =>
    if !d.ownTags && (Tag.ownName? tag).isSome then fault
    else do return withTag tag (← orFault (ofScalar? tag style s))
  | fuel + 1, .seqStart _ tag =>
    if !d.ownTags && (Tag.ownName? tag).isSome then fault
    else do return withTag tag (.seq (← items (read d fuel)))
  | fuel + 1, .mapStart _ tag =>
    let pair (before : List (Value × Value)) : Walk (List (Value × Value)) := do
      let key ← node (read d fuel)
      if d.distinctKeys && before.any (same key ·.1) then fault
      else return (key, ← node (read d fuel)) :: before
    if !d.ownTags && (Tag.ownName? tag).isSome then fault
    else do return withTag tag (.map (← collection .mapEnd pair []).reverse)
  | _ + 1, _ => fault

def whole : Event → Walk Value := read ⟨true, true⟩ (Walk.depthLimit + 1)

/-- Reads a value that is set aside until it is known what it should be. -/
def setAside : Event → Walk Value := read ⟨false, false⟩ (Walk.depthLimit + 1)

/-- The values of the documents of a text in order, with the fault that ends them, if one does. -/
def stream (text : String) : List (Except ReadError Value) :=
  (Document.ofText text).map (·.read whole)

end Value

end ResourceModels.Yaml
