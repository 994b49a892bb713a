import ResourceModels.Decode

/-!
Typed reading straight from a document. Where a text is expected every scalar is one, however it is
spelled; a flag or a number has to be spelled like one, with whatever tag. A field without a meaning
is passed over, and one with a meaning may stand only once.
-/

namespace ResourceModels.Yaml.Walk

/-- Uses the result of typed reading of a value. The details of a mismatch are not told apart. -/
def fitting : Except Mismatch α → Walk α
  | .ok a => pure a
  | .error _ => fault

def text : Event → Walk String
  | .scalar _ _ _ s => return s
  | _ => fault

/-- Whether a scalar is looked at for a value of a type: it is plain, or a literal block with the
tag of the type. -/
def isSpelling (type : Tag) (tag : Option Tag) (style : ScalarStyle) : Bool :=
  style = .plain || (style = .literal && tag = some type)

def flag : Event → Walk Bool
  | .scalar _ tag style s =>
    if isSpelling .bool tag style then orFault (Spelling.bool? s) else fault
  | _ => fault

/-- A natural number below `2 ^ 64`. -/
def word : Event → Walk Nat
  | .scalar _ tag style s =>
    if isSpelling .int tag style then
      orFault ((Spelling.nat? s.toList).filter (· < Nat.pow 2 64))
    else fault
  | _ => fault

/-- Whether a node stands for nothing: a plain scalar that is empty or spelled like a null, or with
the tag of a null, which has to be spelled like one. -/
def isMissing : Event → Walk Bool
  | .void => return true
  | .scalar _ none .plain s => return s = "" || Spelling.null? s
  | .scalar _ (some .null) .plain s => if Spelling.null? s then return true else fault
  | _ => return false

/-- A value that may be missing. -/
def optional (read : Event → Walk α) (e : Event) : Walk (Option α) := do
  if ← isMissing e then return none else return some (← read e)

/-- Whether a node stands for a collection without parts. -/
def isEmptyNode : Event → Bool
  | .void => true
  | .scalar _ _ .plain s => s = ""
  | _ => false

def list (read : Event → Walk α) : Event → Walk (List α)
  | .seqStart .. => items read
  | e => if isEmptyNode e then return [] else fault

/-- Takes up the values at the keys of a mapping one after the other. -/
def mapping (take : σ → String → Walk σ) (start : σ) : Event → Walk σ
  | .mapStart .. => collection .mapEnd (fun s => do take s (← node text)) start
  | e => if isEmptyNode e then return start else fault

/-- A map from texts. Of two values at one key the later stays. -/
def dict (read : Event → Walk α) : Event → Walk (Dict α) :=
  mapping (fun d key => do return d.insert key (← node read)) []

/-- Takes up the fields of a record with a meaning. -/
def record (known : List String) (take : σ → String → Event → Walk σ) (start : σ) (e : Event) :
    Walk σ := do
  let step (p : σ × List String) (key : String) : Walk (σ × List String) := do
    if key ∉ known then
      pass
      return p
    else if key ∈ p.2 then fault
    else return (← node (take p.1 key), key :: p.2)
  return (← mapping step (start, []) e).1

/-- Any JSON value. It has no tags of one's own, and the keys of its objects may be spelled like
anything. The fuel bounds how deep collections are nested. -/
def jsonWithin : Nat → Event → Walk Json
  | 0, _ => fault
  | fuel + 1, .seqStart _ tag =>
    if (Tag.ownName? tag).isSome then fault else do return .arr (← items (jsonWithin fuel))
  | fuel + 1, .mapStart _ tag =>
    if (Tag.ownName? tag).isSome then fault
    else do
      return .obj (← collection .mapEnd
        (fun d => do return Dict.insert d (← node text) (← node (jsonWithin fuel))) [])
  | _ + 1, e => do fitting (Decode.json .yaml (← Value.whole e))

def json : Event → Walk Json := jsonWithin (depthLimit + 1)

end ResourceModels.Yaml.Walk
