import ResourceModels.Go.Emission
import ResourceModels.Proofs.Schema.Nodes

/-!
# What decides the type of a schema

The first rule that applies to a schema is its form. The type of a schema is found by its form
alone, so every statement about emission goes by forms and by induction over the parts of a schema
that its form looks into.
-/

namespace ResourceModels.Go.Emission

/-- The only member of `allOf`, of a schema without properties. -/
def soleMember? (s : Schema) : Option Schema :=
  if s.properties.isEmpty then
    match s.allOf with
    | [member] => some member
    | _ => none
  else none

/-- The schema of the values of a map, if they have one. -/
def valueSchema? : Option (Extra Schema) → Option Schema
  | some (.schema s) => some s
  | _ => none

inductive Form
  | spelledOut (text : String) (source : Option (String × Option String))
  | reference (reference : String)
  | sole (member : Schema)
  | any
  | struct
  | enumeration
  | scalar (type : TypeExpr)
  | array (items : Option Schema)
  | map (values : Option Schema)
  | unknown (name : String)

/-- The form by the type alone, where that is not the type of a scalar. -/
def formOfType (s : Schema) : Option String → Form
  | none => .any
  | some "array" => .array s.items
  | some "object" => .map (if keepsUnknown s.keywords then none else valueSchema? s.additional)
  | some name => .unknown name

/-- The form of a schema that stands for no other one. -/
def ownForm (s : Schema) : Form :=
  if isIntOrText s.keywords then .any
  else if isStruct s then .struct
  else if isEnumeration s.keywords then .enumeration
  else match scalar? s.keywords with
    | some type => .scalar type
    | none => formOfType s s.keywords.typeName

def form (s : Schema) : Form :=
  match spelledOut? s.keywords, s.keywords.reference, soleMember? s with
  | some (text, source), _, _ => .spelledOut text source
  | none, some reference, _ => .reference reference
  | none, none, some member => .sole member
  | none, none, none => ownForm s

/-- The type of the elements of an array or the values of a map. -/
def partType (components : Dict String) (part : Option Schema) (hint : String) : Step TypeExpr :=
  match part with
  | none => return .any
  | some s => typeOf components s hint

def structType (components : Dict String) (s : Schema) (hint : String) : Step TypeExpr := do
  let name ← beginUnder components (wantedName s.keywords hint)
  let fields ← fieldsOf components name s.keywords.required [] s.properties
  declare ⟨name, s.keywords.description.getD "", .struct fields⟩
  return .declared name

def enumerationType (components : Dict String) (s : Schema) (hint : String) : Step TypeExpr := do
  let name ← beginUnder components (wantedName s.keywords hint)
  declare ⟨name, s.keywords.description.getD "", enumeration name s.keywords⟩
  return .declared name

def importSource : Option (String × Option String) → Step Unit
  | none => return ()
  | some (path, name) => addImport path name

theorem itemType_eq (components : Dict String) (items : Option Schema) (hint : String) :
    itemType components items hint = partType components items hint := by
  cases items <;> rfl

theorem extraType_eq (components : Dict String) (additional : Option (Extra Schema))
    (hint : String) :
    extraType components additional hint = partType components (valueSchema? additional) hint := by
  rcases additional with _ | (_ | _) <;> rfl

def typeOfForm (components : Dict String) (s : Schema) (hint : String) : Form → Step TypeExpr
  | .spelledOut text source => do
    importSource source
    return .written text
  | .reference reference => resolve components reference
  | .sole member => typeOf components member hint
  | .any => return .any
  | .struct => structType components s hint
  | .enumeration => enumerationType components s hint
  | .scalar type => do
    if type = .time then addImport "time" none
    return type
  | .array items => return .slice (← partType components items hint)
  | .map values => return .map (← partType components values (hint ++ "Value"))
  | .unknown name => throw (.unknownType name)

/-- What is done for a schema that stands for no other one. -/
def ownType (components : Dict String) (s : Schema) (hint : String) : Step TypeExpr :=
  if isIntOrText s.keywords then return .any
  else if isStruct s then structType components s hint
  else if isEnumeration s.keywords then enumerationType components s hint
  else match scalar? s.keywords with
    | some type => do
      if type = .time then addImport "time" none
      return type
    | _ =>
      match s.keywords.typeName with
      | none => return .any
      | some "array" => return .slice (← partType components s.items hint)
      | some "object" =>
        if keepsUnknown s.keywords then return .map .any
        else return .map (← partType components (valueSchema? s.additional) (hint ++ "Value"))
      | some name => throw (.unknownType name)

theorem ownType_eq (components : Dict String) (s : Schema) (hint : String) :
    ownType components s hint = typeOfForm components s hint (ownForm s) := by
  simp only [ownType, ownForm]
  split
  · rfl
  · split
    · rfl
    · split
      · rfl
      · cases scalar? s.keywords with
        | some type => rfl
        | none =>
          generalize s.keywords.typeName = typeName
          dsimp only
          split
          · rfl
          · rfl
          · simp only [formOfType]
            split <;> rfl
          · simp_all only [formOfType, typeOfForm]

theorem typeOf_eq (components : Dict String) (s : Schema) (hint : String) :
    typeOf components s hint = typeOfForm components s hint (form s) := by
  obtain ⟨k, properties, items, additional, allOf, anyOf, oneOf, not⟩ := s
  rw [typeOf]
  simp only [form, itemType_eq, extraType_eq]
  rcases spelledOut? k with _ | ⟨text, _ | ⟨path, name⟩⟩
  · cases k.reference with
    | some reference => rfl
    | none =>
      cases hp : properties.isEmpty with
      | false =>
        simp only [soleMember?, hp, Bool.false_eq_true, if_false]
        exact ownType_eq components ⟨k, properties, items, additional, allOf, anyOf, oneOf, not⟩ hint
      | true =>
        rcases allOf with _ | ⟨member, _ | ⟨second, rest⟩⟩
        · simp only [soleMember?, hp, if_true]
          exact ownType_eq components ⟨k, properties, items, additional, [], anyOf, oneOf, not⟩ hint
        · simp only [soleMember?, hp, if_true, soleType, List.isEmpty_nil, typeOfForm, bind_assoc,
            pure_bind, bind_pure]
        · simp only [soleMember?, hp, if_true]
          exact ownType_eq components ⟨k, properties, items, additional, _, anyOf, oneOf, not⟩ hint
  · rfl
  · rfl

/-- The schemas that a form looks into. -/
def Form.parts (s : Schema) : Form → List Schema
  | .sole member => [member]
  | .struct => s.properties.map (·.2)
  | .array items => items.toList
  | .map values => values.toList
  | _ => []

theorem valueSchema?_eq_some {additional : Option (Extra Schema)} {s : Schema} :
    valueSchema? additional = some s ↔ additional = some (.schema s) := by
  rcases additional with _ | (_ | values) <;> simp [valueSchema?]

theorem allOf_of_sole {s member : Schema} (h : form s = .sole member) : s.allOf = [member] := by
  unfold form at h
  split at h
  · cases h
  · cases h
  · next hm =>
    cases h
    unfold soleMember? at hm
    split at hm
    · split at hm <;> simp_all
    · cases hm
  · unfold ownForm formOfType at h
    repeat' split at h
    all_goals cases h

theorem spelledOut?_of_form {s : Schema} {text : String} {source : Option (String × Option String)}
    (h : form s = .spelledOut text source) : spelledOut? s.keywords = some (text, source) := by
  unfold form at h
  split at h
  · next hspelled =>
    cases h
    exact hspelled
  · cases h
  · cases h
  · unfold ownForm formOfType at h
    repeat' split at h
    all_goals cases h

theorem form_of_spelledOut? {s : Schema} {text : String} {source : Option (String × Option String)}
    (h : spelledOut? s.keywords = some (text, source)) : form s = .spelledOut text source := by
  rw [form, h]

theorem ownForm_of_form {s : Schema} {f : Form} (h : form s = f)
    (hf : ∀ text source, f ≠ .spelledOut text source) (hr : ∀ reference, f ≠ .reference reference)
    (hs : ∀ member, f ≠ .sole member) : ownForm s = f := by
  unfold form at h
  split at h
  · exact absurd h.symm (hf _ _)
  · exact absurd h.symm (hr _)
  · exact absurd h.symm (hs _)
  · exact h

theorem scalar?_of_form {s : Schema} {t : TypeExpr} (h : form s = .scalar t) :
    scalar? s.keywords = some t := by
  have ho := ownForm_of_form h nofun nofun nofun
  unfold ownForm formOfType at ho
  repeat' split at ho
  all_goals first | cases ho; assumption | cases ho

theorem items_of_array {s : Schema} {items : Option Schema} (h : form s = .array items) :
    s.items = items := by
  have ho := ownForm_of_form h nofun nofun nofun
  unfold ownForm formOfType at ho
  repeat' split at ho
  all_goals cases ho
  rfl

theorem additional_of_map {s values : Schema} (h : form s = .map (some values)) :
    s.additional = some (.schema values) := by
  have ho := ownForm_of_form h nofun nofun nofun
  unfold ownForm formOfType at ho
  repeat' split at ho
  all_goals simp only [reduceCtorEq, Form.map.injEq] at ho
  exact valueSchema?_eq_some.mp ho

theorem extraPart?_eq (additional : Option (Extra Schema)) :
    Schema.extraPart? additional = valueSchema? additional := by
  rcases additional with _ | (_ | _) <;> rfl

/-- A form looks into parts of the schema only. -/
theorem mem_parts_of_form {s part : Schema} (h : part ∈ (form s).parts s) : part ∈ s.parts := by
  rw [Schema.mem_parts, extraPart?_eq, valueSchema?_eq_some]
  cases hf : form s with
  | sole member =>
    rw [hf] at h
    simp [allOf_of_sole hf, List.mem_singleton.mp h]
  | struct =>
    rw [hf] at h
    exact .inl h
  | array items =>
    rw [hf, Form.parts, ← items_of_array hf, Option.mem_toList] at h
    exact .inr (.inl h)
  | map values =>
    rw [hf, Form.parts, Option.mem_toList] at h
    subst h
    exact .inr (.inr (.inl (additional_of_map hf)))
  | _ => rw [hf] at h; cases h

/-- Induction on a schema along the parts that its form looks into. -/
theorem form_induction {P : Schema → Prop}
    (step : ∀ s, (∀ part ∈ (form s).parts s, P part) → P s) (s : Schema) : P s :=
  step s fun part _ => form_induction step part
termination_by sizeOf s
decreasing_by exact Schema.sizeOf_lt_of_mem_parts (mem_parts_of_form ‹_›)

end ResourceModels.Go.Emission
