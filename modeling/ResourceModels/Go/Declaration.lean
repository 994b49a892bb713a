import ResourceModels.Json.Writing
import ResourceModels.Text.Blank

/-!
Go files as data: type expressions, the declarations of types, and a file with its imports. Each
has one written form.
-/

namespace ResourceModels.Go

inductive TypeExpr
  /-- A value of any type. -/
  | any
  /-- A type of the language. -/
  | builtin (name : String)
  /-- A point in time, from the package `time`. -/
  | time
  /-- A type that the same file declares. -/
  | declared (name : String)
  /-- A type that a schema spells out. -/
  | written (text : String)
  | slice (element : TypeExpr)
  /-- A map with text keys. -/
  | map (value : TypeExpr)
  | pointer (target : TypeExpr)
deriving DecidableEq, Repr

def TypeExpr.text : TypeExpr → String
  | .any => "interface\x7b\x7d"
  | .builtin name => name
  | .time => "time.Time"
  | .declared name => name
  | .written text => text
  | .slice element => "[]" ++ element.text
  | .map value => "map[string]" ++ value.text
  | .pointer target => "*" ++ target.text

/-- Whether a type has an absent value of its own, so that it needs no pointer to be left out. -/
def TypeExpr.isNilable (t : TypeExpr) : Bool :=
  Text.startsWith "[]" t.text || Text.startsWith "map[" t.text || t.text == TypeExpr.any.text

def TypeExpr.optional (t : TypeExpr) : TypeExpr := if t.isNilable then t else .pointer t

structure Field where
  name : String
  type : TypeExpr
  property : String
  /-- Whether the field is left out of the written value when it is empty. -/
  omitEmpty : Bool
  comment : String
deriving DecidableEq, Repr

/-- A named value of an enumeration of texts. -/
structure Constant where
  name : String
  value : String
deriving DecidableEq, Repr

inductive TypeBody
  | struct (fields : List Field)
  | enumeration (constants : List Constant)
  | alias (target : TypeExpr)
deriving DecidableEq, Repr

structure Declaration where
  name : String
  comment : String
  body : TypeBody
deriving DecidableEq, Repr

/-- A Go file; imports are by path with the name they are used under, if they are given one, and
declarations by name. -/
structure SourceFile where
  package : String
  title : String
  imports : Dict (Option String)
  declarations : Dict Declaration
deriving DecidableEq, Repr

def commentLine (indent line : String) : String :=
  let line := Text.trimEnd line
  if line = "" then indent ++ "//\n" else indent ++ "// " ++ line ++ "\n"

/-- The comment above a name. Its first line begins with the name; a blank text gives none. -/
def commentText (indent name text : String) : String :=
  match Text.lines (Text.trim text) with
  | [] => ""
  | first :: rest =>
    indent ++ "// " ++ name ++ " " ++ Text.trimEnd first ++ "\n" ++
      String.join (rest.map (commentLine indent))

namespace Field

def tag (f : Field) : String :=
  "json:\"" ++ f.property ++ (if f.omitEmpty then ",omitempty" else "") ++ "\""

def text (f : Field) : String :=
  commentText "\t" f.name f.comment ++
    "\t" ++ f.name ++ " " ++ f.type.text ++ " `" ++ f.tag ++ "`\n"

end Field

def Constant.text (typeName : String) (c : Constant) : String :=
  "\t" ++ c.name ++ " " ++ typeName ++ " = " ++ (Json.str c.value).compact ++ "\n"

def TypeBody.text (name : String) : TypeBody → String
  | .struct fields =>
    "type " ++ name ++ " struct \x7b\n" ++ String.join (fields.map Field.text) ++ "\x7d\n"
  | .enumeration constants =>
    "type " ++ name ++ " string\n\n// Defines values for " ++ name ++ ".\nconst (\n" ++
      String.join (constants.map (Constant.text name)) ++ ")\n"
  | .alias target => "type " ++ name ++ " = " ++ target.text ++ "\n"

def Declaration.text (d : Declaration) : String :=
  commentText "" d.name d.comment ++ d.body.text d.name

namespace SourceFile

/-- Whether an import comes from elsewhere than the standard library: its first segment has a
dot. -/
def isExternal (path : String) : Bool :=
  ((Text.split (· = '/') path).headD "").toList.contains '.'

def importText (i : String × Option String) : String :=
  match i.2 with
  | some name => "\t" ++ name ++ " \"" ++ i.1 ++ "\"\n"
  | none => "\t\"" ++ i.1 ++ "\"\n"

/-- The imports, those of the standard library apart from the others and before them. -/
def importGroups (imports : Dict (Option String)) : List (List (String × Option String)) :=
  [imports.filter fun i => !isExternal i.1, imports.filter fun i => isExternal i.1].filter
    (!·.isEmpty)

def importsText (imports : Dict (Option String)) : String :=
  if imports.isEmpty then ""
  else "\nimport (\n" ++
    Text.join "\n" ((importGroups imports).map fun g => String.join (g.map importText)) ++ ")\n"

def text (f : SourceFile) : String :=
  "// Package " ++ f.package ++ " contains models generated from " ++ f.title ++ ".\n" ++
    "//\n// Code generated by crossgen. DO NOT EDIT.\npackage " ++ f.package ++ "\n" ++
    importsText f.imports ++
    String.join (f.declarations.map fun d => "\n" ++ d.2.text)

end SourceFile

end ResourceModels.Go
