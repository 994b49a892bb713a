import ResourceModels.Proofs.Python.Arrangement

/-!
# Imports that keep their targets

A relative import climbs some directories from its module and then goes down by the labels of the
imported module. When a module is moved further down, its imports of the shared models are written
with as many dots as bring them to the same place below the root; other lines stay as they are.
-/

namespace ResourceModels.Python

open Text (split join)

/-- A relative import as it stands on a line. -/
structure RelativeImport where
  indent : List Char
  level : Nat
  name : List String
  rest : List Char
  isBlank_indent : ∀ c ∈ indent, Text.isBlank c = true
  level_pos : 0 < level
  name_ne_nil : name ≠ []
  isLabel_name : ∀ label ∈ name, label ≠ "" ∧ '.' ∉ label.toList ∧ ' ' ∉ label.toList
  rest_eq : rest = [] ∨ " import ".toList <+: rest

def directories (module : String) : List String := split (· = '/') (Path.parent module)

namespace RelativeImport

def module (i : RelativeImport) : List Char := (join "." i.name).toList ++ i.rest

def line (i : RelativeImport) : List Char :=
  i.indent ++ "from ".toList ++ List.replicate i.level '.' ++ i.module

end RelativeImport

section

variable {package : String} {module line : List Char} {depth dots : Nat}

end

section

variable {module kind path : String} {dir name target : List String} {level : Nat}

end

end ResourceModels.Python
