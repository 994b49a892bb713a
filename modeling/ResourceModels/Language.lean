import ResourceModels.FileStore
import ResourceModels.Text

/-!
The languages for which models are generated, and those in which tests are written.
-/

/-! ## Languages of models -/

namespace ResourceModels

inductive Language
  | kcl
  | python
  | go
  | json
deriving DecidableEq, Repr

namespace Language

/-- Every language, in the order of generation. -/
def all : List Language := [.kcl, .python, .go, .json]

def name : Language → String
  | .kcl => "kcl"
  | .python => "python"
  | .go => "go"
  | .json => "json"

/-- The language of a name, in capital or small letters. -/
def parse (s : String) : Except String Language :=
  let name := Text.lowerAscii s
  match all.find? (·.name = name) with
  | some l => .ok l
  | none =>
    .error ("unknown language '" ++ name ++ "'. Expected one of: kcl, python, go, json")

end Language

end ResourceModels

/-!
## Languages of tests

The files of a test tell its language.
-/

namespace ResourceModels

inductive TestLanguage
  | kcl
  | python
deriving DecidableEq, Repr

namespace TestLanguage

def all : List TestLanguage := [.kcl, .python]

def name : TestLanguage → String
  | .kcl => "kcl"
  | .python => "python"

/-- The language of a name, in capital or small letters. -/
def parse (s : String) : Except String TestLanguage :=
  let name := Text.lowerAscii s
  match all.find? (·.name = name) with
  | some l => .ok l
  | none =>
    .error ("unsupported test language '" ++ name ++ "'. Expected one of: kcl, python")

/-- Tells a test by the file that every test of its language has; KCL is looked for first. -/
def identify {σ : Type} [FileStore σ] (files : σ) : Option TestLanguage :=
  if FileStore.hasPath files "kcl.mod" then some .kcl
  else if FileStore.hasPath files "main.py" then some .python
  else none

end TestLanguage

end ResourceModels
