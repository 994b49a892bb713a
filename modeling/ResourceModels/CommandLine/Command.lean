import ResourceModels.CommandLine.Arguments

/-!
Commands as they are asked for on the command line.
-/

namespace ResourceModels.CommandLine

structure Common where
  verbose : Bool := false
  config : Option String := none
  timeoutSecs : Option Nat := none
  cacheDir : Option String := none
deriving DecidableEq, Repr, Inhabited

structure ModelRequest where
  project : String := "."
  exclude : List String := []
  json : Bool := false
deriving DecidableEq, Repr, Inhabited

/-- The test suites to build: which directories of which project, and how strictly. -/
structure SuiteRequest where
  patterns : List String := []
  project : String := "."
  testsFolder : String := "tests"
  endToEnd : Bool := false
  strict : Bool := false
  json : Bool := false
deriving DecidableEq, Repr, Inhabited

structure TestRequest where
  name : String
  language : TestLanguage := .kcl
  endToEnd : Bool := false
  force : Bool := false
  project : String := "."
  testsFolder : String := "tests"
deriving DecidableEq, Repr

inductive Command
  | generate (r : ModelRequest)
  | buildTests (r : SuiteRequest)
  | createTest (r : TestRequest)
  | checkUp (reap : Bool)
deriving DecidableEq, Repr

namespace Command

/-- The word of an option from the innermost level on which it is given. -/
def innermost? (levels : List Given) (name : String) : Option String :=
  levels.reverse.findSome? (·.word? name)

def common (levels : List Given) : Common where
  verbose := levels.any (·.has "verbose")
  config := innermost? levels "config"
  timeoutSecs := (innermost? levels "timeout-secs").bind fun s => Text.unsigned? 64 s.toList
  cacheDir := innermost? levels "cache-dir"

def ofGiven (path : List String) (g : Given) : Option Command :=
  let project := (g.word? "project").getD "."
  let testsFolder := (g.word? "tests-folder").getD "tests"
  match path, g.words with
  | ["generate"], words => some (.generate
    { project := words.headD ".", exclude := g.all "exclude", json := g.has "json" })
  | ["test", "build"], patterns => some (.buildTests
    { patterns, project, testsFolder, endToEnd := g.has "e2e", strict := g.has "strict"
      json := g.has "json" })
  | ["test", "generate"], [name] => some (.createTest
    { name, language := ((g.word? "language").bind (TestLanguage.parse · |>.toOption)).getD .kcl
      endToEnd := g.has "e2e", force := g.has "force", project, testsFolder })
  | ["doctor"], _ => some (.checkUp (g.has "reap"))
  | _, _ => none

def parse (arguments : List String) : Except Stop (Common × Command) := do
  let (path, levels) ← read arguments
  match ofGiven path (levels.getLast?.getD {}) with
  | some c => return (common levels, c)
  | none => throw .misuse

end Command

end ResourceModels.CommandLine
