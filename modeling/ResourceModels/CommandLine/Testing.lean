import ResourceModels.CommandLine.Console
import ResourceModels.TestKinds

/-!
The commands for tests: one builds the suites of a project, the other creates a new test.
-/

/-!
## Building suites

The command that builds the test suites of a project and lists their test cases.
-/

namespace ResourceModels.CommandLine

def sayCases (cases : List TestCase) : Run Unit := do
  say ""
  if cases.isEmpty then say "  !! No test cases found"
  else
    for t in cases do say ("  ok " ++ t.kindName ++ " " ++ t.name)
    say ""
    say ("SUCCESS " ++ toString cases.length ++ " test case(s) built")

/-- What is told about a build, and its exit status. -/
def reportCases (r : SuiteRequest) : Except Suite.SuiteError (List TestCase) → Run Nat
  | .ok cases => do
    if r.json then sayReport [jsonField "success" (.bool true),
      jsonField "tests" (.arr (cases.map fun t => t.toJson.sorted))]
    else sayCases cases
    return 0
  | .error e => do
    if r.json then
      sayReport [jsonField "success" (.bool false), jsonField "tests" (.arr []), failureField e]
      return 1
    else orFail "Test build failed" (.error e)

/-- How test directories begin. -/
def testStart (endToEnd : Bool) : String := if endToEnd then "e2etest-" else "test-"

def buildTests (s : Surroundings) (common : Common) (r : SuiteRequest) : Run Nat := do
  let root ← projectDir s r.project
  let found ← settings s common
  let options := found.suiteOptions
  let options := { options with mode := if r.strict then .strict else options.mode }
  let dir := HostPath.join root r.testsFolder
  let tests ← orFail ("Failed to load tests folder: " ++ dir) (Host.load (← get).host dir)
  let patterns := if r.patterns.isEmpty then [r.testsFolder] else r.patterns
  unless r.json do say ("Building tests in: " ++ dir)
  let run ← runner s found
  let location : Suite.Location := ⟨r.testsFolder, testStart r.endToEnd, some dir⟩
  reportCases r (← inSession (Suite.build run { options } tests patterns location))

end ResourceModels.CommandLine

/-!
## Creating tests

The command that creates a new test. The models of the test kinds are generated first, so that the
test can refer to them.
-/

namespace ResourceModels.CommandLine

open Scaffold (ScaffoldError)

def modelLanguage : TestLanguage → Language
  | .kcl => .kcl
  | .python => .python

/-- Goes on with what a new test gave, or fails. -/
def orFailTest {α : Type} (texts : List String) : Except ScaffoldError α → Run α
  | .ok a => return a
  | .error e => fail (texts ++ e.message :: e.causes)

/-- The imports of a new test: all packages of models, where the language names them. -/
def testImports (registry : Host.CacheRegistry) : TestLanguage → Run (List Scaffold.Import)
  | .kcl => do
    let dir := registry.dir .kcl
    let models ← orFail ("Failed to read KCL models: " ++ dir) (Host.load registry.host dir)
    return Scaffold.imports models
  | .python => return []

def createTest (s : Surroundings) (common : Common) (r : TestRequest) : Run Nat := do
  let request : Scaffold.Request := ⟨r.name, r.language, r.endToEnd⟩
  let problems := Scaffold.problems request.dirName
  unless problems.isEmpty do
    fail [(ScaffoldError.invalidName request.dirName problems).message]
  let root ← projectDir s r.project
  let target := HostPath.join (HostPath.join root r.testsFolder) request.dirName
  unless r.force || (← get).host.isEmptyDir target do
    fail ["The folder '" ++ target ++ "' is not empty; pass --force to overwrite its contents"]
  let found ← settings s common
  let cacheRoot := found.cacheRoot root
  let run ← runner s found
  say ("Generating test-case models in: " ++ cacheRoot)
  let registry : Host.CacheRegistry := ⟨(← get).host, cacheRoot⟩
  let (registry, result) ← inSession (TestKinds.update run found.modelOptions registry)
  modify fun c => { c with host := registry.host }
  orFail "Unable to generate meta API schemas" result
  let imports ← testImports registry r.language
  let files ← orFailTest ["Failed to generate " ++ r.language.name ++ " test"]
    (Scaffold.render Scaffold.builtin request imports)
  let models := HostPath.join (registry.dir (modelLanguage r.language)) "models"
  let (host, count) := Host.writeTest registry.host files target models r.force
  modify fun c => { c with host }
  let count ← orFailTest [] count
  say ("  ok " ++ toString count ++ " files -> " ++ target)
  say ""
  say ("SUCCESS Successfully created test and saved to " ++ target)
  return 0

end ResourceModels.CommandLine
