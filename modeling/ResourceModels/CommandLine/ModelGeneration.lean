import ResourceModels.CommandLine.Console

/-!
The command that generates the models of a project and puts them into its cache. The cache itself is
no source of definitions.
-/

namespace ResourceModels.CommandLine

/-- The excluded paths that keep the cache out of a project, if it lies there. -/
def cacheExclusion (root cacheRoot : String) : List String :=
  ((HostPath.below? cacheRoot root).map fun path =>
    String.ofList (path.toList.map fun c => if c = '\\' then '/' else c)).toList

def padded (width : Nat) (s : String) : String :=
  s ++ String.ofList (List.replicate (width - s.length) ' ')

def filesField (summary : Models.Summary) : List Piece :=
  jsonField "files" (.obj (summary.map fun n => (n.1.name, .int n.2)))

def elapsedField : List Piece := field "duration_ms" [.elapsed]

def summaryLine (cacheRoot : String) (n : Language × Nat) : String :=
  "  ok " ++ padded 7 n.1.name ++ " " ++ toString n.2 ++ " files -> " ++
    HostPath.join cacheRoot n.1.name

def saySummary (summary : Models.Summary) (cacheRoot : String) : Run Unit := do
  say ""
  if summary.isEmpty then say "  !! No CRDs or XRDs found; nothing was generated"
  else
    for n in summary do say (summaryLine cacheRoot n)
    say ""
    print [.text "SUCCESS Models generated in ", .elapsed, .text "ms\n"]

/-- What is told about a generation, and its exit status. -/
def reportModels (r : ModelRequest) (cacheRoot : String) :
    Except Models.GenerateError Models.Summary → Run Nat
  | .ok summary => do
    if r.json then
      sayReport [jsonField "success" (.bool true), jsonField "cache_dir" (.str cacheRoot),
        filesField summary, elapsedField]
    else saySummary summary cacheRoot
    return 0
  | .error e => do
    if r.json then
      sayReport [jsonField "success" (.bool false), filesField [], elapsedField, failureField e]
      return 1
    else orFail "Model generation failed" (.error e)

def generateModels (s : Surroundings) (common : Common) (r : ModelRequest) : Run Nat := do
  let root ← projectDir s r.project
  let found ← settings s common
  let cacheRoot := found.cacheRoot root
  let options := found.modelOptions
  let exclude := options.exclude ++ r.exclude ++ cacheExclusion root cacheRoot
  unless r.json do
    say ("Generating models from: " ++ root)
    say ("Model cache: " ++ cacheRoot)
  let files ← orFail ("Failed to load project: " ++ root) (Host.load (← get).host root)
  let run ← runner s found
  let registry : Host.CacheRegistry := ⟨(← get).host, cacheRoot⟩
  let (registry, result) ← inSession (Models.update run { options with exclude } registry files)
  modify fun c => { c with host := registry.host }
  reportModels r cacheRoot result

end ResourceModels.CommandLine
