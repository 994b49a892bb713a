import ResourceModels.CommandLine

/-!
The program. It knows the files below the working directory and the user's settings. It has no way
to start docker, so commands that need it say that it is missing.
-/

namespace ResourceModels

/-- Takes up a file, link or directory of the machine with all that lies in it. -/
partial def takeUpEntry (h : Host) (e : IO.FS.DirEntry) : IO Host := do
  let place := (Text.split (· = '/') e.path.toString).reverse.filter (· ≠ "")
  match (← e.path.symlinkMetadata).type with
  | .dir => (← e.path.readDir).foldlM takeUpEntry (h.put place .dir)
  | .file => return h.put place (.file (← IO.FS.readBinFile e.path) Entry.defaultMode)
  | .symlink => return h.put place (.link (← IO.FS.realPath e.path).toString)
  | .other => return h

/-- Takes up a file, if it is there, with the directories it lies in. -/
def takeUpFile (h : Host) (path : String) : IO Host := do
  try
    let contents ← IO.FS.readBinFile path
    let h := (h.makeDirs (HostPath.parent path)).toOption.getD h
    return (h.writeFile path contents).toOption.getD h
  catch _ => return h

def settingVariables : List String :=
  ["HOME", "XDG_CONFIG_HOME", "CROSSGEN_KCL_IMAGE", "CROSSGEN_PYTHON_IMAGE",
    "CROSSGEN_PYTHON_TEST_IMAGE"]

/-- Writes the files that a run has left anew. -/
def writeChanged (before after : Host) : IO Unit := do
  for (key, n) in after.nodes do
    match n with
    | .file contents _ =>
      if before.nodes.get? key != some n then
        IO.FS.createDirAll (HostPath.parent ("/" ++ key))
        IO.FS.writeBinFile ("/" ++ key) contents
    | _ => pure ()

end ResourceModels

open ResourceModels in
def main (arguments : List String) : IO UInt32 := do
  let start ← IO.monoMsNow
  let dir ← IO.currentDir
  let given ← settingVariables.mapM fun name => return (name, ← IO.getEnv name)
  let environment (name : String) : Option String :=
    (given.find? (·.1 = name)).bind (·.2)
  let below ← (← dir.readDir).foldlM takeUpEntry ((Host.makeDirs ∅ dir.toString).toOption.getD ∅)
  let host ← (Settings.userPath? environment).toList.foldlM takeUpFile below
  let session := CommandLine.run ⟨dir.toString, environment⟩ host arguments
  let result ← session.interpret fun _ =>
    return Docker.Answer.unstarted HostFault.notFound.message
  writeChanged host result.host
  let elapsed := (← IO.monoMsNow) - start
  IO.print (String.join (result.printed.map fun
    | .text s => s
    | .elapsed => toString elapsed))
  IO.eprint result.errors
  return result.status.toUInt32
