import ResourceModels.CommandLine.CheckUp
import ResourceModels.CommandLine.ModelGeneration
import ResourceModels.CommandLine.Testing

/-!
The command line: what arguments ask for, what is done about it, and what is printed. The exit
status is 2 for arguments that ask for nothing, and 1 for a command that fails.
-/

namespace ResourceModels.CommandLine

def programName : String := "crossgen"

def programVersion : String := "0.1.0"

/-- How the program is called. -/
def usage : String := Text.ofLines [
  "Models and tests for Crossplane projects",
  "",
  "Usage: crossgen [OPTIONS] <COMMAND>",
  "",
  "Commands:",
  "  generate [PROJECT] [-e PATH]... [--json]",
  "  test build [PATTERN]... [-p PROJECT] [--tests-folder DIR] [--e2e] [--strict] [--json]",
  "  test generate <NAME> [-l LANGUAGE] [-p PROJECT] [--tests-folder DIR] [--e2e] [--force]",
  "  doctor [--reap]",
  "",
  "Options:",
  "  -v, --verbose, --config FILE, --timeout-secs N, --cache-dir DIR, -h, --help, -V, --version"]

/-- How a run ended, and what it left. -/
structure Result where
  status : Nat
  printed : List Piece
  errors : String
  host : Host

def runCommand (s : Surroundings) (common : Common) : Command → Run Nat
  | .generate r => generateModels s common r
  | .buildTests r => buildTests s common r
  | .createTest r => createTest s common r
  | .checkUp reap => checkUp s common programName programVersion reap

def run (s : Surroundings) (host : Host) (arguments : List String) : Docker.Session Result :=
  match Command.parse arguments with
  | .error (.version path) => do
    let name := Text.join "-" (programName :: path)
    return ⟨0, [.text (name ++ " " ++ programVersion ++ "\n")], "", host⟩
  | .error (.help _) => return ⟨0, [.text usage], "", host⟩
  | .error .misuse => return ⟨2, [], usage, host⟩
  | .ok (common, command) => do
    match ← ((runCommand s common command).run).run { host } with
    | (.ok status, console) => return ⟨status, console.printed, "", console.host⟩
    | (.error failure, console) => return ⟨1, console.printed, failure.text, console.host⟩

end ResourceModels.CommandLine
