import ResourceModels.Host
import ResourceModels.Json.Reading
import ResourceModels.Settings

/-!
Settings from a JSON text, which is read from left to right up to the first fault. A setting of the
wrong type is reported as soon as its type shows, which for a list or an object is its first
character, and a setting that is given twice at its second name. What is not known is passed over.
-/

/-! ## Texts of settings -/

namespace ResourceModels.Settings

open Yaml (Value)

abbrev Reader := StateT (List Char) (Except SettingsFault)

def malformed : Reader α := throw .malformedText

def fits : Except Mismatch α → Reader α
  | .ok a => pure a
  | .error e => throw (.mismatch e)

def part (read? : List Char → Option (α × List Char)) : Reader α := do
  match read? (← get) with
  | some (a, rest) =>
    set rest
    return a
  | none => malformed

def peek : Reader (Option Char) := do
  modify Json.skipBlanks
  return (← get).head?

/-- Passes over the next character, which has to be the given one. -/
def expect (c : Char) : Reader Unit := do
  if (← peek) = some c then modify (·.drop 1) else malformed

/-- Whether a further part of a list or an object follows, which a comma parts from the one before.
-/
def hasNext (last : Char) (isFirst : Bool) : Reader Bool := do
  let c ← peek
  if c = some last then return false
  else if isFirst then return true
  else
    expect ','
    if (← peek) = some last then malformed else return true

/-- What stands here, as far as its type shows: of a list or an object nothing is read. -/
def found : Reader Value := do
  match ← peek with
  | some '[' => return .seq []
  | some '\x7b' => return .map []
  | _ => return .ofJson (← part Json.readScalar?)

def readText : Reader (Option String) := do
  fits (Decode.optional (Decode.text .json) (← found))

def readWord : Reader (Option Nat) := do
  fits (Decode.optional (Decode.word .json 64) (← found))

def readPath : Reader (Option String) := do
  match ← found with
  | .null => return none
  | .str s => return some s
  | v => fits (Decode.mismatch .json v "path string")

/-- The texts of a list from one of them on. `before` holds those before, backwards. -/
def textsFrom : Nat → List String → Reader (List String)
  | 0, _ => malformed
  | fuel + 1, before => do
    if ← hasNext ']' before.isEmpty then
      let s ← fits (Decode.text .json (← found))
      textsFrom fuel (s :: before)
    else
      expect ']'
      return before.reverse

def readTexts : Reader (List String) := do
  match ← found with
  | .seq _ =>
    expect '['
    textsFrom ((← get).length + 1) []
  | v => fits (Decode.mismatch .json v "a sequence")

def modeOf (name : String) : Reader DecodeMode :=
  match DecodeMode.parse name with
  | .ok mode => return mode
  | .error _ => throw (.mismatch (.unknownVariant name "`lenient` or `strict`"))

/-- A mode by its name, or as an object with the name as its only key and null as value. -/
def readMode : Reader (Option DecodeMode) := do
  match ← peek with
  | some '\x7b' =>
    expect '\x7b'
    match ← found with
    | .str name =>
      let mode ← modeOf name
      expect ':'
      match ← found with
      | .null =>
        expect '\x7d'
        return some mode
      | v => fits (Decode.mismatch .json v "unit")
    | v => fits (Decode.mismatch .json v "variant identifier")
  | _ =>
    match ← found with
    | .null => return none
    | .str name => return some (← modeOf name)
    | _ => malformed

def take (s : Settings) (key : String) : Reader Settings :=
  match key with
  | "kclImage" => return { s with kclImage := ← readText }
  | "pythonImage" => return { s with pythonImage := ← readText }
  | "pythonTestImage" => return { s with pythonTestImage := ← readText }
  | "exclude" => return { s with exclude := ← readTexts }
  | "maxFileSize" => return { s with maxFileSize := ← readWord }
  | "timeoutSecs" => return { s with timeoutSecs := ← readWord }
  | "sandboxUid" => return { s with sandboxUid := ← readWord }
  | "sandboxGid" => return { s with sandboxGid := ← readWord }
  | "cacheDir" => return { s with cacheDir := ← readPath }
  | "decodeMode" => return { s with decodeMode := ← readMode }
  | _ => do
    part fun text => (Json.afterValue? (2 * text.length + 2) text).map fun rest => ((), rest)
    return s

def order : List String :=
  ["kclImage", "pythonImage", "pythonTestImage", "exclude", "maxFileSize", "timeoutSecs",
    "sandboxUid", "sandboxGid", "cacheDir", "decodeMode"]

/-- The settings of an object from one of them on, of which `seen` are given. -/
def fieldsFrom : Nat → Bool → List String → Settings → Reader Settings
  | 0, _, _, _ => malformed
  | fuel + 1, isFirst, seen, s => do
    if ← hasNext '\x7d' isFirst then
      expect '"'
      let key ← part fun text => Json.quoted? (text.length + 1) [] text
      if key ∈ seen ∧ key ∈ order then throw (.mismatch (.duplicate key))
      expect ':'
      fieldsFrom fuel false (key :: seen) (← take s key)
    else
      expect '\x7d'
      return s

/-- The settings of a list, by their places. -/
def itemsFrom : List String → Bool → Settings → Reader Settings
  | [], _, s => do
    expect ']'
    return s
  | key :: keys, isFirst, s => do
    if ← hasNext ']' isFirst then itemsFrom keys false (← take s key)
    else
      expect ']'
      return s

def readSettings : Reader Settings := do
  match ← found with
  | .map _ =>
    expect '\x7b'
    fieldsFrom ((← get).length + 1) true [] {}
  | .seq _ =>
    expect '['
    itemsFrom order true {}
  | v => fits (Decode.mismatch .json v "struct ConfigFile")

def parse (text : String) : Except SettingsFault Settings := do
  let (s, rest) ← readSettings.run text.toList
  if (Json.skipBlanks rest).isEmpty then return s else throw .malformedText

end ResourceModels.Settings

/-!
## Files of settings

Settings from files of the machine. A file that is asked for has to be there; without one, the
user's own settings count if there are any.
-/

namespace ResourceModels

inductive SettingsError
  | unreadable (path : String) (cause : HostFault)
  | malformed (path : String) (cause : SettingsFault)
deriving DecidableEq, Repr

namespace SettingsError

def message : SettingsError → String
  | .unreadable path cause => "failed to read config file " ++ path ++ ": " ++ cause.message
  | .malformed path cause => "failed to parse config file " ++ path ++ ": " ++ cause.message

def causes : SettingsError → List String
  | .unreadable _ cause => cause.message :: cause.causes
  | .malformed _ cause => [cause.message]

end SettingsError

namespace Settings

/-- The settings of a file, whose path is taken from a directory. -/
def load (h : Host) (dir path : String) : Except SettingsError Settings := do
  let text ← (Host.readText h (HostPath.join dir path)).mapError (.unreadable path)
  (parse text).mapError (.malformed path)

/-- The directory for settings of all programs. -/
def userDir? (environment : String → Option String) : Option String :=
  match (environment "XDG_CONFIG_HOME").filter HostPath.isAbsolute with
  | some dir => some dir
  | none => ((environment "HOME").filter (· ≠ "")).map (HostPath.join · ".config")

/-- Where the user's own settings are. -/
def userPath? (environment : String → Option String) : Option String :=
  (userDir? environment).map fun dir => HostPath.join (HostPath.join dir "crossgen") "config.json"

/-- The user's own settings, if the file is there. -/
def userFile? (h : Host) (dir : String) (environment : String → Option String) : Option String :=
  (userPath? environment).filter fun path => Host.isFile h (HostPath.join dir path)

/-- The settings that are in force: those of the file that is given or else of the user's file, and
those of the environment. -/
def resolve (h : Host) (dir : String) (environment : String → Option String)
    (given : Option String) : Except SettingsError Settings := do
  match given.or (userFile? h dir environment) with
  | some path => return (← load h dir path).override environment
  | none => return Settings.override {} environment

end Settings

end ResourceModels
