import ResourceModels.Language
import ResourceModels.Text.Number

/-!
Arguments of the command line. Commands lie on levels, one below the other; each level has options
and places for further words, and the levels above give theirs to it. Options are read in order, a
word may follow an option that takes one, and after two hyphens every argument is a word.
-/

namespace ResourceModels.CommandLine

/-- An option: its long name, its letter, whether a word follows it, which words may, and whether it
may be given more than once. -/
structure Choice where
  name : String
  letter : Option Char := none
  takesWord : Bool := true
  accepts : String → Bool := fun _ => true
  repeats : Bool := false

def switch (name : String) (letter : Option Char := none) : Choice :=
  { name, letter, takesWord := false }

/-- How many words a level has place for. -/
inductive Places
  | none
  | upToOne
  | one
  | any
deriving DecidableEq, Repr

structure Level where
  choices : List Choice
  places : Places := .none
  below : List String := []

def commonChoices : List Choice :=
  [switch "verbose" (some 'v'),
    { name := "config", accepts := (· ≠ "") },
    { name := "timeout-secs", accepts := fun s => (Text.unsigned? 64 s.toList).isSome },
    { name := "cache-dir", accepts := (· ≠ "") },
    switch "help" (some 'h'), switch "version" (some 'V')]

def projectChoice : Choice := { name := "project", letter := some 'p' }

def testsFolderChoice : Choice := { name := "tests-folder" }

/-- The level of a command, given by the words that lead to it. -/
def level? : List String → Option Level
  | [] => some { choices := commonChoices, below := ["generate", "test", "doctor"] }
  | ["generate"] => some
    { choices := commonChoices ++
        [{ name := "exclude", letter := some 'e', repeats := true }, switch "json"]
      places := .upToOne }
  | ["test"] => some { choices := commonChoices, below := ["build", "generate"] }
  | ["test", "build"] => some
    { choices := commonChoices ++
        [projectChoice, testsFolderChoice, switch "e2e", switch "strict", switch "json"]
      places := .any }
  | ["test", "generate"] => some
    { choices := commonChoices ++
        [{ name := "language", letter := some 'l'
           accepts := fun s => (TestLanguage.parse s).toBool },
          switch "e2e", switch "force" (some 'f'), projectChoice, testsFolderChoice]
      places := .one }
  | ["doctor"] => some { choices := commonChoices ++ [switch "reap"] }
  | _ => none

/-- What was given on one level: options with their words, in order, and words of its own. -/
structure Given where
  options : List (String × String) := []
  words : List String := []
deriving DecidableEq, Repr, Inhabited

def Given.has (g : Given) (name : String) : Bool := g.options.any (·.1 = name)

def Given.word? (g : Given) (name : String) : Option String :=
  (g.options.find? (·.1 = name)).map (·.2)

def Given.all (g : Given) (name : String) : List String :=
  (g.options.filter (·.1 = name)).map (·.2)

/-- Why there is no command to run. -/
inductive Stop
  | version (path : List String)
  | help (path : List String)
  | misuse
deriving DecidableEq, Repr

/-- How far arguments have been read: the words that lead to the level, what was given on the levels
above and on this one, the option that waits for its word, and what kind of word comes next. The
last option with a word of its own is held back until more is read on its level, and `spoiled` says
that one of a level above was not in order. -/
structure Progress where
  path : List String := []
  above : List Given := []
  given : Given := {}
  waiting : Option Choice := none
  held : Option (Choice × String) := none
  spoiled : Bool := false
  wordsOnly : Bool := false
  helping : Bool := false

namespace Progress

def level (p : Progress) : Level := (level? p.path).getD { choices := [] }

/-- Takes up an option with its word, or with an empty one if it takes none. -/
def record (p : Progress) (c : Choice) (word : String) : Except Stop Progress :=
  if p.given.has c.name && !c.repeats then .error .misuse
  else if c.takesWord && !c.accepts word then .error .misuse
  else .ok { p with given := { p.given with options := p.given.options ++ [(c.name, word)] } }

/-- Takes up the option that is held back. -/
def settle (p : Progress) : Except Stop Progress :=
  match p.held with
  | some (c, word) => { p with held := none }.record c word
  | none => .ok p

/-- An option that takes no word. -/
def recordSwitch (p : Progress) (c : Choice) : Except Stop Progress :=
  if c.name = "help" then .error (.help p.path)
  else if c.name = "version" then .error (.version p.path)
  else p.record c ""

/-- A long option, with the word that an equals sign joins to it. -/
def takeLong (p : Progress) (s : String) : Except Stop Progress :=
  let (name, word) := match Text.splitFirst? '=' s with
    | some (name, word) => (name, some word)
    | none => (s, none)
  match p.level.choices.find? (·.name = name), word with
  | none, _ => .error .misuse
  | some c, some word => if c.takesWord then p.record c word else .error .misuse
  | some c, none => if c.takesWord then .ok { p with waiting := some c } else p.recordSwitch c

/-- Options by their letters, the last of which may have its word joined to it. -/
def takeLetters (p : Progress) : List Char → Except Stop Progress
  | [] => .ok p
  | letter :: rest =>
    match p.level.choices.find? (·.letter = some letter) with
    | none => .error .misuse
    | some c =>
      if !c.takesWord then do takeLetters (← p.recordSwitch c) rest
      else match rest with
        | [] => .ok { p with waiting := some c }
        | '=' :: word => p.record c (String.ofList word)
        | word => p.record c (String.ofList word)

/-- Goes one level down. -/
def descend (p : Progress) (word : String) : Progress :=
  match p.settle with
  | .ok p => { path := p.path ++ [word], above := p.above ++ [p.given], spoiled := p.spoiled }
  | .error _ => { path := p.path ++ [word], above := p.above ++ [p.given], spoiled := true }

/-- Whether the level has a place for one more word. -/
def hasPlace (p : Progress) : Bool :=
  match p.level.places with
  | .none => false
  | .upToOne | .one => p.given.words.isEmpty
  | .any => true

def takeWord (p : Progress) (word : String) : Except Stop Progress :=
  if p.hasPlace then .ok { p with given := { p.given with words := p.given.words ++ [word] } }
  else .error .misuse

/-- A word, which may be the name of a level below. -/
def takeName (p : Progress) (word : String) : Except Stop Progress :=
  if word ∈ p.level.below then .ok (p.descend word)
  else if word = "help" ∧ p.level.below ≠ [] then .ok { p with helping := true }
  else do (← p.settle).takeWord word

/-- Whether an argument stands for options. -/
def isOption (s : String) : Bool := Text.startsWith "-" s && s ≠ "-"

/-- Takes up one argument. -/
def take (p : Progress) (s : String) : Except Stop Progress :=
  if p.helping then
    if s ∈ p.level.below then .ok { p.descend s with helping := true }
    else if s = "help" ∧ p.level.below ≠ [] then .ok p
    else .error .misuse
  else if p.wordsOnly then do (← p.settle).takeWord s
  else match p.waiting with
    | some c =>
      if isOption s then .error .misuse else .ok { p with waiting := none, held := some (c, s) }
    | none =>
      if s = "--" then .ok { p with wordsOnly := true }
      else match Text.after? "--" s with
        | some long => do (← p.settle).takeLong long
        | none =>
          if isOption s then do (← p.settle).takeLetters (s.toList.drop 1) else p.takeName s

end Progress

/-- Reads all arguments: what was given on each level from the first on, and the words that lead to
the last. -/
def read (arguments : List String) : Except Stop (List String × List Given) := do
  let p ← arguments.foldlM Progress.take {}
  if p.helping then throw (.help p.path)
  let p ← p.settle
  let isShort := p.level.places = .one ∧ p.given.words = []
  if p.spoiled ∨ p.waiting.isSome ∨ p.level.below ≠ [] ∨ isShort then throw .misuse
  return (p.path, p.above ++ [p.given])

end ResourceModels.CommandLine
