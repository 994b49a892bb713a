import ResourceModels.Sandbox

/-!
A runner without containers. It follows rules: which files a job leaves, which it removes, and
whether it fails. It remembers what it was asked for.
-/

namespace ResourceModels.Sandbox

structure Rule where
  /-- The rule is for images whose name contains this text. -/
  image : String := ""
  /-- The rule is for trees that have this path, if one is given. -/
  present : Option String := none
  write : List (String × Entry) := []
  remove : List String := []
  failure : Option SandboxError := none

/-- A request with the paths of the tree it came with. -/
structure Received where
  request : Request
  paths : List String
deriving DecidableEq, Repr

namespace Rule

def applies (r : Rule) (t : FileTree) (request : Request) : Bool :=
  Text.contains r.image request.image && r.present.all (FileStore.hasPath t ·)

def writeAll (t : FileTree) : List (String × Entry) → Outcome
  | [] => ⟨t, .ok ()⟩
  | (path, e) :: rest =>
    match FileStore.writeEntry t path e with
    | .ok t => writeAll t rest
    | .error cause => ⟨t, .error (.transfer cause)⟩

def removeAll (t : FileTree) : List String → Outcome
  | [] => ⟨t, .ok ()⟩
  | path :: rest =>
    match FileStore.remove t path with
    | .ok (t, _) => removeAll t rest
    | .error cause => ⟨t, .error (.transfer cause)⟩

/-- Goes on with the tree after a step, unless the step failed. -/
def next (o : Outcome) (go : FileTree → Outcome) : Outcome :=
  match o.result with
  | .ok () => go o.tree
  | .error _ => o

def carryOut (r : Rule) (t : FileTree) : Outcome :=
  next (writeAll t r.write) fun t => next (removeAll t r.remove) fun t =>
    match r.failure with
    | some e => ⟨t, .error e⟩
    | none => ⟨t, .ok ()⟩

/-- Follows the rules that apply, in order, up to the first failure. -/
def follow (request : Request) : List Rule → FileTree → Outcome
  | [], t => ⟨t, .ok ()⟩
  | r :: rest, t =>
    if r.applies t request then next (r.carryOut t) (follow request rest)
    else follow request rest t

end Rule

/-- Runs jobs by rules; the requests received are kept, the latest first. -/
def byRules (rules : List Rule) : Runner (StateM (List Received)) := fun t request => do
  modify fun received => ⟨request, FileStore.paths t⟩ :: received
  return Rule.follow request rules t

end ResourceModels.Sandbox
