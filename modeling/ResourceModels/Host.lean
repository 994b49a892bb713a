import ResourceModels.FileStore
import ResourceModels.Host.Path

/-!
The machine's own file system: directories, files and links in one tree. Paths are followed segment
by segment through links; what is done to a path is done where it leads.
-/

namespace ResourceModels

namespace Host

inductive Node
  | dir
  | file (contents : ByteArray) (mode : Nat)
  | link (target : String)
deriving BEq

end Host

/-- The nodes below the root by the segments of their paths, joined. -/
structure Host where
  nodes : Dict Host.Node

namespace Host

def empty : Host := ⟨[]⟩

instance : EmptyCollection Host := ⟨empty⟩

/-- How many links may be followed on one path. -/
def maxLinks : Nat := 40

/-- How many bytes a name may have, and how many a path. -/
def maxName : Nat := 255

def maxPath : Nat := 4095

/-- The key of a place, whose segments are given innermost first. -/
def key (place : List String) : String := Text.join "/" place.reverse

def node? (h : Host) (place : List String) : Option Node :=
  if place = [] then some .dir else h.nodes.get? (key place)

def put (h : Host) (place : List String) (n : Node) : Host := ⟨h.nodes.insert (key place) n⟩

/-- Where a path leads: to a node, or to a place in a directory where there is none. -/
inductive Place
  | node (place : List String) (n : Node)
  | vacant (place : List String)

/-- Follows segments from a directory. The last one is followed through a link only if `follow` says
so. `links` counts those that may still be followed. -/
def walk (h : Host) (follow : Bool) (links : Nat) (place : List String) :
    List String → Except HostFault Place
  | [] => .ok (.node place .dir)
  | segment :: rest =>
    if segment = "" ∨ segment = "." then walk h follow links place rest
    else if segment = ".." then walk h follow links (place.drop 1) rest
    else if maxName < segment.utf8ByteSize then .error .nameTooLong
    else
      let here := segment :: place
      match h.node? here with
      | none => if rest.all (· = "") then .ok (.vacant here) else .error .notFound
      | some .dir => walk h follow links here rest
      | some (.file contents mode) =>
        if rest = [] then .ok (.node here (.file contents mode)) else .error .notDirectory
      | some (.link target) =>
        if rest = [] ∧ !follow then .ok (.node here (.link target))
        else match links with
          | 0 => .error .tooManyLinks
          | links + 1 =>
            let start := if HostPath.isAbsolute target then [] else place
            walk h follow links start (Text.split (· = '/') target ++ rest)
termination_by segments => (links, segments.length)

/-- Where an absolute path leads. -/
def locate (h : Host) (follow : Bool) (path : String) : Except HostFault Place :=
  if path.toList.contains '\x00' then .error .zeroCharacter
  else if maxPath < path.utf8ByteSize then .error .nameTooLong
  else walk h follow maxLinks [] (Text.split (· = '/') path)

def stat (h : Host) (follow : Bool) (path : String) : Except HostFault (List String × Node) := do
  match ← locate h follow path with
  | .node place n => return (place, n)
  | .vacant _ => throw .notFound

/-- The path without links that leads to the same node. -/
def canonical (h : Host) (path : String) : Except HostFault String := do
  return "/" ++ key (← stat h true path).1

def isDir (h : Host) (path : String) : Bool :=
  match stat h true path with
  | .ok (_, .dir) => true
  | _ => false

def isFile (h : Host) (path : String) : Bool :=
  match stat h true path with
  | .ok (_, .file ..) => true
  | _ => false

/-- Whether anything stands at a path, be it a link that leads nowhere. -/
def hasNode (h : Host) (path : String) : Bool := (stat h false path).toBool

def readFile (h : Host) (path : String) : Except HostFault ByteArray := do
  match ← stat h true path with
  | (_, .file contents _) => return contents
  | _ => throw .isDirectory

def readText (h : Host) (path : String) : Except HostFault String := do
  match Text.decode? (← readFile h path) with
  | some text => return text
  | none => throw .invalidText

/-- Writes a file; one that is there keeps its mode. -/
def writeFile (h : Host) (path : String) (contents : ByteArray) : Except HostFault Host := do
  match ← locate h true path with
  | .vacant place => return h.put place (.file contents Entry.defaultMode)
  | .node place (.file _ mode) => return h.put place (.file contents mode)
  | .node _ _ => throw .isDirectory

def makeDir (h : Host) (path : String) : Except HostFault Host := do
  match ← locate h false path with
  | .vacant place => return h.put place .dir
  | .node _ _ => throw .exists

/-- Makes a directory and those it lies in, as far as they are missing. The fuel bounds how many
are. -/
def makeDirsFrom (h : Host) : Nat → String → Except HostFault Host
  | 0, _ => .error .notFound
  | fuel + 1, path =>
    match makeDir h path with
    | .ok h => .ok h
    | .error cause =>
      if cause = .notFound then do
        let h ← makeDirsFrom h fuel (HostPath.parent path)
        match makeDir h path with
        | .ok h => return h
        | .error cause => if isDir h path then return h else throw cause
      else if isDir h path then .ok h
      else .error cause

def makeDirs (h : Host) (path : String) : Except HostFault Host :=
  makeDirsFrom h (path.length + 1) path

/-- Removes a file or link. -/
def unlink (h : Host) (path : String) : Except HostFault Host := do
  match ← stat h false path with
  | (_, .dir) => throw .isDirectory
  | (place, _) => return ⟨h.nodes.erase (key place)⟩

def makeLink (h : Host) (path target : String) : Except HostFault Host := do
  match ← locate h false path with
  | .vacant place => return h.put place (.link target)
  | .node _ _ => throw .exists

def names (h : Host) (place : List String) : List String :=
  let start := key place
  h.nodes.filterMap fun n =>
    (Path.below? n.1 start).filter fun rest => !rest.toList.contains '/'

/-- The names in the directory that a path leads to, in order. -/
def readDir (h : Host) (path : String) : Except HostFault (List String) := do
  match ← stat h true path with
  | (place, .dir) => return Dict.sortKeys (names h place)
  | _ => throw .notDirectory

end Host

end ResourceModels
