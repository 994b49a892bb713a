import ResourceModels.Host

/-!
Walking through a directory of the machine: each node before what lies in it, names in order. Links
are followed if that is asked for, but not into a directory that the walk is in already.
-/

namespace ResourceModels.Host

/-- A node met on a walk: its path, the segments of that path from the start, where it is, and what
it is. -/
structure Met where
  path : String
  segments : List String
  place : List String
  node : Node

/-- A walk that went wrong: the path at which it did, and why. -/
structure WalkFault where
  path : String
  cause : HostFault
deriving DecidableEq, Repr

/-- A directory the walk is in. -/
structure Around where
  path : String
  place : List String

/-- A node with the link it is reached by followed, if links are. -/
def reach (h : Host) (follow : Bool) (around : List Around) (path : String)
    (segments place : List String) (n : Node) : Except WalkFault Met :=
  match n, follow with
  | .link _, true =>
    match stat h true path with
    | .error cause => .error ⟨path, .walk path cause⟩
    | .ok (place, .dir) =>
      match around.find? (·.place = place) with
      | some a => .error ⟨path, .loop a.path path⟩
      | none => .ok ⟨path, segments, place, .dir⟩
    | .ok (place, n) => .ok ⟨path, segments, place, n⟩
  | n, _ => .ok ⟨path, segments, place, n⟩

mutual

/-- The nodes from one on: itself and, for a directory, all that lies in it. -/
def walkNode (h : Host) (follow : Bool) : Nat → List Around → Met → Except WalkFault (List Met)
  | 0, _, m => .ok [m]
  | fuel + 1, around, m =>
    match m.node with
    | .dir => do
      let around := ⟨m.path, m.place⟩ :: around
      return m :: (← walkNames h follow fuel around m (names h m.place))
    | _ => .ok [m]

/-- The nodes with the given names in a directory, and all that lies in them. -/
def walkNames (h : Host) (follow : Bool) : Nat → List Around → Met → List String →
    Except WalkFault (List Met)
  | _, _, _, [] => .ok []
  | fuel, around, m, name :: rest => do
    let path := HostPath.join m.path name
    let place := name :: m.place
    let first ← match node? h place with
      | none => pure []
      | some n => do
        let met ← reach h follow around path (m.segments ++ [name]) place n
        walkNode h follow fuel around met
    return first ++ (← walkNames h follow fuel around m rest)

end

/-- How deep a walk can get: a directory is entered anew at most once through links. -/
def walkFuel (h : Host) : Nat := 2 * h.nodes.length + 3

/-- All nodes from a path on. A link at the start is followed in any case. -/
def walkFrom (h : Host) (follow : Bool) (root : String) : Except WalkFault (List Met) :=
  match stat h false root with
  | .error cause => .error ⟨root, .walk root cause⟩
  | .ok (place, n) =>
    match n, stat h true root with
    | .link target, .ok (place, .dir) => do
      let all ← walkNode h follow (walkFuel h) [] ⟨root, [], place, .dir⟩
      return ⟨root, [], place, if follow then .dir else .link target⟩ :: all.drop 1
    | .link _, .error cause => .error ⟨root, .walk root cause⟩
    | .link _, .ok (place, n) => .ok [⟨root, [], place, n⟩]
    | n, _ => walkNode h follow (walkFuel h) [] ⟨root, [], place, n⟩

end ResourceModels.Host
