import ResourceModels.Yaml.Event

/-!
Walks over the events of a document. A walk reads node by node, in the order in which the nodes
stand, and stops at the first fault it meets. Where an alias stands it reads the node that the
alias names, which may be written down later. How many collections may be open at a time, and how
often aliases may be followed in a document, is bounded.
-/

namespace ResourceModels.Yaml

/-- Why a YAML text has no value. The details of a malformed text are not told apart. -/
inductive ReadError
  | malformed
  | repetitionLimit
  | otherDocuments
deriving DecidableEq, Repr

def ReadError.message : ReadError → String
  | .malformed => "<yaml>"
  | .repetitionLimit => "repetition limit exceeded"
  | .otherDocuments =>
    "deserializing from YAML containing more than one document is not supported"

/-- What holds at a place of a document: for each number of an anchor the events from the last node
on that bears it, how many events the document has, and how many collections may still be opened. -/
structure Surroundings where
  targets : List (Nat × List Event)
  size : Nat
  depth : Nat

/-- The events that are left, and how many aliases may still be followed. -/
structure Place where
  rest : List Event
  jumps : Nat

abbrev Walk := ReaderT Surroundings (StateT Place (Except ReadError))

namespace Walk

/-- How many collections may be open at a time. -/
def depthLimit : Nat := 128

def fault : Walk α := throw .malformed

def orFault : Option α → Walk α
  | some a => pure a
  | none => fault

/-- The next event. The events of a document are used up before the nodes only at a fault. -/
def next : Walk Event := do
  let p ← get
  match p.rest with
  | e :: rest =>
    set { p with rest := rest }
    return e
  | [] => fault

/-- Reads the node that stands here, or the one that an alias here names, from its first event on.
-/
def node (read : Event → Walk α) : Walk α := do
  match ← next with
  | .alias n =>
    let p ← get
    if p.jumps = 0 then throw .repetitionLimit
    set (⟨((← readThe Surroundings).targets.lookup n).getD [], p.jumps - 1⟩ : Place)
    let a ← read (← next)
    modify fun q => { q with rest := p.rest }
    return a
  | e => read e

/-- Takes step after step until a collection ends. -/
def steps (last : Event) (step : σ → Walk σ) : Nat → σ → Walk σ
  | 0, _ => fault
  | fuel + 1, s => do
    let p ← get
    if p.rest.head? = some last then
      set { p with rest := p.rest.drop 1 }
      return s
    else steps last step fuel (← step s)

/-- Reads a collection after its first event, unless too many are open. -/
def collection (last : Event) (step : σ → Walk σ) (start : σ) : Walk σ := fun c =>
  match c.depth with
  | 0 => throw .malformed
  | depth + 1 => steps last step (c.size + 1) start { c with depth := depth }

def items (read : Event → Walk α) : Walk (List α) := do
  return (← collection .seqEnd (fun before => do return (← node read) :: before) []).reverse

/-- What comes after a node, whose first `depth` collections are open. -/
def afterNode : Nat → List Event → List Event
  | _, [] => []
  | depth, .seqStart .. :: rest => afterNode (depth + 1) rest
  | depth, .mapStart .. :: rest => afterNode (depth + 1) rest
  | depth, .seqEnd :: rest => if depth ≤ 1 then rest else afterNode (depth - 1) rest
  | depth, .mapEnd :: rest => if depth ≤ 1 then rest else afterNode (depth - 1) rest
  | depth, _ :: rest => if depth = 0 then rest else afterNode depth rest

/-- Passes over a node. Nothing in it is looked at, and no alias is followed. -/
def pass : Walk Unit := modify fun p => { p with rest := afterNode 0 p.rest }

end Walk

namespace Document

/-- For each number of an anchor the events from the last node on that bears it, later ones first.
-/
def targets : List Event → List (Nat × List Event)
  | [] => []
  | e :: rest =>
    match e.anchor? with
    | some n => targets rest ++ [(n, e :: rest)]
    | none => targets rest

/-- Reads the node of a document. Up to a hundred aliases are followed for each event, and a fault
that is left after the node fails it too. -/
def read (d : Document) (node : Event → Walk α) : Except ReadError α := do
  let size := d.events.length
  let (a, _) ← (Walk.node node).run ⟨targets d.events, size, Walk.depthLimit⟩
    |>.run ⟨d.events, 100 * size⟩
  if d.complete then return a else throw .malformed

/-- Reads a text that holds exactly one document. -/
def readOnly (text : String) (node : Event → Walk α) : Except ReadError α :=
  match Document.ofText text with
  | [d] => d.read node
  | d :: _ => do
    let _ ← d.read node
    throw .otherDocuments
  | [] => .error .malformed

end Document

end ResourceModels.Yaml
