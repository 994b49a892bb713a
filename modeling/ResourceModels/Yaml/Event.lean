import ResourceModels.Text
import ResourceModels.Yaml.Token

/-!
The documents of a YAML text, each as the list of its scalars and of the beginnings and ends of its
collections. Anchors and aliases are numbered within a document. A fault ends the text, and the
events before it are kept.
-/

/-!
## Tags

The meaning of tags. Four standard tags fix the type of a scalar, and a tag that starts with an
exclamation mark is one of the writer's own, known by its name.
-/

namespace ResourceModels.Yaml

/-- A tag of one's own whose name is no text has no meaning, and `other` tags only say that a scalar
is a text. -/
inductive Tag
  | bool
  | int
  | float
  | null
  | own (name : String)
  | unreadable
  | other
deriving DecidableEq, Repr

namespace Tag

/-- What the names of standard tags begin with. -/
def standardStart : String := "tag:yaml.org,2002:"

/-- The meaning of the bytes of a tag. The mark in front of a tag of one's own is no part of its
name, unless it is all of it. -/
def ofBytes (bytes : List UInt8) : Tag :=
  let text? (bytes : List UInt8) := Text.decode? (ByteArray.mk bytes.toArray)
  match bytes with
  | [0x21] => .own "!"
  | 0x21 :: name =>
    match text? name with
    | some name => .own name
    | none => .unreadable
  | bytes =>
    match (text? bytes).bind (Text.after? standardStart) with
    | some "bool" => .bool
    | some "int" => .int
    | some "float" => .float
    | some "null" => .null
    | _ => .other

def ownName? : Option Tag → Option String
  | some (.own name) => some name
  | _ => none

/-- Two names are the same tag if they differ by a mark in front of one of them. -/
def bareName (name : String) : String :=
  if name = "!" then name else (Text.after? "!" name).getD name

end Tag

end ResourceModels.Yaml

/-! ## Events -/

namespace ResourceModels.Yaml

/-- `void` is the content of a text without documents. -/
inductive Event
  | void
  | scalar (anchor : Option Nat) (tag : Option Tag) (style : ScalarStyle) (text : String)
  | seqStart (anchor : Option Nat) (tag : Option Tag)
  | seqEnd
  | mapStart (anchor : Option Nat) (tag : Option Tag)
  | mapEnd
  | alias (anchor : Nat)
deriving DecidableEq, Repr

/-- One document of a text: all its events, or those before a fault. -/
structure Document where
  events : List Event
  complete : Bool

namespace Event

def anchor? : Event → Option Nat
  | .scalar a .. | .seqStart a _ | .mapStart a _ => a
  | _ => none

def empty : Event := .scalar none none .plain ""

/-- The state of a reader within a document: the tokens that are left, the handles of tags, the
numbers of the anchors, and the events so far, backwards. -/
structure Reader where
  tokens : List Token
  handles : List (String × List UInt8)
  anchors : List (String × Nat)
  events : List Event

namespace Reader

def emit (r : Reader) (e : Event) : Reader := { r with events := e :: r.events }

def at_ (r : Reader) (tokens : List Token) : Reader := { r with tokens := tokens }

/-- A fault, which leaves the events before it. -/
def fail (r : Reader) : Except (List Event) α := .error r.events

/-- Numbers an anchor by how many names are in use. -/
def bind (r : Reader) : Option String → Reader × Option Nat
  | none => (r, none)
  | some name =>
    let n := r.anchors.length
    ({ r with anchors := (name, n) :: r.anchors.filter (·.1 ≠ name) }, some n)

def resolve (r : Reader) (handle : String) (suffix : List UInt8) : Option Tag :=
  if handle = "" then some (.ofBytes suffix)
  else (r.handles.lookup handle).map fun start => .ofBytes (start ++ suffix)

/-- The anchor and the tag in front of a node, in either order. -/
def properties (r : Reader) : Option (Option String × Option Tag × List Token) :=
  match r.tokens with
  | .anchor a :: .tag h s :: rest => do return (some a, some (← r.resolve h s), rest)
  | .tag h s :: .anchor a :: rest => do return (some a, some (← r.resolve h s), rest)
  | .anchor a :: rest => some (some a, none, rest)
  | .tag h s :: rest => do return (none, some (← r.resolve h s), rest)
  | rest => some (none, none, rest)

end Reader

def headIs (tokens : List Token) (among : List Token) : Bool :=
  match tokens with
  | t :: _ => t ∈ among
  | [] => false

mutual

/-- A node. `inBlock` says whether a block may start here, `indentless` whether the entries of a
sequence may stand at the indentation of the mapping around it. -/
def node : Nat → Bool → Bool → Reader → Except (List Event) Reader
  | 0, _, _, r => r.fail
  | fuel + 1, inBlock, indentless, r =>
    match r.tokens with
    | .alias name :: rest =>
      match r.anchors.lookup name with
      | some n => .ok ((r.at_ rest).emit (.alias n))
      | none => r.fail
    | _ =>
      match r.properties with
      | none => r.fail
      | some (anchor, tag, rest) =>
        let bare := anchor.isNone && tag.isNone
        let (r, anchor) := r.bind anchor
        match rest with
        | .scalar style text :: rest => .ok ((r.at_ rest).emit (.scalar anchor tag style text))
        | .flowSeqStart :: rest => flowSeq fuel true ((r.at_ rest).emit (.seqStart anchor tag))
        | .flowMapStart :: rest => flowMap fuel true ((r.at_ rest).emit (.mapStart anchor tag))
        | t :: rest =>
          if indentless && t = .blockEntry then
            indentlessSeq fuel ((r.at_ (t :: rest)).emit (.seqStart anchor tag))
          else if inBlock && t = .blockSeqStart then
            blockSeq fuel ((r.at_ rest).emit (.seqStart anchor tag))
          else if inBlock && t = .blockMapStart then
            blockMap fuel ((r.at_ rest).emit (.mapStart anchor tag))
          else if bare then r.fail
          else .ok ((r.at_ (t :: rest)).emit (.scalar anchor tag .plain ""))
        | [] => r.fail

/-- A node, or an empty scalar if one of the given tokens comes first. -/
def nodeUnless : Nat → Bool → Bool → List Token → Reader → Except (List Event) Reader
  | 0, _, _, _, r => r.fail
  | fuel + 1, inBlock, indentless, among, r =>
    if headIs r.tokens among then .ok (r.emit .empty) else node fuel inBlock indentless r

def blockSeq : Nat → Reader → Except (List Event) Reader
  | 0, r => r.fail
  | fuel + 1, r =>
    match r.tokens with
    | .blockEntry :: rest => do
      blockSeq fuel (← nodeUnless fuel true false [.blockEntry, .blockEnd] (r.at_ rest))
    | .blockEnd :: rest => .ok ((r.at_ rest).emit .seqEnd)
    | _ => r.fail

def indentlessSeq : Nat → Reader → Except (List Event) Reader
  | 0, r => r.fail
  | fuel + 1, r =>
    match r.tokens with
    | .blockEntry :: rest => do
      indentlessSeq fuel
        (← nodeUnless fuel true false [.blockEntry, .key, .value, .blockEnd] (r.at_ rest))
    | [] => r.fail
    | _ => .ok (r.emit .seqEnd)

def blockMap : Nat → Reader → Except (List Event) Reader
  | 0, r => r.fail
  | fuel + 1, r =>
    match r.tokens with
    | .key :: rest => do
      let r ← nodeUnless fuel true true [.key, .value, .blockEnd] (r.at_ rest)
      match r.tokens with
      | .value :: rest =>
        blockMap fuel (← nodeUnless fuel true true [.key, .value, .blockEnd] (r.at_ rest))
      | [] => r.fail
      | _ => blockMap fuel (r.emit .empty)
    | .blockEnd :: rest => .ok ((r.at_ rest).emit .mapEnd)
    | _ => r.fail

/-- The value of a pair of a flow collection, which is empty unless a colon comes first. -/
def flowValue : Nat → List Token → Reader → Except (List Event) Reader
  | 0, _, r => r.fail
  | fuel + 1, among, r =>
    match r.tokens with
    | .value :: rest => nodeUnless fuel false false among (r.at_ rest)
    | [] => r.fail
    | _ => .ok (r.emit .empty)

/-- The items of a flow sequence; `first` says that no comma has to come before the next one. An
item may be a mapping of one pair without braces. -/
def flowSeq : Nat → Bool → Reader → Except (List Event) Reader
  | 0, _, r => r.fail
  | fuel + 1, first, r =>
    let item (tokens : List Token) : Except (List Event) Reader :=
      match tokens with
      | .flowSeqEnd :: rest => .ok ((r.at_ rest).emit .seqEnd)
      | .key :: rest => do
        let r := (r.at_ rest).emit (.mapStart none none)
        let r ← if headIs rest [.value, .flowEntry, .flowSeqEnd]
          then .ok ((r.at_ (rest.drop 1)).emit .empty)
          else node fuel false false r
        let r ← flowValue fuel [.flowEntry, .flowSeqEnd] r
        flowSeq fuel false (r.emit .mapEnd)
      | tokens => do flowSeq fuel false (← node fuel false false (r.at_ tokens))
    match r.tokens with
    | .flowSeqEnd :: rest => .ok ((r.at_ rest).emit .seqEnd)
    | .flowEntry :: rest => item (if first then .flowEntry :: rest else rest)
    | tokens => if first then item tokens else r.fail

def flowMap : Nat → Bool → Reader → Except (List Event) Reader
  | 0, _, r => r.fail
  | fuel + 1, first, r =>
    let pair (tokens : List Token) : Except (List Event) Reader :=
      match tokens with
      | .flowMapEnd :: rest => .ok ((r.at_ rest).emit .mapEnd)
      | .key :: rest => do
        let r ← nodeUnless fuel false false [.value, .flowEntry, .flowMapEnd] (r.at_ rest)
        flowMap fuel false (← flowValue fuel [.flowEntry, .flowMapEnd] r)
      | tokens => do
        let r ← node fuel false false (r.at_ tokens)
        if r.tokens.isEmpty then r.fail else flowMap fuel false (r.emit .empty)
    match r.tokens with
    | .flowMapEnd :: rest => .ok ((r.at_ rest).emit .mapEnd)
    | .flowEntry :: rest => pair (if first then .flowEntry :: rest else rest)
    | tokens => if first then pair tokens else r.fail

end

def standardHandles : List (String × List UInt8) :=
  [("!", [0x21]), ("!!", Tag.standardStart.toUTF8.data.toList)]

/-- The directives in front of a document: at most one version, which must be 1.1 or 1.2, and
handles that differ. -/
def directives (version : Bool) (handles : List (String × List UInt8)) :
    List Token → Option (List (String × List UInt8) × List Token)
  | .version major minor :: rest =>
    if version || major ≠ 1 || (minor ≠ 1 && minor ≠ 2) then none
    else directives true handles rest
  | .tagHandle h s :: rest =>
    if (handles.lookup h).isSome then none else directives version ((h, s) :: handles) rest
  | rest => some (handles ++ standardHandles, rest)

/-- One document after its directives and mark, and the tokens after it. -/
def document (isExplicit : Bool) (handles : List (String × List UInt8)) (tokens : List Token) :
    Document × List Token :=
  let r : Reader := ⟨tokens, handles, [], []⟩
  let isEmpty := isExplicit && match tokens with
    | .version .. :: _ | .tagHandle .. :: _ | .documentStart :: _ | .documentEnd :: _
    | .streamEnd :: _ => true
    | _ => false
  match if isEmpty then .ok (r.emit .empty) else node (4 * tokens.length + 8) true false r with
  | .error events => (⟨events.reverse, false⟩, [])
  | .ok r =>
    match r.tokens with
    | [] => (⟨r.events.reverse, false⟩, [])
    | .documentEnd :: rest => (⟨r.events.reverse, true⟩, rest)
    | rest => (⟨r.events.reverse, true⟩, rest)

/-- The documents from here on. Only the first may start without a mark. -/
def documentsFrom : Nat → Bool → List Token → List Document
  | 0, _, _ => [⟨[], false⟩]
  | fuel + 1, first, tokens =>
    let goOn : Document × List Token → List Document
      | (d, rest) => if d.complete then d :: documentsFrom fuel false rest else [d]
    let tokens := if first then tokens else tokens.dropWhile (· = .documentEnd)
    match tokens with
    | .streamEnd :: _ => if first then [⟨[.void], true⟩] else []
    | tokens =>
      match directives false [] tokens with
      | none => [⟨[], false⟩]
      | some (handles, .documentStart :: rest) => goOn (document true handles rest)
      | some (handles, rest) =>
        -- directives must be followed by a mark
        if first && rest.length = tokens.length then goOn (document false handles rest)
        else [⟨[], false⟩]

end Event

/-- The documents of a text. All are complete but the last one. -/
def Document.ofText (text : String) : List Document :=
  let tokens := Token.scan text
  Event.documentsFrom (tokens.length + 2) true tokens

end ResourceModels.Yaml
