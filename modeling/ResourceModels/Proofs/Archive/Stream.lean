import ResourceModels.Archive.Reading

/-!
# Streams

A stream is read header by header: a member that belongs to the next one is taken up, one of its own
is found. Every member takes bytes off the stream, so the fuel of the reader is never used up, and
the reader stops only at the end, at damage, or in a member that the stream breaks off in.
-/

namespace ResourceModels.Archive

inductive Ending
  | whole
  | damaged
  | cut
deriving DecidableEq, Repr

/-- The stream is damaged where the reader stands. -/
def Damaged (l : Lead) (bytes : Bytes) : Prop :=
  match readHeader l.extended bytes with
  | .done => l.isEmpty = false
  | .damaged => True
  | .found r =>
    match l.take? r with
    | none => settle l r = .damaged
    | some none => True
    | some (some _) => afterContents? r = none

/-- The members of a stream and how it ends, with `l` taken up before. -/
inductive Stream : Lead → Bytes → List Found → Ending → Prop
  | whole {l : Lead} {bytes : Bytes} (h : readHeader l.extended bytes = .done)
      (hl : l.isEmpty = true) : Stream l bytes [] .whole
  | damaged {l : Lead} {bytes : Bytes} (h : Damaged l bytes) : Stream l bytes [] .damaged
  | lead {l l' : Lead} {bytes rest : Bytes} {r : Raw} {found : List Found} {ending : Ending}
      (h : readHeader l.extended bytes = .found r) (hl : l.take? r = some (some l'))
      (ha : afterContents? r = some rest) (hrest : Stream l' rest found ending) :
      Stream l bytes found ending
  | cut {l : Lead} {bytes : Bytes} {r : Raw} {f : Found}
      (h : readHeader l.extended bytes = .found r) (hl : l.take? r = none)
      (hf : settle l r = .found f) (ha : afterContents? f.raw = none) : Stream l bytes [f] .cut
  | member {l : Lead} {bytes rest : Bytes} {r : Raw} {f : Found} {found : List Found}
      {ending : Ending} (h : readHeader l.extended bytes = .found r) (hl : l.take? r = none)
      (hf : settle l r = .found f) (ha : afterContents? f.raw = some rest)
      (hrest : Stream {} rest found ending) : Stream l bytes (f :: found) ending

end ResourceModels.Archive
