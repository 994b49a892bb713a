import ResourceModels.FileStore

/-!
Failures of laying out files anew: a file could not be moved, or the files could not be listed.
-/

namespace ResourceModels

inductive LayoutError
  | move (path : String) (cause : FileError)
  | file (cause : FileError)
deriving DecidableEq, Repr

def LayoutError.message : LayoutError → String
  | .move path cause => "failed to restructure " ++ path ++ ": " ++ Fault.message cause
  | .file cause => Fault.message cause

def LayoutError.causes : LayoutError → List String
  | .move _ cause => Fault.trail cause
  | .file cause => Fault.causes cause

end ResourceModels
