/-!
How containers are set up for jobs.
-/

namespace ResourceModels.Docker

/-- Ten mebibytes. -/
def defaultMaxFileSize : Nat := 10 * 1024 * 1024

structure Options where
  /-- The directory the tree is copied into, which is also the working directory. -/
  inputPath : String := "/data/input"
  /-- The directory that is copied back after the job. -/
  outputPath : String := "/data/input"
  /-- What is taken off the front of the names that are copied back. -/
  stripStart : String := "input/"
  /-- How many bytes of each file are copied back. -/
  maxFileSize : Nat := defaultMaxFileSize
  /-- The label that containers left behind are found by. -/
  label : String := "dev.crossgen.sandbox=true"
  /-- How long a job may take, in seconds. -/
  timeout : Option Nat := none
  /-- The user and group that own the files of the tree. -/
  owner : Option (Nat × Nat) := none
deriving DecidableEq, Repr, Inhabited

end ResourceModels.Docker
