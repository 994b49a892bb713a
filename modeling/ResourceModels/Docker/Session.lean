import ResourceModels.Archive.Field

/-!
Sessions with the docker command line: calls that are made one after the other, each depending on
the answers to those before it. A session does not say who answers; `interpret` puts it to somebody
who does, and what holds for every session holds for all answers.
-/

namespace ResourceModels.Docker

open Archive (Bytes)

/-- A call with its arguments, what it reads, and after how many seconds it is given up. -/
structure Call where
  arguments : List String
  input : Option Bytes := none
  limit : Option Nat := none
deriving DecidableEq, Repr

def Call.command (c : Call) : String := c.arguments.headD ""

/-- How a call ended, and what it wrote. -/
structure Finished where
  status : Int
  output : Bytes
  errors : Bytes
deriving DecidableEq, Repr

inductive Answer
  | finished (f : Finished)
  | unstarted (cause : String)
  | late
deriving DecidableEq, Repr

inductive Session (α : Type) : Type
  | done (a : α)
  | ask (c : Call) (next : Answer → Session α)

namespace Session

def bind {α β : Type} : Session α → (α → Session β) → Session β
  | .done a, f => f a
  | .ask c next, f => .ask c fun a => bind (next a) f

instance : Monad Session where
  pure := .done
  bind := bind

/-- Has the calls of a session answered. -/
def interpret {m : Type → Type} [Monad m] {α : Type} (answer : Call → m Answer) : Session α → m α
  | .done a => pure a
  | .ask c next => do interpret answer (next (← answer c))

end Session

end ResourceModels.Docker
