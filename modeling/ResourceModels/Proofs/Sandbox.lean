import ResourceModels.Proofs.FileStore.Edits
import ResourceModels.Sandbox.Rules

/-!
# Runners whose answers do not change

A runner may keep a state of its own. One that answers a job by its tree and its request alone can
be replaced by a function, and what is collected after the job is found by that function.
-/

namespace ResourceModels

open FileStore (Edited)

/-- A computation gives a value whatever the state is. -/
def Yields {ω α : Type} (x : StateM ω α) (a : α) : Prop := ∀ s, (x s).1 = a

theorem Yields.pure {ω α : Type} (a : α) : Yields (Pure.pure a : StateM ω α) a := fun _ => rfl

theorem Yields.map {ω α β : Type} {x : StateM ω α} {a : α} (h : Yields x a) (g : α → β) :
    Yields (g <$> x) (g a) := fun s => congrArg g (h s)

theorem Yields.bind {ω α β : Type} {x : StateM ω α} {a : α} {next : α → StateM ω β} {b : β}
    (h : Yields x a) (hnext : Yields (next a) b) : Yields (x >>= next) b := by
  intro s
  change (next (x s).1 (x s).2).1 = b
  rw [h s]
  exact hnext _

namespace Sandbox

/-- What a runner answers does not hang on what it saw before, and a job edits its tree file by
file. -/
structure Answers {ω : Type} (run : Runner (StateM ω)) (f : FileTree → Request → Outcome) :
    Prop where
  answer : ∀ t request, Yields (run t request) (f t request)
  edited : ∀ t request, Edited t (f t request).tree

/-- The models that are collected after a job, unless it failed. -/
def gathered {ε : Type} (wrap : SandboxError → ε)
    (collect : FileTree → Except ε FileTree) (o : Outcome) : Except ε (Option FileTree) :=
  match o.result with
  | .error cause => .error (wrap cause)
  | .ok () => (collect o.tree).map some

theorem map_gathered {ε : Type} {wrap : SandboxError → ε}
    {collect : FileTree → Except ε FileTree} {m : Type → Type} [Monad m] [LawfulMonad m]
    (job : m Outcome) :
    gathered wrap collect <$> job = job >>= fun o =>
      match o.result with
      | .error cause => pure (.error (wrap cause))
      | .ok () => pure ((collect o.tree).map some) := by
  rw [map_eq_pure_bind]
  congr 1
  funext o
  unfold gathered
  split <;> rfl

theorem gathered_eq_ok {ε : Type} {wrap : SandboxError → ε}
    {collect : FileTree → Except ε FileTree} {o : Outcome} {t : FileTree}
    (h : gathered wrap collect o = .ok (some t)) : collect o.tree = .ok t := by
  unfold gathered at h
  split at h
  · cases h
  · obtain ⟨models, hmodels, hsome⟩ := Outcome.map_eq_ok.mp h
    rw [hmodels, Option.some.inj hsome]

namespace Rule

variable {t u : FileTree} {o : Outcome} {go : FileTree → Outcome}

theorem edited_next (h : Edited t o.tree) (hgo : ∀ u, Edited u (go u).tree) :
    Edited t (next o go).tree := by
  unfold next
  split
  · exact h.trans (hgo o.tree)
  · exact h

theorem edited_writeAll (t : FileTree) (entries : List (String × Entry)) :
    Edited t (writeAll t entries).tree := by
  induction entries generalizing t with
  | nil => exact .start
  | cons pair rest ih =>
    simp only [writeAll]
    split
    · next hwrite => exact (Edited.start.write hwrite).trans (ih _)
    · exact .start

theorem edited_removeAll (t : FileTree) (paths : List String) :
    Edited t (removeAll t paths).tree := by
  induction paths generalizing t with
  | nil => exact .start
  | cons path rest ih =>
    simp only [removeAll]
    split
    · next hremove => exact (Edited.start.remove hremove).trans (ih _)
    · exact .start

theorem edited_carryOut (r : Rule) (t : FileTree) : Edited t (r.carryOut t).tree := by
  refine edited_next (edited_writeAll t r.write) fun t => ?_
  refine edited_next (edited_removeAll t r.remove) fun t => ?_
  split <;> exact .start

theorem edited_follow (request : Request) (rules : List Rule) (t : FileTree) :
    Edited t (follow request rules t).tree := by
  induction rules generalizing t with
  | nil => exact .start
  | cons r rest ih =>
    simp only [follow]
    split
    · exact edited_next (edited_carryOut r t) ih
    · exact ih t

end Rule

theorem byRules_answers (rules : List Rule) :
    Answers (byRules rules) fun t request => Rule.follow request rules t where
  answer _ _ _ := rfl
  edited t request := Rule.edited_follow request rules t

end Sandbox

end ResourceModels
