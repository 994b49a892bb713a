import ResourceModels.Proofs.Go.Packages
import ResourceModels.Proofs.Go.Preparation

/-!
# Closed files

Go rejects a file that names a type which is neither built in nor declared in its package, that
qualifies a type by a package it does not import, or that imports a package it does not use. The
files of a tree are free of all three.
-/

namespace ResourceModels.Go

open FileStore (lookup?)
open Emission (Takes Import)

/-- The name that an imported package goes by. -/
def importName (i : Import) : String := i.2.getD (Path.fileName i.1)

structure SourceFile.Closed (f : SourceFile) : Prop where
  plain : ∀ name ∈ f.typeNames, IsAlphanumeric name
  named : ∀ n ∈ f.names, n.package = none → n.name ∈ builtinNames ∨ n.name ∈ f.typeNames
  imported : ∀ n ∈ f.names, ∀ package, n.package = some package →
    ∃ i ∈ f.imports, importName i = package
  needed : ∀ i ∈ f.imports, ∃ n ∈ f.names, n.package = some (importName i)

section

variable {n : TypeName} {source : Option Import}

end

theorem throughout_of_componentParts {P : Keywords → Prop} {s part : Schema}
    (hs : s.Throughout P) (hp : part ∈ Emission.componentParts s) : part.Throughout P := by
  unfold Emission.componentParts at hp
  split at hp
  · exact hs.part (Schema.mem_parts.mpr (.inl hp))
  · split at hp
    · cases hp
    · rw [List.mem_singleton.mp hp]
      exact hs

theorem nestedAndKind_lacks : Collect.SchemasLack goKeys nestedAndKind [] := by
  refine holdTexts_nestedAndKind.schemasLack ?_
  simp only [Collect.charsOf, List.map_cons, List.map_nil, Collect.toList_definitionText,
    String.reduceToList]
  decide +kernel

end ResourceModels.Go
