import ResourceModels.Proofs.Collect.Rereading
import ResourceModels.Proofs.Extract

/-!
# Documents in order

What is read of a definition is in order, and so is what a document adds to it: the identity of the
kind, texts and references, all under properties that stand in order of name. So in each schema of a
collected document no two properties have one name.
-/

namespace ResourceModels

namespace Schema

variable {s : Schema}

theorem Orderly.setExtension (h : s.Orderly) {key : String} {value : Json}
    (hkey : key ∉ knownKeywords) (hvalue : value.InOrder) : (s.setExtension key value).Orderly := by
  obtain ⟨hsorted, hapart, hextensions, hvalues, hdefault⟩ := h.keywords
  refine h.withKeywords ⟨hsorted.insert key value, fun name hname => ?_, fun field hfield => ?_,
    hvalues, hdefault⟩
  · rcases Dict.mem_keys_insert.mp hname with rfl | hname
    · exact hkey
    · exact hapart name hname
  · rcases Dict.mem_insert hfield with rfl | hfield
    · exact hvalue
    · exact hextensions field hfield

end Schema

namespace Extract

open Schema (orderly_of_isPlain)

end Extract

namespace Collect

theorem Origin.inOrder {s : Staged} (h : Origin s) : (Manifest.resource s.definition).InOrder := by
  cases h with
  | verbatim _ hdefines => exact Manifest.inOrder_of_classify hdefines _ List.mem_cons_self
  | anew _ horder => exact horder

end Collect

end ResourceModels
