import ResourceModels.Text

/-!
The versions of an interface that are recognized in the names of generated files: `v1` to `v10`, and
`v1alpha1` to `v3beta5`.
-/

namespace ResourceModels.ApiVersion

def text (s : List Char) : String := String.ofList s

/-- Reads a number of decimal digits without a zero in front, below `2 ^ 32`. -/
def major? (digits : List Char) : Option Nat :=
  if digits.isEmpty then none
  else
    let n := digits.foldl (fun n d => n * 10 + (d.toNat - '0'.toNat)) 0
    if n < Nat.pow 2 32 ∧ (toString n).length = digits.length then some n else none

/-- The stage after the major number: `alpha` or `beta` and a number from 1 to 5. -/
def isStage (s : String) : Bool :=
  match (Text.after? "alpha" s).or (Text.after? "beta" s) with
  | some minor => minor ∈ ["1", "2", "3", "4", "5"]
  | none => false

def isKnown (s : String) : Bool :=
  match s.toList with
  | 'v' :: rest =>
    let (digits, stage) := rest.span Char.isDigit
    match major? digits with
    | none => false
    | some major =>
      if stage.isEmpty then 1 ≤ major && major ≤ 10
      else 1 ≤ major && major ≤ 3 && isStage (text stage)
  | _ => false

/-- The recognized versions: first those without a stage. -/
def known : List String :=
  ((List.range 10).map fun major => "v" ++ toString (major + 1)) ++
    ["alpha", "beta"].flatMap fun stage =>
      (List.range 3).flatMap fun major =>
        (List.range 5).map fun minor =>
          "v" ++ toString (major + 1) ++ stage ++ toString (minor + 1)

end ResourceModels.ApiVersion
