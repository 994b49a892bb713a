import ResourceModels.Models
import ResourceModels.Text.Blank

/-!
The definitions of the test kinds themselves. Whoever writes tests needs models of these kinds, so
they are generated like those of any definition, for the languages that tests are written in.
-/

namespace ResourceModels.TestKinds

def compositionTest : String := Text.ofLines [
  "apiVersion: apiextensions.k8s.io/v1",
  "kind: CustomResourceDefinition",
  "metadata:",
  "  name: compositiontests.meta.dev.crossgen.io",
  "spec:",
  "  group: meta.dev.crossgen.io",
  "  names:",
  "    kind: CompositionTest",
  "    listKind: CompositionTestList",
  "    plural: compositiontests",
  "    singular: compositiontest",
  "  scope: Cluster",
  "  versions:",
  "    - name: v1alpha1",
  "      served: true",
  "      storage: true",
  "      schema:",
  "        openAPIV3Schema:",
  "          description: CompositionTest defines a test that renders a " ++
    "composition and asserts on its output.",
  "          type: object",
  "          required: [spec]",
  "          properties:",
  "            apiVersion:",
  "              type: string",
  "            kind:",
  "              type: string",
  "            metadata:",
  "              type: object",
  "            spec:",
  "              description: CompositionTestSpec defines the inputs and " ++
    "assertions of a composition test.",
  "              type: object",
  "              properties:",
  "                timeoutSeconds:",
  "                  description: Maximum time the test may run.",
  "                  type: integer",
  "                  minimum: 1",
  "                validate:",
  "                  description: Validate the rendered resources against their schemas.",
  "                  type: boolean",
  "                xr:",
  "                  description: Inline composite resource.",
  "                  type: object",
  "                  x-kubernetes-preserve-unknown-fields: true",
  "                xrPath:",
  "                  description: Path to the composite resource.",
  "                  type: string",
  "                xrd:",
  "                  description: Inline composite resource definition.",
  "                  type: object",
  "                  x-kubernetes-preserve-unknown-fields: true",
  "                xrdPath:",
  "                  description: Path to the composite resource definition.",
  "                  type: string",
  "                composition:",
  "                  description: Inline composition.",
  "                  type: object",
  "                  x-kubernetes-preserve-unknown-fields: true",
  "                compositionPath:",
  "                  description: Path to the composition.",
  "                  type: string",
  "                observedResources:",
  "                  description: Resources treated as already observed.",
  "                  type: array",
  "                  items:",
  "                    type: object",
  "                    x-kubernetes-preserve-unknown-fields: true",
  "                extraResources:",
  "                  description: Additional resources available to functions.",
  "                  type: array",
  "                  items:",
  "                    type: object",
  "                    x-kubernetes-preserve-unknown-fields: true",
  "                context:",
  "                  description: Function pipeline context.",
  "                  type: array",
  "                  items:",
  "                    type: object",
  "                    x-kubernetes-preserve-unknown-fields: true",
  "                assert:",
  "                  description: Resources expected in the rendered output.",
  "                  type: array",
  "                  items:",
  "                    type: object",
  "                    x-kubernetes-preserve-unknown-fields: true"]

def endToEndTest : String := Text.ofLines [
  "apiVersion: apiextensions.k8s.io/v1",
  "kind: CustomResourceDefinition",
  "metadata:",
  "  name: e2etests.meta.dev.crossgen.io",
  "spec:",
  "  group: meta.dev.crossgen.io",
  "  names:",
  "    kind: E2ETest",
  "    listKind: E2ETestList",
  "    plural: e2etests",
  "    singular: e2etest",
  "  scope: Cluster",
  "  versions:",
  "    - name: v1alpha1",
  "      served: true",
  "      storage: true",
  "      schema:",
  "        openAPIV3Schema:",
  "          description: E2ETest defines a test run against a live control plane.",
  "          type: object",
  "          required: [spec]",
  "          properties:",
  "            apiVersion:",
  "              type: string",
  "            kind:",
  "              type: string",
  "            metadata:",
  "              type: object",
  "            spec:",
  "              description: E2ETestSpec defines the manifests and expectations " ++
    "of an end-to-end test.",
  "              type: object",
  "              required: [manifests]",
  "              properties:",
  "                crossplane:",
  "                  description: Crossplane installation used for the test.",
  "                  type: object",
  "                  properties:",
  "                    version:",
  "                      type: string",
  "                    autoUpgrade:",
  "                      type: object",
  "                      properties:",
  "                        channel:",
  "                          type: string",
  "                timeoutSeconds:",
  "                  description: Maximum time the test may run.",
  "                  type: integer",
  "                  minimum: 1",
  "                skipDelete:",
  "                  description: Keep the applied resources after the test.",
  "                  type: boolean",
  "                defaultConditions:",
  "                  description: Conditions every manifest must reach.",
  "                  type: array",
  "                  items:",
  "                    type: string",
  "                manifests:",
  "                  description: Resources applied and checked by the test.",
  "                  type: array",
  "                  minItems: 1",
  "                  items:",
  "                    type: object",
  "                    x-kubernetes-preserve-unknown-fields: true",
  "                extraResources:",
  "                  description: Resources applied before the manifests.",
  "                  type: array",
  "                  items:",
  "                    type: object",
  "                    x-kubernetes-preserve-unknown-fields: true"]

def files : Except FileError FileTree :=
  FileTree.ofTexts
    [("crds/compositiontest.yaml", compositionTest), ("crds/e2etest.yaml", endToEndTest)]

open Sandbox Models

variable {m : Type → Type} [Monad m]

/-- The models of the test kinds. -/
def generate (run : Runner m) (options : Options) : m (Except GenerateError ByLanguage) :=
  match files with
  | .error cause => return .error (.file cause)
  | .ok t => do return (← sandboxed run options t []).map present

/-- Generates the models of the test kinds and registers them. -/
def update {ρ : Type} [Registry ρ] (run : Runner m) (options : Options) (registry : ρ) :
    m (ρ × Except GenerateError Unit) := do
  let (registry, result) := settle registry (← generate run options)
  return (registry, result.map fun _ => ())

end ResourceModels.TestKinds
