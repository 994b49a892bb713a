import ResourceModels.Text.Blank

/-!
Templates of new tests. A template may hold two placeholders: one for the name of the test directory
and one for the imports of the registered models.
-/

namespace ResourceModels.Scaffold

def kclPackage : String := Text.ofLines [
  "[package]",
  "name = \"\x7b\x7bname\x7d\x7d\"",
  "version = \"0.0.1\"",
  "",
  "[dependencies]",
  "models = \x7b path = \"./model\" \x7d"]

def kclComposition : String := Text.ofLines [
  "\x7b\x7bimports\x7d\x7d",
  "_items = [",
  "    metav1alpha1.CompositionTest\x7b",
  "        metadata.name = \"\x7b\x7bname\x7d\x7d\"",
  "        spec = \x7b",
  "            assert = []",
  "            compositionPath = \"\"",
  "            xrPath = \"\"",
  "            xrdPath = \"\"",
  "            timeoutSeconds = 120",
  "            validate = False",
  "        \x7d",
  "    \x7d",
  "]",
  "items = _items"]

def kclEndToEnd : String := Text.ofLines [
  "\x7b\x7bimports\x7d\x7d",
  "_items = [",
  "    metav1alpha1.E2ETest\x7b",
  "        metadata.name = \"\x7b\x7bname\x7d\x7d\"",
  "        spec = \x7b",
  "            crossplane.autoUpgrade.channel = \"Rapid\"",
  "            defaultConditions = [\"Ready\"]",
  "            manifests = []",
  "            extraResources = []",
  "            skipDelete = False",
  "            timeoutSeconds = 4500",
  "        \x7d",
  "    \x7d",
  "]",
  "items = _items"]

def pythonComposition : String := Text.ofLines [
  "from .model.io.crossgen.dev.meta.compositiontest import v1alpha1 as compositiontest",
  "from .model.io.k8s.apimachinery.pkg.apis.meta import v1 as k8s",
  "",
  "test = compositiontest.CompositionTest(",
  "    metadata=k8s.ObjectMeta(",
  "        name=\"\x7b\x7bname\x7d\x7d\",",
  "    ),",
  "    spec=compositiontest.Spec(",
  "        assert=[],",
  "        compositionPath=\"\",",
  "        xrPath=\"\",",
  "        xrdPath=\"\",",
  "        timeoutSeconds=120,",
  "        validate=False,",
  "    ),",
  ")"]

def pythonEndToEnd : String := Text.ofLines [
  "from .model.io.crossgen.dev.meta.e2etest import v1alpha1 as e2etest",
  "from .model.io.k8s.apimachinery.pkg.apis.meta import v1 as k8s",
  "",
  "test = e2etest.E2ETest(",
  "    metadata=k8s.ObjectMeta(",
  "        name=\"\x7b\x7bname\x7d\x7d\",",
  "    ),",
  "    spec=e2etest.Spec(",
  "        crossplane=e2etest.Crossplane(",
  "            autoUpgrade=e2etest.AutoUpgrade(",
  "                channel=\"Rapid\",",
  "            ),",
  "        ),",
  "        defaultConditions=[",
  "            \"Ready\",",
  "        ],",
  "        manifests=[],",
  "        extraResources=[],",
  "        skipDelete=False,",
  "        timeoutSeconds=4500,",
  "    ),",
  ")"]

def pythonRequirements : String := Text.ofLines [
  "pydantic>=2.0"]

abbrev Templates := String → Option String

/-- The templates that are always there. -/
def builtin : Templates
  | "kcl/kcl.mod" => some kclPackage
  | "kcl/compositiontest.k" => some kclComposition
  | "kcl/e2e.k" => some kclEndToEnd
  | "python/compositiontest.py" => some pythonComposition
  | "python/e2e.py" => some pythonEndToEnd
  | "python/requirements.txt" => some pythonRequirements
  | _ => none

end ResourceModels.Scaffold
