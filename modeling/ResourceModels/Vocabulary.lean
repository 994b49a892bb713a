import ResourceModels.Schema

/-!
The schemas of the metadata that every resource carries. They are shared by all documents under the
names of one group and version.
-/

namespace ResourceModels.Vocabulary

/-- What the name of every shared schema contains. -/
def start : String := "io.k8s.apimachinery.pkg.apis.meta.v1"

def nameOf (type : String) : String := start ++ "." ++ type

/-- Whether a component is one of the shared schemas. -/
def isShared (name : String) : Bool := Text.contains start name

def string (description : String) : Schema := (Schema.typed "string").withDescription description

def int64 (description : String) : Schema :=
  ((Schema.typed "integer").withFormat "int64").withDescription description

def boolean (description : String) : Schema := (Schema.typed "boolean").withDescription description

def stringMap (description : String) : Schema :=
  ((Schema.typed "object").withAdditional (Schema.typed "string")).withDescription description

def stringList (description : String) : Schema :=
  ((Schema.typed "array").withItems (Schema.typed "string")).withDescription description

def time (description : String) : Schema :=
  (Schema.allOfRef (nameOf "Time")).withDescription description

def listOf (type description : String) : Schema :=
  ((Schema.typed "array").withItems (Schema.ref (nameOf type))).withDescription description

def object (description : String) (properties : List (String × Schema)) : Schema :=
  { (Schema.typed "object").withDescription description with properties := Dict.ofList properties }

def objectMeta : Schema :=
  object "ObjectMeta is metadata that all persisted resources must have."
    [("annotations", stringMap "Unstructured key value map stored with a resource."),
      ("creationTimestamp", time "Timestamp of when this object was created."),
      ("deletionGracePeriodSeconds", int64 "Seconds allowed for graceful termination."),
      ("deletionTimestamp", time "Timestamp at which this resource will be deleted."),
      ("finalizers",
        stringList "Must be empty before the object is deleted from the registry."),
      ("generateName", string "Optional prefix used to generate a unique name."),
      ("generation",
        int64 "A sequence number representing a specific generation of the desired state."),
      ("labels",
        stringMap "Map of string keys and values used to organize and categorize objects."),
      ("managedFields",
        listOf "ManagedFieldsEntry"
          "Maps workflow-id and version to the set of fields managed by that workflow."),
      ("name", string "Name must be unique within a namespace."),
      ("namespace", string "Namespace defines the space within which each name must be unique."),
      ("ownerReferences", listOf "OwnerReference" "List of objects depended by this object."),
      ("resourceVersion",
        string "Opaque value that represents the internal version of this object."),
      ("uid", string "Unique in time and space value for this object.")]

def managedFieldsEntry : Schema :=
  object
    ("ManagedFieldsEntry is a workflow-id, a FieldSet and the group version of the resource " ++
      "that the fieldset applies to.")
    [("apiVersion", string "Version of the resource that this field set applies to."),
      ("fieldsType", string "Discriminator for the different fields format and version."),
      ("fieldsV1",
        (Schema.allOfRef (nameOf "FieldsV1")).withDescription "The first JSON version format."),
      ("manager", string "Identifier of the workflow managing these fields."),
      ("operation", string "Type of operation which lead to this entry being created."),
      ("subresource", string "Name of the subresource used to update that object."),
      ("time", time "Timestamp of when the managed field set entry was last changed.")]

def ownerReference : Schema :=
  (object "OwnerReference contains enough information to let you identify an owning object."
    [("apiVersion", string "API version of the referent."),
      ("blockOwnerDeletion",
        boolean "Block deletion of the owner until this reference is removed."),
      ("controller",
        boolean "If true, this reference points to the managing controller."),
      ("kind", string "Kind of the referent."),
      ("name", string "Name of the referent."),
      ("uid", string "UID of the referent.")]).withRequired ["apiVersion", "kind", "name", "uid"]

def listMeta : Schema :=
  object "ListMeta describes metadata that synthetic resources must have."
    [("continue",
        string "Set if the user should set a limit on the number of items returned."),
      ("remainingItemCount", int64 "Number of subsequent items in the list."),
      ("resourceVersion",
        string "Identifies the server's internal version of this object.")]

def timeSchema : Schema :=
  ((Schema.typed "string").withFormat "date-time").withDescription
    "Time is a wrapper around time.Time which supports correct marshaling to YAML and JSON."

def fieldsV1 : Schema :=
  (Schema.typed "object").withDescription
    "FieldsV1 stores a set of fields in a data structure like a Trie, in JSON format."

def schemas : Dict Schema :=
  Dict.ofList
    [(nameOf "ObjectMeta", objectMeta), (nameOf "ListMeta", listMeta),
      (nameOf "ManagedFieldsEntry", managedFieldsEntry),
      (nameOf "OwnerReference", ownerReference), (nameOf "Time", timeSchema),
      (nameOf "FieldsV1", fieldsV1)]

end ResourceModels.Vocabulary
