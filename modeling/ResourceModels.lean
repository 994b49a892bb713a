import ResourceModels.Main
import ResourceModels.OpenApi.Document
import ResourceModels.Overlay
import ResourceModels.Proofs.Dict
import ResourceModels.Proofs.Go.Declarations
import ResourceModels.Proofs.Go.Forms
import ResourceModels.Proofs.Go.Numbering
import ResourceModels.Proofs.Go.Runs
import ResourceModels.Sandbox.Rules
import ResourceModels.Proofs.Go.Hoisting
import ResourceModels.Proofs.Go.TypeNames
import ResourceModels.Proofs.FileTree
import ResourceModels.Proofs.Go.Packages
import ResourceModels.Proofs.Schema.Nodes
import ResourceModels.Proofs.JsonSchema.Files
import ResourceModels.Proofs.Collect
import ResourceModels.Proofs.FileStore
import ResourceModels.Proofs.Overlay
import ResourceModels.Proofs.Collect.Staging
import ResourceModels.Proofs.Kcl.Staging
import ResourceModels.Proofs.Path.Normal
import ResourceModels.Proofs.Archive.Header
import ResourceModels.Proofs.Archive.Members
import ResourceModels.Proofs.Archive
import ResourceModels.Proofs.FileStore.Invariant
import ResourceModels.Proofs.Path.Directory
import ResourceModels.Proofs.Python.Place
import ResourceModels.Proofs.Python.Arrangement
import ResourceModels.Proofs.Python.Merging
import ResourceModels.Proofs.Python.Anchoring
import ResourceModels.Proofs.FileStore.Edits
import ResourceModels.Proofs.Models.Generators
import ResourceModels.Proofs.Sandbox
import ResourceModels.Proofs.Registry
import ResourceModels.Proofs.Models
import ResourceModels.Proofs.Docker.Session
import ResourceModels.Proofs.Docker.Container
import ResourceModels.Proofs.Extract
import ResourceModels.Proofs.Go.Uses
import ResourceModels.Proofs.Collect.Schemas
import ResourceModels.Proofs.Go.Preparation
import ResourceModels.Proofs.Go.Closed
import ResourceModels.Proofs.Go.Shared
import ResourceModels.Proofs.Go.SharedPackage
import ResourceModels.Proofs.Go.Success
import ResourceModels.Proofs.Archive.Stream
import ResourceModels.Proofs.Archive.Unpacking
import ResourceModels.Proofs.Go.SharedDocument
import ResourceModels.Proofs.Path.Climbing
import ResourceModels.Proofs.Stores
import ResourceModels.Proofs.Json
import ResourceModels.Proofs.Schema.Writing
import ResourceModels.Proofs.Schema.Reading
import ResourceModels.Proofs.Schema.Kept
import ResourceModels.Proofs.Schema.RoundTrip
import ResourceModels.Proofs.Go.ExportedNames
import ResourceModels.Proofs.Go.ValidNames
import ResourceModels.Proofs.Collect.Distribution
import ResourceModels.Proofs.Distribution
import ResourceModels.Proofs.Go.Distribution
import ResourceModels.Proofs.Python.Distribution
import ResourceModels.Proofs.TestCase
import ResourceModels.Proofs.Suite
import ResourceModels.Proofs.Go.KindFiles
import ResourceModels.Proofs.OpenApi
import ResourceModels.Proofs.Python.Renaming
import ResourceModels.Proofs.Decode
import ResourceModels.Proofs.Decode.Written
import ResourceModels.Proofs.Schema.Orderly
import ResourceModels.Proofs.Schema.Rereading
import ResourceModels.Proofs.Definition.Rereading
import ResourceModels.Proofs.Definition.Reading
import ResourceModels.Proofs.Collect.Rereading
import ResourceModels.Proofs.Kcl.ImportedOnly
import ResourceModels.Proofs.Models.Confined
import ResourceModels.Proofs.TestCase.Reading
import ResourceModels.Proofs.Kcl.Place
import ResourceModels.Proofs.Kcl.LaidOut
import ResourceModels.Proofs.Extract.Roots
import ResourceModels.Proofs.Python.Repetition
import ResourceModels.Proofs.Archive.Followed
import ResourceModels.Proofs.Derive.Additions
import ResourceModels.Proofs.JsonSchema.Conversion
import ResourceModels.Proofs.Go.Failure
import ResourceModels.Proofs.Go.Fields
import ResourceModels.Proofs.OpenApi.Renaming
import ResourceModels.Proofs.FileStore.Copying
import ResourceModels.Proofs.Glob
import ResourceModels.Proofs.Suite.Discovery
import ResourceModels.Proofs.Text.Lower
import ResourceModels.Proofs.Python.DocumentNames
import ResourceModels.Proofs.ApiVersion
import ResourceModels.Proofs.Docker.Sweep
import ResourceModels.Proofs.Scaffold
import ResourceModels.Proofs.Schema.References
