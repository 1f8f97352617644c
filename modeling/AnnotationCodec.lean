import AnnotationCodec.Text.Basic
import AnnotationCodec.Text.Blank
import AnnotationCodec.Text.Printable
import AnnotationCodec.Text.DecimalDigit
import AnnotationCodec.Text.Lowercase
import AnnotationCodec.Number.Integer
import AnnotationCodec.Number.Binary64
import AnnotationCodec.Calendar
import AnnotationCodec.Base64
import AnnotationCodec.Descriptor
import AnnotationCodec.Value.Basic
import AnnotationCodec.Value.Order
import AnnotationCodec.Value.Display
import AnnotationCodec.Json.Error
import AnnotationCodec.Json.Reader
import AnnotationCodec.Json.Writer
import AnnotationCodec.Failure
import AnnotationCodec.Annotation.Content
import AnnotationCodec.Annotation.Codec
import AnnotationCodec.Annotation.Schema
import AnnotationCodec.Annotation.Store
import AnnotationCodec.Value.Place
import AnnotationCodec.Manifest.Basic
import AnnotationCodec.Manifest.Target
import AnnotationCodec.Yaml.Character
import AnnotationCodec.Yaml.Timestamp
import AnnotationCodec.Yaml.Tag
import AnnotationCodec.Yaml.Style
import AnnotationCodec.Yaml.Tree
import AnnotationCodec.Yaml.Printer
import AnnotationCodec.Text.Utf8
import AnnotationCodec.Yaml.Cursor
import AnnotationCodec.Yaml.Token
import AnnotationCodec.Yaml.Quoted
import AnnotationCodec.Yaml.Plain
import AnnotationCodec.Yaml.Block
import AnnotationCodec.Yaml.TagName
import AnnotationCodec.Yaml.Lexer
import AnnotationCodec.Yaml.Node
import AnnotationCodec.Yaml.NodeReader
import AnnotationCodec.Yaml.Scalar
import AnnotationCodec.Yaml.Document
import AnnotationCodec.Manifest.Stream
import AnnotationCodec.Environment
import AnnotationCodec.Run
import AnnotationCodec.Log.Basic
import AnnotationCodec.Log.Call
import AnnotationCodec.Config
import AnnotationCodec.Text.Similarity
import AnnotationCodec.CommandLine.Form
import AnnotationCodec.CommandLine.Arguments
import AnnotationCodec.Text.Terminal
import AnnotationCodec.CommandLine.Request
import AnnotationCodec.CommandLine.Manifests
import AnnotationCodec.CommandLine.Program
import AnnotationCodec.Main
import AnnotationCodec.Proofs.Except
import AnnotationCodec.Proofs.Json.Grammar
import AnnotationCodec.Proofs.Json.Literal
import AnnotationCodec.Proofs.Json.Numeral
import AnnotationCodec.Proofs.Json.Shape
import AnnotationCodec.Proofs.Json.Writer
import AnnotationCodec.Proofs.Annotation.Codec
import AnnotationCodec.Proofs.Annotation.Key
import AnnotationCodec.Proofs.Annotation.Store
import AnnotationCodec.Proofs.Annotation.Writes
import AnnotationCodec.Proofs.Manifest.Resource
import AnnotationCodec.Proofs.Manifest.Targets
import AnnotationCodec.Proofs.Manifest.Propagation
import AnnotationCodec.Proofs.Annotation.Isolation
import AnnotationCodec.Proofs.Run
import AnnotationCodec.Proofs.Log.Message
import AnnotationCodec.Proofs.CommandLine.Loops
import AnnotationCodec.Proofs.Config.History
import AnnotationCodec.Proofs.Annotation.Failure
import AnnotationCodec.Proofs.Value.Growth
import AnnotationCodec.Proofs.Value.Frame
import AnnotationCodec.Proofs.Manifest.Slot
import AnnotationCodec.Proofs.Manifest.Sharing
import AnnotationCodec.Proofs.Manifest.Frame
import AnnotationCodec.Proofs.Manifest.Cut
import AnnotationCodec.Proofs.Manifest.CleanCut
import AnnotationCodec.Proofs.Output
import AnnotationCodec.Proofs.Value.Order
import AnnotationCodec.Proofs.Yaml.Tree
import AnnotationCodec.Proofs.CommandLine.Options
import AnnotationCodec.Proofs.CommandLine.Printing
import AnnotationCodec.Proofs.Annotation.Record
import AnnotationCodec.Proofs.Manifest.Reloaded
import AnnotationCodec.Proofs.Annotation.Reading
import AnnotationCodec.Proofs.Json.Truncation
import AnnotationCodec.Proofs.Annotation.Partial
import AnnotationCodec.Proofs.Annotation.Truncation
import AnnotationCodec.Proofs.Log.Calls
import AnnotationCodec.Proofs.Manifest.Reading
import AnnotationCodec.Proofs.Annotation.Encoding
import AnnotationCodec.Proofs.Json.Nesting
import AnnotationCodec.Proofs.Annotation.Decoding
import AnnotationCodec.Proofs.CommandLine.Malformed
import AnnotationCodec.Proofs.Manifest.Opening
import AnnotationCodec.Proofs.Manifest.Accessors
import AnnotationCodec.Proofs.Manifest.Refusal
import AnnotationCodec.Proofs.Config.Domain
import AnnotationCodec.Proofs.CommandLine.Safety
import AnnotationCodec.Proofs.Value.Sorted
import AnnotationCodec.Proofs.Yaml.Unordered
import AnnotationCodec.Proofs.Manifest.Alias
import AnnotationCodec.Proofs.Manifest.AnyOrder
