import AnnotationCodec.Failure

/-!
The tokens of a document. Where the text holds no further token, the last one tells why.
-/

namespace AnnotationCodec.Yaml

/-- A line about the document as a whole. -/
inductive Directive
  | version (major : Nat)
  | tag (handle : Text) (start : Text)
  | other
  deriving DecidableEq, Repr

/-- A tag as it is written: a handle that stands for the start of the tag, and its end. -/
structure TagName where
  handle : Option Text
  suffix : Text
  deriving DecidableEq, Repr

inductive Token
  | directive (d : Directive)
  | documentStart
  | documentEnd
  | streamEnd
  | blockSequenceStart
  | blockMappingStart
  | blockEnd
  | flowSequenceStart
  | flowSequenceEnd
  | flowMappingStart
  | flowMappingEnd
  | flowEntry
  | blockEntry
  | key
  | value
  | alias (name : Text)
  | anchor (name : Text)
  | tag (name : TagName)
  | scalar (content : Text) (isPlain : Bool)
  | invalid (failure : Failure)

end AnnotationCodec.Yaml
