import AnnotationCodec.Text.Basic

/-!
The classes of characters that documents are made of.
-/

namespace AnnotationCodec

namespace CodePoint

variable (c : CodePoint)

/-- What ends a line. -/
def isLineBreak : Bool :=
  c.val = 0x0A || c.val = 0x0D || c.val = 0x85 || c.val = 0x2028 || c.val = 0x2029

/-- What may stand between words, or ends a line. -/
def isGap : Bool :=
  c.val = 0x20 || c.val = 0x09 || c.isLineBreak

/-- What names of anchors, handles and directives consist of. -/
def isWordChar : Bool :=
  c.isDigit || c.isAsciiLetter || c = '-' || c = '_'

/-- What a document may hold. -/
def isDocumentChar : Bool :=
  c.val = 0x09 || c.val = 0x0A || c.val = 0x0D || (0x20 ≤ c.val && c.val ≤ 0x7E) || c.val = 0x85 ||
    (0xA0 ≤ c.val && c.val ≤ 0xD7FF) || (0xE000 ≤ c.val && c.val ≤ 0xFFFD) || 0x10000 ≤ c.val

/-- Whether `c` is one of the characters of a literal. -/
def isIn (s : String) : Bool :=
  List.contains (text s) c

end CodePoint

namespace Text

/-- Whether a text is empty or starts with a gap. -/
def startsWithGap : Text → Bool
  | [] => true
  | c :: _ => c.isGap

end Text

end AnnotationCodec
