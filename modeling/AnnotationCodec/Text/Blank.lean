import AnnotationCodec.Text.Basic

/-!
White space, as the Unicode properties define it: the separators and the line and segment
controls.
-/

namespace AnnotationCodec

namespace CodePoint

/-- The ranges of white space. -/
def blankRanges : List (Nat × Nat) :=
  [(0x9, 0xd), (0x1c, 0x20), (0x85, 0x85), (0xa0, 0xa0), (0x1680, 0x1680), (0x2000, 0x200a),
   (0x2028, 0x2029), (0x202f, 0x202f), (0x205f, 0x205f), (0x3000, 0x3000)]

def isBlank (c : CodePoint) : Bool :=
  inRanges blankRanges c

end CodePoint

/-- Removes white space from both ends. -/
def Text.strip (t : Text) : Text :=
  Text.trim t CodePoint.isBlank

end AnnotationCodec
