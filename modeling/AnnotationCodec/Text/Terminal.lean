import AnnotationCodec.Text.Basic

/-!
Control sequences, by which a text sets the colors of a terminal or moves its cursor: an escape, a bracket,
parameters and a letter.
-/

namespace AnnotationCodec.Text

/-- Whether a started control sequence goes on with `c`; `held` is what there is of it, last code point first. -/
def isControlPart (held : Text) (c : CodePoint) : Bool :=
  match held with
  | [] => c.val = 0x1B
  | [_] => c = '['
  | _ => c.isDigit || c = ';' || c = '?'

/-- Leaves out the control sequences of a text that follows `held`. -/
def dropControlsAfter : (held : Text) → Text → Text
  | held, [] => held.reverse
  | held, c :: r =>
    if isControlPart held c then dropControlsAfter (c :: held) r
    else if 2 ≤ held.length && c.isAsciiLetter then dropControlsAfter [] r
    else if isControlPart [] c then held.reverse ++ dropControlsAfter [c] r
    else held.reverse ++ c :: dropControlsAfter [] r

/-- The text without its control sequences. -/
def dropControls (t : Text) : Text :=
  dropControlsAfter [] t

end AnnotationCodec.Text
