import AnnotationCodec.Text.Basic

/-!
How alike two texts are: the share of their code points that lie in common runs. The longest common run counts,
and then what the texts have in common before it and behind it.
-/

namespace AnnotationCodec.Text

/-- A run of code points that lies in two texts, by where it starts in each of them. -/
structure CommonRun where
  left : Nat
  right : Nat
  size : Nat
  deriving DecidableEq, Repr

/-- How many code points two texts start with in common. -/
def commonStart : Text → Text → Nat
  | a :: x, b :: y => if a = b then commonStart x y + 1 else 0
  | _, _ => 0

/-- The longer of two runs, the first one if they are equally long. -/
def CommonRun.longer (r s : CommonRun) : CommonRun :=
  if r.size < s.size then s else r

/-- The longest run that starts at the start of `x` and somewhere in a text that starts at `j`. -/
def runFrom (i : Nat) (x : Text) (j : Nat) : Text → CommonRun
  | [] => ⟨i, j, 0⟩
  | b :: y => CommonRun.longer ⟨i, j, commonStart x (b :: y)⟩ (runFrom i x (j + 1) y)

/-- The longest run of a text that starts at `i` and of `y`. Of several, the one that starts first in the first
text counts, and of these the one that starts first in `y`. -/
def longestRun (i : Nat) (y : Text) : Text → CommonRun
  | [] => ⟨i, 0, 0⟩
  | a :: x => CommonRun.longer (runFrom i (a :: x) 0 y) (longestRun (i + 1) y x)

/-- How many code points lie in common runs, where the first text has at most `fuel` of them. -/
def commonCountWith : (fuel : Nat) → Text → Text → Nat
  | 0, _, _ => 0
  | fuel + 1, x, y =>
    let r := longestRun 0 y x
    if r.size = 0 then 0
    else
      commonCountWith fuel (x.take r.left) (y.take r.right) + r.size +
        commonCountWith fuel (x.drop (r.left + r.size)) (y.drop (r.right + r.size))

/-- How many code points of two texts lie in common runs. -/
def commonCount (x y : Text) : Nat :=
  commonCountWith x.length x y

/-- How many common code points make two texts alike: six of ten. -/
def areEnough (common : Nat) (x y : Text) : Bool :=
  3 * (x.length + y.length) ≤ 10 * common

/-- Whether two texts are alike. No text has more in common with another than its own length. -/
def isLike (x y : Text) : Bool :=
  areEnough (min x.length y.length) x y && areEnough (commonCount x y) x y

/-- Whether `a` is at least as good a guess for `word` as `b`: more of it is common, or it comes last. -/
def isBetterGuess (word a b : Text) : Bool :=
  let p := commonCount a word * (b.length + word.length)
  let q := commonCount b word * (a.length + word.length)
  q < p || (p = q && !less a b)

/-- The three best guesses for a word among candidates that are like it, in the order of texts. -/
def guesses (word : Text) (candidates : List Text) : List Text :=
  let best := (candidates.filter (isLike · word)).mergeSort (isBetterGuess word)
  (best.take 3).mergeSort fun a b => !less b a

end AnnotationCodec.Text
