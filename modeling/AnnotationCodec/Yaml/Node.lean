import AnnotationCodec.Yaml.Tag

/-!
The nodes of a document. An alias stands for the node it names, so that a node may occur at several places;
the numbers of mappings tell which occurrences are the same one.
-/

namespace AnnotationCodec.Yaml

inductive Node
  | scalar (tag : Tag) (content : Text)
  | sequence (tag : Tag) (items : List Node)
  | mapping (number : Nat) (tag : Tag) (entries : List (Node × Node))
  /-- An alias of a node that it is inside of. -/
  | loop

namespace Node

/-- What stands where a node is left out. -/
def empty : Node :=
  .scalar .null []

def tag? : Node → Option Tag
  | .scalar t _ => some t
  | .sequence t _ => some t
  | .mapping _ t _ => some t
  | .loop => none

def setTag (t : Tag) : Node → Node
  | .scalar _ c => .scalar t c
  | .sequence _ xs => .sequence t xs
  | .mapping n _ es => .mapping n t es
  | .loop => .loop

/-- The number of nodes on the longest way into a node. -/
def depth : Node → Nat
  | .scalar _ _ => 1
  | .sequence _ xs => ofItems xs + 1
  | .mapping _ _ es => ofEntries es + 1
  | .loop => 1
where
  ofItems : List Node → Nat
    | [] => 0
    | x :: xs => max x.depth (ofItems xs)
  ofEntries : List (Node × Node) → Nat
    | [] => 0
    | (k, v) :: es => max (max k.depth v.depth) (ofEntries es)

end Node

end AnnotationCodec.Yaml
