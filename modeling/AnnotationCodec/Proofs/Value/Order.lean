import AnnotationCodec.Value.Order

/-! Sorting the entries of a map leaves the entries that there are. -/
namespace AnnotationCodec.Entries

variable {α : Type}

theorem insertSorted_perm (e : Value × α) (es : List (Value × α)) : (insertSorted e es).Perm (e :: es) := by
  induction es with
  | nil => exact .refl _
  | cons f es ih =>
    unfold insertSorted
    split
    · exact .refl _
    · exact (ih.cons f).trans (.swap e f es)

theorem foldl_insertSorted_perm (es acc : List (Value × α)) :
    (es.foldl (fun acc e => insertSorted e acc) acc).Perm (acc ++ es) := by
  induction es generalizing acc with
  | nil => simp
  | cons e es ih =>
    refine (ih (insertSorted e acc)).trans ?_
    exact ((insertSorted_perm e acc).append_right es).trans List.perm_middle.symm

theorem sorted_perm (es : List (Value × α)) : (sorted es).Perm es := by
  unfold sorted
  split
  · exact foldl_insertSorted_perm es []
  · exact .refl _

end AnnotationCodec.Entries
