/-
Frames in a stream.

A stream is the concatenation of frames, cut off anywhere.  After some whole frames,
what has been read next is the start of the next frame, and the whole of it once it is
as long.
-/
import Mathlib.Data.List.Infix

namespace Frangipani
namespace Data

variable {α : Type} {fs : List (List α)} {m : Nat} {f b : List α}

theorem prefix_drop_flatten (h : (fs.take m).flatten ++ b <+: fs.flatten) :
    b <+: (fs.drop m).flatten := by
  have hsplit : fs.flatten = (fs.take m).flatten ++ (fs.drop m).flatten := by
    rw [← List.flatten_append, List.take_append_drop]
  rw [hsplit] at h
  exact (List.prefix_append_right_inj _).mp h

theorem exists_next_frame (h : (fs.take m).flatten ++ b <+: fs.flatten) (hb : b ≠ []) :
    ∃ f, fs[m]? = some f := by
  have hdrop := prefix_drop_flatten h
  cases hfs : fs.drop m with
  | nil =>
    rw [hfs, List.flatten_nil] at hdrop
    exact absurd (List.prefix_nil.mp hdrop) hb
  | cons f rest => exact ⟨f, by rw [← List.head?_drop, hfs, List.head?_cons]⟩

theorem prefix_next_frame (h : (fs.take m).flatten ++ b <+: fs.flatten) (hf : fs[m]? = some f)
    (hlen : b.length ≤ f.length) : b <+: f := by
  have hdrop := prefix_drop_flatten h
  rw [List.drop_eq_getElem?_toList_append, hf] at hdrop
  exact List.prefix_of_prefix_length_le hdrop (List.prefix_append f _) hlen

end Data
end Frangipani
