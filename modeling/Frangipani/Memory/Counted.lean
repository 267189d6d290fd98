/-
Objects that count the references to them.

An object is live until it is freed.  The counts are balanced when every live object
counts exactly the references to it and no reference leads to an object that is not
live.  Taking and dropping a reference keeps the balance when the count goes along,
and so does freeing an object that counts nothing.
-/
import Mathlib.Data.Int.Init
import Mathlib.Logic.Basic

universe u

namespace Frangipani
namespace Memory

variable {ι : Type u}

structure Balanced (live : ι → Prop) (count : ι → Int) (refs : ι → Nat) : Prop where
  counted : ∀ i, live i → count i = refs i
  dangling : ∀ i, 0 < refs i → live i

namespace Balanced

variable {live live' : ι → Prop} {count count' : ι → Int} {refs refs' : ι → Nat} {i : ι}

/-- An object that is not live has no references. -/
theorem refs_eq_zero (h : Balanced live count refs) (hi : ¬ live i) : refs i = 0 :=
  Nat.eq_zero_of_not_pos fun hpos => hi (h.dangling i hpos)

theorem count_nonneg (h : Balanced live count refs) (hi : live i) : 0 ≤ count i := by
  rw [h.counted i hi]
  exact Int.natCast_nonneg _

theorem at_one (h : Balanced live count refs) (hlive : ∀ j, j ≠ i → (live' j ↔ live j))
    (hcount : ∀ j, j ≠ i → count' j = count j) (hrefs : ∀ j, j ≠ i → refs' j = refs j)
    (hcounted : live' i → count' i = refs' i) (hdangling : 0 < refs' i → live' i) :
    Balanced live' count' refs' := by
  constructor
  · intro j hj
    by_cases hji : j = i
    · rw [hji] at hj ⊢
      exact hcounted hj
    · rw [hcount j hji, hrefs j hji]
      exact h.counted j ((hlive j hji).mp hj)
  · intro j hj
    by_cases hji : j = i
    · rw [hji] at hj ⊢
      exact hdangling hj
    · rw [hrefs j hji] at hj
      exact (hlive j hji).mpr (h.dangling j hj)

theorem take (h : Balanced live count refs) (hi : live i)
    (hcount : ∀ j, j ≠ i → count' j = count j) (hcount' : count' i = count i + 1)
    (hrefs : ∀ j, j ≠ i → refs' j = refs j) (hrefs' : refs' i = refs i + 1) :
    Balanced live count' refs' := by
  refine h.at_one (fun _ _ => Iff.rfl) hcount hrefs (fun _ => ?_) fun _ => hi
  have := h.counted i hi
  omega

theorem drop (h : Balanced live count refs)
    (hcount : ∀ j, j ≠ i → count' j = count j) (hcount' : count' i = count i - 1)
    (hrefs : ∀ j, j ≠ i → refs' j = refs j) (hrefs' : refs i = refs' i + 1) :
    Balanced live count' refs' := by
  have hi : live i := h.dangling i (by omega)
  refine h.at_one (fun _ _ => Iff.rfl) hcount hrefs (fun _ => ?_) fun _ => hi
  have := h.counted i hi
  omega

theorem free (h : Balanced live count refs) (hi : live i) (hzero : count i = 0)
    (hlive : ∀ j, j ≠ i → (live' j ↔ live j)) (hlive' : ¬ live' i)
    (hcount : ∀ j, j ≠ i → count' j = count j) : Balanced live' count' refs := by
  refine h.at_one hlive hcount (fun _ _ => rfl) (fun hl => absurd hl hlive') fun hpos => ?_
  have := h.counted i hi
  omega

theorem new (h : Balanced live count refs) (hi : ¬ live i)
    (hlive : ∀ j, j ≠ i → (live' j ↔ live j)) (hlive' : live' i)
    (hcount : ∀ j, j ≠ i → count' j = count j) (hcount' : count' i = 1)
    (hrefs : ∀ j, j ≠ i → refs' j = refs j) (hrefs' : refs' i = refs i + 1) :
    Balanced live' count' refs' := by
  refine h.at_one hlive hcount hrefs (fun _ => ?_) fun _ => hlive'
  have := h.refs_eq_zero hi
  omega

end Balanced
end Memory
end Frangipani
