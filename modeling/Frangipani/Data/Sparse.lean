/-
Sparse arrays.

A sparse array has a length and a value at every position, zero from its end on.  A write
sets the values at its positions and may pass the end, and what lies between the old end
and the write is zero.  A truncation sets everything from the new end on to zero, also when
the array grows later.

A list of values is an array (`ofList`), and the array of a list that is resized, written
over or read is the array after the operation.
-/
import Mathlib.Data.List.GetD

namespace Frangipani

@[ext] structure Sparse (β : Type) [Zero β] where
  length : Nat
  value : Nat → β
  beyond : ∀ i, length ≤ i → value i = 0

namespace Sparse

variable {β : Type} [Zero β]

def ofList (l : List β) : Sparse β where
  length := l.length
  value i := l.getD i 0
  beyond _ h := List.getD_eq_default _ _ h

/-- Put `data` at `off` and at the positions behind it. -/
def write (a : Sparse β) (off : Nat) (data : List β) : Sparse β where
  length := max a.length (off + data.length)
  value i := if off ≤ i ∧ i < off + data.length then data.getD (i - off) 0 else a.value i
  beyond i h := by
    rw [if_neg (by omega)]
    exact a.beyond i (by omega)

/-- Cut the array off at `n`, or let it grow to `n`. -/
def truncate (a : Sparse β) (n : Nat) : Sparse β where
  length := n
  value i := if i < n then a.value i else 0
  beyond _ h := if_neg (Nat.not_lt.mpr h)

/-- The values at `off` and behind it, at most `size` and none beyond the end. -/
def read (a : Sparse β) (off size : Nat) : List β :=
  (List.range' off (min (off + size) a.length - off)).map a.value

theorem truncate_write (a : Sparse β) {off : Nat} {data : List β}
    (h : a.length ≤ off + data.length) :
    (a.truncate (off + data.length)).write off data = a.write off data := by
  ext i
  · show max (off + data.length) (off + data.length) = max a.length (off + data.length)
    omega
  · show (if _ then _ else if i < off + data.length then a.value i else 0) =
      if off ≤ i ∧ i < off + data.length then _ else a.value i
    split
    · rfl
    · split
      · rfl
      · rw [a.beyond i (by omega)]

/-! ## Arrays of lists -/

theorem getD_take (l : List β) (n i : Nat) :
    (l.take n).getD i 0 = if i < n then l.getD i 0 else 0 := by
  rw [List.getD_eq_getElem?_getD, List.getElem?_take, List.getD_eq_getElem?_getD]
  split <;> rfl

theorem ofList_resize (l : List β) (n : Nat) :
    ofList (l.take n ++ List.replicate (n - l.length) 0) = (ofList l).truncate n := by
  have hlength : (l.take n).length = min n l.length := List.length_take
  ext i
  · show (l.take n ++ List.replicate (n - l.length) 0).length = n
    rw [List.length_append, List.length_replicate]
    omega
  · show (l.take n ++ List.replicate (n - l.length) 0).getD i 0 = if i < n then l.getD i 0 else 0
    rw [← getD_take]
    by_cases hi : i < (l.take n).length
    · exact List.getD_append _ _ _ _ hi
    · -- What was filled in is what an array has beyond its end.
      rw [List.getD_append_right _ _ _ _ (Nat.not_lt.mp hi),
        List.getD_eq_default (l.take n) 0 (Nat.not_lt.mp hi)]
      rw [List.getD_eq_getElem?_getD]
      exact List.getElem?_getD_replicate_default_eq ..

theorem ofList_write (l data : List β) {off : Nat} (h : off + data.length ≤ l.length) :
    ofList (l.take off ++ data ++ l.drop (off + data.length)) = (ofList l).write off data := by
  have hlength : (l.take off).length = off := List.length_take_of_le (by omega)
  ext i
  · show (l.take off ++ data ++ l.drop (off + data.length)).length =
      max l.length (off + data.length)
    rw [List.length_append, List.length_append, List.length_drop]
    omega
  · show (l.take off ++ data ++ l.drop (off + data.length)).getD i 0 =
      if off ≤ i ∧ i < off + data.length then data.getD (i - off) 0 else l.getD i 0
    rcases Nat.lt_or_ge i off with hbefore | hfrom
    · rw [if_neg (by omega), List.append_assoc, List.getD_append _ _ _ _ (by omega), getD_take,
        if_pos hbefore]
    rcases Nat.lt_or_ge i (off + data.length) with hinside | hbehind
    · rw [if_pos ⟨hfrom, hinside⟩, List.append_assoc, List.getD_append_right _ _ _ _ (by omega),
        List.getD_append _ _ _ _ (by omega), hlength]
    · rw [if_neg (by omega), List.getD_append_right _ _ _ _ (by rw [List.length_append]; omega),
        List.getD_eq_getElem?_getD, List.getElem?_drop, List.getD_eq_getElem?_getD,
        List.length_append, hlength]
      congr 2
      omega

theorem read_ofList (l : List β) (off size : Nat) :
    (ofList l).read off size = (l.drop off).take size := by
  have hlength : ((ofList l).read off size).length = ((l.drop off).take size).length := by
    rw [read, List.length_map, List.length_range', List.length_take, List.length_drop]
    show min (off + size) l.length - off = _
    omega
  refine List.ext_getElem hlength fun i hi hi' => ?_
  rw [List.length_take, List.length_drop] at hi'
  simp only [read, List.getElem_map, List.getElem_range', List.getElem_take, List.getElem_drop]
  show l.getD (off + 1 * i) 0 = _
  rw [Nat.one_mul, List.getD_eq_getElem _ _ (by omega)]

end Sparse
end Frangipani
