/-
Counting over finitely many threads.

`total f g` adds up what each thread counts for, where `g` has the states of the
threads.  When one thread goes to another state, the sum changes by what that thread
counts for before and after.
-/
import Mathlib.Algebra.BigOperators.Group.Finset.Basic
import Mathlib.Algebra.Order.BigOperators.Group.Finset
import Mathlib.Data.Fintype.Basic

universe u v

namespace Frangipani
namespace Concurrency

variable {ι : Type u} {S : Type v} [Fintype ι]

def total (f : S → Nat) (g : ι → S) : Nat := ∑ i, f (g i)

theorem total_update [DecidableEq ι] (f : S → Nat) (g : ι → S) (i : ι) (x : S) :
    total f (Function.update g i x) + f (g i) = total f g + f x := by
  have hrest : ∑ j ∈ Finset.univ.erase i, f (Function.update g i x j) =
      ∑ j ∈ Finset.univ.erase i, f (g j) := by
    refine Finset.sum_congr rfl fun j hj => ?_
    rw [Function.update_of_ne (Finset.ne_of_mem_erase hj)]
  unfold total
  rw [← Finset.add_sum_erase _ _ (Finset.mem_univ i), hrest,
    ← Finset.add_sum_erase _ (fun j => f (g j)) (Finset.mem_univ i), Function.update_self]
  omega

theorem total_eq_zero {f : S → Nat} {g : ι → S} (h : ∀ i, f (g i) = 0) : total f g = 0 :=
  Finset.sum_eq_zero fun i _ => h i

theorem total_eq_card {f : S → Nat} {g : ι → S} (h : ∀ i, f (g i) = 1) :
    total f g = Fintype.card ι :=
  (Finset.sum_congr rfl fun i _ => h i).trans (Finset.card_eq_sum_ones Finset.univ).symm

/-- A thread that counts for nothing keeps the sum below the number of threads. -/
theorem total_lt_card {f : S → Nat} {g : ι → S} (h : ∀ i, f (g i) ≤ 1) {i : ι}
    (hi : f (g i) = 0) : total f g < Fintype.card ι := by
  have hlt : total f g < ∑ _i : ι, 1 :=
    Finset.sum_lt_sum (fun j _ => h j) ⟨i, Finset.mem_univ i, by omega⟩
  rw [← Finset.card_eq_sum_ones] at hlt
  exact hlt

end Concurrency
end Frangipani
