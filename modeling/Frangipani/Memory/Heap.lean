/-
A heap of blocks that are allocated and freed.

`live` says which addresses are allocated.  A block that has been freed keeps its
content until its address is allocated and written again, so a read through a
dangling pointer sees what is there now, which may be somebody else's.  Allocation
may take any address that is not live.
-/
import Mathlib.Logic.Function.Basic

universe u

namespace Frangipani
namespace Memory

structure Heap (ν : Type u) where
  live : Nat → Bool
  content : Nat → ν

namespace Heap

variable {ν : Type u}

def alloc (h : Heap ν) (a : Nat) : Heap ν := { h with live := Function.update h.live a true }

def write (h : Heap ν) (a : Nat) (v : ν) : Heap ν :=
  { h with content := Function.update h.content a v }

def free (h : Heap ν) (a : Nat) : Heap ν := { h with live := Function.update h.live a false }

def freeAll (h : Heap ν) (as : List Nat) : Heap ν := as.foldl free h

theorem alloc_live_self (h : Heap ν) (a : Nat) : (h.alloc a).live a = true := by
  simp [alloc]

theorem alloc_live_of_live {h : Heap ν} {a b : Nat} (hb : h.live b = true) :
    (h.alloc a).live b = true := by
  by_cases hab : b = a
  · simp [alloc, hab]
  · simp [alloc, hab, hb]

theorem write_content_self (h : Heap ν) (a : Nat) (v : ν) : (h.write a v).content a = v := by
  simp [write]

theorem write_content_ne (h : Heap ν) {a b : Nat} (v : ν) (hab : b ≠ a) :
    (h.write a v).content b = h.content b := by
  simp [write, hab]

@[simp] theorem freeAll_content (h : Heap ν) (as : List Nat) :
    (h.freeAll as).content = h.content := by
  induction as generalizing h with
  | nil => rfl
  | cons a as ih => exact ih (h.free a)

/-- What is not freed stays. -/
theorem freeAll_live {h : Heap ν} {as : List Nat} {b : Nat} (hb : h.live b = true)
    (hnot : b ∉ as) : (h.freeAll as).live b = true := by
  induction as generalizing h with
  | nil => exact hb
  | cons a as ih =>
    obtain ⟨hne, hrest⟩ := not_or.mp (mt List.mem_cons.mpr hnot)
    refine ih ?_ hrest
    simp [free, hne, hb]

theorem freeAll_not_live {h : Heap ν} {as : List Nat} {b : Nat} (hb : h.live b = false) :
    (h.freeAll as).live b = false := by
  induction as generalizing h with
  | nil => exact hb
  | cons a as ih =>
    refine ih ?_
    by_cases hab : b = a
    · simp [free, hab]
    · simp [free, hab, hb]

end Heap
end Memory
end Frangipani
