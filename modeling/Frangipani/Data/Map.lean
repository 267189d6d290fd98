/-
Maps with the operations of an ordered associative container.

A map is its lookup function.  Nothing modelled over it iterates the container,
so two maps with the same entries are equal.  `find`, `insert` and `erase` are
the container's, and `index` is the subscript operator, which inserts a default
entry when the key is missing.
-/
import Mathlib.Logic.Basic

universe u v

namespace Frangipani

def Map (κ : Type u) (ν : Type v) := κ → Option ν

namespace Map

variable {κ : Type u} {ν : Type v}

def empty : Map κ ν := fun _ => none

def find (m : Map κ ν) (k : κ) : Option ν := m k

@[ext] theorem ext {m m' : Map κ ν} (h : ∀ k, m.find k = m'.find k) : m = m' := funext h

@[simp] theorem find_empty (k : κ) : (empty : Map κ ν).find k = none := rfl

def map (f : ν → ν) (m : Map κ ν) : Map κ ν := fun k => (m.find k).map f

@[simp] theorem find_map (f : ν → ν) (m : Map κ ν) (k : κ) :
    (m.map f).find k = (m.find k).map f := rfl

variable [DecidableEq κ]

def insert (m : Map κ ν) (k : κ) (v : ν) : Map κ ν :=
  fun k' => if k' = k then some v else m.find k'

def erase (m : Map κ ν) (k : κ) : Map κ ν :=
  fun k' => if k' = k then none else m.find k'

/-- The subscript operator: the value at `k`, and the map with the default
entered there if `k` was missing. -/
def index (m : Map κ ν) (k : κ) (default : ν) : ν × Map κ ν :=
  match m.find k with
  | some v => (v, m)
  | none => (default, m.insert k default)

theorem find_insert (m : Map κ ν) (k k' : κ) (v : ν) :
    (m.insert k v).find k' = if k' = k then some v else m.find k' := rfl

@[simp] theorem find_insert_self (m : Map κ ν) (k : κ) (v : ν) :
    (m.insert k v).find k = some v := if_pos rfl

@[simp] theorem find_insert_ne (m : Map κ ν) {k k' : κ} (v : ν) (h : k' ≠ k) :
    (m.insert k v).find k' = m.find k' := if_neg h

theorem find_erase (m : Map κ ν) (k k' : κ) :
    (m.erase k).find k' = if k' = k then none else m.find k' := rfl

@[simp] theorem find_erase_self (m : Map κ ν) (k : κ) : (m.erase k).find k = none := if_pos rfl

@[simp] theorem find_erase_ne (m : Map κ ν) {k k' : κ} (h : k' ≠ k) :
    (m.erase k).find k' = m.find k' := if_neg h

theorem find_insert_eq_some {m : Map κ ν} {k k' : κ} {v w : ν} :
    (m.insert k v).find k' = some w ↔ k' = k ∧ w = v ∨ k' ≠ k ∧ m.find k' = some w := by
  by_cases h : k' = k
  · simp [h, eq_comm]
  · simp [h]

theorem find_erase_eq_some {m : Map κ ν} {k k' : κ} {w : ν} :
    (m.erase k).find k' = some w ↔ k' ≠ k ∧ m.find k' = some w := by
  by_cases h : k' = k
  · simp [h]
  · simp [h]

end Map
end Frangipani
