/-
Proposal numbers.

A proposal number is a counter and the name of the node that made it.  The
comparisons are those of the source, first by counter and then by name, and they
are the lexicographic linear order.
-/
import Mathlib.Data.Prod.Lex
import Mathlib.Data.String.Basic

namespace Frangipani
namespace Paxos

/-- `prop_t`. -/
structure PropT where
  n : UInt32
  m : String
  deriving DecidableEq, Repr

namespace PropT

/-- `operator>`. -/
def gt (a b : PropT) : Bool := a.n > b.n || (a.n == b.n && a.m > b.m)

/-- `operator>=`. -/
def ge (a b : PropT) : Bool := a.n > b.n || (a.n == b.n && a.m ≥ b.m)

/-- Two ballots are the same up to the name of a ballot whose number is 0. -/
def Same (a b : PropT) : Prop := a.n = b.n ∧ (a.n = 0 ∨ a.m = b.m)

instance (a b : PropT) : Decidable (a.Same b) := inferInstanceAs (Decidable (_ ∧ _))

theorem Same.refl (a : PropT) : a.Same a := ⟨rfl, Or.inr rfl⟩

theorem Same.symm {a b : PropT} (h : a.Same b) : b.Same a :=
  ⟨h.1.symm, h.2.elim (fun h0 => Or.inl (h.1 ▸ h0)) fun hm => Or.inr hm.symm⟩

theorem Same.trans {a b c : PropT} (hab : a.Same b) (hbc : b.Same c) : a.Same c := by
  refine ⟨hab.1.trans hbc.1, ?_⟩
  rcases hab.2 with h0 | hm
  · exact Or.inl h0
  · rcases hbc.2 with h0 | hm'
    · exact Or.inl (hab.1.trans h0)
    · exact Or.inr (hm.trans hm')

/-- The pair that the lexicographic order compares. -/
def key (a : PropT) : ℕ ×ₗ String := toLex (a.n.toNat, a.m)

theorem key_injective : Function.Injective key := by
  intro a b h
  obtain ⟨hn, hm⟩ := Prod.mk.inj (toLex.injective h)
  cases a
  cases b
  simp only [mk.injEq]
  exact ⟨UInt32.toNat_inj.mp hn, hm⟩

instance : LinearOrder PropT := LinearOrder.lift' key key_injective

theorem lt_iff {a b : PropT} : a < b ↔ a.n < b.n ∨ (a.n = b.n ∧ a.m < b.m) := by
  show key a < key b ↔ _
  simp only [key, Prod.Lex.toLex_lt_toLex, UInt32.lt_iff_toNat_lt, UInt32.toNat_inj]

theorem le_iff {a b : PropT} : a ≤ b ↔ a.n < b.n ∨ (a.n = b.n ∧ a.m ≤ b.m) := by
  show key a ≤ key b ↔ _
  simp only [key, Prod.Lex.toLex_le_toLex, UInt32.lt_iff_toNat_lt, UInt32.toNat_inj]

theorem gt_iff {a b : PropT} : a.gt b = true ↔ b < a := by
  simp only [gt, lt_iff, gt_iff_lt, Bool.or_eq_true, decide_eq_true_eq, Bool.and_eq_true,
    beq_iff_eq]
  constructor
  · intro h
    rcases h with h | ⟨h, hm⟩
    · exact Or.inl h
    · exact Or.inr ⟨h.symm, hm⟩
  · intro h
    rcases h with h | ⟨h, hm⟩
    · exact Or.inl h
    · exact Or.inr ⟨h.symm, hm⟩

theorem ge_iff {a b : PropT} : a.ge b = true ↔ b ≤ a := by
  simp only [ge, le_iff, gt_iff_lt, ge_iff_le, Bool.or_eq_true, decide_eq_true_eq,
    Bool.and_eq_true, beq_iff_eq]
  constructor
  · intro h
    rcases h with h | ⟨h, hm⟩
    · exact Or.inl h
    · exact Or.inr ⟨h.symm, hm⟩
  · intro h
    rcases h with h | ⟨h, hm⟩
    · exact Or.inl h
    · exact Or.inr ⟨h.symm, hm⟩

end PropT
end Paxos
end Frangipani
