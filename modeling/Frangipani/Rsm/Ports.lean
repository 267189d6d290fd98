/-
Views of ports.

The servers are named by their ports, in decimal and without leading zeros.  Such
a name is what its number is printed as, so the choice of a primary by number is a
choice among the members themselves: the lowest port of both views takes over, in
whatever order the views list their members.
-/
import Frangipani.Rsm.Primary

namespace Frangipani
namespace Rsm

open Text

/-- The number that a decimal text stands for, without a bound. -/
def portNumber (m : String) : Nat := Nat.ofDigitChars 10 m.toList 0

/-- A decimal number without leading zeros that fits into 64 bits. -/
structure IsPort (m : String) : Prop where
  digits : IStream.IsDigits m.toList
  canonical : m.toList.head? = some '0' → m.toList = ['0']
  lt : portNumber m < UInt64.size

instance (m : String) : Decidable (IsPort m) :=
  decidable_of_iff (IStream.IsDigits m.toList ∧
      (m.toList.head? = some '0' → m.toList = ['0']) ∧ portNumber m < UInt64.size)
    ⟨fun h => ⟨h.1, h.2.1, h.2.2⟩, fun h => ⟨h.digits, h.canonical, h.lt⟩⟩

theorem toNat_nodeNumber {m : String} (h : IsPort m) : (nodeNumber m).toNat = portNumber m := by
  rw [nodeNumber, IStream.getULongLong_all 0 h.digits h.lt]
  exact UInt64.toNat_ofNat_of_lt' h.lt

theorem nodeName_nodeNumber {m : String} (h : IsPort m) : nodeName (nodeNumber m) = m := by
  unfold nodeName decimal64
  rw [toNat_nodeNumber h, portNumber, IStream.toDigits_ofDigitChars h.digits h.canonical,
    String.ofList_toList]

theorem le_of_find?_of_pairwise {l : List UInt64} (hl : l.Pairwise (· ≤ ·)) {P : UInt64 → Bool}
    {n k : UInt64} (hn : l.find? P = some n) (hk : k ∈ l) (hP : P k = true) : n ≤ k := by
  obtain ⟨-, before, after, rfl, hbefore⟩ := List.find?_eq_some_iff_append.mp hn
  rcases List.mem_append.mp hk with hk | hk
  · have hnot := hbefore k hk
    rw [hP] at hnot
    cases hnot
  · rcases List.mem_cons.mp hk with rfl | hk
    · exact UInt64.le_refl _
    · exact List.rel_of_pairwise_cons (List.pairwise_append.mp hl).2.1 hk

theorem setPrimary_least {primary m q : String} {c p : List String} (hp : ∀ k ∈ p, IsPort k)
    (hprimary : isamember primary c = false) (hm : m ∈ p) (hmc : m ∈ c)
    (hq : setPrimary primary c p = some q) :
    (q ∈ p ∧ q ∈ c) ∧ ∀ k ∈ p, k ∈ c → portNumber q ≤ portNumber k := by
  rw [setPrimary_of_not_mem hprimary hm hmc, List.find?_map] at hq
  obtain ⟨n, hn, rfl⟩ := Option.map_eq_some_iff.mp hq
  -- The number that was found is the number of a member, and is printed as that member.
  obtain ⟨k, hk, rfl⟩ := List.mem_map.mp ((List.mem_insertionSort _).mp
    (List.mem_of_find?_eq_some hn))
  rw [nodeName_nodeNumber (hp k hk)]
  have hkc := List.find?_some hn
  rw [Function.comp_apply, nodeName_nodeNumber (hp k hk)] at hkc
  refine ⟨⟨hk, List.contains_iff_mem.mp hkc⟩, fun l hl hlc => ?_⟩
  rw [← toNat_nodeNumber (hp k hk), ← toNat_nodeNumber (hp l hl), ← UInt64.le_iff_toNat_le]
  refine le_of_find?_of_pairwise (List.pairwise_insertionSort _ _) hn
    ((List.mem_insertionSort _).mpr (List.mem_map_of_mem hl)) ?_
  rw [Function.comp_apply, nodeName_nodeNumber (hp l hl)]
  exact List.contains_iff_mem.mpr hlc

theorem setPrimary_perm (primary : String) {c c' p p' : List String} (hc : c'.Perm c)
    (hp : p'.Perm p) : setPrimary primary c' p' = setPrimary primary c p := by
  have hmem : ∀ m, isamember m c' = isamember m c := fun m => by
    rw [Bool.eq_iff_iff, isamember, isamember, List.contains_iff_mem, List.contains_iff_mem]
    exact hc.mem_iff
  have hsort : (p'.map nodeNumber).insertionSort (· ≤ ·) =
      (p.map nodeNumber).insertionSort (· ≤ ·) :=
    List.Perm.eq_of_pairwise (fun _ _ _ _ => UInt64.le_antisymm)
      (List.pairwise_insertionSort _ _) (List.pairwise_insertionSort _ _)
      ((List.perm_insertionSort _ _).trans
        ((hp.map nodeNumber).trans (List.perm_insertionSort _ _).symm))
  unfold setPrimary
  rw [hc.isEmpty_eq, hp.isEmpty_eq, hmem, hsort, funext hmem]

/-- `set_primary` returns when the primary stays or the views share a member.  The
primary stays if it can, the lowest port of both views takes over otherwise, and
the order of the views does not matter. -/
theorem setPrimary_lowest_port (primary : String) (c p : List String) (hp : ∀ m ∈ p, IsPort m)
    (hshare : primary ∈ c ∨ ∃ m ∈ p, m ∈ c) :
    ∃ q, setPrimary primary c p = some q ∧
      (primary ∈ c → q = primary) ∧
      (primary ∉ c → (q ∈ p ∧ q ∈ c) ∧ ∀ m ∈ p, m ∈ c → portNumber q ≤ portNumber m) ∧
      ∀ c' p', c'.Perm c → p'.Perm p → setPrimary primary c' p' = some q := by
  by_cases hprimary : primary ∈ c
  · have hstays := setPrimary_of_mem p (List.contains_iff_mem.mpr hprimary)
    refine ⟨primary, hstays, fun _ => rfl, fun hnot => absurd hprimary hnot, ?_⟩
    intro c' p' hc' hp'
    rw [setPrimary_perm primary hc' hp', hstays]
  · obtain ⟨m, hm, hmc⟩ := hshare.resolve_left hprimary
    have hsome := setPrimary_isSome primary hm hmc (nodeName_nodeNumber (hp m hm))
    obtain ⟨q, hq⟩ := Option.isSome_iff_exists.mp hsome
    refine ⟨q, hq, fun hmem => absurd hmem hprimary, fun _ => ?_, ?_⟩
    · have hnot : isamember primary c = false := by
        rw [Bool.eq_false_iff]
        exact fun hmem => hprimary (List.contains_iff_mem.mp hmem)
      exact setPrimary_least hp hnot hm hmc hq
    · intro c' p' hc' hp'
      rw [setPrimary_perm primary hc' hp', hq]

/-- Port 999 comes before port 1000, which as a text is the lower one. -/
theorem setPrimary_lowest_port_numeric :
    (∀ m ∈ ["1000", "80", "999"], IsPort m) ∧
      ∃ q, setPrimary "80" ["999", "1000"] ["1000", "80", "999"] = some q ∧
        q ∈ ["999", "1000"] ∧ portNumber q ≤ 999 := by
  have hports : ∀ m ∈ ["1000", "80", "999"], IsPort m := by decide
  obtain ⟨q, hq, -, hleast, -⟩ := setPrimary_lowest_port "80" ["999", "1000"]
    ["1000", "80", "999"] hports (.inr ⟨"999", by decide, by decide⟩)
  have hlowest := hleast (by decide)
  exact ⟨hports, q, hq, hlowest.1.2, hlowest.2 "999" (by decide) (by decide)⟩

end Rsm
end Frangipani
