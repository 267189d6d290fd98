/-
Maps that are iterated: an ordered associative container with its entries.

The entries stand in ascending order of their keys, which is the order an
iterator visits them in, and the structure carries that order.  `assign` is the
assignment through the subscript operator: it replaces the value of a key that
is there and puts a new key at its place.  `index` reads through it, which enters
a default when the key is missing.

The values are counted entry by entry, and an assignment or an erasure moves the
count by the values that come and go.
-/
import Mathlib.Order.Lattice

universe u v

namespace Frangipani

structure OrderedMap (κ : Type u) [LinearOrder κ] (ν : Type v) where
  entries : List (κ × ν)
  ascending : entries.Pairwise fun e f => e.1 < f.1

namespace OrderedMap

variable {κ : Type u} [LinearOrder κ] {ν : Type v}

@[ext] theorem ext {d d' : OrderedMap κ ν} (h : d.entries = d'.entries) : d = d' := by
  cases d
  cases d'
  cases h
  rfl

def empty : OrderedMap κ ν := ⟨[], List.Pairwise.nil⟩

/-- `k` and `v` put into entries in ascending order. -/
def assignEntries (k : κ) (v : ν) : List (κ × ν) → List (κ × ν)
  | [] => [(k, v)]
  | e :: es =>
    if e.1 < k then e :: assignEntries k v es
    else if k < e.1 then (k, v) :: e :: es
    else (k, v) :: es

/-- The keys after an assignment are the keys before it and the assigned one. -/
theorem of_mem_assignEntries {k : κ} {v : ν} {f : κ × ν} :
    ∀ {es : List (κ × ν)}, f ∈ assignEntries k v es → f.1 = k ∨ f ∈ es
  | [], hf => Or.inl (congrArg Prod.fst (List.mem_singleton.mp hf))
  | e :: es, hf => by
    rw [assignEntries] at hf
    split_ifs at hf with hlt hgt
    · rcases List.mem_cons.mp hf with rfl | hmem
      · exact Or.inr List.mem_cons_self
      · exact (of_mem_assignEntries hmem).imp_right (List.mem_cons_of_mem e)
    · rcases List.mem_cons.mp hf with rfl | hmem
      · exact Or.inl rfl
      · exact Or.inr hmem
    · rcases List.mem_cons.mp hf with rfl | hmem
      · exact Or.inl rfl
      · exact Or.inr (List.mem_cons_of_mem e hmem)

theorem assignEntries_ascending (k : κ) (v : ν) :
    ∀ {es : List (κ × ν)}, (es.Pairwise fun e f => e.1 < f.1) →
      (assignEntries k v es).Pairwise fun e f => e.1 < f.1
  | [], _ => List.pairwise_singleton _ _
  | e :: es, hasc => by
    obtain ⟨hhead, htail⟩ := List.pairwise_cons.mp hasc
    rw [assignEntries]
    split_ifs with hlt hgt
    · -- The new key goes further back, and the head is below it as below all others.
      refine List.pairwise_cons.mpr ⟨fun f hf => ?_, assignEntries_ascending k v htail⟩
      rcases of_mem_assignEntries hf with hkey | hmem
      · exact hkey ▸ hlt
      · exact hhead f hmem
    · refine List.pairwise_cons.mpr ⟨fun f hf => ?_, hasc⟩
      rcases List.mem_cons.mp hf with rfl | hmem
      · exact hgt
      · exact lt_trans hgt (hhead f hmem)
    · -- The key is there, and only its value changes.
      have hkey : k = e.1 := le_antisymm (not_lt.mp hlt) (not_lt.mp hgt)
      exact List.pairwise_cons.mpr ⟨fun f hf => hkey ▸ hhead f hf, htail⟩

def assign (d : OrderedMap κ ν) (k : κ) (v : ν) : OrderedMap κ ν :=
  ⟨assignEntries k v d.entries, assignEntries_ascending k v d.ascending⟩

theorem assignEntries_of_lt {k : κ} {v : ν} :
    ∀ {es : List (κ × ν)}, (∀ e ∈ es, e.1 < k) → assignEntries k v es = es ++ [(k, v)]
  | [], _ => rfl
  | e :: es, hlt => by
    rw [assignEntries, if_pos (hlt e List.mem_cons_self),
      assignEntries_of_lt fun f hf => hlt f (List.mem_cons_of_mem e hf)]
    rfl

/-- Entries in ascending order, assigned one after the other behind entries below them, are the
entries of the map they make. -/
theorem foldl_assign_entries (d : OrderedMap κ ν) {es : List (κ × ν)}
    (hasc : (d.entries ++ es).Pairwise fun e f => e.1 < f.1) :
    (es.foldl (fun d e => d.assign e.1 e.2) d).entries = d.entries ++ es := by
  induction es generalizing d with
  | nil => exact (List.append_nil _).symm
  | cons e es ih =>
    have hbelow : ∀ f ∈ d.entries, f.1 < e.1 := fun f hf =>
      (List.pairwise_append.mp hasc).2.2 f hf e List.mem_cons_self
    have hassign : (d.assign e.1 e.2).entries = d.entries ++ [e] := assignEntries_of_lt hbelow
    rw [List.foldl_cons, ih, hassign, List.append_assoc]
    · rfl
    · rw [hassign, List.append_assoc]
      exact hasc

theorem foldl_assign_empty (d : OrderedMap κ ν) :
    d.entries.foldl (fun d e => d.assign e.1 e.2) empty = d :=
  ext (foldl_assign_entries empty d.ascending)

/-! ## Lookup -/

def find (d : OrderedMap κ ν) (k : κ) : Option ν :=
  (d.entries.find? fun e => e.1 = k).map Prod.snd

def erase (d : OrderedMap κ ν) (k : κ) : OrderedMap κ ν :=
  ⟨d.entries.filter fun e => e.1 ≠ k, d.ascending.filter _⟩

/-- The subscript operator: the value at `k`, and the map with the default entered there if `k`
was missing. -/
def index (d : OrderedMap κ ν) (k : κ) (default : ν) : ν × OrderedMap κ ν :=
  match d.find k with
  | some v => (v, d)
  | none => (default, d.assign k default)

theorem eq_of_mem_entries {k : κ} {v w : ν} :
    ∀ {es : List (κ × ν)}, (es.Pairwise fun e f => e.1 < f.1) → (k, v) ∈ es → (k, w) ∈ es → v = w
  | [], _, hv, _ => absurd hv List.not_mem_nil
  | e :: es, hasc, hv, hw => by
    obtain ⟨hhead, htail⟩ := List.pairwise_cons.mp hasc
    rcases List.mem_cons.mp hv with rfl | hv'
    · rcases List.mem_cons.mp hw with hw | hw'
      · exact (congrArg Prod.snd hw).symm
      · exact absurd (hhead (k, w) hw') (lt_irrefl k)
    · rcases List.mem_cons.mp hw with rfl | hw'
      · exact absurd (hhead (k, v) hv') (lt_irrefl k)
      · exact eq_of_mem_entries htail hv' hw'

theorem find_eq_some {d : OrderedMap κ ν} {k : κ} {v : ν} :
    d.find k = some v ↔ (k, v) ∈ d.entries := by
  have hof : ∀ e, d.entries.find? (fun e => e.1 = k) = some e → (k, e.2) ∈ d.entries := by
    intro e he
    have hkey : e.1 = k := by simpa using List.find?_some he
    rw [← hkey]
    exact List.mem_of_find?_eq_some he
  rw [find, Option.map_eq_some_iff]
  constructor
  · rintro ⟨e, he, rfl⟩
    exact hof e he
  · intro hmem
    cases hfound : d.entries.find? fun e => e.1 = k with
    | none => simpa using List.find?_eq_none.mp hfound _ hmem
    | some e => exact ⟨e, rfl, eq_of_mem_entries d.ascending (hof e hfound) hmem⟩

theorem find_eq_none {d : OrderedMap κ ν} {k : κ} :
    d.find k = none ↔ ∀ v, (k, v) ∉ d.entries := by
  rw [Option.eq_none_iff_forall_ne_some]
  exact forall_congr' fun v => not_congr find_eq_some

theorem mem_assignEntries_self (k : κ) (v : ν) :
    ∀ es : List (κ × ν), (k, v) ∈ assignEntries k v es
  | [] => List.mem_singleton.mpr rfl
  | e :: es => by
    rw [assignEntries]
    split_ifs
    · exact List.mem_cons_of_mem e (mem_assignEntries_self k v es)
    · exact List.mem_cons_self
    · exact List.mem_cons_self

theorem mem_assignEntries_ne {k : κ} {v : ν} {f : κ × ν} (hne : f.1 ≠ k) :
    ∀ {es : List (κ × ν)}, f ∈ es → f ∈ assignEntries k v es
  | [], hf => absurd hf List.not_mem_nil
  | e :: es, hf => by
    rw [assignEntries]
    split_ifs with hlt hgt
    · rcases List.mem_cons.mp hf with rfl | hmem
      · exact List.mem_cons_self
      · exact List.mem_cons_of_mem e (mem_assignEntries_ne hne hmem)
    · exact List.mem_cons_of_mem _ hf
    · rcases List.mem_cons.mp hf with rfl | hmem
      · exact absurd (le_antisymm (not_lt.mp hgt) (not_lt.mp hlt)) hne
      · exact List.mem_cons_of_mem _ hmem

@[simp] theorem find_assign_self (d : OrderedMap κ ν) (k : κ) (v : ν) :
    (d.assign k v).find k = some v :=
  find_eq_some.mpr (mem_assignEntries_self k v d.entries)

@[simp] theorem find_assign_ne (d : OrderedMap κ ν) {k k' : κ} (v : ν) (h : k' ≠ k) :
    (d.assign k v).find k' = d.find k' := by
  refine Option.ext fun w => ?_
  rw [find_eq_some, find_eq_some]
  exact ⟨fun hmem => (of_mem_assignEntries hmem).resolve_left h, mem_assignEntries_ne h⟩

theorem find_of_erase {d : OrderedMap κ ν} {k k' : κ} {v : ν}
    (h : (d.erase k).find k' = some v) : d.find k' = some v :=
  find_eq_some.mpr (List.mem_filter.mp (find_eq_some.mp h)).1

/-! ## Counting -/

section Count

/-- The number of keys with a value that meets `p`. -/
def count (d : OrderedMap κ ν) (p : ν → Bool) : Nat := d.entries.countP fun e => p e.2

variable (p : ν → Bool)

theorem count_pos {d : OrderedMap κ ν} {k : κ} {v : ν} (h : d.find k = some v)
    (hv : p v = true) : 0 < d.count p :=
  List.countP_pos_iff.mpr ⟨(k, v), find_eq_some.mp h, hv⟩

theorem countP_filter_key (k : κ) :
    ∀ {es : List (κ × ν)}, (es.Pairwise fun e f => e.1 < f.1) →
      es.countP (fun e => p e.2) = (es.filter fun e => e.1 ≠ k).countP (fun e => p e.2) +
        ((es.find? fun e => e.1 = k).map Prod.snd).elim 0 fun v => (p v).toNat
  | [], _ => rfl
  | e :: es, hasc => by
    obtain ⟨hhead, htail⟩ := List.pairwise_cons.mp hasc
    have ih := countP_filter_key k htail
    by_cases hkey : e.1 = k
    · have hrest : es.filter (fun f => f.1 ≠ k) = es := by
        refine List.filter_eq_self.mpr fun f hf => ?_
        simpa using (hkey ▸ hhead f hf).ne'
      rw [List.filter_cons_of_neg (by simpa using hkey), hrest,
        List.find?_cons_of_pos (by simpa using hkey), List.countP_cons]
      cases hp : p e.2 <;> simp [hp]
    · rw [List.filter_cons_of_pos (by simpa using hkey),
        List.find?_cons_of_neg (by simpa using hkey), List.countP_cons, List.countP_cons, ih]
      omega

theorem count_erase (d : OrderedMap κ ν) (k : κ) :
    d.count p = (d.erase k).count p + (d.find k).elim 0 fun v => (p v).toNat :=
  countP_filter_key p k d.ascending

theorem filter_assignEntries (k : κ) (v : ν) :
    ∀ es : List (κ × ν),
      (assignEntries k v es).filter (fun e => e.1 ≠ k) = es.filter fun e => e.1 ≠ k
  | [] => by simp [assignEntries]
  | e :: es => by
    rw [assignEntries]
    split_ifs with hlt hgt
    · rw [List.filter_cons, List.filter_cons, filter_assignEntries k v es]
    · rw [List.filter_cons_of_neg (by simp)]
    · have hkey : e.1 = k := le_antisymm (not_lt.mp hgt) (not_lt.mp hlt)
      rw [List.filter_cons_of_neg (by simp), List.filter_cons_of_neg (by simpa using hkey)]

theorem count_assign (d : OrderedMap κ ν) (k : κ) (v : ν) :
    (d.assign k v).count p + ((d.find k).elim 0 fun w => (p w).toNat) =
      d.count p + (p v).toNat := by
  have herase : (d.assign k v).erase k = d.erase k := ext (filter_assignEntries k v d.entries)
  have hassign := count_erase p (d.assign k v) k
  have hbefore := count_erase p d k
  rw [find_assign_self, herase] at hassign
  simp only [Option.elim_some] at hassign
  omega

end Count

end OrderedMap
end Frangipani
