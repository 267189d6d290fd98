/-
The value that a proposer takes over.

`prepare` asks the nodes one after the other.  Of the values that they report it
keeps the first one whose ballot number is the largest.  The acceptors compare
whole ballots, number and node name, so of two values that were accepted for
ballots of one number the one kept may be that of the smaller ballot, and which
one it is depends on the order of the nodes.

A value reported for number 0 is never taken over, since the search starts there.
-/
import Mathlib.Data.List.MinMax
import Frangipani.Paxos.Network

namespace Frangipani
namespace Paxos

/-- The nodes that `prepare` calls, in order, each with its reply, or with none
when the call fails. -/
abbrev Replies := List (String × Option PrepareRes)

/-- What `prepare` returns, what it leaves in the variables of `run`, and the value
that it commits when it learns that the instance is over. -/
structure Prepared where
  result : Bool
  run : Run
  learned : Option String

/-- The loop of `prepare`. -/
def prepareLoop (r : Run) : Replies → Prepared
  | [] => { result := true, run := r, learned := none }
  | (_, none) :: replies => prepareLoop r.advance replies
  | (node, some res) :: replies =>
    if res.oldinstance then { result := false, run := r, learned := some res.vA }
    else if res.accept then prepareLoop (r.promised node res) replies
    else { result := false, run := r, learned := none }

def prepare (inst : UInt32) (replies : Replies) (v : String) : Prepared :=
  prepareLoop (.start inst (replies.map Prod.fst) v) replies

/-- The replies that report a value. -/
def reported (replies : Replies) : List PrepareRes :=
  (replies.filterMap Prod.snd).filter fun res => res.vA != ""

/-- Every node that answers accepts the prepare. -/
def AllAccept (replies : Replies) : Prop :=
  ∀ res ∈ replies.filterMap Prod.snd, res.oldinstance = false ∧ res.accept = true

/-- No reply has a larger ballot. -/
def IsHighest (rs : List PrepareRes) (r : PrepareRes) : Prop :=
  r ∈ rs ∧ ∀ r' ∈ rs, r'.nA ≤ r.nA

/-- The value of a highest reply, or the caller's own when there is none. -/
def HighestValue (v : String) (rs : List PrepareRes) (x : String) : Prop :=
  (rs = [] ∧ x = v) ∨ ∃ r, IsHighest rs r ∧ x = r.vA

/-- When `prepare` succeeds it has taken over the value of the highest ballot, in
whatever order the nodes are called. -/
def AdoptsHighest (inst : UInt32) (replies : Replies) (v : String) : Prop :=
  (prepare inst replies v).result = true →
    HighestValue v (reported replies) (prepare inst replies v).run.v ∧
    ∀ replies', replies'.Perm replies →
      (prepare inst replies' v).run.v = (prepare inst replies v).run.v

/-- The number of the highest ballot settles the value: all replies with that number
report one value, or the number is 0 and a highest reply has the caller's value. -/
def NumberSettles (v : String) (rs : List PrepareRes) : Prop :=
  ∀ r, IsHighest rs r →
    if r.nA.n = 0 then ∃ r', IsHighest rs r' ∧ r'.vA = v
    else ∀ r' ∈ rs, r'.nA.n = r.nA.n → r'.vA = r.vA

/-! ## What the loop computes -/

/-- A value that is reported replaces the one before when its number is larger. -/
theorem promised_of_value {r : Run} (node : String) {res : PrepareRes} (hv : res.vA ≠ "") :
    ((r.promised node res).highestN, (r.promised node res).v) =
      if res.nA.n > r.highestN then (res.nA.n, res.vA) else (r.highestN, r.v) := by
  unfold Run.promised
  rw [if_neg hv]
  split_ifs with hgt hgt' hgt'
  · rfl
  · exact absurd hgt hgt'
  · exact absurd hgt' hgt
  · rfl

theorem promised_of_empty {r : Run} (node : String) {res : PrepareRes} (hv : res.vA = "") :
    ((r.promised node res).highestN, (r.promised node res).v) = (r.highestN, r.v) := by
  unfold Run.promised
  rw [if_pos hv]
  rfl

/-- The first of the replies with the largest number. -/
def firstLargest (rs : List PrepareRes) : Option PrepareRes := rs.argmax fun r => r.nA.n.toNat

/-- What is kept when `m` is the first of the replies with the largest number. -/
def keptFrom (v : String) : Option PrepareRes → UInt32 × String
  | none => (0, v)
  | some m => if m.nA.n = 0 then (0, v) else (m.nA.n, m.vA)

/-- The variables of `run` when the loop has seen the replies `rs`. -/
def Kept (v : String) (rs : List PrepareRes) (r : Run) : Prop :=
  (r.highestN, r.v) = keptFrom v (firstLargest rs)

theorem keptFrom_fst (v : String) (m : PrepareRes) : (keptFrom v (some m)).1 = m.nA.n := by
  simp only [keptFrom]
  split_ifs with hzero
  · exact hzero.symm
  · rfl

theorem Kept.promised {v : String} {rs : List PrepareRes} {r : Run} (h : Kept v rs r)
    (node : String) {res : PrepareRes} (hv : res.vA ≠ "") :
    Kept v (rs ++ [res]) (r.promised node res) := by
  have hlast : firstLargest (rs ++ [res]) = _ := List.argmax_concat _ res rs
  have hzero : ∀ n : UInt32, n > 0 ↔ n ≠ 0 := fun n => UInt32.pos_iff_ne_zero
  have hhigh : r.highestN = (keptFrom v (firstLargest rs)).1 := congrArg Prod.fst h
  unfold Kept at h ⊢
  rw [promised_of_value node hv, hlast, h, hhigh]
  cases hm : firstLargest rs with
  | none =>
    -- The first reported value is taken over unless its number is 0.
    simp only [firstLargest] at hm
    simp only [keptFrom, hzero, hm]
    by_cases hn : res.nA.n = 0
    · simp only [hn, ne_eq, not_true_eq_false, if_false, if_true]
    · simp only [hn, ne_eq, not_false_eq_true, if_true, if_false]
  | some m =>
    simp only [firstLargest] at hm
    simp only [keptFrom_fst, hm, gt_iff_lt, UInt32.lt_iff_toNat_lt]
    by_cases hlt : m.nA.n.toNat < res.nA.n.toNat
    · have hn : res.nA.n ≠ 0 := fun h0 => by simp [h0] at hlt
      simp only [hlt, if_true, keptFrom, hn, if_false]
    · simp only [hlt, if_false]

/-- When all nodes that answer accept, the loop keeps what the first of the replies
with the largest number reports. -/
theorem prepareLoop_kept {v : String} (replies : Replies) :
    ∀ (rs : List PrepareRes) (r : Run), Kept v rs r → AllAccept replies →
      (prepareLoop r replies).result = true ∧
        Kept v (rs ++ reported replies) (prepareLoop r replies).run := by
  induction replies with
  | nil =>
    intro rs r h _
    have hnone : rs ++ reported [] = rs := List.append_nil rs
    rw [hnone]
    exact ⟨rfl, h⟩
  | cons reply replies ih =>
    intro rs r h hall
    obtain ⟨node, answer⟩ := reply
    cases answer with
    | none => exact ih rs r.advance h hall
    | some res =>
      obtain ⟨hold, hacc⟩ := hall res List.mem_cons_self
      have hrest : AllAccept replies := fun x hx => hall x (List.mem_cons_of_mem _ hx)
      simp only [prepareLoop, hold, hacc, Bool.false_eq_true, if_false, if_true]
      by_cases hv : res.vA = ""
      · have hreported : reported ((node, some res) :: replies) = reported replies := by
          simp [reported, hv]
        rw [hreported]
        exact ih rs _ ((promised_of_empty node hv).trans h) hrest
      · have hreported : reported ((node, some res) :: replies) = res :: reported replies := by
          simp [reported, hv]
        rw [hreported, List.append_cons]
        exact ih _ _ (h.promised node hv) hrest

theorem prepareLoop_allAccept (replies : Replies) :
    ∀ r : Run, (prepareLoop r replies).result = true → AllAccept replies := by
  induction replies with
  | nil => exact fun _ _ _ hres => absurd hres List.not_mem_nil
  | cons reply replies ih =>
    intro r h
    obtain ⟨node, answer⟩ := reply
    cases answer with
    | none => exact ih _ h
    | some res =>
      unfold prepareLoop at h
      split_ifs at h with hold hacc
      have hrest := ih _ h
      intro x hx
      rcases List.mem_cons.mp hx with rfl | hx
      · exact ⟨Bool.eq_false_iff.mpr hold, hacc⟩
      · exact hrest x hx

variable {inst : UInt32} {replies : Replies} {v : String}

theorem start_kept (inst : UInt32) (nodes : List String) (v : String) :
    Kept v [] (.start inst nodes v) :=
  rfl

theorem prepare_result_iff : (prepare inst replies v).result = true ↔ AllAccept replies :=
  ⟨prepareLoop_allAccept replies _,
    fun h => (prepareLoop_kept replies [] _ (start_kept inst _ v) h).1⟩

theorem prepare_v (h : AllAccept replies) :
    (prepare inst replies v).run.v = (keptFrom v (firstLargest (reported replies))).2 :=
  congrArg Prod.snd (prepareLoop_kept replies [] _ (start_kept inst _ v) h).2

/-! ## The highest ballot -/

theorem le_firstLargest {rs : List PrepareRes} {m r : PrepareRes} (hm : firstLargest rs = some m)
    (hr : r ∈ rs) : r.nA.n ≤ m.nA.n :=
  UInt32.le_iff_toNat_le.mpr (List.le_of_mem_argmax (f := fun r => r.nA.n.toNat) hr hm)

theorem exists_highest {rs : List PrepareRes} (hne : rs ≠ []) : ∃ r, IsHighest rs r := by
  cases hr : rs.argmax PrepareRes.nA with
  | none => exact absurd (List.argmax_eq_none.mp hr) hne
  | some r => exact ⟨r, List.argmax_mem hr, fun r' hr' => List.le_of_mem_argmax hr' hr⟩

theorem IsHighest.number {rs : List PrepareRes} {m r : PrepareRes} (h : IsHighest rs r)
    (hm : firstLargest rs = some m) : m.nA.n = r.nA.n := by
  have hle : m.nA.n ≤ r.nA.n := by
    rcases PropT.le_iff.mp (h.2 m (List.argmax_mem hm)) with hlt | ⟨heq, -⟩
    · exact UInt32.le_of_lt hlt
    · exact UInt32.le_of_eq heq
  exact UInt32.le_antisymm hle (le_firstLargest hm h.1)

/-- A reply with the largest number that comes first is the one that is kept. -/
theorem firstLargest_cons {rs : List PrepareRes} {r : PrepareRes}
    (h : ∀ r' ∈ rs, r'.nA.n ≤ r.nA.n) : firstLargest (r :: rs) = some r := by
  have hcons : firstLargest (r :: rs) = _ := List.argmax_cons _ r rs
  rw [hcons]
  cases hm : firstLargest rs with
  | none =>
    simp only [firstLargest] at hm
    simp only [hm]
  | some m =>
    have hle : ¬ r.nA.n.toNat < m.nA.n.toNat :=
      Nat.not_lt.mpr (UInt32.le_iff_toNat_le.mp (h m (List.argmax_mem hm)))
    simp only [firstLargest] at hm
    simp only [hm, hle, if_false]

theorem reported_perm {replies' : Replies} (h : replies'.Perm replies) :
    (reported replies').Perm (reported replies) :=
  (h.filterMap Prod.snd).filter _

theorem AllAccept.perm {replies' : Replies} (hall : AllAccept replies)
    (h : replies'.Perm replies) : AllAccept replies' :=
  fun res hres => hall res ((h.filterMap Prod.snd).mem_iff.mp hres)

theorem exists_perm_cons {r : PrepareRes} (h : r ∈ reported replies) :
    ∃ replies' rs, replies'.Perm replies ∧ reported replies' = r :: rs := by
  obtain ⟨hmem, hv⟩ := List.mem_filter.mp h
  obtain ⟨reply, hreply, hsome⟩ := List.mem_filterMap.mp hmem
  refine ⟨reply :: replies.erase reply, reported (replies.erase reply),
    (List.perm_cons_erase hreply).symm, ?_⟩
  unfold reported
  rw [List.filterMap_cons, hsome, List.filter_cons, if_pos hv]

theorem NumberSettles.kept {rs : List PrepareRes} {r : PrepareRes} (h : NumberSettles v rs)
    (hr : IsHighest rs r) :
    (keptFrom v (firstLargest rs)).2 = if r.nA.n = 0 then v else r.vA := by
  have hsettles := h r hr
  cases hm : firstLargest rs with
  | none =>
    rw [List.argmax_eq_none.mp hm] at hr
    exact absurd hr.1 List.not_mem_nil
  | some m =>
    have hnumber := hr.number hm
    simp only [keptFrom, hnumber]
    split_ifs at hsettles ⊢ with hzero
    · rfl
    · exact hsettles m (List.argmax_mem hm) hnumber

theorem NumberSettles.highestValue {rs : List PrepareRes} (h : NumberSettles v rs) :
    HighestValue v rs (keptFrom v (firstLargest rs)).2 := by
  by_cases hne : rs = []
  · subst hne
    exact Or.inl ⟨rfl, rfl⟩
  · obtain ⟨r, hr⟩ := exists_highest hne
    have hsettles := h r hr
    refine Or.inr ?_
    rw [h.kept hr]
    split_ifs at hsettles ⊢ with hzero
    · obtain ⟨r', hr', hv⟩ := hsettles
      exact ⟨r', hr', hv.symm⟩
    · exact ⟨r, hr, rfl⟩

theorem NumberSettles.perm {rs rs' : List PrepareRes} (h : NumberSettles v rs)
    (hperm : rs'.Perm rs) : NumberSettles v rs' := by
  have hhighest : ∀ r, IsHighest rs' r ↔ IsHighest rs r := fun r => by
    simp only [IsHighest, hperm.mem_iff]
  intro r hr
  simpa only [hhighest, hperm.mem_iff] using h r ((hhighest r).mp hr)

/-- A value that does not depend on the order of the nodes is that of every reply
with the largest number, because any of them can come first. -/
theorem AdoptsHighest.kept_eq (h : AdoptsHighest inst replies v) (hall : AllAccept replies)
    {r r' : PrepareRes} (hr : IsHighest (reported replies) r) (hr' : r' ∈ reported replies)
    (hn : r'.nA.n = r.nA.n) (hzero : r.nA.n ≠ 0) : (prepare inst replies v).run.v = r'.vA := by
  obtain ⟨replies', rs, hperm, hrs⟩ := exists_perm_cons hr'
  have hle : ∀ x ∈ rs, x.nA.n ≤ r'.nA.n := by
    intro x hx
    have hmem : x ∈ reported replies :=
      (reported_perm hperm).mem_iff.mp (hrs ▸ List.mem_cons_of_mem _ hx)
    rw [hn]
    rcases PropT.le_iff.mp (hr.2 x hmem) with hlt | ⟨heq, -⟩
    · exact UInt32.le_of_lt hlt
    · exact UInt32.le_of_eq heq
  have hsame := (h (prepare_result_iff.mpr hall)).2 replies' hperm
  rw [← hsame, prepare_v (hall.perm hperm), hrs, firstLargest_cons hle]
  simp only [keptFrom, hn, hzero, if_false]

/-- For every list of nodes and every assignment of failures and replies to them, a
`prepare` that succeeds has taken over the value with the highest ballot, whatever
the order of the nodes, if and only if the number of that ballot settles the value. -/
theorem adoptsHighest_iff (inst : UInt32) (replies : Replies) (v : String) :
    AdoptsHighest inst replies v ↔ (AllAccept replies → NumberSettles v (reported replies)) := by
  constructor
  · intro h hall r hr
    obtain ⟨hhigh, -⟩ := h (prepare_result_iff.mpr hall)
    split_ifs with hzero
    · -- Nothing was taken over, so the caller's value must be a highest one.
      rcases hhigh with ⟨hnil, -⟩ | ⟨r', hr', hv⟩
      · rw [hnil] at hr
        exact absurd hr.1 List.not_mem_nil
      · refine ⟨r', hr', ?_⟩
        rw [← hv, prepare_v hall]
        cases hm : firstLargest (reported replies) with
        | none => rfl
        | some m => simp only [keptFrom, hr.number hm, hzero, if_true]
    · intro r' hr' hn
      rw [← h.kept_eq hall hr hr' hn hzero, h.kept_eq hall hr hr.1 rfl hzero]
  · intro h hres
    have hall := prepare_result_iff.mp hres
    have hsettles := h hall
    refine ⟨by rw [prepare_v hall]; exact hsettles.highestValue, fun replies' hperm => ?_⟩
    rw [prepare_v hall, prepare_v (hall.perm hperm)]
    have hrs := reported_perm hperm
    by_cases hne : reported replies = []
    · rw [hne] at hrs ⊢
      rw [hrs.eq_nil]
    · obtain ⟨r, hr⟩ := exists_highest hne
      have hr' : IsHighest (reported replies') r := by
        simpa only [IsHighest, hrs.mem_iff] using hr
      rw [hsettles.kept hr, (hsettles.perm hrs).kept hr']

/-- Two nodes have accepted values for ballots of number 1, made by different nodes. -/
def sameNumber : Replies :=
  [("3001", some
      { oldinstance := false, accept := true, nA := { n := 1, m := "3001" }, vA := "x" }),
    ("3002", some
      { oldinstance := false, accept := true, nA := { n := 1, m := "3002" }, vA := "y" }),
    ("3003", none)]

/-- The proposer takes over the value of the smaller ballot, and in the other order
that of the larger one. -/
theorem sameNumber_not_adoptsHighest :
    (prepare 2 sameNumber "z").result = true ∧ (prepare 2 sameNumber "z").run.v = "x" ∧
      (prepare 2 sameNumber.reverse "z").run.v = "y" ∧
      ¬ HighestValue "z" (reported sameNumber) "x" ∧ ¬ AdoptsHighest 2 sameNumber "z" := by
  have hnot : ¬ HighestValue "z" (reported sameNumber) "x" := by
    rintro (⟨hnil, -⟩ | ⟨r, ⟨hr, hmax⟩, hv⟩)
    · exact absurd hnil (by decide)
    · rcases List.mem_cons.mp hr with rfl | hr
      · -- The other ballot is larger.
        exact absurd (hmax _ (List.mem_cons_of_mem _ List.mem_cons_self)) (by decide)
      · cases List.mem_singleton.mp hr
        exact absurd hv (by decide)
  exact ⟨by decide, by decide, by decide, hnot, fun h => hnot (h (by decide)).1⟩

end Paxos
end Frangipani
