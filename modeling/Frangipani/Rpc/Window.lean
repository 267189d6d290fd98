/-
The client's window of acknowledged calls.

`xid_rep_window_` is a sorted list of the numbers of calls that are over, and
every request carries its front to the server.  `update_xid_rep` enters a number
behind the last one that is not larger, and then takes numbers off the front as
long as the next one in the list follows without a gap.

The list is not empty and sorted, which `Window` carries along.  What the server
relies on is `Acked`: the numbers in the list, and all numbers up to the front,
have some property, here that their calls are over.  The window is also exact: it
has taken off all that can be taken off, and it has lost no number.
-/
import Mathlib.Data.List.Basic
import Mathlib.Order.Bounds.Defs

namespace Frangipani
namespace Rpc

/-- Enter the number before the first larger one. -/
def insertXid (xid : UInt32) : List UInt32 → List UInt32
  | [] => [xid]
  | y :: ys => if y > xid then xid :: y :: ys else y :: insertXid xid ys

/-- The loop at `compress`.  The list is `pre ++ rest` and the iterator stands at
the head of `rest`. -/
def compressFrom : List UInt32 → List UInt32 → List UInt32
  | pre, [] => pre
  | pre, x :: rest => compressFrom (pre.dropWhile (fun front => front + 1 == x) ++ [x]) rest

/-- The iterator starts at the second number. -/
def compress : List UInt32 → List UInt32
  | [] => []
  | front :: rest => compressFrom [front] rest

/-! ## The list stays sorted -/

theorem mem_insertXid {xid y : UInt32} {l : List UInt32} :
    y ∈ insertXid xid l ↔ y = xid ∨ y ∈ l := by
  induction l with
  | nil => simp [insertXid]
  | cons z l ih =>
    unfold insertXid
    split
    · simp
    · simp only [List.mem_cons, ih]
      tauto

theorem insertXid_sorted {xid : UInt32} {l : List UInt32} (h : l.Pairwise (· ≤ ·)) :
    (insertXid xid l).Pairwise (· ≤ ·) := by
  induction l with
  | nil => simp [insertXid]
  | cons z l ih =>
    obtain ⟨hz, hl⟩ := List.pairwise_cons.mp h
    unfold insertXid
    split
    · rename_i hgt
      have hle : xid ≤ z := UInt32.le_of_lt hgt
      refine List.pairwise_cons.mpr ⟨fun y hy => ?_, h⟩
      rcases List.mem_cons.mp hy with rfl | hy
      · exact hle
      · exact UInt32.le_trans hle (hz y hy)
    · rename_i hgt
      refine List.pairwise_cons.mpr ⟨fun y hy => ?_, ih hl⟩
      rcases mem_insertXid.mp hy with rfl | hy
      · exact UInt32.not_lt.mp hgt
      · exact hz y hy

theorem compressFrom_suffix (pre rest : List UInt32) : compressFrom pre rest <:+ pre ++ rest := by
  induction rest generalizing pre with
  | nil => simp [compressFrom]
  | cons x rest ih =>
    unfold compressFrom
    refine (ih _).trans ?_
    rw [List.append_assoc, List.singleton_append]
    obtain ⟨dropped, hdropped⟩ := List.dropWhile_suffix (l := pre) fun front => front + 1 == x
    exact ⟨dropped, by rw [← List.append_assoc, hdropped]⟩

theorem compressFrom_ne_nil {pre rest : List UInt32} (h : pre ++ rest ≠ []) :
    compressFrom pre rest ≠ [] := by
  induction rest generalizing pre with
  | nil => simpa [compressFrom] using h
  | cons x rest ih =>
    unfold compressFrom
    refine ih ?_
    simp

theorem compress_suffix (l : List UInt32) : compress l <:+ l := by
  cases l with
  | nil => exact List.suffix_refl []
  | cons front rest => exact compressFrom_suffix [front] rest

theorem compress_ne_nil {l : List UInt32} (h : l ≠ []) : compress l ≠ [] := by
  cases l with
  | nil => exact absurd rfl h
  | cons front rest => exact compressFrom_ne_nil (List.cons_ne_nil front rest)

/-- `xid_rep_window_`. -/
structure Window where
  xids : List UInt32
  nonempty : xids ≠ []
  sorted : xids.Pairwise (· ≤ ·)
  deriving DecidableEq

namespace Window

/-- No call is over yet. -/
def new : Window := ⟨[0], List.cons_ne_nil 0 [], List.pairwise_singleton _ 0⟩

def front (w : Window) : UInt32 := w.xids.head w.nonempty

def updateXidRep (w : Window) (xid : UInt32) : Window :=
  if xid ≤ w.front then w
  else
    { xids := compress (insertXid xid w.xids)
      nonempty := compress_ne_nil (List.ne_nil_of_mem (mem_insertXid.mpr (Or.inl rfl)))
      sorted := (insertXid_sorted w.sorted).sublist (compress_suffix _).sublist }

end Window

/-! ## What is acknowledged -/

/-- The numbers in the list and all numbers up to its front have the property. -/
structure Acked (P : UInt32 → Prop) (l : List UInt32) : Prop where
  mem : ∀ y ∈ l, P y
  below : ∀ front ∈ l.head?, ∀ y, y ≤ front → P y

theorem Acked.mono {P Q : UInt32 → Prop} {l : List UInt32} (h : Acked P l)
    (hPQ : ∀ y, P y → Q y) : Acked Q l :=
  ⟨fun y hy => hPQ y (h.mem y hy), fun front hf y hy => hPQ y (h.below front hf y hy)⟩

theorem le_or_eq_of_le_succ {front x y : UInt32} (hx : front + 1 = x) (hle : front ≤ x)
    (hy : y ≤ x) : y ≤ front ∨ y = x := by
  have hlt := front.toNat_lt
  simp only [← UInt32.toNat_inj, UInt32.le_iff_toNat_le, UInt32.toNat_add, UInt32.toNat_one]
    at hx hle hy ⊢
  omega

theorem Acked.suffix {P : UInt32 → Prop} {l k : List UInt32} (h : Acked P l) (hk : k <:+ l)
    (hbelow : ∀ front ∈ k.head?, ∀ y, y ≤ front → P y) : Acked P k :=
  ⟨fun y hy => h.mem y (hk.subset hy), hbelow⟩

/-- One round of the loop.  The front goes only when the number at the iterator
follows it, and then the new front is at most that number. -/
theorem Acked.dropWhile {P : UInt32 → Prop} {pre rest : List UInt32} {x : UInt32}
    (h : Acked P (pre ++ x :: rest)) (hs : (pre ++ x :: rest).Pairwise (· ≤ ·)) :
    Acked P (pre.dropWhile (fun front => front + 1 == x) ++ x :: rest) := by
  induction pre with
  | nil => exact h
  | cons front pre ih =>
    rw [List.dropWhile_cons]
    split
    · rename_i hnext
      have hx : front + 1 = x := by simpa using hnext
      obtain ⟨hfront, hs'⟩ := List.pairwise_cons.mp hs
      have hfx : front ≤ x := hfront x (by simp)
      refine ih (h.suffix (List.suffix_cons front _) fun f hf y hy => ?_) hs'
      have hf_le : f ≤ x := by
        cases pre with
        | nil =>
          cases hf
          exact UInt32.le_refl x
        | cons g pre =>
          cases hf
          exact (List.pairwise_cons.mp hs').1 x (by simp)
      rcases le_or_eq_of_le_succ hx hfx (UInt32.le_trans hy hf_le) with hle | heq
      · exact h.below front rfl y hle
      · rw [heq]
        exact h.mem x (by simp)
    · exact h

theorem Acked.compressFrom {P : UInt32 → Prop} {pre rest : List UInt32}
    (h : Acked P (pre ++ rest)) (hs : (pre ++ rest).Pairwise (· ≤ ·)) :
    Acked P (compressFrom pre rest) := by
  induction rest generalizing pre with
  | nil => simpa [Rpc.compressFrom] using h
  | cons x rest ih =>
    have hdrop := h.dropWhile hs
    obtain ⟨dropped, hdropped⟩ := List.dropWhile_suffix (l := pre) fun front => front + 1 == x
    rw [← hdropped, List.append_assoc] at hs
    have hs' := (List.pairwise_append.mp hs).2.1
    unfold Rpc.compressFrom
    rw [← List.singleton_append, ← List.append_assoc] at hdrop hs'
    exact ih hdrop hs'

/-- One more number, larger than the front, which therefore stays where it is. -/
theorem Acked.insertXid {P : UInt32 → Prop} {front xid : UInt32} {rest : List UInt32}
    (h : Acked P (front :: rest)) (hs : (front :: rest).Pairwise (· ≤ ·)) (hlt : front < xid)
    (hx : P xid) : Acked P (compress (insertXid xid (front :: rest))) := by
  have hnot : ¬ front > xid := UInt32.lt_asymm hlt
  have hinsert : Rpc.insertXid xid (front :: rest) = front :: Rpc.insertXid xid rest := by
    simp only [Rpc.insertXid, hnot, if_false]
  have hsorted : (Rpc.insertXid xid (front :: rest)).Pairwise (· ≤ ·) := insertXid_sorted hs
  rw [hinsert] at hsorted ⊢
  have hacked : Acked P ([front] ++ Rpc.insertXid xid rest) := by
    refine ⟨fun y hy => ?_, h.below⟩
    rcases List.mem_cons.mp hy with rfl | hy
    · exact h.mem _ List.mem_cons_self
    · rcases mem_insertXid.mp hy with rfl | hy
      · exact hx
      · exact h.mem y (List.mem_cons_of_mem _ hy)
  exact hacked.compressFrom hsorted

namespace Window

theorem xids_eq (w : Window) : w.xids = w.front :: w.xids.tail :=
  (List.cons_head_tail w.nonempty).symm

theorem front_mem (w : Window) : w.front ∈ w.xids := List.head_mem w.nonempty

theorem front_le (w : Window) {y : UInt32} (h : y ∈ w.xids) : w.front ≤ y := by
  have hs := w.sorted
  rw [xids_eq] at h hs
  rcases List.mem_cons.mp h with rfl | hy
  · exact UInt32.le_refl _
  · exact (List.pairwise_cons.mp hs).1 y hy

theorem acked_below {P : UInt32 → Prop} {w : Window} (h : Acked P w.xids) {y : UInt32}
    (hy : y ≤ w.front) : P y := by
  rw [xids_eq] at h
  exact h.below w.front rfl y hy

theorem acked_updateXidRep {P : UInt32 → Prop} {w : Window} (h : Acked P w.xids) {xid : UInt32}
    (hx : P xid) : Acked P (w.updateXidRep xid).xids := by
  unfold updateXidRep
  split
  · exact h
  · rename_i hle
    have hs := w.sorted
    show Acked P (compress (insertXid xid w.xids))
    rw [xids_eq] at h hs ⊢
    exact h.insertXid hs (UInt32.not_le.mp hle) hx

/-- The front never goes back. -/
theorem front_le_updateXidRep (w : Window) (xid : UInt32) :
    w.front ≤ (w.updateXidRep xid).front := by
  have hmem : (w.updateXidRep xid).front ∈ (w.updateXidRep xid).xids :=
    (w.updateXidRep xid).front_mem
  generalize hf : (w.updateXidRep xid).front = f at hmem ⊢
  unfold updateXidRep at hmem
  split at hmem
  · exact w.front_le hmem
  · rename_i hlt
    rcases mem_insertXid.mp ((compress_suffix _).subset hmem) with rfl | hold
    · exact UInt32.le_of_lt (UInt32.not_le.mp hlt)
    · exact w.front_le hold

example : ((new.updateXidRep 3).updateXidRep 1).xids = [1, 3] := by decide
example : (((new.updateXidRep 3).updateXidRep 1).updateXidRep 2).xids = [3] := by decide

end Window

/-! ## The window is exact -/

/-- The number after the front is missing, so that nothing more can be taken off. -/
def Settled (l : List UInt32) : Prop := ∀ front ∈ l.head?, front + 1 ∉ l

/-- The iterator moves on to `x`.  When the front goes, all numbers up to `x` are the front or `x`
itself. -/
theorem Settled.dropWhile {pre : List UInt32} {x : UInt32} (h : Settled pre)
    (hs : (pre ++ [x]).Pairwise (· ≤ ·)) :
    Settled (pre.dropWhile (fun front => front + 1 == x) ++ [x]) := by
  have hsucc : ∀ y : UInt32, y + 1 ≠ y := by
    intro y hy
    have := y.toNat_lt
    simp only [← UInt32.toNat_inj, UInt32.toNat_add, UInt32.toNat_one] at hy
    omega
  induction pre with
  | nil =>
    rintro front ⟨⟩ hmem
    exact hsucc x (List.mem_singleton.mp hmem)
  | cons f pre ih =>
    obtain ⟨hf, hs'⟩ := List.pairwise_cons.mp hs
    have hnext : f + 1 ∉ f :: pre := h f rfl
    rw [List.dropWhile_cons]
    split
    · rename_i hx
      have hx : f + 1 = x := by simpa using hx
      refine ih (fun g hg => ?_) hs'
      have hgmem : g ∈ pre := List.mem_of_head? hg
      have hgx : g ≤ x := (List.pairwise_append.mp hs').2.2 g hgmem x (List.mem_singleton.mpr rfl)
      have hfx : f ≤ x := hf x (List.mem_append_right _ (List.mem_singleton.mpr rfl))
      have hgf : g = f := by
        rcases le_or_eq_of_le_succ hx hfx hgx with hle | heq
        · exact UInt32.le_antisymm hle (hf g (List.mem_append_left _ hgmem))
        · rw [hx, ← heq] at hnext
          exact absurd (List.mem_cons_of_mem _ hgmem) hnext
      rw [hgf]
      exact fun hmem => hnext (List.mem_cons_of_mem _ hmem)
    · rename_i hx
      rintro front ⟨⟩ hmem
      rcases List.mem_append.mp hmem with hmem | hmem
      · exact hnext hmem
      · exact hx (by simpa using List.mem_singleton.mp hmem)

theorem Settled.compressFrom {pre rest : List UInt32} (h : Settled pre)
    (hs : (pre ++ rest).Pairwise (· ≤ ·)) : Settled (compressFrom pre rest) := by
  induction rest generalizing pre with
  | nil => exact h
  | cons x rest ih =>
    rw [← List.singleton_append, ← List.append_assoc] at hs
    have hdrop := h.dropWhile (List.pairwise_append.mp hs).1
    obtain ⟨dropped, hdropped⟩ := List.dropWhile_suffix (l := pre) fun front => front + 1 == x
    have hsuffix : pre.dropWhile (fun front => front + 1 == x) ++ [x] ++ rest <:+
        pre ++ [x] ++ rest := by
      refine ⟨dropped, ?_⟩
      rw [← List.append_assoc, ← List.append_assoc, hdropped]
    exact ih hdrop (hs.sublist hsuffix.sublist)

theorem compress_settled {l : List UInt32} (hs : l.Pairwise (· ≤ ·)) : Settled (compress l) := by
  cases l with
  | nil => exact fun _ h => by cases h
  | cons front rest =>
    have hone : Settled [front] :=
      @Settled.dropWhile [] front (fun _ h => by cases h) (List.pairwise_singleton _ front)
    exact hone.compressFrom hs

/-- What goes off the front of a sorted list is at most the new front. -/
theorem mem_suffix_of_lt {l k : List UInt32} (hs : l.Pairwise (· ≤ ·)) (hk : k <:+ l)
    {front y : UInt32} (hfront : front ∈ k.head?) (hy : y ∈ l) (hlt : front < y) : y ∈ k := by
  obtain ⟨dropped, rfl⟩ := hk
  rcases List.mem_append.mp hy with hy | hy
  · have hle := (List.pairwise_append.mp hs).2.2 y hy front (List.mem_of_head? hfront)
    exact absurd hlt (UInt32.not_lt.mpr hle)
  · exact hy

/-- What the list says about the numbers that were reported. -/
structure Exact (reported : List UInt32) (w : Window) : Prop where
  acked : Acked (fun y => y = 0 ∨ y ∈ reported) w.xids
  kept : ∀ y ∈ reported, w.front < y → y ∈ w.xids
  settled : Settled w.xids

namespace Window

theorem head?_xids (w : Window) : w.xids.head? = some w.front := List.head?_eq_some_head w.nonempty

theorem exact_new : Exact [] new where
  acked := ⟨fun y hy => .inl (List.mem_singleton.mp hy), fun front hf y hy => by
    cases hf
    exact .inl (UInt32.le_zero_iff.mp hy)⟩
  kept := fun y hy => absurd hy List.not_mem_nil
  settled := by
    rintro front ⟨⟩
    decide

theorem exact_updateXidRep {reported : List UInt32} {w : Window} (h : Exact reported w)
    (xid : UInt32) : Exact (reported ++ [xid]) (w.updateXidRep xid) where
  acked := by
    refine acked_updateXidRep (h.acked.mono fun y hy => ?_) (.inr (List.mem_append_right _
      (List.mem_singleton.mpr rfl)))
    exact hy.imp_right (List.mem_append_left _)
  kept := by
    intro y hy hlt
    have hfront : w.front < y := UInt32.lt_of_le_of_lt (w.front_le_updateXidRep xid) hlt
    have hhead := (w.updateXidRep xid).head?_xids
    generalize (w.updateXidRep xid).front = front at hlt hhead
    unfold updateXidRep at hhead ⊢
    split at hhead
    · rename_i hle
      rw [if_pos hle]
      rcases List.mem_append.mp hy with hy | hy
      · exact h.kept y hy hfront
      · rw [List.mem_singleton.mp hy] at hfront
        exact absurd hfront (UInt32.not_lt.mpr hle)
    · rename_i hle
      rw [if_neg hle]
      refine mem_suffix_of_lt (insertXid_sorted w.sorted) (compress_suffix _) hhead ?_ hlt
      refine mem_insertXid.mpr ?_
      rcases List.mem_append.mp hy with hy | hy
      · exact .inr (h.kept y hy hfront)
      · exact .inl (List.mem_singleton.mp hy)
  settled := by
    unfold updateXidRep
    split
    · exact h.settled
    · exact compress_settled (insertXid_sorted w.sorted)

/-- The window after these calls of `update_xid_rep`. -/
def report (xids : List UInt32) : Window := xids.foldl updateXidRep new

theorem exact_foldl {reported : List UInt32} {w : Window} (h : Exact reported w)
    (xids : List UInt32) : Exact (reported ++ xids) (xids.foldl updateXidRep w) := by
  induction xids generalizing reported w with
  | nil => rwa [List.append_nil]
  | cons xid xids ih =>
    have hrest := ih (exact_updateXidRep h xid)
    rwa [List.append_assoc, List.singleton_append] at hrest

theorem exact_report (xids : List UInt32) : Exact xids (report xids) := exact_foldl exact_new xids

/-- All numbers up to the front were reported, and the one after it was not. -/
theorem isGreatest_front {reported : List UInt32} {w : Window} (h : Exact reported w) :
    IsGreatest {x | ∀ y, 1 ≤ y → y ≤ x → y ∈ reported} w.front := by
  constructor
  · intro y hpos hy
    refine (acked_below h.acked hy).resolve_left ?_
    rintro rfl
    exact absurd hpos (by decide)
  · intro x hx
    refine UInt32.not_lt.mp fun hlt => ?_
    rw [UInt32.lt_iff_toNat_lt] at hlt
    have hxlt := x.toNat_lt
    have hnext : (w.front + 1).toNat = w.front.toNat + 1 := by
      rw [UInt32.toNat_add, UInt32.toNat_one]
      omega
    have hmem : w.front + 1 ∈ reported := by
      refine hx _ ?_ ?_
      · rw [UInt32.le_iff_toNat_le, hnext, UInt32.toNat_one]
        omega
      · rw [UInt32.le_iff_toNat_le, hnext]
        omega
    refine h.settled w.front w.head?_xids (h.kept _ hmem ?_)
    rw [UInt32.lt_iff_toNat_lt, hnext]
    omega

theorem mem_tail_iff {reported : List UInt32} {w : Window} (h : Exact reported w) {y : UInt32}
    (hy : y ≠ w.front) : y ∈ w.xids.tail ↔ y ∈ reported ∧ w.front < y := by
  have hxids : y ∈ w.xids ↔ y ∈ w.xids.tail := by
    rw [xids_eq]
    simp [hy]
  rw [← hxids]
  constructor
  · intro hmem
    have hlt : w.front < y := UInt32.lt_of_le_of_ne (w.front_le hmem) (Ne.symm hy)
    refine ⟨(h.acked.mem y hmem).resolve_left ?_, hlt⟩
    rintro rfl
    exact UInt32.not_lt_zero hlt
  · exact fun hmem => h.kept y hmem.1 hmem.2

/-- For every sequence of calls of `update_xid_rep`: the list is not empty and sorted, its front is
the greatest number up to which all were reported, and behind the front are the reported numbers
that are larger, and perhaps the front once more. -/
theorem report_exact (xids : List UInt32) :
    (report xids).xids ≠ [] ∧ (report xids).xids.Pairwise (· ≤ ·) ∧
      IsGreatest {x | ∀ y, 1 ≤ y → y ≤ x → y ∈ xids} (report xids).front ∧
      ({y | y ∈ (report xids).xids.tail} = {y | y ∈ xids ∧ (report xids).front < y} ∨
        {y | y ∈ (report xids).xids.tail} =
          {y | (y ∈ xids ∧ (report xids).front < y) ∨ y = (report xids).front}) := by
  have hexact := exact_report xids
  refine ⟨(report xids).nonempty, (report xids).sorted, isGreatest_front hexact, ?_⟩
  have hself : ¬ ((report xids).front ∈ xids ∧ (report xids).front < (report xids).front) :=
    fun h => absurd h.2 (UInt32.lt_irrefl _)
  by_cases hfront : (report xids).front ∈ (report xids).xids.tail
  · refine .inr (Set.ext fun y => ?_)
    by_cases hy : y = (report xids).front
    · exact ⟨fun _ => .inr hy, fun _ => hy ▸ hfront⟩
    · exact (mem_tail_iff hexact hy).trans ⟨.inl, fun h => h.resolve_right hy⟩
  · refine .inl (Set.ext fun y => ?_)
    by_cases hy : y = (report xids).front
    · exact ⟨fun h => absurd (hy ▸ h) hfront, fun h => absurd (hy ▸ h) hself⟩
    · exact mem_tail_iff hexact hy

example : (report [2, 2, 1]).xids = [2, 2] := by decide

end Window
end Rpc
end Frangipani
