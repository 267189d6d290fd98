/-
The commits of an acceptor.

`History` is an acceptor with everything that was committed on it so far.  What
was committed for an instance stays the value of that instance, whatever calls
follow: a later commit has a larger instance, and a look-up enters a default only
where nothing is.
-/
import Frangipani.Paxos.Acceptor

namespace Frangipani
namespace Paxos

/-- Commits are compared by instance and value. -/
instance decidableMemCommits (p : UInt32 × String) (ps : List (UInt32 × String)) :
    Decidable (p ∈ ps) :=
  List.instDecidableMemOfLawfulBEq p ps

namespace Acceptor

/-- No decision of `a` is undone in `b`. -/
structure Extends (a b : Acceptor) : Prop where
  instanceH : a.instanceH ≤ b.instanceH
  values : ∀ i, i ≤ a.instanceH → (b.value i).1 = (a.value i).1

theorem Extends.refl (a : Acceptor) : a.Extends a := ⟨UInt32.le_refl _, fun _ _ => rfl⟩

theorem Extends.trans {a b c : Acceptor} (hab : a.Extends b) (hbc : b.Extends c) : a.Extends c where
  instanceH := UInt32.le_trans hab.instanceH hbc.instanceH
  values i hi := (hbc.values i (UInt32.le_trans hi hab.instanceH)).trans (hab.values i hi)

theorem commitWo_extends (a : Acceptor) (inst : UInt32) (v : String) :
    a.Extends (a.commitWo inst v) := by
  by_cases hnew : a.instanceH < inst
  · rw [commitWo_new v hnew]
    refine ⟨UInt32.le_of_lt hnew, fun i hi => ?_⟩
    have hne : i ≠ inst := by
      rintro rfl
      exact absurd hnew (UInt32.not_lt.mpr hi)
    rw [value_eq, value_eq]
    exact congrArg (Option.getD · "") (Map.find_insert_ne _ _ hne)
  · rw [commitWo_old v (UInt32.not_lt.mp hnew)]
    exact .refl a

theorem serveOp_extends (a : Acceptor) (op : Op) : a.Extends (a.serveOp op) := by
  cases op with
  | preparereq arg =>
    show a.Extends (a.preparereq arg).2
    rcases preparereq_snd a arg with h | h | h <;> rw [h]
    · exact ⟨UInt32.le_refl _, fun i _ => value_value a arg.inst i⟩
    · exact ⟨UInt32.le_refl _, fun _ _ => rfl⟩
    · exact .refl a
  | acceptreq arg =>
    show a.Extends (a.acceptreq arg).2
    by_cases hacc : a.instanceH < arg.inst ∧ arg.n.ge a.nH = true
    · rw [acceptreq_accepted hacc.1 hacc.2]
      exact ⟨UInt32.le_refl _, fun _ _ => rfl⟩
    · rw [acceptreq_refused hacc]
      exact .refl a
  | decidereq arg =>
    show a.Extends (a.decidereq arg).2
    rw [decidereq_snd]
    exact commitWo_extends a arg.inst arg.v
  | commit inst v => exact commitWo_extends a inst v

/-- What a call commits is above everything before, and is the highest instance
after it. -/
theorem mem_commits {a : Acceptor} {op : Op} {p : UInt32 × String}
    (h : p ∈ a.commits op) : a.instanceH < p.1 ∧ (a.serveOp op).instanceH = p.1 := by
  cases op with
  | preparereq | acceptreq => exact absurd h List.not_mem_nil
  | decidereq arg =>
    rw [commits] at h
    split at h
    · rename_i hnew
      cases List.mem_singleton.mp h
      refine ⟨hnew, ?_⟩
      show (a.decidereq arg).2.instanceH = arg.inst
      rw [decidereq_snd, commitWo_new arg.v hnew]
    · exact absurd h List.not_mem_nil
  | commit inst v =>
    rw [commits] at h
    split at h
    · rename_i hnew
      cases List.mem_singleton.mp h
      refine ⟨hnew, ?_⟩
      show (a.commitWo inst v).instanceH = inst
      rw [commitWo_new v hnew]
    · exact absurd h List.not_mem_nil

theorem instanceH_of_commits_nil {a : Acceptor} {op : Op} (h : a.commits op = []) :
    (a.serveOp op).instanceH = a.instanceH := by
  cases op with
  | preparereq arg =>
    show (a.preparereq arg).2.instanceH = _
    rcases preparereq_snd a arg with hreq | hreq | hreq <;> rw [hreq]
    rfl
  | acceptreq arg =>
    show (a.acceptreq arg).2.instanceH = _
    by_cases hacc : a.instanceH < arg.inst ∧ arg.n.ge a.nH = true
    · rw [acceptreq_accepted hacc.1 hacc.2]
    · rw [acceptreq_refused hacc]
  | decidereq arg =>
    show (a.decidereq arg).2.instanceH = _
    rw [commits] at h
    split at h
    · cases h
    · rename_i hold
      rw [decidereq_snd, commitWo_old arg.v (UInt32.not_lt.mp hold)]
  | commit inst v =>
    show (a.commitWo inst v).instanceH = _
    rw [commits] at h
    split at h
    · cases h
    · rename_i hold
      rw [commitWo_old v (UInt32.not_lt.mp hold)]

end Acceptor

/-- An acceptor, with the instance and the value of each commit that took
effect. -/
structure History where
  acceptor : Acceptor
  committed : List (UInt32 × String)

namespace History

def serve (h : History) (op : Acceptor.Op) : History where
  acceptor := h.acceptor.serveOp op
  committed := h.acceptor.commits op ++ h.committed

/-- What was committed is what the acceptor has. -/
structure Kept (h : History) : Prop where
  bounded : ∀ p ∈ h.committed, p.1 ≤ h.acceptor.instanceH
  found : ∀ p ∈ h.committed, h.acceptor.values.find p.1 = some p.2

theorem Kept.mono {a : Acceptor} {ps qs : List (UInt32 × String)}
    (h : Kept { acceptor := a, committed := ps }) (hsub : ∀ p ∈ qs, p ∈ ps) :
    Kept { acceptor := a, committed := qs } :=
  ⟨fun p hp => h.bounded p (hsub p hp), fun p hp => h.found p (hsub p hp)⟩

theorem find_value {a : Acceptor} {i inst : UInt32} {v : String} (h : a.values.find i = some v) :
    (a.value inst).2.values.find i = some v := by
  show (a.values.index inst "").2.find i = some v
  unfold Map.index
  cases hfind : a.values.find inst with
  | some w => exact h
  | none =>
    have hne : i ≠ inst := by
      rintro rfl
      rw [h] at hfind
      cases hfind
    exact (Map.find_insert_ne _ _ hne).trans h

theorem Kept.value {a : Acceptor} {ps : List (UInt32 × String)}
    (h : Kept { acceptor := a, committed := ps }) (inst : UInt32) :
    Kept { acceptor := (a.value inst).2, committed := ps } :=
  ⟨h.bounded, fun p hp => find_value (h.found p hp)⟩

/-- The history after a commit that may or may not take effect. -/
def commitWo (h : History) (inst : UInt32) (v : String) : History where
  acceptor := h.acceptor.commitWo inst v
  committed := (if h.acceptor.instanceH < inst then [(inst, v)] else []) ++ h.committed

theorem serve_decidereq (h : History) (arg : DecideArg) :
    h.serve (.decidereq arg) = h.commitWo arg.inst arg.v := by
  unfold serve commitWo
  rw [← Acceptor.decidereq_snd]
  rfl

theorem commitWo_new {h : History} {inst : UInt32} (v : String)
    (hnew : h.acceptor.instanceH < inst) :
    h.commitWo inst v =
      { acceptor := h.acceptor.commitWo inst v, committed := (inst, v) :: h.committed } := by
  unfold commitWo
  rw [if_pos hnew]
  rfl

theorem commitWo_old {h : History} {inst : UInt32} (v : String)
    (hold : inst ≤ h.acceptor.instanceH) : h.commitWo inst v = h := by
  unfold commitWo
  rw [if_neg (UInt32.not_lt.mpr hold), Acceptor.commitWo_old v hold]
  rfl

theorem Kept.commitWo {h : History} (hk : h.Kept) (inst : UInt32) (v : String) :
    (h.commitWo inst v).Kept := by
  by_cases hnew : h.acceptor.instanceH < inst
  · rw [commitWo_new v hnew, Acceptor.commitWo_new v hnew]
    constructor
    · intro p hp
      rcases List.mem_cons.mp hp with rfl | hmem
      · exact UInt32.le_refl _
      · exact UInt32.le_of_lt (UInt32.lt_of_le_of_lt (hk.bounded p hmem) hnew)
    · intro p hp
      rcases List.mem_cons.mp hp with rfl | hmem
      · exact Map.find_insert_self ..
      · have hne : p.1 ≠ inst := by
          rintro rfl
          exact absurd hnew (UInt32.not_lt.mpr (hk.bounded p hmem))
        exact (Map.find_insert_ne _ _ hne).trans (hk.found p hmem)
  · rw [commitWo_old v (UInt32.not_lt.mp hnew)]
    exact hk

theorem Kept.serve {h : History} (hk : h.Kept) (op : Acceptor.Op) : (h.serve op).Kept := by
  cases op with
  | preparereq arg =>
    show Kept { acceptor := (h.acceptor.preparereq arg).2, committed := h.committed }
    rcases Acceptor.preparereq_snd h.acceptor arg with hreq | hreq | hreq <;> rw [hreq]
    · exact hk.value arg.inst
    · exact ⟨hk.bounded, hk.found⟩
    · exact hk
  | acceptreq arg =>
    show Kept { acceptor := (h.acceptor.acceptreq arg).2, committed := h.committed }
    by_cases hacc : h.acceptor.instanceH < arg.inst ∧ arg.n.ge h.acceptor.nH = true
    · rw [Acceptor.acceptreq_accepted hacc.1 hacc.2]
      exact ⟨hk.bounded, hk.found⟩
    · rw [Acceptor.acceptreq_refused hacc]
      exact hk
  | decidereq arg =>
    rw [serve_decidereq]
    exact hk.commitWo arg.inst arg.v
  | commit inst v => exact hk.commitWo inst v

end History
end Paxos
end Frangipani
