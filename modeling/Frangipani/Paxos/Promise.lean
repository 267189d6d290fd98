/-
Promises.

An accepted prepare for an instance promises that no accept request of that
instance with a smaller ballot will be accepted.  The acceptor keeps one promised
ballot for all instances, and a commit resets it, whichever instance is
committed.  So a promise for a later instance is lost when an earlier one is
committed after it.

Every handler other than a commit only raises the promised ballot.  The promises
are kept in every state of a run exactly as long as no commit of the run resets a
promise that was made for a later instance.
-/
import Frangipani.Paxos.Log
import Frangipani.Transition.System

namespace Frangipani
namespace Paxos

open Transition

/-- An acceptor, with the instance and the ballot of each prepare it has
accepted. -/
structure Promiser where
  acceptor : Acceptor
  promises : List (UInt32 × PropT)

namespace Promiser

/-- The promise that serving a call makes. -/
def made (a : Acceptor) : Acceptor.Op → List (UInt32 × PropT)
  | .preparereq arg => if (a.preparereq arg).1.accept then [(arg.inst, arg.n)] else []
  | _ => []

def serve (s : Promiser) (op : Acceptor.Op) : Promiser where
  acceptor := s.acceptor.serveOp op
  promises := made s.acceptor op ++ s.promises

/-- An acceptor that has made no promise yet, in any state. -/
def start (a : Acceptor) : Promiser := { acceptor := a, promises := [] }

def system : System Promiser Acceptor.Op where
  init s := s.promises = []
  step s op := some (s.serve op)

/-- An accept request for the instance of a promise with a smaller ballot is
refused. -/
def KeepsPromises (s : Promiser) : Prop :=
  ∀ p ∈ s.promises, ∀ arg : AcceptArg, arg.inst = p.1 → p.2.gt arg.n = true →
    (s.acceptor.acceptreq arg).1 = false

/-- The ballot that a commit resets the promise to. -/
def resetBallot (s : Promiser) : PropT := { n := 0, m := s.acceptor.me }

/-- A commit of the instance is ignored, or no promise for a later instance is
above the ballot that the commit resets the promise to. -/
def Spares (s : Promiser) (inst : UInt32) : Prop :=
  s.acceptor.instanceH < inst → ∀ p ∈ s.promises, inst < p.1 → p.2.gt s.resetBallot = false

def CommitsSpare (s : Promiser) : Acceptor.Op → Prop
  | .decidereq arg => s.Spares arg.inst
  | .commit inst _ => s.Spares inst
  | _ => True

/-! ## The promised ballot covers the promises -/

/-- Every promise is for a decided instance or at most the promised ballot. -/
def Covered (s : Promiser) : Prop :=
  ∀ p ∈ s.promises, p.1 ≤ s.acceptor.instanceH ∨ p.2 ≤ s.acceptor.nH

theorem Covered.keepsPromises {s : Promiser} (h : s.Covered) : s.KeepsPromises := by
  intro p hp arg hinst hgt
  refine congrArg Prod.fst (Acceptor.acceptreq_refused ?_)
  rintro ⟨hnew, hge⟩
  rcases h p hp with hold | hle
  · rw [hinst] at hnew
    exact absurd hnew (UInt32.not_lt.mpr hold)
  · have hlt : arg.n < p.2 := PropT.gt_iff.mp hgt
    exact absurd (hle.trans (PropT.ge_iff.mp hge)) (not_le.mpr hlt)

/-- The promised ballot itself would be accepted, so a promise above it for an
open instance is broken. -/
theorem KeepsPromises.covered {s : Promiser} (h : s.KeepsPromises) : s.Covered := by
  intro p hp
  by_contra hno
  rw [not_or, UInt32.not_le, not_le] at hno
  have hrefused := h p hp { inst := p.1, n := s.acceptor.nH, v := "" } rfl
    (PropT.gt_iff.mpr hno.2)
  have hge : s.acceptor.nH.ge s.acceptor.nH = true := PropT.ge_iff.mpr le_rfl
  rw [Acceptor.acceptreq_accepted hno.1 hge] at hrefused
  cases hrefused

theorem serve_preparereq {s : Promiser} {arg : PrepareArg} {res : PrepareRes} {b : Acceptor}
    (h : s.acceptor.preparereq arg = (res, b)) :
    s.serve (.preparereq arg) =
      { acceptor := b
        promises := (if res.accept then [(arg.inst, arg.n)] else []) ++ s.promises } := by
  simp only [serve, made, Acceptor.serveOp, h]

theorem Covered.preparereq {s : Promiser} (h : s.Covered) (arg : PrepareArg) :
    (s.serve (.preparereq arg)).Covered := by
  by_cases hold : arg.inst ≤ s.acceptor.instanceH
  · rw [serve_preparereq (Acceptor.preparereq_old hold)]
    exact h
  · have hnew := UInt32.not_le.mp hold
    cases hgt : arg.n.gt s.acceptor.nH with
    | false =>
      rw [serve_preparereq (Acceptor.preparereq_refused hnew hgt)]
      exact h
    | true =>
      rw [serve_preparereq (Acceptor.preparereq_promised hnew hgt)]
      intro p hp
      rcases List.mem_cons.mp hp with rfl | hp
      · exact Or.inr le_rfl
      · exact (h p hp).imp_right fun hle => hle.trans (PropT.gt_iff.mp hgt).le

theorem Covered.acceptreq {s : Promiser} (h : s.Covered) (arg : AcceptArg) :
    (s.serve (.acceptreq arg)).Covered := by
  show Covered { s with acceptor := (s.acceptor.acceptreq arg).2 }
  by_cases hacc : s.acceptor.instanceH < arg.inst ∧ arg.n.ge s.acceptor.nH = true
  · rw [Acceptor.acceptreq_accepted hacc.1 hacc.2]
    exact fun p hp => (h p hp).imp_right fun hle => hle.trans (PropT.ge_iff.mp hacc.2)
  · rw [Acceptor.acceptreq_refused hacc]
    exact h

/-- A commit keeps the promises for instances up to its own by closing them. -/
theorem Covered.commitWo {s : Promiser} (h : s.Covered) {inst : UInt32} (v : String)
    (hok : s.Spares inst) :
    Covered { s with acceptor := s.acceptor.commitWo inst v } := by
  by_cases hnew : s.acceptor.instanceH < inst
  · rw [Acceptor.commitWo_new v hnew]
    intro p hp
    by_cases hlater : inst < p.1
    · refine Or.inr (not_lt.mp fun hlt => ?_)
      exact absurd (PropT.gt_iff.mpr hlt) (Bool.eq_false_iff.mp (hok hnew p hp hlater))
    · exact Or.inl (UInt32.not_lt.mp hlater)
  · rw [Acceptor.commitWo_old v (UInt32.not_lt.mp hnew)]
    exact h

theorem not_covered_commitWo {s : Promiser} {inst : UInt32} (v : String)
    (hbad : ¬ s.Spares inst) :
    ¬ Covered { s with acceptor := s.acceptor.commitWo inst v } := by
  intro hcovered
  refine hbad fun hnew p hp hlater => ?_
  rw [Acceptor.commitWo_new v hnew] at hcovered
  rcases hcovered p hp with hle | hle
  · exact absurd hlater (UInt32.not_lt.mpr hle)
  · rw [Bool.eq_false_iff]
    exact fun hgt => absurd (PropT.gt_iff.mp hgt) (not_lt.mpr hle)

theorem Covered.serve {s : Promiser} {op : Acceptor.Op} (h : s.Covered) (hok : s.CommitsSpare op) :
    (s.serve op).Covered := by
  cases op with
  | preparereq arg => exact h.preparereq arg
  | acceptreq arg => exact h.acceptreq arg
  | decidereq arg =>
    have hcommit := h.commitWo arg.v hok
    rw [← Acceptor.decidereq_snd] at hcommit
    exact hcommit
  | commit inst v => exact h.commitWo v hok

theorem not_covered_serve {s : Promiser} {op : Acceptor.Op} (hbad : ¬ s.CommitsSpare op) :
    ¬ (s.serve op).Covered := by
  cases op with
  | decidereq arg =>
    have hcommit := not_covered_commitWo arg.v hbad
    rw [← Acceptor.decidereq_snd] at hcommit
    exact hcommit
  | commit inst v => exact not_covered_commitWo v hbad
  | preparereq | acceptreq => exact absurd trivial hbad

/-- In every run of an acceptor, from any state and without restarts, all
promises made so far are kept in every state, if and only if no commit along the
run resets a promise for a later instance. -/
theorem keepsPromises_iff (a : Acceptor) (ops : List Acceptor.Op) :
    system.AlongRun KeepsPromises (start a) ops ↔ system.StepsMeet CommitsSpare (start a) ops := by
  refine System.alongRun_iff_stepsMeet (fun _ => Covered.keepsPromises) ?_ ?_
    (fun p hp => absurd hp List.not_mem_nil)
  · rintro s op t hcov hok ⟨⟩
    exact hcov.serve hok
  · rintro s op t hcov hbad ⟨⟩ hkeeps
    exact not_covered_serve hbad hkeeps.covered

/-- An acceptor that has decided instance 1 promises a ballot for instance 3, and
then learns the value of instance 2. -/
def lateDecide : List Acceptor.Op :=
  [.preparereq { inst := 3, n := { n := 5, m := "3002" }, v := "" },
    .decidereq { inst := 2, v := "3001 3002" }]

theorem lateDecide_not_keepsPromises :
    ((Acceptor.fresh true "3001" "3001").preparereq
      { inst := 3, n := { n := 5, m := "3002" }, v := "" }).1.accept = true ∧
    ((system.final (start (.fresh true "3001" "3001")) lateDecide).acceptor.acceptreq
      { inst := 3, n := { n := 1, m := "3003" }, v := "3001" }).1 = true ∧
    ¬ system.AlongRun KeepsPromises (start (.fresh true "3001" "3001")) lateDecide := by
  refine ⟨by decide, by decide, ?_⟩
  intro h
  have hafter := h.final (by decide)
  have hrefused := hafter (3, { n := 5, m := "3002" }) (by decide)
    { inst := 3, n := { n := 1, m := "3003" }, v := "3001" } rfl (by decide)
  exact absurd hrefused (by decide)

end Promiser
end Paxos
end Frangipani
