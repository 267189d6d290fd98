/-
Holes in the decided history.

The acceptor commits any instance above the highest one it knows, so it can skip
some.  A read of a skipped instance invents an empty value: a prepare request for
it is answered with that value as if it had been decided, and the view before the
next one has no members.

The history has no holes, and no such answer is given, exactly as long as every
commit is for the next instance, the view it follows names a member, and no
prepare request asks for instance 0, which nothing is ever committed for.
-/
import Frangipani.Paxos.History
import Frangipani.Paxos.Log
import Frangipani.Rsm.Config
import Frangipani.Transition.System

namespace Frangipani
namespace Rsm

open Paxos Transition

/-- An acceptor with its commits, and the instance and the value of each reply
that told a proposer of a decided instance. -/
structure Teller where
  history : History
  told : List (UInt32 × String)

namespace Teller

abbrev acceptor (s : Teller) : Acceptor := s.history.acceptor

/-- What the reply to a call tells of a decided instance. -/
def tells (a : Acceptor) : Acceptor.Op → List (UInt32 × String)
  | .preparereq arg =>
    if (a.preparereq arg).1.oldinstance then [(arg.inst, (a.preparereq arg).1.vA)] else []
  | _ => []

def serve (s : Teller) (op : Acceptor.Op) : Teller where
  history := s.history.serve op
  told := tells s.acceptor op ++ s.told

/-- The acceptor has values for exactly the instances up to the highest one, and
these were committed. -/
structure Start (s : Teller) : Prop where
  range : ∀ i, (s.acceptor.values.find i).isSome = true ↔ 1 ≤ i ∧ i ≤ s.acceptor.instanceH
  committed : ∀ p, p ∈ s.history.committed ↔ s.acceptor.values.find p.1 = some p.2
  told : s.told = []

def system : System Teller Acceptor.Op where
  init := Start
  step s op := some (s.serve op)

/-- Every view that has a successor among the views up to the highest one names a
member. -/
def PrevviewsNamed (s : Teller) : Prop :=
  ∀ c : Config, c.acc = s.acceptor → 1 < c.myvid → c.myvid ≤ s.acceptor.instanceH →
    c.getPrevview.1 ≠ []

structure NoHoles (s : Teller) : Prop where
  filled : ∀ i, 1 ≤ i → i ≤ s.acceptor.instanceH →
    (i, (s.acceptor.value i).1) ∈ s.history.committed
  told : ∀ p ∈ s.told, p ∈ s.history.committed
  prevviews : s.PrevviewsNamed

/-- A commit of the instance is ignored, or it is the next one and the view before
names a member. -/
def IsNext (s : Teller) (inst : UInt32) : Prop :=
  s.acceptor.instanceH < inst → inst = s.acceptor.instanceH + 1 ∧
    (s.acceptor.instanceH ≠ 0 → members (s.acceptor.value s.acceptor.instanceH).1 ≠ [])

def InSequence (s : Teller) : Acceptor.Op → Prop
  | .preparereq arg => arg.inst ≠ 0
  | .acceptreq _ => True
  | .decidereq arg => s.IsNext arg.inst
  | .commit inst _ => s.IsNext inst

instance (s : Teller) (inst : UInt32) : Decidable (s.IsNext inst) :=
  inferInstanceAs (Decidable (_ → _))

instance (s : Teller) : DecidablePred s.InSequence
  | .preparereq arg => inferInstanceAs (Decidable (arg.inst ≠ 0))
  | .acceptreq _ => inferInstanceAs (Decidable True)
  | .decidereq arg => inferInstanceAs (Decidable (s.IsNext arg.inst))
  | .commit inst _ => inferInstanceAs (Decidable (s.IsNext inst))

/-! ## The invariant -/

structure Inv (s : Teller) : Prop where
  kept : s.history.Kept
  positive : ∀ p ∈ s.history.committed, p.1 ≠ 0
  noHoles : s.NoHoles

theorem Start.inv {s : Teller} (h : s.Start) (hprev : s.PrevviewsNamed) : s.Inv := by
  have hrange : ∀ p ∈ s.history.committed, 1 ≤ p.1 ∧ p.1 ≤ s.acceptor.instanceH := by
    intro p hp
    refine (h.range p.1).mp ?_
    rw [(h.committed p).mp hp]
    rfl
  constructor
  · exact ⟨fun p hp => (hrange p hp).2, fun p hp => (h.committed p).mp hp⟩
  · intro p hp hzero
    have hle := (hrange p hp).1
    rw [hzero] at hle
    exact absurd hle (by decide)
  · refine ⟨fun i hi hle => ?_, fun p hp => ?_, hprev⟩
    · obtain ⟨v, hv⟩ := Option.isSome_iff_exists.mp ((h.range i).mpr ⟨hi, hle⟩)
      rw [Acceptor.value_of_find hv]
      exact (h.committed (i, v)).mpr hv
    · rw [h.told] at hp
      exact absurd hp List.not_mem_nil

theorem pred_le {k h : UInt32} (hone : 1 < k) (hle : k ≤ h) : k - 1 ≤ h := by
  have hsub := UInt32.toNat_sub_of_le _ _ (UInt32.le_of_lt hone)
  rw [UInt32.le_iff_toNat_le] at hle ⊢
  omega

theorem prevviewsNamed_iff {s : Teller} :
    s.PrevviewsNamed ↔ ∀ k, 1 < k → k ≤ s.acceptor.instanceH →
      members (s.acceptor.value (k - 1)).1 ≠ [] := by
  constructor
  · exact fun h k => h { acc := s.acceptor, myvid := k, mems := [] } rfl
  · intro h c hc hone hle
    show members (c.acc.value (c.myvid - 1)).1 ≠ []
    rw [hc]
    exact h c.myvid hone hle

/-- A call that commits nothing and tells only of what was committed. -/
theorem Inv.quiet {s : Teller} (h : s.Inv) {op : Acceptor.Op} (hnone : s.acceptor.commits op = [])
    (htells : ∀ p ∈ tells s.acceptor op, p ∈ s.history.committed) : (s.serve op).Inv := by
  have hext := Acceptor.serveOp_extends s.acceptor op
  have hinst := Acceptor.instanceH_of_commits_nil hnone
  have hcommitted : (s.serve op).history.committed = s.history.committed := by
    show s.acceptor.commits op ++ _ = _
    rw [hnone, List.nil_append]
  refine ⟨h.kept.serve op, ?_, ?_, ?_, ?_⟩
  · rw [hcommitted]
    exact h.positive
  · intro i hi hle
    have hle' : i ≤ s.acceptor.instanceH := hinst ▸ hle
    rw [hcommitted]
    show (i, ((s.acceptor.serveOp op).value i).1) ∈ _
    rw [hext.values i hle']
    exact h.noHoles.filled i hi hle'
  · rw [hcommitted]
    intro p hp
    rcases List.mem_append.mp hp with hp | hp
    · exact htells p hp
    · exact h.noHoles.told p hp
  · refine prevviewsNamed_iff.mpr fun k hone hle => ?_
    have hle' : k ≤ s.acceptor.instanceH := hinst ▸ hle
    show members ((s.acceptor.serveOp op).value (k - 1)).1 ≠ []
    rw [hext.values _ (pred_le hone hle')]
    exact prevviewsNamed_iff.mp h.noHoles.prevviews k hone hle'

/-- The instances up to the next one are those up to the highest one and it. -/
theorem le_of_le_next {h inst i : UInt32} (hnext : inst = h + 1) (hle : i ≤ inst)
    (hne : i ≠ inst) : i ≤ h := by
  have hlt : i < inst := UInt32.lt_of_le_of_ne hle hne
  rw [UInt32.lt_iff_toNat_lt] at hlt
  have hsucc : inst.toNat = (h.toNat + 1) % 2 ^ 32 := by rw [hnext, UInt32.toNat_add]; rfl
  rw [UInt32.le_iff_toNat_le]
  omega

theorem toNat_next {h inst : UInt32} (hnew : h < inst) : (h + 1).toNat = h.toNat + 1 := by
  have hlt := inst.toNat_lt
  rw [UInt32.lt_iff_toNat_lt] at hnew
  rw [UInt32.toNat_add]
  show (_ + 1) % 2 ^ 32 = _
  omega

theorem one_le_of_ne_zero {i : UInt32} (h : i ≠ 0) : 1 ≤ i := by
  have hne : i.toNat ≠ 0 := fun hzero => h (UInt32.toNat_inj.mp hzero)
  rw [UInt32.le_iff_toNat_le]
  exact Nat.one_le_iff_ne_zero.mpr hne

theorem Inv.commitWo_filled {s : Teller} (h : s.Inv) {inst : UInt32} (v : String)
    (hnew : s.acceptor.instanceH < inst) (hnext : inst = s.acceptor.instanceH + 1) {i : UInt32}
    (hi : 1 ≤ i) (hle : i ≤ inst) :
    (i, ((s.acceptor.commitWo inst v).value i).1) ∈ (inst, v) :: s.history.committed := by
  by_cases hne : i = inst
  · have hvalue : ((s.acceptor.commitWo inst v).value inst).1 = v := by
      rw [Acceptor.value_eq, Acceptor.commitWo_new v hnew]
      exact congrArg (Option.getD · "") (Map.find_insert_self ..)
    rw [hne, hvalue]
    exact List.mem_cons_self
  · have hle' := le_of_le_next hnext hle hne
    rw [(Acceptor.commitWo_extends s.acceptor inst v).values i hle']
    exact List.mem_cons_of_mem _ (h.noHoles.filled i hi hle')

theorem Inv.commitWo_prevviews {s : Teller} (h : s.Inv) {inst : UInt32} (v : String)
    (hnext : inst = s.acceptor.instanceH + 1)
    (hnamed : s.acceptor.instanceH ≠ 0 → members (s.acceptor.value s.acceptor.instanceH).1 ≠ [])
    {k : UInt32} (hone : 1 < k) (hle : k ≤ inst) :
    members ((s.acceptor.commitWo inst v).value (k - 1)).1 ≠ [] := by
  have hext := Acceptor.commitWo_extends s.acceptor inst v
  by_cases hne : k = inst
  · -- The view before the new one was the highest.
    have hbefore : k - 1 = s.acceptor.instanceH := by
      rw [hne, hnext, UInt32.add_sub_cancel]
    rw [hbefore, hext.values _ (UInt32.le_refl _)]
    refine hnamed fun hzero => ?_
    rw [hne, hnext, hzero] at hone
    exact absurd hone (by decide)
  · have hle' := le_of_le_next hnext hle hne
    rw [hext.values _ (pred_le hone hle')]
    exact prevviewsNamed_iff.mp h.noHoles.prevviews k hone hle'

theorem Inv.commitWo {s : Teller} (h : s.Inv) {inst : UInt32} (v : String)
    (hok : s.IsNext inst) : Inv { s with history := s.history.commitWo inst v } := by
  by_cases hnew : s.acceptor.instanceH < inst
  · obtain ⟨hnext, hnamed⟩ := hok hnew
    have hkept := h.kept.commitWo inst v
    have hinst : (s.acceptor.commitWo inst v).instanceH = inst := by
      rw [Acceptor.commitWo_new v hnew]
    rw [History.commitWo_new v hnew] at hkept ⊢
    refine ⟨hkept, ?_, ?_, ?_, ?_⟩
    · intro p hp
      rcases List.mem_cons.mp hp with rfl | hp
      · rintro rfl
        exact absurd hnew (UInt32.not_lt.mpr UInt32.zero_le)
      · exact h.positive p hp
    · exact fun i hi hle => h.commitWo_filled v hnew hnext hi (hinst ▸ hle)
    · exact fun p hp => List.mem_cons_of_mem _ (h.noHoles.told p hp)
    · exact prevviewsNamed_iff.mpr fun k hone hle =>
        h.commitWo_prevviews v hnext hnamed hone (hinst ▸ hle)
  · rw [History.commitWo_old v (UInt32.not_lt.mp hnew)]
    exact h

theorem Inv.serve {s : Teller} (h : s.Inv) {op : Acceptor.Op} (hok : s.InSequence op) :
    (s.serve op).Inv := by
  cases op with
  | preparereq arg =>
    refine h.quiet rfl fun p hp => ?_
    by_cases hold : arg.inst ≤ s.acceptor.instanceH
    · rw [tells, Acceptor.preparereq_old hold] at hp
      cases List.mem_singleton.mp hp
      exact h.noHoles.filled arg.inst (one_le_of_ne_zero hok) hold
    · have hnone : (s.acceptor.preparereq arg).1.oldinstance = false := by
        have hnew := UInt32.not_le.mp hold
        cases hgt : arg.n.gt s.acceptor.nH with
        | true => rw [Acceptor.preparereq_promised hnew hgt]
        | false => rw [Acceptor.preparereq_refused hnew hgt]
      rw [tells, hnone] at hp
      exact absurd hp List.not_mem_nil
  | acceptreq arg => exact h.quiet rfl fun p hp => absurd hp List.not_mem_nil
  | decidereq arg =>
    have hcommit := h.commitWo arg.v hok
    rw [← History.serve_decidereq] at hcommit
    exact hcommit
  | commit inst v => exact h.commitWo v hok

/-- A commit that skips an instance leaves a hole there, and one that follows a
view without members makes that the view before. -/
theorem Inv.not_noHoles_commitWo {s : Teller} (h : s.Inv) {inst : UInt32} (v : String)
    (hbad : ¬ s.IsNext inst) : ¬ NoHoles { s with history := s.history.commitWo inst v } := by
  intro hno
  refine hbad fun hnew => ?_
  have hext := Acceptor.commitWo_extends s.acceptor inst v
  have hinst : (s.acceptor.commitWo inst v).instanceH = inst := by
    rw [Acceptor.commitWo_new v hnew]
  rw [History.commitWo_new v hnew] at hno
  have hsucc := toNat_next hnew
  have hnext : inst = s.acceptor.instanceH + 1 := by
    by_contra hne
    have hone : 1 ≤ s.acceptor.instanceH + 1 := by
      rw [UInt32.le_iff_toNat_le, hsucc]
      exact Nat.le_add_left 1 _
    have hle : s.acceptor.instanceH + 1 ≤ (s.acceptor.commitWo inst v).instanceH := by
      rw [hinst, UInt32.le_iff_toNat_le, hsucc]
      exact UInt32.lt_iff_toNat_lt.mp hnew
    rcases List.mem_cons.mp (hno.filled _ hone hle) with heq | hmem
    · exact hne (congrArg Prod.fst heq).symm
    · have hbounded := h.kept.bounded _ hmem
      rw [UInt32.le_iff_toNat_le, hsucc] at hbounded
      exact absurd hbounded (Nat.not_succ_le_self _)
  refine ⟨hnext, fun hzero hnone => ?_⟩
  have hone : 1 < inst := by
    have hpos := one_le_of_ne_zero hzero
    exact UInt32.lt_of_le_of_lt hpos hnew
  refine hno.prevviews { acc := s.acceptor.commitWo inst v, myvid := inst, mems := [] } rfl hone
    (UInt32.le_of_eq hinst.symm) ?_
  show members ((s.acceptor.commitWo inst v).value (inst - 1)).1 = []
  rw [hnext, UInt32.add_sub_cancel, ← hnext, hext.values _ (UInt32.le_refl _)]
  exact hnone

theorem Inv.not_noHoles {s : Teller} (h : s.Inv) {op : Acceptor.Op} (hbad : ¬ s.InSequence op) :
    ¬ (s.serve op).NoHoles := by
  cases op with
  | preparereq arg =>
    have hzero : arg.inst = 0 := not_not.mp hbad
    have hold : arg.inst ≤ s.acceptor.instanceH := by rw [hzero]; exact UInt32.zero_le
    intro hno
    have htold : (arg.inst, (s.acceptor.value arg.inst).1) ∈ (s.serve (.preparereq arg)).told := by
      refine List.mem_append_left _ ?_
      rw [tells, Acceptor.preparereq_old hold]
      exact List.mem_singleton.mpr rfl
    exact h.positive _ (hno.told _ htold) hzero
  | acceptreq arg => exact absurd trivial hbad
  | decidereq arg =>
    have hcommit := h.not_noHoles_commitWo arg.v hbad
    rw [← History.serve_decidereq] at hcommit
    exact fun hno => hcommit ⟨hno.filled, hno.told, hno.prevviews⟩
  | commit inst v =>
    exact fun hno => h.not_noHoles_commitWo v hbad ⟨hno.filled, hno.told, hno.prevviews⟩

/-- Let an acceptor start with values for exactly the instances up to its highest
one.  In every run of calls its history has no holes in any state, every reply
that tells of a decided instance tells what was committed, and no view before
another is empty, if and only if the views before the first ones name a member
and every call of the run is in sequence. -/
theorem noHoles_iff (s : Teller) (hs : s.Start) (ops : List Acceptor.Op) :
    system.AlongRun NoHoles s ops ↔ s.PrevviewsNamed ∧ system.StepsMeet InSequence s ops := by
  have hrun : s.PrevviewsNamed →
      (system.AlongRun NoHoles s ops ↔ system.StepsMeet InSequence s ops) := by
    intro hprev
    refine System.alongRun_iff_stepsMeet (fun _ => Inv.noHoles) ?_ ?_ (hs.inv hprev)
    · rintro s op t hinv hok ⟨⟩
      exact hinv.serve hok
    · rintro s op t hinv hbad ⟨⟩
      exact hinv.not_noHoles hbad
  constructor
  · intro halong
    have hfirst : s.NoHoles := by
      cases ops with
      | nil => exact halong
      | cons op ops => exact halong.1
    exact ⟨hfirst.prevviews, (hrun hfirst.prevviews).mp halong⟩
  · rintro ⟨hprev, hmeet⟩
    exact (hrun hprev).mpr hmeet

/-- The first node of a group in its first view. -/
def founding : Teller where
  history := { acceptor := .fresh true "3001" "3001", committed := [(1, "3001")] }
  told := []

theorem founding_start : founding.Start where
  range i := by
    show ((Map.empty.insert 1 "3001").find i).isSome = true ↔ 1 ≤ i ∧ i ≤ 1
    by_cases hi : i = 1
    · subst hi
      decide
    · rw [Map.find_insert_ne _ _ hi, Map.find_empty]
      exact ⟨fun h => absurd h Bool.false_ne_true,
        fun h => absurd (UInt32.le_antisymm h.2 h.1) hi⟩
  committed p := by
    show p ∈ [(1, "3001")] ↔ (Map.empty.insert 1 "3001").find p.1 = some p.2
    rw [List.mem_singleton]
    by_cases hi : p.1 = 1
    · rw [hi, Map.find_insert_self]
      exact ⟨fun h => by rw [h], fun h => Prod.ext hi (Option.some.inj h).symm⟩
    · rw [Map.find_insert_ne _ _ hi, Map.find_empty]
      exact ⟨fun h => absurd (congrArg Prod.fst h) hi,
        fun h => absurd h.symm (Option.some_ne_none _)⟩
  told := rfl

theorem noHoles_founding :
    system.AlongRun NoHoles founding
      [.decidereq { inst := 2, v := "3001 3002" },
        .preparereq { inst := 1, n := { n := 1, m := "3002" }, v := "" },
        .commit 3 "3001"] := by
  refine (noHoles_iff founding founding_start _).mpr ⟨?_, by decide +kernel⟩
  intro c _ hone hle
  exact absurd hone (UInt32.not_lt.mpr hle)

/-- The decide message of the second view is lost and that of the third arrives.
Then a proposer asks for the second. -/
def lostDecide : List Acceptor.Op :=
  [.decidereq { inst := 3, v := "3001 3003" },
    .preparereq { inst := 2, n := { n := 1, m := "3002" }, v := "" }]

theorem lostDecide_not_noHoles :
    (system.run founding lostDecide).map (fun s => (s.acceptor.instanceH, s.told)) =
      some (3, [(2, "")]) ∧
    (system.run founding lostDecide).map (fun s => s.history.committed) =
      some [(3, "3001 3003"), (1, "3001")] ∧
    (system.run founding lostDecide).map (fun s => (Config.create s.acceptor).getPrevview.1) =
      some [] ∧
    ¬ system.AlongRun NoHoles founding lostDecide := by
  refine ⟨by decide +kernel, by decide +kernel, by decide +kernel, ?_⟩
  intro h
  exact absurd ((h.final (by decide)).told (2, "") (by decide)) (by decide)

end Teller
end Rsm
end Frangipani
