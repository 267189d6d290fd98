/-
The primary of a view.

A replica names a primary when a view is installed.  The primary stays when it is
a member of the new view, and otherwise the lowest node of the view before takes
over, so the primary depends on every view since the last one it was named in.

`set_primary` looks at the current view and the one before only.  A replica that
does not go through all views, because it missed a decide message or because two
views were installed before `set_primary` ran, keeps a primary that others have
replaced.  Replicas agree on the primary of a view as long as they call
`set_primary` in each view, or the primary is a member of all views they leave out.

A step of a replica is a decide message up to its upcall, an upcall, or one of the
two stretches of `set_primary` between its reads of the configuration.  A failed
assertion ends the replica.
-/
import Mathlib.Data.List.Sort
import Frangipani.Paxos.History
import Frangipani.Paxos.Log
import Frangipani.Rsm.Config
import Frangipani.Rsm.Propose

namespace Frangipani
namespace Rsm

open Text Paxos Transition

/-! ## Choosing a primary -/

/-- The number that a node name stands for. -/
def nodeNumber (m : String) : UInt64 := ((IStream.ofChars m.toList).getULongLong 0).1

def nodeName (n : UInt64) : String := String.ofList (decimal64 n)

/-- The choice that `set_primary` makes from the current view and the one before.
The result is `none` when an assertion fails. -/
def setPrimary (primary : String) (c p : List String) : Option String :=
  if c.isEmpty then none
  else if isamember primary c then some primary
  else if p.isEmpty then none
  else
    let memsi := (p.map nodeNumber).insertionSort (· ≤ ·)
    (memsi.map nodeName).find? fun m => isamember m c

theorem setPrimary_of_mem {primary : String} {c : List String} (p : List String)
    (h : isamember primary c = true) : setPrimary primary c p = some primary := by
  have hne : c.isEmpty = false := by
    cases c with
    | nil => cases h
    | cons m ms => rfl
  unfold setPrimary
  rw [hne, h]
  rfl

theorem setPrimary_of_not_mem {primary m : String} {c p : List String}
    (hprimary : isamember primary c = false) (hm : m ∈ p) (hmc : m ∈ c) :
    setPrimary primary c p =
      (((p.map nodeNumber).insertionSort (· ≤ ·)).map nodeName).find? fun q => isamember q c := by
  have hc : c.isEmpty = false := List.isEmpty_eq_false_iff_exists_mem.mpr ⟨m, hmc⟩
  have hp : p.isEmpty = false := List.isEmpty_eq_false_iff_exists_mem.mpr ⟨m, hm⟩
  unfold setPrimary
  rw [hc, hp, hprimary]
  rfl

/-- A member of both views that prints as itself is found, if no other is. -/
theorem setPrimary_isSome (primary : String) {m : String} {c p : List String} (hm : m ∈ p)
    (hmc : m ∈ c) (hname : nodeName (nodeNumber m) = m) :
    (setPrimary primary c p).isSome = true := by
  cases hprimary : isamember primary c with
  | true =>
    rw [setPrimary_of_mem p hprimary]
    rfl
  | false =>
    rw [setPrimary_of_not_mem hprimary hm hmc]
    refine List.find?_isSome.mpr ⟨m, List.mem_map.mpr ⟨nodeNumber m, ?_, hname⟩, ?_⟩
    · exact (List.mem_insertionSort _).mpr (List.mem_map_of_mem hm)
    · exact List.contains_iff_mem.mpr hmc

/-! ## Replicas -/

/-- A replica.  `curview` is the view that `set_primary` has read, with its
number, and `named` is the view in which `set_primary` has last chosen. -/
structure Replica where
  config : Config
  pending : List (UInt32 × String)
  curview : Option (UInt32 × List String)
  primary : String
  named : UInt32

inductive ReplicaAction
  | decide (inst : UInt32)
  | upcall (p : UInt32 × String)
  | readCurview
  | readPrevview
  deriving DecidableEq, Repr

namespace Replica

/-- The decide message of an instance is handled. -/
def decidereq (views : UInt32 → String) (s : Replica) (inst : UInt32) : Replica :=
  let op : Acceptor.Op := .decidereq { inst := inst, v := views inst }
  { s with
    config := { s.config with acc := s.config.acc.serveOp op }
    pending := s.config.acc.commits op ++ s.pending }

def upcall (s : Replica) (p : UInt32 × String) : Replica :=
  { s with config := s.config.paxosCommit p.1 p.2, pending := s.pending.erase p }

def readCurview (s : Replica) : Replica :=
  { s with
    config := s.config.getCurview.2
    curview := some (s.config.myvid, s.config.getCurview.1) }

/-- The second read of `set_primary`, and the choice. -/
def readPrevview (s : Replica) (cur : UInt32 × List String) : Option Replica :=
  (setPrimary s.primary cur.2 s.config.getPrevview.1).map fun primary =>
    { s with
      config := s.config.getPrevview.2, curview := none, primary := primary, named := cur.1 }

section

-- The views that were agreed on, and where the replicas start.
variable (views : UInt32 → String) (vid : UInt32) (primary : String)

/-- A replica that is in view `vid` and has chosen its primary there. -/
structure Start (s : Replica) : Prop where
  instanceH : s.config.acc.instanceH = vid
  value : s.config.acc.values.find vid = some (views vid)
  myvid : s.config.myvid = vid
  pending : s.pending = []
  curview : s.curview = none
  primary : s.primary = primary
  named : s.named = vid

def step (s : Replica) : ReplicaAction → Option Replica
  | .decide inst => some (s.decidereq views inst)
  | .upcall p => if p ∈ s.pending then some (s.upcall p) else none
  | .readCurview => if s.curview.isNone then some s.readCurview else none
  | .readPrevview => s.curview.bind s.readPrevview

def system : System Replica ReplicaAction where
  init := Start views vid primary
  step := step views

def between (a b : UInt32) : List UInt32 :=
  (List.range (b.toNat - a.toNat - 1)).map fun j => UInt32.ofNat (a.toNat + 1 + j)

/-- `set_primary` chooses in the view after the one it has chosen in before, and
reads both, or the primary is a member of this view and of those it leaves out. -/
def GoesThrough (s : Replica) : ReplicaAction → Prop
  | .readPrevview => ∀ cur ∈ s.curview,
      (cur.1.toNat = s.named.toNat + 1 ∧ s.config.myvid = cur.1) ∨
      (s.named ≤ cur.1 ∧ isamember s.primary cur.2 = true ∧
        ∀ k ∈ between s.named cur.1, isamember s.primary (members (views k)) = true)
  | _ => True

instance (s : Replica) : DecidablePred (s.GoesThrough views)
  | .decide _ => inferInstanceAs (Decidable True)
  | .upcall _ => inferInstanceAs (Decidable True)
  | .readCurview => inferInstanceAs (Decidable True)
  | .readPrevview => inferInstanceAs (Decidable (∀ cur ∈ s.curview,
      (cur.1.toNat = s.named.toNat + 1 ∧ s.config.myvid = cur.1) ∨
      (s.named ≤ cur.1 ∧ isamember s.primary cur.2 = true ∧
        ∀ k ∈ between s.named cur.1, isamember s.primary (members (views k)) = true)))

/-- The views, counted from the one the replicas start in. -/
def viewAt (n : Nat) : List String := members (views (UInt32.ofNat (vid.toNat + n)))

/-- The primary of each view for a replica that goes through all of them. -/
def primaryAt : Nat → Option String
  | 0 => some primary
  | n + 1 =>
    (primaryAt n).bind fun q => setPrimary q (viewAt views vid (n + 1)) (viewAt views vid n)

end

variable {views : UInt32 → String} {vid : UInt32} {primary : String}

/-- A primary that is a member of all later views remains the primary. -/
theorem primaryAt_stays {n m : Nat} {q : String} (hn : primaryAt views vid primary n = some q)
    (hle : n ≤ m) (h : ∀ j, n < j → j ≤ m → isamember q (viewAt views vid j) = true) :
    primaryAt views vid primary m = some q := by
  induction m, hle using Nat.le_induction with
  | base => exact hn
  | succ m hle ih =>
    have hm := ih fun j hj hjm => h j hj (Nat.le_succ_of_le hjm)
    rw [primaryAt, hm]
    exact setPrimary_of_mem _ (h (m + 1) (Nat.lt_succ_of_le hle) (Nat.le_refl _))

/-! ## The invariant -/

abbrev agreedAt (views : UInt32 → String) (k : UInt32) : UInt32 × String := (k, views k)

def known (s : Replica) : List UInt32 :=
  s.named :: s.config.myvid :: s.curview.toList.map Prod.fst

structure Inv (views : UInt32 → String) (vid : UInt32) (primary : String) (s : Replica) : Prop where
  kept : History.Kept
    { acceptor := s.config.acc, committed := s.known.map (agreedAt views) ++ s.pending }
  agreed : ∀ p ∈ s.pending, p.2 = views p.1
  curview : ∀ cur ∈ s.curview, cur.2 = members (views cur.1)
  vidLe : vid ≤ s.named
  chosen : primaryAt views vid primary (s.named.toNat - vid.toNat) = some s.primary

/-- The acceptor has the agreed value of every view a replica refers to. -/
theorem Inv.value {s : Replica} (h : s.Inv views vid primary) {k : UInt32} (hk : k ∈ s.known) :
    (s.config.acc.value k).1 = views k := by
  rw [Acceptor.value_of_find
    (h.kept.found (k, views k) (List.mem_append_left _ (List.mem_map_of_mem hk)))]

theorem Start.inv {s : Replica} (h : Start views vid primary s) : s.Inv views vid primary := by
  have hentry : ∀ p ∈ s.known.map (agreedAt views) ++ s.pending, p = agreedAt views vid := by
    unfold known
    rw [h.named, h.myvid, h.pending, h.curview]
    intro p hp
    rcases List.mem_cons.mp hp with hp | hp
    · exact hp
    · exact List.mem_singleton.mp hp
  refine ⟨⟨fun p hp => ?_, fun p hp => ?_⟩, ?_, ?_, UInt32.le_of_eq h.named.symm, ?_⟩
  · rw [hentry p hp]
    exact UInt32.le_of_eq h.instanceH.symm
  · rw [hentry p hp]
    exact h.value
  · rw [h.pending]
    exact fun p hp => absurd hp List.not_mem_nil
  · rw [h.curview]
    exact fun cur hcur => by cases hcur
  · rw [h.named, Nat.sub_self, h.primary]
    rfl

theorem mem_decide_commits {a : Acceptor} {inst : UInt32} {v : String} {p : UInt32 × String}
    (h : p ∈ a.commits (.decidereq { inst := inst, v := v })) : p = (inst, v) := by
  rw [Acceptor.commits] at h
  split at h
  · exact List.mem_singleton.mp h
  · exact absurd h List.not_mem_nil

theorem Inv.decidereq {s : Replica} (h : s.Inv views vid primary) (inst : UInt32) :
    (s.decidereq views inst).Inv views vid primary := by
  refine ⟨?_, fun p hp => ?_, h.curview, h.vidLe, h.chosen⟩
  · refine (h.kept.serve (.decidereq { inst := inst, v := views inst })).mono fun p hp => ?_
    rcases List.mem_append.mp hp with hp | hp
    · exact List.mem_append_right _ (List.mem_append_left _ hp)
    · rcases List.mem_append.mp hp with hp | hp
      · exact List.mem_append_left _ hp
      · exact List.mem_append_right _ (List.mem_append_right _ hp)
  · rcases List.mem_append.mp hp with hp | hp
    · rw [mem_decide_commits hp]
    · exact h.agreed p hp

theorem Inv.upcall {s : Replica} (h : s.Inv views vid primary) {p : UInt32 × String}
    (hp : p ∈ s.pending) : (s.upcall p).Inv views vid primary := by
  refine ⟨h.kept.mono fun q hq => ?_, fun q hq => h.agreed q (List.mem_of_mem_erase hq), h.curview,
    h.vidLe, h.chosen⟩
  rcases List.mem_append.mp hq with hq | hq
  · obtain ⟨k, hk, rfl⟩ := List.mem_map.mp hq
    rcases List.mem_cons.mp hk with rfl | hk
    · exact List.mem_append_left _ (List.mem_map_of_mem List.mem_cons_self)
    · rcases List.mem_cons.mp hk with rfl | hk
      · have hagreed : agreedAt views (s.upcall p).config.myvid = p :=
          Prod.ext rfl (h.agreed p hp).symm
        rw [hagreed]
        exact List.mem_append_right _ hp
      · exact List.mem_append_left _
          (List.mem_map_of_mem (List.mem_cons_of_mem _ (List.mem_cons_of_mem _ hk)))
  · exact List.mem_append_right _ (List.mem_of_mem_erase hq)

theorem mem_known_of_subset {s : Replica} {ks : List UInt32} (hsub : ks ⊆ s.known) :
    ∀ p ∈ ks.map (agreedAt views) ++ s.pending, p ∈ s.known.map (agreedAt views) ++ s.pending := by
  intro p hp
  rcases List.mem_append.mp hp with hp | hp
  · exact List.mem_append_left _ (List.map_subset _ hsub hp)
  · exact List.mem_append_right _ hp

theorem Inv.readCurview {s : Replica} (h : s.Inv views vid primary) :
    s.readCurview.Inv views vid primary := by
  have hsub : s.readCurview.known ⊆ s.known := by
    -- The view that was read is the current one.
    have hmyvid : s.config.myvid ∈ s.known := List.mem_cons_of_mem _ List.mem_cons_self
    exact List.cons_subset.mpr ⟨List.mem_cons_self, List.cons_subset.mpr ⟨hmyvid,
      List.cons_subset.mpr ⟨hmyvid, List.nil_subset _⟩⟩⟩
  refine ⟨(h.kept.value s.config.myvid).mono (mem_known_of_subset hsub), h.agreed, ?_, h.vidLe,
    h.chosen⟩
  rintro cur ⟨⟩
  exact congrArg members (h.value (List.mem_cons_of_mem _ List.mem_cons_self))

/-! ## The choice -/

theorem viewAt_sub {k : UInt32} (h : vid ≤ k) :
    viewAt views vid (k.toNat - vid.toNat) = members (views k) := by
  rw [UInt32.le_iff_toNat_le] at h
  unfold viewAt
  rw [Nat.add_sub_cancel' h, UInt32.ofNat_toNat]

/-- The next view is chosen in as a replica that goes through all of them does. -/
theorem Inv.chosen_next {s : Replica} (h : s.Inv views vid primary) {k : UInt32}
    (hnext : k.toNat = s.named.toNat + 1) :
    primaryAt views vid primary (k.toNat - vid.toNat) =
      setPrimary s.primary (members (views k)) (members (views s.named)) := by
  have hvid := UInt32.le_iff_toNat_le.mp h.vidLe
  have hk : vid ≤ k := by
    rw [UInt32.le_iff_toNat_le]
    omega
  have hsucc : k.toNat - vid.toNat = (s.named.toNat - vid.toNat) + 1 := by omega
  rw [← viewAt_sub hk, ← viewAt_sub h.vidLe, hsucc, primaryAt, h.chosen]
  rfl

/-- Leaving out views that the primary is a member of makes no difference. -/
theorem Inv.chosen_stays {s : Replica} (h : s.Inv views vid primary) {k : UInt32}
    (hle : s.named ≤ k) (hk : isamember s.primary (members (views k)) = true)
    (hbetween : ∀ i ∈ between s.named k, isamember s.primary (members (views i)) = true) :
    primaryAt views vid primary (k.toNat - vid.toNat) = some s.primary := by
  have hvid := UInt32.le_iff_toNat_le.mp h.vidLe
  have hle' := UInt32.le_iff_toNat_le.mp hle
  refine primaryAt_stays h.chosen (by omega) fun j hj hjk => ?_
  by_cases hlast : j = k.toNat - vid.toNat
  · rw [hlast, viewAt_sub (UInt32.le_trans h.vidLe hle)]
    exact hk
  · refine hbetween _ (List.mem_map.mpr ⟨vid.toNat + j - s.named.toNat - 1, ?_, ?_⟩)
    · rw [List.mem_range]
      omega
    · exact congrArg UInt32.ofNat (by omega)

theorem Inv.getPrevview_eq {s : Replica} (h : s.Inv views vid primary)
    (hnext : s.config.myvid.toNat = s.named.toNat + 1) :
    s.config.getPrevview.1 = members (views s.named) := by
  have hone : (1 : UInt32) ≤ s.config.myvid := by
    rw [UInt32.le_iff_toNat_le, hnext]
    exact Nat.le_add_left 1 _
  have hbefore : s.config.myvid - 1 = s.named := by
    rw [← UInt32.toNat_inj, UInt32.toNat_sub_of_le _ _ hone, hnext]
    rfl
  show members (s.config.acc.value (s.config.myvid - 1)).1 = _
  rw [hbefore, h.value List.mem_cons_self]

theorem Inv.choice {s : Replica} (h : s.Inv views vid primary)
    (hok : s.GoesThrough views .readPrevview) {cur : UInt32 × List String}
    (hcur : s.curview = some cur) {q : String}
    (hq : setPrimary s.primary cur.2 s.config.getPrevview.1 = some q) :
    vid ≤ cur.1 ∧ primaryAt views vid primary (cur.1.toNat - vid.toNat) = some q := by
  have hview := h.curview cur hcur
  rcases hok cur hcur with ⟨hnext, hmyvid⟩ | ⟨hle, hmem, hbetween⟩
  · have hvid := UInt32.le_iff_toNat_le.mp h.vidLe
    -- The view it reads as the previous one is the one it has chosen in.
    rw [h.getPrevview_eq (hmyvid ▸ hnext), hview, ← h.chosen_next hnext] at hq
    refine ⟨?_, hq⟩
    rw [UInt32.le_iff_toNat_le]
    omega
  · rw [setPrimary_of_mem _ hmem] at hq
    cases hq
    rw [hview] at hmem
    exact ⟨UInt32.le_trans h.vidLe hle, h.chosen_stays hle hmem hbetween⟩

theorem Inv.readPrevview {s t : Replica} (h : s.Inv views vid primary)
    (hok : s.GoesThrough views .readPrevview) {cur : UInt32 × List String}
    (hcur : s.curview = some cur) (hs : s.readPrevview cur = some t) :
    t.Inv views vid primary := by
  obtain ⟨q, hq, rfl⟩ := Option.map_eq_some_iff.mp hs
  obtain ⟨hvid, hchosen⟩ := h.choice hok hcur hq
  have hknown : s.known = [s.named, s.config.myvid, cur.1] := by
    unfold known
    rw [hcur]
    rfl
  have hsub : [cur.1, s.config.myvid] ⊆ s.known := by
    rw [hknown]
    simp
  refine ⟨(h.kept.value (s.config.myvid - 1)).mono (mem_known_of_subset hsub), h.agreed,
    fun _ hnone => ?_, hvid, hchosen⟩
  cases hnone

theorem Inv.step {s t : Replica} {a : ReplicaAction} (h : s.Inv views vid primary)
    (hok : s.GoesThrough views a) (hs : (system views vid primary).step s a = some t) :
    t.Inv views vid primary := by
  cases a with
  | decide inst =>
    cases hs
    exact h.decidereq inst
  | upcall p =>
    obtain ⟨hp, rfl⟩ : p ∈ s.pending ∧ s.upcall p = t := by
      simpa [system, Replica.step, Option.ite_none_right_eq_some] using hs
    exact h.upcall hp
  | readCurview =>
    obtain ⟨-, rfl⟩ : _ ∧ s.readCurview = t := by
      simpa [system, Replica.step, Option.ite_none_right_eq_some] using hs
    exact h.readCurview
  | readPrevview =>
    obtain ⟨cur, hcur, hread⟩ := Option.bind_eq_some_iff.mp hs
    exact h.readPrevview hok hcur hread

/-- Let two replicas start in the same view with the same primary and install the
agreed views in any order of decide messages, upcalls and calls of `set_primary`.
If neither leaves out a view that its primary is not a member of, they have the
same primary whenever they have last chosen in the same view. -/
theorem primary_eq {s t : Replica}
    (hs : (system views vid primary).ReachableWhile (GoesThrough views) s)
    (ht : (system views vid primary).ReachableWhile (GoesThrough views) t)
    (hview : s.named = t.named) : s.primary = t.primary := by
  have hinv : ∀ {r : Replica}, (system views vid primary).ReachableWhile (GoesThrough views) r →
      r.Inv views vid primary := fun hr =>
    hr.invariant (fun _ hstart => Start.inv hstart) fun _ _ _ h hok hstep => h.step hok hstep
  have hsame := (hinv ht).chosen
  rw [← hview, (hinv hs).chosen] at hsame
  exact Option.some.inj hsame

/-- Node 3001 leaves the first view and comes back. -/
def threeViews (inst : UInt32) : String :=
  if inst = 1 then "3001 3002 3003" else if inst = 2 then "3002 3003" else "3002 3003 3001"

/-- A member of the first view, whose primary is 3001. -/
def member (me : String) : Replica where
  config := .create (.fresh true me "3001 3002 3003")
  pending := []
  curview := none
  primary := "3001"
  named := 1

theorem member_start (me : String) : Start threeViews 1 "3001" (member me) :=
  ⟨rfl, rfl, rfl, rfl, rfl, rfl, rfl⟩

/-- A decide message is handled up to the end of `commit_change`. -/
def install (inst : UInt32) : List ReplicaAction :=
  [.decide inst, .upcall (inst, threeViews inst), .readCurview, .readPrevview]

/-- One replica goes through all views.  For the other the second view is decided
again before it is installed. -/
theorem primary_eq_members :
    ((system threeViews 1 "3001").final (member "3002") (install 2 ++ install 3)).primary =
      ((system threeViews 1 "3001").final (member "3003")
        (.decide 2 :: install 2 ++ install 3)).primary :=
  primary_eq
    (System.ReachableWhile.final _ (.init (member_start "3002")) (by decide +kernel)
      (by decide +kernel))
    (System.ReachableWhile.final _ (.init (member_start "3003")) (by decide +kernel)
      (by decide +kernel)) (by decide +kernel)

/-- The second replica misses the decide message of the second view, in which the
primary is replaced. -/
theorem primary_ne_of_lost_decide :
    members (threeViews 2) = Change.newMems (.removeWo "3001") (members (threeViews 1)) ∧
    members (threeViews 3) = Change.newMems (.add "3001") (members (threeViews 2)) ∧
    ∃ s t, (system threeViews 1 "3001").Reachable s ∧ (system threeViews 1 "3001").Reachable t ∧
      s.config.myvid = 3 ∧ t.config.myvid = 3 ∧ s.named = 3 ∧ t.named = 3 ∧
      s.primary = "3002" ∧ t.primary = "3001" :=
  ⟨by decide +kernel, by decide +kernel, _, _,
    System.Reachable.final (install 2 ++ install 3) (.init (member_start "3002"))
      (by decide +kernel),
    System.Reachable.final (install 3) (.init (member_start "3003")) (by decide +kernel),
    by decide +kernel, by decide +kernel, by decide +kernel, by decide +kernel,
    by decide +kernel, by decide +kernel⟩

end Replica
end Rsm
end Frangipani
