/-
The configuration and the acceptor below it.

`commit_wo` records a decided value and releases the lock before it tells the
configuration with the upcall `paxos_commit`.  Decide requests are handled by
several threads, so upcalls that are on their way can be run in any order.  A
step here is the call of a handler up to the upcall, or one upcall.

`paxos_commit` takes over whatever view it is told.  The configuration follows
the acceptor exactly as long as no upcall is overtaken by that of a later
instance.
-/
import Frangipani.Paxos.History
import Frangipani.Paxos.Log
import Frangipani.Rsm.Config
import Frangipani.Transition.System

namespace Frangipani
namespace Rsm

open Paxos Transition

/-- A configuration, with the upcalls that have not run, the instances whose
upcalls have run, and the earlier values of `myvid`. -/
structure Follower where
  config : Config
  pending : List (UInt32 × String)
  ran : List UInt32
  past : List UInt32

inductive FollowerAction
  | serve (op : Acceptor.Op)
  | upcall (p : UInt32 × String)
  deriving DecidableEq, Repr

namespace Follower

/-- A call of the acceptor.  What it commits is left to be told. -/
def serve (s : Follower) (op : Acceptor.Op) : Follower :=
  { s with
    config := { s.config with acc := s.config.acc.serveOp op }
    pending := s.config.acc.commits op ++ s.pending }

def upcall (s : Follower) (p : UInt32 × String) : Follower where
  config := s.config.paxosCommit p.1 p.2
  pending := s.pending.erase p
  ran := p.1 :: s.ran
  past := s.config.myvid :: s.past

/-- A node whose configuration is built over the given acceptor. -/
def start (acc : Acceptor) : Follower :=
  { config := .create acc, pending := [], ran := [], past := [] }

def system : System Follower FollowerAction where
  init s := ∃ acc, s = start acc
  step s
    | .serve op => some (s.serve op)
    | .upcall p => if p ∈ s.pending then some (s.upcall p) else none

/-- `myvid` has never been larger, and with nothing left to be told the
configuration is that of the acceptor's highest instance. -/
structure Follows (s : Follower) : Prop where
  forward : ∀ vid ∈ s.past, vid ≤ s.config.myvid
  settled : s.pending = [] → s.config.myvid = s.config.acc.instanceH ∧
    s.config.mems = members (s.config.acc.value s.config.myvid).1

/-- The upcall that runs is not older than one that has run. -/
def UpcallsInOrder (s : Follower) : FollowerAction → Prop
  | .upcall p => ∀ inst ∈ s.ran, inst ≤ p.1
  | .serve _ => True

instance (s : Follower) : DecidablePred s.UpcallsInOrder
  | .upcall p => List.decidableBAll (fun inst => inst ≤ p.1) s.ran
  | .serve _ => inferInstanceAs (Decidable True)

/-! ## The invariant -/

/-- `vid` is the view the node started with.  Upcalls on their way are for later
instances, and that of the highest instance is on its way or was the last to
run. -/
structure Inv (vid : UInt32) (s : Follower) : Prop where
  kept : History.Kept { acceptor := s.config.acc, committed := s.pending }
  later : ∀ p ∈ s.pending, vid < p.1
  current : s.config.myvid = vid ∨ s.config.myvid ∈ s.ran
  ranLe : ∀ inst ∈ s.ran, inst ≤ s.config.myvid
  pastLe : ∀ u ∈ s.past, u ≤ s.config.myvid
  vidLe : vid ≤ s.config.acc.instanceH
  myvidLe : s.config.myvid ≤ s.config.acc.instanceH
  top : s.config.myvid = s.config.acc.instanceH ∨
    ∃ p ∈ s.pending, p.1 = s.config.acc.instanceH
  mems : s.config.mems = members (s.config.acc.value s.config.myvid).1

theorem Inv.follows {vid : UInt32} {s : Follower} (h : s.Inv vid) : s.Follows where
  forward := h.pastLe
  settled hnone := by
    refine ⟨?_, h.mems⟩
    rcases h.top with htop | ⟨p, hp, -⟩
    · exact htop
    · rw [hnone] at hp
      exact absurd hp List.not_mem_nil

theorem Inv.serve {vid : UInt32} {s : Follower} (h : s.Inv vid) (op : Acceptor.Op) :
    (s.serve op).Inv vid := by
  have hext := Acceptor.serveOp_extends s.config.acc op
  constructor
  · exact h.kept.serve op
  · intro p hp
    rcases List.mem_append.mp hp with hp | hp
    · exact UInt32.lt_of_le_of_lt h.vidLe (Acceptor.mem_commits hp).1
    · exact h.later p hp
  · exact h.current
  · exact h.ranLe
  · exact h.pastLe
  · exact UInt32.le_trans h.vidLe hext.instanceH
  · exact UInt32.le_trans h.myvidLe hext.instanceH
  · cases hc : s.config.acc.commits op with
    | nil =>
      have hsame := Acceptor.instanceH_of_commits_nil hc
      show _ = (s.config.acc.serveOp op).instanceH ∨
        ∃ p ∈ s.config.acc.commits op ++ s.pending, p.1 = (s.config.acc.serveOp op).instanceH
      rw [hsame, hc, List.nil_append]
      exact h.top
    | cons p ps =>
      have hp : p ∈ s.config.acc.commits op := by rw [hc]; exact List.mem_cons_self
      exact Or.inr ⟨p, List.mem_append_left _ hp, (Acceptor.mem_commits hp).2.symm⟩
  · exact h.mems.trans (congrArg members (hext.values _ h.myvidLe).symm)

theorem Inv.upcall {vid : UInt32} {s : Follower} (h : s.Inv vid) {p : UInt32 × String}
    (hp : p ∈ s.pending) (hok : s.UpcallsInOrder (.upcall p)) : (s.upcall p).Inv vid := by
  have hforward : s.config.myvid ≤ p.1 := by
    rcases h.current with hvid | hran
    · rw [hvid]
      exact UInt32.le_of_lt (h.later p hp)
    · exact hok _ hran
  constructor
  · exact h.kept.mono fun q hq => List.mem_of_mem_erase hq
  · exact fun q hq => h.later q (List.mem_of_mem_erase hq)
  · exact Or.inr List.mem_cons_self
  · intro inst hinst
    rcases List.mem_cons.mp hinst with rfl | hinst
    · exact UInt32.le_refl _
    · exact hok inst hinst
  · intro u hu
    rcases List.mem_cons.mp hu with rfl | hu
    · exact hforward
    · exact UInt32.le_trans (h.pastLe u hu) hforward
  · exact h.vidLe
  · exact h.kept.bounded p hp
  · rcases h.top with htop | ⟨q, hq, hinst⟩
    · -- the highest instance has been told, so `p` is it
      refine Or.inl (UInt32.le_antisymm (h.kept.bounded p hp) ?_)
      rw [htop] at hforward
      exact hforward
    · by_cases hqp : q = p
      · subst hqp
        exact Or.inl hinst
      · exact Or.inr ⟨q, (List.mem_erase_of_ne hqp).mpr hq, hinst⟩
  · show members p.2 = members (s.config.acc.value p.1).1
    rw [Acceptor.value_of_find (h.kept.found p hp)]

theorem Inv.step {vid : UInt32} {s t : Follower} {a : FollowerAction} (h : s.Inv vid)
    (hok : s.UpcallsInOrder a) (hs : system.step s a = some t) : t.Inv vid := by
  cases a with
  | serve op =>
    cases hs
    exact h.serve op
  | upcall p =>
    obtain ⟨hp, rfl⟩ : p ∈ s.pending ∧ s.upcall p = t := by
      simpa [system, Option.ite_none_right_eq_some] using hs
    exact h.upcall hp hok

theorem Inv.not_follows {vid : UInt32} {s t : Follower} {a : FollowerAction} (h : s.Inv vid)
    (hbad : ¬ s.UpcallsInOrder a) (hs : system.step s a = some t) : ¬ t.Follows := by
  cases a with
  | serve op => exact absurd trivial hbad
  | upcall p =>
    obtain ⟨hp, rfl⟩ : p ∈ s.pending ∧ s.upcall p = t := by
      simpa [system, Option.ite_none_right_eq_some] using hs
    intro hfollows
    refine hbad fun inst hinst => ?_
    have hback : s.config.myvid ≤ p.1 := hfollows.forward _ List.mem_cons_self
    exact UInt32.le_trans (h.ranLe inst hinst) hback

theorem inv_start {acc : Acceptor} (hzero : (acc.value 0).1 = "") :
    (start acc).Inv (start acc).config.myvid := by
  unfold start Config.create Config.reconstruct
  split
  · exact {
      kept := ⟨fun _ hp => absurd hp List.not_mem_nil, fun _ hp => absurd hp List.not_mem_nil⟩
      later := fun _ hp => absurd hp List.not_mem_nil
      current := Or.inl rfl
      ranLe := fun _ hp => absurd hp List.not_mem_nil
      pastLe := fun _ hp => absurd hp List.not_mem_nil
      vidLe := UInt32.le_refl _
      myvidLe := UInt32.le_refl _
      top := Or.inl rfl
      mems := congrArg members (Acceptor.value_value acc acc.instanceH acc.instanceH).symm }
  · rename_i hnot
    have hinst : acc.instanceH = 0 := UInt32.le_zero_iff.mp (UInt32.not_lt.mp hnot)
    exact {
      kept := ⟨fun _ hp => absurd hp List.not_mem_nil, fun _ hp => absurd hp List.not_mem_nil⟩
      later := fun _ hp => absurd hp List.not_mem_nil
      current := Or.inl rfl
      ranLe := fun _ hp => absurd hp List.not_mem_nil
      pastLe := fun _ hp => absurd hp List.not_mem_nil
      vidLe := UInt32.zero_le
      myvidLe := UInt32.zero_le
      top := Or.inl hinst.symm
      mems := by
        show [] = members (acc.value 0).1
        rw [hzero]
        rfl }

/-- On a node whose acceptor has no value for instance 0, in every run of calls
and upcalls the configuration follows the acceptor in every state, if and only if
no upcall along the run is overtaken by that of a later instance. -/
theorem follows_iff (acc : Acceptor) (hzero : (acc.value 0).1 = "") (as : List FollowerAction) :
    system.AlongRun Follows (start acc) as ↔ system.StepsMeet UpcallsInOrder (start acc) as :=
  System.alongRun_iff_stepsMeet (fun _ h => h.follows) (fun _ _ _ h hok hs => h.step hok hs)
    (fun _ _ _ h hbad hs => h.not_follows hbad hs) (inv_start hzero)

/-- The first node of a group learns of two more views. -/
def founding : Acceptor := .fresh true "3001" "3001"

theorem follows_founding :
    system.AlongRun Follows (start founding)
      [.serve (.decidereq { inst := 2, v := "3001 3002" }),
        .serve (.decidereq { inst := 3, v := "3001 3002 3003" }),
        .upcall (2, "3001 3002"), .upcall (3, "3001 3002 3003")] :=
  (follows_iff founding (by decide) _).mpr (by decide)

/-- The same two commits, with the upcall of the second run first. -/
def overtaken : List FollowerAction :=
  [.serve (.decidereq { inst := 2, v := "3001 3002" }),
    .serve (.decidereq { inst := 3, v := "3001 3002 3003" }),
    .upcall (3, "3001 3002 3003"), .upcall (2, "3001 3002")]

theorem overtaken_not_follows :
    (system.run (start founding) (overtaken.take 3)).map (fun s => s.config.myvid) = some 3 ∧
    (system.run (start founding) overtaken).map
      (fun s => (s.config.myvid, s.config.acc.instanceH, s.pending)) = some (2, 3, []) ∧
    ¬ system.AlongRun Follows (start founding) overtaken := by
  refine ⟨by decide, by decide, ?_⟩
  intro h
  have hsettled := ((h.final (by decide)).settled (by decide)).1
  exact absurd hsettled (by decide)

end Follower
end Rsm
end Frangipani
