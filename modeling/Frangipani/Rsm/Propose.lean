/-
Proposing the next view.

`add` and `remove_wo` compute the next view from `mems` under the lock, release it
and then call `proposer::run` with `myvid + 1` and `mems`.  These two are read
after the lock is released, so `paxos_commit` can install another view in
between.  The value that is proposed then belongs to the old view, and the
instance and the nodes to the new one.

The steps are the locked part, the call of `run` with the reads for it, and
`paxos_commit` with the value that was agreed on for its instance.  Each call asks
the nodes of the view before it for that view with one change, exactly as long as
the members a change was computed from are still the members when `run` is called.
-/
import Frangipani.Rsm.Config
import Frangipani.Transition.System

namespace Frangipani
namespace Rsm

open Text Paxos Transition

inductive Change
  | add (newM : String)
  | removeWo (m : String)
  deriving DecidableEq, Repr

namespace Change

/-- The members that are proposed: `add` appends the node, `remove_wo` copies all
others. -/
def newMems : Change → List String → List String
  | .add newM, mems => mems ++ [newM]
  | .removeWo m, mems => mems.filter fun x => x != m

/-- The change of `mems` can be read off the members `base` of an earlier
moment. -/
def StillFits (base mems : List String) : Change → Prop
  | .add newM => IsWord newM ∧ base = mems
  | .removeWo m => (base.filter fun x => x != m) = mems.filter fun x => x != m

instance (base mems : List String) : DecidablePred (StillFits base mems)
  | .add newM => inferInstanceAs (Decidable (IsWord newM ∧ base = mems))
  | .removeWo m => inferInstanceAs
      (Decidable ((base.filter fun x => x != m) = mems.filter fun x => x != m))

end Change

/-- A thread that has released the lock and not called `run` yet.  `base` are the
members it has copied. -/
structure Started where
  thread : Nat
  change : Change
  base : List String
  deriving DecidableEq, Repr

def Started.v (st : Started) : String := value (st.change.newMems st.base)

/-- A call `proposer::run(inst, nodes, v)`, with the change it is made for. -/
structure RunCall where
  change : Change
  inst : UInt32
  nodes : List String
  v : String
  deriving DecidableEq, Repr

structure Changer where
  config : Config
  started : List Started
  calls : List RunCall

inductive ChangerAction
  | lock (thread : Nat) (change : Change)
  | run (thread : Nat)
  | paxosCommit (inst : UInt32)
  deriving DecidableEq, Repr

namespace Changer

def lock (s : Changer) (thread : Nat) (change : Change) : Changer :=
  { s with started := { thread := thread, change := change, base := s.config.mems } :: s.started }

/-- The call of `run`, with the number and the members that are read for it. -/
def run (s : Changer) (st : Started) : Changer where
  config := s.config
  started := s.started.erase st
  calls :=
    { change := st.change, inst := s.config.myvid + 1, nodes := s.config.mems, v := st.v } ::
      s.calls

section

-- The value agreed on for each instance.
variable (agreed : UInt32 → String)

def start (acc : Acceptor) (vid : UInt32) : Changer where
  config := { acc := acc, myvid := vid, mems := members (agreed vid) }
  started := []
  calls := []

def system : System Changer ChangerAction where
  init s := ∃ acc vid, s = start agreed acc vid
  step s
    | .lock thread change =>
      if s.started.any fun st => st.thread == thread then none else some (s.lock thread change)
    | .run thread => (s.started.find? fun st => st.thread == thread).map s.run
    | .paxosCommit inst => some { s with config := s.config.paxosCommit inst (agreed inst) }

/-- The members of the view before the one a call is to agree on. -/
def viewBefore (call : RunCall) : List String := members (agreed (call.inst - 1))

/-- Every call asks the nodes of the view before for that view with the change. -/
def OneChange (s : Changer) : Prop :=
  ∀ call ∈ s.calls, call.nodes = viewBefore agreed call ∧
    members call.v = call.change.newMems (viewBefore agreed call)

/-- When `run` is called, the members that the change was computed from are still
the members, up to the node to be removed, and a node to be added has a name of one
word. -/
def ChangesFit (s : Changer) : ChangerAction → Prop
  | .run thread => ∀ st ∈ s.started.find? fun st => st.thread == thread,
      st.change.StillFits st.base s.config.mems
  | _ => True

instance (s : Changer) : DecidablePred s.ChangesFit
  | .lock _ _ => inferInstanceAs (Decidable True)
  | .paxosCommit _ => inferInstanceAs (Decidable True)
  | .run thread =>
    inferInstanceAs (Decidable (∀ st ∈ s.started.find? fun st => st.thread == thread,
      st.change.StillFits st.base s.config.mems))

/-! ## The invariant -/

structure Inv (s : Changer) : Prop where
  mems : s.config.mems = members (agreed s.config.myvid)
  words : ∀ st ∈ s.started, ∀ m ∈ st.base, IsWord m
  calls : s.OneChange agreed

end

theorem newMems_isWord {base : List String} {newM : String} (h : ∀ m ∈ base, IsWord m)
    (hword : IsWord newM) : ∀ m ∈ Change.newMems (.add newM) base, IsWord m :=
  List.forall_mem_append.mpr ⟨h, List.forall_mem_singleton.mpr hword⟩

/-- What a thread proposes is read back as the change of `mems` exactly when it
still fits. -/
theorem members_v_iff {st : Started} (h : ∀ m ∈ st.base, IsWord m) (mems : List String) :
    members st.v = st.change.newMems mems ↔ st.change.StillFits st.base mems := by
  unfold Started.v
  cases hchange : st.change with
  | removeWo m =>
    have hwords : ∀ x ∈ Change.newMems (.removeWo m) st.base, IsWord x :=
      fun x hx => h x (List.mem_of_mem_filter hx)
    rw [members_value hwords]
    exact Iff.rfl
  | add newM =>
    constructor
    · intro hmems
      have hword : IsWord newM := by
        refine members_isWord (v := value (Change.newMems (.add newM) st.base)) ?_
        rw [hmems]
        exact List.mem_append_right _ (List.mem_singleton.mpr rfl)
      rw [members_value (newMems_isWord h hword)] at hmems
      exact ⟨hword, List.append_cancel_right hmems⟩
    · rintro ⟨hword, rfl⟩
      exact members_value (newMems_isWord h hword)

variable {agreed : UInt32 → String}

theorem inv_start (acc : Acceptor) (vid : UInt32) : Inv agreed (start agreed acc vid) where
  mems := rfl
  words := fun _ hst => absurd hst List.not_mem_nil
  calls := fun _ hcall => absurd hcall List.not_mem_nil

theorem step_run {s t : Changer} {thread : Nat}
    (hs : (system agreed).step s (.run thread) = some t) :
    ∃ st, (s.started.find? fun st => st.thread == thread) = some st ∧ st ∈ s.started ∧
      s.run st = t := by
  obtain ⟨st, hfind, rfl⟩ := Option.map_eq_some_iff.mp hs
  exact ⟨st, hfind, List.mem_of_find?_eq_some hfind, rfl⟩

/-- The call that `run` makes is right exactly when the change still fits. -/
theorem Inv.run_iff {s : Changer} (h : s.Inv agreed) {st : Started} (hst : st ∈ s.started) :
    (s.run st).OneChange agreed ↔ st.change.StillFits st.base s.config.mems := by
  have hview : members (agreed (s.config.myvid + 1 - 1)) = s.config.mems := by
    rw [UInt32.add_sub_cancel, h.mems]
  rw [← members_v_iff (h.words st hst)]
  constructor
  · intro hone
    have hcall := (hone _ List.mem_cons_self).2
    unfold viewBefore at hcall
    rwa [hview] at hcall
  · intro hv call hcall
    rcases List.mem_cons.mp hcall with rfl | hcall
    · unfold viewBefore
      rw [hview]
      exact ⟨rfl, hv⟩
    · exact h.calls call hcall

theorem Inv.step {s t : Changer} {a : ChangerAction} (h : s.Inv agreed) (hok : s.ChangesFit a)
    (hs : (system agreed).step s a = some t) : t.Inv agreed := by
  cases a with
  | lock thread change =>
    obtain ⟨-, rfl⟩ : _ ∧ s.lock thread change = t := by
      simpa [system, Option.ite_none_left_eq_some] using hs
    refine ⟨h.mems, fun st hst => ?_, h.calls⟩
    rcases List.mem_cons.mp hst with rfl | hst
    · intro m hm
      have hmem : m ∈ s.config.mems := hm
      rw [h.mems] at hmem
      exact members_isWord hmem
    · exact h.words st hst
  | run thread =>
    obtain ⟨st, hfind, hst, rfl⟩ := step_run hs
    refine ⟨h.mems, fun st' hst' => h.words st' (List.mem_of_mem_erase hst'), ?_⟩
    exact (h.run_iff hst).mpr (hok st hfind)
  | paxosCommit inst =>
    cases hs
    exact ⟨rfl, h.words, h.calls⟩

theorem Inv.not_oneChange {s t : Changer} {a : ChangerAction} (h : s.Inv agreed)
    (hbad : ¬ s.ChangesFit a) (hs : (system agreed).step s a = some t) : ¬ t.OneChange agreed := by
  cases a with
  | run thread =>
    obtain ⟨st, hfind, hst, rfl⟩ := step_run hs
    intro hone
    refine hbad fun st' hst' => ?_
    cases hfind.symm.trans hst'
    exact (h.run_iff hst).mp hone
  | lock | paxosCommit => exact absurd trivial hbad

/-- Whatever is agreed on for the instances, in every run of the threads of a node
every call of `run` asks the nodes of the view before for that view with exactly
the requested change, if and only if each change still fits the members when `run`
is called. -/
theorem oneChange_iff (agreed : UInt32 → String) (acc : Acceptor) (vid : UInt32)
    (as : List ChangerAction) :
    (system agreed).AlongRun (OneChange agreed) (start agreed acc vid) as ↔
      (system agreed).StepsMeet ChangesFit (start agreed acc vid) as :=
  System.alongRun_iff_stepsMeet (fun _ h => h.calls) (fun _ _ _ h hok hs => h.step hok hs)
    (fun _ _ _ h hbad hs => h.not_oneChange hbad hs) (inv_start acc vid)

/-- The second view adds a node to the first. -/
def twoViews (inst : UInt32) : String := if inst = 1 then "3001" else "3001 3002"

/-- While node 3003 is being added to the first view, the second is committed. -/
def lateCall : List ChangerAction := [.lock 0 (.add "3003"), .paxosCommit 2, .run 0]

/-- The call is for the third view and asks for node 3002 to be dropped. -/
theorem lateCall_not_oneChange :
    ((system twoViews).run (start twoViews (.blank "3001" []) 1) lateCall).map
      (fun s => s.calls.map fun call => (call.inst, call.nodes, members call.v)) =
      some [(3, ["3001", "3002"], ["3001", "3003"])] ∧
    ¬ (system twoViews).AlongRun (OneChange twoViews) (start twoViews (.blank "3001" []) 1)
      lateCall := by
  refine ⟨by decide +kernel, ?_⟩
  intro h
  exact absurd (h.final (by decide +kernel) _ List.mem_cons_self).2 (by decide +kernel)

end Changer
end Rsm
end Frangipani
