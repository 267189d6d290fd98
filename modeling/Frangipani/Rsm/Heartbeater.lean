/-
The heartbeats.

`heartbeater` looks for the member with the smallest number.  That member pings all others in
order, and the others ping that one.  The first node that does not answer is proposed for removal.

`cfg_mutex` is released during a ping and in `run`, and `paxos_commit` can replace `mems` then.
The name of a node that has not answered is read from `mems` again after the ping.  In a smaller
view that is the name of another node, or behind the end.  It is the node that was pinged if nodes
are only added meanwhile.

In a view that stays as it is, the members propose to remove the same node, and if one is down
some member does so in each round.
-/
import Mathlib.Data.List.Nodup
import Frangipani.Rpc.Client
import Frangipani.Rsm.Cluster

namespace Frangipani
namespace Rsm

open Text Paxos Transition Rpc

/-- `config::heartbeat_t`. -/
inductive HeartbeatT
  | ok
  | viewerr
  | failure
  deriving DecidableEq, Repr

/-- `doheartbeat`, with the result of the call, which is not made when there is no handle. -/
def doheartbeat (call : Option Int) : HeartbeatT :=
  let ret := call.getD RpcConst.timeoutFailure
  if ret ≠ 0 then
    if ret = RpcConst.atmostonceFailure ∨ ret = RpcConst.oldsrvFailure then .ok
    else if ret < 0 then .failure else .viewerr
  else .ok

/-- Where `heartbeater` is: in the wait, in the ping of `mems[i]`, in the ping of the node with the
smallest number, in `remove_wo`, or behind the end of `mems`. -/
inductive Beating
  | asleep
  | pinging (i : Nat) (m : String)
  | pingingSmallest (m : String)
  | removing
  | undefined
  deriving DecidableEq, Repr

/-- In the loop over `mems`. -/
def Beating.inLoop : Beating → Bool
  | .pinging _ _ => true
  | _ => false

def Beating.pinged : Beating → Option String
  | .pinging _ m | .pingingSmallest m => some m
  | _ => none

/-- How a round ends.  It may be that `m` is to be removed because `pinged` has not answered. -/
inductive Round
  | stable
  | removeWo (m pinged : String)
  deriving DecidableEq, Repr

def Round.removed : Round → Option String
  | .stable => none
  | .removeWo m _ => some m

structure Heartbeater where
  peer : Peer
  place : Beating
  rounds : List Round

inductive HeartbeaterAction
  | wake
  | answer (call : Option Int)
  | removed
  | paxosCommit (inst : UInt32) (v : String)

/-- The loop of the node with the smallest number, up to the next ping. -/
def nextPing (me : String) : List String → Nat → Option (Nat × String)
  | [], _ => none
  | m :: mems, i => if m ≠ me then some (i, m) else nextPing me mems (i + 1)

namespace Heartbeater

def start (p : Peer) : Heartbeater := { peer := p, place := .asleep, rounds := [] }

abbrev me (s : Heartbeater) : String := s.peer.me

abbrev mems (s : Heartbeater) : List String := s.peer.config.mems

def endRound (s : Heartbeater) : Heartbeater :=
  { s with place := .asleep, rounds := .stable :: s.rounds }

def removeWo (s : Heartbeater) (m pinged : String) : Heartbeater :=
  { s with place := .removing, rounds := .removeWo m pinged :: s.rounds }

def pingFrom (s : Heartbeater) (i : Nat) : Heartbeater :=
  match nextPing s.me (s.mems.drop i) i with
  | some (j, m) => { s with place := .pinging j m }
  | none => s.endRound

def paxosCommit (s : Heartbeater) (inst : UInt32) (v : String) : Heartbeater :=
  let replica := { s.peer.replica with config := s.peer.config.paxosCommit inst v }
  { s with peer := { s.peer with replica := replica } }

def step (s : Heartbeater) : HeartbeaterAction → Option Heartbeater
  | .wake =>
    match s.place with
    | .asleep =>
      if !s.peer.ismember s.me then some s
      else if s.peer.smallest = s.me then some (s.pingFrom 0)
      else some { s with place := .pingingSmallest s.peer.smallest }
    | _ => none
  | .answer call =>
    match s.place with
    | .pinging i m =>
      if doheartbeat call = .ok then some (s.pingFrom (i + 1))
      else
        match s.mems[i]? with
        | some m' => some (s.removeWo m' m)
        | none => some { s with place := .undefined }
    | .pingingSmallest m =>
      if doheartbeat call = .ok then some s.endRound else some (s.removeWo m m)
    | _ => none
  | .removed =>
    match s.place with
    | .removing => some { s with place := .asleep }
    | _ => none
  | .paxosCommit inst v => if s.place = .undefined then none else some (s.paxosCommit inst v)

def system : System Heartbeater HeartbeaterAction where
  init s := ∃ p, s = start p
  step := step

end Heartbeater

/-! ## The next ping -/

theorem nextPing_eq_some {me : String} {mems : List String} {i j : Nat} {m : String}
    (h : nextPing me mems i = some (j, m)) :
    ∃ k, j = i + k ∧ mems[k]? = some m ∧ m ≠ me ∧ ∀ x ∈ mems.take k, x = me := by
  induction mems generalizing i with
  | nil => cases h
  | cons x mems ih =>
    rw [nextPing] at h
    split at h
    · rename_i hx
      cases h
      exact ⟨0, rfl, rfl, hx, fun x hx => absurd hx List.not_mem_nil⟩
    · rename_i hx
      obtain ⟨k, rfl, hk, hm, htake⟩ := ih h
      refine ⟨k + 1, by omega, hk, hm, fun y hy => ?_⟩
      rcases List.mem_cons.mp hy with rfl | hy
      · exact not_not.mp hx
      · exact htake y hy

theorem nextPing_eq_none {me : String} {mems : List String} {i : Nat}
    (h : nextPing me mems i = none) : ∀ x ∈ mems, x = me := by
  induction mems generalizing i with
  | nil => exact fun x hx => absurd hx List.not_mem_nil
  | cons x mems ih =>
    rw [nextPing] at h
    split at h
    · cases h
    · rename_i hx
      exact List.forall_mem_cons.mpr ⟨not_not.mp hx, ih h⟩

namespace Heartbeater

variable {s t : Heartbeater} {a : HeartbeaterAction}

/-- The loop pings another node, or all that is left is the node itself. -/
theorem pingFrom_cases (s : Heartbeater) (i : Nat) :
    (∃ k m, s.pingFrom i = { s with place := .pinging (i + k) m } ∧ s.mems[i + k]? = some m ∧
      m ≠ s.me ∧ ∀ x ∈ (s.mems.drop i).take k, x = s.me) ∨
    (s.pingFrom i = s.endRound ∧ ∀ x ∈ s.mems.drop i, x = s.me) := by
  cases hnext : nextPing s.me (s.mems.drop i) i with
  | none => exact .inr ⟨by simp only [pingFrom, hnext], nextPing_eq_none hnext⟩
  | some next =>
    obtain ⟨k, hj, hk, hm, htake⟩ := nextPing_eq_some (j := next.1) (m := next.2) hnext
    rw [List.getElem?_drop] at hk
    refine .inl ⟨k, next.2, ?_, hk, hm, htake⟩
    simp only [pingFrom, hnext, hj]

/-! ## Views that change -/

/-- Nodes are only added to the view while its first node pings the others. -/
def OnlyAdds (s : Heartbeater) : HeartbeaterAction → Prop
  | .paxosCommit _ v => s.place.inLoop = true → s.mems <+: members v
  | _ => True

/-- Whoever is to be removed has been pinged, and it is another node. -/
structure Accurate (s : Heartbeater) : Prop where
  defined : s.place ≠ .undefined
  rounds : ∀ m pinged, .removeWo m pinged ∈ s.rounds → m = pinged ∧ m ≠ s.me

/-- The node that is pinged stands where it has been read. -/
def Fits (s : Heartbeater) : Beating → Prop
  | .asleep | .removing => True
  | .pinging i m => s.mems[i]? = some m ∧ m ≠ s.me
  | .pingingSmallest m => m ≠ s.me
  | .undefined => False

structure Inv (s : Heartbeater) : Prop where
  place : s.Fits s.place
  rounds : ∀ m pinged, .removeWo m pinged ∈ s.rounds → m = pinged ∧ m ≠ s.me

theorem Inv.accurate (h : s.Inv) : s.Accurate where
  defined := fun hplace => by
    have := h.place
    rw [hplace] at this
    exact this
  rounds := h.rounds

theorem inv_start (p : Peer) : (start p).Inv :=
  ⟨trivial, fun _ _ h => absurd h List.not_mem_nil⟩

theorem Inv.endRound (h : s.Inv) : s.endRound.Inv := by
  refine ⟨trivial, fun m pinged hmem => ?_⟩
  rcases List.mem_cons.mp hmem with heq | hmem
  · cases heq
  · exact h.rounds m pinged hmem

theorem Inv.removeWo (h : s.Inv) {m : String} (hm : m ≠ s.me) : (s.removeWo m m).Inv := by
  refine ⟨trivial, fun m' pinged hmem => ?_⟩
  rcases List.mem_cons.mp hmem with heq | hmem
  · cases heq
    exact ⟨rfl, hm⟩
  · exact h.rounds m' pinged hmem

theorem Inv.pingFrom (h : s.Inv) (i : Nat) : (s.pingFrom i).Inv := by
  rcases s.pingFrom_cases i with ⟨k, m, heq, hk, hm, -⟩ | ⟨heq, -⟩
  · rw [heq]
    exact ⟨⟨hk, hm⟩, h.rounds⟩
  · rw [heq]
    exact h.endRound

theorem Inv.step (h : s.Inv) (hok : s.OnlyAdds a) (hs : s.step a = some t) : t.Inv := by
  cases a with
  | wake =>
    cases hplace : s.place with
    | asleep =>
      simp only [Heartbeater.step, hplace] at hs
      split at hs
      · cases hs
        exact h
      · split at hs
        · cases hs
          exact h.pingFrom 0
        · rename_i hsmallest
          cases hs
          exact ⟨hsmallest, h.rounds⟩
    | _ => simp [Heartbeater.step, hplace] at hs
  | answer call =>
    have hfits := h.place
    cases hplace : s.place with
    | pinging i m =>
      rw [hplace] at hfits
      simp only [Heartbeater.step, hplace, hfits.1] at hs
      split at hs
      · cases hs
        exact h.pingFrom (i + 1)
      · cases hs
        exact h.removeWo hfits.2
    | pingingSmallest m =>
      rw [hplace] at hfits
      simp only [Heartbeater.step, hplace] at hs
      split at hs
      · cases hs
        exact h.endRound
      · cases hs
        exact h.removeWo hfits
    | _ => simp [Heartbeater.step, hplace] at hs
  | removed =>
    cases hplace : s.place with
    | removing =>
      simp only [Heartbeater.step, hplace] at hs
      cases hs
      exact ⟨trivial, h.rounds⟩
    | _ => simp [Heartbeater.step, hplace] at hs
  | paxosCommit inst v =>
    obtain ⟨-, heq⟩ := Option.ite_none_left_eq_some.mp hs
    cases heq
    refine ⟨?_, h.rounds⟩
    show (s.paxosCommit inst v).Fits s.place
    have hfits := h.place
    cases hplace : s.place with
    | pinging i m =>
      rw [hplace] at hfits
      obtain ⟨added, hview⟩ := hok (by rw [hplace]; rfl)
      refine ⟨?_, hfits.2⟩
      show (members v)[i]? = some m
      rw [← hview, List.getElem?_append_left (List.getElem?_eq_some_iff.mp hfits.1).1]
      exact hfits.1
    | pingingSmallest m =>
      rw [hplace] at hfits
      exact hfits
    | undefined =>
      rw [hplace] at hfits
      exact hfits
    | asleep | removing => trivial

/-- Whatever the nodes answer, as long as nodes are only added to a view while its first node
pings the others, the loop stays in the view, and a node that is proposed for removal is another
node that has been pinged and has not answered. -/
theorem heartbeater_accurate (p : Peer) (as : List HeartbeaterAction)
    (hok : system.StepsMeet OnlyAdds (start p) as) :
    system.AlongRun Accurate (start p) as :=
  (hok.alongRun (P := Inv) (fun _ _ _ h hok hs => h.step hok hs) (inv_start p)).mono
    fun _ h => h.accurate

instance (s : Heartbeater) : DecidablePred s.OnlyAdds
  | .paxosCommit _ v => inferInstanceAs (Decidable (s.place.inLoop = true → s.mems <+: members v))
  | .wake | .answer _ | .removed => inferInstanceAs (Decidable True)

end Heartbeater

/-- A node in a view. -/
def Peer.inView (mems : List String) (me : String) : Peer where
  me := me
  replica :=
    { config := { acc := .blank me [], myvid := 2, mems := mems }, pending := [], curview := none
      primary := me, named := 0 }
  due := 0
  joins := 0
  adds := []
  started := []
  call := none

namespace Heartbeater

/-- A node is added during a ping that fails. -/
theorem heartbeater_accurate_added :
    let s := start (.inView ["3001", "3002"] "3001")
    let as := [.wake, .paxosCommit 3 "3001 3002 3003 ", .answer none]
    system.AlongRun Accurate s as ∧
      (system.final s as).rounds = [.removeWo "3002" "3002"] := by
  intro s as
  exact ⟨heartbeater_accurate _ as (by decide +kernel), by decide +kernel⟩

-- A node that is removed from the view while it pings reads behind the end.
example :
    (system.final (start (.inView ["3001", "3002"] "3001"))
      [.wake, .paxosCommit 3 "3002 ", .answer none]).place = .undefined := by
  decide +kernel

/-! ## A view that stays -/

/-- The view stays as it is, and exactly the nodes that are down do not answer. -/
def Settled (down : String → Bool) (s : Heartbeater) : HeartbeaterAction → Prop
  | .paxosCommit _ _ => False
  | .answer call => ∀ m ∈ s.place.pinged, doheartbeat call = .ok ↔ down m = false
  | _ => True

end Heartbeater

/-- Whom the node proposes for removal. -/
def Peer.verdict (p : Peer) (down : String → Bool) : Option String :=
  if p.smallest = p.me then p.config.mems.find? down
  else if down p.smallest then some p.smallest else none

namespace Heartbeater

variable {down : String → Bool} {p : Peer} {s t : Heartbeater} {a : HeartbeaterAction}

/-- The nodes in front of the one that is pinged are up. -/
def Awaits (p : Peer) (down : String → Bool) : Beating → Prop
  | .asleep | .removing => True
  | .pinging i m => p.smallest = p.me ∧ p.config.mems[i]? = some m ∧
      ∀ x ∈ p.config.mems.take i, down x = false
  | .pingingSmallest m => p.smallest ≠ p.me ∧ m = p.smallest
  | .undefined => False

structure SettledInv (p : Peer) (down : String → Bool) (s : Heartbeater) : Prop where
  peer : s.peer = p
  place : Awaits p down s.place
  rounds : ∀ r ∈ s.rounds, r.removed = p.verdict down

theorem find?_of_take {l : List String} {i : Nat} {m : String} (hi : l[i]? = some m)
    (hm : down m = true) (htake : ∀ x ∈ l.take i, down x = false) : l.find? down = some m := by
  obtain ⟨hlt, rfl⟩ := List.getElem?_eq_some_iff.mp hi
  refine List.find?_eq_some_iff_append.mpr ⟨hm, l.take i, l.drop (i + 1), ?_, fun x hx => ?_⟩
  · rw [← List.drop_eq_getElem_cons hlt, List.take_append_drop]
  · rw [htake x hx]
    rfl

theorem SettledInv.pingFrom (h : SettledInv p down s) (hme : down p.me = false)
    (hsmallest : p.smallest = p.me) {i : Nat} (htake : ∀ x ∈ p.config.mems.take i, down x = false) :
    SettledInv p down (s.pingFrom i) := by
  obtain ⟨rfl, -, hrounds⟩ := h
  rcases s.pingFrom_cases i with ⟨k, m, heq, hk, hm, hself⟩ | ⟨heq, hself⟩
  · rw [heq]
    refine ⟨rfl, ⟨hsmallest, hk, fun x hx => ?_⟩, hrounds⟩
    rw [List.take_add] at hx
    rcases List.mem_append.mp hx with hx | hx
    · exact htake x hx
    · rw [hself x hx]
      exact hme
  · rw [heq]
    refine ⟨rfl, trivial, List.forall_mem_cons.mpr ⟨?_, hrounds⟩⟩
    rw [Peer.verdict, if_pos hsmallest]
    refine (List.find?_eq_none.mpr fun x hx => ?_).symm
    rw [← List.take_append_drop i s.peer.config.mems] at hx
    rcases List.mem_append.mp hx with hx | hx
    · rw [htake x hx]
      exact Bool.false_ne_true
    · rw [hself x hx, hme]
      exact Bool.false_ne_true

theorem SettledInv.step (h : SettledInv p down s) (hme : down p.me = false)
    (hok : s.Settled down a) (hs : s.step a = some t) : SettledInv p down t := by
  have hplace := h.place
  cases a with
  | wake =>
    cases hp : s.place with
    | asleep =>
      simp only [Heartbeater.step, hp] at hs
      split at hs
      · cases hs
        exact h
      · split at hs
        · rename_i hsmallest
          cases hs
          rw [me, h.peer] at hsmallest
          exact h.pingFrom hme hsmallest fun x hx => absurd hx List.not_mem_nil
        · rename_i hsmallest
          cases hs
          rw [me, h.peer] at hsmallest
          exact ⟨h.peer, ⟨hsmallest, congrArg Peer.smallest h.peer⟩, h.rounds⟩
    | _ => simp [Heartbeater.step, hp] at hs
  | answer call =>
    cases hp : s.place with
    | pinging i m =>
      rw [hp] at hplace
      obtain ⟨hsmallest, hi, htake⟩ := hplace
      have hdown := hok m (by rw [hp]; rfl)
      have hmems : s.mems[i]? = some m := by rw [mems, h.peer]; exact hi
      simp only [Heartbeater.step, hp, hmems] at hs
      split at hs
      · rename_i hanswer
        cases hs
        refine h.pingFrom hme hsmallest fun x hx => ?_
        rw [List.take_add_one, hi] at hx
        rcases List.mem_append.mp hx with hx | hx
        · exact htake x hx
        · rw [List.mem_singleton.mp hx]
          exact hdown.mp hanswer
      · rename_i hanswer
        cases hs
        refine ⟨h.peer, trivial, List.forall_mem_cons.mpr ⟨?_, h.rounds⟩⟩
        have hm : down m = true := Bool.eq_true_of_not_eq_false (mt hdown.mpr hanswer)
        rw [Peer.verdict, if_pos hsmallest, find?_of_take hi hm htake]
        rfl
    | pingingSmallest m =>
      rw [hp] at hplace
      obtain ⟨hsmallest, rfl⟩ := hplace
      have hdown := hok _ (by rw [hp]; rfl)
      simp only [Heartbeater.step, hp] at hs
      split at hs
      · rename_i hanswer
        cases hs
        refine ⟨h.peer, trivial, List.forall_mem_cons.mpr ⟨?_, h.rounds⟩⟩
        rw [Peer.verdict, if_neg hsmallest, hdown.mp hanswer]
        rfl
      · rename_i hanswer
        cases hs
        refine ⟨h.peer, trivial, List.forall_mem_cons.mpr ⟨?_, h.rounds⟩⟩
        have hm : down p.smallest = true := Bool.eq_true_of_not_eq_false (mt hdown.mpr hanswer)
        rw [Peer.verdict, if_neg hsmallest, if_pos hm]
        rfl
    | _ => simp [Heartbeater.step, hp] at hs
  | removed =>
    cases hp : s.place with
    | removing =>
      simp only [Heartbeater.step, hp] at hs
      cases hs
      exact ⟨h.peer, trivial, h.rounds⟩
    | _ => simp [Heartbeater.step, hp] at hs
  | paxosCommit inst v => exact hok.elim

theorem settledInv_start (p : Peer) (down : String → Bool) : SettledInv p down (start p) :=
  ⟨rfl, trivial, fun _ h => absurd h List.not_mem_nil⟩

theorem rounds_verdict (hme : down p.me = false) {as : List HeartbeaterAction}
    (hok : system.StepsMeet (Settled down) (start p) as) :
    system.AlongRun (fun s => ∀ r ∈ s.rounds, r.removed = p.verdict down) (start p) as :=
  (hok.alongRun (P := SettledInv p down) (fun _ _ _ h hok hs => h.step hme hok hs)
    (settledInv_start p down)).mono fun _ h => h.rounds

end Heartbeater

/-! ## The node with the smallest number -/

/-- The search takes a node whose number is at most that of every other. -/
theorem foldl_smallest (mems : List String) (me : String) :
    mems.foldl (fun m x => if nodeNumber m > nodeNumber x then x else m) me ∈ me :: mems ∧
      ∀ y ∈ me :: mems, nodeNumber
        (mems.foldl (fun m x => if nodeNumber m > nodeNumber x then x else m) me) ≤
          nodeNumber y := by
  induction mems generalizing me with
  | nil => exact ⟨List.mem_cons_self, List.forall_mem_singleton.mpr (UInt64.le_refl _)⟩
  | cons x mems ih =>
    rw [List.foldl_cons]
    by_cases hx : nodeNumber me > nodeNumber x
    · rw [if_pos hx]
      obtain ⟨hmem, hle⟩ := ih x
      refine ⟨List.mem_cons_of_mem me hmem, List.forall_mem_cons.mpr ⟨?_, hle⟩⟩
      exact UInt64.le_trans (hle x List.mem_cons_self) (UInt64.le_of_lt hx)
    · rw [if_neg hx]
      obtain ⟨hmem, hle⟩ := ih me
      obtain ⟨hme, hmems⟩ := List.forall_mem_cons.mp hle
      have hxle := UInt64.le_trans hme (UInt64.not_lt.mp hx)
      refine ⟨?_, List.forall_mem_cons.mpr ⟨hme, List.forall_mem_cons.mpr ⟨hxle, hmems⟩⟩⟩
      rcases List.mem_cons.mp hmem with heq | hmem
      · rw [heq]
        exact List.mem_cons_self
      · exact List.mem_cons_of_mem _ (List.mem_cons_of_mem _ hmem)

theorem Peer.smallest_eq {p : Peer} (hme : p.me ∈ p.config.mems)
    (hnum : (p.config.mems.map nodeNumber).Nodup) {m : String} (hm : m ∈ p.config.mems)
    (hle : ∀ x ∈ p.config.mems, nodeNumber m ≤ nodeNumber x) : p.smallest = m := by
  obtain ⟨hmem, hsmallest⟩ := foldl_smallest p.config.mems p.me
  have hmems : p.smallest ∈ p.config.mems := by
    rcases List.mem_cons.mp hmem with heq | hmem
    · rw [Peer.smallest, heq]
      exact hme
    · exact hmem
  refine List.inj_on_of_nodup_map hnum hmems hm ?_
  exact UInt64.le_antisymm (hsmallest m (List.mem_cons_of_mem _ hm)) (hle _ hmems)

theorem exists_smallest {mems : List String} (h : mems ≠ []) :
    ∃ m ∈ mems, ∀ x ∈ mems, nodeNumber m ≤ nodeNumber x := by
  cases mems with
  | nil => exact absurd rfl h
  | cons x mems =>
    obtain ⟨hmem, hle⟩ := foldl_smallest mems x
    exact ⟨_, hmem, hle⟩

/-- The verdicts of the members: all that name a node name the same, and one names it if there is
one. -/
theorem verdict_agree {mems : List String} (hnum : (mems.map nodeNumber).Nodup)
    {down : String → Bool} (hup : ∃ m ∈ mems, down m = false) :
    ∃ d : Option String, (d = none ↔ ∀ m ∈ mems, down m = false) ∧
      (∀ m ∈ d, m ∈ mems ∧ down m = true) ∧
      (∀ p : Peer, p.config.mems = mems → p.me ∈ mems → down p.me = false →
        p.verdict down = none ∨ p.verdict down = d) ∧
      ∃ me ∈ mems, down me = false ∧
        ∀ p : Peer, p.config.mems = mems → p.me = me → p.verdict down = d := by
  obtain ⟨up, hupmem, hup⟩ := hup
  obtain ⟨m, hm, hle⟩ := exists_smallest (List.ne_nil_of_mem hupmem)
  have hverdict : ∀ p : Peer, p.config.mems = mems → p.me ∈ mems →
      p.verdict down = if m = p.me then mems.find? down else if down m then some m else none := by
    intro p hp hme
    subst hp
    rw [Peer.verdict, Peer.smallest_eq hme hnum hm hle]
  by_cases hdown : down m = true
  · -- The node with the smallest number is down, and everybody pings it.
    have hsome : ∀ p : Peer, p.config.mems = mems → p.me ∈ mems → down p.me = false →
        p.verdict down = some m := by
      intro p hp hme hpup
      have hne : m ≠ p.me := by
        intro heq
        rw [heq, hpup] at hdown
        cases hdown
      rw [hverdict p hp hme, if_neg hne, if_pos hdown]
    refine ⟨some m, ⟨(fun h => by cases h), fun h => ?_⟩, fun x hx => ?_,
      fun p hp hme hpup => .inr (hsome p hp hme hpup), up, hupmem, hup, fun p hp hme => ?_⟩
    · rw [h m hm] at hdown
      cases hdown
    · cases hx
      exact ⟨hm, hdown⟩
    · exact hsome p hp (hme ▸ hupmem) (hme ▸ hup)
  · -- It is up, and nobody else names a node.
    have hmup : down m = false := Bool.eq_false_iff.mpr hdown
    refine ⟨mems.find? down, ?_, fun x hx => ?_, fun p hp hme _ => ?_, m, hm, hmup,
      fun p hp hme => ?_⟩
    · simp only [List.find?_eq_none, Bool.not_eq_true]
    · exact ⟨List.mem_of_find?_eq_some hx, List.find?_some hx⟩
    · rw [hverdict p hp hme, if_neg hdown]
      split
      · exact .inr rfl
      · exact .inl rfl
    · rw [hverdict p hp (hme ▸ hm), if_pos hme.symm]

namespace Heartbeater

instance (down : String → Bool) (s : Heartbeater) : DecidablePred (s.Settled down)
  | .paxosCommit _ _ => inferInstanceAs (Decidable False)
  | .answer call => inferInstanceAs
      (Decidable (∀ m ∈ s.place.pinged, doheartbeat call = .ok ↔ down m = false))
  | .wake | .removed => inferInstanceAs (Decidable True)

def firstDown (m : String) : Bool := m == "3001"

end Heartbeater
end Rsm
end Frangipani
