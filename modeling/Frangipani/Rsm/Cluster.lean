/-
A cluster of replicas that changes its membership.

Each node is a process with an acceptor, a configuration and a primary.  A node
that is not a member of its view asks its primary to be let in and takes over the
log that it gets as a reply.  The members ping each other, and a node that does not
answer as it should is proposed for removal.

Paxos is taken at its word here: an instance has one value, and a proposer that
gets its majority for an instance without a value fixes it.  The acceptors are
those of the code, so a node may miss a decide message, may get it late, and may
have it in its values long before the upcall tells the configuration.  Messages
stay in the network, and can be lost, delayed or delivered again; a ping that has
got lost is no longer there.

An assertion that fails ends the process for good.  A crash leaves the log, and
the node may be started again.
-/
import Frangipani.Paxos.Transfer
import Frangipani.Rsm.Holes
import Frangipani.Rsm.Primary

namespace Frangipani
namespace Rsm

open Text Paxos Transition

/-- `config::restore`. -/
def Config.restore (c : Config) (s : List Char) : Option Config :=
  (c.acc.restore s).map fun acc => { c with acc := acc }.reconstruct

/-! ## One node -/

/-- A running node.  `due` counts the calls of `set_primary` that are to be made,
by `commit_change` or by `recovery`, `joins` the calls of `joinreq` that it waits
for, and `adds` has the callers of `joinreq` that it is adding.  `started` are the
threads between the two locks of `add` and `remove_wo`, and `call` is the run of
the proposer. -/
structure Peer where
  me : String
  replica : Replica
  due : Nat
  joins : Nat
  adds : List String
  started : List Started
  call : Option RunCall

inductive HeartbeatStatus
  | ok
  | err
  deriving DecidableEq, Repr

namespace Peer

abbrev config (p : Peer) : Config := p.replica.config

abbrev acc (p : Peer) : Acceptor := p.replica.config.acc

/-- The constructor of `rsm`, once the acceptor is there. -/
def create (first me : String) (acc : Acceptor) : Peer where
  me := me
  replica :=
    { config := .create acc, pending := [], curview := none, primary := first, named := 0 }
  due := 0
  joins := 0
  adds := []
  started := []
  call := none

def setAcc (p : Peer) (acc : Acceptor) : Peer :=
  { p with replica := { p.replica with config := { p.config with acc := acc } } }

def ismember (p : Peer) (m : String) : Bool := isamember m p.config.mems

/-- The node with the smallest number in the search of `heartbeater`, which starts
from the node itself. -/
def smallest (p : Peer) : String :=
  p.config.mems.foldl (fun m x => if nodeNumber m > nodeNumber x then x else m) p.me

/-- The nodes that `heartbeater` pings. -/
def pinged (p : Peer) : List String :=
  if p.ismember p.me = true then
    if p.smallest = p.me then p.config.mems.filter fun x => x != p.me else [p.smallest]
  else []

/-- `config::heartbeat`, with `isrunning` of the proposer.  The result is `none` when
the assertion fails. -/
def heartbeat (p : Peer) (vid : UInt32) : Option (HeartbeatStatus × UInt32) :=
  if vid = p.config.myvid then some (.ok, p.config.myvid)
  else if p.call.isSome = true then
    if vid = p.config.myvid + 1 ∨ vid + 1 = p.config.myvid then some (.ok, p.config.myvid) else none
  else some (.err, p.config.myvid)

/-- The locked part of `add` and `remove_wo`. -/
def lock (p : Peer) (thread : Nat) (change : Change) : Option Peer :=
  if p.started.any fun st => st.thread == thread then none
  else
    let st : Started := { thread := thread, change := change, base := p.config.mems }
    some { p with started := st :: p.started }

/-- The call of `proposer::run`, which does nothing while the proposer runs. -/
def run (p : Peer) (st : Started) : Peer :=
  let call : RunCall :=
    { change := st.change, inst := p.config.myvid + 1, nodes := p.config.mems, v := st.v }
  if p.call.isSome = true then { p with started := p.started.erase st }
  else { p with started := p.started.erase st, call := some call }

theorem run_of_running (p : Peer) (h : p.call.isSome = true) (st : Started) :
    p.run st = { p with started := p.started.erase st } := if_pos h

theorem run_of_stable (p : Peer) (h : p.call.isSome = false) (st : Started) :
    p.run st = { p with
      started := p.started.erase st
      call := some { change := st.change, inst := p.config.myvid + 1, nodes := p.config.mems,
                     v := st.v } } :=
  if_neg (Bool.eq_false_iff.mp h)

end Peer

/-- A process.  Of one that is down there is the text of the log. -/
inductive Process
  | down (log : List Char)
  | up (p : Peer)
  | aborted

def Process.isAborted : Process → Bool
  | .aborted => true
  | _ => false

/-! ## The network -/

/-- The value that was agreed on for each instance, and the messages: `said` are the
decide messages and the replies to a prepare request for an instance that is
decided, `asks` the requests of `joinreq` with the node that is asked and the one
that asks, `logs` the logs in the replies and `beats` the requests of
`heartbeat`. -/
structure Net where
  decided : Map UInt32 String
  said : List (UInt32 × String)
  asks : List (String × String)
  logs : List (String × List Char)
  beats : List (String × UInt32)

namespace Net

def sendLog (net : Net) (m : String) (log : List Char) : Net :=
  { net with logs := (m, log) :: net.logs }

/-- A run of the proposer ends in agreement, on the value that the instance already
has if it has one. -/
def agree (net : Net) (call : RunCall) : Net :=
  let v := (net.decided.find call.inst).getD call.v
  { net with
    decided := net.decided.insert call.inst v
    said := (call.inst, v) :: net.said }

end Net

/-! ## Steps -/

inductive NodeAction
  | start
  | crash
  | preparereq (arg : PrepareArg)
  | acceptreq (arg : AcceptArg)
  | decide (q : UInt32 × String)
  | upcall (q : UInt32 × String)
  | readCurview
  | readPrevview
  | join
  | joinFails
  | joined (log : List Char)
  | joinreq (m : String) (thread : Nat)
  | added (m : String)
  | removeWo (m : String) (thread : Nat)
  | run (thread : Nat)
  | agree
  | stop
  | ping (m : String)
  | heartbeat (vid : UInt32)
  | lost (vid : UInt32)
  deriving DecidableEq, Repr

/-- A step of a running node. -/
def Peer.act (p : Peer) (net : Net) : NodeAction → Option (Process × Net)
  | .start | .lost _ => none
  | .crash => some (.down p.acc.log, net)
  | .preparereq arg =>
    -- A proposer is a node, so its ballots have a node's name.
    if IsWord arg.n.m then
      some (.up (p.setAcc (p.acc.preparereq arg).2),
        { net with said := Teller.tells p.acc (.preparereq arg) ++ net.said })
    else none
  | .acceptreq arg =>
    if IsWord arg.n.m ∧ '\n' ∉ arg.v.toList then
      some (.up (p.setAcc (p.acc.acceptreq arg).2), net)
    else none
  | .decide q =>
    if q ∈ net.said then
      some (.up { p with replica := p.replica.decidereq (fun _ => q.2) q.1 }, net)
    else none
  | .upcall q =>
    if q ∈ p.replica.pending then
      some (.up { p with replica := p.replica.upcall q, due := p.due + 1 }, net)
    else none
  | .readCurview =>
    if 0 < p.due ∧ p.replica.curview.isNone = true then
      some (.up { p with replica := p.replica.readCurview, due := p.due - 1 }, net)
    else none
  | .readPrevview =>
    p.replica.curview.map fun cur =>
      match p.replica.readPrevview cur with
      | some replica => (.up { p with replica := replica }, net)
      | none => (.aborted, net)
  | .join =>
    if p.ismember p.me = true then none
    else some (.up { p with joins := p.joins + 1 },
      { net with asks := (p.replica.primary, p.me) :: net.asks })
  | .joinFails =>
    -- The primary cannot be reached, or its reply is `BUSY`.
    if 0 < p.joins then some (.up { p with joins := p.joins - 1, due := p.due + 1 }, net)
    else none
  | .joined log =>
    if 0 < p.joins ∧ (p.me, log) ∈ net.logs then
      match p.config.restore log with
      | some config =>
        some (.up { p with joins := p.joins - 1, replica := { p.replica with config := config } },
          net)
      | none => some (.aborted, net)
    else none
  | .joinreq m thread =>
    if (p.me, m) ∈ net.asks then
      if p.ismember m = true then some (.up p, net.sendLog m p.acc.dump)
      else if p.me ≠ p.replica.primary then some (.up p, net)
      else (p.lock thread (.add m)).map fun p => (.up { p with adds := m :: p.adds }, net)
    else none
  | .added m =>
    if m ∈ p.adds then
      some (.up { p with adds := p.adds.erase m }, net.sendLog m p.acc.dump)
    else none
  | .removeWo m thread =>
    if m ∈ p.pinged then (p.lock thread (.removeWo m)).map fun p => (.up p, net) else none
  | .run thread =>
    (p.started.find? fun st => st.thread == thread).map fun st => (.up (p.run st), net)
  | .agree => p.call.map fun call => (.up p, net.agree call)
  | .stop => if p.call.isSome = true then some (.up { p with call := none }, net) else none
  | .ping m =>
    if m ∈ p.pinged then
      some (.up p, { net with beats := (m, p.config.myvid) :: net.beats })
    else none
  | .heartbeat vid =>
    if (p.me, vid) ∈ net.beats then
      match p.heartbeat vid with
      | some _ => some (.up p, net)
      | none => some (.aborted, net)
    else none

/-- The process that is started on a log.  The node `first` makes the first view. -/
def boot (first me : String) (log : List Char) : Process :=
  match Acceptor.create (me == first) me me log with
  | some acc => .up (.create first me acc)
  | none => .aborted

/-- A step of a process.  A ping can get lost on its way to it, whatever the process does. -/
def Process.act (first me : String) (net : Net) (x : Process) :
    NodeAction → Option (Process × Net)
  | .lost vid =>
    if (me, vid) ∈ net.beats then some (x, { net with beats := net.beats.erase (me, vid) })
    else none
  | a =>
    match x, a with
    | .down log, .start => if IsWord me then some (boot first me log, net) else none
    | .up p, a => p.act net a
    | _, _ => none

theorem Process.act_cases {first me : String} {net : Net} {x : Process} {a : NodeAction}
    {r : Process × Net} (h : x.act first me net a = some r) :
    (∃ vid, r = (x, { net with beats := net.beats.erase (me, vid) })) ∨
      (∃ log, x = .down log ∧ IsWord me ∧ r = (boot first me log, net)) ∨
      ∃ p, x = .up p ∧ p.act net a = some r := by
  unfold Process.act at h
  split at h
  · rename_i vid
    obtain ⟨-, ⟨⟩⟩ := Option.ite_none_right_eq_some.mp h
    exact .inl ⟨vid, rfl⟩
  · split at h
    · obtain ⟨hword, ⟨⟩⟩ := Option.ite_none_right_eq_some.mp h
      exact .inr (.inl ⟨_, rfl, hword, rfl⟩)
    · exact .inr (.inr ⟨_, rfl, h⟩)
    · cases h

/-- The view that a running node is in. -/
def Process.view : Process → Option UInt32
  | .up p => if p.config.myvid = 0 then none else some p.config.myvid
  | _ => none

theorem Process.view_up {p : Peer} (h : p.config.myvid ≠ 0) :
    (Process.up p).view = some p.config.myvid := if_neg h

structure Cluster where
  nodes : String → Process
  net : Net

structure ClusterAction where
  me : String
  act : NodeAction
  deriving DecidableEq, Repr

namespace Cluster

def peer (s : Cluster) (me : String) : Option Peer :=
  match s.nodes me with
  | .up p => some p
  | _ => none

def setNode (s : Cluster) (me : String) (r : Process × Net) : Cluster where
  nodes := Function.update s.nodes me r.1
  net := r.2

theorem peer_of_up {s : Cluster} {me : String} {p : Peer} (h : s.nodes me = .up p) :
    s.peer me = some p := by
  unfold peer
  rw [h]

theorem nodes_setNode_self (s : Cluster) (me : String) (r : Process × Net) :
    (s.setNode me r).nodes me = r.1 := Function.update_self ..

theorem nodes_setNode_ne (s : Cluster) {me me' : String} (r : Process × Net) (h : me' ≠ me) :
    (s.setNode me r).nodes me' = s.nodes me' := Function.update_of_ne h ..

/-- No node runs and no log has been written.  The first view has the first node
alone, as its acceptor will enter it. -/
def start (first : NodeName) : Cluster where
  nodes := fun _ => .down []
  net :=
    { decided := Map.empty.insert 1 first.name, said := [], asks := [], logs := [], beats := [] }

def system (first : NodeName) : System Cluster ClusterAction where
  init s := s = start first
  step s a := ((s.nodes a.me).act first.name a.me s.net a.act).map (s.setNode a.me)

/-- No assertion has failed. -/
def NoneAborted (s : Cluster) : Prop := ∀ me, s.nodes me ≠ .aborted

theorem not_noneAborted {s : Cluster} (me : String) (h : (s.nodes me).isAborted = true) :
    ¬ s.NoneAborted := by
  intro hnone
  cases hproc : s.nodes me with
  | aborted => exact hnone me hproc
  | down | up =>
    rw [hproc] at h
    cases h

end Cluster

/-! ## The condition -/

/-- A node of the old view is in the new one under the name that its number has. -/
def KeepsMember (mems : List String) (v : String) : Prop :=
  ∃ m ∈ mems, m ∈ members v ∧ nodeName (nodeNumber m) = m

instance (mems : List String) (v : String) : Decidable (KeepsMember mems v) :=
  List.decidableBEx _ mems

/-- A decide message is for the next instance or an old one.  When `set_primary`
chooses, the primary is in the view that it has read, or this is not the first
view and is still the current one.  A join fails only at a node that has a view.
A proposer is run for a view that keeps a member of the one it follows. -/
def Peer.Orderly (p : Peer) : NodeAction → Prop
  | .decide q => q.1.toNat ≤ p.acc.instanceH.toNat + 1
  | .readPrevview => ∀ cur ∈ p.replica.curview,
      isamember p.replica.primary cur.2 = true ∨ 1 < cur.1 ∧ p.config.myvid = cur.1
  | .joinFails => p.config.myvid ≠ 0
  | .run thread => p.call.isNone = true →
      ∀ st ∈ p.started.find? fun st => st.thread == thread, KeepsMember p.config.mems st.v
  | _ => True

instance (p : Peer) : DecidablePred p.Orderly
  | .decide q => inferInstanceAs (Decidable (q.1.toNat ≤ _))
  | .readPrevview => inferInstanceAs (Decidable (∀ cur ∈ p.replica.curview,
      isamember p.replica.primary cur.2 = true ∨ 1 < cur.1 ∧ p.config.myvid = cur.1))
  | .joinFails => inferInstanceAs (Decidable (_ ≠ _))
  | .run thread => inferInstanceAs (Decidable (p.call.isNone = true →
      ∀ st ∈ p.started.find? fun st => st.thread == thread, KeepsMember p.config.mems st.v))
  | .start | .crash | .preparereq _ | .acceptreq _ | .upcall _ | .readCurview | .join
  | .joined _ | .joinreq _ _ | .added _ | .removeWo _ _ | .agree | .stop | .ping _
  | .heartbeat _ | .lost _ =>
    inferInstanceAs (Decidable True)

/-- At most one view apart. -/
def Near (j k : UInt32) : Prop := j = k ∨ j = k + 1 ∨ j + 1 = k

instance (j k : UInt32) : Decidable (Near j k) := inferInstanceAs (Decidable (_ ∨ _ ∨ _))

theorem Near.symm {j k : UInt32} (h : Near j k) : Near k j := by
  rcases h with rfl | rfl | rfl
  · exact .inl rfl
  · exact .inr (.inr rfl)
  · exact .inr (.inl rfl)

namespace Cluster

/-- The view that a step takes its node to, from another one or from none. -/
def entered (first : NodeName) (s : Cluster) (a : ClusterAction) : Option UInt32 :=
  ((system first).step s a).bind fun t =>
    if (t.nodes a.me).view = (s.nodes a.me).view then none else (t.nodes a.me).view

/-- A node goes to a view only when all others that have one, and all the pings under way, are at
most one view away from it. -/
def Paced (first : NodeName) (names : List String) (s : Cluster) (a : ClusterAction) : Prop :=
  ∀ k ∈ s.entered first a,
    (∀ me ∈ names, me ≠ a.me → ∀ j ∈ (s.nodes me).view, Near j k) ∧ ∀ b ∈ s.net.beats, Near b.2 k

-- `UInt32` is a finite type as well.  The instances say that only the one view is looked at.
instance (x : Process) (k : UInt32) : Decidable (∀ j ∈ x.view, Near j k) :=
  Option.decidableForallMem x.view

instance (first : NodeName) (names : List String) (s : Cluster) :
    DecidablePred (s.Paced first names) := fun a =>
  Option.decidableForallMem (s.entered first a)

/-- A step of a cluster of the nodes `names`. -/
def Orderly (first : NodeName) (names : List String) (s : Cluster) (a : ClusterAction) : Prop :=
  a.me ∈ names ∧ (∀ p ∈ s.peer a.me, p.Orderly a.act) ∧ s.Paced first names a

instance (first : NodeName) (names : List String) (s : Cluster) :
    DecidablePred (s.Orderly first names) := fun _ => inferInstanceAs (Decidable (_ ∧ _ ∧ _))

end Cluster

end Rsm
end Frangipani
