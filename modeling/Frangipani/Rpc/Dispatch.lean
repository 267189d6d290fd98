/-
The connections of a server, from `accept` to the last reference.

`tcpsconn` keeps every connection it accepts, and drops the dead ones that have no
other reference when it accepts the next.  `got_pdu` takes a reference for the job that
it queues, and `dispatch`, in one of the workers, gives it back.  In between it may
store the connection for its client, which takes another reference, and go over to the
connection that is stored.

Each thread is split where it holds no lock.  The poll thread is in `got_pdu` before and
after it adds the job, the accepting thread goes through its connections with three
calls for each, and connections may die and `reachable_` may change in between.  Of the
replies only the lists of `reply_window_` are kept, which decide what a request is.

`queued` has the jobs that the queue took and `deleted` those that `got_pdu` deleted.
`stale` has the connections of the requests for another instance that were answered.
-/
import Mathlib.Algebra.BigOperators.Group.Finset.Basic
import Mathlib.Data.Fintype.Basic
import Frangipani.Data.OrderedMap
import Frangipani.Rpc.Pdu
import Frangipani.Rpc.Server
import Frangipani.Transition.System

namespace Frangipani
namespace Rpc

open Memory Transition

deriving instance DecidableEq for ReqHeader

/-! ## Connections -/

/-- `connection`, as far as it is about references. -/
structure Conn where
  fd : Int
  dead : Bool
  refno : Int
  deriving DecidableEq, Inhabited

/-- The connections there are, and the descriptors that are open for them. -/
structure Conns where
  heap : Heap Conn
  fds : Int → Bool

namespace Conns

def new : Conns where
  heap := { live := fun _ => false, content := fun _ => default }
  fds := fun _ => false

def Live (p : Conns) (c : Nat) : Prop := p.heap.live c = true

def fd (p : Conns) (c : Nat) : Int := (p.heap.content c).fd

def dead (p : Conns) (c : Nat) : Bool := (p.heap.content c).dead

def refno (p : Conns) (c : Nat) : Int := (p.heap.content c).refno

/-- The constructor. -/
def create (p : Conns) (c : Nat) (fd : Int) : Conns where
  heap := (p.heap.alloc c).write c { fd := fd, dead := false, refno := 1 }
  fds := Function.update p.fds fd true

/-- The connection is found to be dead, by a read or a write. -/
def die (p : Conns) (c : Nat) : Conns :=
  { p with heap := p.heap.write c { p.heap.content c with dead := true } }

def incref (p : Conns) (c : Nat) : Conns :=
  { p with heap := p.heap.write c { p.heap.content c with refno := p.refno c + 1 } }

/-- `decref`.  The destructor closes the descriptor. -/
def decref (p : Conns) (c : Nat) : Conns :=
  let heap := p.heap.write c { p.heap.content c with refno := p.refno c - 1 }
  if p.refno c - 1 = 0 ∧ p.dead c = true then
    { heap := heap.free c, fds := Function.update p.fds (p.fd c) false }
  else { p with heap }

/-- `incref` through a pointer, which nothing is done with when it is null. -/
def increfAt (p : Conns) : Option Nat → Conns
  | some c => p.incref c
  | none => p

def decrefAt (p : Conns) : Option Nat → Conns
  | some c => p.decref c
  | none => p

end Conns

/-! ## The threads -/

/-- `djob_t`.  Jobs are numbered in the order in which they are made.  There is no header when it
cannot be unpacked. -/
structure Job where
  id : Nat
  conn : Nat
  req : Option ReqHeader
  deriving DecidableEq

/-- The poll thread: out of `got_pdu`, before `addObjJob`, and after it. -/
inductive Poll
  | idle
  | adding (j : Job)
  | added (j : Job) (succ : Bool)
  deriving DecidableEq

/-- The accepting thread, with the new connection and the entries of the loop that are left: out of
`process_accept`, before `isdead`, before `ref`, and before `decref`. -/
inductive Acceptor
  | idle
  | collecting (ch : Nat) (rest : List (Int × Nat))
  | dead (ch : Nat) (e : Int × Nat) (rest : List (Int × Nat))
  | sole (ch : Nat) (e : Int × Nat) (rest : List (Int × Nat))
  deriving DecidableEq

/-- A worker: out of `dispatch`, after it has unpacked the header, before it answers a request for
another instance, before it stores the connection, before the check, in the handler, before it gets
the latest connection, before it sends, and before the last `decref`. -/
inductive Dispatch
  | idle
  | entered (c : Nat) (req : Option ReqHeader)
  | stale (c : Nat)
  | saving (c : Nat) (h : ReqHeader)
  | checking (c : Nat) (h : ReqHeader)
  | running (c : Nat) (h : ReqHeader)
  | switching (c : Nat) (h : ReqHeader)
  | sending (c : Option Nat)
  | leaving (c : Nat)
  deriving DecidableEq

/-- The new connection of `process_accept`. -/
def Acceptor.conn : Acceptor → Option Nat
  | .idle => none
  | .collecting ch _ | .dead ch _ _ | .sole ch _ _ => some ch

/-- The pointer that the worker goes on with. -/
def Dispatch.pointer : Dispatch → Option (Option Nat)
  | .idle => none
  | .entered c _ | .stale c | .saving c _ | .checking c _ | .running c _ | .switching c _
  | .leaving c => some (some c)
  | .sending c => some c

structure Serving where
  nonce : UInt32
  procs : List Int32
  reachable : Bool
  pool : Conns
  /-- `tcpsconn::conns_`. -/
  tcps : OrderedMap Int Nat
  acceptor : Acceptor
  /-- `rpcs::conns_`, with the nonces as numbers. -/
  conns : OrderedMap Nat (Option Nat)
  replyWindow : UInt32 → List ReplyT
  queue : List Job
  poll : Poll
  worker : Fin poolSize → Dispatch
  made : Nat
  queued : List Nat
  deleted : List Nat
  stale : List Nat

/-- What the threads and the connections do next.  `b` is the buffer of a reply. -/
inductive ServingAction
  | accept (c : Nat) (fd : Int)
  | accepting
  | gotPdu (c : Nat) (req : Option ReqHeader)
  | polling
  | dispatch (t : Fin poolSize) (b : Nat)
  | die (c : Nat)
  | setReachable (r : Bool)

/-- The capacity of the queue. -/
abbrev maxJobs : Nat := 100 * poolSize

namespace Serving

def new (nonce : UInt32) (procs : List Int32) : Serving where
  nonce := nonce
  procs := procs
  reachable := true
  pool := .new
  tcps := .empty
  acceptor := .idle
  conns := .empty
  replyWindow := fun _ => []
  queue := []
  poll := .idle
  worker := fun _ => .idle
  made := 0
  queued := []
  deleted := []
  stale := []

def setWorker (s : Serving) (t : Fin poolSize) (d : Dispatch) : Serving :=
  { s with worker := Function.update s.worker t d }

/-- One call of the loop in `process_accept`, or the assignment behind it. -/
def accepting (s : Serving) : Option Serving :=
  match s.acceptor with
  | .idle => none
  | .collecting ch [] =>
    some { s with acceptor := .idle, tcps := s.tcps.assign (s.pool.fd ch) ch }
  | .collecting ch (e :: rest) =>
    some { s with acceptor := if s.pool.dead e.2 then .dead ch e rest else .collecting ch rest }
  | .dead ch e rest =>
    some { s with acceptor := if s.pool.refno e.2 = 1 then .sole ch e rest
      else .collecting ch rest }
  | .sole ch e rest =>
    some { s with
      acceptor := .collecting ch rest, pool := s.pool.decref e.2, tcps := s.tcps.erase e.1 }

/-- `got_pdu`, up to `addObjJob`. -/
def gotPdu (s : Serving) (c : Nat) (req : Option ReqHeader) : Serving :=
  if s.reachable then
    { s with
      pool := s.pool.incref c, poll := .adding { id := s.made, conn := c, req := req },
      made := s.made + 1 }
  else s

/-- The rest of `got_pdu`.  The queue does not wait when it is full. -/
def polling (s : Serving) : Option Serving :=
  match s.poll with
  | .idle => none
  | .adding j =>
    if s.queue.length < maxJobs then
      some { s with queue := s.queue ++ [j], poll := .added j true, queued := j.id :: s.queued }
    else some { s with poll := .added j false }
  | .added j succ =>
    if !succ || !s.reachable then
      some { s with pool := s.pool.decref j.conn, poll := .idle, deleted := j.id :: s.deleted }
    else some { s with poll := .idle }

/-- Save the latest good connection to the client. -/
def save (s : Serving) (c n : Nat) : Serving :=
  match s.conns.find n with
  | none => { s with pool := s.pool.incref c, conns := s.conns.assign n (some c) }
  | some p =>
    if p = some c then s
    else { s with pool := (s.pool.decrefAt p).incref c, conns := s.conns.assign n (some c) }

/-- Get the latest connection to the client.  The subscript enters a null pointer when there is
none. -/
def switch (s : Serving) (t : Fin poolSize) (c n : Nat) : Serving :=
  if s.pool.dead c then
    let r := s.conns.index n none
    if r.1 = some c then { s with conns := r.2 }.setWorker t (.sending (some c))
    else
      { s with conns := r.2, pool := (s.pool.decref c).increfAt r.1 }.setWorker t (.sending r.1)
  else s.setWorker t (.sending (some c))

/-- `checkduplicate_and_update`, and the branch that the request takes. -/
def check (s : Serving) (t : Fin poolSize) (c : Nat) (h : ReqHeader) : Serving :=
  let res := checkduplicateAndUpdate (s.replyWindow h.cltNonce) h.xid.toUInt32 h.xidRep.toUInt32
  { s with replyWindow := Function.update s.replyWindow h.cltNonce res.2 }.setWorker t
    (match res.1 with
    | .new => .running c h
    | .inprogress => .leaving c
    | .done _ | .forgotten => .sending (some c))

/-- Where a request goes after its header. -/
def route (s : Serving) (c : Nat) : Option ReqHeader → Dispatch
  | none => .leaving c
  | some h =>
    if h.srvNonce ≠ 0 ∧ h.srvNonce ≠ s.nonce then .stale c
    else if h.proc ∉ s.procs then .leaving c
    else if h.cltNonce ≠ 0 then .saving c h
    else .running c h

/-- The next step of a worker.  A worker that is free takes a job, and one with a null pointer does
not go on. -/
def dispatch (s : Serving) (t : Fin poolSize) (b : Nat) : Option Serving :=
  match s.worker t with
  | .idle =>
    match s.queue with
    | [] => none
    | j :: queue => some ({ s with queue }.setWorker t (.entered j.conn j.req))
  | .entered c req => some (s.setWorker t (s.route c req))
  | .stale c => some ({ s with stale := c :: s.stale }.setWorker t .idle)
  | .saving c h => some ((s.save c h.cltNonce.toNat).setWorker t (.checking c h))
  | .checking c h => some (s.check t c h)
  | .running c h =>
    if h.cltNonce > 0 then
      (addReply h.xid.toUInt32 b (s.replyWindow h.cltNonce)).map fun l =>
        { s with replyWindow := Function.update s.replyWindow h.cltNonce l }.setWorker t
          (.switching c h)
    else some (s.setWorker t (.switching c h))
  | .switching c h => some (s.switch t c h.cltNonce.toNat)
  | .sending (some c) => some (s.setWorker t (.leaving c))
  | .sending none => none
  | .leaving c => some ({ s with pool := s.pool.decref c }.setWorker t .idle)

/-- A new connection has an address and a descriptor that are not in use, and a PDU comes in on a
connection that is not dead. -/
def step (s : Serving) : ServingAction → Option Serving
  | .accept c fd =>
    if s.acceptor = .idle ∧ s.pool.heap.live c = false ∧ s.pool.fds fd = false then
      some { s with acceptor := .collecting c s.tcps.entries, pool := s.pool.create c fd }
    else none
  | .accepting => s.accepting
  | .gotPdu c req =>
    if s.poll = .idle ∧ s.pool.heap.live c = true ∧ s.pool.dead c = false then
      some (s.gotPdu c req)
    else none
  | .polling => s.polling
  | .dispatch t b => s.dispatch t b
  | .die c => if s.pool.heap.live c = true then some { s with pool := s.pool.die c } else none
  | .setReachable r => some { s with reachable := r }

def system : System Serving ServingAction where
  init s := ∃ nonce procs, s = new nonce procs
  step := step

/-! ## What should hold -/

/-- All jobs are finished, and none is being added. -/
def Settled (s : Serving) : Prop := s.queue = [] ∧ s.poll = .idle ∧ ∀ t, s.worker t = .idle

instance (s : Serving) : Decidable s.Settled := inferInstanceAs (Decidable (_ ∧ _ ∧ _))

/-- `tcpsconn` has the connection. -/
def Held (s : Serving) (c : Nat) : Prop :=
  (∃ e ∈ s.tcps.entries, e.2 = c) ∨ s.acceptor.conn = some c

instance (s : Serving) (c : Nat) : Decidable (s.Held c) := inferInstanceAs (Decidable (_ ∨ _))

/-- The number of client nonces that the connection is stored for. -/
def stored (s : Serving) (c : Nat) : Nat := s.conns.count fun p => p = some c

/-- Every connection counts the one of `tcpsconn` and those of its clients. -/
def Counted (s : Serving) : Prop :=
  ∀ c, s.pool.Live c → s.pool.refno c = (if s.Held c then 1 else 0) + s.stored c

/-- The pointer leads to a connection. -/
def Points (s : Serving) (p : Option Nat) : Prop := ∃ c, p = some c ∧ s.pool.Live c

structure Safe (s : Serving) : Prop where
  /-- The assertion of `decref`. -/
  refno : ∀ c, s.pool.Live c → 0 ≤ s.pool.refno c
  jobs : ∀ i ∈ s.queued, i ∉ s.deleted
  /-- The connections that are used are there. -/
  worker : ∀ t p, (s.worker t).pointer = some p → s.Points p
  queue : ∀ j ∈ s.queue, s.Points (some j.conn)
  conns : ∀ n p, s.conns.find n = some p → s.Points p

/-- References are balanced. -/
structure Fine (s : Serving) : Prop where
  safe : s.Safe
  counted : s.Settled → s.Counted

/-- `got_pdu` finds the server reachable after the queue took its job, and a request with client
nonce 0 finds its connection alive. -/
def Regular (s : Serving) : ServingAction → Prop
  | .polling =>
    match s.poll with
    | .added _ true => s.reachable = true
    | _ => True
  | .dispatch t _ =>
    match s.worker t with
    | .switching c h => h.cltNonce = 0 → s.pool.dead c = false
    | _ => True
  | _ => True

end Serving
end Rpc
end Frangipani
