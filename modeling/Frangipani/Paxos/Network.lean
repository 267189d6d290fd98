/-
Proposers, acceptors and the messages between them.

Every node has an acceptor and a proposer.  `proposer::run` goes through three
phases, `prepare`, `accept` and `decide`, and in each of them calls the nodes of
a list one after the other.  A step of a proposer is the stretch of `run` between
two of its remote calls.

A call that was made may be run by its acceptor at any time, once, or never, also
after the caller has given it up.  A reply reaches the caller as long as it still
waits for it.  This covers every order, delay and loss of messages.

A handler runs in one piece here; `Handlers` takes it apart into its statements.  The
test hooks that stop the process at a breakpoint are left out.
-/
import Mathlib.Logic.Function.Basic
import Frangipani.Paxos.Log
import Frangipani.Transition.System

namespace Frangipani
namespace Paxos

open Transition

inductive Body
  | prepare (arg : PrepareArg)
  | accept (arg : AcceptArg)
  | decide (arg : DecideArg)
  deriving DecidableEq, Repr

/-- A call of a node's handler.  The number tells calls apart. -/
structure Request where
  id : Nat
  src : String
  dst : String
  body : Body
  deriving DecidableEq, Repr

inductive Answer
  | prepared (res : PrepareRes)
  | accepted (r : Bool)
  | decided (r : Bool)
  deriving DecidableEq, Repr

structure Reply where
  request : Request
  answer : Answer
  deriving DecidableEq, Repr

/-- Run the handler that a request is for. -/
def Acceptor.serve (a : Acceptor) : Body → Answer × Acceptor
  | .prepare arg => let (res, a) := a.preparereq arg; (.prepared res, a)
  | .accept arg => let (r, a) := a.acceptreq arg; (.accepted r, a)
  | .decide arg => let (r, a) := a.decidereq arg; (.decided r, a)

theorem Acceptor.serve_prepare {a b : Acceptor} {arg : PrepareArg} {res : PrepareRes}
    (h : a.preparereq arg = (res, b)) : a.serve (.prepare arg) = (.prepared res, b) := by
  simp only [serve, h]

theorem Acceptor.serve_accept {a b : Acceptor} {arg : AcceptArg} {r : Bool}
    (h : a.acceptreq arg = (r, b)) : a.serve (.accept arg) = (.accepted r, b) := by
  simp only [serve, h]

inductive Phase
  | prepare
  | accept
  | decide
  deriving DecidableEq, Repr

/-- The local variables of `run` and of the phase it is in.  `todo` are the nodes
that the phase has not finished with, and `outstanding` is the call to the first
of them, once it is made.  `pick` is the largest ballot that a node has reported
with a value; the code keeps only its number, as `highest_n`. -/
structure Run where
  phase : Phase
  inst : UInt32
  cNodes : List String
  cV : String
  v : String
  accepts : List String
  highestN : UInt32
  pick : Option PropT
  todo : List String
  outstanding : Option Request
  deriving DecidableEq, Repr

/-- `proposer`.  Its flag `stable` says that no `run` is active. -/
structure Proposer where
  myN : PropT
  run : Option Run
  deriving DecidableEq, Repr

/-- `proposer::majority`: do the nodes of `l2` contain a majority of those of
`l1`? -/
def majority (l1 l2 : List String) : Bool :=
  l1.countP (fun x => decide (x ∈ l2)) ≥ l1.length / 2 + 1

/-- `proposer::setn`, in the arithmetic of `unsigned`. -/
def setn (nH myN : UInt32) : UInt32 :=
  if nH + 1 > myN + 1 then nH + 1 else myN + 1

namespace Run

/-- `run` has chosen its number and starts the prepare phase. -/
def start (inst : UInt32) (nodes : List String) (v : String) : Run where
  phase := .prepare
  inst := inst
  cNodes := nodes
  cV := v
  v := v
  accepts := []
  highestN := 0
  pick := none
  todo := nodes
  outstanding := none

/-- The call that the phase makes. -/
def body (r : Run) (myN : PropT) : Body :=
  match r.phase with
  | .prepare => .prepare { inst := r.inst, n := myN, v := "" }
  | .accept => .accept { inst := r.inst, n := myN, v := r.v }
  | .decide => .decide { inst := r.inst, v := r.v }

/-- The phase is done with the node it called. -/
def advance (r : Run) : Run := { r with todo := r.todo.tail, outstanding := none }

/-- A node has accepted the prepare.  A value that it reports is taken over when
its ballot number is larger than any seen before; the node name of the ballot is
not looked at. -/
def promised (r : Run) (node : String) (res : PrepareRes) : Run :=
  let r := { r.advance with accepts := r.accepts ++ [node] }
  if res.vA = "" then r
  else
    let pick := some (match r.pick with | some b => max b res.nA | none => res.nA)
    if res.nA.n > r.highestN then { r with highestN := res.nA.n, v := res.vA, pick := pick }
    else { r with pick := pick }

/-- The phase is over: the next one, if the nodes that accepted are a majority. -/
def finish (r : Run) : Option Run :=
  match r.phase with
  | .prepare =>
    if majority r.cNodes r.accepts then
      some { r with
        phase := .accept, v := if r.v = "" then r.cV else r.v, todo := r.accepts, accepts := [] }
    else none
  | .accept =>
    if majority r.cNodes r.accepts then some { r with phase := .decide, todo := r.accepts }
    else none
  | .decide => none

end Run

/-- All nodes and the messages under way.  Three fields are not in the code:
`calls` are the arguments of the calls of `run` so far, `acceptedFor` is the
instance for which a node last accepted a value, and `commits` are the values
that the nodes have committed. -/
structure World where
  acceptor : String → Acceptor
  proposer : String → Proposer
  requests : List Request
  replies : List Reply
  nextId : Nat
  calls : List (UInt32 × String)
  acceptedFor : String → UInt32
  commits : List (String × UInt32 × String)

inductive Action
  | start (p : String) (inst : UInt32) (nodes : List String) (v : String)
  | send (p : String)
  | skip (p : String)
  | giveUp (p : String)
  | deliver (k : Nat)
  | receive (p : String) (k : Nat)
  | finish (p : String)
  deriving DecidableEq, Repr

namespace World

def setRun (w : World) (p : String) (run : Option Run) : World :=
  { w with proposer := Function.update w.proposer p { w.proposer p with run := run } }

def setAcceptor (w : World) (p : String) (a : Acceptor) : World :=
  { w with acceptor := Function.update w.acceptor p a }

/-- `run` is called.  It returns at once when the proposer is already running. -/
def start (w : World) (p : String) (inst : UInt32) (nodes : List String) (v : String) : World :=
  match (w.proposer p).run with
  | some _ => w
  | none =>
    let n := setn (w.acceptor p).nH.n (w.proposer p).myN.n
    { w with
      proposer := Function.update w.proposer p
        { myN := { n := n, m := p }, run := some (.start inst nodes v) }
      calls := (inst, v) :: w.calls }

/-- The proposer has made its call of `dst`. -/
def sent (w : World) (p : String) (r : Run) (dst : String) : World :=
  let req : Request :=
    { id := w.nextId, src := p, dst := dst, body := r.body (w.proposer p).myN }
  { w.setRun p (some { r with outstanding := some req }) with
    requests := w.requests ++ [req], nextId := w.nextId + 1 }

/-- The proposer calls the next node of its phase. -/
def send (w : World) (p : String) : Option World :=
  match (w.proposer p).run with
  | some r =>
    match r.outstanding, r.todo with
    | none, dst :: _ => some (w.sent p r dst)
    | _, _ => none
  | none => none

/-- The proposer has no connection to the next node. -/
def skip (w : World) (p : String) : Option World :=
  match (w.proposer p).run with
  | some r =>
    match r.outstanding, r.todo with
    | none, _ :: _ => some (w.setRun p (some r.advance))
    | _, _ => none
  | none => none

/-- The call of the proposer fails.  Its request may still be under way. -/
def giveUp (w : World) (p : String) : Option World :=
  match (w.proposer p).run with
  | some r => if r.outstanding.isSome then some (w.setRun p (some r.advance)) else none
  | none => none

/-- The instance an acceptor has last accepted for, after it gave an answer. -/
def acceptedInst (j : UInt32) : Body → Answer → UInt32
  | .accept arg, .accepted true => arg.inst
  | _, _ => j

/-- What an acceptor has committed when it gives an answer. -/
def committedBy (dst : String) : Body → Answer → List (String × UInt32 × String)
  | .decide arg, .decided true => [(dst, arg.inst, arg.v)]
  | _, _ => []

theorem mem_committedBy {dst p : String} {body : Body} {answer : Answer} {inst : UInt32}
    {v : String} (h : (p, inst, v) ∈ committedBy dst body answer) :
    ∃ arg, body = .decide arg ∧ answer = .decided true ∧ p = dst ∧ inst = arg.inst ∧ v = arg.v := by
  unfold committedBy at h
  split at h
  · rename_i arg
    cases List.mem_singleton.mp h
    exact ⟨arg, rfl, rfl, rfl, rfl, rfl⟩
  · cases h

theorem not_mem_committedBy {body : Body} (h : ∀ arg, body ≠ .decide arg) (dst : String)
    (answer : Answer) (x : String × UInt32 × String) : x ∉ committedBy dst body answer := by
  intro hmem
  obtain ⟨arg, hdecide, -⟩ := mem_committedBy hmem
  exact h arg hdecide

/-- An acceptor has run the request at index `k`. -/
def delivered (w : World) (k : Nat) (req : Request) : World :=
  let (answer, a) := (w.acceptor req.dst).serve req.body
  { w.setAcceptor req.dst a with
    requests := w.requests.eraseIdx k
    replies := w.replies ++ [{ request := req, answer := answer }]
    acceptedFor := Function.update w.acceptedFor req.dst
      (acceptedInst (w.acceptedFor req.dst) req.body answer)
    commits := committedBy req.dst req.body answer ++ w.commits }

/-- A request reaches its acceptor. -/
def deliver (w : World) (k : Nat) : Option World :=
  match w.requests[k]? with
  | some req => some (w.delivered k req)
  | none => none

/-- The proposer commits a value at the acceptor of its node. -/
def commit (w : World) (p : String) (inst : UInt32) (v : String) : World :=
  { w.setAcceptor p ((w.acceptor p).commit inst v) with
    commits :=
      if inst > (w.acceptor p).instanceH then (p, inst, v) :: w.commits else w.commits }

/-- What the proposer does with an answer. -/
def answered (w : World) (p : String) (r : Run) (req : Request) : Answer → World
  | .prepared res =>
    if res.oldinstance then (w.commit p r.inst res.vA).setRun p none
    else if res.accept then w.setRun p (some (r.promised req.dst res))
    else w.setRun p none
  | .accepted ok =>
    w.setRun p (some (if ok then { r.advance with accepts := r.accepts ++ [req.dst] }
      else r.advance))
  | .decided _ => w.setRun p (some r.advance)

/-- The reply that the proposer waits for arrives. -/
def receive (w : World) (p : String) (k : Nat) : Option World :=
  match (w.proposer p).run, w.replies[k]? with
  | some r, some reply =>
    if r.outstanding = some reply.request then
      some ({ w with replies := w.replies.eraseIdx k }.answered p r reply.request reply.answer)
    else none
  | _, _ => none

/-- The proposer has been through the nodes of its phase. -/
def finish (w : World) (p : String) : Option World :=
  match (w.proposer p).run with
  | some r =>
    match r.outstanding, r.todo with
    | none, [] => some (w.setRun p r.finish)
    | _, _ => none
  | none => none

def step (w : World) : Action → Option World
  | .start p inst nodes v => some (w.start p inst nodes v)
  | .send p => w.send p
  | .skip p => w.skip p
  | .giveUp p => w.giveUp p
  | .deliver k => w.deliver k
  | .receive p k => w.receive p k
  | .finish p => w.finish p

/-! ## What a step does -/

/-- Every step, with what it needs and the state it leads to. -/
inductive Step (w : World) : Action → World → Prop
  | busy (p : String) (inst : UInt32) (nodes : List String) (v : String) (r : Run) :
      (w.proposer p).run = some r → Step w (.start p inst nodes v) w
  | start (p : String) (inst : UInt32) (nodes : List String) (v : String) :
      (w.proposer p).run = none → Step w (.start p inst nodes v) (w.start p inst nodes v)
  | send (p : String) (r : Run) (dst : String) (rest : List String) :
      (w.proposer p).run = some r → r.outstanding = none → r.todo = dst :: rest →
      Step w (.send p) (w.sent p r dst)
  | advance (a : Action) (p : String) (r : Run) : (w.proposer p).run = some r →
      Step w a (w.setRun p (some r.advance))
  | deliver (k : Nat) (req : Request) : w.requests[k]? = some req →
      Step w (.deliver k) (w.delivered k req)
  | receive (p : String) (k : Nat) (r : Run) (reply : Reply) : (w.proposer p).run = some r →
      w.replies[k]? = some reply → r.outstanding = some reply.request →
      Step w (.receive p k)
        ({ w with replies := w.replies.eraseIdx k }.answered p r reply.request reply.answer)
  | finish (p : String) (r : Run) : (w.proposer p).run = some r → r.outstanding = none →
      Step w (.finish p) (w.setRun p r.finish)

theorem step_cases {w t : World} {a : Action} (h : w.step a = some t) : w.Step a t := by
  cases a with
  | start p inst nodes v =>
    cases h
    cases hrun : (w.proposer p).run with
    | none => exact .start p inst nodes v hrun
    | some r =>
      have hsame : w.start p inst nodes v = w := by simp only [start, hrun]
      rw [hsame]
      exact .busy p inst nodes v r hrun
  | send p =>
    simp only [step, send] at h
    split at h
    · rename_i r hrun
      split at h
      · rename_i dst rest hout htodo
        cases h
        exact .send p r dst rest hrun hout htodo
      · cases h
    · cases h
  | skip p =>
    simp only [step, skip] at h
    split at h
    · rename_i r hrun
      split at h
      · cases h
        exact .advance _ p r hrun
      · cases h
    · cases h
  | giveUp p =>
    simp only [step, giveUp] at h
    split at h
    · rename_i r hrun
      split at h
      · cases h
        exact .advance _ p r hrun
      · cases h
    · cases h
  | deliver k =>
    simp only [step, deliver] at h
    split at h
    · rename_i req hreq
      cases h
      exact .deliver k req hreq
    · cases h
  | receive p k =>
    simp only [step, receive] at h
    split at h
    · rename_i r reply hrun hreply
      split at h
      · rename_i hout
        cases h
        exact .receive p k r reply hrun hreply hout
      · cases h
    · cases h
  | finish p =>
    simp only [step, finish] at h
    split at h
    · rename_i r hrun
      split at h
      · rename_i hout _
        cases h
        exact .finish p r hrun hout
      · cases h
    · cases h

theorem setRun_run_self (w : World) (p : String) (run : Option Run) :
    ((w.setRun p run).proposer p).run = run := by
  simp [setRun]

theorem setRun_proposer_ne (w : World) {p q : String} (run : Option Run) (h : q ≠ p) :
    (w.setRun p run).proposer q = w.proposer q := by
  simp [setRun, h]

/-! ## Runs from the start -/

/-- Every node knows the bootstrap value. -/
def booted (boot : String) : World where
  acceptor := fun p => .fresh true p boot
  proposer := fun p => { myN := { n := 0, m := p }, run := none }
  requests := []
  replies := []
  nextId := 0
  calls := []
  acceptedFor := fun _ => 0
  commits := []

/-- The next call of the proposer, its delivery at index `k` and the arrival of
the reply. -/
def roundTrip (p : String) (k : Nat) : List Action := [.send p, .deliver k, .receive p 0]

end World
end Paxos
end Frangipani
