/-
Clients, one server and the messages between them.

A message that was sent stays in the network and may arrive any number of times,
in any order, or never.  This covers duplication, reordering, delay and loss.  A
step is what a thread does between two points at which others can run.

A client makes fewer calls than there are numbers, so that `xid_` does not wrap
around: the step at which it would is not taken.
-/
import Frangipani.Rpc.Server
import Frangipani.Transition.System

namespace Frangipani
namespace Rpc

open Transition

/-- One run of a handler: the request it was for and the reply it made. -/
structure Execution where
  req : Request
  rep : Reply
  deriving DecidableEq

/-- What a call has returned. -/
structure Returned where
  req : Request
  ret : Int
  body : List UInt8
  deriving DecidableEq

/-- The state.  Three fields are not in the code: `made` are the requests that the
clients have packed, `executions` are the runs of handlers, and `returned` are the
calls that are over. -/
structure World where
  client : Nonce → Rpcc
  server : Rpcs
  requests : List Request
  replies : List (Nonce × Reply)
  made : List Request
  executions : List Execution
  returned : List Returned

inductive Action
  | call (n : Nonce) (proc : UInt32) (args : List UInt8)
  | transmit (n : Nonce) (xid : UInt32)
  | gotPdu (n : Nonce) (k : Nat)
  | finish (n : Nonce) (xid : UInt32)
  | cancel (n : Nonce) (xid : UInt32)
  | bound (n : Nonce) (r : UInt32)
  | dispatch (t : Fin poolSize) (k : Nat) (b : Nat)
  | execute (t : Fin poolSize) (ret : Int) (body : List UInt8)
  | addReply (t : Fin poolSize)
  | send (t : Fin poolSize)
  deriving DecidableEq

namespace World

def new (nonce : UInt32) (procs : List UInt32) : World where
  client := .new
  server := .new nonce procs
  requests := []
  replies := []
  made := []
  executions := []
  returned := []

def setClient (w : World) (n : Nonce) (c : Rpcc) : World :=
  { w with client := Function.update w.client n c }

theorem setClient_client (w : World) (n : Nonce) (c : Rpcc) (m : Nonce) :
    (w.setClient n c).client m = if m = n then c else w.client m :=
  Function.update_apply _ _ _ _

/-- A thread calls `call1`.  A call that fails at once changes nothing. -/
def call (w : World) (n : Nonce) (proc : UInt32) (args : List UInt8) : Option World :=
  if (w.client n).xid + 1 = 0 then none
  else
    match (w.client n).call1 proc args with
    | .ok c => some { w.setClient n c with made := (w.client n).request proc args :: w.made }
    | .error _ => some w

/-- The thread of a call sends its request. -/
def transmit (w : World) (n : Nonce) (xid : UInt32) : Option World :=
  ((w.client n).calls.find xid).map fun ca => { w with requests := ca.req :: w.requests }

/-- A reply reaches the client. -/
def gotPdu (w : World) (n : Nonce) (k : Nat) : Option World :=
  match w.replies[k]? with
  | some (m, rep) => if m = n then some (w.setClient n ((w.client n).gotPdu rep)) else none
  | none => none

/-- A call returns, with a reply or because the time is up. -/
def finish (w : World) (n : Nonce) (xid : UInt32) : Option World :=
  ((w.client n).calls.find xid).map fun ca =>
    { w.setClient n ((w.client n).finish xid) with
      returned := { req := ca.req, ret := ca.ret, body := ca.rep } :: w.returned }

/-- `cancel` finds the call outstanding. -/
def cancel (w : World) (n : Nonce) (xid : UInt32) : Option World :=
  ((w.client n).calls.find xid).map fun _ => w.setClient n (w.client n).cancel

/-- `bind` goes on after its call has returned.  The result is not unmarshalled
here, so the nonce that it stores may be any. -/
def bound (w : World) (n : Nonce) (r : UInt32) : Option World :=
  if ∃ ret ∈ w.returned,
      ret.req.cltNonce = n ∧ ret.req.proc = RpcConst.bind ∧ ret.ret = 0 then
    some (w.setClient n ((w.client n).bound r))
  else none

/-- An idle worker takes the request at index `k`. -/
def dispatch (w : World) (t : Fin poolSize) (k : Nat) (b : Nat) : Option World :=
  match w.requests[k]? with
  | some req =>
    if w.server.worker t = .idle ∧ w.server.heap.live b = false then
      let d := w.server.dispatch t req b
      some { w with
        server := d.2
        replies := (d.1.toList.map fun rep => (req.cltNonce, rep)) ++ w.replies }
    else none
  | none => none

/-- The handler runs.  It may return anything that its caller lets pass. -/
def execute (w : World) (t : Fin poolSize) (ret : Int) (body : List UInt8) : Option World :=
  match w.server.worker t with
  | .running req b =>
    if 0 ≤ ret ∨ ret = RpcConst.unmarshalArgsFailure then
      let rep : Reply := { xid := req.xid, ret := ret, body := body }
      some { w with
        server := w.server.handled t req b rep
        executions := { req := req, rep := rep } :: w.executions }
    else none
  | _ => none

/-- The worker stores the reply. -/
def addReply (w : World) (t : Fin poolSize) : Option World :=
  match w.server.worker t with
  | .ran req b =>
    (Rpc.addReply req.xid b (w.server.replyWindow req.cltNonce)).map fun l =>
      { w with server := w.server.replied t req b l }
  | _ => none

/-- The worker sends what its buffer holds. -/
def send (w : World) (t : Fin poolSize) : Option World :=
  match w.server.worker t with
  | .sending req b =>
    some { w with
      server := w.server.setWorker t .idle
      replies := (req.cltNonce, w.server.heap.content b) :: w.replies }
  | _ => none

def step (w : World) : Action → Option World
  | .call n proc args => w.call n proc args
  | .transmit n xid => w.transmit n xid
  | .gotPdu n k => w.gotPdu n k
  | .finish n xid => w.finish n xid
  | .cancel n xid => w.cancel n xid
  | .bound n r => w.bound n r
  | .dispatch t k b => w.dispatch t k b
  | .execute t ret body => w.execute t ret body
  | .addReply t => w.addReply t
  | .send t => w.send t

def system : System World Action where
  init w := ∃ nonce procs, w = new nonce procs
  step := step

/-! ## What a step does -/

/-- The state after a request was dispatched without a handler to run or a reply
to send again. -/
def answered (w : World) (req : Request) (server : Rpcs) (ret : Int) : World :=
  { w with
    server := server
    replies := (req.cltNonce, { xid := req.xid, ret := ret, body := [] }) :: w.replies }

/-- Every step, with what it needs and the state it leads to. -/
inductive Step (w : World) : Action → World → Prop
  | idle (a : Action) : Step w a w
  | call (n : Nonce) (proc : UInt32) (args : List UInt8) (c : Rpcc) :
      (w.client n).xid + 1 ≠ 0 → (w.client n).call1 proc args = .ok c →
      Step w (.call n proc args)
        { w.setClient n c with made := (w.client n).request proc args :: w.made }
  | transmit (n : Nonce) (xid : UInt32) (ca : Caller) : (w.client n).calls.find xid = some ca →
      Step w (.transmit n xid) { w with requests := ca.req :: w.requests }
  | gotPdu (n : Nonce) (k : Nat) (rep : Reply) : w.replies[k]? = some (n, rep) →
      Step w (.gotPdu n k) (w.setClient n ((w.client n).gotPdu rep))
  | finish (n : Nonce) (xid : UInt32) (ca : Caller) : (w.client n).calls.find xid = some ca →
      Step w (.finish n xid)
        { w.setClient n ((w.client n).finish xid) with
          returned := { req := ca.req, ret := ca.ret, body := ca.rep } :: w.returned }
  | cancel (n : Nonce) (xid : UInt32) : Step w (.cancel n xid) (w.setClient n (w.client n).cancel)
  | bound (n : Nonce) (r : UInt32) :
      Step w (.bound n r) (w.setClient n ((w.client n).bound r))
  | oldsrv (t : Fin poolSize) (k b : Nat) (req : Request) : w.requests[k]? = some req →
      Step w (.dispatch t k b) (w.answered req w.server RpcConst.oldsrvFailure)
  | new (t : Fin poolSize) (k b : Nat) (req : Request) : w.requests[k]? = some req →
      w.server.Serves req → w.server.heap.live b = false → w.server.worker t = .idle →
      w.server.stat req = .new →
      Step w (.dispatch t k b) { w with server := w.server.started t req b }
  | inprogress (t : Fin poolSize) (k b : Nat) (req : Request) : w.requests[k]? = some req →
      w.server.Serves req → w.server.stat req = .inprogress →
      Step w (.dispatch t k b) { w with server := w.server.checked req }
  | done (t : Fin poolSize) (k b d : Nat) (req : Request) : w.requests[k]? = some req →
      w.server.Serves req → w.server.worker t = .idle → w.server.stat req = .done d →
      Step w (.dispatch t k b)
        { w with server := (w.server.checked req).setWorker t (.sending req d) }
  | forgotten (t : Fin poolSize) (k b : Nat) (req : Request) : w.requests[k]? = some req →
      w.server.Serves req → w.server.stat req = .forgotten →
      Step w (.dispatch t k b)
        (w.answered req (w.server.checked req) RpcConst.atmostonceFailure)
  | execute (t : Fin poolSize) (req : Request) (b : Nat) (rep : Reply) :
      w.server.worker t = .running req b → rep.xid = req.xid →
      Step w (.execute t rep.ret rep.body)
        { w with
          server := w.server.handled t req b rep
          executions := { req := req, rep := rep } :: w.executions }
  | addReply (t : Fin poolSize) (req : Request) (b : Nat) (l : List ReplyT) :
      w.server.worker t = .ran req b →
      Rpc.addReply req.xid b (w.server.replyWindow req.cltNonce) = some l →
      Step w (.addReply t) { w with server := w.server.replied t req b l }
  | send (t : Fin poolSize) (req : Request) (b : Nat) : w.server.worker t = .sending req b →
      Step w (.send t)
        { w with
          server := w.server.setWorker t .idle
          replies := (req.cltNonce, w.server.heap.content b) :: w.replies }

theorem dispatch_cases {w v : World} {t : Fin poolSize} {k b : Nat}
    (h : w.dispatch t k b = some v) : w.Step (.dispatch t k b) v := by
  unfold dispatch at h
  split at h
  · rename_i req hreq
    split at h
    · rename_i hidle
      obtain ⟨hworker, hlive⟩ := hidle
      generalize hd : w.server.dispatch t req b = d at h
      unfold Rpcs.dispatch at hd
      split at hd
      · subst hd
        cases h
        exact .oldsrv t k b req hreq
      · rename_i hnonce
        split at hd
        · subst hd
          cases h
          exact .idle _
        · rename_i hproc
          have hserves : w.server.Serves req := ⟨by tauto, by tauto⟩
          split at hd
          · rename_i hstat
            subst hd
            cases h
            exact .new t k b req hreq hserves hlive hworker hstat
          · rename_i hstat
            subst hd
            cases h
            exact .inprogress t k b req hreq hserves hstat
          · rename_i c hstat
            subst hd
            cases h
            exact .done t k b c req hreq hserves hworker hstat
          · rename_i hstat
            subst hd
            cases h
            exact .forgotten t k b req hreq hserves hstat
    · cases h
  · cases h

theorem step_cases {w v : World} {a : Action} (h : w.step a = some v) : w.Step a v := by
  cases a with
  | call n proc args =>
    simp only [step, call] at h
    split at h
    · cases h
    · rename_i hwrap
      split at h
      · rename_i c hc
        cases h
        exact .call n proc args c hwrap hc
      · cases h
        exact .idle _
  | transmit n xid =>
    obtain ⟨ca, hca, rfl⟩ := Option.map_eq_some_iff.mp h
    exact .transmit n xid ca hca
  | gotPdu n k =>
    simp only [step, gotPdu] at h
    split at h
    · rename_i m rep hrep
      split at h
      · rename_i hm
        cases h
        exact .gotPdu n k rep (hm ▸ hrep)
      · cases h
    · cases h
  | finish n xid =>
    obtain ⟨ca, hca, rfl⟩ := Option.map_eq_some_iff.mp h
    exact .finish n xid ca hca
  | cancel n xid =>
    obtain ⟨ca, hca, rfl⟩ := Option.map_eq_some_iff.mp h
    exact .cancel n xid
  | bound n r =>
    simp only [step, bound] at h
    split at h
    · cases h
      exact .bound n r
    · cases h
  | dispatch t k b => exact dispatch_cases h
  | execute t ret body =>
    simp only [step, execute] at h
    split at h
    · rename_i req b hworker
      split at h
      · cases h
        exact .execute t req b { xid := req.xid, ret := ret, body := body } hworker rfl
      · cases h
    · cases h
  | addReply t =>
    simp only [step, addReply] at h
    split at h
    · rename_i req b hworker
      obtain ⟨l, hl, rfl⟩ := Option.map_eq_some_iff.mp h
      exact .addReply t req b l hworker hl
    · cases h
  | send t =>
    simp only [step, send] at h
    split at h
    · rename_i req b hworker
      cases h
      exact .send t req b hworker
    · cases h

end World
end Rpc
end Frangipani
