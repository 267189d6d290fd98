/-
The caching lock client.

A client keeps a record for each lock it has heard of.  Its threads call
`acquire` and `release`, its `releaser` thread returns locks to the server, and
the server calls its `revoke` and `retry` handlers.  All of this runs under
`lock_mutex`, which a thread drops while it waits on a condition variable and
around the two remote calls to the server.  A step here is a stretch of code
between two such points.

A waiting thread may run its loop again at any time, which covers every signal,
broadcast and spurious wakeup.  A remote call that is outstanding is a program
counter of its caller, first as a request and then as a reply.

The sequence numbers that go out with the calls are never read and are left out.
-/
import Mathlib.Logic.Function.Basic
import Frangipani.Data.Map
import Frangipani.Lock.Server

namespace Frangipani
namespace Lock

/-- `lock_client_cache::lock_state`. -/
inductive ClientState
  | none
  | free
  | locked
  | acquiring
  | releasing
  deriving DecidableEq, Repr

/-- `rlock_protocol::xxstatus`. -/
inductive RStatus
  | ok
  | rpcerr
  deriving DecidableEq, Repr

/-- `lock_client_cache::lock_info`, with its constructor's values as defaults. -/
structure ClientInfo (Tid : Type) where
  state : ClientState := .none
  waitingThreads : List Tid := []
  toBeRevoked : Bool := false
  retryReceived : Bool := false
  deriving DecidableEq, Repr

/-- Where a thread is.  `waiting` is a wait in the outer loop of `acquire` and
`retryWait` one in its inner loop. -/
inductive AcquirePc
  | idle
  | waiting (lid : LockId)
  | calling (lid : LockId)
  | replied (lid : LockId) (ret : Status)
  | retryWait (lid : LockId)
  deriving DecidableEq, Repr

/-- Where `releaser` is, with its iterator into `revoke_queue`. -/
inductive ReleaserPc
  | top
  | calling (it : Nat) (lid : LockId)
  | replied (it : Nat) (lid : LockId) (ret : Status)
  deriving DecidableEq, Repr

/-- `holds t lid` records that `acquire(lid)` has returned `OK` to thread `t`,
which has not called `release(lid)` since.  The code does not have it. -/
structure LockClientCache (Tid : Type) where
  lockCache : Map LockId (ClientInfo Tid)
  revokeQueue : List LockId
  threads : Tid → AcquirePc
  releaser : ReleaserPc
  holds : Tid → LockId → Bool

/-- The steps of a client that involve nobody else. -/
inductive ClientAction (Tid : Type)
  | acquire (t : Tid) (lid : LockId)
  | wake (t : Tid)
  | acquireReturn (t : Tid)
  | release (t : Tid) (lid : LockId)
  | releaserStart
  | releaseReturn
  deriving DecidableEq, Repr

namespace LockClientCache

variable {Tid : Type}

def new : LockClientCache Tid where
  lockCache := .empty
  revokeQueue := []
  threads := fun _ => .idle
  releaser := .top
  holds := fun _ _ => false

/-- The record at a lock, with the default that the subscript enters. -/
def info (c : LockClientCache Tid) (lid : LockId) : ClientInfo Tid :=
  (c.lockCache.find lid).getD {}

def setInfo (c : LockClientCache Tid) (lid : LockId) (li : ClientInfo Tid) : LockClientCache Tid :=
  { c with lockCache := c.lockCache.insert lid li }

/-- The first entry of `revoke_queue` at or after the iterator whose lock is not
`LOCKED`. -/
def nextRevoke (state : LockId → ClientState) : Nat → List LockId → Option (Nat × LockId)
  | _, [] => none
  | it, lid :: rest =>
    if state lid = .locked then nextRevoke state (it + 1) rest else some (it, lid)

def scanRevoke (c : LockClientCache Tid) (it : Nat) : Option (Nat × LockId) :=
  nextRevoke (fun lid => (c.info lid).state) it (c.revokeQueue.drop it)

/-- `releaser`'s inner loop from the iterator to its next remote call, or to the
end of the walk. -/
def releaserScan (c : LockClientCache Tid) (it : Nat) : LockClientCache Tid :=
  match c.scanRevoke it with
  | some (it, lid) =>
    { c.setInfo lid { c.info lid with state := .releasing } with releaser := .calling it lid }
  | none => { c with releaser := .top }

def releaserStart (c : LockClientCache Tid) : Option (LockClientCache Tid) :=
  match c.releaser with
  | .top => if c.revokeQueue = [] then none else some (c.releaserScan 0)
  | _ => none

/-- The client and the iterator `releaser` goes on with when its call returns. -/
def afterRelease (c : LockClientCache Tid) (it : Nat) (lid : LockId) (ret : Status) :
    LockClientCache Tid × Nat :=
  if ret = .ok then
    ({ c.setInfo lid { c.info lid with toBeRevoked := false, state := .none } with
        revokeQueue := c.revokeQueue.eraseIdx it }, it)
  else (c, it + 1)

def releaseReturn (c : LockClientCache Tid) : Option (LockClientCache Tid) :=
  match c.releaser with
  | .replied it lid ret =>
    let next := c.afterRelease it lid ret
    some (next.1.releaserScan next.2)
  | _ => none

/-- The server has run the release call of `releaser`. -/
def releaseServed (c : LockClientCache Tid) (ret : Status) : LockClientCache Tid :=
  match c.releaser with
  | .calling it lid => { c with releaser := .replied it lid ret }
  | _ => c

/-- The handler of the server's revoke call. -/
def revoke (c : LockClientCache Tid) (lid : LockId) : RStatus × LockClientCache Tid :=
  let c := c.setInfo lid { c.info lid with toBeRevoked := true }
  if lid ∈ c.revokeQueue then (.ok, c)
  else (.ok, { c with revokeQueue := c.revokeQueue ++ [lid] })

/-- The handler of the server's retry call. -/
def retry (c : LockClientCache Tid) (lid : LockId) : RStatus × LockClientCache Tid :=
  match c.lockCache.find lid with
  | none => (.rpcerr, c)
  | some li => (.ok, c.setInfo lid { li with retryReceived := true })

variable [DecidableEq Tid]

def setThread (c : LockClientCache Tid) (t : Tid) (pc : AcquirePc) : LockClientCache Tid :=
  { c with threads := Function.update c.threads t pc }

/-- Note that `t` holds the lock, or that it does not. -/
def setHolds (c : LockClientCache Tid) (t : Tid) (lid : LockId) (b : Bool) : LockClientCache Tid :=
  { c with holds := Function.update c.holds t (Function.update (c.holds t) lid b) }

/-- `acquire` returns `OK` to `t`: the record is `LOCKED` and `t` leaves the
waiting list. -/
def returnOk (c : LockClientCache Tid) (t : Tid) (lid : LockId) : LockClientCache Tid :=
  let li := c.info lid
  ((c.setInfo lid { li with
    state := .locked, waitingThreads := li.waitingThreads.tail }).setThread t .idle).setHolds
      t lid true

/-- One pass of `acquire`'s outer loop, up to its next wait, its remote call or
its return. -/
def acquireLoop (c : LockClientCache Tid) (t : Tid) (lid : LockId) : LockClientCache Tid :=
  let li := c.info lid
  if li.toBeRevoked then c.setThread t (.waiting lid)
  else if li.waitingThreads.head? ≠ some t then c.setThread t (.waiting lid)
  else
    match li.state with
    | .none =>
      (c.setInfo lid { li with state := .acquiring, retryReceived := false }).setThread t
        (.calling lid)
    | .free => c.returnOk t lid
    | _ => c.setThread t (.waiting lid)

/-- A thread that is not in a call enters `acquire`. -/
def acquire (c : LockClientCache Tid) (t : Tid) (lid : LockId) : Option (LockClientCache Tid) :=
  match c.threads t with
  | .idle =>
    let li := c.info lid
    let waiting :=
      if t ∈ li.waitingThreads then li.waitingThreads else li.waitingThreads ++ [t]
    some ((c.setInfo lid { li with waitingThreads := waiting }).acquireLoop t lid)
  | _ => none

/-- The inner loop of `acquire`: wait until a retry has been received, then go
round the outer loop. -/
def retryLoop (c : LockClientCache Tid) (t : Tid) (lid : LockId) : LockClientCache Tid :=
  if (c.info lid).retryReceived then c.acquireLoop t lid else c

/-- A thread that waits on a condition variable wakes up. -/
def wake (c : LockClientCache Tid) (t : Tid) : Option (LockClientCache Tid) :=
  match c.threads t with
  | .waiting lid => some (c.acquireLoop t lid)
  | .retryWait lid => some (c.retryLoop t lid)
  | _ => none

/-- The server has run the acquire call of `t`. -/
def acquireServed (c : LockClientCache Tid) (t : Tid) (ret : Status) : LockClientCache Tid :=
  match c.threads t with
  | .calling lid => c.setThread t (.replied lid ret)
  | _ => c

/-- The reply of an acquire call reaches its thread. -/
def acquireReturn (c : LockClientCache Tid) (t : Tid) : Option (LockClientCache Tid) :=
  match c.threads t with
  | .replied lid .ok => some (c.returnOk t lid)
  | .replied lid .retry =>
    some (((c.setInfo lid { c.info lid with state := .none }).setThread t
      (.retryWait lid)).retryLoop t lid)
  | .replied lid _ => some ((c.setThread t (.waiting lid)).acquireLoop t lid)
  | _ => none

/-- A thread calls `release` on a lock that it holds. -/
def release (c : LockClientCache Tid) (t : Tid) (lid : LockId) : Option (LockClientCache Tid) :=
  if c.threads t = .idle ∧ c.holds t lid = true then
    let li := c.info lid
    some ((c.setInfo lid { li with
      state := .free, waitingThreads := li.waitingThreads.filter (· ≠ t) }).setHolds t lid false)
  else none

def next (c : LockClientCache Tid) : ClientAction Tid → Option (LockClientCache Tid)
  | .acquire t lid => c.acquire t lid
  | .wake t => c.wake t
  | .acquireReturn t => c.acquireReturn t
  | .release t lid => c.release t lid
  | .releaserStart => c.releaserStart
  | .releaseReturn => c.releaseReturn

/-- The entry of `revoke_queue` whose lock a step takes to release it. -/
def taken (c : LockClientCache Tid) : ClientAction Tid → Option (Nat × LockId)
  | .releaserStart => c.scanRevoke 0
  | .releaseReturn =>
    match c.releaser with
    | .replied it lid ret => (c.afterRelease it lid ret).1.scanRevoke (c.afterRelease it lid ret).2
    | _ => none
  | _ => none

end LockClientCache
end Lock
end Frangipani
