/-
The caching lock server.

`acquire` and `release` are remote calls that run to completion under
`lock_mutex`.  Two threads work behind them.  `retryer` walks `free_locks` and
offers each lock with waiting clients to the first of them, and `revoker` walks
`revokes` and asks each listed owner to give its lock back.  Both drop the mutex
around their remote call, so each is a program counter and two steps: one up to
the call, and one from its return to the next call or to the end of the walk.

Only `retryer` erases from `free_locks` and only `revoker` from `revokes`, and
everybody else appends, so an iterator kept across a call is an index.

In the source an empty string in `clt_id` or `retryer_sent_to` stands for
nobody.  Client ids have the form `host:port` and are never empty, so these
fields are options here.
-/
import Mathlib.Logic.Function.Basic

namespace Frangipani
namespace Lock

/-- `lock_protocol::lockid_t`. -/
abbrev LockId := UInt64

/-- `lock_protocol::xxstatus`. -/
inductive Status
  | ok
  | retry
  | rpcerr
  | noent
  | ioerr
  deriving DecidableEq, Repr

/-- `lock_server_cache::lock_state`. -/
inductive ServerState
  | free
  | acquired
  deriving DecidableEq, Repr

/-- `lock_server_cache::lock_info`. -/
structure ServerInfo (Clt : Type) where
  cltId : Option Clt
  state : ServerState
  waitingClients : List Clt
  retryerSentTo : Option Clt
  deriving DecidableEq, Repr

/-- A server thread is between walks, or it has dropped the mutex and its remote
call for the queue entry at index `it` is outstanding. -/
inductive ThreadPc (Clt : Type)
  | top
  | calling (it : Nat) (lid : LockId) (clt : Clt)
  deriving DecidableEq, Repr

structure LockServerCache (Clt : Type) where
  locks : LockId → ServerInfo Clt
  revokes : List (LockId × Clt)
  freeLocks : List LockId
  retryer : ThreadPc Clt
  revoker : ThreadPc Clt

namespace LockServerCache

variable {Clt : Type}

def new : LockServerCache Clt where
  locks := fun _ =>
    { cltId := none, state := .free, waitingClients := [], retryerSentTo := none }
  revokes := []
  freeLocks := []
  retryer := .top
  revoker := .top

def setLock (s : LockServerCache Clt) (lid : LockId) (li : ServerInfo Clt) : LockServerCache Clt :=
  { s with locks := Function.update s.locks lid li }

/-- The first lock at or after the iterator that has waiting clients and no
outstanding offer, with its index and its first waiting client.  The state of
the lock is not looked at. -/
def nextOffer (locks : LockId → ServerInfo Clt) : Nat → List LockId → Option (Nat × LockId × Clt)
  | _, [] => none
  | it, lid :: rest =>
    match (locks lid).waitingClients, (locks lid).retryerSentTo with
    | clt :: _, none => some (it, lid, clt)
    | _, _ => nextOffer locks (it + 1) rest

def scanOffer (s : LockServerCache Clt) (it : Nat) : Option (Nat × LockId × Clt) :=
  nextOffer s.locks it (s.freeLocks.drop it)

/-- `retryer`'s inner loop from the iterator to its next remote call, or to the
end of the walk. -/
def retryerScan (s : LockServerCache Clt) (it : Nat) : LockServerCache Clt :=
  match s.scanOffer it with
  | some (it, lid, clt) =>
    let li := s.locks lid
    { s.setLock lid { li with
        waitingClients := li.waitingClients.tail, retryerSentTo := some clt } with
      retryer := .calling it lid clt }
  | none => { s with retryer := .top }

/-- `revoker`'s inner loop from the iterator to its next remote call, or to the
end of the walk. -/
def revokerScan (s : LockServerCache Clt) (it : Nat) : LockServerCache Clt :=
  match s.revokes[it]? with
  | some (lid, clt) => { s with revoker := .calling it lid clt }
  | none => { s with revoker := .top }

/-- `retryer` wakes up and starts a walk. -/
def retryerStart (s : LockServerCache Clt) : Option (LockServerCache Clt) :=
  match s.retryer with
  | .top => if s.freeLocks = [] then none else some (s.retryerScan 0)
  | .calling .. => none

/-- `revoker` wakes up and starts a walk. -/
def revokerStart (s : LockServerCache Clt) : Option (LockServerCache Clt) :=
  match s.revoker with
  | .top => if s.revokes = [] then none else some (s.revokerScan 0)
  | .calling .. => none

/-- The revoke call returns.  Its entry is erased if the client answered `OK`. -/
def revokerReturn (s : LockServerCache Clt) (ok : Bool) : Option (LockServerCache Clt) :=
  match s.revoker with
  | .top => none
  | .calling it _ _ =>
    if ok then some ({ s with revokes := s.revokes.eraseIdx it }.revokerScan it)
    else some (s.revokerScan (it + 1))

/-- `clt` owns the lock in the server's record. -/
def OwnedBy (s : LockServerCache Clt) (lid : LockId) (clt : Clt) : Prop :=
  (s.locks lid).state = .acquired ∧ (s.locks lid).cltId = some clt

/-! ## Effects of the two walks -/

theorem OwnedBy.unique {s : LockServerCache Clt} {lid : LockId} {c d : Clt}
    (hc : s.OwnedBy lid c) (hd : s.OwnedBy lid d) : c = d :=
  Option.some.inj (hc.2.symm.trans hd.2)

theorem OwnedBy.congr {s t : LockServerCache Clt} {lid : LockId} {clt : Clt}
    (h : t.locks lid = s.locks lid) : t.OwnedBy lid clt ↔ s.OwnedBy lid clt := by
  rw [OwnedBy, OwnedBy, h]

@[simp] theorem setLock_locks_self (s : LockServerCache Clt) (lid : LockId) (li : ServerInfo Clt) :
    (s.setLock lid li).locks lid = li := by
  simp [setLock]

theorem setLock_locks_ne (s : LockServerCache Clt) {lid lid' : LockId} (li : ServerInfo Clt)
    (h : lid' ≠ lid) : (s.setLock lid li).locks lid' = s.locks lid' := by
  simp [setLock, h]

/-- What is offered is the head of a waiting list whose lock has no outstanding
offer. -/
theorem nextOffer_spec {locks : LockId → ServerInfo Clt} {free : List LockId} :
    ∀ {it i : Nat} {lid : LockId} {clt : Clt}, nextOffer locks it free = some (i, lid, clt) →
      (∃ rest, (locks lid).waitingClients = clt :: rest) ∧ (locks lid).retryerSentTo = none := by
  induction free with
  | nil =>
    intro it i lid clt h
    cases h
  | cons l free ih =>
    intro it i lid clt h
    unfold nextOffer at h
    split at h
    · rename_i c rest hwait hsent
      cases h
      exact ⟨⟨rest, hwait⟩, hsent⟩
    · exact ih h

theorem retryerScan_locks (s : LockServerCache Clt) (it : Nat) (lid : LockId) :
    (s.retryerScan it).locks lid = s.locks lid ∨
      ∃ i clt, s.scanOffer it = some (i, lid, clt) ∧ (s.locks lid).retryerSentTo = none ∧
        (s.retryerScan it).locks lid = { s.locks lid with
          waitingClients := (s.locks lid).waitingClients.tail, retryerSentTo := some clt } := by
  unfold retryerScan
  cases h : s.scanOffer it with
  | none => exact Or.inl rfl
  | some offer =>
    obtain ⟨i, l, clt⟩ := offer
    by_cases hl : lid = l
    · subst hl
      exact Or.inr ⟨i, clt, rfl, (nextOffer_spec h).2, setLock_locks_self ..⟩
    · exact Or.inl (setLock_locks_ne _ _ hl)

theorem retryerScan_offers {s : LockServerCache Clt} {it i : Nat} {lid : LockId} {clt : Clt}
    (h : s.scanOffer it = some (i, lid, clt)) :
    ((s.retryerScan it).locks lid).state = (s.locks lid).state ∧
      ((s.retryerScan it).locks lid).retryerSentTo = some clt := by
  simp only [retryerScan, h, setLock_locks_self, and_self]

@[simp] theorem revokerScan_locks (s : LockServerCache Clt) (it : Nat) :
    (s.revokerScan it).locks = s.locks := by
  unfold revokerScan
  split <;> rfl

theorem retryerStart_eq_some {s t : LockServerCache Clt} (h : s.retryerStart = some t) :
    s.retryer = .top ∧ t = s.retryerScan 0 := by
  unfold retryerStart at h
  split at h
  · rename_i hpc
    split at h
    · cases h
    · cases h
      exact ⟨hpc, rfl⟩
  · cases h

theorem revokerStart_eq_some {s t : LockServerCache Clt} (h : s.revokerStart = some t) :
    s.revoker = .top ∧ t = s.revokerScan 0 := by
  unfold revokerStart at h
  split at h
  · rename_i hpc
    split at h
    · cases h
    · cases h
      exact ⟨hpc, rfl⟩
  · cases h

theorem revokerReturn_eq_some {s t : LockServerCache Clt} {ok : Bool}
    (h : s.revokerReturn ok = some t) :
    ∃ it lid clt, s.revoker = .calling it lid clt ∧
      ((ok = true ∧ t = { s with revokes := s.revokes.eraseIdx it }.revokerScan it) ∨
        (ok = false ∧ t = s.revokerScan (it + 1))) := by
  unfold revokerReturn at h
  split at h
  · cases h
  · rename_i it lid clt hpc
    refine ⟨it, lid, clt, hpc, ?_⟩
    cases ok with
    | true => exact Or.inl ⟨rfl, (Option.some.inj h).symm⟩
    | false => exact Or.inr ⟨rfl, (Option.some.inj h).symm⟩

/-! ## The remote calls -/

variable [DecidableEq Clt]

instance (s : LockServerCache Clt) (lid : LockId) (clt : Clt) : Decidable (s.OwnedBy lid clt) :=
  inferInstanceAs (Decidable (_ ∧ _))

/-- Queue a revoke unless the same one is queued already. -/
def addRevoke (s : LockServerCache Clt) (lid : LockId) (clt : Clt) : LockServerCache Clt :=
  if (lid, clt) ∈ s.revokes then s else { s with revokes := s.revokes ++ [(lid, clt)] }

/-- The lock goes to `clt` when it is free and either nobody waits and nobody
has been offered it, or `clt` has. -/
def Grantable (li : ServerInfo Clt) (clt : Clt) : Prop :=
  li.state = .free ∧
    ((li.retryerSentTo = none ∧ li.waitingClients = []) ∨ li.retryerSentTo = some clt)

instance (li : ServerInfo Clt) (clt : Clt) : Decidable (Grantable li clt) :=
  inferInstanceAs (Decidable (_ ∧ (_ ∨ _)))

/-- Append a client to the waiting list unless it waits already. -/
def enqueue (waiting : List Clt) (clt : Clt) : List Clt :=
  if clt ∈ waiting then waiting else waiting ++ [clt]

def acquire (s : LockServerCache Clt) (clt : Clt) (lid : LockId) :
    Status × LockServerCache Clt :=
  let li := s.locks lid
  if Grantable li clt then
    (.ok, s.setLock lid { li with cltId := some clt, state := .acquired, retryerSentTo := none })
  else
    let s := s.setLock lid { li with waitingClients := enqueue li.waitingClients clt }
    match li.state, li.cltId with
    | .acquired, some owner => (.retry, s.addRevoke lid owner)
    | _, _ => (.retry, s)

/-- A client may give up a lock that it owns or that it has been offered.  The
check does not ask whether somebody else owns an offered lock. -/
def MayRelease (li : ServerInfo Clt) (clt : Clt) : Prop :=
  li.cltId = some clt ∨ li.retryerSentTo = some clt

instance (li : ServerInfo Clt) (clt : Clt) : Decidable (MayRelease li clt) :=
  inferInstanceAs (Decidable (_ ∨ _))

def release (s : LockServerCache Clt) (clt : Clt) (lid : LockId) :
    Status × LockServerCache Clt :=
  let li := s.locks lid
  if MayRelease li clt then
    (.ok,
      { s.setLock lid { li with state := .free, cltId := none, retryerSentTo := none } with
        freeLocks := s.freeLocks ++ [lid] })
  else (.rpcerr, s)

/-- The list and the iterator `retryer` goes on with when its call returns. -/
def afterRetry (s : LockServerCache Clt) (it : Nat) (lid : LockId) (clt : Clt) (ok : Bool) :
    LockServerCache Clt × Nat :=
  let s := if (s.locks lid).waitingClients = [] then s else s.addRevoke lid clt
  if ok then ({ s with freeLocks := s.freeLocks.eraseIdx it }, it) else (s, it + 1)

/-- The retry call returns, with `ok` for `rlock_protocol::OK`. -/
def retryerReturn (s : LockServerCache Clt) (ok : Bool) : Option (LockServerCache Clt) :=
  match s.retryer with
  | .top => none
  | .calling it lid clt =>
    let next := s.afterRetry it lid clt ok
    some (next.1.retryerScan next.2)

/-! ## Effects of the remote calls -/

@[simp] theorem addRevoke_locks (s : LockServerCache Clt) (lid : LockId) (clt : Clt) :
    (s.addRevoke lid clt).locks = s.locks := by
  unfold addRevoke
  split <;> rfl

@[simp] theorem addRevoke_retryer (s : LockServerCache Clt) (lid : LockId) (clt : Clt) :
    (s.addRevoke lid clt).retryer = s.retryer := by
  unfold addRevoke
  split <;> rfl

@[simp] theorem addRevoke_revoker (s : LockServerCache Clt) (lid : LockId) (clt : Clt) :
    (s.addRevoke lid clt).revoker = s.revoker := by
  unfold addRevoke
  split <;> rfl

theorem addRevoke_revokes (s : LockServerCache Clt) (lid : LockId) (clt : Clt) :
    ((lid, clt) ∈ s.revokes ∧ (s.addRevoke lid clt).revokes = s.revokes) ∨
      ((lid, clt) ∉ s.revokes ∧ (s.addRevoke lid clt).revokes = s.revokes ++ [(lid, clt)]) := by
  unfold addRevoke
  by_cases h : (lid, clt) ∈ s.revokes
  · simp [h]
  · simp [h]

theorem mem_addRevoke (s : LockServerCache Clt) (lid : LockId) (clt : Clt) :
    (lid, clt) ∈ (s.addRevoke lid clt).revokes := by
  rcases addRevoke_revokes s lid clt with ⟨hmem, h⟩ | ⟨_, h⟩
  · rw [h]
    exact hmem
  · simp [h]

@[simp] theorem afterRetry_locks (s : LockServerCache Clt) (it : Nat) (lid : LockId) (clt : Clt)
    (ok : Bool) : (s.afterRetry it lid clt ok).1.locks = s.locks := by
  unfold afterRetry
  by_cases hw : (s.locks lid).waitingClients = [] <;> cases ok <;> simp [hw]

theorem retryerReturn_eq_some {s t : LockServerCache Clt} {ok : Bool}
    (h : s.retryerReturn ok = some t) :
    ∃ it lid clt, s.retryer = .calling it lid clt ∧
      t = (s.afterRetry it lid clt ok).1.retryerScan (s.afterRetry it lid clt ok).2 := by
  unfold retryerReturn at h
  split at h
  · cases h
  · rename_i it lid clt hpc
    cases h
    exact ⟨it, lid, clt, hpc, rfl⟩

end LockServerCache
end Lock
end Frangipani
