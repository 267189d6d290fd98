/-
How long a client's records stay in their transient states.

A thread makes a record `ACQUIRING` before its acquire call goes out, and
`releaser` makes it `RELEASING` before it flushes the extent and calls the server.
Here the client stands alone: its calls return whatever a status or a failure of
the RPC library can be, at any time, and the handlers run at any time.

Both states end with their calls exactly when no other return than `OK` or `RETRY`
finds a record `ACQUIRING`, and no other than `OK` finds one `RELEASING`.  On any
other return the code goes on without setting the record back.
-/
import Mathlib.Data.List.Nodup
import Mathlib.Tactic.SplitIfs
import Frangipani.Lock.ClientPhase
import Frangipani.Transition.System

namespace Frangipani
namespace Lock

open Transition

/-- The failures of `rpc_const`. -/
inductive RpcFailure
  | timeout
  | unmarshalArgs
  | unmarshalReply
  | atmostonce
  | oldsrv
  | bind
  | cancel
  deriving DecidableEq, Repr

/-- What a remote call returns: the status of the handler, or a failure. -/
inductive Ret
  | status (s : Status)
  | failure (f : RpcFailure)
  deriving DecidableEq, Repr

inductive OpenAction (Tid : Type)
  | acquire (t : Tid) (lid : LockId)
  | wake (t : Tid)
  | acquireReply (t : Tid) (ret : Ret)
  | release (t : Tid) (lid : LockId)
  | releaserStart
  | releaseReply (ret : Ret)
  | revoke (lid : LockId)
  | retry (lid : LockId)
  deriving DecidableEq, Repr

namespace LockClientCache

variable {Tid : Type} [DecidableEq Tid]
variable {c d : LockClientCache Tid} {lid : LockId}

/-- The acquire call of `t` returns.  A failure is neither `OK` nor `RETRY`, so the thread goes
round its loop. -/
def acquireReply (c : LockClientCache Tid) (t : Tid) (ret : Ret) : Option (LockClientCache Tid) :=
  match c.threads t, ret with
  | .calling _, .status s => (c.acquireServed t s).acquireReturn t
  | .calling lid, .failure _ => some ((c.setThread t (.waiting lid)).acquireLoop t lid)
  | _, _ => none

/-- The release call returns.  After a failure `releaser` moves on to the next lock. -/
def releaseReply (c : LockClientCache Tid) (ret : Ret) : Option (LockClientCache Tid) :=
  match c.releaser, ret with
  | .calling _ _, .status s => (c.releaseServed s).releaseReturn
  | .calling it _, .failure _ => some (c.releaserScan (it + 1))
  | _, _ => none

/-- `release` does not ask who holds the lock, so any thread may call it. -/
def openStep (c : LockClientCache Tid) : OpenAction Tid → Option (LockClientCache Tid)
  | .acquire t lid => c.acquire t lid
  | .wake t => c.wake t
  | .acquireReply t ret => c.acquireReply t ret
  | .release t lid => (c.setHolds t lid true).release t lid
  | .releaserStart => c.releaserStart
  | .releaseReply ret => c.releaseReply ret
  | .revoke lid => some (c.revoke lid).2
  | .retry lid => some (c.retry lid).2

def openSystem : System (LockClientCache Tid) (OpenAction Tid) where
  init c := c = new
  step := openStep

/-- The transient states last only as long as their calls. -/
structure Brief (c : LockClientCache Tid) : Prop where
  acquiring : ∀ lid, (c.info lid).state = .acquiring → ∃ t, callOf (c.threads t) = some lid
  releasing : ∀ lid, (c.info lid).state = .releasing → releaseOf c.releaser = some lid

/-- What returns to a record in a transient state is a status that ends the state. -/
def EndsState (c : LockClientCache Tid) : OpenAction Tid → Prop
  | .acquireReply t ret => ∀ lid, c.threads t = .calling lid →
    (c.info lid).state = .acquiring → ret = .status .ok ∨ ret = .status .retry
  | .releaseReply ret => ∀ it lid, c.releaser = .calling it lid →
    (c.info lid).state = .releasing → ret = .status .ok
  | _ => True

/-- A thread with an acquire call outstanding is the first of those that wait for the lock, and
the iterator of `releaser` stands at the lock that it releases. -/
structure Tracked (c : LockClientCache Tid) : Prop where
  brief : c.Brief
  head : ∀ t lid, callOf (c.threads t) = some lid → (c.info lid).waitingThreads.head? = some t
  nodup : c.revokeQueue.Nodup
  iterator : ∀ it lid, c.releaser = .calling it lid → c.revokeQueue[it]? = some lid

omit [DecidableEq Tid] in
theorem new_tracked : (new : LockClientCache Tid).Tracked where
  brief := ⟨fun lid h => by simp [new, info] at h, fun lid h => by simp [new, info] at h⟩
  head t lid h := by simp [new, callOf] at h
  nodup := List.nodup_nil
  iterator it lid h := by cases h

/-! ## Steps of a thread -/

theorem Tracked.of_thread (h : c.Tracked) {l : LockId} {t : Tid} {pc : AcquirePc}
    (hthreads : d.threads = Function.update c.threads t pc)
    (hold : callOf (c.threads t) = none ∨ callOf (c.threads t) = some l)
    (hnew : callOf pc = none ∨ callOf pc = some l) (hqueue : d.revokeQueue = c.revokeQueue)
    (hreleaser : d.releaser = c.releaser) (hinfo : ∀ lid, lid ≠ l → d.info lid = c.info lid)
    (hacquiring : (d.info l).state = .acquiring → ∃ u, callOf (d.threads u) = some l)
    (hreleasing : (d.info l).state = .releasing → (c.info l).state = .releasing)
    (hhead : ∀ u, callOf (d.threads u) = some l → (d.info l).waitingThreads.head? = some u) :
    d.Tracked := by
  have hcall : ∀ lid, lid ≠ l → ∀ u,
      callOf (d.threads u) = some lid ↔ callOf (c.threads u) = some lid := by
    intro lid hl u
    rw [hthreads]
    exact callOf_update hl hold hnew u
  refine ⟨⟨fun lid => ?_, fun lid => ?_⟩, fun u lid => ?_, hqueue ▸ h.nodup, ?_⟩
  · by_cases hl : lid = l
    · subst hl
      exact hacquiring
    · rw [hinfo lid hl]
      intro hst
      obtain ⟨u, hu⟩ := h.brief.acquiring lid hst
      exact ⟨u, (hcall lid hl u).mpr hu⟩
  · rw [hreleaser]
    by_cases hl : lid = l
    · subst hl
      exact fun hst => h.brief.releasing lid (hreleasing hst)
    · rw [hinfo lid hl]
      exact h.brief.releasing lid
  · by_cases hl : lid = l
    · subst hl
      exact hhead u
    · rw [hinfo lid hl, hcall lid hl u]
      exact h.head u lid
  · rw [hqueue, hreleaser]
    exact h.iterator

omit [DecidableEq Tid] in
theorem Tracked.caller_unique (h : c.Tracked) {t u : Tid}
    (ht : (c.info lid).waitingThreads.head? = some t) (hu : callOf (c.threads u) = some lid) :
    u = t := by
  have hhead := h.head u lid hu
  rw [ht] at hhead
  exact (Option.some.inj hhead).symm

theorem Tracked.park (h : c.Tracked) (lid : LockId) {t : Tid} {pc : AcquirePc}
    (ht : callOf (c.threads t) = none) (hpc : callOf pc = none) :
    (c.setThread t pc).Tracked := by
  have hsame : ∀ u, callOf ((c.setThread t pc).threads u) = callOf (c.threads u) := by
    intro u
    by_cases hu : u = t
    · subst hu
      simp [ht, hpc]
    · simp [hu]
  refine h.of_thread (l := lid) rfl (.inl ht) (.inl hpc) rfl rfl (fun _ _ => rfl) ?_ (fun h => h) ?_
  · intro hst
    obtain ⟨u, hu⟩ := h.brief.acquiring lid hst
    exact ⟨u, (hsame u).trans hu⟩
  · intro u hu
    exact h.head u lid ((hsame u).symm.trans hu)

/-- A thread leaves its call, and the record is not `ACQUIRING` any more. -/
theorem Tracked.leave (h : c.Tracked) {t : Tid} {pc : AcquirePc}
    (ht : callOf (c.threads t) = some lid) (hpc : callOf pc = none)
    (hthreads : d.threads = Function.update c.threads t pc) (hqueue : d.revokeQueue = c.revokeQueue)
    (hreleaser : d.releaser = c.releaser) (hinfo : ∀ l, l ≠ lid → d.info l = c.info l)
    (hacquiring : (d.info lid).state ≠ .acquiring)
    (hreleasing : (d.info lid).state = .releasing → (c.info lid).state = .releasing) :
    d.Tracked := by
  refine h.of_thread hthreads (.inr ht) (.inl hpc) hqueue hreleaser hinfo
    (fun hst => absurd hst hacquiring) hreleasing fun u hu => ?_
  -- The thread was the only one with a call for the lock.
  rw [hthreads] at hu
  by_cases hut : u = t
  · subst hut
    rw [Function.update_self, hpc] at hu
    cases hu
  · rw [Function.update_of_ne hut] at hu
    exact absurd (h.caller_unique (h.head t lid ht) hu) hut

theorem Tracked.startCall (h : c.Tracked) {t : Tid} (ht : callOf (c.threads t) = none)
    (hhead : (c.info lid).waitingThreads.head? = some t) :
    ((c.setInfo lid { c.info lid with
      state := .acquiring, retryReceived := false }).setThread t (.calling lid)).Tracked := by
  refine h.of_thread rfl (.inl ht) (.inr rfl) rfl rfl (fun l hl => info_setInfo_ne c _ hl)
    (fun _ => ⟨t, by simp [callOf]⟩) (fun hst => by simp at hst) fun u hu => ?_
  by_cases hut : u = t
  · subst hut
    simpa using hhead
  · simp only [setThread_threads, setInfo_threads, Function.update_of_ne hut] at hu
    exact absurd (h.caller_unique hhead hu) hut

theorem Tracked.returnOk (h : c.Tracked) {t : Tid}
    (ht : callOf (c.threads t) = none ∨ callOf (c.threads t) = some lid)
    (hhead : (c.info lid).waitingThreads.head? = some t) : (c.returnOk t lid).Tracked := by
  refine h.of_thread rfl ht (.inl rfl) rfl rfl (fun l hl => info_setInfo_ne c _ hl)
    (fun hst => ?_) (fun hst => ?_) fun u hu => ?_
  · simp [LockClientCache.returnOk] at hst
  · simp [LockClientCache.returnOk] at hst
  · by_cases hut : u = t
    · subst hut
      simp [LockClientCache.returnOk, callOf] at hu
    · have hu : callOf (Function.update c.threads t .idle u) = some lid := hu
      rw [Function.update_of_ne hut] at hu
      exact absurd (h.caller_unique hhead hu) hut

theorem Tracked.acquireLoop (h : c.Tracked) {t : Tid} (lid : LockId)
    (ht : callOf (c.threads t) = none) : (c.acquireLoop t lid).Tracked := by
  have hpark : (c.setThread t (.waiting lid)).Tracked := h.park lid ht rfl
  unfold LockClientCache.acquireLoop
  dsimp only
  split_ifs with hrevoked hfirst
  · exact hpark
  · exact hpark
  · have hhead : (c.info lid).waitingThreads.head? = some t := not_not.mp hfirst
    split
    · exact h.startCall ht hhead
    · exact h.returnOk (.inl ht) hhead
    · exact hpark

theorem Tracked.retryLoop (h : c.Tracked) {t : Tid} (lid : LockId)
    (ht : callOf (c.threads t) = none) : (c.retryLoop t lid).Tracked := by
  unfold LockClientCache.retryLoop
  split_ifs
  · exact h.acquireLoop lid ht
  · exact h

omit [DecidableEq Tid] in
/-- Writing a record whose state stays and whose first waiting thread stays. -/
theorem Tracked.setInfo (h : c.Tracked) {li : ClientInfo Tid}
    (hstate : li.state = (c.info lid).state ∨ li.state = .free)
    (hhead : ∀ t, callOf (c.threads t) = some lid → li.waitingThreads.head? = some t) :
    (c.setInfo lid li).Tracked := by
  refine ⟨⟨fun l hst => ?_, fun l hst => ?_⟩, fun u l hu => ?_, h.nodup, h.iterator⟩
  · by_cases hl : l = lid
    · subst hl
      rw [info_setInfo_self] at hst
      rw [hst] at hstate
      exact h.brief.acquiring l (hstate.resolve_right (by simp)).symm
    · rw [info_setInfo_ne c li hl] at hst
      exact h.brief.acquiring l hst
  · by_cases hl : l = lid
    · subst hl
      rw [info_setInfo_self] at hst
      rw [hst] at hstate
      exact h.brief.releasing l (hstate.resolve_right (by simp)).symm
    · rw [info_setInfo_ne c li hl] at hst
      exact h.brief.releasing l hst
  · by_cases hl : l = lid
    · subst hl
      rw [info_setInfo_self]
      exact hhead u hu
    · rw [info_setInfo_ne c li hl]
      exact h.head u l hu

theorem Tracked.acquire {t : Tid} (h : c.Tracked) (hd : c.acquire t lid = some d) : d.Tracked := by
  unfold LockClientCache.acquire at hd
  split at hd
  · rename_i hpc
    cases hd
    have henter : (c.setInfo lid { c.info lid with
        waitingThreads := if t ∈ (c.info lid).waitingThreads then (c.info lid).waitingThreads
          else (c.info lid).waitingThreads ++ [t] }).Tracked := by
      refine h.setInfo (.inl rfl) fun u hu => ?_
      have hhead := h.head u lid hu
      dsimp only
      split_ifs
      · exact hhead
      · rw [List.head?_append, hhead, Option.some_or]
    refine henter.acquireLoop lid ?_
    rw [setInfo_threads, hpc]
    rfl
  · cases hd

theorem Tracked.wake {t : Tid} (h : c.Tracked) (hd : c.wake t = some d) : d.Tracked := by
  unfold LockClientCache.wake at hd
  split at hd
  · rename_i lid hpc
    cases hd
    exact h.acquireLoop lid (by rw [hpc]; rfl)
  · rename_i lid hpc
    cases hd
    exact h.retryLoop lid (by rw [hpc]; rfl)
  · cases hd

theorem Tracked.release {t : Tid} (h : c.Tracked) (hd : c.release t lid = some d) : d.Tracked := by
  unfold LockClientCache.release at hd
  split_ifs at hd with hpre
  cases hd
  have hset : (c.setInfo lid { c.info lid with
      state := .free
      waitingThreads := (c.info lid).waitingThreads.filter (· ≠ t) }).Tracked := by
    refine h.setInfo (.inr rfl) fun u hu => ?_
    -- The thread that calls is not `t`, so it stays the first.
    have hne : u ≠ t := by
      rintro rfl
      rw [hpre.1] at hu
      cases hu
    obtain ⟨rest, hrest⟩ := List.head?_eq_some_iff.mp (h.head u lid hu)
    simp [hrest, hne]
  exact ⟨⟨hset.brief.acquiring, hset.brief.releasing⟩, hset.head, hset.nodup, hset.iterator⟩

/-! ## The acquire call returns -/

theorem acquireReply_cases {t : Tid} {ret : Ret} (hd : c.acquireReply t ret = some d) :
    ∃ lid, c.threads t = .calling lid ∧
      ((ret = .status .ok ∧ d = c.returnOk t lid) ∨
        (ret = .status .retry ∧ d = ((c.setInfo lid { c.info lid with state := .none }).setThread t
          (.retryWait lid)).retryLoop t lid) ∨
        (ret ≠ .status .ok ∧ ret ≠ .status .retry ∧
          d = (c.setThread t (.waiting lid)).acquireLoop t lid)) := by
  unfold acquireReply at hd
  split at hd
  · rename_i lid s hpc
    refine ⟨lid, hpc, ?_⟩
    have hserved : c.acquireServed t s = c.setThread t (.replied lid s) := by
      simp only [acquireServed, hpc]
    rw [hserved, acquireReturn, setThread_threads, Function.update_self] at hd
    cases s with
    | ok =>
      cases hd
      refine .inl ⟨rfl, ?_⟩
      show _ = ((c.setInfo lid _).setThread t .idle).setHolds t lid true
      rw [← setThread_setThread _ t (.replied lid .ok) .idle]
      rfl
    | retry =>
      cases hd
      refine .inr (.inl ⟨rfl, ?_⟩)
      rw [← setThread_setThread (c.setInfo lid _) t (.replied lid .retry) (.retryWait lid)]
      rfl
    | rpcerr | noent | ioerr =>
      cases hd
      exact .inr (.inr ⟨by simp, by simp, by rw [setThread_setThread]⟩)
  · rename_i lid f hpc
    cases hd
    exact ⟨lid, hpc, .inr (.inr ⟨by simp, by simp, rfl⟩)⟩
  · cases hd

theorem Tracked.acquireReply {t : Tid} {ret : Ret} (h : c.Tracked)
    (hok : c.EndsState (.acquireReply t ret)) (hd : c.acquireReply t ret = some d) :
    d.Tracked := by
  obtain ⟨lid, hpc, hcases⟩ := acquireReply_cases hd
  have ht : callOf (c.threads t) = some lid := by
    rw [hpc]
    rfl
  rcases hcases with ⟨-, rfl⟩ | ⟨-, rfl⟩ | ⟨hnok, hnretry, rfl⟩
  · exact h.returnOk (.inr ht) (h.head t lid ht)
  · have hleave : ((c.setInfo lid { c.info lid with state := .none }).setThread t
        (.retryWait lid)).Tracked :=
      h.leave ht rfl rfl rfl rfl (fun l hl => info_setInfo_ne c _ hl) (by simp) (by simp)
    exact hleave.retryLoop lid (by simp [callOf])
  · have hstate : (c.info lid).state ≠ .acquiring := fun hst =>
      (hok lid hpc hst).elim hnok hnretry
    have hleave : (c.setThread t (.waiting lid)).Tracked :=
      h.leave ht rfl rfl rfl rfl (fun _ _ => rfl) hstate fun hst => hst
    exact hleave.acquireLoop lid (by simp [callOf])

/-- Any other return finds the thread first in line and the record `ACQUIRING`, so it waits. -/
theorem Tracked.not_brief_acquireReply {t : Tid} {ret : Ret} (h : c.Tracked)
    (hbad : ¬ c.EndsState (.acquireReply t ret)) (hd : c.acquireReply t ret = some d) :
    ¬ d.Brief := by
  obtain ⟨lid, hpc, hcases⟩ := acquireReply_cases hd
  simp only [EndsState, not_forall, not_or] at hbad
  obtain ⟨l, hl, hst, hnok, hnretry⟩ := hbad
  obtain rfl : lid = l := AcquirePc.calling.inj (hpc.symm.trans hl)
  have hdeq : d = (c.setThread t (.waiting lid)).acquireLoop t lid := by
    rcases hcases with ⟨hok, -⟩ | ⟨hretry, -⟩ | ⟨-, -, hdeq⟩
    · exact absurd hok hnok
    · exact absurd hretry hnretry
    · exact hdeq
  have hwait : d = c.setThread t (.waiting lid) := by
    rw [hdeq]
    simp [LockClientCache.acquireLoop, hst, setThread_setThread]
  intro hbrief
  obtain ⟨u, hu⟩ := hbrief.acquiring lid (by rw [hwait, setThread_info, hst])
  rw [hwait, setThread_threads] at hu
  by_cases hut : u = t
  · subst hut
    simp [callOf] at hu
  · rw [Function.update_of_ne hut] at hu
    exact hut (h.caller_unique (h.head t lid (by rw [hpc]; rfl)) hu)

/-! ## The releaser -/

/-- What `releaser` takes stands in the queue at or after its iterator. -/
theorem nextRevoke_index {state : LockId → ClientState} {queue : List LockId} {it i : Nat}
    (h : nextRevoke state it queue = some (i, lid)) :
    it ≤ i ∧ queue[i - it]? = some lid := by
  induction queue generalizing it with
  | nil => cases h
  | cons l queue ih =>
    unfold nextRevoke at h
    split_ifs at h with hlocked
    · obtain ⟨hle, hget⟩ := ih h
      refine ⟨by omega, ?_⟩
      rwa [show i - it = i - (it + 1) + 1 by omega, List.getElem?_cons_succ]
    · cases h
      exact ⟨Nat.le_refl _, by simp⟩

omit [DecidableEq Tid] in
theorem scanRevoke_index {it i : Nat} (h : c.scanRevoke it = some (i, lid)) :
    it ≤ i ∧ c.revokeQueue[i]? = some lid := by
  obtain ⟨hle, hget⟩ := nextRevoke_index h
  rw [List.getElem?_drop, Nat.add_sub_cancel' hle] at hget
  exact ⟨hle, hget⟩

omit [DecidableEq Tid] in
/-- The walk of `releaser` starts or goes on while no record is `RELEASING`. -/
theorem releaserScan_tracked
    (hacquiring : ∀ lid, (c.info lid).state = .acquiring → ∃ t, callOf (c.threads t) = some lid)
    (hreleasing : ∀ lid, (c.info lid).state ≠ .releasing)
    (hhead : ∀ t lid, callOf (c.threads t) = some lid →
      (c.info lid).waitingThreads.head? = some t)
    (hnodup : c.revokeQueue.Nodup) (it : Nat) : (c.releaserScan it).Tracked := by
  unfold releaserScan
  split
  · rename_i i lid hscan
    have hself := info_setInfo_self c lid { c.info lid with state := .releasing }
    have hother : ∀ l, l ≠ lid →
        (c.setInfo lid { c.info lid with state := .releasing }).info l = c.info l :=
      fun l hl => info_setInfo_ne c _ hl
    refine ⟨⟨fun l hst => ?_, fun l hst => ?_⟩, fun u l hu => ?_, hnodup, ?_⟩
    · change ((c.setInfo lid _).info l).state = _ at hst
      by_cases hl : l = lid
      · subst hl
        rw [hself] at hst
        cases hst
      · rw [hother l hl] at hst
        exact hacquiring l hst
    · change ((c.setInfo lid _).info l).state = _ at hst
      by_cases hl : l = lid
      · rw [hl]
        rfl
      · rw [hother l hl] at hst
        exact absurd hst (hreleasing l)
    · show ((c.setInfo lid _).info l).waitingThreads.head? = some u
      by_cases hl : l = lid
      · subst hl
        rw [hself]
        exact hhead u l hu
      · rw [hother l hl]
        exact hhead u l hu
    · rintro it' lid' hpc
      cases hpc
      exact (scanRevoke_index hscan).2
  · exact ⟨⟨hacquiring, fun l hst => absurd hst (hreleasing l)⟩, hhead, hnodup,
      fun _ _ hpc => by cases hpc⟩

omit [DecidableEq Tid] in
theorem Tracked.releaserStart (h : c.Tracked) (hd : c.releaserStart = some d) : d.Tracked := by
  unfold LockClientCache.releaserStart at hd
  split at hd
  · rename_i hpc
    split_ifs at hd
    cases hd
    refine releaserScan_tracked h.brief.acquiring (fun lid hst => ?_) h.head h.nodup 0
    have hrel := h.brief.releasing lid hst
    rw [hpc] at hrel
    cases hrel
  · cases hd

omit [DecidableEq Tid] in
theorem releaseReply_cases {ret : Ret} (hd : c.releaseReply ret = some d) :
    ∃ it lid, c.releaser = .calling it lid ∧
      ((ret = .status .ok ∧ d = (c.afterRelease it lid .ok).1.releaserScan it) ∨
        (ret ≠ .status .ok ∧ d = c.releaserScan (it + 1))) := by
  unfold releaseReply at hd
  split at hd
  · rename_i it lid s hpc
    refine ⟨it, lid, hpc, ?_⟩
    have hserved : c.releaseServed s = { c with releaser := .replied it lid s } := by
      simp only [releaseServed, hpc]
    rw [hserved] at hd
    -- Where `releaser` was does not matter for what it does next.
    cases s with
    | ok =>
      refine .inl ⟨rfl, ?_⟩
      cases hd
      rw [← releaserScan_atTop, ← releaserScan_atTop (c.afterRelease it lid .ok).1]
      rfl
    | retry | rpcerr | noent | ioerr =>
      refine .inr ⟨by simp, ?_⟩
      cases hd
      rw [← releaserScan_atTop, ← releaserScan_atTop c]
      rfl
  · rename_i it lid f hpc
    cases hd
    exact ⟨it, lid, hpc, .inr ⟨by simp, rfl⟩⟩
  · cases hd

omit [DecidableEq Tid] in
theorem Tracked.releaseReply {ret : Ret} (h : c.Tracked)
    (hok : ∀ it lid, c.releaser = .calling it lid → (c.info lid).state = .releasing →
      ret = .status .ok) (hd : c.releaseReply ret = some d) : d.Tracked := by
  obtain ⟨it, lid, hpc, hcases⟩ := releaseReply_cases hd
  -- Only the record of the call can be `RELEASING`.
  have honly : ∀ l, (c.info l).state = .releasing → l = lid := by
    intro l hst
    have hrel := h.brief.releasing l hst
    rw [hpc] at hrel
    exact (Option.some.inj hrel).symm
  rcases hcases with ⟨-, rfl⟩ | ⟨hnok, rfl⟩
  · have hself : (c.afterRelease it lid .ok).1.info lid =
        { c.info lid with toBeRevoked := false, state := .none } := info_setInfo_self c lid _
    have hother : ∀ l, l ≠ lid → (c.afterRelease it lid .ok).1.info l = c.info l :=
      fun l hl => info_setInfo_ne c _ hl
    refine releaserScan_tracked (fun l hst => ?_) (fun l hst => ?_) (fun u l hu => ?_)
      (h.nodup.eraseIdx it) it
    · exact h.brief.acquiring l (afterRelease_acquiring hst)
    · by_cases hl : l = lid
      · rw [hl, hself] at hst
        cases hst
      · rw [hother l hl] at hst
        exact hl (honly l hst)
    · have hhead := h.head u l hu
      by_cases hl : l = lid
      · subst hl
        rw [hself]
        exact hhead
      · rw [hother l hl]
        exact hhead
  · refine releaserScan_tracked h.brief.acquiring (fun l hst => ?_) h.head h.nodup (it + 1)
    have hl := honly l hst
    exact hnok (hok it lid hpc (hl ▸ hst))

omit [DecidableEq Tid] in
/-- After any other return `releaser` walks on, and its lock does not come again. -/
theorem Tracked.not_brief_releaseReply {ret : Ret} {it : Nat} (h : c.Tracked)
    (hpc : c.releaser = .calling it lid) (hst : (c.info lid).state = .releasing)
    (hnok : ret ≠ .status .ok) (hd : c.releaseReply ret = some d) : ¬ d.Brief := by
  obtain ⟨it', lid', hpc', hcases⟩ := releaseReply_cases hd
  cases hpc.symm.trans hpc'
  have hdeq : d = c.releaserScan (it + 1) := by
    rcases hcases with ⟨hok, -⟩ | ⟨-, hdeq⟩
    · exact absurd hok hnok
    · exact hdeq
  have hat := h.iterator it lid hpc
  rw [hdeq]
  intro hbrief
  unfold LockClientCache.releaserScan at hbrief
  split at hbrief
  · rename_i i l hscan
    obtain ⟨hle, hget⟩ := scanRevoke_index hscan
    have hne : lid ≠ l := by
      rintro rfl
      have hi : it < c.revokeQueue.length := (List.getElem?_eq_some_iff.mp hat).1
      have := (List.getElem?_inj hi h.nodup).mp (hat.trans hget.symm)
      omega
    have hstill : ((c.setInfo l { c.info l with state := .releasing }).info lid).state =
        .releasing := by
      rw [info_setInfo_ne c _ hne]
      exact hst
    have hrel := hbrief.releasing lid hstill
    exact hne (Option.some.inj hrel).symm
  · have hrel := hbrief.releasing lid hst
    cases hrel

/-! ## Every interleaving -/

omit [DecidableEq Tid] in
theorem Tracked.revoke (h : c.Tracked) (lid : LockId) :
    (c.revoke lid).2.Tracked := by
  have hset : (c.setInfo lid { c.info lid with toBeRevoked := true }).Tracked :=
    h.setInfo (.inl rfl) fun u hu => h.head u lid hu
  unfold LockClientCache.revoke
  dsimp only
  split_ifs with hmem
  · exact hset
  · refine ⟨⟨hset.brief.acquiring, hset.brief.releasing⟩, hset.head, ?_, fun it l hpc => ?_⟩
    · rw [← List.concat_eq_append]
      exact List.Nodup.concat hmem hset.nodup
    · have hget := hset.iterator it l hpc
      exact (List.getElem?_append_left (List.getElem?_eq_some_iff.mp hget).1).trans hget

omit [DecidableEq Tid] in
theorem Tracked.retry (h : c.Tracked) (lid : LockId) :
    (c.retry lid).2.Tracked := by
  unfold LockClientCache.retry
  split
  · exact h
  · rename_i li hfind
    have hli : li = c.info lid := by simp [info, hfind]
    subst hli
    exact h.setInfo (.inl rfl) fun u hu => h.head u lid hu

theorem Tracked.openStep {a : OpenAction Tid} (h : c.Tracked) (hok : c.EndsState a)
    (hd : c.openStep a = some d) : d.Tracked := by
  cases a with
  | acquire t lid => exact h.acquire hd
  | wake t => exact h.wake hd
  | acquireReply t ret => exact h.acquireReply hok hd
  | release t lid =>
    have hnote : (c.setHolds t lid true).Tracked :=
      ⟨⟨h.brief.acquiring, h.brief.releasing⟩, h.head, h.nodup, h.iterator⟩
    exact hnote.release hd
  | releaserStart => exact h.releaserStart hd
  | releaseReply ret => exact h.releaseReply hok hd
  | revoke lid =>
    cases hd
    exact h.revoke lid
  | retry lid =>
    cases hd
    exact h.retry lid

theorem Tracked.not_brief {a : OpenAction Tid} (h : c.Tracked) (hbad : ¬ c.EndsState a)
    (hd : c.openStep a = some d) : ¬ d.Brief := by
  cases a with
  | acquireReply t ret => exact h.not_brief_acquireReply hbad hd
  | releaseReply ret =>
    simp only [EndsState, not_forall] at hbad
    obtain ⟨it, lid, hpc, hst, hnok⟩ := hbad
    exact h.not_brief_releaseReply hpc hst hnok hd
  | acquire | wake | release | releaserStart | revoke | retry => exact absurd trivial hbad

/-- For every interleaving of the threads of a client, its releaser and its handlers, and for every
return of its calls: the transient states last only as long as their calls, in every state of the
run, if and only if every return to a record in a transient state is one that ends it. -/
theorem brief_iff_endsState (actions : List (OpenAction Tid)) :
    openSystem.AlongRun Brief (new : LockClientCache Tid) actions ↔
      openSystem.StepsMeet EndsState new actions :=
  System.alongRun_iff_stepsMeet (fun _ => Tracked.brief) (fun _ _ _ h hok hs => h.openStep hok hs)
    (fun _ _ _ h hbad hs => h.not_brief hbad hs) new_tracked

/-- The acquire call times out, and a release call is rejected. -/
def timesOut : List (OpenAction Unit) := [.acquire () 1, .acquireReply () (.failure .timeout)]

def rejected : List (OpenAction Unit) :=
  [.revoke 1, .releaserStart, .releaseReply (.status .rpcerr)]

theorem timesOut_rejected_not_brief :
    ¬ openSystem.AlongRun Brief new timesOut ∧ ¬ openSystem.AlongRun Brief new rejected := by
  constructor
  · intro h
    obtain ⟨t, ht⟩ := (h.final (by decide)).acquiring 1 (by decide)
    cases t
    revert ht
    decide
  · intro h
    exact absurd ((h.final (by decide)).releasing 1 (by decide)) (by decide)

end LockClientCache
end Lock
end Frangipani
