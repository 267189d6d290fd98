/-
Mutual exclusion of the caching locks.

Any number of clients with any number of threads run against one server.  A
remote call is run once by the party it is made to, at any time after it was
made, and its reply reaches the caller at any time after that.

Two things go wrong in the code.  `releaser` treats every record that is not
`LOCKED` as one that can be given back, so a revoke that overtakes the reply to
an acquire call makes it return a lock that the reply then hands to a thread.
And the server takes a release from a client that it has merely offered the lock,
even if another client owns it by then.  When neither happens, at most one thread
holds a lock.
-/
import Frangipani.Lock.ClientPhase
import Frangipani.Lock.Ownership

namespace Frangipani
namespace Lock

open Transition

/-- The server, the clients, and the replies to the server's two outstanding
calls once a client has run them. -/
structure World (Clt Tid : Type) where
  server : LockServerCache Clt
  client : Clt → LockClientCache Tid
  retryReply : Option RStatus
  revokeReply : Option RStatus

namespace World

/-- A step of a client on its own, a call that reaches the party it is made to,
or a step of a thread of the server. -/
inductive Action (Clt Tid : Type)
  | client (c : Clt) (a : ClientAction Tid)
  | serveAcquire (c : Clt) (t : Tid)
  | serveRelease (c : Clt)
  | retryerStart
  | serveRetry
  | retryerReturn
  | revokerStart
  | serveRevoke
  | revokerReturn
  deriving DecidableEq, Repr

variable {Clt Tid : Type}

def start : World Clt Tid where
  server := .new
  client := fun _ => .new
  retryReply := none
  revokeReply := none

/-- At most one thread over all clients holds a lock. -/
def MutualExclusion (w : World Clt Tid) : Prop :=
  ∀ lid c d t u, (w.client c).holds t lid = true → (w.client d).holds u lid = true →
    c = d ∧ t = u

/-- A client that has the right to a lock is its owner at the server. -/
structure Inv (w : World Clt Tid) : Prop where
  clients : ∀ c, (w.client c).Inv
  owned : ∀ c lid, (w.client c).Entitled lid → w.server.OwnedBy lid c

theorem Inv.mutualExclusion {w : World Clt Tid} (h : w.Inv) : w.MutualExclusion := by
  intro lid c d t u ht hu
  have hc := h.owned c lid ((h.clients c).entitled_of_holds ht)
  have hd := h.owned d lid ((h.clients d).entitled_of_holds hu)
  obtain rfl := hc.unique hd
  exact ⟨rfl, (h.clients c).one_holder ht hu⟩

theorem start_inv : (start : World Clt Tid).Inv where
  clients := fun _ => LockClientCache.new_inv
  owned := by
    intro c lid hc
    rcases hc with hc | hc | ⟨t, ht⟩
    · cases hc
    · cases hc
    · cases ht

theorem Inv.of_server {w v : World Clt Tid} (h : w.Inv) (hclient : v.client = w.client)
    (hserver : ∀ lid e, w.server.OwnedBy lid e → v.server.OwnedBy lid e) : v.Inv where
  clients := fun c => hclient ▸ h.clients c
  owned := fun c lid hright => hserver lid c (h.owned c lid (hclient ▸ hright))

/-! ## The steps -/

variable [DecidableEq Clt]

def setClient (w : World Clt Tid) (c : Clt) (d : LockClientCache Tid) : World Clt Tid :=
  { w with client := Function.update w.client c d }

variable [DecidableEq Tid]

def step (w : World Clt Tid) : Action Clt Tid → Option (World Clt Tid)
  | .client c a => ((w.client c).next a).map (w.setClient c)
  | .serveAcquire c t =>
    match (w.client c).threads t with
    | .calling lid =>
      let (ret, server) := w.server.acquire c lid
      some { w.setClient c ((w.client c).acquireServed t ret) with server := server }
    | _ => none
  | .serveRelease c =>
    match (w.client c).releaser with
    | .calling _ lid =>
      let (ret, server) := w.server.release c lid
      some { w.setClient c ((w.client c).releaseServed ret) with server := server }
    | _ => none
  | .retryerStart => w.server.retryerStart.map fun server => { w with server := server }
  | .serveRetry =>
    match w.server.retryer, w.retryReply with
    | .calling _ lid c, none =>
      let (ret, d) := (w.client c).retry lid
      some { w.setClient c d with retryReply := some ret }
    | _, _ => none
  | .retryerReturn =>
    match w.retryReply with
    | some ret => (w.server.retryerReturn (ret = .ok)).map fun server =>
        { w with server := server, retryReply := none }
    | none => none
  | .revokerStart => w.server.revokerStart.map fun server => { w with server := server }
  | .serveRevoke =>
    match w.server.revoker, w.revokeReply with
    | .calling _ lid c, none =>
      let (ret, d) := (w.client c).revoke lid
      some { w.setClient c d with revokeReply := some ret }
    | _, _ => none
  | .revokerReturn =>
    match w.revokeReply with
    | some ret => (w.server.revokerReturn (ret = .ok)).map fun server =>
        { w with server := server, revokeReply := none }
    | none => none

def system : System (World Clt Tid) (Action Clt Tid) where
  init w := w = start
  step := step

/-- `releaser` does not take a lock that is being acquired, and no release call
reaches the server while another client owns the lock. -/
def Orderly (w : World Clt Tid) : Action Clt Tid → Prop
  | .client c a => (w.client c).TakesNoAcquiring a
  | .serveRelease c =>
    match (w.client c).releaser with
    | .calling _ lid =>
      (w.server.locks lid).state = .acquired → (w.server.locks lid).cltId = some c
    | _ => True
  | _ => True

instance (w : World Clt Tid) : ∀ a, Decidable (w.Orderly a)
  | .client c a => inferInstanceAs (Decidable ((w.client c).TakesNoAcquiring a))
  | .serveRelease c =>
    match h : (w.client c).releaser with
    | .calling _ lid =>
      decidable_of_iff
        ((w.server.locks lid).state = .acquired → (w.server.locks lid).cltId = some c)
        (by simp only [Orderly, h])
    | .top => isTrue (by simp only [Orderly, h])
    | .replied .. => isTrue (by simp only [Orderly, h])
  | .serveAcquire .. | .retryerStart | .serveRetry | .retryerReturn | .revokerStart
  | .serveRevoke | .revokerReturn => isTrue trivial

/-! ## One step -/

omit [DecidableEq Tid] in
/-- A step of one client that gives it no new right, with the server's owners
unchanged. -/
theorem Inv.of_client {w v : World Clt Tid} (h : w.Inv) {c : Clt} {d : LockClientCache Tid}
    (hd : (w.client c).Sound d) (hclient : v.client = Function.update w.client c d)
    (hserver : ∀ lid e, w.server.OwnedBy lid e → v.server.OwnedBy lid e) : v.Inv where
  clients := by
    intro e
    by_cases he : e = c
    · subst he
      rw [hclient, Function.update_self]
      exact hd.inv
    · rw [hclient, Function.update_of_ne he]
      exact h.clients e
  owned := by
    intro e lid hright
    refine hserver lid e (h.owned e lid ?_)
    by_cases he : e = c
    · subst he
      rw [hclient, Function.update_self] at hright
      exact hd.right lid hright
    · rwa [hclient, Function.update_of_ne he] at hright

/-- The server has run an acquire call.  The caller is the only client that can
have a new right, and it has one when the server has made it the owner. -/
theorem Inv.serveAcquire {w v : World Clt Tid} (h : w.Inv) {c : Clt} {t : Tid}
    (hv : w.step (.serveAcquire c t) = some v) : v.Inv := by
  simp only [step] at hv
  split at hv
  · rename_i lid hpc
    cases hv
    obtain ⟨hinv, hright⟩ := LockClientCache.acquireServed_inv (h.clients c) hpc
      (w.server.acquire c lid).1
    have hkeep : ∀ l e, w.server.OwnedBy l e → (w.server.acquire c lid).2.OwnedBy l e := by
      intro l e hown
      exact LockServerCache.next_owned (a := .acquire c lid) hown rfl (by simp)
    refine ⟨fun e => ?_, fun e l hent => ?_⟩
    · by_cases he : e = c
      · subst he
        simpa [setClient] using hinv
      · simpa [setClient, he] using h.clients e
    · by_cases he : e = c
      · subst he
        simp only [setClient, Function.update_self] at hent
        rcases hright l hent with hold | ⟨rfl, hok⟩
        · exact hkeep l e (h.owned e l hold)
        · exact LockServerCache.acquire_ok_owned hok
      · simp only [setClient, Function.update_of_ne he] at hent
        exact hkeep l e (h.owned e l hent)
  · cases hv

/-- The server has run a release call.  Its client has no right to the lock, and
no other client owns it. -/
theorem Inv.serveRelease {w v : World Clt Tid} (h : w.Inv) {c : Clt}
    (hok : w.Orderly (.serveRelease c)) (hv : w.step (.serveRelease c) = some v) : v.Inv := by
  simp only [step] at hv
  split at hv
  · rename_i it lid hpc
    cases hv
    simp only [Orderly, hpc] at hok
    have hsound := LockClientCache.releaseServed_sound (h.clients c) (w.server.release c lid).1
    have hnone : ∀ e, ¬ (w.client e).Entitled lid := by
      intro e hent
      have hown := h.owned e lid hent
      obtain rfl : c = e := Option.some.inj ((hok hown.1).symm.trans hown.2)
      exact (h.clients c).not_entitled_of_releasing (by rw [hpc]; rfl) hent
    have hclients : ∀ e l, (Function.update w.client c
        ((w.client c).releaseServed (w.server.release c lid).1) e).Entitled l →
          (w.client e).Entitled l := by
      intro e l hent
      by_cases he : e = c
      · subst he
        rw [Function.update_self] at hent
        exact hsound.right l hent
      · rwa [Function.update_of_ne he] at hent
    refine ⟨fun e => ?_, fun e l hent => ?_⟩
    · by_cases he : e = c
      · subst he
        simpa [setClient] using hsound.inv
      · simpa [setClient, he] using h.clients e
    · have hold := hclients e l hent
      refine LockServerCache.next_owned (a := .release c lid) (h.owned e l hold) rfl ?_
      intro clt hclt
      cases hclt
      exact absurd hold (hnone e)
  · cases hv

theorem Inv.step {w v : World Clt Tid} {a : Action Clt Tid} (h : w.Inv) (hok : w.Orderly a)
    (hv : w.step a = some v) : v.Inv := by
  cases a with
  | client c a =>
    obtain ⟨d, hd, rfl⟩ := Option.map_eq_some_iff.mp hv
    exact h.of_client (LockClientCache.next_sound (h.clients c) hok hd) rfl fun _ _ ho => ho
  | serveAcquire c t => exact h.serveAcquire hv
  | serveRelease c => exact h.serveRelease hok hv
  | retryerStart =>
    obtain ⟨server, hs, rfl⟩ := Option.map_eq_some_iff.mp hv
    exact h.of_server rfl fun lid e ho =>
      LockServerCache.next_owned (a := .retryerStart) ho hs (by simp)
  | serveRetry =>
    simp only [World.step] at hv
    split at hv
    · rename_i it lid c hpc hreply
      cases hv
      exact h.of_client (LockClientCache.retry_sound (h.clients c) lid) rfl fun _ _ ho => ho
    · cases hv
  | retryerReturn =>
    simp only [World.step] at hv
    split at hv
    · obtain ⟨server, hs, rfl⟩ := Option.map_eq_some_iff.mp hv
      exact h.of_server rfl fun lid e ho =>
        LockServerCache.next_owned (a := .retryerReturn _) ho hs (by simp)
    · cases hv
  | revokerStart =>
    obtain ⟨server, hs, rfl⟩ := Option.map_eq_some_iff.mp hv
    exact h.of_server rfl fun lid e ho =>
      LockServerCache.next_owned (a := .revokerStart) ho hs (by simp)
  | serveRevoke =>
    simp only [World.step] at hv
    split at hv
    · rename_i it lid c hpc hreply
      cases hv
      exact h.of_client (LockClientCache.revoke_sound (h.clients c) lid) rfl fun _ _ ho => ho
    · cases hv
  | revokerReturn =>
    simp only [World.step] at hv
    split at hv
    · obtain ⟨server, hs, rfl⟩ := Option.map_eq_some_iff.mp hv
      exact h.of_server rfl fun lid e ho =>
        LockServerCache.next_owned (a := .revokerReturn _) ho hs (by simp)
    · cases hv

/-! ## Every run -/

/-- In every state of a run whose steps are orderly, at most one thread over all
clients holds a lock. -/
theorem mutual_exclusion {w : World Clt Tid} (h : system.ReachableWhile Orderly w) :
    w.MutualExclusion := by
  have hinv : w.Inv := by
    refine h.invariant (fun s hs => ?_) fun s a t hs hok ht => hs.step hok ht
    cases hs
    exact start_inv
  exact hinv.mutualExclusion

/-- The second client waits until the first has released the lock and its
releaser has returned it, and then gets it. -/
def handOver : List (Action String Nat) :=
  [.client "a" (.acquire 0 1), .serveAcquire "a" 0, .client "a" (.acquireReturn 0),
    .client "b" (.acquire 0 1), .serveAcquire "b" 0, .client "b" (.acquireReturn 0),
    .revokerStart, .serveRevoke, .client "a" (.release 0 1), .client "a" .releaserStart,
    .serveRelease "a", .retryerStart, .serveRetry, .client "b" (.wake 0),
    .serveAcquire "b" 0, .client "b" (.acquireReturn 0)]

theorem mutual_exclusion_handOver :
    ∃ w : World String Nat, system.ReachableWhile Orderly w ∧
      (w.client "b").holds 0 1 = true ∧ w.MutualExclusion := by
  have hreach : system.ReachableWhile Orderly (system.final start handOver) :=
    System.ReachableWhile.final handOver (.init rfl) (by decide) (by decide +kernel)
  refine ⟨_, hreach, ?_, mutual_exclusion hreach⟩
  decide +kernel

/-- The revoke overtakes the reply to the first client's acquire call, and the
releaser gives the lock back before the reply arrives. -/
def overtakingRevoke : List (Action String Nat) :=
  [.client "a" (.acquire 0 1), .serveAcquire "a" 0,
    .client "b" (.acquire 0 1), .serveAcquire "b" 0, .client "b" (.acquireReturn 0),
    .revokerStart, .serveRevoke, .client "a" .releaserStart, .serveRelease "a",
    .client "a" (.acquireReturn 0), .retryerStart, .serveRetry, .client "b" (.wake 0),
    .serveAcquire "b" 0, .client "b" (.acquireReturn 0)]

theorem overtakingRevoke_two_holders :
    ∃ w : World String Nat, system.Reachable w ∧ (w.client "a").holds 0 1 = true ∧
      (w.client "b").holds 0 1 = true ∧ ¬ w.MutualExclusion := by
  have hreach : system.Reachable (system.final start overtakingRevoke) :=
    System.Reachable.final overtakingRevoke (.init rfl) (by decide +kernel)
  have ha : ((system.final start overtakingRevoke).client "a").holds 0 1 = true := by
    decide +kernel
  have hb : ((system.final start overtakingRevoke).client "b").holds 0 1 = true := by
    decide +kernel
  refine ⟨_, hreach, ha, hb, fun h => ?_⟩
  exact absurd (h 1 "a" "b" 0 0 ha hb).1 (by decide)

/-- A client asks for lock 1 and gets the answer. -/
def asks (c : String) : List (Action String Nat) :=
  [.client c (.acquire 0 1), .serveAcquire c 0, .client c (.acquireReturn 0)]

/-- A client follows a retry. -/
def asksAgain (c : String) : List (Action String Nat) :=
  [.client c (.wake 0), .serveAcquire c 0, .client c (.acquireReturn 0)]

/-- The releaser of a client gives back the lock. -/
def givesBack (c : String) : List (Action String Nat) :=
  [.client c .releaserStart, .serveRelease c, .client c .releaseReturn]

/-- The revoke call under way is answered. -/
def revoked : List (Action String Nat) := [.serveRevoke, .revokerReturn]

/-- The retry call to the second client returns late, when the client has already
given the lock back, and queues another revoke for it.  That revoke makes the
client give up the next offer, which leaves one entry too many in `free_locks`. -/
def lateRetryReply : List (Action String Nat) :=
  .flatten [asks "a", asks "b", [.revokerStart], revoked, [.client "a" (.release 0 1)],
    givesBack "a", [.retryerStart, .serveRetry], asksAgain "b", asks "c", [.revokerStart],
    revoked, [.client "b" (.release 0 1)], givesBack "b",
    [.retryerReturn, .serveRetry, .retryerReturn], asksAgain "c", asks "b", [.revokerStart],
    revoked, revoked, [.client "c" (.release 0 1)], givesBack "c", [.retryerStart],
    givesBack "b", [.serveRetry, .retryerReturn], asksAgain "b"]

/-- The entry makes `retryer` offer the lock of the second client to the third,
and the third gives the offer back when it is revoked. -/
def foreignRelease : List (Action String Nat) :=
  .flatten [lateRetryReply, asks "c", asks "d",
    [.retryerStart, .serveRetry, .retryerReturn, .revokerStart], revoked, revoked, givesBack "c",
    [.retryerStart, .serveRetry], asksAgain "d"]

/-- The first half of `Orderly`. -/
def TakesNoAcquiring (w : World Clt Tid) : Action Clt Tid → Prop
  | .client c a => (w.client c).TakesNoAcquiring a
  | _ => True

instance (w : World Clt Tid) : ∀ a, Decidable (w.TakesNoAcquiring a)
  | .client c a => inferInstanceAs (Decidable ((w.client c).TakesNoAcquiring a))
  | .serveAcquire .. | .serveRelease _ | .retryerStart | .serveRetry | .retryerReturn
  | .revokerStart | .serveRevoke | .revokerReturn => isTrue trivial

/-- The first half of `Orderly` alone is not enough. -/
theorem foreignRelease_two_holders :
    ∃ w : World String Nat, system.ReachableWhile TakesNoAcquiring w ∧
      (w.client "b").holds 0 1 = true ∧ (w.client "d").holds 0 1 = true := by
  have hreach : system.ReachableWhile TakesNoAcquiring (system.final start foreignRelease) :=
    System.ReachableWhile.final foreignRelease (.init rfl) (by decide +kernel) (by decide +kernel)
  refine ⟨_, hreach, ?_, ?_⟩
  · decide +kernel
  · decide +kernel

end World
end Lock
end Frangipani
