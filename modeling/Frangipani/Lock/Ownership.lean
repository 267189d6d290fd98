/-
Who may give a lock up.

The server runs as a transition system: calls of `acquire` and `release` by any
client in any order, interleaved with the steps of `retryer` and `revoker`,
whose remote calls have arbitrary outcomes.

`retryer` does not look at the state of a lock before it offers it, and an entry
of `free_locks` can be older than the lock's present owner.  A lock that is
offered while it is owned can be given up by the client it was offered to.  A
run keeps the server's record with the owner exactly as long as `retryer` offers
only locks that are free.
-/
import Frangipani.Lock.Server
import Frangipani.Transition.System

namespace Frangipani
namespace Lock

open Transition

/-- The steps of the server.  `ok` is the outcome of a thread's remote call. -/
inductive ServerAction (Clt : Type)
  | acquire (clt : Clt) (lid : LockId)
  | release (clt : Clt) (lid : LockId)
  | retryerStart
  | retryerReturn (ok : Bool)
  | revokerStart
  | revokerReturn (ok : Bool)
  deriving DecidableEq, Repr

namespace LockServerCache

variable {Clt : Type} [DecidableEq Clt]

def next (s : LockServerCache Clt) : ServerAction Clt → Option (LockServerCache Clt)
  | .acquire clt lid => some (s.acquire clt lid).2
  | .release clt lid => some (s.release clt lid).2
  | .retryerStart => s.retryerStart
  | .retryerReturn ok => s.retryerReturn ok
  | .revokerStart => s.revokerStart
  | .revokerReturn ok => s.revokerReturn ok

def system : System (LockServerCache Clt) (ServerAction Clt) where
  init s := s = new
  step := next

/-- The offer a step makes, if it makes one. -/
def offered (s : LockServerCache Clt) : ServerAction Clt → Option (Nat × LockId × Clt)
  | .retryerStart => s.scanOffer 0
  | .retryerReturn ok =>
    match s.retryer with
    | .top => none
    | .calling it lid clt =>
      let next := s.afterRetry it lid clt ok
      next.1.scanOffer next.2
  | _ => none

/-! ## What a step does to one lock -/

/-- The record of `lid` after a step `a` from `s`. -/
inductive LockStep (s : LockServerCache Clt) (lid : LockId) :
    ServerAction Clt → ServerInfo Clt → Prop
  | frame (a : ServerAction Clt) : LockStep s lid a (s.locks lid)
  | grant (clt : Clt) : Grantable (s.locks lid) clt → LockStep s lid (.acquire clt lid)
      { s.locks lid with cltId := some clt, state := .acquired, retryerSentTo := none }
  | queue (clt : Clt) : ¬ Grantable (s.locks lid) clt → LockStep s lid (.acquire clt lid)
      { s.locks lid with waitingClients := enqueue (s.locks lid).waitingClients clt }
  | free (clt : Clt) : MayRelease (s.locks lid) clt → LockStep s lid (.release clt lid)
      { s.locks lid with state := .free, cltId := none, retryerSentTo := none }
  | offer (a : ServerAction Clt) (it : Nat) (clt : Clt) : s.offered a = some (it, lid, clt) →
      (s.locks lid).retryerSentTo = none → LockStep s lid a
        { s.locks lid with
          waitingClients := (s.locks lid).waitingClients.tail, retryerSentTo := some clt }

theorem acquire_granted {s : LockServerCache Clt} {clt : Clt} {lid : LockId}
    (h : Grantable (s.locks lid) clt) :
    s.acquire clt lid = (.ok, s.setLock lid
      { s.locks lid with cltId := some clt, state := .acquired, retryerSentTo := none }) := by
  simp only [acquire, h, if_true]

theorem acquire_refused_locks {s : LockServerCache Clt} {clt : Clt} {lid : LockId}
    (h : ¬ Grantable (s.locks lid) clt) :
    (s.acquire clt lid).2.locks = (s.setLock lid
      { s.locks lid with waitingClients := enqueue (s.locks lid).waitingClients clt }).locks := by
  simp only [acquire, h, if_false]
  split
  · rw [addRevoke_locks]
  · rfl

theorem acquire_refused_status {s : LockServerCache Clt} {clt : Clt} {lid : LockId}
    (h : ¬ Grantable (s.locks lid) clt) : (s.acquire clt lid).1 = .retry := by
  simp only [acquire, h, if_false]
  split <;> rfl

theorem acquire_lockStep (s : LockServerCache Clt) (clt : Clt) (l lid : LockId) :
    LockStep s lid (.acquire clt l) ((s.acquire clt l).2.locks lid) := by
  by_cases h : Grantable (s.locks l) clt
  · rw [acquire_granted h]
    by_cases hl : lid = l
    · subst hl
      rw [setLock_locks_self]
      exact .grant clt h
    · rw [setLock_locks_ne _ _ hl]
      exact .frame _
  · rw [acquire_refused_locks h]
    by_cases hl : lid = l
    · subst hl
      rw [setLock_locks_self]
      exact .queue clt h
    · rw [setLock_locks_ne _ _ hl]
      exact .frame _

theorem release_lockStep (s : LockServerCache Clt) (clt : Clt) (l lid : LockId) :
    LockStep s lid (.release clt l) ((s.release clt l).2.locks lid) := by
  by_cases h : MayRelease (s.locks l) clt
  · simp only [release, h, if_true]
    by_cases hl : lid = l
    · subst hl
      rw [setLock_locks_self]
      exact .free clt h
    · rw [setLock_locks_ne _ _ hl]
      exact .frame _
  · simp only [release, h, if_false]
    exact .frame _

theorem next_lockStep {s t : LockServerCache Clt} {a : ServerAction Clt} (h : s.next a = some t)
    (lid : LockId) : LockStep s lid a (t.locks lid) := by
  cases a with
  | acquire clt l =>
    cases h
    exact acquire_lockStep s clt l lid
  | release clt l =>
    cases h
    exact release_lockStep s clt l lid
  | retryerStart =>
    obtain ⟨_, rfl⟩ := retryerStart_eq_some h
    rcases retryerScan_locks s 0 lid with heq | ⟨i, clt, hoffer, hsent, heq⟩
    · rw [heq]
      exact .frame _
    · rw [heq]
      exact .offer _ i clt hoffer hsent
  | retryerReturn ok =>
    obtain ⟨it, l, c, hpc, rfl⟩ := retryerReturn_eq_some h
    rcases retryerScan_locks (s.afterRetry it l c ok).1 (s.afterRetry it l c ok).2 lid with
      heq | ⟨i, clt, hoffer, hsent, heq⟩
    · rw [heq, afterRetry_locks]
      exact .frame _
    · rw [afterRetry_locks] at hsent heq
      rw [heq]
      refine .offer _ i clt ?_ hsent
      simp only [offered, hpc]
      exact hoffer
  | revokerStart =>
    obtain ⟨_, rfl⟩ := revokerStart_eq_some h
    rw [revokerScan_locks]
    exact .frame _
  | revokerReturn ok =>
    obtain ⟨it, l, c, _, ⟨_, rfl⟩ | ⟨_, rfl⟩⟩ := revokerReturn_eq_some h
    · rw [revokerScan_locks]
      exact .frame _
    · rw [revokerScan_locks]
      exact .frame _

/-! ## Ownership along a run -/

/-- In this state a lock that is owned is not on offer, a granted lock is
owned by the client it was granted to, only a `release` by the owner can end
that, and a `release` by anybody else leaves the record alone. -/
def OnlyOwnerGivesUp (s : LockServerCache Clt) : Prop :=
  ∀ lid,
    ((s.locks lid).state = .acquired → (s.locks lid).retryerSentTo = none) ∧
    (∀ clt, (s.acquire clt lid).1 = .ok → (s.acquire clt lid).2.OwnedBy lid clt) ∧
    ∀ owner, s.OwnedBy lid owner →
      (∀ a t, s.next a = some t → a ≠ .release owner lid → t.OwnedBy lid owner) ∧
      ∀ other, other ≠ owner → (s.release other lid).2.locks lid = s.locks lid

/-- The lock that the step offers, if it offers one, is free. -/
def OffersFree (s : LockServerCache Clt) (a : ServerAction Clt) : Prop :=
  ∀ it lid clt, s.offered a = some (it, lid, clt) → (s.locks lid).state = .free

/-- An owned lock is not on offer. -/
def OwnedNotOffered (s : LockServerCache Clt) : Prop :=
  ∀ lid, (s.locks lid).state = .acquired → (s.locks lid).retryerSentTo = none

theorem acquire_ok_owned {s : LockServerCache Clt} {clt : Clt} {lid : LockId}
    (h : (s.acquire clt lid).1 = .ok) : (s.acquire clt lid).2.OwnedBy lid clt := by
  by_cases hg : Grantable (s.locks lid) clt
  · rw [acquire_granted hg]
    show _ ∧ _
    rw [setLock_locks_self]
    exact ⟨rfl, rfl⟩
  · rw [acquire_refused_status hg] at h
    cases h

/-- A lock stays with its owner in every step but a `release` that the server
accepts. -/
theorem next_owned {s t : LockServerCache Clt} {a : ServerAction Clt} {lid : LockId} {owner : Clt}
    (hown : s.OwnedBy lid owner) (h : s.next a = some t)
    (ha : ∀ clt, a = .release clt lid → ¬ MayRelease (s.locks lid) clt) : t.OwnedBy lid owner := by
  have hstep : LockStep s lid a (t.locks lid) := next_lockStep h lid
  obtain ⟨hstate, hclt⟩ := hown
  unfold OwnedBy
  generalize t.locks lid = li at hstep
  cases hstep with
  | frame => exact ⟨hstate, hclt⟩
  | grant clt hg =>
    rw [hg.1] at hstate
    cases hstate
  | queue => exact ⟨hstate, hclt⟩
  | free clt hmay => exact absurd hmay (ha clt rfl)
  | offer => exact ⟨hstate, hclt⟩

omit [DecidableEq Clt] in
/-- The server accepts no `release` of an owned lock that is not on offer, but
the owner's. -/
theorem OwnedNotOffered.not_mayRelease {s : LockServerCache Clt} {lid : LockId} {owner other : Clt}
    (hoff : s.OwnedNotOffered) (hown : s.OwnedBy lid owner) (hne : other ≠ owner) :
    ¬ MayRelease (s.locks lid) other := by
  intro hmay
  rcases hmay with hc | hc
  · rw [hown.2] at hc
    exact hne (Option.some.inj hc).symm
  · rw [hoff lid hown.1] at hc
    cases hc

theorem OwnedNotOffered.onlyOwnerGivesUp {s : LockServerCache Clt} (h : s.OwnedNotOffered) :
    s.OnlyOwnerGivesUp := by
  intro lid
  refine ⟨h lid, fun clt hok => acquire_ok_owned hok, fun owner hown => ⟨?_, ?_⟩⟩
  · intro a t ht ha
    refine next_owned hown ht fun clt hclt => h.not_mayRelease hown ?_
    intro heq
    exact ha (heq ▸ hclt)
  · intro other hne
    have hmay := h.not_mayRelease hown hne
    simp only [release, hmay, if_false]

theorem next_ownedNotOffered {s t : LockServerCache Clt} {a : ServerAction Clt}
    (hoff : s.OwnedNotOffered) (hok : s.OffersFree a) (h : s.next a = some t) :
    t.OwnedNotOffered := by
  intro lid
  have hstep : LockStep s lid a (t.locks lid) := next_lockStep h lid
  generalize t.locks lid = li at hstep
  cases hstep with
  | frame => exact hoff lid
  | grant => exact fun _ => rfl
  | queue => exact hoff lid
  | free => exact fun _ => rfl
  | offer _ it clt hoffer =>
    intro hstate
    have hfree := hok it lid clt hoffer
    exact absurd (hfree.symm.trans hstate) (by decide)

/-- The step that makes an offer leaves it in the record of the lock. -/
theorem next_offers {s t : LockServerCache Clt} {a : ServerAction Clt} {it : Nat} {lid : LockId}
    {clt : Clt} (h : s.next a = some t) (hoffer : s.offered a = some (it, lid, clt)) :
    (t.locks lid).state = (s.locks lid).state ∧ (t.locks lid).retryerSentTo = some clt := by
  cases a with
  | retryerStart =>
    obtain ⟨_, rfl⟩ := retryerStart_eq_some h
    exact retryerScan_offers hoffer
  | retryerReturn ok =>
    obtain ⟨i, l, c, hpc, rfl⟩ := retryerReturn_eq_some h
    simp only [offered, hpc] at hoffer
    have hscan := retryerScan_offers hoffer
    rw [afterRetry_locks] at hscan
    exact hscan
  | acquire | release | revokerStart | revokerReturn => cases hoffer

theorem not_onlyOwnerGivesUp_of_bad_offer {s t : LockServerCache Clt} {a : ServerAction Clt}
    (hbad : ¬ s.OffersFree a) (h : s.next a = some t) : ¬ t.OnlyOwnerGivesUp := by
  intro hgood
  refine hbad fun it lid clt hoffer => ?_
  obtain ⟨hstate, hsent⟩ := next_offers h hoffer
  cases hs : (s.locks lid).state with
  | free => rfl
  | acquired =>
    rw [hs] at hstate
    rw [(hgood lid).1 hstate] at hsent
    cases hsent

omit [DecidableEq Clt] in
theorem new_ownedNotOffered : (new : LockServerCache Clt).OwnedNotOffered :=
  fun _ _ => rfl

/-- In every run of the server only the owner gives a lock up, in every state,
if and only if every lock that `retryer` offers along the run is free. -/
theorem onlyOwnerGivesUp_iff (as : List (ServerAction Clt)) :
    system.AlongRun OnlyOwnerGivesUp (new : LockServerCache Clt) as ↔
      system.StepsMeet OffersFree (new : LockServerCache Clt) as :=
  System.alongRun_iff_stepsMeet (fun _ h => h.onlyOwnerGivesUp)
    (fun _ _ _ hoff hok hs => next_ownedNotOffered hoff hok hs)
    (fun _ _ _ _ hbad hs => not_onlyOwnerGivesUp_of_bad_offer hbad hs) new_ownedNotOffered

/-- A client releases a lock nobody waits for, and its entry stays in
`free_locks`.  A second client is granted the lock and a third waits for it.
`retryer` finds the old entry and offers the lock, and when the third client
gives the offer up the lock of the second is free. -/
def staleOffer : List (ServerAction String) :=
  [.acquire "a" 1, .release "a" 1, .acquire "b" 1, .acquire "c" 1, .retryerStart, .release "c" 1]

theorem staleOffer_not_onlyOwnerGivesUp :
    (system.run new (staleOffer.take 4)).map (fun s => (s.locks 1).cltId) = some (some "b") ∧
    (system.run new (staleOffer.take 5)).map
      (fun s => ((s.locks 1).state, (s.locks 1).retryerSentTo)) = some (.acquired, some "c") ∧
    (system.run new staleOffer).map (fun s => (s.locks 1).state) = some .free ∧
    ¬ system.AlongRun OnlyOwnerGivesUp new staleOffer := by
  refine ⟨by decide, by decide, by decide, ?_⟩
  intro h
  have hafter : OnlyOwnerGivesUp _ := (h.2 _ rfl).2 _ rfl |>.2 _ rfl |>.2 _ rfl |>.2 _ rfl |>.1
  exact absurd ((hafter 1).1 (by decide)) (by decide)

end LockServerCache
end Lock
end Frangipani
