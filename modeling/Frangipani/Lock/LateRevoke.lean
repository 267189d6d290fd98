/-
Revokes that reach a client late.

The server may send a second revoke for one ownership, and it can arrive when the
client has already given the lock back.  `releaser` then asks the server to take a
lock that the client does not have.  The server answers `RPCERR`, and
`to_be_revoked` stays set, so no thread of the client asks for the lock again.

When every release call reaches the server from the client that owns the lock, or
from the one that a free lock is offered to, none is rejected.  Then a client whose
revoke `releaser` has dealt with owns the lock, or its release call is on its way.
-/
import Frangipani.Lock.Exclusion

namespace Frangipani
namespace Lock

open Transition

namespace LockClientCache

variable {Tid : Type}

/-- The entries of `revoke_queue` that a walk of `releaser` comes to: those it passes over and, at
the end, the one it takes. -/
def walked (state : LockId → ClientState) : List LockId → List LockId
  | [] => []
  | lid :: rest => if state lid = .locked then lid :: walked state rest else [lid]

def walkedFrom (c : LockClientCache Tid) (it : Nat) : List LockId :=
  walked (fun lid => (c.info lid).state) (c.revokeQueue.drop it)

/-- The locks whose revokes a step of `releaser` processes. -/
def processes (c : LockClientCache Tid) : ClientAction Tid → List LockId
  | .releaserStart => c.walkedFrom 0
  | .releaseReturn =>
    match c.releaser with
    | .replied it lid ret => (c.afterRelease it lid ret).1.walkedFrom (c.afterRelease it lid ret).2
    | _ => []
  | _ => []

/-- The client has the lock, or its release call is outstanding. -/
def Busy (c : LockClientCache Tid) (lid : LockId) : Prop :=
  (c.info lid).state = .locked ∨ (c.info lid).state = .free ∨ releaseOf c.releaser = some lid

/-- The reply that `releaser` is about to see is `OK`. -/
def AcceptedReply (c : LockClientCache Tid) : Prop :=
  ∀ it lid ret, c.releaser = .replied it lid ret → ret = .ok

/-- A step that sets no `to_be_revoked`, and no record on which it is set goes out of use. -/
structure Keeps (c d : LockClientCache Tid) : Prop where
  busy : ∀ lid, (d.info lid).toBeRevoked = true →
    (c.info lid).toBeRevoked = true ∧ (c.Busy lid → d.Busy lid)
  reply : c.AcceptedReply → d.AcceptedReply

theorem Keeps.refl (c : LockClientCache Tid) : c.Keeps c :=
  ⟨fun _ h => ⟨h, fun hb => hb⟩, fun h => h⟩

theorem Keeps.trans {c d e : LockClientCache Tid} (hcd : c.Keeps d) (hde : d.Keeps e) :
    c.Keeps e where
  busy lid h :=
    ⟨(hcd.busy lid (hde.busy lid h).1).1, fun hb =>
      (hde.busy lid h).2 ((hcd.busy lid (hde.busy lid h).1).2 hb)⟩
  reply h := hde.reply (hcd.reply h)

theorem Keeps.of_record {c d : LockClientCache Tid} {l : LockId}
    (hinfo : ∀ lid, lid ≠ l → d.info lid = c.info lid) (hreleaser : d.releaser = c.releaser)
    (hflag : (d.info l).toBeRevoked = (c.info l).toBeRevoked)
    (hbusy : (c.info l).toBeRevoked = true → c.Busy l → d.Busy l) : c.Keeps d where
  busy lid h := by
    by_cases hl : lid = l
    · subst hl
      rw [hflag] at h
      exact ⟨h, hbusy h⟩
    · rw [hinfo lid hl] at h
      refine ⟨h, fun hb => ?_⟩
      rwa [Busy, hinfo lid hl, hreleaser]
  reply h it lid ret hd := h it lid ret (hreleaser ▸ hd)

/-- The same, when the record does not change either. -/
theorem Keeps.of_info {c d : LockClientCache Tid} (hinfo : ∀ l, d.info l = c.info l)
    (hreleaser : d.releaser = c.releaser) : c.Keeps d where
  busy l h := by
    rw [hinfo l] at h
    refine ⟨h, fun hb => ?_⟩
    rwa [Busy, hinfo l, hreleaser]
  reply h it l ret hd := h it l ret (hreleaser ▸ hd)

/-- A thread that has a call outstanding keeps the record out of use. -/
theorem Inv.not_busy {c : LockClientCache Tid} (h : c.Inv) {t : Tid} {lid : LockId}
    (ht : callOf (c.threads t) = some lid) : ¬ c.Busy lid := by
  have hp := h.at_calling ht
  have hstate : (c.info lid).state = .acquiring := hp.state
  rintro (hst | hst | hrel)
  · rw [hstate] at hst
    cases hst
  · rw [hstate] at hst
    cases hst
  · cases hp.release.mp hrel

variable [DecidableEq Tid]

theorem Keeps.acquireLoop (c : LockClientCache Tid) (t : Tid) (lid : LockId) :
    c.Keeps (c.acquireLoop t lid) := by
  have hpark : c.Keeps (c.setThread t (.waiting lid)) := .of_info (fun _ => rfl) rfl
  unfold LockClientCache.acquireLoop
  dsimp only
  split
  · exact hpark
  · rename_i hflag
    split
    · exact hpark
    · split
      · exact .of_record (fun l hl => info_setInfo_ne c _ hl) rfl (by simp)
          fun h => absurd h hflag
      · exact .of_record (fun l hl => info_setInfo_ne c _ hl) rfl
          (by simp [LockClientCache.returnOk]) fun h => absurd h hflag
      · exact hpark

theorem Keeps.retryLoop (c : LockClientCache Tid) (t : Tid) (lid : LockId) :
    c.Keeps (c.retryLoop t lid) := by
  unfold LockClientCache.retryLoop
  split
  · exact .acquireLoop c t lid
  · exact .refl c

theorem Keeps.acquire {c d : LockClientCache Tid} {t : Tid} {lid : LockId}
    (hd : c.acquire t lid = some d) : c.Keeps d := by
  unfold LockClientCache.acquire at hd
  split at hd
  · cases hd
    have henter : c.Keeps (c.setInfo lid { c.info lid with
        waitingThreads := if t ∈ (c.info lid).waitingThreads then (c.info lid).waitingThreads
          else (c.info lid).waitingThreads ++ [t] }) := by
      refine .of_record (fun l hl => info_setInfo_ne c _ hl) rfl (by simp) fun _ hb => ?_
      rwa [Busy, info_setInfo_self]
    exact henter.trans (.acquireLoop _ t lid)
  · cases hd

theorem Keeps.wake {c d : LockClientCache Tid} {t : Tid} (hd : c.wake t = some d) : c.Keeps d := by
  unfold LockClientCache.wake at hd
  split at hd
  · cases hd
    exact .acquireLoop c t _
  · cases hd
    exact .retryLoop c t _
  · cases hd

theorem Keeps.acquireReturn {c d : LockClientCache Tid} {t : Tid} (h : c.Inv)
    (hd : c.acquireReturn t = some d) : c.Keeps d := by
  unfold LockClientCache.acquireReturn at hd
  split at hd
  · rename_i lid hpc
    cases hd
    refine .of_record (l := lid) (fun l hl => info_setInfo_ne c _ hl) rfl ?_ fun _ _ => .inl ?_
    · simp [LockClientCache.returnOk]
    · simp [LockClientCache.returnOk]
  · rename_i lid hpc
    cases hd
    have hnot : ¬ c.Busy lid := h.not_busy (t := t) (by rw [hpc]; rfl)
    have hleave : c.Keeps ((c.setInfo lid { c.info lid with state := .none }).setThread t
        (.retryWait lid)) :=
      .of_record (fun l hl => info_setInfo_ne c _ hl) rfl (by simp) fun _ hb => absurd hb hnot
    exact hleave.trans (.retryLoop _ t lid)
  · rename_i lid ret hok hretry hpc
    cases hd
    have hleave : c.Keeps (c.setThread t (.waiting lid)) := .of_info (fun _ => rfl) rfl
    exact hleave.trans (.acquireLoop _ t lid)
  · cases hd

theorem Keeps.release {c d : LockClientCache Tid} {t : Tid} {lid : LockId}
    (hd : c.release t lid = some d) : c.Keeps d := by
  unfold LockClientCache.release at hd
  split at hd
  · cases hd
    refine .of_record (l := lid) (fun l hl => info_setInfo_ne c _ hl) rfl ?_
      fun _ _ => .inr (.inl ?_)
    · simp
    · simp
  · cases hd

/-! ## The releaser -/

theorem locked_or_next_of_mem_walked {state : LockId → ClientState} {queue : List LockId}
    {lid : LockId} (h : lid ∈ walked state queue) (it : Nat) :
    state lid = .locked ∨ ∃ i, nextRevoke state it queue = some (i, lid) := by
  induction queue generalizing it with
  | nil => cases h
  | cons l queue ih =>
    unfold walked at h
    unfold nextRevoke
    split at h
    · rename_i hlocked
      rw [if_pos hlocked]
      rcases List.mem_cons.mp h with rfl | h
      · exact .inl hlocked
      · exact ih h (it + 1)
    · rename_i hlocked
      rw [if_neg hlocked, List.mem_singleton.mp h]
      exact .inr ⟨it, rfl⟩

omit [DecidableEq Tid] in
theorem releaserScan_state (c : LockClientCache Tid) (it : Nat) (lid : LockId) :
    ((c.releaserScan it).info lid = c.info lid ∧ ∀ i, c.scanRevoke it ≠ some (i, lid)) ∨
      (((c.releaserScan it).info lid).toBeRevoked = (c.info lid).toBeRevoked ∧
        releaseOf (c.releaserScan it).releaser = some lid) := by
  unfold releaserScan
  cases hscan : c.scanRevoke it with
  | none => exact .inl ⟨rfl, fun _ h => by cases h⟩
  | some next =>
    obtain ⟨i, l⟩ := next
    by_cases hl : lid = l
    · subst hl
      have hflag : ((c.setInfo lid { c.info lid with state := .releasing }).info lid).toBeRevoked =
          (c.info lid).toBeRevoked := by
        rw [info_setInfo_self]
      exact .inr ⟨hflag, rfl⟩
    · refine .inl ⟨info_setInfo_ne c _ hl, fun j h => ?_⟩
      cases h
      exact hl rfl

omit [DecidableEq Tid] in
theorem busy_of_mem_walkedFrom {c : LockClientCache Tid} {it : Nat} {lid : LockId}
    (h : lid ∈ c.walkedFrom it) : (c.releaserScan it).Busy lid := by
  rcases releaserScan_state c it lid with ⟨hsame, hnot⟩ | ⟨-, hrel⟩
  · rcases locked_or_next_of_mem_walked h it with hlocked | ⟨i, hnext⟩
    · exact .inl (by rw [hsame]; exact hlocked)
    · exact absurd hnext (hnot i)
  · exact .inr (.inr hrel)

omit [DecidableEq Tid] in
theorem Keeps.releaserScan {c : LockClientCache Tid} (htop : releaseOf c.releaser = none)
    (it : Nat) : c.Keeps (c.releaserScan it) where
  busy lid h := by
    rcases releaserScan_state c it lid with ⟨hsame, -⟩ | ⟨hflag, hrel⟩
    · rw [hsame] at h
      refine ⟨h, ?_⟩
      rintro (hb | hb | hb)
      · exact .inl (hsame ▸ hb)
      · exact .inr (.inl (hsame ▸ hb))
      · rw [htop] at hb
        cases hb
    · exact ⟨hflag ▸ h, fun _ => .inr (.inr hrel)⟩
  reply _ it' lid ret hd := by
    unfold LockClientCache.releaserScan at hd
    split at hd <;> cases hd

omit [DecidableEq Tid] in
theorem Keeps.afterRelease {c : LockClientCache Tid} {it : Nat} {lid : LockId} {ret : Status}
    (hpc : c.releaser = .replied it lid ret) (hret : ret = .ok) :
    c.Keeps { (c.afterRelease it lid ret).1 with releaser := .top } where
  busy l h := by
    subst hret
    have hset : ({ (c.afterRelease it lid .ok).1 with releaser := .top } :
        LockClientCache Tid).info l =
        (c.setInfo lid { c.info lid with toBeRevoked := false, state := .none }).info l := rfl
    by_cases hl : l = lid
    · rw [hset, hl, info_setInfo_self] at h
      cases h
    · rw [info_setInfo_ne c _ hl] at hset
      rw [hset] at h
      refine ⟨h, ?_⟩
      rintro (hb | hb | hb)
      · exact .inl (hset ▸ hb)
      · exact .inr (.inl (hset ▸ hb))
      · rw [hpc] at hb
        exact absurd (Option.some.inj hb).symm hl
  reply _ it' l ret' hd := by cases hd

theorem Keeps.next {c d : LockClientCache Tid} {a : ClientAction Tid} (h : c.Inv)
    (hreply : c.AcceptedReply) (hd : c.next a = some d) :
    c.Keeps d ∧ ∀ lid ∈ c.processes a, d.Busy lid := by
  have hnone : ∀ lid, lid ∈ ([] : List LockId) → d.Busy lid := fun _ h => absurd h List.not_mem_nil
  cases a with
  | acquire t lid => exact ⟨.acquire hd, hnone⟩
  | wake t => exact ⟨.wake hd, hnone⟩
  | acquireReturn t => exact ⟨.acquireReturn h hd, hnone⟩
  | release t lid => exact ⟨.release hd, hnone⟩
  | releaserStart =>
    change c.releaserStart = some d at hd
    unfold releaserStart at hd
    split at hd
    · rename_i hpc
      split at hd
      · cases hd
      · cases hd
        exact ⟨.releaserScan (by rw [hpc]; rfl) 0, fun _ hl => busy_of_mem_walkedFrom hl⟩
    · cases hd
  | releaseReturn =>
    change c.releaseReturn = some d at hd
    unfold releaseReturn at hd
    split at hd
    · rename_i it lid ret hpc
      cases hd
      have hafter := Keeps.afterRelease hpc (hreply it lid ret hpc)
      have hscan :=
        Keeps.releaserScan (c := { (c.afterRelease it lid ret).1 with releaser := .top }) rfl
          (c.afterRelease it lid ret).2
      rw [releaserScan_atTop] at hscan
      refine ⟨hafter.trans hscan, fun l hl => ?_⟩
      simp only [processes, hpc] at hl
      exact busy_of_mem_walkedFrom hl
    · cases hd

theorem Keeps.acquireServed (c : LockClientCache Tid) (t : Tid) (ret : Status) :
    c.Keeps (c.acquireServed t ret) := by
  unfold LockClientCache.acquireServed
  split
  · exact .of_info (fun _ => rfl) rfl
  · exact .refl c

omit [DecidableEq Tid] in
theorem Keeps.retry (c : LockClientCache Tid) (lid : LockId) : c.Keeps (c.retry lid).2 := by
  unfold LockClientCache.retry
  split
  · exact .refl c
  · rename_i li hfind
    have hli : li = c.info lid := by simp [info, hfind]
    subst hli
    refine .of_record (l := lid) (fun l hl => info_setInfo_ne c _ hl) rfl (by simp) fun _ hb => ?_
    show ((c.setInfo lid _).info lid).state = _ ∨ ((c.setInfo lid _).info lid).state = _ ∨ _
    rw [info_setInfo_self]
    exact hb

omit [DecidableEq Tid] in
theorem revoke_releaser (c : LockClientCache Tid) (lid : LockId) :
    (c.revoke lid).2.releaser = c.releaser := by
  unfold revoke
  dsimp only
  split <;> rfl

omit [DecidableEq Tid] in
theorem revoke_info (c : LockClientCache Tid) (lid l : LockId) :
    (c.revoke lid).2.info l =
      { c.info l with toBeRevoked := decide (l = lid) || (c.info l).toBeRevoked } := by
  have hset : (c.revoke lid).2.info l =
      (c.setInfo lid { c.info lid with toBeRevoked := true }).info l := by
    unfold revoke
    dsimp only
    split <;> rfl
  by_cases hl : l = lid
  · subst hl
    rw [hset, info_setInfo_self, decide_eq_true rfl, Bool.true_or]
  · rw [hset, info_setInfo_ne c _ hl, decide_eq_false hl, Bool.false_or]

omit [DecidableEq Tid] in
theorem Keeps.releaseServed {c : LockClientCache Tid} {it : Nat} {lid : LockId}
    (hpc : c.releaser = .calling it lid) : c.Keeps (c.releaseServed .ok) := by
  have hserved : c.releaseServed .ok = { c with releaser := .replied it lid .ok } := by
    simp only [LockClientCache.releaseServed, hpc]
  rw [hserved]
  refine ⟨fun l h => ⟨h, fun hb => ?_⟩, fun _ it' l ret hd => ?_⟩
  · rw [Busy, hpc] at hb
    exact hb
  · cases hd
    rfl

end LockClientCache

/-! ## The clients and the server -/

/-- `processed c lid` records that `releaser` has come to the revoke that set `to_be_revoked` at
the client.  The code does not have it. -/
structure Revoking (Clt Tid : Type) where
  world : World Clt Tid
  processed : Clt → LockId → Bool

namespace Revoking

variable {Clt Tid : Type}

def start : Revoking Clt Tid := { world := .start, processed := fun _ _ => false }

/-- A client whose revoke has been processed and is not over, and that has no call for the lock
outstanding, owns the lock or has been offered it. -/
def NoneBlocked (s : Revoking Clt Tid) : Prop :=
  ∀ c lid, ((s.world.client c).info lid).toBeRevoked = true → s.processed c lid = true →
    (∀ t, LockClientCache.callOf ((s.world.client c).threads t) ≠ some lid) →
    LockClientCache.releaseOf (s.world.client c).releaser ≠ some lid →
    (s.world.server.locks lid).cltId = some c ∨ (s.world.server.locks lid).retryerSentTo = some c

/-- `releaser` takes no lock that is being acquired, and a release call reaches the server from the
owner of the lock or, while it is free, from the client that it is offered to. -/
def Accepted (s : Revoking Clt Tid) : World.Action Clt Tid → Prop
  | .client c a => (s.world.client c).TakesNoAcquiring a
  | .serveRelease c =>
    match (s.world.client c).releaser with
    | .calling _ lid =>
      LockServerCache.MayRelease (s.world.server.locks lid) c ∧
        ((s.world.server.locks lid).state = .acquired →
          (s.world.server.locks lid).cltId = some c)
    | _ => True
  | _ => True

structure Inv (s : Revoking Clt Tid) : Prop where
  world : s.world.Inv
  reply : ∀ c, (s.world.client c).AcceptedReply
  busy : ∀ c lid, ((s.world.client c).info lid).toBeRevoked = true → s.processed c lid = true →
    (s.world.client c).Busy lid

theorem Inv.noneBlocked {s : Revoking Clt Tid} (h : s.Inv) : s.NoneBlocked := by
  intro c lid hflag hprocessed _ hrelease
  left
  have hown : s.world.server.OwnedBy lid c := by
    refine h.world.owned c lid ?_
    rcases h.busy c lid hflag hprocessed with hst | hst | hrel
    · exact .inl hst
    · exact .inr (.inl hst)
    · exact absurd hrel hrelease
  exact hown.2

theorem start_inv : (start : Revoking Clt Tid).Inv where
  world := World.start_inv
  reply c it lid ret h := by cases h
  busy c lid h := by cases h

theorem Accepted.orderly {s : Revoking Clt Tid} {a : World.Action Clt Tid} (h : s.Accepted a) :
    s.world.Orderly a := by
  cases a with
  | client c a => exact h
  | serveRelease c =>
    simp only [Accepted] at h
    simp only [World.Orderly]
    cases hpc : (s.world.client c).releaser with
    | calling it lid =>
      rw [hpc] at h
      exact h.2
    | top | replied => trivial
  | serveAcquire | retryerStart | serveRetry | retryerReturn | revokerStart | serveRevoke
  | revokerReturn => trivial

theorem Inv.of_server {s t : Revoking Clt Tid} (h : s.Inv) (hworld : t.world.Inv)
    (hclient : t.world.client = s.world.client) (hprocessed : t.processed = s.processed) :
    t.Inv where
  world := hworld
  reply c := hclient ▸ h.reply c
  busy c := by
    rw [hclient, hprocessed]
    exact h.busy c

/-! ## The steps -/

variable [DecidableEq Clt]

instance (s : Revoking Clt Tid) : ∀ a, Decidable (s.Accepted a)
  | .client c a => inferInstanceAs (Decidable ((s.world.client c).TakesNoAcquiring a))
  | .serveRelease c =>
    match h : (s.world.client c).releaser with
    | .calling _ lid =>
      decidable_of_iff (LockServerCache.MayRelease (s.world.server.locks lid) c ∧
        ((s.world.server.locks lid).state = .acquired →
          (s.world.server.locks lid).cltId = some c)) (by simp only [Accepted, h])
    | .top => isTrue (by simp only [Accepted, h])
    | .replied .. => isTrue (by simp only [Accepted, h])
  | .serveAcquire .. | .retryerStart | .serveRetry | .retryerReturn | .revokerStart
  | .serveRevoke | .revokerReturn => isTrue trivial

/-- The revokes that have been processed after a step. -/
def mark (s : Revoking Clt Tid) : World.Action Clt Tid → Clt → LockId → Bool
  | .client c a, e, lid =>
    decide (e = c ∧ lid ∈ (s.world.client c).processes a) || s.processed e lid
  | .serveRevoke, e, lid =>
    match s.world.server.revoker with
    | .calling _ l c =>
      -- A revoke that sets the flag has not been processed.
      if e = c ∧ lid = l ∧ ((s.world.client c).info l).toBeRevoked = false then false
      else s.processed e lid
    | .top => s.processed e lid
  | _, e, lid => s.processed e lid

theorem Inv.of_client {s t : Revoking Clt Tid} (h : s.Inv) (hworld : t.world.Inv) {c : Clt}
    {d : LockClientCache Tid} (hclient : t.world.client = Function.update s.world.client c d)
    (hkeeps : (s.world.client c).Keeps d)
    (hprocessed : ∀ e lid, t.processed e lid = true →
      s.processed e lid = true ∨ (e = c ∧ d.Busy lid)) : t.Inv where
  world := hworld
  reply e := by
    by_cases he : e = c
    · subst he
      rw [hclient, Function.update_self]
      exact hkeeps.reply (h.reply e)
    · rw [hclient, Function.update_of_ne he]
      exact h.reply e
  busy e lid := by
    by_cases he : e = c
    · subst he
      rw [hclient, Function.update_self]
      intro hflag hp
      obtain ⟨hold, hbusy⟩ := hkeeps.busy lid hflag
      rcases hprocessed e lid hp with hp | ⟨-, hb⟩
      · exact hbusy (h.busy e lid hold hp)
      · exact hb
    · rw [hclient, Function.update_of_ne he]
      intro hflag hp
      exact h.busy e lid hflag ((hprocessed e lid hp).resolve_right fun hc => he hc.1)

/-- A revoke reaches a client.  If it sets the flag, it has not been processed. -/
theorem Inv.serveRevoke {s t : Revoking Clt Tid} (h : s.Inv) (hworld : t.world.Inv) {c : Clt}
    {l : LockId}
    (hclient : t.world.client = Function.update s.world.client c ((s.world.client c).revoke l).2)
    (hprocessed : ∀ e lid, t.processed e lid =
      if e = c ∧ lid = l ∧ ((s.world.client c).info l).toBeRevoked = false then false
      else s.processed e lid) : t.Inv := by
  refine ⟨hworld, fun e => ?_, fun e lid => ?_⟩
  · by_cases he : e = c
    · subst he
      rw [hclient, Function.update_self, LockClientCache.AcceptedReply,
        LockClientCache.revoke_releaser]
      exact h.reply e
    · rw [hclient, Function.update_of_ne he]
      exact h.reply e
  · rw [hprocessed]
    by_cases he : e = c
    · subst he
      rw [hclient, Function.update_self, LockClientCache.Busy, LockClientCache.revoke_releaser,
        LockClientCache.revoke_info]
      intro hflag hp
      split at hp
      · cases hp
      · rename_i hnew
        refine h.busy e lid ?_ hp
        by_cases hl : lid = l
        · subst hl
          by_contra hoff
          exact hnew ⟨rfl, rfl, Bool.eq_false_iff.mpr hoff⟩
        · simpa [hl] using hflag
    · rw [hclient, Function.update_of_ne he, if_neg fun hc => he hc.1]
      exact h.busy e lid

variable [DecidableEq Tid]

def step (s : Revoking Clt Tid) (a : World.Action Clt Tid) : Option (Revoking Clt Tid) :=
  (s.world.step a).map fun w => { world := w, processed := s.mark a }

def system : System (Revoking Clt Tid) (World.Action Clt Tid) where
  init s := s = start
  step := step

/-- The release call of a client that may make it is answered with `OK`. -/
theorem release_ok {server : LockServerCache Clt} {c : Clt} {lid : LockId}
    (h : LockServerCache.MayRelease (server.locks lid) c) : (server.release c lid).1 = .ok := by
  simp [LockServerCache.release, h]

theorem Inv.step {s t : Revoking Clt Tid} {a : World.Action Clt Tid} (h : s.Inv)
    (hok : s.Accepted a) (ht : system.step s a = some t) : t.Inv := by
  obtain ⟨w, hw, rfl⟩ := Option.map_eq_some_iff.mp ht
  have hworld : w.Inv := h.world.step hok.orderly hw
  -- Only steps of `releaser` process revokes.
  have hsame : ∀ {c : Clt} {d : LockClientCache Tid} (e : Clt) (lid : LockId),
      s.processed e lid = true → s.processed e lid = true ∨ (e = c ∧ d.Busy lid) :=
    fun _ _ hp => .inl hp
  cases a with
  | client c a =>
    obtain ⟨d, hd, rfl⟩ := Option.map_eq_some_iff.mp hw
    obtain ⟨hkeeps, hbusy⟩ := LockClientCache.Keeps.next (h.world.clients c) (h.reply c) hd
    refine h.of_client hworld rfl hkeeps fun e lid hp => ?_
    rcases Bool.or_eq_true _ _ ▸ hp with hp | hp
    · obtain ⟨he, hl⟩ := of_decide_eq_true hp
      exact .inr ⟨he, hbusy lid hl⟩
    · exact .inl hp
  | serveAcquire c t =>
    simp only [World.step] at hw
    split at hw
    · cases hw
      exact h.of_client hworld rfl (.acquireServed _ t _) hsame
    · cases hw
  | serveRelease c =>
    simp only [World.step] at hw
    split at hw
    · rename_i it lid hpc
      cases hw
      simp only [Accepted, hpc] at hok
      have hkeeps := LockClientCache.Keeps.releaseServed hpc
      rw [← release_ok hok.1] at hkeeps
      exact h.of_client hworld rfl hkeeps hsame
    · cases hw
  | serveRetry =>
    simp only [World.step] at hw
    split at hw
    · rename_i it lid c hpc hreply
      cases hw
      exact h.of_client hworld rfl (.retry _ lid) hsame
    · cases hw
  | serveRevoke =>
    simp only [World.step] at hw
    split at hw
    · rename_i it lid c hpc hreply
      cases hw
      refine h.serveRevoke hworld rfl fun e l => ?_
      simp only [mark, hpc]
    · cases hw
  | retryerStart | revokerStart =>
    obtain ⟨server, -, rfl⟩ := Option.map_eq_some_iff.mp hw
    exact h.of_server hworld rfl rfl
  | retryerReturn | revokerReturn =>
    simp only [World.step] at hw
    split at hw
    · obtain ⟨server, -, rfl⟩ := Option.map_eq_some_iff.mp hw
      exact h.of_server hworld rfl rfl
    · cases hw

/-- In every state of a run in which `releaser` takes no lock that is being acquired and every
release call comes from a client that owns the lock or that it is offered to, no late revoke blocks
a client. -/
theorem late_revoke_blocks_none {s : Revoking Clt Tid} (h : system.ReachableWhile Accepted s) :
    s.NoneBlocked := by
  have hinv : s.Inv := by
    refine h.invariant (fun r hr => ?_) fun r a t hr hok ht => hr.step hok ht
    cases hr
    exact start_inv
  exact hinv.noneBlocked

/-- The revoke of an owner whose lock is in use is passed over by `releaser`. -/
def passedOver : List (World.Action String Unit) :=
  [.client "a" (.acquire () 1), .serveAcquire "a" (), .client "a" (.acquireReturn ()),
    .client "b" (.acquire () 1), .serveAcquire "b" (), .client "b" (.acquireReturn ()),
    .revokerStart, .serveRevoke, .revokerReturn, .client "a" .releaserStart]

theorem late_revoke_blocks_none_passedOver :
    ∃ s : Revoking String Unit, system.ReachableWhile Accepted s ∧ s.processed "a" 1 = true ∧
      ((s.world.client "a").info 1).toBeRevoked = true ∧ s.NoneBlocked := by
  have hreach : system.ReachableWhile Accepted (system.final start passedOver) :=
    System.ReachableWhile.final passedOver (.init rfl) (by decide +kernel) (by decide +kernel)
  exact ⟨_, hreach, by decide +kernel, by decide +kernel, late_revoke_blocks_none hreach⟩

/-- A third client asks while the lock is with the first, so a second revoke is queued.  It is sent
when the first client has given the lock back. -/
def lateRevoke : List (World.Action String Unit) :=
  passedOver ++
    [.client "c" (.acquire () 1), .serveAcquire "c" (), .client "c" (.acquireReturn ()),
      .client "a" (.release () 1), .client "a" .releaserStart, .serveRelease "a",
      .client "a" .releaseReturn, .revokerStart, .serveRevoke, .revokerReturn,
      .client "a" .releaserStart, .serveRelease "a", .client "a" .releaseReturn]

theorem lateRevoke_blocks :
    ∃ s : Revoking String Unit, system.Reachable s ∧
      ((s.world.client "a").info 1).state = .releasing ∧ ¬ s.NoneBlocked := by
  have hreach : system.Reachable (system.final start lateRevoke) :=
    System.Reachable.final lateRevoke (.init rfl) (by decide +kernel)
  have hcall : LockClientCache.callOf
      (((system.final start lateRevoke).world.client "a").threads ()) ≠ some 1 := by
    decide +kernel
  refine ⟨_, hreach, by decide +kernel, fun h => ?_⟩
  exact absurd (h "a" 1 (by decide +kernel) (by decide +kernel) (fun _ => hcall)
    (by decide +kernel)) (by decide +kernel)

end Revoking
end Lock
end Frangipani
