/-
What one client does with one lock.

At any time at most one party of a client is busy with a lock: a thread whose
acquire call is outstanding, a thread that holds the lock, or `releaser` with its
release call.  The state of the record says which.  A step keeps this as long as
`releaser` does not take a lock that is being acquired.

A client has the right to a lock while its record is `LOCKED` or `FREE`, and from
the moment the server has granted it.  No step of the client alone gives it a
right that it did not have.
-/
import Frangipani.Lock.Client

namespace Frangipani
namespace Lock
namespace LockClientCache

variable {Tid : Type} [DecidableEq Tid]
variable {c d : LockClientCache Tid} {lid : LockId}

/-! ## What a client is doing with a lock -/

/-- The lock a thread has an acquire call outstanding for. -/
def callOf : AcquirePc → Option LockId
  | .calling lid => some lid
  | .replied lid _ => some lid
  | _ => none

/-- The lock `releaser` has a release call outstanding for. -/
def releaseOf : ReleaserPc → Option LockId
  | .calling _ lid => some lid
  | .replied _ lid _ => some lid
  | .top => none

/-- At most one party of a client is busy with a lock: a thread that asks the
server for it, a thread that holds it, or `releaser`. -/
inductive Phase (Tid : Type)
  | quiet
  | calling (t : Tid)
  | held (t : Tid)
  | releasing

/-- The states a record may have in a phase. -/
def Phase.Fits : Phase Tid → ClientState → Prop
  | .quiet, st => st ≠ .locked
  | .calling _, st => st = .acquiring
  | .held _, st => st = .locked
  | .releasing, st => st = .releasing

/-- The client is in phase `p` with the lock. -/
structure At (c : LockClientCache Tid) (lid : LockId) (p : Phase Tid) : Prop where
  call : ∀ t, callOf (c.threads t) = some lid ↔ p = .calling t
  hold : ∀ t, c.holds t lid = true ↔ p = .held t
  release : releaseOf c.releaser = some lid ↔ p = .releasing
  state : p.Fits (c.info lid).state

def Inv (c : LockClientCache Tid) : Prop := ∀ lid, ∃ p, c.At lid p

/-- The client has the right to the lock: it has it, or the reply that gives it
is on the way. -/
def Entitled (c : LockClientCache Tid) (lid : LockId) : Prop :=
  (c.info lid).state = .locked ∨ (c.info lid).state = .free ∨
    ∃ t, c.threads t = .replied lid .ok

omit [DecidableEq Tid] in
@[simp] theorem info_setInfo_self (c : LockClientCache Tid) (lid : LockId) (li : ClientInfo Tid) :
    (c.setInfo lid li).info lid = li := by
  simp [info, setInfo]

omit [DecidableEq Tid] in
@[simp] theorem setInfo_threads (c : LockClientCache Tid) (lid : LockId) (li : ClientInfo Tid) :
    (c.setInfo lid li).threads = c.threads := rfl

@[simp] theorem setThread_threads (c : LockClientCache Tid) (t : Tid) (pc : AcquirePc) :
    (c.setThread t pc).threads = Function.update c.threads t pc := rfl

theorem setThread_setThread (c : LockClientCache Tid) (t : Tid) (pc pc' : AcquirePc) :
    (c.setThread t pc).setThread t pc' = c.setThread t pc' := by
  simp [setThread]

@[simp] theorem setThread_info (c : LockClientCache Tid) (t : Tid) (pc : AcquirePc)
    (lid : LockId) : (c.setThread t pc).info lid = c.info lid := rfl

omit [DecidableEq Tid] in
@[simp] theorem setInfo_holds (c : LockClientCache Tid) (lid : LockId) (li : ClientInfo Tid) :
    (c.setInfo lid li).holds = c.holds := rfl

@[simp] theorem setThread_holds (c : LockClientCache Tid) (t : Tid) (pc : AcquirePc) :
    (c.setThread t pc).holds = c.holds := rfl

@[simp] theorem setHolds_threads (c : LockClientCache Tid) (t : Tid) (lid : LockId) (b : Bool) :
    (c.setHolds t lid b).threads = c.threads := rfl

@[simp] theorem setHolds_info (c : LockClientCache Tid) (t : Tid) (lid l : LockId) (b : Bool) :
    (c.setHolds t lid b).info l = c.info l := rfl

theorem setHolds_holds (c : LockClientCache Tid) (t u : Tid) (lid l : LockId) (b : Bool) :
    (c.setHolds t lid b).holds u l = if u = t ∧ l = lid then b else c.holds u l := by
  by_cases hu : u = t
  · subst hu
    by_cases hl : l = lid
    · simp [setHolds, hl]
    · simp [setHolds, hl]
  · simp [setHolds, hu]

omit [DecidableEq Tid] in
theorem info_setInfo_ne (c : LockClientCache Tid) {lid lid' : LockId} (li : ClientInfo Tid)
    (h : lid' ≠ lid) : (c.setInfo lid li).info lid' = c.info lid' := by
  simp [info, setInfo, h]

omit [DecidableEq Tid] in
theorem new_inv : (new : LockClientCache Tid).Inv := by
  intro lid
  refine ⟨.quiet, ?_, ?_, ?_, ?_⟩ <;> simp [new, callOf, releaseOf, Phase.Fits, info]

omit [DecidableEq Tid] in
theorem At.frame {p : Phase Tid} (h : c.At lid p)
    (hcall : ∀ t, callOf (d.threads t) = some lid ↔ callOf (c.threads t) = some lid)
    (hhold : ∀ t, d.holds t lid = c.holds t lid)
    (hrelease : releaseOf d.releaser = some lid ↔ releaseOf c.releaser = some lid)
    (hstate : (d.info lid).state = (c.info lid).state) : d.At lid p where
  call := fun t => (hcall t).trans (h.call t)
  hold := fun t => by rw [hhold t, h.hold t]
  release := hrelease.trans h.release
  state := hstate ▸ h.state

omit [DecidableEq Tid] in
/-- The phase of a lock that is not being acquired, held or released. -/
theorem At.eq_quiet {p : Phase Tid} (h : c.At lid p) (hlocked : (c.info lid).state ≠ .locked)
    (hacquiring : (c.info lid).state ≠ .acquiring) (hrelease : releaseOf c.releaser ≠ some lid) :
    p = .quiet := by
  cases p with
  | quiet => rfl
  | calling t => exact absurd h.state hacquiring
  | held t => exact absurd h.state hlocked
  | releasing => exact absurd (h.release.mpr rfl) hrelease

/-- A step keeps the invariant and gives the client no new right to a lock. -/
structure Sound (c d : LockClientCache Tid) : Prop where
  inv : d.Inv
  right : ∀ lid, d.Entitled lid → c.Entitled lid

omit [DecidableEq Tid] in
theorem Sound.trans {c d e : LockClientCache Tid} (hcd : c.Sound d) (hde : d.Sound e) :
    c.Sound e where
  inv := hde.inv
  right := fun lid h => hcd.right lid (hde.right lid h)

omit [DecidableEq Tid] in
/-- A step that moves no thread in or out of a call, and no record to another
state, is sound. -/
theorem Sound.of_frame (h : c.Inv) (hcall : ∀ t, callOf (d.threads t) = callOf (c.threads t))
    (hreply : ∀ t lid, d.threads t = .replied lid .ok → c.threads t = .replied lid .ok)
    (hhold : d.holds = c.holds) (hrelease : releaseOf d.releaser = releaseOf c.releaser)
    (hstate : ∀ lid, (d.info lid).state = (c.info lid).state) : c.Sound d where
  inv := by
    intro lid
    obtain ⟨p, hp⟩ := h lid
    exact ⟨p, hp.frame (fun t => by rw [hcall t]) (fun t => by rw [hhold])
      (by rw [hrelease]) (hstate lid)⟩
  right := by
    intro lid hd
    rw [Entitled, hstate lid] at hd
    rcases hd with hd | hd | ⟨t, ht⟩
    · exact Or.inl hd
    · exact Or.inr (Or.inl hd)
    · exact Or.inr (Or.inr ⟨t, hreply t lid ht⟩)

omit [DecidableEq Tid] in
theorem Sound.setInfo (h : c.Inv) {li : ClientInfo Tid} (hli : li.state = (c.info lid).state) :
    c.Sound (c.setInfo lid li) := by
  refine .of_frame h (fun _ => rfl) (fun _ _ h => h) rfl rfl fun l => ?_
  by_cases hl : l = lid
  · subst hl
    rw [info_setInfo_self, hli]
  · rw [info_setInfo_ne _ _ hl]

theorem Sound.park (h : c.Inv) {t : Tid} {pc : AcquirePc} (ht : callOf (c.threads t) = none)
    (hpc : callOf pc = none) : c.Sound (c.setThread t pc) := by
  refine .of_frame h (fun u => ?_) (fun u lid hu => ?_) rfl rfl fun _ => rfl
  · by_cases hu : u = t
    · subst hu
      simp [ht, hpc]
    · simp [hu]
  · by_cases hut : u = t
    · subst hut
      simp only [setThread_threads, Function.update_self] at hu
      rw [hu] at hpc
      cases hpc
    · simpa [hut] using hu

/-! ## Steps that change the phase of one lock -/

/-- Nothing that a phase or a right depends on changes at other locks. -/
structure SameElsewhere (c d : LockClientCache Tid) (l : LockId) : Prop where
  call : ∀ lid, lid ≠ l → ∀ t, callOf (d.threads t) = some lid ↔ callOf (c.threads t) = some lid
  reply : ∀ lid, lid ≠ l → ∀ t, d.threads t = .replied lid .ok → c.threads t = .replied lid .ok
  hold : ∀ lid, lid ≠ l → ∀ t, d.holds t lid = c.holds t lid
  release : ∀ lid, lid ≠ l → (releaseOf d.releaser = some lid ↔ releaseOf c.releaser = some lid)
  state : ∀ lid, lid ≠ l → (d.info lid).state = (c.info lid).state

omit [DecidableEq Tid] in
theorem Sound.of_change (h : c.Inv) {l : LockId} {q : Phase Tid} (hsame : c.SameElsewhere d l)
    (hq : d.At l q) (hright : d.Entitled l → c.Entitled l) :
    c.Sound d where
  inv := by
    intro lid
    by_cases hl : lid = l
    · subst hl
      exact ⟨q, hq⟩
    · obtain ⟨p, hp⟩ := h lid
      exact ⟨p, hp.frame (hsame.call lid hl) (hsame.hold lid hl) (hsame.release lid hl)
        (hsame.state lid hl)⟩
  right := by
    intro lid hd
    by_cases hl : lid = l
    · subst hl
      exact hright hd
    · rw [Entitled, hsame.state lid hl] at hd
      rcases hd with hd | hd | ⟨t, ht⟩
      · exact Or.inl hd
      · exact Or.inr (Or.inl hd)
      · exact Or.inr (Or.inr ⟨t, hsame.reply lid hl t ht⟩)

/-- A thread moves between program counters that concern `l` or no lock. -/
theorem callOf_update {threads : Tid → AcquirePc} {t : Tid} {pc : AcquirePc} {l lid : LockId}
    (hne : lid ≠ l) (hold : callOf (threads t) = none ∨ callOf (threads t) = some l)
    (hnew : callOf pc = none ∨ callOf pc = some l) (u : Tid) :
    callOf (Function.update threads t pc u) = some lid ↔ callOf (threads u) = some lid := by
  by_cases hu : u = t
  · subst hu
    rw [Function.update_self]
    have hnot : ∀ o : Option LockId, o = none ∨ o = some l → o ≠ some lid := by
      intro o ho ho'
      rcases ho with ho | ho
      · rw [ho] at ho'
        cases ho'
      · rw [ho] at ho'
        exact hne (Option.some.inj ho').symm
    exact ⟨fun h => absurd h (hnot _ hnew), fun h => absurd h (hnot _ hold)⟩
  · rw [Function.update_of_ne hu]

theorem reply_update {threads : Tid → AcquirePc} {t : Tid} {pc : AcquirePc} {l lid : LockId}
    (hne : lid ≠ l) (hnew : callOf pc = none ∨ callOf pc = some l) {u : Tid}
    (h : Function.update threads t pc u = .replied lid .ok) : threads u = .replied lid .ok := by
  by_cases hu : u = t
  · subst hu
    rw [Function.update_self] at h
    rw [h] at hnew
    rcases hnew with hnew | hnew
    · cases hnew
    · exact absurd (Option.some.inj hnew) hne
  · rwa [Function.update_of_ne hu] at h

theorem SameElsewhere.of_thread {l : LockId} {t : Tid} {pc : AcquirePc}
    (hthreads : d.threads = Function.update c.threads t pc)
    (hold : callOf (c.threads t) = none ∨ callOf (c.threads t) = some l)
    (hnew : callOf pc = none ∨ callOf pc = some l)
    (hstate : ∀ lid, lid ≠ l → (d.info lid).state = (c.info lid).state)
    (hholds : ∀ lid, lid ≠ l → ∀ u, d.holds u lid = c.holds u lid)
    (hreleaser : d.releaser = c.releaser) : c.SameElsewhere d l where
  call := fun lid hne u => by rw [hthreads]; exact callOf_update hne hold hnew u
  reply := fun lid hne u hu => reply_update hne hnew (hthreads ▸ hu)
  hold := hholds
  release := fun _ _ => by rw [hreleaser]
  state := hstate

omit [DecidableEq Tid] in
theorem At.eq_quiet_of_state {p : Phase Tid} (h : c.At lid p)
    (hstate : (c.info lid).state = .none ∨ (c.info lid).state = .free) :
    p = .quiet := by
  have hfits := h.state
  cases p with
  | quiet => rfl
  | calling t | held t | releasing =>
    simp only [Phase.Fits] at hfits
    rw [hfits] at hstate
    simp at hstate

/-- A thread in no call finds the record `NONE` and asks the server. -/
theorem Sound.startCall (h : c.Inv) {t : Tid} (ht : callOf (c.threads t) = none)
    (hstate : (c.info lid).state = .none) :
    c.Sound ((c.setInfo lid { c.info lid with
      state := .acquiring, retryReceived := false }).setThread t (.calling lid)) := by
  obtain ⟨p, hp⟩ := h lid
  obtain rfl := hp.eq_quiet_of_state (.inl hstate)
  have hsame : c.SameElsewhere ((c.setInfo lid { c.info lid with
      state := .acquiring, retryReceived := false }).setThread t (.calling lid)) lid :=
    .of_thread rfl (.inl ht) (.inr rfl)
      (fun l hl => congrArg ClientInfo.state (info_setInfo_ne c _ hl)) (fun _ _ _ => rfl) rfl
  refine .of_change h hsame (q := .calling t) ⟨fun u => ?_, fun u => ?_, ?_, ?_⟩ ?_
  · by_cases hu : u = t
    · subst hu
      simp [callOf]
    · simp [hu, Ne.symm hu, hp.call u]
  · exact (hp.hold u).trans (by simp)
  · exact hp.release.trans (by simp)
  · simp [Phase.Fits]
  · intro hd
    rcases hd with hd | hd | ⟨u, hu⟩
    · simp at hd
    · simp at hd
    · by_cases hut : u = t
      · subst hut
        simp at hu
      · exact Or.inr (Or.inr ⟨u, by simpa [hut] using hu⟩)

/-- `acquire` returns to a thread that took a `FREE` record, or whose call for
the lock was answered. -/
theorem Sound.returnOk (h : c.Inv) {t : Tid} (hright : c.Entitled lid)
    (hp : c.At lid .quiet ∧ callOf (c.threads t) = none ∨ c.At lid (.calling t)) :
    c.Sound (c.returnOk t lid) := by
  have ht : callOf (c.threads t) = none ∨ callOf (c.threads t) = some lid := by
    rcases hp with hp | hp
    · exact Or.inl hp.2
    · exact Or.inr ((hp.call t).mpr rfl)
  -- In both cases nobody else is busy with the lock.
  have hcall : ∀ u, u ≠ t → callOf (c.threads u) ≠ some lid := by
    intro u hu hc
    rcases hp with hp | hp
    · cases (hp.1.call u).mp hc
    · cases (hp.call u).mp hc
      exact hu rfl
  have hhold : ∀ u, c.holds u lid ≠ true := by
    intro u hc
    rcases hp with hp | hp
    · cases (hp.1.hold u).mp hc
    · cases (hp.hold u).mp hc
  have hrelease : releaseOf c.releaser ≠ some lid := by
    intro hc
    rcases hp with hp | hp
    · cases hp.1.release.mp hc
    · cases hp.release.mp hc
  have hsame : c.SameElsewhere (c.returnOk t lid) lid :=
    .of_thread rfl ht (.inl rfl)
      (fun l hl => congrArg ClientInfo.state (info_setInfo_ne c _ hl))
      (fun l hl u => (setHolds_holds ..).trans (if_neg fun hc => hl hc.2)) rfl
  refine .of_change h hsame (q := .held t) ⟨fun u => ?_, fun u => ?_, ?_, ?_⟩ (fun _ => hright)
  · by_cases hu : u = t
    · subst hu
      simp [LockClientCache.returnOk, callOf]
    · simp [LockClientCache.returnOk, hu, hcall u hu]
  · by_cases hu : u = t
    · subst hu
      simp [LockClientCache.returnOk, setHolds_holds]
    · simp [LockClientCache.returnOk, setHolds_holds, hu, Ne.symm hu, hhold u]
  · exact ⟨fun hc => absurd hc hrelease, fun hc => by cases hc⟩
  · simp [LockClientCache.returnOk, Phase.Fits]

theorem Sound.leaveCall (h : c.Inv) {t : Tid} {pc : AcquirePc} (hp : c.At lid (.calling t))
    (hpc : callOf pc = none) (hthreads : d.threads = Function.update c.threads t pc)
    (hholds : d.holds = c.holds) (hreleaser : d.releaser = c.releaser)
    (hother : ∀ l, l ≠ lid → (d.info l).state = (c.info l).state)
    (hlocked : (d.info lid).state ≠ .locked) (hfree : (d.info lid).state ≠ .free) :
    c.Sound d := by
  have hcall : ∀ u, callOf (d.threads u) ≠ some lid := by
    intro u hu
    rw [hthreads] at hu
    by_cases hut : u = t
    · subst hut
      rw [Function.update_self, hpc] at hu
      cases hu
    · rw [Function.update_of_ne hut] at hu
      cases (hp.call u).mp hu
      exact hut rfl
  have hsame : c.SameElsewhere d lid :=
    .of_thread hthreads (.inr ((hp.call t).mpr rfl)) (.inl hpc) hother
      (fun _ _ _ => by rw [hholds]) hreleaser
  refine .of_change h hsame (q := .quiet) ⟨fun u => ?_, fun u => ?_, ?_, hlocked⟩ ?_
  · simp [hcall u]
  · rw [hholds, hp.hold u]
    simp
  · rw [hreleaser, hp.release]
    simp
  · intro hd
    rcases hd with hd | hd | ⟨u, hu⟩
    · exact absurd hd hlocked
    · exact absurd hd hfree
    · exact absurd (by rw [hu]; rfl) (hcall u)

theorem Sound.acquireLoop (h : c.Inv) {t : Tid} (lid : LockId) (ht : callOf (c.threads t) = none) :
    c.Sound (c.acquireLoop t lid) := by
  have hpark : c.Sound (c.setThread t (.waiting lid)) := .park h ht rfl
  unfold LockClientCache.acquireLoop
  dsimp only
  split
  · exact hpark
  · split
    · exact hpark
    · split
      · rename_i hstate
        exact .startCall h ht hstate
      · rename_i hstate
        obtain ⟨p, hp⟩ := h lid
        obtain rfl := hp.eq_quiet_of_state (.inr hstate)
        exact .returnOk h (.inr (.inl hstate)) (.inl ⟨hp, ht⟩)
      · exact hpark

theorem Sound.retryLoop (h : c.Inv) {t : Tid} (lid : LockId) (ht : callOf (c.threads t) = none) :
    c.Sound (c.retryLoop t lid) := by
  unfold LockClientCache.retryLoop
  split
  · exact .acquireLoop h lid ht
  · exact ⟨h, fun _ hd => hd⟩

omit [DecidableEq Tid] in
theorem Inv.at_calling (h : c.Inv) {t : Tid} (ht : callOf (c.threads t) = some lid) :
    c.At lid (.calling t) := by
  obtain ⟨p, hp⟩ := h lid
  obtain rfl := (hp.call t).mp ht
  exact hp

theorem Sound.acquire {t : Tid} (h : c.Inv) (hd : c.acquire t lid = some d) : c.Sound d := by
  unfold LockClientCache.acquire at hd
  split at hd
  · rename_i hpc
    cases hd
    have henter : c.Sound (c.setInfo lid { c.info lid with
        waitingThreads := if t ∈ (c.info lid).waitingThreads then (c.info lid).waitingThreads
          else (c.info lid).waitingThreads ++ [t] }) := .setInfo h rfl
    refine henter.trans (.acquireLoop henter.inv lid ?_)
    rw [setInfo_threads, hpc]
    rfl
  · cases hd

theorem Sound.wake {t : Tid} (h : c.Inv) (hd : c.wake t = some d) :
    c.Sound d := by
  unfold LockClientCache.wake at hd
  split at hd
  · rename_i lid hpc
    cases hd
    exact .acquireLoop h lid (by rw [hpc]; rfl)
  · rename_i lid hpc
    cases hd
    exact .retryLoop h lid (by rw [hpc]; rfl)
  · cases hd

theorem Sound.acquireReturn {t : Tid} (h : c.Inv) (hd : c.acquireReturn t = some d) :
    c.Sound d := by
  unfold LockClientCache.acquireReturn at hd
  split at hd
  · rename_i lid hpc
    cases hd
    exact .returnOk h (.inr (.inr ⟨t, hpc⟩)) (.inr (h.at_calling (by rw [hpc]; rfl)))
  · rename_i lid hpc
    cases hd
    have hleave : c.Sound ((c.setInfo lid { c.info lid with state := .none }).setThread t
        (.retryWait lid)) :=
      .leaveCall h (h.at_calling (by rw [hpc]; rfl)) rfl rfl rfl rfl
        (fun l hl => congrArg ClientInfo.state (info_setInfo_ne c _ hl)) (by simp) (by simp)
    refine hleave.trans (.retryLoop hleave.inv lid ?_)
    simp [callOf]
  · rename_i lid ret hok hretry hpc
    cases hd
    have hp : c.At lid (.calling t) := h.at_calling (by rw [hpc]; rfl)
    have hstate : (c.info lid).state = .acquiring := hp.state
    have hleave : c.Sound (c.setThread t (.waiting lid)) :=
      .leaveCall h hp rfl rfl rfl rfl (fun _ _ => rfl) (by simp [hstate]) (by simp [hstate])
    refine hleave.trans (.acquireLoop hleave.inv lid ?_)
    simp [callOf]
  · cases hd

theorem Sound.release {t : Tid} (h : c.Inv) (hd : c.release t lid = some d) : c.Sound d := by
  unfold LockClientCache.release at hd
  split at hd
  · rename_i hpre
    obtain ⟨hidle, hholds⟩ := hpre
    cases hd
    obtain ⟨p, hp⟩ := h lid
    obtain rfl := (hp.hold t).mp hholds
    have hlocked : (c.info lid).state = .locked := hp.state
    have hsame : c.SameElsewhere ((c.setInfo lid { c.info lid with
        state := .free, waitingThreads := (c.info lid).waitingThreads.filter (· ≠ t) }).setHolds
          t lid false) lid :=
      ⟨fun _ _ _ => .rfl, fun _ _ _ hu => hu,
        fun l hl u => (setHolds_holds ..).trans (if_neg fun hc => hl hc.2), fun _ _ => .rfl,
        fun l hl => congrArg ClientInfo.state (info_setInfo_ne c _ hl)⟩
    refine .of_change h hsame (q := .quiet) ⟨fun u => ?_, fun u => ?_, ?_, ?_⟩
      (fun _ => .inl hlocked)
    · exact (hp.call u).trans (by simp)
    · by_cases hu : u = t
      · subst hu
        simp [setHolds_holds]
      · simp [setHolds_holds, hu, hp.hold u, Ne.symm hu]
    · exact hp.release.trans (by simp)
    · simp [Phase.Fits]
  · cases hd

/-! ## The releaser -/

/-- What `releaser` takes is not `LOCKED`. -/
theorem nextRevoke_spec {state : LockId → ClientState} {queue : List LockId} :
    ∀ {it i : Nat} {lid : LockId}, nextRevoke state it queue = some (i, lid) →
      state lid ≠ .locked := by
  induction queue with
  | nil =>
    intro it i lid h
    cases h
  | cons l queue ih =>
    intro it i lid h
    unfold nextRevoke at h
    split at h
    · exact ih h
    · rename_i hstate
      cases h
      exact hstate

omit [DecidableEq Tid] in
/-- `releaser` takes a lock whose record is not `ACQUIRING`. -/
theorem Sound.releaserScan (h : c.Inv) (it : Nat) (htop : releaseOf c.releaser = none)
    (htaken : ∀ i lid, c.scanRevoke it = some (i, lid) → (c.info lid).state ≠ .acquiring) :
    c.Sound (c.releaserScan it) := by
  unfold LockClientCache.releaserScan
  split
  · rename_i i lid hscan
    obtain ⟨p, hp⟩ := h lid
    obtain rfl := hp.eq_quiet (nextRevoke_spec hscan) (htaken i lid hscan) (by simp [htop])
    have hsame : c.SameElsewhere { c.setInfo lid { c.info lid with state := .releasing } with
        releaser := .calling i lid } lid :=
      ⟨fun _ _ _ => .rfl, fun _ _ _ hu => hu, fun _ _ _ => rfl,
        fun l hl => by rw [htop]; simp [releaseOf, Ne.symm hl],
        fun l hl => congrArg ClientInfo.state (info_setInfo_ne c _ hl)⟩
    refine .of_change h hsame (q := .releasing) ⟨fun u => ?_, fun u => ?_, ?_, ?_⟩ ?_
    · exact (hp.call u).trans (by simp)
    · exact (hp.hold u).trans (by simp)
    · simp [releaseOf]
    · exact congrArg ClientInfo.state (info_setInfo_self c lid _)
    · intro hd
      have hstate : (({ c.setInfo lid { c.info lid with state := .releasing } with
          releaser := .calling i lid } : LockClientCache Tid).info lid).state = .releasing :=
        congrArg ClientInfo.state (info_setInfo_self c lid _)
      rw [Entitled, hstate] at hd
      rcases hd with hd | hd | ⟨u, hu⟩
      · cases hd
      · cases hd
      · exact Or.inr (Or.inr ⟨u, hu⟩)
  · exact .of_frame h (fun _ => rfl) (fun _ _ hu => hu) rfl (by rw [htop]; rfl) fun _ => rfl

omit [DecidableEq Tid] in
theorem releaserStart_sound (h : c.Inv)
    (htaken : ∀ i lid, c.scanRevoke 0 = some (i, lid) → (c.info lid).state ≠ .acquiring)
    (hd : c.releaserStart = some d) : c.Sound d := by
  unfold releaserStart at hd
  split at hd
  · rename_i hpc
    split at hd
    · cases hd
    · cases hd
      exact .releaserScan h 0 (by rw [hpc]; rfl) htaken
  · cases hd

omit [DecidableEq Tid] in
/-- The release call has returned, and `releaser` has not yet gone on. -/
theorem Sound.afterRelease (h : c.Inv) {it : Nat} {ret : Status}
    (hpc : c.releaser = .replied it lid ret) :
    c.Sound { (c.afterRelease it lid ret).1 with releaser := .top } := by
  obtain ⟨p, hp⟩ := h lid
  obtain rfl := hp.release.mp (by rw [hpc]; rfl)
  have hreleasing : (c.info lid).state = .releasing := hp.state
  have hrelease : ∀ l, l ≠ lid → (releaseOf .top = some l ↔ releaseOf c.releaser = some l) := by
    intro l hl
    rw [hpc]
    simp [releaseOf, Ne.symm hl]
  unfold LockClientCache.afterRelease
  split
  · refine .of_change h (q := .quiet) ⟨fun _ _ _ => .rfl, fun _ _ _ hu => hu, fun _ _ _ => rfl,
      hrelease, fun l hl => congrArg ClientInfo.state (info_setInfo_ne c _ hl)⟩
      ⟨fun u => (hp.call u).trans (by simp), fun u => (hp.hold u).trans (by simp),
        by simp [releaseOf], ?_⟩ ?_
    · show ((c.setInfo lid _).info lid).state ≠ _
      rw [info_setInfo_self]
      simp
    · intro hd
      rcases hd with hd | hd | ⟨u, hu⟩
      · change ((c.setInfo lid _).info lid).state = _ at hd
        rw [info_setInfo_self] at hd
        cases hd
      · change ((c.setInfo lid _).info lid).state = _ at hd
        rw [info_setInfo_self] at hd
        cases hd
      · exact Or.inr (Or.inr ⟨u, hu⟩)
  · refine .of_change h (q := .quiet) ⟨fun _ _ _ => .rfl, fun _ _ _ hu => hu, fun _ _ _ => rfl,
      hrelease, fun _ _ => rfl⟩
      ⟨fun u => (hp.call u).trans (by simp), fun u => (hp.hold u).trans (by simp),
        by simp [releaseOf], ?_⟩ (fun hd => hd)
    show (c.info lid).state ≠ .locked
    rw [hreleasing]
    simp

omit [DecidableEq Tid] in
theorem afterRelease_acquiring {it : Nat} {lid l : LockId} {ret : Status}
    (h : ((c.afterRelease it lid ret).1.info l).state = .acquiring) :
    (c.info l).state = .acquiring := by
  unfold afterRelease at h
  split at h
  · change ((c.setInfo lid _).info l).state = _ at h
    by_cases hl : l = lid
    · subst hl
      rw [info_setInfo_self] at h
      cases h
    · rwa [info_setInfo_ne _ _ hl] at h
  · exact h

omit [DecidableEq Tid] in
/-- Where `releaser` was does not matter for its next walk. -/
theorem releaserScan_atTop (c : LockClientCache Tid) (it : Nat) :
    ({ c with releaser := .top } : LockClientCache Tid).releaserScan it = c.releaserScan it := by
  have hscan : ({ c with releaser := .top } : LockClientCache Tid).scanRevoke it =
      c.scanRevoke it := rfl
  unfold releaserScan
  rw [hscan]
  cases c.scanRevoke it <;> rfl

omit [DecidableEq Tid] in
theorem releaseReturn_sound (h : c.Inv)
    (htaken : ∀ it lid ret i l, c.releaser = .replied it lid ret →
      (c.afterRelease it lid ret).1.scanRevoke (c.afterRelease it lid ret).2 = some (i, l) →
      (c.info l).state ≠ .acquiring)
    (hd : c.releaseReturn = some d) : c.Sound d := by
  unfold releaseReturn at hd
  split at hd
  · rename_i it lid ret hpc
    cases hd
    have hafter : c.Sound { (c.afterRelease it lid ret).1 with releaser := .top } :=
      .afterRelease h hpc
    have hscan := Sound.releaserScan hafter.inv (c.afterRelease it lid ret).2 rfl
      fun i l hscan hstate => htaken it lid ret i l hpc hscan (afterRelease_acquiring hstate)
    rw [releaserScan_atTop] at hscan
    exact hafter.trans hscan
  · cases hd

/-! ## Every step of a client -/

/-- The lock that a step takes to release it, if it takes one, is not being
acquired. -/
def TakesNoAcquiring (c : LockClientCache Tid) (a : ClientAction Tid) : Prop :=
  match c.taken a with
  | some (_, lid) => (c.info lid).state ≠ .acquiring
  | none => True

instance (c : LockClientCache Tid) (a : ClientAction Tid) : Decidable (c.TakesNoAcquiring a) :=
  match h : c.taken a with
  | some (_, lid) =>
    decidable_of_iff ((c.info lid).state ≠ .acquiring) (by rw [TakesNoAcquiring, h])
  | none => isTrue (by rw [TakesNoAcquiring, h]; trivial)

omit [DecidableEq Tid] in
theorem TakesNoAcquiring.state {a : ClientAction Tid} (h : c.TakesNoAcquiring a) {i : Nat}
    (ht : c.taken a = some (i, lid)) :
    (c.info lid).state ≠ .acquiring := by
  rwa [TakesNoAcquiring, ht] at h

theorem next_sound {a : ClientAction Tid} (h : c.Inv) (htaken : c.TakesNoAcquiring a)
    (hd : c.next a = some d) : c.Sound d := by
  cases a with
  | acquire t lid => exact .acquire h hd
  | wake t => exact .wake h hd
  | acquireReturn t => exact .acquireReturn h hd
  | release t lid => exact .release h hd
  | releaserStart => exact releaserStart_sound h (fun i lid hs => htaken.state hs) hd
  | releaseReturn =>
    refine releaseReturn_sound h (fun it lid ret i l hpc hs => htaken.state (i := i) ?_) hd
    simp only [taken, hpc]
    exact hs

omit [DecidableEq Tid] in
theorem revoke_sound (h : c.Inv) (lid : LockId) :
    c.Sound (c.revoke lid).2 := by
  have hset : c.Sound (c.setInfo lid { c.info lid with toBeRevoked := true }) := .setInfo h rfl
  unfold revoke
  dsimp only
  split
  · exact hset
  · exact hset.trans
      (.of_frame hset.inv (fun _ => rfl) (fun _ _ hu => hu) rfl rfl fun _ => rfl)

omit [DecidableEq Tid] in
theorem retry_sound (h : c.Inv) (lid : LockId) :
    c.Sound (c.retry lid).2 := by
  unfold retry
  split
  · exact ⟨h, fun _ hd => hd⟩
  · rename_i li hfind
    exact .setInfo h (by simp [info, hfind])

omit [DecidableEq Tid] in
theorem releaseServed_sound (h : c.Inv) (ret : Status) :
    c.Sound (c.releaseServed ret) := by
  unfold releaseServed
  split
  · rename_i it lid hpc
    exact .of_frame h (fun _ => rfl) (fun _ _ hu => hu) rfl (by rw [hpc]; rfl) fun _ => rfl
  · exact ⟨h, fun _ hd => hd⟩

/-- Only the reply to an acquire call can give the client a new right. -/
theorem acquireServed_inv (h : c.Inv) {t : Tid} (hpc : c.threads t = .calling lid) (ret : Status) :
    (c.acquireServed t ret).Inv ∧
      ∀ l, (c.acquireServed t ret).Entitled l → c.Entitled l ∨ (l = lid ∧ ret = .ok) := by
  have hd : c.acquireServed t ret = c.setThread t (.replied lid ret) := by
    simp only [acquireServed, hpc]
  rw [hd]
  constructor
  · intro l
    obtain ⟨p, hp⟩ := h l
    refine ⟨p, hp.frame (fun u => ?_) (fun _ => rfl) .rfl rfl⟩
    by_cases hu : u = t
    · subst hu
      simp [hpc, callOf]
    · simp [hu]
  · intro l hl
    rcases hl with hl | hl | ⟨u, hu⟩
    · exact Or.inl (Or.inl hl)
    · exact Or.inl (Or.inr (Or.inl hl))
    · by_cases hut : u = t
      · subst hut
        simp only [setThread_threads, Function.update_self, AcquirePc.replied.injEq] at hu
        exact Or.inr ⟨hu.1.symm, hu.2⟩
      · simp only [setThread_threads, Function.update_of_ne hut] at hu
        exact Or.inl (Or.inr (Or.inr ⟨u, hu⟩))

omit [DecidableEq Tid] in
theorem Inv.not_entitled_of_releasing (h : c.Inv) (hpc : releaseOf c.releaser = some lid) :
    ¬ c.Entitled lid := by
  obtain ⟨p, hp⟩ := h lid
  obtain rfl := hp.release.mp hpc
  have hstate : (c.info lid).state = .releasing := hp.state
  intro hc
  rcases hc with hc | hc | ⟨t, ht⟩
  · rw [hstate] at hc
    cases hc
  · rw [hstate] at hc
    cases hc
  · cases (hp.call t).mp (by rw [ht]; rfl)

omit [DecidableEq Tid] in
theorem Inv.entitled_of_holds (h : c.Inv) {t : Tid} (ht : c.holds t lid = true) :
    c.Entitled lid := by
  obtain ⟨p, hp⟩ := h lid
  obtain rfl := (hp.hold t).mp ht
  exact Or.inl hp.state

omit [DecidableEq Tid] in
theorem Inv.one_holder (h : c.Inv) {t u : Tid} (ht : c.holds t lid = true)
    (hu : c.holds u lid = true) : t = u := by
  obtain ⟨p, hp⟩ := h lid
  obtain rfl := (hp.hold t).mp ht
  cases (hp.hold u).mp hu
  rfl

end LockClientCache
end Lock
end Frangipani
