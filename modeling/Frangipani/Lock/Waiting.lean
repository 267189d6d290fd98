/-
When a waiting client can be forgotten.

A client that waits for an owned lock gets it only after the owner has been
asked to give it back.  The server asks through `revokes`.  An entry is queued
by `acquire`, when it refuses a client because the lock is owned, and by
`retryer` after an offer, when more clients wait.

Two steps can leave a waiting client without anybody having been asked.  A
client may queue up between the return of the retry call and the offered
client's `acquire`: the lock is free then, so no revoke is queued for it, and
the grant that follows does not queue one either.  And `revoker` erases an entry
when its call returns, although the lock may have changed hands and come back
while the call was out.
-/
import Mathlib.Data.List.Nodup
import Frangipani.Lock.Ownership

namespace Frangipani
namespace Lock

open Transition

/-- The server with a record, for each lock, of whether a revoke call has gone
out to its owner since the lock was last granted. -/
structure Audit (Clt : Type) where
  server : LockServerCache Clt
  revokeSent : LockId → Bool

namespace Audit

variable {Clt : Type} [DecidableEq Clt]

open LockServerCache

/-- The revoke call that a thread of the server has outstanding is noted when it
goes to the owner of the lock. -/
def noteCall (sent : LockId → Bool) (server : LockServerCache Clt) : LockId → Bool :=
  match server.revoker with
  | .top => sent
  | .calling _ lid clt => if server.OwnedBy lid clt then Function.update sent lid true else sent

/-- The record after a step of the server from `s` to `t`. -/
def note (sent : LockId → Bool) (s t : LockServerCache Clt) : ServerAction Clt → LockId → Bool
  | .acquire clt lid =>
    if Grantable (s.locks lid) clt then Function.update sent lid false else sent
  | .revokerStart => noteCall sent t
  | .revokerReturn _ => noteCall sent t
  | _ => sent

def start : Audit Clt where
  server := new
  revokeSent := fun _ => false

def system : System (Audit Clt) (ServerAction Clt) where
  init s := s = start
  step s a := (s.server.next a).map fun t =>
    { server := t, revokeSent := note s.revokeSent s.server t a }

/-- The retryer step that offered the lock to `clt` has not completed. -/
def Offering (s : LockServerCache Clt) (lid : LockId) (clt : Clt) : Prop :=
  ∃ it, s.retryer = .calling it lid clt

/-- The owner of a lock that clients wait for is queued for a revoke, has been
sent one since the lock was granted, or is about to be queued by `retryer`. -/
def NoneForgotten (s : Audit Clt) : Prop :=
  ∀ lid owner, s.server.OwnedBy lid owner → (s.server.locks lid).waitingClients ≠ [] →
    (lid, owner) ∈ s.server.revokes ∨ s.revokeSent lid = true ∨ Offering s.server lid owner

/-- The two steps that can forget a client do not.  A grant of a lock that
others wait for finds its revoke queued or about to be, and a revoke that is
erased while clients wait was sent since the lock was granted. -/
def Remembers (s : Audit Clt) : ServerAction Clt → Prop
  | .acquire clt lid =>
    Grantable (s.server.locks lid) clt → (s.server.locks lid).waitingClients ≠ [] →
      (lid, clt) ∈ s.server.revokes ∨ Offering s.server lid clt
  | .revokerReturn true =>
    ∀ it lid clt, s.server.revoker = .calling it lid clt → s.server.OwnedBy lid clt →
      (s.server.locks lid).waitingClients ≠ [] →
        s.revokeSent lid = true ∨ Offering s.server lid clt
  | _ => True

/-- What the server keeps besides `NoneForgotten`: a revoke is queued once, and
`revoker`'s call is for the entry its iterator stands on. -/
structure Inv (s : Audit Clt) : Prop where
  noneForgotten : s.NoneForgotten
  nodup : s.server.revokes.Nodup
  calling : ∀ it lid clt, s.server.revoker = .calling it lid clt →
    s.server.revokes[it]? = some (lid, clt)

theorem step_eq_some {s t : Audit Clt} {a : ServerAction Clt} (h : system.step s a = some t) :
    s.server.next a = some t.server ∧ t.revokeSent = note s.revokeSent s.server t.server a := by
  obtain ⟨server, hserver, rfl⟩ := Option.map_eq_some_iff.mp h
  exact ⟨hserver, rfl⟩

/-! ## The queue of revokes -/

theorem addRevoke_nodup {s : LockServerCache Clt} (h : s.revokes.Nodup) (lid : LockId) (clt : Clt) :
    (s.addRevoke lid clt).revokes.Nodup := by
  rcases addRevoke_revokes s lid clt with ⟨_, heq⟩ | ⟨hnot, heq⟩
  · rw [heq]
    exact h
  · rw [heq]
    rw [← List.concat_eq_append]
    exact List.Nodup.concat hnot h

theorem addRevoke_getElem {s : LockServerCache Clt} {lid : LockId} {clt : Clt} {it : Nat}
    {entry : LockId × Clt} (h : s.revokes[it]? = some entry) :
    (s.addRevoke lid clt).revokes[it]? = some entry := by
  rcases addRevoke_revokes s lid clt with ⟨_, heq⟩ | ⟨_, heq⟩
  · rw [heq]
    exact h
  · rw [heq, List.getElem?_append_left (List.getElem?_eq_some_iff.mp h).1]
    exact h

theorem mem_addRevoke_of_mem {s : LockServerCache Clt} {lid : LockId} {clt : Clt}
    {entry : LockId × Clt} (h : entry ∈ s.revokes) : entry ∈ (s.addRevoke lid clt).revokes := by
  rcases addRevoke_revokes s lid clt with ⟨_, heq⟩ | ⟨_, heq⟩
  · rw [heq]
    exact h
  · rw [heq]
    exact List.mem_append_left _ h

/-- How a step other than `revokerReturn` changes `revokes`: not at all, or by
one `addRevoke`. -/
structure Grows (s t : LockServerCache Clt) : Prop where
  mem : ∀ entry ∈ s.revokes, entry ∈ t.revokes
  nodup : s.revokes.Nodup → t.revokes.Nodup
  getElem : ∀ (it : Nat) entry, s.revokes[it]? = some entry → t.revokes[it]? = some entry

omit [DecidableEq Clt] in
theorem Grows.of_eq {s t : LockServerCache Clt} (h : t.revokes = s.revokes) : Grows s t where
  mem := fun _ he => h ▸ he
  nodup := fun hs => h ▸ hs
  getElem := fun _ _ he => h ▸ he

theorem Grows.of_addRevoke {s u t : LockServerCache Clt} {lid : LockId} {clt : Clt}
    (ht : t.revokes = (u.addRevoke lid clt).revokes) (hu : u.revokes = s.revokes) :
    Grows s t where
  mem := fun _ he => ht ▸ mem_addRevoke_of_mem (hu ▸ he)
  nodup := fun hs => ht ▸ addRevoke_nodup (hu ▸ hs) lid clt
  getElem := fun _ _ he => ht ▸ addRevoke_getElem (hu ▸ he)

theorem acquire_refused_owned {s : LockServerCache Clt} {clt owner : Clt} {lid : LockId}
    (h : s.OwnedBy lid owner) :
    (s.acquire clt lid).2 = (s.setLock lid { s.locks lid with
      waitingClients := enqueue (s.locks lid).waitingClients clt }).addRevoke lid owner := by
  have hg : ¬ Grantable (s.locks lid) clt := by
    intro hg
    exact absurd (hg.1.symm.trans h.1) (by decide)
  simp only [acquire, hg, if_false, h.1, h.2]

/-- `acquire` queues a revoke at most, and leaves the two threads alone. -/
theorem acquire_frame (s : LockServerCache Clt) (clt : Clt) (lid : LockId) :
    Grows s (s.acquire clt lid).2 ∧ (s.acquire clt lid).2.retryer = s.retryer ∧
      (s.acquire clt lid).2.revoker = s.revoker := by
  by_cases hg : Grantable (s.locks lid) clt
  · rw [acquire_granted hg]
    exact ⟨.of_eq rfl, rfl, rfl⟩
  · simp only [acquire, hg, if_false]
    split
    · exact ⟨.of_addRevoke rfl rfl, addRevoke_retryer .., addRevoke_revoker ..⟩
    · exact ⟨.of_eq rfl, rfl, rfl⟩

theorem release_frame (s : LockServerCache Clt) (clt : Clt) (lid : LockId) :
    (s.release clt lid).2.revokes = s.revokes ∧ (s.release clt lid).2.retryer = s.retryer ∧
      (s.release clt lid).2.revoker = s.revoker := by
  by_cases h : MayRelease (s.locks lid) clt
  · simp only [release, h, if_true]
    exact ⟨rfl, rfl, rfl⟩
  · simp only [release, h, if_false, and_self]

omit [DecidableEq Clt] in
theorem retryerScan_frame (s : LockServerCache Clt) (it : Nat) :
    (s.retryerScan it).revokes = s.revokes ∧ (s.retryerScan it).revoker = s.revoker := by
  unfold retryerScan
  split <;> exact ⟨rfl, rfl⟩

omit [DecidableEq Clt] in
theorem revokerScan_frame (s : LockServerCache Clt) (it : Nat) :
    (s.revokerScan it).revokes = s.revokes ∧ (s.revokerScan it).retryer = s.retryer := by
  unfold revokerScan
  split <;> exact ⟨rfl, rfl⟩

omit [DecidableEq Clt] in
/-- The call `revoker` makes is for the entry its iterator stands on. -/
theorem revokerScan_calling {s : LockServerCache Clt} {it i : Nat} {lid : LockId} {clt : Clt}
    (h : (s.revokerScan it).revoker = .calling i lid clt) : s.revokes[i]? = some (lid, clt) := by
  unfold revokerScan at h
  split at h
  · rename_i l c hentry
    cases h
    exact hentry
  · cases h

/-- When more clients wait, `retryer` queues a revoke for the client it has just
offered the lock to. -/
theorem afterRetry_frame (s : LockServerCache Clt) (it : Nat) (lid : LockId) (clt : Clt)
    (ok : Bool) :
    Grows s (s.afterRetry it lid clt ok).1 ∧
      (s.afterRetry it lid clt ok).1.revoker = s.revoker ∧
      ((s.locks lid).waitingClients ≠ [] →
        (lid, clt) ∈ (s.afterRetry it lid clt ok).1.revokes) := by
  unfold afterRetry
  by_cases hw : (s.locks lid).waitingClients = []
  · simp only [hw, if_true]
    cases ok with
    | true => exact ⟨.of_eq rfl, rfl, fun h => absurd rfl h⟩
    | false => exact ⟨.of_eq rfl, rfl, fun h => absurd rfl h⟩
  · simp only [hw, if_false]
    cases ok with
    | true => exact ⟨.of_addRevoke rfl rfl, addRevoke_revoker .., fun _ => mem_addRevoke ..⟩
    | false => exact ⟨.of_addRevoke rfl rfl, addRevoke_revoker .., fun _ => mem_addRevoke ..⟩

/-! ## One step -/

theorem next_owned_waiting {s t : LockServerCache Clt} {a : ServerAction Clt} {lid : LockId}
    {owner : Clt} (h : s.next a = some t) (ha : ∀ clt, a ≠ .acquire clt lid)
    (hown : t.OwnedBy lid owner) (hwait : (t.locks lid).waitingClients ≠ []) :
    s.OwnedBy lid owner ∧ (s.locks lid).waitingClients ≠ [] := by
  have hstep : LockStep s lid a (t.locks lid) := next_lockStep h lid
  unfold OwnedBy at hown
  generalize t.locks lid = li at hstep hown hwait
  cases hstep with
  | frame => exact ⟨hown, hwait⟩
  | grant clt => exact absurd rfl (ha clt)
  | queue clt => exact absurd rfl (ha clt)
  | free => exact absurd hown.1 (by simp)
  | offer =>
    refine ⟨hown, fun hnil => hwait ?_⟩
    simp [hnil]

theorem noteCall_of_sent {sent : LockId → Bool} {server : LockServerCache Clt} {lid : LockId}
    (h : sent lid = true) : noteCall sent server lid = true := by
  cases hpc : server.revoker with
  | top => simpa only [noteCall, hpc] using h
  | calling it l clt =>
    simp only [noteCall, hpc]
    split
    · by_cases hl : lid = l
      · simp [hl]
      · simp [hl, h]
    · exact h

/-- A step keeps what is known about a lock when it keeps the entries of
`revokes`, the sent revokes and the retryer's outstanding call. -/
theorem NoneForgotten.of_frame {s t : Audit Clt} {a : ServerAction Clt} (hs : s.NoneForgotten)
    (h : s.server.next a = some t.server) (ha : ∀ clt lid, a ≠ .acquire clt lid)
    (hmem : ∀ entry ∈ s.server.revokes, entry ∈ t.server.revokes)
    (hsent : ∀ lid, s.revokeSent lid = true → t.revokeSent lid = true)
    (hoffer : ∀ lid owner, Offering s.server lid owner →
      (s.server.locks lid).waitingClients ≠ [] →
      (lid, owner) ∈ t.server.revokes ∨ Offering t.server lid owner) : t.NoneForgotten := by
  intro lid owner hown hwait
  obtain ⟨hown, hwait⟩ := next_owned_waiting h (fun clt => ha clt lid) hown hwait
  rcases hs lid owner hown hwait with hin | hin | hin
  · exact Or.inl (hmem _ hin)
  · exact Or.inr (Or.inl (hsent lid hin))
  · rcases hoffer lid owner hin hwait with h | h
    · exact Or.inl h
    · exact Or.inr (Or.inr h)

omit [DecidableEq Clt] in
/-- Steps that do not move `revoker`. -/
theorem Inv.of_grows {s t : Audit Clt} (hs : s.Inv) (hgrows : Grows s.server t.server)
    (hrevoker : t.server.revoker = s.server.revoker) (hnone : t.NoneForgotten) : t.Inv where
  noneForgotten := hnone
  nodup := hgrows.nodup hs.nodup
  calling := fun it lid clt h => hgrows.getElem it _ (hs.calling it lid clt (hrevoker ▸ h))

theorem acquire_noneForgotten {s t : Audit Clt} {clt : Clt} {l : LockId} (hs : s.Inv)
    (hok : s.Remembers (.acquire clt l)) (h : s.server.next (.acquire clt l) = some t.server)
    (hsent : t.revokeSent = note s.revokeSent s.server t.server (.acquire clt l)) :
    t.NoneForgotten := by
  intro lid owner hown hwait
  have hserver : t.server = (s.server.acquire clt l).2 := (Option.some.inj h).symm
  obtain ⟨hgrows, hretryer, _⟩ := acquire_frame s.server clt l
  rw [← hserver] at hgrows hretryer
  have hoffering : ∀ lid c, Offering t.server lid c ↔ Offering s.server lid c := by
    intro lid c
    rw [Offering, Offering, hretryer]
  simp only [hoffering]
  by_cases hl : l = lid
  · subst hl
    by_cases hg : Grantable (s.server.locks l) clt
    · -- The grant: `clt` is the new owner and the waiting list is the old one.
      rw [acquire_granted hg] at hserver
      have hlock : t.server.locks l = { s.server.locks l with
          cltId := some clt, state := .acquired, retryerSentTo := none } := by
        rw [hserver, setLock_locks_self]
      rw [OwnedBy, hlock] at hown
      rw [hlock] at hwait
      obtain rfl : clt = owner := Option.some.inj hown.2
      rcases hok hg hwait with hin | hin
      · exact Or.inl (hgrows.mem _ hin)
      · exact Or.inr (Or.inr hin)
    · -- A refusal on an owned lock queues the revoke.
      have hlock : t.server.locks l = { s.server.locks l with
          waitingClients := enqueue (s.server.locks l).waitingClients clt } := by
        rw [hserver, acquire_refused_locks hg, setLock_locks_self]
      rw [OwnedBy, hlock] at hown
      rw [hserver, acquire_refused_owned hown]
      exact Or.inl (mem_addRevoke ..)
  · have hne : ∀ c, ServerAction.acquire clt l ≠ .acquire c lid := by
      intro c hc
      cases hc
      exact hl rfl
    obtain ⟨hown, hwait⟩ := next_owned_waiting h hne hown hwait
    have hkeep : t.revokeSent lid = s.revokeSent lid := by
      rw [hsent]
      simp only [note]
      split
      · exact Function.update_of_ne (Ne.symm hl) _ _
      · rfl
    rw [hkeep]
    rcases hs.noneForgotten lid owner hown hwait with hin | hin
    · exact Or.inl (hgrows.mem _ hin)
    · exact Or.inr hin

omit [DecidableEq Clt] in
theorem revokerScan_inv {t : Audit Clt} {u : LockServerCache Clt} {it : Nat}
    (hserver : t.server = u.revokerScan it) (hnodup : u.revokes.Nodup) (hnone : t.NoneForgotten) :
    t.Inv where
  noneForgotten := hnone
  nodup := by
    rw [hserver, (revokerScan_frame u it).1]
    exact hnodup
  calling := by
    intro i lid clt h
    rw [hserver] at h ⊢
    rw [(revokerScan_frame u it).1]
    exact revokerScan_calling h

theorem Inv.revokerScan {s t : Audit Clt} {a : ServerAction Clt} {it : Nat} (hs : s.Inv)
    (hnext : s.server.next a = some t.server) (ha : ∀ clt lid, a ≠ .acquire clt lid)
    (hserver : t.server = s.server.revokerScan it)
    (hsent : t.revokeSent = noteCall s.revokeSent t.server) : t.Inv := by
  obtain ⟨hrevokes, hretryer⟩ := revokerScan_frame s.server it
  rw [← hserver] at hrevokes hretryer
  refine revokerScan_inv hserver hs.nodup ?_
  refine hs.noneForgotten.of_frame hnext ha (fun _ he => hrevokes ▸ he)
    (fun lid hlid => by rw [hsent]; exact noteCall_of_sent hlid) ?_
  intro lid owner hin _
  exact Or.inr (by rwa [Offering, hretryer])

/-- Erasing the entry `revoker` stands on forgets nobody when the step
remembers. -/
theorem revokerReturn_noneForgotten {s t : Audit Clt} {it : Nat} {l : LockId} {c : Clt}
    (hs : s.Inv) (hok : s.Remembers (.revokerReturn true))
    (hpc : s.server.revoker = .calling it l c)
    (hserver : t.server = { s.server with
      revokes := s.server.revokes.eraseIdx it }.revokerScan it)
    (hsent : t.revokeSent = noteCall s.revokeSent t.server) : t.NoneForgotten := by
  intro lid owner hown hwait
  have hlocks : t.server.locks = s.server.locks := by
    rw [hserver, revokerScan_locks]
  have hoffering : Offering t.server lid owner ↔ Offering s.server lid owner := by
    rw [Offering, Offering, hserver, (revokerScan_frame _ it).2]
  have hkeep : s.revokeSent lid = true → t.revokeSent lid = true := by
    intro h
    rw [hsent]
    exact noteCall_of_sent h
  rw [OwnedBy.congr (congrFun hlocks lid)] at hown
  rw [hlocks] at hwait
  rw [hoffering]
  rcases hs.noneForgotten lid owner hown hwait with hin | hin | hin
  · by_cases hentry : (lid, owner) = (l, c)
    · cases hentry
      rcases hok it l c hpc hown hwait with h | h
      · exact Or.inr (Or.inl (hkeep h))
      · exact Or.inr (Or.inr h)
    · refine Or.inl ?_
      rw [hserver, (revokerScan_frame _ it).1]
      obtain ⟨j, hj⟩ := List.getElem?_of_mem hin
      refine List.mem_eraseIdx_iff_getElem?.mpr ⟨j, ?_, hj⟩
      intro hji
      rw [hji, hs.calling it l c hpc] at hj
      exact hentry (Option.some.inj hj).symm
  · exact Or.inr (Or.inl (hkeep hin))
  · exact Or.inr (Or.inr hin)

theorem Inv.step {s t : Audit Clt} {a : ServerAction Clt} (hs : s.Inv) (hok : s.Remembers a)
    (h : system.step s a = some t) : t.Inv := by
  obtain ⟨hnext, hsent⟩ := step_eq_some h
  cases a with
  | acquire clt l =>
    have hframe := acquire_frame s.server clt l
    rw [Option.some.inj hnext] at hframe
    exact hs.of_grows hframe.1 hframe.2.2 (acquire_noneForgotten hs hok hnext hsent)
  | release clt l =>
    obtain ⟨hrevokes, hretryer, hrevoker⟩ := release_frame s.server clt l
    rw [Option.some.inj hnext] at hrevokes hretryer hrevoker
    refine hs.of_grows (.of_eq hrevokes) hrevoker ?_
    refine hs.noneForgotten.of_frame hnext (by simp) (fun _ he => hrevokes ▸ he)
      (fun lid hlid => by rw [hsent]; exact hlid) ?_
    intro lid owner hin _
    exact Or.inr (by rwa [Offering, hretryer])
  | retryerStart =>
    obtain ⟨hpc, hserver⟩ := retryerStart_eq_some hnext
    obtain ⟨hrevokes, hrevoker⟩ := retryerScan_frame s.server 0
    rw [← hserver] at hrevokes hrevoker
    refine hs.of_grows (.of_eq hrevokes) hrevoker ?_
    refine hs.noneForgotten.of_frame hnext (by simp) (fun _ he => hrevokes ▸ he)
      (fun lid hlid => by rw [hsent]; exact hlid) ?_
    intro lid owner hin _
    obtain ⟨it, hin⟩ := hin
    rw [hpc] at hin
    cases hin
  | retryerReturn ok =>
    obtain ⟨it, l, c, hpc, hserver⟩ := retryerReturn_eq_some hnext
    obtain ⟨hgrows, hrevoker, hqueued⟩ := afterRetry_frame s.server it l c ok
    obtain ⟨hrevokes', hrevoker'⟩ :=
      retryerScan_frame (s.server.afterRetry it l c ok).1 (s.server.afterRetry it l c ok).2
    rw [← hserver] at hrevokes' hrevoker'
    rw [← hrevokes'] at hqueued
    have hgrows' : Grows s.server t.server :=
      { mem := fun e he => hrevokes' ▸ hgrows.mem e he
        nodup := fun hn => hrevokes' ▸ hgrows.nodup hn
        getElem := fun i e he => hrevokes' ▸ hgrows.getElem i e he }
    refine hs.of_grows hgrows' (hrevoker'.trans hrevoker) ?_
    refine hs.noneForgotten.of_frame hnext (by simp) hgrows'.mem
      (fun lid hlid => by rw [hsent]; exact hlid) ?_
    -- The offer that completes here is the one whose revoke is queued here.
    intro lid owner hin hwait
    obtain ⟨i, hin⟩ := hin
    rw [hpc] at hin
    cases hin
    exact Or.inl (hqueued hwait)
  | revokerStart =>
    obtain ⟨_, hserver⟩ := revokerStart_eq_some hnext
    exact hs.revokerScan hnext (by simp) hserver hsent
  | revokerReturn ok =>
    obtain ⟨it, l, c, hpc, ⟨rfl, hserver⟩ | ⟨rfl, hserver⟩⟩ := revokerReturn_eq_some hnext
    · exact revokerScan_inv hserver (hs.nodup.sublist (List.eraseIdx_sublist ..))
        (revokerReturn_noneForgotten hs hok hpc hserver hsent)
    · exact hs.revokerScan hnext (by simp) hserver hsent

/-! ## Every run -/

omit [DecidableEq Clt] in
theorem start_inv : (start : Audit Clt).Inv where
  noneForgotten := fun lid _ hown _ => absurd hown.1 (by simp [start, new])
  nodup := List.nodup_nil
  calling := fun _ _ _ h => by cases h

/-- A grant that does not remember leaves the waiting clients forgotten. -/
theorem acquire_forgets {s t : Audit Clt} {clt : Clt} {lid : LockId}
    (hbad : ¬ s.Remembers (.acquire clt lid)) (h : system.step s (.acquire clt lid) = some t) :
    ¬ t.NoneForgotten := by
  intro hnone
  refine hbad fun hg hwait => ?_
  obtain ⟨hnext, hsent⟩ := step_eq_some h
  have hserver : t.server = (s.server.acquire clt lid).2 := (Option.some.inj hnext).symm
  rw [acquire_granted hg] at hserver
  have hlock : t.server.locks lid = { s.server.locks lid with
      cltId := some clt, state := .acquired, retryerSentTo := none } := by
    rw [hserver, setLock_locks_self]
  have hfalse : t.revokeSent lid = false := by
    rw [hsent]
    simp [note, hg]
  have hown : t.server.OwnedBy lid clt := by
    rw [OwnedBy, hlock]
    exact ⟨rfl, rfl⟩
  rcases hnone lid clt hown (by rw [hlock]; exact hwait) with hin | hin | hin
  · rw [hserver] at hin
    exact Or.inl hin
  · rw [hfalse] at hin
    cases hin
  · rw [Offering, hserver] at hin
    exact Or.inr hin

/-- The call that follows an erased entry is for another entry, so it is not a
revoke of the lock that was forgotten. -/
theorem noteCall_other {sent : LockId → Bool} {server : LockServerCache Clt} {lid : LockId}
    {clt : Clt} (hown : server.OwnedBy lid clt) (hnot : (lid, clt) ∉ server.revokes)
    (hcall : ∀ it l c, server.revoker = .calling it l c → server.revokes[it]? = some (l, c)) :
    noteCall sent server lid = sent lid := by
  cases hpc : server.revoker with
  | top => simp only [noteCall, hpc]
  | calling it l c =>
    simp only [noteCall, hpc]
    split
    · rename_i hc
      refine Function.update_of_ne ?_ _ _
      intro hl
      subst hl
      rw [hown.unique hc] at hnot
      exact hnot (List.mem_of_getElem? (hcall it lid c hpc))
    · rfl

theorem revokerReturn_forgets {s t : Audit Clt} (hs : s.Inv)
    (hbad : ¬ s.Remembers (.revokerReturn true))
    (h : system.step s (.revokerReturn true) = some t) : ¬ t.NoneForgotten := by
  intro hnone
  refine hbad fun it lid clt hpc hown hwait => ?_
  obtain ⟨hnext, hsent⟩ := step_eq_some h
  obtain ⟨it', l, c, hpc', ⟨_, hserver⟩ | ⟨hfalse, _⟩⟩ := revokerReturn_eq_some hnext
  · rw [hpc] at hpc'
    cases hpc'
    obtain ⟨hrevokes, hretryer⟩ :=
      revokerScan_frame { s.server with revokes := s.server.revokes.eraseIdx it } it
    have hlocks : t.server.locks = s.server.locks := by
      rw [hserver, revokerScan_locks]
    have hnot : (lid, clt) ∉ t.server.revokes := by
      rw [hserver, hrevokes]
      intro hin
      obtain ⟨j, hj, hentry⟩ := List.mem_eraseIdx_iff_getElem?.mp hin
      have hsame := (List.getElem?_inj (List.getElem?_eq_some_iff.mp hentry).1 hs.nodup).mp
        (hentry.trans (hs.calling it lid clt hpc).symm)
      exact hj hsame
    have hcall : ∀ i l c, t.server.revoker = .calling i l c →
        t.server.revokes[i]? = some (l, c) := by
      intro i l c hi
      rw [hserver] at hi ⊢
      rw [hrevokes]
      exact revokerScan_calling hi
    have hown' : t.server.OwnedBy lid clt := (OwnedBy.congr (congrFun hlocks lid)).mpr hown
    rcases hnone lid clt hown' (by rw [hlocks]; exact hwait) with hin | hin | hin
    · exact absurd hin hnot
    · rw [hsent] at hin
      exact Or.inl ((noteCall_other hown' hnot hcall).symm.trans hin)
    · rw [Offering, hserver, hretryer] at hin
      exact Or.inr hin
  · cases hfalse

theorem not_noneForgotten_of_bad_step {s t : Audit Clt} {a : ServerAction Clt} (hs : s.Inv)
    (hbad : ¬ s.Remembers a) (h : system.step s a = some t) : ¬ t.NoneForgotten := by
  cases a with
  | acquire clt lid => exact acquire_forgets hbad h
  | revokerReturn ok =>
    cases ok with
    | true => exact revokerReturn_forgets hs hbad h
    | false => exact absurd trivial hbad
  | release | retryerStart | retryerReturn | revokerStart => exact absurd trivial hbad

/-- In every run of the server no waiting client is forgotten, in any state, if
and only if every grant and every erased revoke along the run remembers. -/
theorem noneForgotten_iff (as : List (ServerAction Clt)) :
    system.AlongRun NoneForgotten (start : Audit Clt) as ↔
      system.StepsMeet Remembers (start : Audit Clt) as :=
  System.alongRun_iff_stepsMeet (fun _ hs => hs.noneForgotten)
    (fun _ _ _ hs hok h => hs.step hok h)
    (fun _ _ _ hs hbad h => not_noneForgotten_of_bad_step hs hbad h) start_inv

/-- The lock is offered to the second client and the retry call returns.  The
third client queues up behind the offer, and then the second takes it. -/
def queuedBehindOffer : List (ServerAction String) :=
  [.acquire "a" 1, .acquire "b" 1, .release "a" 1, .retryerStart, .retryerReturn true,
    .acquire "c" 1, .acquire "b" 1]

theorem queuedBehindOffer_forgets :
    (system.run start queuedBehindOffer).map
      (fun s => ((s.server.locks 1).cltId, (s.server.locks 1).waitingClients)) =
        some (some "b", ["c"]) ∧
    (system.run start queuedBehindOffer).map (fun s => (s.server.revokes, s.revokeSent 1)) =
      some ([(1, "a")], false) ∧
    (system.run start queuedBehindOffer).map (fun s => s.server.retryer) = some .top ∧
    ¬ system.AlongRun NoneForgotten start queuedBehindOffer := by
  refine ⟨by decide, by decide, by decide, ?_⟩
  intro h
  rcases h.final (by decide) 1 "b" (by decide) (by decide) with hin | hin | ⟨it, hin⟩
  · exact absurd hin (by decide)
  · exact absurd hin (by decide)
  · cases hin

end Audit
end Lock
end Frangipani
