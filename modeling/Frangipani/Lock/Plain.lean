/-
The plain lock server (`lock_server.cc`) and its clients (`lock_client.cc`).

Every `acquire` call has a thread in the server, which waits on the condition of the
lock while the lock is taken.  `release` frees the lock, whoever calls it, and signals
the condition once.  `nacquire` goes up with each lock that is given out and down with
each that comes back.

A client waits for the reply of its call, but not for ever: the call times out.  The
server does not learn of it.  The thread stays where it is, and when the lock is given
to it, nobody will release it.
-/
import Mathlib.Order.Lattice.Nat
import Frangipani.Concurrency.Condition
import Frangipani.Data.OrderedMap
import Frangipani.Lock.Server
import Frangipani.Transition.System

namespace Frangipani
namespace Lock

open Concurrency Transition

/-- `lock_server::lock_state`. -/
inductive PlainState
  | free
  | locked
  deriving DecidableEq, Repr

/-- Where an `acquire` call is.  It waits in the server, with or without a client that waits for it;
the lock was given to it, and the reply is on its way, has arrived, or arrives after the call has
timed out; or the lock was released. -/
inductive CallPc
  | idle
  | waiting (lid : LockId)
  | abandoned (lid : LockId)
  | granted (lid : LockId)
  | holding (lid : LockId)
  | lost (lid : LockId)
  | released
  deriving DecidableEq, Repr

/-- `lock_server`, with the calls it has got. -/
structure LockServer (Call : Type) where
  nacquire : Int
  locks : OrderedMap Nat PlainState
  lockConds : LockId → Condition Call
  pc : Call → CallPc

/-- A step of a call, or a `release` with the call that it gives the lock back for, if there is one,
and the thread that its signal wakes. -/
inductive PlainAction (Call : Type)
  | acquire (c : Call) (lid : LockId)
  | resume (c : Call) (lid : LockId)
  | reply (c : Call)
  | timeout (c : Call)
  | release (lid : LockId) (owner : Option Call) (wake : Option Call)
  | spurious (c : Call) (lid : LockId)

namespace LockServer

variable {Call : Type}

def new : LockServer Call where
  nacquire := 0
  locks := .empty
  lockConds _ := .empty
  pc _ := .idle

/-- `locks[lid] == LOCKED`. -/
def Locked (s : LockServer Call) (lid : LockId) : Prop := s.locks.find lid.toNat = some .locked

instance (s : LockServer Call) (lid : LockId) : Decidable (s.Locked lid) :=
  inferInstanceAs (Decidable (_ = _))

/-- The lock is entered when it is asked for the first time. -/
def create (s : LockServer Call) (lid : LockId) : LockServer Call :=
  match s.locks.find lid.toNat with
  | none => { s with locks := s.locks.assign lid.toNat .free }
  | some _ => s

variable [DecidableEq Call]

def setCond (s : LockServer Call) (lid : LockId) (c : Condition Call) : LockServer Call :=
  { s with lockConds := Function.update s.lockConds lid c }

def setPc (s : LockServer Call) (c : Call) (pc : CallPc) : LockServer Call :=
  { s with pc := Function.update s.pc c pc }

/-- The loop of `acquire`, with what becomes of the call if it waits and if it gets the lock. -/
def acquireLoop (s : LockServer Call) (c : Call) (lid : LockId) (waits gets : CallPc) :
    LockServer Call :=
  if s.Locked lid then (s.setCond lid ((s.lockConds lid).wait c)).setPc c waits
  else
    { s.setPc c gets with
      locks := s.locks.assign lid.toNat .locked
      nacquire := s.nacquire + 1 }

def acquire (s : LockServer Call) (c : Call) (lid : LockId) : Option (LockServer Call) :=
  if s.pc c = .idle then some ((s.create lid).acquireLoop c lid (.waiting lid) (.granted lid))
  else none

/-- `acquire` after a wait.  The call waits as before, or its client is told or not. -/
def resume (s : LockServer Call) (c : Call) (lid : LockId) : Option (LockServer Call) :=
  if c ∈ (s.lockConds lid).woken then
    some ((s.setCond lid ((s.lockConds lid).resume c)).acquireLoop c lid (s.pc c)
      (if s.pc c = .abandoned lid then .lost lid else .granted lid))
  else none

def reply (s : LockServer Call) (c : Call) : Option (LockServer Call) :=
  match s.pc c with
  | .granted lid => some (s.setPc c (.holding lid))
  | _ => none

def timeout (s : LockServer Call) (c : Call) : Option (LockServer Call) :=
  match s.pc c with
  | .waiting lid => some (s.setPc c (.abandoned lid))
  | .granted lid => some (s.setPc c (.lost lid))
  | _ => none

/-- The client of a call that has the lock is done with it. -/
def returned (s : LockServer Call) (lid : LockId) : Option Call → LockServer Call
  | some c => if s.pc c = .holding lid then s.setPc c .released else s
  | none => s

def release (s : LockServer Call) (lid : LockId) (owner wake : Option Call) :
    Option (Status × LockServer Call) :=
  if s.Locked lid then
    ((s.lockConds lid).signal wake).map fun cond =>
      (.ok, { (s.returned lid owner).setCond lid cond with
        locks := s.locks.assign lid.toNat .free
        nacquire := s.nacquire - 1 })
  else some (.noent, s)

def step (s : LockServer Call) : PlainAction Call → Option (LockServer Call)
  | .acquire c lid => s.acquire c lid
  | .resume c lid => s.resume c lid
  | .reply c => s.reply c
  | .timeout c => s.timeout c
  | .release lid owner wake => (s.release lid owner wake).map Prod.snd
  | .spurious c lid =>
    if c ∈ (s.lockConds lid).asleep then some (s.setCond lid ((s.lockConds lid).wake c)) else none

def system : System (LockServer Call) (PlainAction Call) where
  init s := s = new
  step := step

/-! ## Waiting -/

end LockServer

/-- The call has a thread that waits for the lock. -/
def CallPc.Waits (pc : CallPc) (lid : LockId) : Prop := pc = .waiting lid ∨ pc = .abandoned lid

/-- The lock was given to the call and has not come back. -/
def CallPc.Owns (pc : CallPc) (lid : LockId) : Prop :=
  pc = .granted lid ∨ pc = .holding lid ∨ pc = .lost lid

namespace LockServer

variable {Call : Type} [DecidableEq Call]

/-- The number of locks that a thread which waits for `lid` could take. -/
def available (s : LockServer Call) (lid : LockId) : Nat := if s.Locked lid then 0 else 1

structure Inv (s : LockServer Call) : Prop where
  counted : s.nacquire = s.locks.count fun v => v = .locked
  nodup : ∀ lid, (s.lockConds lid).threads.Nodup
  waits : ∀ lid c, c ∈ (s.lockConds lid).threads ↔ (s.pc c).Waits lid
  covers : ∀ lid, (s.lockConds lid).Covers (s.available lid)

omit [DecidableEq Call] in
theorem inv_new : (new : LockServer Call).Inv where
  counted := rfl
  nodup := fun _ => List.nodup_nil
  waits := fun lid c => by
    refine iff_of_false List.not_mem_nil fun h => ?_
    rcases h with h | h <;> cases h
  covers := fun _ => Condition.covers_empty _

theorem find_assign (locks : OrderedMap Nat PlainState) (lid lid' : LockId) (v : PlainState) :
    (locks.assign lid.toNat v).find lid'.toNat =
      if lid' = lid then some v else locks.find lid'.toNat := by
  by_cases h : lid' = lid
  · rw [h, if_pos rfl, OrderedMap.find_assign_self]
  · rw [if_neg h, OrderedMap.find_assign_ne _ _ fun heq => h (UInt64.toNat_inj.mp heq)]

omit [DecidableEq Call] in
theorem locked_create (s : LockServer Call) (lid lid' : LockId) :
    (s.create lid).Locked lid' ↔ s.Locked lid' := by
  unfold create
  split
  · rename_i hnone
    unfold Locked
    show (s.locks.assign lid.toNat .free).find lid'.toNat = _ ↔ _
    rw [find_assign]
    by_cases h : lid' = lid
    · rw [if_pos h, h, hnone]
      simp
    · rw [if_neg h]
  · exact Iff.rfl

omit [DecidableEq Call] in
/-- The new lock is free, so neither the count nor the waits change. -/
theorem Inv.create {s : LockServer Call} (h : s.Inv) (lid : LockId) : (s.create lid).Inv := by
  have hcount : (s.create lid).nacquire = (s.create lid).locks.count fun v => v = .locked := by
    unfold LockServer.create
    split
    · rename_i hnone
      have hassign := s.locks.count_assign (fun v => v = .locked) lid.toNat .free
      rw [hnone] at hassign
      have hsame : (s.locks.assign lid.toNat .free).count (fun v => v = .locked) =
          s.locks.count fun v => v = .locked := by simpa using hassign
      show s.nacquire = ((s.locks.assign lid.toNat .free).count _ : Nat)
      rw [hsame]
      exact h.counted
    · exact h.counted
  have hconds : (s.create lid).lockConds = s.lockConds := by
    unfold LockServer.create
    split <;> rfl
  have hpc : (s.create lid).pc = s.pc := by
    unfold LockServer.create
    split <;> rfl
  refine ⟨hcount, hconds ▸ h.nodup, by rw [hconds, hpc]; exact h.waits, fun lid' => ?_⟩
  have havail : (s.create lid).available lid' = s.available lid' := by
    unfold available
    simp only [locked_create]
  rw [hconds, havail]
  exact h.covers lid'

/-- The thread of `c` is at the head of its loop for `lid`. -/
structure Ready (s : LockServer Call) (c : Call) (lid : LockId) : Prop where
  counted : s.nacquire = s.locks.count fun v => v = .locked
  nodup : ∀ lid', (s.lockConds lid').threads.Nodup
  out : ∀ lid', c ∉ (s.lockConds lid').threads
  waits : ∀ lid' d, d ≠ c → (d ∈ (s.lockConds lid').threads ↔ (s.pc d).Waits lid')
  covers : ∀ lid', lid' ≠ lid → (s.lockConds lid').Covers (s.available lid')

omit [DecidableEq Call] in
theorem Inv.ready {s : LockServer Call} {c : Call} (h : s.Inv) (hc : s.pc c = .idle)
    (lid : LockId) : s.Ready c lid where
  counted := h.counted
  nodup := h.nodup
  out := fun lid' hmem => by
    have := (h.waits lid' c).mp hmem
    rw [hc] at this
    rcases this with this | this <;> cases this
  waits := fun lid' d _ => h.waits lid' d
  covers := fun lid' _ => h.covers lid'

/-- A woken thread has left the condition it was in, and it was in no other. -/
theorem Inv.ready_resume {s : LockServer Call} {c : Call} {lid : LockId} (h : s.Inv)
    (hc : c ∈ (s.lockConds lid).woken) :
    (s.setCond lid ((s.lockConds lid).resume c)).Ready c lid := by
  have hp := Condition.threads_resume hc
  obtain ⟨hself, hnodup⟩ := List.nodup_cons.mp (hp.nodup_iff.mp (h.nodup lid))
  have hwaits := (h.waits lid c).mp (List.mem_append_right _ hc)
  have hcond : ∀ lid', lid' ≠ lid → (s.setCond lid ((s.lockConds lid).resume c)).lockConds lid' =
      s.lockConds lid' := fun lid' hne => Function.update_of_ne hne _ _
  have hhere : (s.setCond lid ((s.lockConds lid).resume c)).lockConds lid =
      (s.lockConds lid).resume c := Function.update_self _ _ _
  constructor
  · exact h.counted
  · intro lid'
    by_cases hne : lid' = lid
    · rw [hne, hhere]
      exact hnodup
    · rw [hcond lid' hne]
      exact h.nodup lid'
  · intro lid' hmem
    by_cases hne : lid' = lid
    · rw [hne, hhere] at hmem
      exact hself hmem
    · rw [hcond lid' hne] at hmem
      have hother := (h.waits lid' c).mp hmem
      rcases hwaits with hw | hw <;> rcases hother with ho | ho <;> rw [hw] at ho <;> cases ho <;>
        exact hne rfl
  · intro lid' d hd
    by_cases hne : lid' = lid
    · rw [hne, hhere]
      refine Iff.trans ?_ (h.waits lid d)
      rw [hp.mem_iff, List.mem_cons]
      exact (or_iff_right hd).symm
    · rw [hcond lid' hne]
      exact h.waits lid' d
  · intro lid' hne
    rw [hcond lid' hne]
    exact h.covers lid'

/-- The loop of `acquire` keeps the invariant.  If the lock is taken, nothing is available; if not,
it is now. -/
theorem Ready.acquireLoop {s : LockServer Call} {c : Call} {lid : LockId} {waits gets : CallPc}
    (h : s.Ready c lid) (hwaits : ∀ lid', waits.Waits lid' ↔ lid' = lid)
    (hgets : ∀ lid', ¬ gets.Waits lid') : (s.acquireLoop c lid waits gets).Inv := by
  unfold LockServer.acquireLoop
  split_ifs with hlocked
  · have hp := (s.lockConds lid).threads_wait c
    refine ⟨h.counted, fun lid' => ?_, fun lid' d => ?_, fun lid' => ?_⟩
    · show (Function.update s.lockConds lid ((s.lockConds lid).wait c) lid').threads.Nodup
      by_cases hne : lid' = lid
      · rw [hne, Function.update_self]
        exact hp.nodup_iff.mpr (List.nodup_cons.mpr ⟨h.out lid, h.nodup lid⟩)
      · rw [Function.update_of_ne hne]
        exact h.nodup lid'
    · show d ∈ (Function.update s.lockConds lid ((s.lockConds lid).wait c) lid').threads ↔
        (Function.update s.pc c waits d).Waits lid'
      by_cases hd : d = c
      · rw [hd, Function.update_self, hwaits]
        by_cases hne : lid' = lid
        · rw [hne, Function.update_self]
          exact iff_of_true (hp.mem_iff.mpr List.mem_cons_self) rfl
        · rw [Function.update_of_ne hne]
          exact iff_of_false (h.out lid') hne
      · rw [Function.update_of_ne hd, ← h.waits lid' d hd]
        by_cases hne : lid' = lid
        · rw [hne, Function.update_self, hp.mem_iff, List.mem_cons]
          exact or_iff_right hd
        · rw [Function.update_of_ne hne]
    · show (Function.update s.lockConds lid ((s.lockConds lid).wait c) lid').Covers
        (s.available lid')
      by_cases hne : lid' = lid
      · rw [hne, Function.update_self, available, if_pos hlocked]
        exact Condition.covers_wait _ _
      · rw [Function.update_of_ne hne]
        exact h.covers lid' hne
  · refine ⟨?_, h.nodup, fun lid' d => ?_, fun lid' => ?_⟩
    · have hassign := s.locks.count_assign (fun v => v = .locked) lid.toNat .locked
      have hzero : ((s.locks.find lid.toNat).elim 0 fun v => (decide (v = .locked)).toNat) = 0 := by
        cases hfind : s.locks.find lid.toNat with
        | none => rfl
        | some v =>
          cases v with
          | free => rfl
          | locked => exact absurd hfind hlocked
      show s.nacquire + 1 = ((s.locks.assign lid.toNat .locked).count _ : Nat)
      have := h.counted
      simp only [decide_true, Bool.toNat_true] at hassign
      omega
    · show d ∈ (s.lockConds lid').threads ↔ (Function.update s.pc c gets d).Waits lid'
      by_cases hd : d = c
      · rw [hd, Function.update_self]
        exact iff_of_false (h.out lid') (hgets lid')
      · rw [Function.update_of_ne hd]
        exact h.waits lid' d hd
    · show (s.lockConds lid').Covers (if (s.locks.assign lid.toNat .locked).find lid'.toNat =
        some .locked then 0 else 1)
      rw [find_assign]
      by_cases hne : lid' = lid
      · rw [if_pos hne, if_pos rfl]
        exact .inr (Nat.zero_le _)
      · rw [if_neg hne]
        exact h.covers lid' hne

theorem Inv.setPc {s : LockServer Call} {c : Call} {pc : CallPc} (h : s.Inv)
    (hpc : ∀ lid, pc.Waits lid ↔ (s.pc c).Waits lid) : (s.setPc c pc).Inv := by
  refine ⟨h.counted, h.nodup, fun lid d => (h.waits lid d).trans ?_, h.covers⟩
  show _ ↔ (Function.update s.pc c pc d).Waits lid
  by_cases hd : d = c
  · rw [hd, Function.update_self]
    exact (hpc lid).symm
  · rw [Function.update_of_ne hd]

omit [DecidableEq Call] in
theorem Inv.setCond {s : LockServer Call} {lid : LockId} {cond : Condition Call} (h : s.Inv)
    (hp : cond.threads.Perm (s.lockConds lid).threads) (hcovers : cond.Covers (s.available lid)) :
    (s.setCond lid cond).Inv := by
  refine ⟨h.counted, fun lid' => ?_, fun lid' d => ?_, fun lid' => ?_⟩
  · show (Function.update s.lockConds lid cond lid').threads.Nodup
    by_cases hne : lid' = lid
    · rw [hne, Function.update_self]
      exact hp.nodup_iff.mpr (h.nodup lid)
    · rw [Function.update_of_ne hne]
      exact h.nodup lid'
  · show d ∈ (Function.update s.lockConds lid cond lid').threads ↔ _
    by_cases hne : lid' = lid
    · rw [hne, Function.update_self, hp.mem_iff]
      exact h.waits lid d
    · rw [Function.update_of_ne hne]
      exact h.waits lid' d
  · show (Function.update s.lockConds lid cond lid').Covers (s.available lid')
    by_cases hne : lid' = lid
    · rw [hne, Function.update_self]
      exact hcovers
    · rw [Function.update_of_ne hne]
      exact h.covers lid'

theorem reply_eq_some {s t : LockServer Call} {c : Call} (h : s.reply c = some t) :
    ∃ lid, s.pc c = .granted lid ∧ t = s.setPc c (.holding lid) := by
  unfold LockServer.reply at h
  split at h
  · cases h
    exact ⟨_, ‹_›, rfl⟩
  · cases h

theorem timeout_eq_some {s t : LockServer Call} {c : Call} (h : s.timeout c = some t) :
    (∃ lid, s.pc c = .waiting lid ∧ t = s.setPc c (.abandoned lid)) ∨
      ∃ lid, s.pc c = .granted lid ∧ t = s.setPc c (.lost lid) := by
  unfold LockServer.timeout at h
  split at h
  · cases h
    exact .inl ⟨_, ‹_›, rfl⟩
  · cases h
    exact .inr ⟨_, ‹_›, rfl⟩
  · cases h

theorem release_eq_some {s t : LockServer Call} {lid : LockId} {owner wake : Option Call}
    {r : Status} (h : s.release lid owner wake = some (r, t)) :
    (s.Locked lid ∧ r = .ok ∧ ∃ cond, (s.lockConds lid).signal wake = some cond ∧
      t = { (s.returned lid owner).setCond lid cond with
        locks := s.locks.assign lid.toNat .free
        nacquire := s.nacquire - 1 }) ∨
    (¬ s.Locked lid ∧ r = .noent ∧ t = s) := by
  unfold release at h
  split_ifs at h with hlocked
  · obtain ⟨cond, hcond, heq⟩ := Option.map_eq_some_iff.mp h
    cases heq
    exact .inl ⟨hlocked, rfl, cond, hcond, rfl⟩
  · cases h
    exact .inr ⟨hlocked, rfl, rfl⟩

theorem returned_lockConds (s : LockServer Call) (lid : LockId) (owner : Option Call) :
    (s.returned lid owner).lockConds = s.lockConds := by
  unfold returned
  split
  · split_ifs <;> rfl
  · rfl

/-- A call that has been given the lock does not wait, and no more afterwards. -/
theorem waits_returned (s : LockServer Call) (lid lid' : LockId) (owner : Option Call) (d : Call) :
    ((s.returned lid owner).pc d).Waits lid' ↔ (s.pc d).Waits lid' := by
  unfold returned
  split
  · rename_i c
    split_ifs with hc
    · show (Function.update s.pc c .released d).Waits lid' ↔ _
      by_cases hd : d = c
      · rw [hd, Function.update_self, hc]
        simp [CallPc.Waits]
      · rw [Function.update_of_ne hd]
    · exact Iff.rfl
  · exact Iff.rfl

theorem Inv.release {s t : LockServer Call} {lid : LockId} {owner wake : Option Call} {r : Status}
    (h : s.Inv) (hs : s.release lid owner wake = some (r, t)) : t.Inv := by
  rcases release_eq_some hs with ⟨hlocked, -, cond, hcond, rfl⟩ | ⟨-, -, rfl⟩
  · have hp := Condition.threads_signal hcond
    have hconds := s.returned_lockConds lid owner
    refine ⟨?_, fun lid' => ?_, fun lid' d => ?_, fun lid' => ?_⟩
    · have hassign := s.locks.count_assign (fun v => v = .locked) lid.toNat .free
      have hfind : s.locks.find lid.toNat = some .locked := hlocked
      rw [hfind] at hassign
      simp only [Option.elim_some, decide_true, Bool.toNat_true] at hassign
      show s.nacquire - 1 = ((s.locks.assign lid.toNat .free).count _ : Nat)
      have := h.counted
      have hfree : (decide (PlainState.free = .locked)).toNat = 0 := rfl
      omega
    · show (Function.update (s.returned lid owner).lockConds lid cond lid').threads.Nodup
      by_cases hne : lid' = lid
      · rw [hne, Function.update_self]
        exact hp.nodup_iff.mpr (h.nodup lid)
      · rw [Function.update_of_ne hne, hconds]
        exact h.nodup lid'
    · show d ∈ (Function.update (s.returned lid owner).lockConds lid cond lid').threads ↔
        ((s.returned lid owner).pc d).Waits lid'
      rw [waits_returned, ← h.waits lid' d]
      by_cases hne : lid' = lid
      · rw [hne, Function.update_self]
        exact hp.mem_iff
      · rw [Function.update_of_ne hne, hconds]
    · show (Function.update (s.returned lid owner).lockConds lid cond lid').Covers
        (if (s.locks.assign lid.toNat .free).find lid'.toNat = some .locked then 0 else 1)
      rw [find_assign]
      by_cases hne : lid' = lid
      · rw [hne, Function.update_self, if_pos rfl]
        have hcovers := h.covers lid
        rw [available, if_pos hlocked] at hcovers
        exact hcovers.signal hcond
      · rw [Function.update_of_ne hne, hconds, if_neg hne]
        exact h.covers lid'
  · exact h

theorem Inv.step {s t : LockServer Call} {a : PlainAction Call} (h : s.Inv)
    (hs : s.step a = some t) : t.Inv := by
  cases a with
  | acquire c lid =>
    obtain ⟨hc, ⟨⟩⟩ := Option.ite_none_right_eq_some.mp hs
    have hpc : (s.create lid).pc c = .idle := by
      unfold LockServer.create
      split <;> exact hc
    exact ((h.create lid).ready hpc lid).acquireLoop (by simp [CallPc.Waits, eq_comm])
      (by simp [CallPc.Waits])
  | resume c lid =>
    obtain ⟨hc, ⟨⟩⟩ := Option.ite_none_right_eq_some.mp hs
    refine (h.ready_resume hc).acquireLoop (fun lid' => ?_) fun lid' => ?_
    · rcases (h.waits lid c).mp (List.mem_append_right _ hc) with hw | hw <;> rw [hw] <;>
        simp [CallPc.Waits, eq_comm]
    · split_ifs <;> simp [CallPc.Waits]
  | reply c =>
    obtain ⟨lid, hc, rfl⟩ := reply_eq_some hs
    exact h.setPc fun lid' => by simp [CallPc.Waits, hc]
  | timeout c =>
    rcases timeout_eq_some hs with ⟨lid, hc, rfl⟩ | ⟨lid, hc, rfl⟩
    · exact h.setPc fun lid' => by simp [CallPc.Waits, hc]
    · exact h.setPc fun lid' => by simp [CallPc.Waits, hc]
  | release lid owner wake =>
    obtain ⟨⟨r, t⟩, hr, rfl⟩ := Option.map_eq_some_iff.mp hs
    exact h.release hr
  | spurious c lid =>
    obtain ⟨hc, ⟨⟩⟩ := Option.ite_none_right_eq_some.mp hs
    exact h.setCond (Condition.threads_wake hc) ((h.covers lid).wake c)

/-- No call is left waiting for a lock that is free.  There is a call with a woken thread, which
takes the lock in its next step.  And `nacquire` is the number of locks that are taken. -/
structure Live (s : LockServer Call) : Prop where
  counted : s.nacquire = s.locks.count fun v => v = .locked
  served : ∀ lid c, (s.pc c).Waits lid → ¬ s.Locked lid →
    ∃ d t, s.step (.resume d lid) = some t ∧ (s.pc d).Waits lid ∧ (t.pc d).Owns lid

theorem Inv.live {s : LockServer Call} (h : s.Inv) : s.Live where
  counted := h.counted
  served := fun lid c hc hfree => by
    obtain ⟨d, hd⟩ : ∃ d, d ∈ (s.lockConds lid).woken := by
      rcases List.mem_append.mp ((h.waits lid c).mpr hc) with hasleep | hwoken
      · have hcovers := h.covers lid
        rw [available, if_neg hfree] at hcovers
        exact hcovers.exists_woken Nat.one_pos hasleep
      · exact ⟨c, hwoken⟩
    refine ⟨d, _, if_pos hd, (h.waits lid d).mp (List.mem_append_right _ hd), ?_⟩
    unfold acquireLoop
    rw [if_neg (show ¬ (s.setCond lid ((s.lockConds lid).resume d)).Locked lid from hfree)]
    show (Function.update s.pc d _ d).Owns lid
    rw [Function.update_self]
    split_ifs
    · exact .inr (.inr rfl)
    · exact .inl rfl

/-- For every order of the calls, replies, time-outs, releases (by whomever) and wake-ups. -/
theorem live_alongRun (actions : List (PlainAction Call)) :
    system.AlongRun Live new actions :=
  (System.StepsMeet.alongRun (fun _ _ _ h _ hs => h.step hs) inv_new
    (System.stepsMeet_of_forall (fun _ _ => trivial) _ _)).mono fun _ h => h.live

/-! ## Exclusion -/

/-- A lock is given back by a client that has it. -/
def Honest (s : LockServer Call) : PlainAction Call → Prop
  | .release lid owner _ => ∃ c, owner = some c ∧ s.pc c = .holding lid
  | _ => True

instance (s : LockServer Call) (lid : LockId) (owner : Option Call) :
    Decidable (∃ c, owner = some c ∧ s.pc c = .holding lid) :=
  match owner with
  | some c => decidable_of_iff (s.pc c = .holding lid)
      ⟨fun h => ⟨c, rfl, h⟩, fun ⟨_, heq, h⟩ => Option.some.inj heq ▸ h⟩
  | none => isFalse fun ⟨_, heq, _⟩ => by cases heq

instance (s : LockServer Call) : DecidablePred s.Honest
  | .release lid owner _ =>
    inferInstanceAs (Decidable (∃ c, owner = some c ∧ s.pc c = .holding lid))
  | .acquire _ _ | .resume _ _ | .reply _ | .timeout _ | .spurious _ _ => isTrue trivial

/-- No lock was given to two calls, and a lock is taken exactly when it was given to one. -/
structure Exclusive (s : LockServer Call) : Prop where
  one : ∀ lid c d, (s.pc c).Owns lid → (s.pc d).Owns lid → c = d
  locked : ∀ lid, s.Locked lid ↔ ∃ c, (s.pc c).Owns lid

theorem not_owns_of_waits {pc : CallPc} {lid : LockId} (h : pc.Waits lid) (lid' : LockId) :
    ¬ pc.Owns lid' := by
  rcases h with rfl | rfl <;> simp [CallPc.Owns]

omit [DecidableEq Call] in
/-- What counts is which locks are taken, and which calls they were given to. -/
theorem Exclusive.of_eq {s t : LockServer Call} (h : s.Exclusive)
    (hlocked : ∀ lid, t.Locked lid ↔ s.Locked lid)
    (howns : ∀ lid c, (t.pc c).Owns lid ↔ (s.pc c).Owns lid) : t.Exclusive where
  one := fun lid c d hc hd => h.one lid c d ((howns lid c).mp hc) ((howns lid d).mp hd)
  locked := fun lid => (hlocked lid).trans ((h.locked lid).trans (by simp only [howns]))

theorem Exclusive.setPc {s : LockServer Call} {c : Call} {pc : CallPc} (h : s.Exclusive)
    (hpc : ∀ lid, pc.Owns lid ↔ (s.pc c).Owns lid) : (s.setPc c pc).Exclusive := by
  refine h.of_eq (fun _ => Iff.rfl) fun lid d => ?_
  show (Function.update s.pc c pc d).Owns lid ↔ _
  by_cases hd : d = c
  · rw [hd, Function.update_self]
    exact hpc lid
  · rw [Function.update_of_ne hd]

/-- A call that has no lock waits, or gets a lock that no other call has. -/
theorem Exclusive.acquireLoop {s : LockServer Call} {c : Call} {lid : LockId}
    {waits gets : CallPc} (h : s.Exclusive) (hc : ∀ lid', ¬ (s.pc c).Owns lid')
    (hwaits : ∀ lid', ¬ waits.Owns lid') (hgets : ∀ lid', gets.Owns lid' ↔ lid' = lid) :
    (s.acquireLoop c lid waits gets).Exclusive := by
  unfold LockServer.acquireLoop
  split_ifs with hlocked
  · have hset : (s.setCond lid ((s.lockConds lid).wait c)).Exclusive :=
      h.of_eq (fun _ => Iff.rfl) fun _ _ => Iff.rfl
    exact hset.setPc fun lid' => iff_of_false (hwaits lid') (hc lid')
  · have hnone : ∀ d, ¬ (s.pc d).Owns lid := fun d hd => hlocked ((h.locked lid).mpr ⟨d, hd⟩)
    have howns : ∀ lid' d, (Function.update s.pc c gets d).Owns lid' ↔
        d = c ∧ lid' = lid ∨ d ≠ c ∧ (s.pc d).Owns lid' := by
      intro lid' d
      by_cases hd : d = c
      · rw [hd, Function.update_self, hgets]
        simp
      · rw [Function.update_of_ne hd]
        simp [hd]
    constructor
    · intro lid' d e hd he
      rcases (howns lid' d).mp hd with ⟨hdc, hlid⟩ | ⟨-, hd⟩
      · rcases (howns lid' e).mp he with ⟨hec, -⟩ | ⟨-, he⟩
        · rw [hdc, hec]
        · exact absurd (hlid ▸ he) (hnone e)
      · rcases (howns lid' e).mp he with ⟨-, hlid⟩ | ⟨-, he⟩
        · exact absurd (hlid ▸ hd) (hnone d)
        · exact h.one lid' d e hd he
    · intro lid'
      show (s.locks.assign lid.toNat .locked).find lid'.toNat = some .locked ↔
        ∃ d, (Function.update s.pc c gets d).Owns lid'
      rw [find_assign]
      by_cases hne : lid' = lid
      · rw [if_pos hne]
        exact iff_of_true rfl ⟨c, (howns lid' c).mpr (.inl ⟨rfl, hne⟩)⟩
      · rw [if_neg hne]
        refine (h.locked lid').trans (exists_congr fun d => ?_)
        rw [howns]
        constructor
        · exact fun hd => .inr ⟨fun heq => hc lid' (heq ▸ hd), hd⟩
        · rintro (⟨-, heq⟩ | ⟨-, hd⟩)
          · exact absurd heq hne
          · exact hd

theorem Exclusive.release {s t : LockServer Call} {lid : LockId} {c : Call}
    {wake : Option Call} {r : Status} (h : s.Exclusive) (hc : s.pc c = .holding lid)
    (hs : s.release lid (some c) wake = some (r, t)) : t.Exclusive := by
  have howner : (s.pc c).Owns lid := .inr (.inl hc)
  have hlocked : s.Locked lid := (h.locked lid).mpr ⟨c, howner⟩
  rcases release_eq_some hs with ⟨-, -, cond, -, rfl⟩ | ⟨hno, -, -⟩
  · have hpc : (s.returned lid (some c)).pc = Function.update s.pc c .released := by
      show (if s.pc c = .holding lid then s.setPc c .released else s).pc = _
      rw [if_pos hc]
      rfl
    have howns : ∀ lid' d, (Function.update s.pc c .released d).Owns lid' ↔
        d ≠ c ∧ (s.pc d).Owns lid' := by
      intro lid' d
      by_cases hd : d = c
      · rw [hd, Function.update_self]
        simp [CallPc.Owns]
      · rw [Function.update_of_ne hd]
        simp [hd]
    constructor
    · intro lid' d e hd he
      change ((s.returned lid (some c)).pc d).Owns lid' at hd
      change ((s.returned lid (some c)).pc e).Owns lid' at he
      rw [hpc, howns] at hd he
      exact h.one lid' d e hd.2 he.2
    · intro lid'
      show (s.locks.assign lid.toNat .free).find lid'.toNat = some .locked ↔
        ∃ d, ((s.returned lid (some c)).pc d).Owns lid'
      simp only [hpc, howns, find_assign]
      by_cases hne : lid' = lid
      · rw [if_pos hne, hne]
        refine iff_of_false (by simp) ?_
        rintro ⟨d, hd, hd'⟩
        exact hd (h.one lid d c hd' howner)
      · rw [if_neg hne]
        refine (h.locked lid').trans (exists_congr fun d => (and_iff_right_of_imp ?_).symm)
        rintro hd rfl
        rw [hc] at hd
        rcases hd with hd | hd | hd
        · cases hd
        · cases hd
          exact hne rfl
        · cases hd
  · exact absurd hlocked hno

theorem Exclusive.step {s t : LockServer Call} {a : PlainAction Call} (hinv : s.Inv)
    (h : s.Exclusive) (hok : s.Honest a) (hs : s.step a = some t) : t.Exclusive := by
  cases a with
  | acquire c lid =>
    obtain ⟨hc, ⟨⟩⟩ := Option.ite_none_right_eq_some.mp hs
    have hpc : (s.create lid).pc = s.pc := by
      unfold LockServer.create
      split <;> rfl
    have hcreate : (s.create lid).Exclusive :=
      h.of_eq (s.locked_create lid) fun lid' d => by rw [hpc]
    refine hcreate.acquireLoop (fun lid' => ?_) (by simp [CallPc.Owns])
      (by simp [CallPc.Owns, eq_comm])
    rw [hpc, hc]
    simp [CallPc.Owns]
  | resume c lid =>
    obtain ⟨hc, ⟨⟩⟩ := Option.ite_none_right_eq_some.mp hs
    have hwaits := (hinv.waits lid c).mp (List.mem_append_right _ hc)
    have hset : (s.setCond lid ((s.lockConds lid).resume c)).Exclusive :=
      h.of_eq (fun _ => Iff.rfl) fun _ _ => Iff.rfl
    refine hset.acquireLoop (not_owns_of_waits hwaits) (not_owns_of_waits hwaits) fun lid' => ?_
    split_ifs <;> simp [CallPc.Owns, eq_comm]
  | reply c =>
    obtain ⟨lid, hc, rfl⟩ := reply_eq_some hs
    exact h.setPc fun lid' => by simp [CallPc.Owns, hc]
  | timeout c =>
    rcases timeout_eq_some hs with ⟨lid, hc, rfl⟩ | ⟨lid, hc, rfl⟩
    · exact h.setPc fun lid' => by simp [CallPc.Owns, hc]
    · exact h.setPc fun lid' => by simp [CallPc.Owns, hc]
  | release lid owner wake =>
    obtain ⟨⟨r, t⟩, hr, rfl⟩ := Option.map_eq_some_iff.mp hs
    obtain ⟨c, rfl, hc⟩ := hok
    exact h.release hc hr
  | spurious c lid =>
    obtain ⟨-, ⟨⟩⟩ := Option.ite_none_right_eq_some.mp hs
    exact h.of_eq (fun _ => Iff.rfl) fun _ _ => Iff.rfl

omit [DecidableEq Call] in
theorem exclusive_new : (new : LockServer Call).Exclusive where
  one := fun lid c d hc => by
    rcases hc with hc | hc | hc <;> cases hc
  locked := fun lid => by
    refine iff_of_false (fun h => by cases h) ?_
    rintro ⟨c, hc | hc | hc⟩ <;> cases hc

theorem both_alongRun {s : LockServer Call} {actions : List (PlainAction Call)} (hinv : s.Inv)
    (hexclusive : s.Exclusive) (hhonest : system.StepsMeet Honest s actions) :
    system.AlongRun (fun s => s.Inv ∧ s.Exclusive) s actions :=
  hhonest.alongRun (P := fun s => s.Inv ∧ s.Exclusive)
    (fun _ _ _ h hok hs => ⟨h.1.step hs, h.2.step h.1 hok hs⟩) ⟨hinv, hexclusive⟩

/-- If locks are released by clients that have them only, no lock is given to two calls at a time,
whatever times out. -/
theorem exclusive_alongRun (actions : List (PlainAction Call))
    (hhonest : system.StepsMeet Honest new actions) :
    system.AlongRun Exclusive new actions :=
  (both_alongRun inv_new exclusive_new hhonest).mono fun _ h => h.2

/-- Call 1 times out while it waits behind call 0, and then gets the lock. -/
def lateGrant : List (PlainAction Nat) :=
  [.acquire 0 5, .acquire 1 5, .reply 0, .timeout 1, .release 5 (some 0) (some 1), .resume 1 5]

theorem exclusive_alongRun_lateGrant :
    (system.run new lateGrant).isSome = true ∧ system.AlongRun Exclusive new lateGrant :=
  ⟨by decide +kernel, exclusive_alongRun lateGrant (by decide +kernel)⟩

theorem acquireLoop_pc_ne (s : LockServer Call) {c d : Call} (lid : LockId) (waits gets : CallPc)
    (hd : d ≠ c) : (s.acquireLoop c lid waits gets).pc d = s.pc d := by
  unfold LockServer.acquireLoop
  split_ifs <;> exact Function.update_of_ne hd _ _

theorem Inv.step_lost {s t : LockServer Call} {a : PlainAction Call} {c : Call} {lid : LockId}
    (h : s.Inv) (hc : s.pc c = .lost lid) (hs : s.step a = some t) : t.pc c = .lost lid := by
  have hne : ∀ d, s.pc d ≠ .lost lid → c ≠ d := by
    rintro d hd rfl
    exact hd hc
  cases a with
  | acquire d lid' =>
    obtain ⟨hd, ⟨⟩⟩ := Option.ite_none_right_eq_some.mp hs
    rw [acquireLoop_pc_ne _ _ _ _ (hne d (by rw [hd]; simp))]
    unfold LockServer.create
    split <;> exact hc
  | resume d lid' =>
    obtain ⟨hd, ⟨⟩⟩ := Option.ite_none_right_eq_some.mp hs
    have hwaits := (h.waits lid' d).mp (List.mem_append_right _ hd)
    have hlost : s.pc d ≠ .lost lid := fun hlost =>
      not_owns_of_waits hwaits lid (.inr (.inr hlost))
    rw [acquireLoop_pc_ne _ _ _ _ (hne d hlost)]
    exact hc
  | reply d =>
    obtain ⟨lid', hd, rfl⟩ := reply_eq_some hs
    exact (Function.update_of_ne (hne d (by rw [hd]; simp)) _ _).trans hc
  | timeout d =>
    rcases timeout_eq_some hs with ⟨lid', hd, rfl⟩ | ⟨lid', hd, rfl⟩ <;>
      exact (Function.update_of_ne (hne d (by rw [hd]; simp)) _ _).trans hc
  | release lid' owner wake =>
    obtain ⟨⟨r, t⟩, hr, rfl⟩ := Option.map_eq_some_iff.mp hs
    rcases release_eq_some hr with ⟨-, -, cond, -, rfl⟩ | ⟨-, -, rfl⟩
    · show (s.returned lid' owner).pc c = _
      unfold returned
      split
      · rename_i d
        split_ifs with hd
        · exact (Function.update_of_ne (hne d (by rw [hd]; simp)) _ _).trans hc
        · exact hc
      · exact hc
    · exact hc
  | spurious d lid' =>
    obtain ⟨-, ⟨⟩⟩ := Option.ite_none_right_eq_some.mp hs
    exact hc

/-- The lock is with a call whose client has given up.  It stays there: the lock is never given to
anybody again. -/
theorem lost_for_good (before after : List (PlainAction Call)) (s : LockServer Call) (c : Call)
    (lid : LockId) (hbefore : system.StepsMeet Honest new before)
    (hs : system.run new before = some s) (hlost : s.pc c = .lost lid)
    (hafter : system.StepsMeet Honest s after) :
    system.AlongRun (fun t => t.pc c = .lost lid ∧ t.Locked lid ∧
      ∀ d, (t.pc d).Owns lid → d = c) s after := by
  obtain ⟨hinv, hexclusive⟩ := (both_alongRun inv_new exclusive_new hbefore).run hs
  have hlost' : system.AlongRun (fun t => (t.Inv ∧ t.Exclusive) ∧ t.pc c = .lost lid) s after :=
    hafter.alongRun (P := fun t => (t.Inv ∧ t.Exclusive) ∧ t.pc c = .lost lid)
      (fun _ _ _ h hok hs =>
        ⟨⟨h.1.1.step hs, h.1.2.step h.1.1 hok hs⟩, h.1.1.step_lost h.2 hs⟩)
      ⟨⟨hinv, hexclusive⟩, hlost⟩
  refine hlost'.mono fun t h => ?_
  have howns : (t.pc c).Owns lid := .inr (.inr h.2)
  exact ⟨h.2, (h.1.2.locked lid).mpr ⟨c, howns⟩, fun d hd => h.1.2.one lid d c hd howns⟩

/-- Call 2 asks for the lock afterwards. -/
theorem lost_for_good_lateGrant :
    system.AlongRun (fun t => t.pc 1 = .lost 5 ∧ t.Locked 5 ∧ ∀ d, (t.pc d).Owns 5 → d = 1)
      (system.final new lateGrant) [.acquire 2 5, .spurious 2 5, .resume 2 5] :=
  lost_for_good lateGrant _ _ 1 5 (by decide +kernel)
    (System.run_eq_some_final (by decide +kernel)) (by decide +kernel) (by decide +kernel)

end LockServer
end Lock
end Frangipani
