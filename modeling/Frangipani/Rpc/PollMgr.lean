/-
The thread that calls the callbacks (`PollMgr` of `rpc/pollmgr.cc`).

One thread waits in `SelectAIO` and calls the callbacks of the descriptors that are
ready.  Other threads register callbacks and remove them.  They do so under `m_`, but
the loop reads the table without it, since a callback may take long.  So a change is
made in steps that the loop can fall between: `add_callback` watches the descriptor
before the table has its callback, and `del_callback` clears the table afterwards.

`block_remove_fd` must not return while a callback of the descriptor runs or is still to
be called, since the caller then frees it.  It takes the descriptor out of the sets and
waits until the loop comes to its head.  What the loop has collected by then is done
with, and the next `select` no longer looks at the descriptor.  The wait is not in a
loop, so this needs that there are no spurious wake-ups.

The table has room for `MAX_POLL_FDS` callbacks, and only `add_callback` looks at that
bound.  The table here is a function.
-/
import Mathlib.Logic.Function.Basic
import Frangipani.Concurrency.Condition
import Frangipani.Rpc.Poll

universe u

namespace Frangipani
namespace Rpc

open Concurrency Transition

/-- `MAX_POLL_FDS` -/
def maxPollFds : Nat := 128

/-- The two methods of `aio_callback`. -/
inductive CallbackKind
  | read
  | write
  deriving DecidableEq, Repr

/-- Where the loop is: at its head, in `wait_ready`, before the next descriptor of its lists, after
the test that there is a callback, or in the callback. -/
inductive LoopPc (Ch : Type u)
  | top
  | waiting
  | delivering (readable writable : List Nat)
  | checked (kind : CallbackKind) (fd : Nat) (readable writable : List Nat)
  | calling (kind : CallbackKind) (fd : Nat) (ch : Ch) (readable writable : List Nat)
  | crashed

/-- What the thread that has `m_` is at, between two steps.  `del_callback` may be called by a
callback, which then cannot return before it. -/
inductive MgrCall (Ch : Type u)
  | adding (fd : Nat) (ch : Ch)
  | deleting (fd : Nat) (unwatched onLoop : Bool)
  | removing (fd : Nat)

/-- `changedone` has the descriptors of the calls of `block_remove_fd` that wait. -/
structure PollMgr (Ch : Type u) where
  polling : Polling
  callbacks : Nat → Option Ch
  pendingChange : Bool
  changedone : Condition Nat
  holder : Option (MgrCall Ch)
  pc : LoopPc Ch

/-- The last seven are the steps of the loop, and `spurious` is a wake-up without a broadcast. -/
inductive MgrAction (Ch : Type u)
  | addWatch (fd : Nat) (flag : PollFlag) (ch : Ch)
  | addSet
  | delUnwatch (onLoop : Bool) (fd : Nat) (flag : PollFlag)
  | delClear
  | removeUnwatch (fd : Nat)
  | removeWait
  | removeReturn (fd : Nat)
  | spurious (fd : Nat)
  | loopTop
  | waitStart
  | waitReturn (canRead canWrite : Finset Nat)
  | waitInterrupted
  | check
  | call
  | callbackReturn

namespace LoopPc

variable {Ch : Type u}

/-- The call through the table.  The entry is read for a second time. -/
def enter (kind : CallbackKind) (fd : Nat) (readable writable : List Nat) : Option Ch → LoopPc Ch
  | some ch => .calling kind fd ch readable writable
  | none => .crashed

/-- The descriptors whose callbacks run or may still be called in this round. -/
def Mentions (fd : Nat) : LoopPc Ch → Prop
  | .delivering readable writable => fd ∈ readable ∨ fd ∈ writable
  | .checked _ f readable writable => fd = f ∨ fd ∈ readable ∨ fd ∈ writable
  | .calling _ f _ readable writable => fd = f ∨ fd ∈ readable ∨ fd ∈ writable
  | .top | .waiting | .crashed => False

/-- A callback of the descriptor runs. -/
def Runs (fd : Nat) : LoopPc Ch → Prop
  | .calling _ f _ _ _ => f = fd
  | .top | .waiting | .delivering _ _ | .checked _ _ _ _ | .crashed => False

instance (fd : Nat) : DecidablePred fun pc : LoopPc Ch => pc.Runs fd
  | .calling _ f _ _ _ => inferInstanceAs (Decidable (f = fd))
  | .top | .waiting | .delivering _ _ | .checked _ _ _ _ | .crashed => isFalse id

theorem Runs.mentions {pc : LoopPc Ch} {fd : Nat} (h : pc.Runs fd) : pc.Mentions fd := by
  cases pc with
  | calling kind f ch readable writable => exact .inl h.symm
  | top => exact h
  | waiting => exact h
  | delivering readable writable => cases h
  | checked kind f readable writable => cases h
  | crashed => exact h

end LoopPc

namespace MgrAction

variable {Ch : Type u}

/-- The step is the first of an `add_callback` for the descriptor. -/
def Adds (fd : Nat) : MgrAction Ch → Prop
  | .addWatch i _ _ => i = fd
  | _ => False

instance (fd : Nat) : DecidablePred fun a : MgrAction Ch => a.Adds fd
  | .addWatch i _ _ => inferInstanceAs (Decidable (i = fd))
  | .addSet | .delUnwatch _ _ _ | .delClear | .removeUnwatch _ | .removeWait | .removeReturn _
  | .spurious _ | .loopTop | .waitStart | .waitReturn _ _ | .waitInterrupted | .check | .call
  | .callbackReturn => isFalse id

/-- The step is one of the loop. -/
def ofLoop : MgrAction Ch → Bool
  | .loopTop | .waitStart | .waitReturn _ _ | .waitInterrupted | .check | .call
  | .callbackReturn => true
  | .addWatch _ _ _ | .addSet | .delUnwatch _ _ _ | .delClear | .removeUnwatch _ | .removeWait
  | .removeReturn _ | .spurious _ => false

end MgrAction

namespace SelectAio

/-! What the calls do to the descriptors that are watched. -/

theorem watched_watchFd (s : SelectAio) (fd : Nat) (flag : PollFlag) (i : Nat) :
    (s.watchFd fd flag).Watched i ↔ i = fd ∨ s.Watched i :=
  watched_set _ fd flag i

theorem Shrinks.watched {s t : SelectAio} (h : Shrinks s t) {fd : Nat} (hfd : t.Watched fd) :
    s.Watched fd :=
  hfd.imp (fun hr => h.rfds hr) (fun hw => h.wfds hw)

theorem unwatchFd_result {s t : SelectAio} {fd : Nat} {flag : PollFlag} {r : Bool}
    (h : s.unwatchFd fd flag = some (r, t)) : r = true ↔ ¬ t.Watched fd := by
  obtain ⟨cleared, -, heq⟩ := Option.map_eq_some_iff.mp h
  cases heq
  rw [decide_eq_true_iff, Watched, not_or]

theorem watched_unwatchFd {s t : SelectAio} {fd i : Nat} {flag : PollFlag} {r : Bool}
    (h : s.unwatchFd fd flag = some (r, t)) (hi : i ≠ fd) : t.Watched i ↔ s.Watched i := by
  obtain ⟨cleared, hclear, heq⟩ := Option.map_eq_some_iff.mp h
  cases heq
  obtain ⟨-, -, hr, hw, -⟩ := clear_eq_some hclear
  have hrescan : (cleared.rescan fd).Watched i ↔ cleared.Watched i := by
    unfold SelectAio.rescan
    split_ifs <;> rfl
  have hwake : ((cleared.rescan fd).wake flag).Watched i ↔ (cleared.rescan fd).Watched i := by
    unfold SelectAio.wake
    split_ifs <;> rfl
  rw [hwake, hrescan, Watched, Watched, hr i hi, hw i hi]

/-- With both flags the descriptor leaves both sets, and a byte is put into the pipe. -/
theorem unwatchFd_rdwr {s t : SelectAio} {fd : Nat} {r : Bool}
    (h : s.unwatchFd fd .rdwr = some (r, t)) : ¬ t.Watched fd ∧ t.wakeups = s.wakeups + 1 := by
  obtain ⟨cleared, hclear, heq⟩ := Option.map_eq_some_iff.mp h
  cases heq
  cases hclear
  unfold SelectAio.rescan
  split_ifs <;> simp [SelectAio.wake, Watched]

end SelectAio

theorem Waiting.subset_collect {w : Waiting} {pipe fd : Nat} {canRead canWrite : Finset Nat} :
    (fd ∈ (w.collect pipe canRead canWrite).1 → fd ∈ w.trfds) ∧
      (fd ∈ (w.collect pipe canRead canWrite).2 → fd ∈ w.twfds) := by
  simp only [Waiting.collect, Waiting.selected, List.mem_filter, Finset.mem_filter,
    decide_eq_true_eq]
  tauto

namespace PollMgr

variable {Ch : Type u}

/-- The constructor, with the descriptors that `pipe` has returned. -/
def new (pipefd : Nat × Nat) : PollMgr Ch where
  polling := .new pipefd
  callbacks := fun _ => none
  pendingChange := false
  changedone := .empty
  holder := none
  pc := .top

/-! ## The calls -/

/-- The first half of `add_callback`. -/
def addWatch (s : PollMgr Ch) (fd : Nat) (flag : PollFlag) (ch : Ch) : Option (PollMgr Ch) :=
  if s.holder.isNone ∧ fd < maxPollFds then
    some { s with
      polling := { s.polling with aio := s.polling.aio.watchFd fd flag }
      holder := some (.adding fd ch) }
  else none

/-- The second half.  The assertion fails when the descriptor has another callback. -/
def addSet [DecidableEq Ch] (s : PollMgr Ch) : Option (PollMgr Ch) :=
  match s.holder with
  | some (.adding fd ch) =>
    if s.callbacks fd = none ∨ s.callbacks fd = some ch then
      some { s with callbacks := Function.update s.callbacks fd (some ch), holder := none }
    else none
  | _ => none

/-- The first half of `del_callback`. -/
def delUnwatch (s : PollMgr Ch) (onLoop : Bool) (fd : Nat) (flag : PollFlag) :
    Option (PollMgr Ch) :=
  if s.holder.isNone then
    (s.polling.aio.unwatchFd fd flag).map fun r =>
      { s with
        polling := { s.polling with aio := r.2 }
        holder := some (.deleting fd r.1 onLoop) }
  else none

def delClear (s : PollMgr Ch) : Option (PollMgr Ch) :=
  match s.holder with
  | some (.deleting fd unwatched _) =>
    some { s with
      callbacks := if unwatched then Function.update s.callbacks fd none else s.callbacks
      holder := none }
  | _ => none

/-- `block_remove_fd` up to the change of the flag. -/
def removeUnwatch (s : PollMgr Ch) (fd : Nat) : Option (PollMgr Ch) :=
  if s.holder.isNone then
    (s.polling.aio.unwatchFd fd .rdwr).map fun r =>
      { s with
        polling := { s.polling with aio := r.2 }
        holder := some (.removing fd) }
  else none

/-- The wait gives `m_` free. -/
def removeWait (s : PollMgr Ch) : Option (PollMgr Ch) :=
  match s.holder with
  | some (.removing fd) =>
    some { s with pendingChange := true, changedone := s.changedone.wait fd, holder := none }
  | _ => none

/-- The rest of `block_remove_fd`, when the wait has `m_` again. -/
def removeReturn (s : PollMgr Ch) (fd : Nat) : Option (PollMgr Ch) :=
  if s.holder.isNone ∧ fd ∈ s.changedone.woken then
    some { s with
      changedone := s.changedone.resume fd
      callbacks := Function.update s.callbacks fd none }
  else none

def spurious (s : PollMgr Ch) (fd : Nat) : Option (PollMgr Ch) :=
  if fd ∈ s.changedone.asleep then some { s with changedone := s.changedone.wake fd } else none

/-! ## The loop -/

/-- What the loop does under `m_`. -/
def announce (s : PollMgr Ch) : PollMgr Ch :=
  if s.pendingChange then
    { s with pendingChange := false, changedone := s.changedone.broadcast, pc := .waiting }
  else { s with pc := .waiting }

def loopTop (s : PollMgr Ch) : Option (PollMgr Ch) :=
  match s.pc, s.holder with
  | .top, none => some s.announce
  | _, _ => none

/-- `wait_ready` takes a copy of the sets. -/
def waitStart (s : PollMgr Ch) : Option (PollMgr Ch) :=
  match s.pc with
  | .waiting => (s.polling.step .waitStart).map fun p => { s with polling := p }
  | _ => none

/-- `wait_ready` returns with its lists. -/
def waitReturn (s : PollMgr Ch) (canRead canWrite : Finset Nat) : Option (PollMgr Ch) :=
  match s.pc, s.polling.waiting with
  | .waiting, some w =>
    (s.polling.waitReturn w canRead canWrite).map fun p =>
      { s with
        polling := p
        pc := .delivering (w.collect s.polling.aio.pipefd.1 canRead canWrite).1
          (w.collect s.polling.aio.pipefd.1 canRead canWrite).2 }
  | _, _ => none

/-- `select` is interrupted, and the lists are empty. -/
def waitInterrupted (s : PollMgr Ch) : Option (PollMgr Ch) :=
  match s.pc with
  | .waiting =>
    (s.polling.step .waitInterrupted).map fun p => { s with polling := p, pc := .delivering [] [] }
  | _ => none

/-- The test for one descriptor, where `rest` is what is left of the lists. -/
def test (s : PollMgr Ch) (kind : CallbackKind) (fd : Nat) (readable writable : List Nat) :
    LoopPc Ch :=
  if (s.callbacks fd).isSome then .checked kind fd readable writable
  else .delivering readable writable

/-- The two `for` loops, first those to read from. -/
def check (s : PollMgr Ch) : Option (PollMgr Ch) :=
  match s.pc with
  | .delivering (fd :: readable) writable => some { s with pc := s.test .read fd readable writable }
  | .delivering [] (fd :: writable) => some { s with pc := s.test .write fd [] writable }
  | .delivering [] [] => some { s with pc := .top }
  | _ => none

def call (s : PollMgr Ch) : Option (PollMgr Ch) :=
  match s.pc with
  | .checked kind fd readable writable =>
    some { s with pc := .enter kind fd readable writable (s.callbacks fd) }
  | _ => none

/-- A callback that has called `del_callback` does not return before it. -/
def callbackReturn (s : PollMgr Ch) : Option (PollMgr Ch) :=
  match s.pc, s.holder with
  | .calling _ _ _ _ _, some (.deleting _ _ true) => none
  | .calling _ _ _ readable writable, _ => some { s with pc := .delivering readable writable }
  | _, _ => none

def step [DecidableEq Ch] (s : PollMgr Ch) : MgrAction Ch → Option (PollMgr Ch)
  | .addWatch fd flag ch => s.addWatch fd flag ch
  | .addSet => s.addSet
  | .delUnwatch onLoop fd flag => s.delUnwatch onLoop fd flag
  | .delClear => s.delClear
  | .removeUnwatch fd => s.removeUnwatch fd
  | .removeWait => s.removeWait
  | .removeReturn fd => s.removeReturn fd
  | .spurious fd => s.spurious fd
  | .loopTop => s.loopTop
  | .waitStart => s.waitStart
  | .waitReturn canRead canWrite => s.waitReturn canRead canWrite
  | .waitInterrupted => s.waitInterrupted
  | .check => s.check
  | .call => s.call
  | .callbackReturn => s.callbackReturn

def system (Ch : Type u) [DecidableEq Ch] (pipefd : Nat × Nat) :
    System (PollMgr Ch) (MgrAction Ch) where
  init s := s = new pipefd
  step := step

/-- How the connections use it.  No call is on a descriptor of the pipe.  A callback deletes the
descriptor that it is called for, and nobody else deletes one.  A descriptor gets no callback while
it is being removed.  There are no spurious wake-ups. -/
def Proper (s : PollMgr Ch) : MgrAction Ch → Prop
  | .addWatch fd flag _ => s.polling.NotPipe (.watchFd fd flag) ∧ fd ∉ s.changedone.threads
  | .delUnwatch onLoop fd flag =>
    s.polling.NotPipe (.unwatchFd fd flag) ∧ onLoop = true ∧ s.pc.Runs fd
  | .removeUnwatch fd => s.polling.NotPipe (.unwatchFd fd .rdwr)
  | .spurious _ => False
  | .addSet | .delClear | .removeWait | .removeReturn _ | .loopTop | .waitStart | .waitReturn _ _
  | .waitInterrupted | .check | .call | .callbackReturn => True

instance (s : PollMgr Ch) : DecidablePred s.Proper
  | .addWatch _ _ _ => inferInstanceAs (Decidable (_ ∧ _))
  | .delUnwatch _ _ _ => inferInstanceAs (Decidable (_ ∧ _ ∧ _))
  | .removeUnwatch fd => inferInstanceAs (Decidable (s.polling.NotPipe (.unwatchFd fd .rdwr)))
  | .spurious _ => isFalse id
  | .addSet | .delClear | .removeWait | .removeReturn _ | .loopTop | .waitStart | .waitReturn _ _
  | .waitInterrupted | .check | .call | .callbackReturn => isTrue trivial

/-! ## What a step does -/

section Inversion

variable {s t : PollMgr Ch}

theorem addWatch_eq_some {fd : Nat} {flag : PollFlag} {ch : Ch}
    (h : s.addWatch fd flag ch = some t) : s.holder = none ∧ fd < maxPollFds ∧
      t = { s with
        polling := { s.polling with aio := s.polling.aio.watchFd fd flag }
        holder := some (.adding fd ch) } := by
  obtain ⟨⟨hholder, hfd⟩, heq⟩ := Option.ite_none_right_eq_some.mp h
  cases heq
  exact ⟨Option.isNone_iff_eq_none.mp hholder, hfd, rfl⟩

theorem addSet_eq_some [DecidableEq Ch] (h : s.addSet = some t) :
    ∃ fd ch, s.holder = some (.adding fd ch) ∧
      t = { s with callbacks := Function.update s.callbacks fd (some ch), holder := none } := by
  unfold addSet at h
  split at h
  · obtain ⟨-, ⟨⟩⟩ := Option.ite_none_right_eq_some.mp h
    exact ⟨_, _, ‹_›, rfl⟩
  · cases h

theorem delUnwatch_eq_some {onLoop : Bool} {fd : Nat} {flag : PollFlag}
    (h : s.delUnwatch onLoop fd flag = some t) : s.holder = none ∧
      ∃ r aio, s.polling.aio.unwatchFd fd flag = some (r, aio) ∧
        t = { s with
          polling := { s.polling with aio := aio }
          holder := some (.deleting fd r onLoop) } := by
  obtain ⟨hholder, hmap⟩ := Option.ite_none_right_eq_some.mp h
  obtain ⟨⟨r, aio⟩, haio, heq⟩ := Option.map_eq_some_iff.mp hmap
  exact ⟨Option.isNone_iff_eq_none.mp hholder, r, aio, haio, heq.symm⟩

theorem delClear_eq_some (h : s.delClear = some t) :
    ∃ fd r b, s.holder = some (.deleting fd r b) ∧
      t = { s with
        callbacks := if r then Function.update s.callbacks fd none else s.callbacks
        holder := none } := by
  unfold delClear at h
  split at h
  · cases h
    exact ⟨_, _, _, ‹_›, rfl⟩
  · cases h

theorem removeUnwatch_eq_some {fd : Nat} (h : s.removeUnwatch fd = some t) : s.holder = none ∧
      ∃ r aio, s.polling.aio.unwatchFd fd .rdwr = some (r, aio) ∧
        t = { s with
          polling := { s.polling with aio := aio }
          holder := some (.removing fd) } := by
  obtain ⟨hholder, hmap⟩ := Option.ite_none_right_eq_some.mp h
  obtain ⟨⟨r, aio⟩, haio, heq⟩ := Option.map_eq_some_iff.mp hmap
  exact ⟨Option.isNone_iff_eq_none.mp hholder, r, aio, haio, heq.symm⟩

theorem removeWait_eq_some (h : s.removeWait = some t) :
    ∃ fd, s.holder = some (.removing fd) ∧
      t = { s with
        pendingChange := true
        changedone := s.changedone.wait fd
        holder := none } := by
  unfold removeWait at h
  split at h
  · cases h
    exact ⟨_, ‹_›, rfl⟩
  · cases h

theorem removeReturn_eq_some {fd : Nat} (h : s.removeReturn fd = some t) :
    s.holder = none ∧ fd ∈ s.changedone.woken ∧
      t = { s with
        changedone := s.changedone.resume fd
        callbacks := Function.update s.callbacks fd none } := by
  obtain ⟨⟨hholder, hfd⟩, heq⟩ := Option.ite_none_right_eq_some.mp h
  cases heq
  exact ⟨Option.isNone_iff_eq_none.mp hholder, hfd, rfl⟩

theorem loopTop_eq_some (h : s.loopTop = some t) :
    s.pc = .top ∧ s.holder = none ∧ t = s.announce := by
  unfold loopTop at h
  split at h
  · cases h
    exact ⟨‹_›, ‹_›, rfl⟩
  · cases h

theorem waitStart_eq_some (h : s.waitStart = some t) :
    s.pc = .waiting ∧ s.polling.waiting = none ∧
      t = { s with
        polling := { s.polling with
          waiting := some ⟨s.polling.aio.rfds, s.polling.aio.wfds, s.polling.aio.highfds⟩ } } := by
  unfold waitStart at h
  split at h
  · obtain ⟨p, hp, rfl⟩ := Option.map_eq_some_iff.mp h
    cases hwaiting : s.polling.waiting with
    | none =>
      rw [Polling.step, hwaiting] at hp
      cases hp
      exact ⟨‹_›, rfl, rfl⟩
    | some w =>
      rw [Polling.step, hwaiting] at hp
      cases hp
  · cases h

theorem waitReturn_eq_some {canRead canWrite : Finset Nat}
    (h : s.waitReturn canRead canWrite = some t) :
    s.pc = .waiting ∧ ∃ w wakeups, s.polling.waiting = some w ∧
      t = { s with
        polling := { aio := { s.polling.aio with wakeups := wakeups }, waiting := none }
        pc := .delivering (w.collect s.polling.aio.pipefd.1 canRead canWrite).1
          (w.collect s.polling.aio.pipefd.1 canRead canWrite).2 } := by
  unfold waitReturn at h
  split at h
  · obtain ⟨p, hp, rfl⟩ := Option.map_eq_some_iff.mp h
    obtain ⟨-, ⟨⟩⟩ := Option.ite_none_right_eq_some.mp hp
    exact ⟨‹_›, _, _, ‹_›, rfl⟩
  · cases h

theorem waitInterrupted_eq_some (h : s.waitInterrupted = some t) :
    s.pc = .waiting ∧ s.polling.waiting.isSome ∧
      t = { s with polling := { s.polling with waiting := none }, pc := .delivering [] [] } := by
  unfold waitInterrupted at h
  split at h
  · obtain ⟨p, hp, rfl⟩ := Option.map_eq_some_iff.mp h
    obtain ⟨hwaiting, ⟨⟩⟩ := Option.ite_none_right_eq_some.mp hp
    exact ⟨‹_›, hwaiting, rfl⟩
  · cases h

/-- The loop goes on with the next descriptor, past it, or to its head. -/
theorem check_eq_some (h : s.check = some t) : ∃ readable writable,
    s.pc = .delivering readable writable ∧ ((readable = [] ∧ writable = [] ∧
      t = { s with pc := .top }) ∨
      ∃ kind fd readable' writable', t = { s with pc := s.test kind fd readable' writable' } ∧
        readable'.length + writable'.length + 1 = readable.length + writable.length ∧
        ∀ i, i = fd ∨ i ∈ readable' ∨ i ∈ writable' → i ∈ readable ∨ i ∈ writable) := by
  unfold check at h
  split at h
  · cases h
    refine ⟨_, _, ‹_›, .inr ⟨_, _, _, _, rfl, ?_, fun i hi => ?_⟩⟩
    · rw [List.length_cons]
      omega
    · rw [List.mem_cons]
      tauto
  · cases h
    refine ⟨_, _, ‹_›, .inr ⟨_, _, _, _, rfl, ?_, fun i hi => ?_⟩⟩
    · rw [List.length_cons]
      omega
    · rw [List.mem_cons]
      tauto
  · cases h
    exact ⟨_, _, ‹_›, .inl ⟨rfl, rfl, rfl⟩⟩
  · cases h

theorem call_eq_some (h : s.call = some t) : ∃ kind fd readable writable,
    s.pc = .checked kind fd readable writable ∧
      t = { s with pc := .enter kind fd readable writable (s.callbacks fd) } := by
  unfold call at h
  split at h
  · cases h
    exact ⟨_, _, _, _, ‹_›, rfl⟩
  · cases h

theorem callbackReturn_eq_some (h : s.callbackReturn = some t) : ∃ kind fd ch readable writable,
    s.pc = .calling kind fd ch readable writable ∧
      (∀ f r, s.holder ≠ some (.deleting f r true)) ∧
      t = { s with pc := .delivering readable writable } := by
  unfold callbackReturn at h
  split at h
  · cases h
  · rename_i hpc hno
    cases h
    refine ⟨_, _, _, _, _, hpc, fun f r hholder => ?_, rfl⟩
    exact hno _ _ hholder
  · cases h

end Inversion

end PollMgr
end Rpc
end Frangipani
