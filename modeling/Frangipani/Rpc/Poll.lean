/-
Watching descriptors with `select` (`rpc/pollmgr.cc`).

`SelectAIO` has a set of descriptors to read from and one to write to, and the
highest descriptor in either.  `select` looks at no descriptor above that one, so
the bound has to be right: a connection above it would be ignored without an error.
The bound goes up with a descriptor that is watched, and it is looked for again only
when the highest descriptor is no longer in either set.

A pipe wakes up a `select` that is waiting when a set has changed.  Its read end is
in the read set from the start.  All calls run under `m_`, so each is one step.

`FD_SET` is undefined from `FD_SETSIZE` on.  The sets here have no such bound;
`PollMgr` takes no descriptor of `MAX_POLL_FDS` or more.
-/
import Mathlib.Data.Finset.Basic
import Mathlib.Order.Bounds.Defs
import Frangipani.Transition.System

namespace Frangipani
namespace Rpc

open Transition

/-- `poll_flag`. -/
inductive PollFlag
  | none
  | rdonly
  | wronly
  | rdwr
  | mask
  deriving DecidableEq, Repr

/-- `wakeups` is the number of bytes in the pipe. -/
structure SelectAio where
  rfds : Finset Nat
  wfds : Finset Nat
  highfds : Nat
  pipefd : Nat × Nat
  wakeups : Nat
  deriving DecidableEq

namespace SelectAio

/-- The constructor, with the descriptors that `pipe` has returned. -/
def new (pipefd : Nat × Nat) : SelectAio where
  rfds := {pipefd.1}
  wfds := ∅
  highfds := pipefd.1
  pipefd := pipefd
  wakeups := 0

/-- The sets with a descriptor that is watched.  Every flag but two stands for both sets. -/
def set (s : SelectAio) (fd : Nat) : PollFlag → SelectAio
  | .rdonly => { s with rfds := insert fd s.rfds }
  | .wronly => { s with wfds := insert fd s.wfds }
  | _ => { s with rfds := insert fd s.rfds, wfds := insert fd s.wfds }

def watchFd (s : SelectAio) (fd : Nat) (flag : PollFlag) : SelectAio :=
  set { s with highfds := if s.highfds ≤ fd then fd else s.highfds, wakeups := s.wakeups + 1 } fd
    flag

/-- The sets without a descriptor.  The assertion fails on any other flag. -/
def clear (s : SelectAio) (fd : Nat) : PollFlag → Option SelectAio
  | .rdonly => some { s with rfds := s.rfds.erase fd }
  | .wronly => some { s with wfds := s.wfds.erase fd }
  | .rdwr => some { s with rfds := s.rfds.erase fd, wfds := s.wfds.erase fd }
  | _ => none

/-- `newh` when the loop of `unwatch_fd` has gone through the descriptors below `n`. -/
def scan (s : SelectAio) (n : Nat) : Nat :=
  (List.range n).foldl
    (fun newh i => if i ∈ s.rfds then i else if i ∈ s.wfds then i else newh) s.pipefd.1

/-- The bound is looked for again when the highest descriptor has left both sets. -/
def rescan (s : SelectAio) (fd : Nat) : SelectAio :=
  if fd ∉ s.rfds ∧ fd ∉ s.wfds then
    if fd = s.highfds then { s with highfds := s.scan (s.highfds + 1) } else s
  else s

def wake (s : SelectAio) (flag : PollFlag) : SelectAio :=
  if flag = .rdwr then { s with wakeups := s.wakeups + 1 } else s

def unwatchFd (s : SelectAio) (fd : Nat) (flag : PollFlag) : Option (Bool × SelectAio) :=
  (s.clear fd flag).map fun cleared =>
    let after := (cleared.rescan fd).wake flag
    (decide (fd ∉ after.rfds ∧ fd ∉ after.wfds), after)

/-! ## The bound -/

/-- The descriptor is in one of the sets. -/
def Watched (s : SelectAio) (fd : Nat) : Prop := fd ∈ s.rfds ∨ fd ∈ s.wfds

/-- The bound is the highest descriptor that is watched. -/
def HighIsGreatest (s : SelectAio) : Prop := IsGreatest {fd | s.Watched fd} s.highfds

/-- With a flag that it takes, `unwatch_fd` returns, and it returns true exactly when the descriptor
is then in neither set. -/
def Answers (s : SelectAio) : Prop :=
  ∀ fd flag, flag ≠ .none → flag ≠ .mask → ∃ r t, s.unwatchFd fd flag = some (r, t) ∧
    (r = true ↔ fd ∉ t.rfds ∧ fd ∉ t.wfds)

theorem answers (s : SelectAio) : s.Answers := by
  intro fd flag hnone hmask
  obtain ⟨cleared, hcleared⟩ : ∃ cleared, s.clear fd flag = some cleared := by
    cases flag with
    | none => exact absurd rfl hnone
    | mask => exact absurd rfl hmask
    | rdonly | wronly | rdwr => exact ⟨_, rfl⟩
  refine ⟨_, (cleared.rescan fd).wake flag, ?_, decide_eq_true_iff⟩
  rw [unwatchFd, hcleared]
  rfl

theorem scan_succ (s : SelectAio) (n : Nat) :
    s.scan (n + 1) = if n ∈ s.rfds then n else if n ∈ s.wfds then n else s.scan n := by
  rw [scan, List.range_succ, List.foldl_append]
  rfl

/-- The loop ends with the highest descriptor that is watched, if there is one below its end. -/
theorem scan_isGreatest (s : SelectAio) {n : Nat} (h : ∃ fd < n, s.Watched fd) :
    IsGreatest {fd | fd < n ∧ s.Watched fd} (s.scan n) := by
  induction n with
  | zero =>
    obtain ⟨fd, hlt, -⟩ := h
    exact absurd hlt (Nat.not_lt_zero fd)
  | succ n ih =>
    rw [scan_succ]
    by_cases hn : s.Watched n
    · have heq : (if n ∈ s.rfds then n else if n ∈ s.wfds then n else s.scan n) = n := by
        split_ifs with hr hw
        · rfl
        · rfl
        · exact absurd hn (not_or.mpr ⟨hr, hw⟩)
      rw [heq]
      exact ⟨⟨Nat.lt_succ_self n, hn⟩, fun fd hfd => Nat.le_of_lt_succ hfd.1⟩
    · obtain ⟨hr, hw⟩ := not_or.mp hn
      rw [if_neg hr, if_neg hw]
      -- Nothing is watched at `n`, so what counts lies below it.
      have hbelow : ∀ fd, fd < n + 1 ∧ s.Watched fd → fd < n ∧ s.Watched fd := by
        rintro fd ⟨hlt, hfd⟩
        have hne : fd ≠ n := by
          rintro rfl
          exact hn hfd
        exact ⟨by omega, hfd⟩
      obtain ⟨fd, hlt, hfd⟩ := h
      obtain ⟨hmem, hmax⟩ := ih ⟨fd, hbelow fd ⟨hlt, hfd⟩⟩
      exact ⟨⟨Nat.lt_succ_of_lt hmem.1, hmem.2⟩, fun fd hfd => hmax (hbelow fd hfd)⟩

/-- The read end of the pipe is watched, and the bound is right. -/
structure Inv (s : SelectAio) : Prop where
  pipe : s.pipefd.1 ∈ s.rfds
  high : s.HighIsGreatest

theorem new_inv (pipefd : Nat × Nat) : (new pipefd).Inv where
  pipe := Finset.mem_singleton_self _
  high := by
    refine ⟨.inl (Finset.mem_singleton_self _), fun fd hfd => ?_⟩
    rcases hfd with hfd | hfd
    · exact Nat.le_of_eq (Finset.mem_singleton.mp hfd)
    · exact absurd hfd (Finset.notMem_empty fd)

theorem watched_set (s : SelectAio) (fd : Nat) (flag : PollFlag) (i : Nat) :
    (s.set fd flag).Watched i ↔ i = fd ∨ s.Watched i := by
  cases flag <;> simp only [set, Watched, Finset.mem_insert] <;> tauto

theorem Inv.watchFd {s : SelectAio} (h : s.Inv) (fd : Nat) (flag : PollFlag) :
    (s.watchFd fd flag).Inv where
  pipe := by
    have hset : ∀ s : SelectAio, s.pipefd.1 ∈ s.rfds →
        (s.set fd flag).pipefd.1 ∈ (s.set fd flag).rfds := by
      intro s hs
      cases flag with
      | wronly => exact hs
      | none | rdonly | rdwr | mask => exact Finset.mem_insert_of_mem hs
    exact hset _ h.pipe
  high := by
    have hhigh : (s.watchFd fd flag).highfds = if s.highfds ≤ fd then fd else s.highfds := by
      cases flag <;> rfl
    have hwatched : ∀ i, (s.watchFd fd flag).Watched i ↔ i = fd ∨ s.Watched i :=
      fun i => watched_set _ fd flag i
    obtain ⟨hmem, hmax⟩ := h.high
    refine ⟨(hwatched _).mpr ?_, fun i hi => ?_⟩
    · rw [hhigh]
      split_ifs
      · exact .inl rfl
      · exact .inr hmem
    · rw [hhigh]
      rcases (hwatched i).mp hi with rfl | hi
      · split_ifs <;> omega
      · have := hmax hi
        split_ifs <;> omega

theorem clear_eq_some {s t : SelectAio} {fd : Nat} {flag : PollFlag}
    (h : s.clear fd flag = some t) : t.pipefd = s.pipefd ∧ t.highfds = s.highfds ∧
      (∀ i, i ≠ fd → (i ∈ t.rfds ↔ i ∈ s.rfds)) ∧ (∀ i, i ≠ fd → (i ∈ t.wfds ↔ i ∈ s.wfds)) ∧
      ∀ i, t.Watched i → s.Watched i := by
  cases flag with
  | none => cases h
  | mask => cases h
  | rdonly | wronly | rdwr =>
    cases h
    refine ⟨rfl, rfl, fun i hi => ?_, fun i hi => ?_, fun i hi => ?_⟩
    · simp [hi]
    · simp [hi]
    · simp only [Watched, Finset.mem_erase] at hi ⊢
      tauto

theorem Inv.wake {s : SelectAio} (h : s.Inv) (flag : PollFlag) : (s.wake flag).Inv := by
  unfold SelectAio.wake
  split_ifs
  · exact ⟨h.pipe, h.high⟩
  · exact h

/-- The bound is right again after the descriptor has left, since no other has. -/
theorem Inv.rescan {s t : SelectAio} {fd : Nat} {flag : PollFlag} (h : s.Inv)
    (hfd : fd ≠ s.pipefd.1) (hclear : s.clear fd flag = some t) : (t.rescan fd).Inv := by
  obtain ⟨hpipefd, hhigh, hr, hw, hsub⟩ := clear_eq_some hclear
  have hpipe : t.pipefd.1 ∈ t.rfds := by
    rw [hpipefd]
    exact (hr _ (Ne.symm hfd)).mpr h.pipe
  obtain ⟨hmem, hmax⟩ := h.high
  have hle : ∀ i, t.Watched i → i ≤ t.highfds := fun i hi => hhigh ▸ hmax (hsub i hi)
  have hkept : fd ≠ t.highfds → t.Watched t.highfds := by
    intro hne
    rw [hhigh] at hne ⊢
    exact hmem.imp (hr _ (Ne.symm hne)).mpr (hw _ (Ne.symm hne)).mpr
  unfold SelectAio.rescan
  split_ifs with hgone heq
  · -- The highest descriptor has left: the loop goes up to it.
    refine ⟨hpipe, ?_⟩
    have hlt : ∀ i, t.Watched i → i < t.highfds + 1 := fun i hi => Nat.lt_succ_of_le (hle i hi)
    obtain ⟨⟨-, hscan⟩, hscanMax⟩ := t.scan_isGreatest ⟨_, hlt _ (.inl hpipe), .inl hpipe⟩
    exact ⟨hscan, fun i hi => hscanMax ⟨hlt i hi, hi⟩⟩
  · exact ⟨hpipe, hkept heq, fun i hi => hle i hi⟩
  · refine ⟨hpipe, ?_, fun i hi => hle i hi⟩
    by_cases heq : fd = t.highfds
    · -- The highest descriptor is still in one of the sets.
      show t.Watched t.highfds
      rw [← heq]
      by_contra hno
      exact hgone (not_or.mp hno)
    · exact hkept heq

theorem Inv.unwatchFd {s t : SelectAio} {fd : Nat} {flag : PollFlag} {r : Bool} (h : s.Inv)
    (hfd : fd ≠ s.pipefd.1) (hs : s.unwatchFd fd flag = some (r, t)) : t.Inv := by
  obtain ⟨cleared, hclear, heq⟩ := Option.map_eq_some_iff.mp hs
  cases heq
  exact (h.rescan hfd hclear).wake flag

/-! What else the calls leave. -/

theorem watchFd_pipefd (s : SelectAio) (fd : Nat) (flag : PollFlag) :
    (s.watchFd fd flag).pipefd = s.pipefd := by
  cases flag <;> rfl

theorem watchFd_wakeups (s : SelectAio) (fd : Nat) (flag : PollFlag) :
    (s.watchFd fd flag).wakeups = s.wakeups + 1 := by
  cases flag <;> rfl

/-- `unwatch_fd` adds nothing to the sets, and takes nothing out of the pipe. -/
structure Shrinks (s t : SelectAio) : Prop where
  pipefd : t.pipefd = s.pipefd
  rfds : t.rfds ⊆ s.rfds
  wfds : t.wfds ⊆ s.wfds
  wakeups : s.wakeups ≤ t.wakeups

theorem Shrinks.trans {s t u : SelectAio} (hst : Shrinks s t) (htu : Shrinks t u) : Shrinks s u :=
  ⟨htu.pipefd.trans hst.pipefd, htu.rfds.trans hst.rfds, htu.wfds.trans hst.wfds,
    Nat.le_trans hst.wakeups htu.wakeups⟩

theorem shrinks_clear {s t : SelectAio} {fd : Nat} {flag : PollFlag}
    (h : s.clear fd flag = some t) : Shrinks s t := by
  cases flag with
  | none => cases h
  | mask => cases h
  | rdonly =>
    cases h
    exact ⟨rfl, Finset.erase_subset _ _, Finset.Subset.refl _, Nat.le_refl _⟩
  | wronly =>
    cases h
    exact ⟨rfl, Finset.Subset.refl _, Finset.erase_subset _ _, Nat.le_refl _⟩
  | rdwr =>
    cases h
    exact ⟨rfl, Finset.erase_subset _ _, Finset.erase_subset _ _, Nat.le_refl _⟩

theorem shrinks_unwatchFd {s t : SelectAio} {fd : Nat} {flag : PollFlag} {r : Bool}
    (h : s.unwatchFd fd flag = some (r, t)) : Shrinks s t := by
  obtain ⟨cleared, hclear, heq⟩ := Option.map_eq_some_iff.mp h
  cases heq
  have hrescan : Shrinks cleared (cleared.rescan fd) := by
    unfold SelectAio.rescan
    split_ifs <;> exact ⟨rfl, Finset.Subset.refl _, Finset.Subset.refl _, Nat.le_refl _⟩
  have hwake : Shrinks (cleared.rescan fd) ((cleared.rescan fd).wake flag) := by
    unfold SelectAio.wake
    split_ifs
    · exact ⟨rfl, Finset.Subset.refl _, Finset.Subset.refl _, Nat.le_succ _⟩
    · exact ⟨rfl, Finset.Subset.refl _, Finset.Subset.refl _, Nat.le_refl _⟩
  exact (shrinks_clear hclear).trans (hrescan.trans hwake)

end SelectAio

/-! ## Waiting -/

/-- The copies that `wait_ready` makes under the mutex, and hands to `select`. -/
structure Waiting where
  trfds : Finset Nat
  twfds : Finset Nat
  high : Nat
  deriving DecidableEq

namespace Waiting

/-- What `select` leaves of a set: the descriptors up to `high` that are ready. -/
def selected (w : Waiting) (fds ready : Finset Nat) : Finset Nat :=
  fds.filter fun fd => fd < w.high + 1 ∧ fd ∈ ready

/-- The loop after `select`: the descriptors to read from, and those to write to.  The read end of
the pipe is not handed on. -/
def collect (w : Waiting) (pipe : Nat) (canRead canWrite : Finset Nat) : List Nat × List Nat :=
  let trfds := w.selected w.trfds canRead
  let twfds := w.selected w.twfds canWrite
  let rest := (List.range (w.high + 1)).filter fun fd => !(fd == pipe && decide (fd ∈ trfds))
  (rest.filter fun fd => fd ∈ trfds, rest.filter fun fd => fd ∈ twfds)

end Waiting

/-- A `SelectAIO` and the thread that waits on it. -/
structure Polling where
  aio : SelectAio
  waiting : Option Waiting
  deriving DecidableEq

/-- A call, or a step of the thread that waits.  `canRead` and `canWrite` are the descriptors that
are ready when `select` returns. -/
inductive PollAction
  | watchFd (fd : Nat) (flag : PollFlag)
  | unwatchFd (fd : Nat) (flag : PollFlag)
  | waitStart
  | waitReturn (canRead canWrite : Finset Nat)
  | waitInterrupted
  deriving DecidableEq

namespace Polling

def new (pipefd : Nat × Nat) : Polling := { aio := .new pipefd, waiting := none }

/-- `select` returns when a descriptor is ready, and the pipe is when there is a byte in it.  One
byte is read from it. -/
def waitReturn (p : Polling) (w : Waiting) (canRead canWrite : Finset Nat) : Option Polling :=
  let trfds := w.selected w.trfds canRead
  let twfds := w.selected w.twfds canWrite
  if (p.aio.pipefd.1 ∈ canRead ↔ 0 < p.aio.wakeups) ∧ (trfds.Nonempty ∨ twfds.Nonempty) then
    some
      { aio := { p.aio with
          wakeups := if p.aio.pipefd.1 ∈ trfds then p.aio.wakeups - 1 else p.aio.wakeups }
        waiting := none }
  else none

def step (p : Polling) : PollAction → Option Polling
  | .watchFd fd flag => some { p with aio := p.aio.watchFd fd flag }
  | .unwatchFd fd flag => (p.aio.unwatchFd fd flag).map fun r => { p with aio := r.2 }
  | .waitStart =>
    match p.waiting with
    | none => some { p with waiting := some ⟨p.aio.rfds, p.aio.wfds, p.aio.highfds⟩ }
    | some _ => none
  | .waitReturn canRead canWrite => p.waiting.bind fun w => p.waitReturn w canRead canWrite
  | .waitInterrupted => if p.waiting.isSome then some { p with waiting := none } else none

def system (pipefd : Nat × Nat) : System Polling PollAction where
  init p := p = new pipefd
  step := step

/-- The calls are on other descriptors than those of the pipe. -/
def NotPipe (p : Polling) : PollAction → Prop
  | .watchFd fd _ => fd ≠ p.aio.pipefd.1 ∧ fd ≠ p.aio.pipefd.2
  | .unwatchFd fd _ => fd ≠ p.aio.pipefd.1 ∧ fd ≠ p.aio.pipefd.2
  | .waitStart | .waitReturn _ _ | .waitInterrupted => True

instance (p : Polling) : DecidablePred p.NotPipe
  | .watchFd _ _ => inferInstanceAs (Decidable (_ ∧ _))
  | .unwatchFd _ _ => inferInstanceAs (Decidable (_ ∧ _))
  | .waitStart | .waitReturn _ _ | .waitInterrupted => isTrue trivial

/-! ## Every interleaving -/

/-- `select` looks at all descriptors in its sets.  What is watched is in them, or a byte in the
pipe makes `select` return. -/
structure Covers (w : Waiting) (aio : SelectAio) : Prop where
  pipe : aio.pipefd.1 ∈ w.trfds
  high : ∀ fd, fd ∈ w.trfds ∨ fd ∈ w.twfds → fd ≤ w.high
  sets : aio.wakeups = 0 → aio.rfds ⊆ w.trfds ∧ aio.wfds ⊆ w.twfds

structure Inv (p : Polling) : Prop where
  aio : p.aio.Inv
  covers : ∀ w ∈ p.waiting, Covers w p.aio

theorem new_inv (pipefd : Nat × Nat) : (new pipefd).Inv where
  aio := SelectAio.new_inv pipefd
  covers := fun w hw => by cases hw

theorem Inv.step {p q : Polling} {a : PollAction} (h : p.Inv) (hok : p.NotPipe a)
    (hs : p.step a = some q) : q.Inv := by
  cases a with
  | watchFd fd flag =>
    cases hs
    refine ⟨h.aio.watchFd fd flag, fun w hw => ?_⟩
    have hcovers := h.covers w hw
    refine ⟨?_, hcovers.high, fun hzero => ?_⟩
    · rw [SelectAio.watchFd_pipefd]
      exact hcovers.pipe
    · rw [SelectAio.watchFd_wakeups] at hzero
      cases hzero
  | unwatchFd fd flag =>
    obtain ⟨⟨r, aio⟩, hunwatch, rfl⟩ := Option.map_eq_some_iff.mp hs
    refine ⟨h.aio.unwatchFd hok.1 hunwatch, fun w hw => ?_⟩
    have hcovers := h.covers w hw
    have hshrinks := SelectAio.shrinks_unwatchFd hunwatch
    refine ⟨hshrinks.pipefd ▸ hcovers.pipe, hcovers.high, fun hzero => ?_⟩
    have hsets := hcovers.sets (Nat.eq_zero_of_le_zero (hzero ▸ hshrinks.wakeups))
    exact ⟨hshrinks.rfds.trans hsets.1, hshrinks.wfds.trans hsets.2⟩
  | waitStart =>
    cases hwaiting : p.waiting with
    | some w =>
      rw [Polling.step, hwaiting] at hs
      cases hs
    | none =>
      rw [Polling.step, hwaiting] at hs
      cases hs
      refine ⟨h.aio, fun w hw => ?_⟩
      cases hw
      exact ⟨h.aio.pipe, fun fd hfd => h.aio.high.2 hfd,
        fun _ => ⟨Finset.Subset.refl _, Finset.Subset.refl _⟩⟩
  | waitReturn canRead canWrite =>
    obtain ⟨w, -, hreturn⟩ := Option.bind_eq_some_iff.mp hs
    obtain ⟨-, ⟨⟩⟩ := Option.ite_none_right_eq_some.mp hreturn
    exact ⟨⟨h.aio.pipe, h.aio.high⟩, fun w hw => by cases hw⟩
  | waitInterrupted =>
    obtain ⟨-, ⟨⟩⟩ := Option.ite_none_right_eq_some.mp hs
    exact ⟨h.aio, fun w hw => by cases hw⟩

theorem inv_alongRun {pipefd : Nat × Nat} {actions : List PollAction}
    (hpipe : (system pipefd).StepsMeet NotPipe (new pipefd) actions) :
    (system pipefd).AlongRun Inv (new pipefd) actions :=
  hpipe.alongRun (P := Inv) (fun _ _ _ h hok hs => h.step hok hs) (new_inv pipefd)

/-- For every sequence of `watch_fd` and `unwatch_fd` calls with any flags on other descriptors than
those of the pipe, with or without a thread that waits: the bound is always the highest descriptor
in the two sets, and `unwatch_fd` returns true exactly when the descriptor is then in neither. -/
theorem high_isGreatest (pipefd : Nat × Nat) (actions : List PollAction)
    (hpipe : (system pipefd).StepsMeet NotPipe (new pipefd) actions) :
    (system pipefd).AlongRun (fun p => p.aio.HighIsGreatest ∧ p.aio.Answers) (new pipefd) actions :=
  (inv_alongRun hpipe).mono fun p h => ⟨h.aio.high, p.aio.answers⟩

/-- The highest descriptor is watched for both, and leaves in two steps. -/
theorem high_isGreatest_leaves :
    (system (3, 4)).AlongRun (fun p => p.aio.HighIsGreatest ∧ p.aio.Answers) (new (3, 4))
      [.watchFd 7 .rdwr, .watchFd 5 .wronly, .unwatchFd 7 .wronly, .unwatchFd 7 .rdonly] :=
  high_isGreatest (3, 4) _ (by decide)

end Polling
end Rpc
end Frangipani
