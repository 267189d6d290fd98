/-
The loop of `PollMgr` and its table (`rpc/pollmgr.cc`).

Two things that a maintainer relies on.  The table of callbacks and the sets of
`SelectAIO` are changed one after the other, and they agree whenever `m_` is free, but
for the descriptors that are being removed.  And `block_remove_fd` does not wait for
longer than a round of the loop: the byte in the pipe ends the `select` that the loop is
in, or the next one, and the number of steps that the loop has left in its round is
bounded.
-/
import Frangipani.Rpc.Removal

universe u

namespace Frangipani
namespace Rpc

open Concurrency Transition

theorem Waiting.length_collect_le (w : Waiting) (pipe : Nat) (canRead canWrite : Finset Nat) :
    (w.collect pipe canRead canWrite).1.length ≤ w.high + 1 ∧
      (w.collect pipe canRead canWrite).2.length ≤ w.high + 1 := by
  have hrest : ∀ p q : Nat → Bool,
      (((List.range (w.high + 1)).filter p).filter q).length ≤ w.high + 1 := by
    intro p q
    have h1 := List.length_filter_le q ((List.range (w.high + 1)).filter p)
    have h2 := List.length_filter_le p (List.range (w.high + 1))
    rw [List.length_range] at h2
    exact Nat.le_trans h1 h2
  exact ⟨hrest _ _, hrest _ _⟩

namespace PollMgr

variable {Ch : Type u}

/-! ## The table and the sets -/

/-- The entry of the descriptor is about to be cleared: the descriptor has left the sets. -/
def Leaving (s : PollMgr Ch) (fd : Nat) : Prop :=
  s.holder = some (.removing fd) ∨ ∃ onLoop, s.holder = some (.deleting fd true onLoop)

/-- A descriptor that is watched has a callback, or one is being added for it.  A descriptor with a
callback is watched, or is being removed. -/
structure Agrees (s : PollMgr Ch) : Prop where
  registered : ∀ fd, s.polling.aio.Watched fd → fd ≠ s.polling.aio.pipefd.1 →
    s.callbacks fd ≠ none ∨ ∃ ch, s.holder = some (.adding fd ch)
  watched : ∀ fd, s.callbacks fd ≠ none →
    s.polling.aio.Watched fd ∨ fd ∈ s.changedone.threads ∨ s.Leaving fd
  adding : ∀ fd ch, s.holder = some (.adding fd ch) → s.polling.aio.Watched fd
  answer : ∀ fd r onLoop, s.holder = some (.deleting fd r onLoop) →
    (r = true ↔ ¬ s.polling.aio.Watched fd)

theorem agrees_new (pipefd : Nat × Nat) : (new pipefd : PollMgr Ch).Agrees where
  registered := by
    rintro fd (hr | hw) hne
    · exact absurd (Finset.mem_singleton.mp hr) hne
    · exact absurd hw (Finset.notMem_empty fd)
  watched := fun fd h => absurd rfl h
  adding := fun _ _ h => by cases h
  answer := fun _ _ _ h => by cases h

namespace Agrees

variable {s t : PollMgr Ch}

theorem not_leaving (hholder : s.holder = none) (fd : Nat) : ¬ s.Leaving fd := by
  rintro (heq | ⟨onLoop, heq⟩)
  · rw [hholder] at heq
    cases heq
  · rw [hholder] at heq
    cases heq

/-- With `m_` free, what is watched is what has a callback, but for the calls that wait. -/
theorem of_free (h : s.Agrees) (hholder : s.holder = none) (fd : Nat) :
    (s.polling.aio.Watched fd → fd ≠ s.polling.aio.pipefd.1 → s.callbacks fd ≠ none) ∧
      (s.callbacks fd ≠ none → s.polling.aio.Watched fd ∨ fd ∈ s.changedone.threads) := by
  refine ⟨fun hw hne => ?_, fun hcb => ?_⟩
  · rcases h.registered fd hw hne with hcb | ⟨ch, heq⟩
    · exact hcb
    · rw [hholder] at heq
      cases heq
  · rcases h.watched fd hcb with hw | hmem | hleaving
    · exact .inl hw
    · exact .inr hmem
    · exact absurd hleaving (not_leaving hholder fd)

theorem addWatch {fd : Nat} {flag : PollFlag} {ch : Ch} (h : s.Agrees)
    (hs : s.addWatch fd flag ch = some t) : t.Agrees := by
  obtain ⟨hholder, -, rfl⟩ := addWatch_eq_some hs
  have hwatched := SelectAio.watched_watchFd s.polling.aio fd flag
  refine ⟨fun i hw hne => ?_, fun i hcb => ?_, fun i ch' heq => ?_, fun _ _ _ heq => by cases heq⟩
  · replace hne : i ≠ (s.polling.aio.watchFd fd flag).pipefd.1 := hne
    rw [SelectAio.watchFd_pipefd] at hne
    rcases (hwatched i).mp hw with rfl | hw
    · exact .inr ⟨ch, rfl⟩
    · exact .inl ((h.of_free hholder i).1 hw hne)
  · rcases (h.of_free hholder i).2 hcb with hw | hmem
    · exact .inl ((hwatched i).mpr (.inr hw))
    · exact .inr (.inl hmem)
  · cases heq
    exact (hwatched fd).mpr (.inl rfl)

theorem addSet [DecidableEq Ch] (h : s.Agrees) (hs : s.addSet = some t) : t.Agrees := by
  obtain ⟨fd, ch, hholder, rfl⟩ := addSet_eq_some hs
  refine ⟨fun i hw hne => .inl ?_, fun i hcb => ?_, (fun _ _ heq => by cases heq),
    (fun _ _ _ heq => by cases heq)⟩
  · show Function.update s.callbacks fd (some ch) i ≠ none
    rw [Function.update_apply]
    split_ifs with hi
    · exact Option.some_ne_none ch
    · rcases h.registered i hw hne with hcb | ⟨ch', heq⟩
      · exact hcb
      · rw [hholder] at heq
        cases heq
        exact absurd rfl hi
  · replace hcb : Function.update s.callbacks fd (some ch) i ≠ none := hcb
    rw [Function.update_apply] at hcb
    split_ifs at hcb with hi
    · rw [hi]
      exact .inl (h.adding fd ch hholder)
    · rcases h.watched i hcb with hw | hmem | heq | ⟨onLoop, heq⟩
      · exact .inl hw
      · exact .inr (.inl hmem)
      · rw [hholder] at heq
        cases heq
      · rw [hholder] at heq
        cases heq

/-- A descriptor leaves the sets.  If it has left both, its entry is the one to be cleared. -/
theorem unwatch {fd : Nat} {flag : PollFlag} {r : Bool} {aio : SelectAio} {c : MgrCall Ch}
    (h : s.Agrees) (hholder : s.holder = none)
    (haio : s.polling.aio.unwatchFd fd flag = some (r, aio))
    (hleaving : r = true → c = .removing fd ∨ ∃ onLoop, c = .deleting fd true onLoop)
    (hadding : ∀ i ch, c ≠ .adding i ch)
    (hanswer : ∀ i r' onLoop, c = .deleting i r' onLoop → i = fd ∧ r' = r) :
    { s with polling := { s.polling with aio := aio }, holder := some c }.Agrees := by
  have hshrinks := SelectAio.shrinks_unwatchFd haio
  refine ⟨fun i hw hne => .inl ?_, fun i hcb => ?_, fun i ch heq => ?_, fun i r' onLoop heq => ?_⟩
  · exact (h.of_free hholder i).1 (hshrinks.watched hw) (hshrinks.pipefd ▸ hne)
  · rcases (h.of_free hholder i).2 hcb with hw | hmem
    · by_cases hi : i = fd
      · subst hi
        by_cases hr : r = true
        · exact .inr (.inr ((hleaving hr).imp (congrArg some) (.imp fun _ => congrArg some)))
        · exact .inl (by_contra fun hno => hr ((SelectAio.unwatchFd_result haio).mpr hno))
      · exact .inl ((SelectAio.watched_unwatchFd haio hi).mpr hw)
    · exact .inr (.inl hmem)
  · exact absurd (Option.some.inj heq) (hadding i ch)
  · obtain ⟨rfl, rfl⟩ := hanswer i r' onLoop (Option.some.inj heq)
    exact SelectAio.unwatchFd_result haio

theorem delUnwatch {onLoop : Bool} {fd : Nat} {flag : PollFlag} (h : s.Agrees)
    (hs : s.delUnwatch onLoop fd flag = some t) : t.Agrees := by
  obtain ⟨hholder, r, aio, haio, rfl⟩ := delUnwatch_eq_some hs
  refine h.unwatch hholder haio (fun hr => .inr ⟨onLoop, hr ▸ rfl⟩) (fun _ _ heq => by cases heq)
    fun i r' b heq => ?_
  cases heq
  exact ⟨rfl, rfl⟩

theorem delClear (h : s.Agrees) (hs : s.delClear = some t) : t.Agrees := by
  obtain ⟨fd, r, b, hholder, rfl⟩ := delClear_eq_some hs
  have hentry : ∀ i, (if r then Function.update s.callbacks fd none else s.callbacks) i ≠ none ↔
      ¬ (r = true ∧ i = fd) ∧ s.callbacks i ≠ none := by
    intro i
    split_ifs with hr
    · rw [Function.update_apply]
      split_ifs with hi
      · simp [hr, hi]
      · simp [hi]
    · simp [hr]
  refine ⟨fun i hw hne => .inl ((hentry i).mpr ⟨?_, ?_⟩), fun i hcb => ?_,
    (fun _ _ heq => by cases heq), (fun _ _ _ heq => by cases heq)⟩
  · rintro ⟨hr, rfl⟩
    exact (h.answer i r b hholder).mp hr hw
  · rcases h.registered i hw hne with hcb | ⟨ch', heq⟩
    · exact hcb
    · rw [hholder] at heq
      cases heq
  · obtain ⟨hkept, hcb⟩ := (hentry i).mp hcb
    rcases h.watched i hcb with hw | hmem | heq | ⟨onLoop, heq⟩
    · exact .inl hw
    · exact .inr (.inl hmem)
    · rw [hholder] at heq
      cases heq
    · rw [hholder] at heq
      cases heq
      exact absurd ⟨rfl, rfl⟩ hkept

theorem removeUnwatch {fd : Nat} (h : s.Agrees) (hs : s.removeUnwatch fd = some t) :
    t.Agrees := by
  obtain ⟨hholder, r, aio, haio, rfl⟩ := removeUnwatch_eq_some hs
  exact h.unwatch hholder haio (fun _ => .inl rfl) (fun _ _ heq => by cases heq)
    fun _ _ _ heq => by cases heq

theorem removeWait (h : s.Agrees) (hs : s.removeWait = some t) : t.Agrees := by
  obtain ⟨fd, hholder, rfl⟩ := removeWait_eq_some hs
  have hthreads := s.changedone.threads_wait fd
  refine ⟨fun i hw hne => .inl ?_, fun i hcb => ?_, (fun _ _ heq => by cases heq),
    (fun _ _ _ heq => by cases heq)⟩
  · rcases h.registered i hw hne with hcb | ⟨ch', heq⟩
    · exact hcb
    · rw [hholder] at heq
      cases heq
  · rcases h.watched i hcb with hw | hmem | heq | ⟨onLoop, heq⟩
    · exact .inl hw
    · exact .inr (.inl (hthreads.mem_iff.mpr (List.mem_cons_of_mem _ hmem)))
    · rw [hholder] at heq
      cases heq
      exact .inr (.inl (hthreads.mem_iff.mpr List.mem_cons_self))
    · rw [hholder] at heq
      cases heq

theorem removeReturn {fd : Nat} (h : s.Agrees) (hcalls : s.Calls)
    (hs : s.removeReturn fd = some t) : t.Agrees := by
  obtain ⟨hholder, hfd, rfl⟩ := removeReturn_eq_some hs
  refine ⟨fun i hw hne => .inl ?_, fun i hcb => ?_, h.adding, h.answer⟩
  · have hi : i ≠ fd := by
      rintro rfl
      exact (hcalls.woken i hfd).unwatched hw
    show Function.update s.callbacks fd none i ≠ none
    rw [Function.update_of_ne hi]
    exact (h.of_free hholder i).1 hw hne
  · replace hcb : Function.update s.callbacks fd none i ≠ none := hcb
    rw [Function.update_apply] at hcb
    split_ifs at hcb with hi
    · exact absurd rfl hcb
    · refine ((h.of_free hholder i).2 hcb).imp id fun hmem => .inl ?_
      have hthreads := (Condition.threads_resume hfd).mem_iff.mp hmem
      exact (List.mem_cons.mp hthreads).resolve_left hi

theorem loopTop (h : s.Agrees) (hs : s.loopTop = some t) : t.Agrees := by
  obtain ⟨-, hholder, rfl⟩ := loopTop_eq_some hs
  unfold announce
  split_ifs
  · refine { h with watched := fun i hcb => ?_ }
    exact ((h.of_free hholder i).2 hcb).imp id fun hmem =>
      .inl (List.mem_append_right _ (Condition.mem_woken_broadcast.mpr hmem))
  · exact { h with }

theorem step [DecidableEq Ch] {a : MgrAction Ch} (h : s.Agrees) (hcalls : s.Calls)
    (hok : s.Proper a) (hs : s.step a = some t) : t.Agrees := by
  cases a with
  | addWatch fd flag ch => exact h.addWatch hs
  | addSet => exact h.addSet hs
  | delUnwatch onLoop fd flag => exact h.delUnwatch hs
  | delClear => exact h.delClear hs
  | removeUnwatch fd => exact h.removeUnwatch hs
  | removeWait => exact h.removeWait hs
  | removeReturn fd => exact h.removeReturn hcalls hs
  | spurious fd => exact hok.elim
  | loopTop => exact h.loopTop hs
  | waitStart =>
    obtain ⟨-, -, rfl⟩ := waitStart_eq_some hs
    exact { h with }
  | waitReturn canRead canWrite =>
    obtain ⟨-, w, wakeups, -, rfl⟩ := waitReturn_eq_some hs
    exact { h with }
  | waitInterrupted =>
    obtain ⟨-, -, rfl⟩ := waitInterrupted_eq_some hs
    exact { h with }
  | check =>
    obtain ⟨_, _, -, ⟨-, -, rfl⟩ | ⟨_, _, _, _, rfl, -, -⟩⟩ := check_eq_some hs
    · exact { h with }
    · exact { h with }
  | call =>
    obtain ⟨_, _, _, _, -, rfl⟩ := call_eq_some hs
    exact { h with }
  | callbackReturn =>
    obtain ⟨_, _, _, _, _, -, -, rfl⟩ := callbackReturn_eq_some hs
    exact { h with }

end Agrees

section Runs

variable [DecidableEq Ch]

theorem agrees_alongRun {pipefd : Nat × Nat} {actions : List (MgrAction Ch)}
    (hproper : (system Ch pipefd).StepsMeet Proper (new pipefd) actions) :
    (system Ch pipefd).AlongRun (fun s => (s.Waits ∧ s.Calls) ∧ s.Agrees) (new pipefd) actions :=
  hproper.alongRun (P := fun s => (s.Waits ∧ s.Calls) ∧ s.Agrees)
    (fun _ _ _ h hok hs => ⟨⟨h.1.1.step hok hs, h.1.2.step h.1.1 hok hs⟩, h.2.step h.1.2 hok hs⟩)
    ⟨⟨waits_new pipefd, calls_new pipefd⟩, agrees_new pipefd⟩

/-- The loop never calls through an entry that is not there, although it reads the table without the
mutex.  Whenever the mutex is free, every descriptor that is watched has a callback, and every
descriptor that has a callback is watched or is being removed. -/
theorem table_agrees (pipefd : Nat × Nat) (actions : List (MgrAction Ch))
    (hproper : (system Ch pipefd).StepsMeet Proper (new pipefd) actions) :
    (system Ch pipefd).AlongRun (fun s => s.pc ≠ .crashed ∧ (s.holder = none → ∀ fd,
      (s.polling.aio.Watched fd → fd ≠ s.polling.aio.pipefd.1 → s.callbacks fd ≠ none) ∧
        (s.callbacks fd ≠ none → s.polling.aio.Watched fd ∨ fd ∈ s.changedone.threads)))
      (new pipefd) actions :=
  (agrees_alongRun hproper).mono fun _ h => ⟨h.1.2.safe, fun hholder fd => h.2.of_free hholder fd⟩

end Runs

theorem table_agrees_removal :
    (system Unit (3, 4)).AlongRun (fun s => s.pc ≠ .crashed ∧ (s.holder = none → ∀ fd,
      (s.polling.aio.Watched fd → fd ≠ s.polling.aio.pipefd.1 → s.callbacks fd ≠ none) ∧
        (s.callbacks fd ≠ none → s.polling.aio.Watched fd ∨ fd ∈ s.changedone.threads)))
      (new (3, 4)) removal :=
  table_agrees (3, 4) removal (by decide +kernel)

/-! ## The round of the loop -/

/-- More than any descriptor that can be watched. -/
def bound (pipe : Nat) : Nat := max maxPollFds (pipe + 1)

/-- The steps that the loop has left until it is at its head, at most.  A descriptor in a list takes
three: the test, the call and the return. -/
def left (b : Nat) (s : PollMgr Ch) : Nat :=
  match s.pc, s.polling.waiting with
  | .top, _ => 0
  | .waiting, none => 6 * b + 3
  | .waiting, some w => 6 * (w.high + 1) + 2
  | .delivering readable writable, _ => 3 * (readable.length + writable.length) + 1
  | .checked _ _ readable writable, _ => 3 * (readable.length + writable.length) + 3
  | .calling _ _ _ readable writable, _ => 3 * (readable.length + writable.length) + 2
  | .crashed, _ => 0

/-- The steps that the loop has left before it wakes the call. -/
def rank (b fd : Nat) (s : PollMgr Ch) : Nat :=
  if fd ∈ s.changedone.asleep then s.left b + 1 else 0

theorem rank_le (b fd : Nat) (s : PollMgr Ch) : s.rank b fd ≤ s.left b + 1 := by
  unfold rank
  split_ifs
  · exact Nat.le_refl _
  · exact Nat.zero_le _

structure Within (pipe : Nat) (s : PollMgr Ch) : Prop where
  pipefd : s.polling.aio.pipefd.1 = pipe
  watched : ∀ fd, s.polling.aio.Watched fd → fd < bound pipe
  round : s.left (bound pipe) ≤ 6 * bound pipe + 3

theorem within_new (pipefd : Nat × Nat) : (new pipefd : PollMgr Ch).Within pipefd.1 where
  pipefd := rfl
  watched := by
    rintro fd (hr | hw)
    · rw [Finset.mem_singleton.mp hr]
      exact Nat.lt_of_lt_of_le (Nat.lt_succ_self _) (Nat.le_max_right _ _)
    · exact absurd hw (Finset.notMem_empty fd)
  round := Nat.zero_le _

section Step

variable [DecidableEq Ch] {s t : PollMgr Ch} {pipe : Nat} {a : MgrAction Ch}

/-- A step of the loop takes it nearer to its head, and the steps of other threads do not keep it
away from there. -/
theorem left_step (hwaits : s.Waits) (hwithin : s.Within pipe) (ha : a ≠ .loopTop)
    (hs : s.step a = some t) :
    t.left (bound pipe) + (if a.ofLoop then 1 else 0) ≤ s.left (bound pipe) := by
  cases a with
  | loopTop => exact absurd rfl ha
  | addWatch fd flag ch =>
    obtain ⟨-, -, rfl⟩ := addWatch_eq_some hs
    exact Nat.le_refl (s.left _)
  | addSet =>
    obtain ⟨fd, ch, -, rfl⟩ := addSet_eq_some hs
    exact Nat.le_refl (s.left _)
  | delUnwatch onLoop fd flag =>
    obtain ⟨-, r, aio, -, rfl⟩ := delUnwatch_eq_some hs
    exact Nat.le_refl (s.left _)
  | delClear =>
    obtain ⟨fd, r, b, -, rfl⟩ := delClear_eq_some hs
    exact Nat.le_refl (s.left _)
  | removeUnwatch fd =>
    obtain ⟨-, r, aio, -, rfl⟩ := removeUnwatch_eq_some hs
    exact Nat.le_refl (s.left _)
  | removeWait =>
    obtain ⟨fd, -, rfl⟩ := removeWait_eq_some hs
    exact Nat.le_refl (s.left _)
  | removeReturn fd =>
    obtain ⟨-, -, rfl⟩ := removeReturn_eq_some hs
    exact Nat.le_refl (s.left _)
  | spurious fd =>
    obtain ⟨-, ⟨⟩⟩ := Option.ite_none_right_eq_some.mp hs
    exact Nat.le_refl (s.left _)
  | waitStart =>
    obtain ⟨hpc, hwaiting, rfl⟩ := waitStart_eq_some hs
    have hhigh := hwithin.watched _ hwaits.polling.aio.high.1
    simp only [left, hpc, hwaiting, MgrAction.ofLoop, if_true]
    omega
  | waitReturn canRead canWrite =>
    obtain ⟨hpc, w, wakeups, hwaiting, rfl⟩ := waitReturn_eq_some hs
    obtain ⟨hreadable, hwritable⟩ := w.length_collect_le s.polling.aio.pipefd.1 canRead canWrite
    simp only [left, hpc, hwaiting, MgrAction.ofLoop, if_true]
    omega
  | waitInterrupted =>
    obtain ⟨hpc, hwaiting, rfl⟩ := waitInterrupted_eq_some hs
    obtain ⟨w, hw⟩ := Option.isSome_iff_exists.mp hwaiting
    simp only [left, hpc, hw, MgrAction.ofLoop, if_true, List.length_nil]
    omega
  | check =>
    obtain ⟨readable, writable, hpc, hcase⟩ := check_eq_some hs
    rcases hcase with ⟨rfl, rfl, rfl⟩ | ⟨kind, fd, readable', writable', rfl, hlength, -⟩
    · simp only [left, hpc, MgrAction.ofLoop, if_true, List.length_nil]
      omega
    · by_cases hsome : (s.callbacks fd).isSome = true
      · simp only [left, hpc, test, if_pos hsome, MgrAction.ofLoop, if_true]
        omega
      · simp only [left, hpc, test, if_neg hsome, MgrAction.ofLoop, if_true]
        omega
  | call =>
    obtain ⟨kind, fd, readable, writable, hpc, rfl⟩ := call_eq_some hs
    cases hch : s.callbacks fd with
    | none =>
      simp only [left, hpc, LoopPc.enter, MgrAction.ofLoop, if_true]
      omega
    | some ch =>
      simp only [left, hpc, LoopPc.enter, MgrAction.ofLoop, if_true]
      omega
  | callbackReturn =>
    obtain ⟨kind, fd, ch, readable, writable, hpc, -, rfl⟩ := callbackReturn_eq_some hs
    simp only [left, hpc, MgrAction.ofLoop, if_true]
    omega

theorem Within.step (h : s.Within pipe) (hwaits : s.Waits) (hs : s.step a = some t) :
    t.Within pipe := by
  have hround : t.left (bound pipe) ≤ 6 * bound pipe + 3 := by
    by_cases ha : a = .loopTop
    · subst ha
      obtain ⟨hpc, -, rfl⟩ := loopTop_eq_some hs
      have hwaiting : s.polling.waiting = none := hwaits.between (hpc ▸ nofun)
      unfold announce
      split_ifs <;> simp only [left, hwaiting] <;> exact Nat.le_refl _
    · exact Nat.le_trans (Nat.le_of_add_right_le (left_step hwaits h ha hs)) h.round
  cases a with
  | addWatch fd flag ch =>
    obtain ⟨-, hfd, rfl⟩ := addWatch_eq_some hs
    refine ⟨?_, fun i hw => ?_, hround⟩
    · exact (congrArg Prod.fst (SelectAio.watchFd_pipefd ..)).trans h.pipefd
    rcases (SelectAio.watched_watchFd _ fd flag i).mp hw with rfl | hw
    · exact Nat.lt_of_lt_of_le hfd (Nat.le_max_left _ _)
    · exact h.watched i hw
  | addSet =>
    obtain ⟨fd, ch, -, rfl⟩ := addSet_eq_some hs
    exact { h with round := hround }
  | delUnwatch onLoop fd flag =>
    obtain ⟨-, r, aio, haio, rfl⟩ := delUnwatch_eq_some hs
    have hshrinks := SelectAio.shrinks_unwatchFd haio
    exact ⟨(congrArg Prod.fst hshrinks.pipefd).trans h.pipefd,
      fun i hw => h.watched i (hshrinks.watched hw), hround⟩
  | delClear =>
    obtain ⟨fd, r, b, -, rfl⟩ := delClear_eq_some hs
    exact { h with round := hround }
  | removeUnwatch fd =>
    obtain ⟨-, r, aio, haio, rfl⟩ := removeUnwatch_eq_some hs
    have hshrinks := SelectAio.shrinks_unwatchFd haio
    exact ⟨(congrArg Prod.fst hshrinks.pipefd).trans h.pipefd,
      fun i hw => h.watched i (hshrinks.watched hw), hround⟩
  | removeWait =>
    obtain ⟨fd, -, rfl⟩ := removeWait_eq_some hs
    exact { h with round := hround }
  | removeReturn fd =>
    obtain ⟨-, -, rfl⟩ := removeReturn_eq_some hs
    exact { h with round := hround }
  | spurious fd =>
    obtain ⟨-, ⟨⟩⟩ := Option.ite_none_right_eq_some.mp hs
    exact { h with round := hround }
  | loopTop =>
    obtain ⟨-, -, rfl⟩ := loopTop_eq_some hs
    refine ⟨?_, ?_, hround⟩ <;> unfold announce <;> split_ifs
    · exact h.pipefd
    · exact h.pipefd
    · exact h.watched
    · exact h.watched
  | waitStart =>
    obtain ⟨-, -, rfl⟩ := waitStart_eq_some hs
    exact { h with round := hround }
  | waitReturn canRead canWrite =>
    obtain ⟨-, w, wakeups, -, rfl⟩ := waitReturn_eq_some hs
    exact { h with round := hround }
  | waitInterrupted =>
    obtain ⟨-, -, rfl⟩ := waitInterrupted_eq_some hs
    exact { h with round := hround }
  | check =>
    obtain ⟨_, _, -, ⟨-, -, rfl⟩ | ⟨_, _, _, _, rfl, -, -⟩⟩ := check_eq_some hs
    · exact { h with round := hround }
    · exact { h with round := hround }
  | call =>
    obtain ⟨_, _, _, _, -, rfl⟩ := call_eq_some hs
    exact { h with round := hround }
  | callbackReturn =>
    obtain ⟨_, _, _, _, _, -, -, rfl⟩ := callbackReturn_eq_some hs
    exact { h with round := hround }

/-- While the call is asleep, every step of the loop brings its wake-up nearer. -/
theorem rank_step {fd : Nat} (hwaits : s.Waits) (hwithin : s.Within pipe)
    (hfd : fd ∈ s.changedone.asleep) (hs : s.step a = some t) :
    t.rank (bound pipe) fd + (if a.ofLoop then 1 else 0) ≤ s.rank (bound pipe) fd := by
  rw [show s.rank (bound pipe) fd = s.left (bound pipe) + 1 from if_pos hfd]
  by_cases ha : a = .loopTop
  · -- At the head of the loop nobody stays asleep.
    subst ha
    obtain ⟨-, -, rfl⟩ := loopTop_eq_some hs
    have hpending := hwaits.pending (List.ne_nil_of_mem hfd)
    have hrank : s.announce.rank (bound pipe) fd = 0 := by
      refine if_neg ?_
      rw [announce, if_pos hpending]
      exact List.not_mem_nil
    rw [hrank]
    exact Nat.le_add_left 1 _
  · have hleft := left_step hwaits hwithin ha hs
    have := t.rank_le (bound pipe) fd
    omega

/-- While a call is asleep and `m_` is free, the loop can take a step, even if no connection is
ready and no signal interrupts `select`. -/
theorem exists_loop_step {fd : Nat} (hwaits : s.Waits) (hcalls : s.Calls)
    (hfd : fd ∈ s.changedone.asleep) (hholder : s.holder = none) :
    ∃ a : MgrAction Ch, a.ofLoop = true ∧ a ≠ .waitInterrupted ∧ (s.step a).isSome = true := by
  cases hpc : s.pc with
  | top =>
    refine ⟨.loopTop, rfl, (fun heq => by cases heq), ?_⟩
    simp [PollMgr.step, loopTop, hpc, hholder]
  | waiting =>
    cases hwaiting : s.polling.waiting with
    | none =>
      exact ⟨.waitStart, rfl, (fun heq => by cases heq),
        by simp [PollMgr.step, waitStart, hpc, Polling.step, hwaiting]⟩
    | some w =>
      have hwakeups := hwaits.wakeup hpc (.inl (List.ne_nil_of_mem hfd))
      have hcovers := hwaits.polling.covers w hwaiting
      have hpipe : s.polling.aio.pipefd.1 ∈ w.selected w.trfds {s.polling.aio.pipefd.1} := by
        refine Finset.mem_filter.mpr ⟨hcovers.pipe, ?_, Finset.mem_singleton_self _⟩
        exact Nat.lt_succ_of_le (hcovers.high _ (.inl hcovers.pipe))
      have hready : (s.polling.aio.pipefd.1 ∈ ({s.polling.aio.pipefd.1} : Finset Nat) ↔
          0 < s.polling.aio.wakeups) ∧ ((w.selected w.trfds {s.polling.aio.pipefd.1}).Nonempty ∨
          (w.selected w.twfds ∅).Nonempty) :=
        ⟨iff_of_true (Finset.mem_singleton_self _) hwakeups, .inl ⟨_, hpipe⟩⟩
      refine ⟨.waitReturn {s.polling.aio.pipefd.1} ∅, rfl, (fun heq => by cases heq), ?_⟩
      simp only [PollMgr.step, waitReturn, hpc, hwaiting, Polling.waitReturn, if_pos hready,
        Option.map_some, Option.isSome_some]
  | delivering readable writable =>
    refine ⟨.check, rfl, (fun heq => by cases heq), ?_⟩
    cases readable with
    | cons i readable => simp [PollMgr.step, check, hpc]
    | nil => cases writable <;> simp [PollMgr.step, check, hpc]
  | checked kind i readable writable =>
    exact ⟨.call, rfl, (fun heq => by cases heq), by simp [PollMgr.step, call, hpc]⟩
  | calling kind i ch readable writable =>
    exact ⟨.callbackReturn, rfl, (fun heq => by cases heq),
      by simp [PollMgr.step, callbackReturn, hpc, hholder]⟩
  | crashed => exact absurd hpc hcalls.safe

end Step

section Runs

variable [DecidableEq Ch]

/-- A call of `block_remove_fd` that waits is woken after a bounded number of steps of the loop,
whatever the connections and the other threads do meanwhile.  And the loop does get to take them: as
long as the call is asleep and the mutex is free, the loop can take a step, even if no connection is
ready and no signal interrupts `select`. -/
theorem removal_wakes {pipefd : Nat × Nat} {before after : List (MgrAction Ch)} {s t : PollMgr Ch}
    {fd : Nat} (hbefore : (system Ch pipefd).StepsMeet Proper (new pipefd) before)
    (hs : (system Ch pipefd).run (new pipefd) before = some s)
    (hafter : (system Ch pipefd).StepsMeet
      (fun u a => u.Proper a ∧ fd ∈ u.changedone.asleep) s after)
    (ht : (system Ch pipefd).run s after = some t) :
    after.countP MgrAction.ofLoop ≤ 6 * max maxPollFds (pipefd.1 + 1) + 4 ∧
      (fd ∈ t.changedone.asleep → t.holder = none →
        ∃ a : MgrAction Ch, a.ofLoop = true ∧ a ≠ .waitInterrupted ∧ (t.step a).isSome = true) := by
  have hstep : ∀ u a v, ((u.Waits ∧ u.Calls) ∧ u.Within pipefd.1) → u.Proper a →
      (system Ch pipefd).step u a = some v → (v.Waits ∧ v.Calls) ∧ v.Within pipefd.1 :=
    fun u a v h hok hv =>
      ⟨⟨h.1.1.step hok hv, h.1.2.step h.1.1 hok hv⟩, h.2.step h.1.1 hv⟩
  have hinv := (hbefore.alongRun (P := fun u => (u.Waits ∧ u.Calls) ∧ u.Within pipefd.1) hstep
    ⟨⟨waits_new pipefd, calls_new pipefd⟩, within_new pipefd⟩).run hs
  have hend := (hafter.alongRun (P := fun u => (u.Waits ∧ u.Calls) ∧ u.Within pipefd.1)
    (fun u a v h hok hv => hstep u a v h hok.1 hv) hinv).run ht
  refine ⟨?_, fun hfd hholder => exists_loop_step hend.1.1 hend.1.2 hfd hholder⟩
  have hcount := hafter.countP_add_le (μ := rank (bound pipefd.1) fd) (p := MgrAction.ofLoop)
    (fun u a v h hok hv => ⟨hstep u a v h hok.1 hv, rank_step h.1.1 h.2 hok.2 hv⟩) hinv ht
  have hrank := s.rank_le (bound pipefd.1) fd
  have hround := hinv.2.round
  unfold bound at *
  omega

end Runs

/-- The removal begins while the loop is in `select`, and the loop delivers to another connection
before it is at its head. -/
theorem removal_wakes_selecting :
    let calls : List (MgrAction Unit) := [.addWatch 7 .rdonly (), .addSet, .addWatch 8 .rdonly (),
      .addSet, .loopTop, .waitStart, .removeUnwatch 7, .removeWait]
    let rounds : List (MgrAction Unit) := [.waitReturn {3, 8} ∅, .check, .call, .callbackReturn,
      .check, .loopTop]
    ((system Unit (3, 4)).run (new (3, 4)) (calls ++ rounds)).isSome = true ∧
      rounds.countP MgrAction.ofLoop ≤ 6 * max maxPollFds (3 + 1) + 4 := by
  intro calls rounds
  have hs : (system Unit (3, 4)).run (new (3, 4)) calls =
      some ((system Unit (3, 4)).final (new (3, 4)) calls) :=
    System.run_eq_some_final (by decide +kernel)
  have ht : (system Unit (3, 4)).run ((system Unit (3, 4)).final (new (3, 4)) calls) rounds =
      some ((system Unit (3, 4)).final ((system Unit (3, 4)).final (new (3, 4)) calls) rounds) :=
    System.run_eq_some_final (by decide +kernel)
  have hafter : (system Unit (3, 4)).StepsMeet
      (fun u a => u.Proper a ∧ 7 ∈ u.changedone.asleep)
      ((system Unit (3, 4)).final (new (3, 4)) calls) rounds := by decide +kernel
  exact ⟨by decide +kernel, (removal_wakes (by decide +kernel) hs hafter ht).1⟩

end PollMgr
end Rpc
end Frangipani
