/-
`block_remove_fd` of `rpc/pollmgr.cc`: no callback after it returns.

The caller of `block_remove_fd` frees the callback, so none of its methods may run or be
called any more.  The loop does not ask when it calls one: it has a copy of the sets in
`select`, and lists of what was ready.  It is shown that nothing of that has the
descriptor when the wait is over, and that the loop never calls through an entry that
has been cleared after the test.

A descriptor is `Quiet` when neither the sets, nor the copy, nor the lists have it.  It
becomes so at the head of the loop, where there is no copy and there are no lists, and
it stays so until somebody watches it again.
-/
import Frangipani.Rpc.PollMgr

universe u

namespace Frangipani
namespace Rpc

open Concurrency Transition

namespace PollMgr

variable {Ch : Type u}

/-! ## The wait of `block_remove_fd`

The descriptor has left the sets before the flag is set, and there is a byte in the pipe until the
loop has been woken by it. -/

/-- A descriptor that is being removed is not watched.  While a call waits for the loop, the loop is
told so at its head, and it does not wait in `select` for long. -/
structure Waits (s : PollMgr Ch) : Prop where
  polling : s.polling.Inv
  between : s.pc ≠ .waiting → s.polling.waiting = none
  asleep : ∀ fd ∈ s.changedone.asleep, ¬ s.polling.aio.Watched fd
  removing : ∀ fd, s.holder = some (.removing fd) → ¬ s.polling.aio.Watched fd
  pending : s.changedone.asleep ≠ [] → s.pendingChange = true
  wakeup : s.pc = .waiting →
    (s.changedone.asleep ≠ [] ∨ ∃ fd, s.holder = some (.removing fd)) → 0 < s.polling.aio.wakeups

theorem waits_new (pipefd : Nat × Nat) : (new pipefd : PollMgr Ch).Waits where
  polling := Polling.new_inv pipefd
  between := fun _ => rfl
  asleep := fun fd hfd => absurd hfd List.not_mem_nil
  removing := fun fd h => by cases h
  pending := fun h => absurd rfl h
  wakeup := fun h => by cases h

namespace Waits

variable {s t : PollMgr Ch}

theorem addWatch {fd : Nat} {flag : PollFlag} {ch : Ch} (h : s.Waits)
    (hok : s.Proper (.addWatch fd flag ch)) (hs : s.addWatch fd flag ch = some t) : t.Waits := by
  obtain ⟨hholder, -, rfl⟩ := addWatch_eq_some hs
  refine { h with
    polling := h.polling.step hok.1 rfl
    asleep := fun i hi hw => ?_
    removing := fun i hi => by cases hi
    wakeup := fun _ _ => ?_ }
  · -- The descriptor that is added is not one that is being removed.
    rcases (SelectAio.watched_watchFd _ fd flag i).mp hw with rfl | hw
    · exact hok.2 (List.mem_append_left _ hi)
    · exact h.asleep i hi hw
  · show 0 < (s.polling.aio.watchFd fd flag).wakeups
    rw [SelectAio.watchFd_wakeups]
    exact Nat.succ_pos _

theorem addSet [DecidableEq Ch] (h : s.Waits) (hs : s.addSet = some t) : t.Waits := by
  obtain ⟨fd, ch, hholder, rfl⟩ := addSet_eq_some hs
  exact { h with
    removing := fun i hi => by cases hi
    wakeup := fun hpc hwait => h.wakeup hpc (hwait.imp id fun ⟨_, hi⟩ => by cases hi) }

theorem unwatch {fd : Nat} {flag : PollFlag} {r : Bool} {aio : SelectAio} {c : MgrCall Ch}
    (h : s.Waits) (hnot : s.polling.NotPipe (.unwatchFd fd flag))
    (haio : s.polling.aio.unwatchFd fd flag = some (r, aio))
    (hremoving : ∀ i, c = .removing i → ¬ aio.Watched i ∧ 0 < aio.wakeups) :
    { s with polling := { s.polling with aio := aio }, holder := some c }.Waits := by
  have hshrinks := SelectAio.shrinks_unwatchFd haio
  have hstep : s.polling.step (.unwatchFd fd flag) = some { s.polling with aio := aio } := by
    show (s.polling.aio.unwatchFd fd flag).map _ = _
    rw [haio]
    rfl
  refine { h with
    polling := h.polling.step hnot hstep
    asleep := fun i hi hw => h.asleep i hi (hshrinks.watched hw)
    removing := fun i hi => (hremoving i (Option.some.inj hi)).1
    wakeup := fun hpc hwait => ?_ }
  rcases hwait with hasleep | ⟨i, hi⟩
  · exact Nat.lt_of_lt_of_le (h.wakeup hpc (.inl hasleep)) hshrinks.wakeups
  · exact (hremoving i (Option.some.inj hi)).2

theorem delUnwatch {onLoop : Bool} {fd : Nat} {flag : PollFlag} (h : s.Waits)
    (hok : s.Proper (.delUnwatch onLoop fd flag)) (hs : s.delUnwatch onLoop fd flag = some t) :
    t.Waits := by
  obtain ⟨hholder, r, aio, haio, rfl⟩ := delUnwatch_eq_some hs
  exact h.unwatch hok.1 haio fun i hi => by cases hi

theorem delClear (h : s.Waits) (hs : s.delClear = some t) : t.Waits := by
  obtain ⟨fd, r, b, hholder, rfl⟩ := delClear_eq_some hs
  exact { h with
    removing := fun i hi => by cases hi
    wakeup := fun hpc hwait => h.wakeup hpc (hwait.imp id fun ⟨_, hi⟩ => by cases hi) }

theorem removeUnwatch {fd : Nat} (h : s.Waits) (hok : s.Proper (.removeUnwatch fd))
    (hs : s.removeUnwatch fd = some t) : t.Waits := by
  obtain ⟨hholder, r, aio, haio, rfl⟩ := removeUnwatch_eq_some hs
  refine h.unwatch hok haio fun i hi => ?_
  cases hi
  obtain ⟨hnot, hwakeups⟩ := SelectAio.unwatchFd_rdwr haio
  exact ⟨hnot, hwakeups ▸ Nat.succ_pos _⟩

theorem removeWait (h : s.Waits) (hs : s.removeWait = some t) : t.Waits := by
  obtain ⟨fd, hholder, rfl⟩ := removeWait_eq_some hs
  refine { h with
    asleep := fun i hi => ?_
    removing := fun i hi => by cases hi
    pending := fun _ => rfl
    wakeup := fun hpc _ => h.wakeup hpc (.inr ⟨fd, hholder⟩) }
  rcases List.mem_append.mp hi with hi | hi
  · exact h.asleep i hi
  · rw [List.mem_singleton.mp hi]
    exact h.removing fd hholder

theorem removeReturn {fd : Nat} (h : s.Waits) (hs : s.removeReturn fd = some t) : t.Waits := by
  obtain ⟨-, -, rfl⟩ := removeReturn_eq_some hs
  exact { h with }

theorem loopTop (h : s.Waits) (hs : s.loopTop = some t) : t.Waits := by
  obtain ⟨-, hholder, rfl⟩ := loopTop_eq_some hs
  have hnobody : ¬ ∃ fd, s.holder = some (.removing fd) := by
    rw [hholder]
    exact fun ⟨fd, hfd⟩ => by cases hfd
  unfold announce
  split_ifs with hpending
  · exact { h with
      between := fun hpc => absurd rfl hpc
      asleep := fun i hi => absurd hi List.not_mem_nil
      pending := fun hne => absurd rfl hne
      wakeup := fun _ hwait => hwait.elim (absurd rfl) fun hremoving => absurd hremoving hnobody }
  · exact { h with
      between := fun hpc => absurd rfl hpc
      wakeup := fun _ hwait =>
        hwait.elim (fun hne => absurd (h.pending hne) hpending)
          fun hremoving => absurd hremoving hnobody }

theorem waitStart (h : s.Waits) (hs : s.waitStart = some t) : t.Waits := by
  obtain ⟨hpc, hwaiting, rfl⟩ := waitStart_eq_some hs
  have hstep : s.polling.step .waitStart = some { s.polling with
      waiting := some ⟨s.polling.aio.rfds, s.polling.aio.wfds, s.polling.aio.highfds⟩ } := by
    rw [Polling.step, hwaiting]
  exact { h with
    polling := h.polling.step (a := .waitStart) trivial hstep
    between := fun hne => absurd hpc hne }

theorem leave {wakeups : Nat} {readable writable : List Nat} (h : s.Waits) :
    { s with
      polling := { aio := { s.polling.aio with wakeups := wakeups }, waiting := none }
      pc := .delivering readable writable }.Waits :=
  { h with
    polling := ⟨⟨h.polling.aio.pipe, h.polling.aio.high⟩, fun w hw => by cases hw⟩
    between := fun _ => rfl
    wakeup := fun heq => by cases heq }

theorem waitReturn {canRead canWrite : Finset Nat} (h : s.Waits)
    (hs : s.waitReturn canRead canWrite = some t) : t.Waits := by
  obtain ⟨-, w, wakeups, -, rfl⟩ := waitReturn_eq_some hs
  exact h.leave

theorem waitInterrupted (h : s.Waits) (hs : s.waitInterrupted = some t) : t.Waits := by
  obtain ⟨-, -, rfl⟩ := waitInterrupted_eq_some hs
  exact h.leave

theorem goOn {pc : LoopPc Ch} (h : s.Waits) (hs : s.pc ≠ .waiting) (hpc : pc ≠ .waiting) :
    { s with pc := pc }.Waits :=
  { h with
    between := fun _ => h.between hs
    wakeup := fun heq => absurd heq hpc }

theorem check (h : s.Waits) (hs : s.check = some t) : t.Waits := by
  obtain ⟨readable, writable, hpc, hcase⟩ := check_eq_some hs
  have hne : s.pc ≠ .waiting := by
    rw [hpc]
    exact fun heq => by cases heq
  rcases hcase with ⟨-, -, rfl⟩ | ⟨kind, fd, readable', writable', rfl, -, -⟩
  · exact h.goOn hne fun heq => by cases heq
  · refine h.goOn hne ?_
    unfold test
    split_ifs <;> exact fun heq => by cases heq

theorem call (h : s.Waits) (hs : s.call = some t) : t.Waits := by
  obtain ⟨kind, fd, readable, writable, hpc, rfl⟩ := call_eq_some hs
  refine h.goOn ?_ ?_
  · rw [hpc]
    exact fun heq => by cases heq
  · cases s.callbacks fd <;> exact fun heq => by cases heq

theorem callbackReturn (h : s.Waits) (hs : s.callbackReturn = some t) : t.Waits := by
  obtain ⟨kind, fd, ch, readable, writable, hpc, -, rfl⟩ := callbackReturn_eq_some hs
  refine h.goOn ?_ fun heq => by cases heq
  rw [hpc]
  exact fun heq => by cases heq

theorem step [DecidableEq Ch] {a : MgrAction Ch} (h : s.Waits) (hok : s.Proper a)
    (hs : s.step a = some t) : t.Waits := by
  cases a with
  | addWatch fd flag ch => exact h.addWatch hok hs
  | addSet => exact h.addSet hs
  | delUnwatch onLoop fd flag => exact h.delUnwatch hok hs
  | delClear => exact h.delClear hs
  | removeUnwatch fd => exact h.removeUnwatch hok hs
  | removeWait => exact h.removeWait hs
  | removeReturn fd => exact h.removeReturn hs
  | spurious fd => exact hok.elim
  | loopTop => exact h.loopTop hs
  | waitStart => exact h.waitStart hs
  | waitReturn canRead canWrite => exact h.waitReturn hs
  | waitInterrupted => exact h.waitInterrupted hs
  | check => exact h.check hs
  | call => exact h.call hs
  | callbackReturn => exact h.callbackReturn hs

end Waits

/-! ## No callback after the removal -/

/-- Nothing in the sets, in the copy that `select` has or in the lists of the loop leads to a
callback of the descriptor. -/
structure Quiet (s : PollMgr Ch) (fd : Nat) : Prop where
  unwatched : ¬ s.polling.aio.Watched fd
  unselected : ∀ w ∈ s.polling.waiting, fd ∉ w.trfds ∧ fd ∉ w.twfds
  unmentioned : ¬ s.pc.Mentions fd

namespace Quiet

variable {s t : PollMgr Ch} {fd : Nat}

/-- At the head of the loop it is enough that the descriptor is not watched. -/
theorem of_top (hwatched : ¬ s.polling.aio.Watched fd) (hpc : s.pc = .top)
    (hwaiting : s.polling.waiting = none) : s.Quiet fd where
  unwatched := hwatched
  unselected := fun w hw => by
    rw [hwaiting] at hw
    cases hw
  unmentioned := by
    rw [hpc]
    exact id

theorem addWatch {i : Nat} {flag : PollFlag} {ch : Ch} (h : s.Quiet fd) (hi : i ≠ fd)
    (hs : s.addWatch i flag ch = some t) : t.Quiet fd := by
  obtain ⟨-, -, rfl⟩ := addWatch_eq_some hs
  refine { h with unwatched := fun hw => ?_ }
  rcases (SelectAio.watched_watchFd _ i flag fd).mp hw with heq | hw
  · exact hi heq.symm
  · exact h.unwatched hw

theorem unwatch {aio : SelectAio} {c : MgrCall Ch} (h : s.Quiet fd)
    (hshrinks : SelectAio.Shrinks s.polling.aio aio) :
    { s with polling := { s.polling with aio := aio }, holder := some c }.Quiet fd :=
  { h with unwatched := fun hw => h.unwatched (hshrinks.watched hw) }

theorem loopTop (h : s.Quiet fd) (hs : s.loopTop = some t) : t.Quiet fd := by
  obtain ⟨-, -, rfl⟩ := loopTop_eq_some hs
  unfold announce
  split_ifs <;> exact { h with unmentioned := id }

/-- The copy is taken of sets that do not have the descriptor. -/
theorem waitStart (h : s.Quiet fd) (hs : s.waitStart = some t) : t.Quiet fd := by
  obtain ⟨-, -, rfl⟩ := waitStart_eq_some hs
  refine { h with unselected := fun w hw => ?_ }
  cases hw
  exact not_or.mp h.unwatched

theorem waitReturn {canRead canWrite : Finset Nat} (h : s.Quiet fd)
    (hs : s.waitReturn canRead canWrite = some t) : t.Quiet fd := by
  obtain ⟨-, w, wakeups, hwaiting, rfl⟩ := waitReturn_eq_some hs
  obtain ⟨hr, hw⟩ := h.unselected w hwaiting
  refine { h with
    unselected := fun w hw => by cases hw
    unmentioned := ?_ }
  rintro (hmem | hmem)
  · exact hr (Waiting.subset_collect.1 hmem)
  · exact hw (Waiting.subset_collect.2 hmem)

theorem waitInterrupted (h : s.Quiet fd) (hs : s.waitInterrupted = some t) : t.Quiet fd := by
  obtain ⟨-, -, rfl⟩ := waitInterrupted_eq_some hs
  refine { h with
    unselected := fun w hw => by cases hw
    unmentioned := ?_ }
  rintro (hmem | hmem) <;> exact absurd hmem List.not_mem_nil

theorem check (h : s.Quiet fd) (hs : s.check = some t) : t.Quiet fd := by
  obtain ⟨readable, writable, hpc, hcase⟩ := check_eq_some hs
  have hnot : ¬ (fd ∈ readable ∨ fd ∈ writable) := by
    have := h.unmentioned
    rwa [hpc] at this
  rcases hcase with ⟨-, -, rfl⟩ | ⟨kind, i, readable', writable', rfl, -, hsub⟩
  · exact { h with unmentioned := id }
  · refine { h with unmentioned := ?_ }
    show ¬ (s.test kind i readable' writable').Mentions fd
    unfold test
    split_ifs
    · exact fun hmem => hnot (hsub fd hmem)
    · exact fun hmem => hnot (hsub fd (.inr hmem))

theorem call (h : s.Quiet fd) (hs : s.call = some t) : t.Quiet fd := by
  obtain ⟨kind, i, readable, writable, hpc, rfl⟩ := call_eq_some hs
  have hnot : ¬ (fd = i ∨ fd ∈ readable ∨ fd ∈ writable) := by
    have := h.unmentioned
    rwa [hpc] at this
  refine { h with unmentioned := ?_ }
  show ¬ (LoopPc.enter kind i readable writable (s.callbacks i)).Mentions fd
  cases s.callbacks i with
  | none => exact id
  | some ch => exact hnot

theorem callbackReturn (h : s.Quiet fd) (hs : s.callbackReturn = some t) : t.Quiet fd := by
  obtain ⟨kind, i, ch, readable, writable, hpc, -, rfl⟩ := callbackReturn_eq_some hs
  have hnot : ¬ (fd = i ∨ fd ∈ readable ∨ fd ∈ writable) := by
    have := h.unmentioned
    rwa [hpc] at this
  exact { h with unmentioned := fun hmem => hnot (.inr hmem) }

end Quiet

theorem Quiet.step [DecidableEq Ch] {s t : PollMgr Ch} {fd : Nat} {a : MgrAction Ch}
    (h : s.Quiet fd) (hadds : ¬ a.Adds fd) (hs : s.step a = some t) : t.Quiet fd := by
  cases a with
  | addWatch i flag ch => exact h.addWatch hadds hs
  | addSet =>
    obtain ⟨i, ch, -, rfl⟩ := addSet_eq_some hs
    exact { h with }
  | delUnwatch onLoop i flag =>
    obtain ⟨-, r, aio, haio, rfl⟩ := delUnwatch_eq_some hs
    exact h.unwatch (SelectAio.shrinks_unwatchFd haio)
  | delClear =>
    obtain ⟨i, r, b, -, rfl⟩ := delClear_eq_some hs
    exact { h with }
  | removeUnwatch i =>
    obtain ⟨-, r, aio, haio, rfl⟩ := removeUnwatch_eq_some hs
    exact h.unwatch (SelectAio.shrinks_unwatchFd haio)
  | removeWait =>
    obtain ⟨i, -, rfl⟩ := removeWait_eq_some hs
    exact { h with }
  | removeReturn i =>
    obtain ⟨-, -, rfl⟩ := removeReturn_eq_some hs
    exact { h with }
  | spurious i =>
    obtain ⟨-, ⟨⟩⟩ := Option.ite_none_right_eq_some.mp hs
    exact { h with }
  | loopTop => exact h.loopTop hs
  | waitStart => exact h.waitStart hs
  | waitReturn canRead canWrite => exact h.waitReturn hs
  | waitInterrupted => exact h.waitInterrupted hs
  | check => exact h.check hs
  | call => exact h.call hs
  | callbackReturn => exact h.callbackReturn hs

/-- A call of `block_remove_fd` that is woken has a quiet descriptor.  The entry that the loop has
tested stays in the table until the loop has called it. -/
structure Calls (s : PollMgr Ch) : Prop where
  woken : ∀ fd ∈ s.changedone.woken, s.Quiet fd
  checked : ∀ kind fd readable writable, s.pc = .checked kind fd readable writable →
    s.callbacks fd ≠ none
  deleting : ∀ fd r onLoop, s.holder = some (.deleting fd r onLoop) →
    onLoop = true ∧ s.pc.Runs fd
  safe : s.pc ≠ .crashed

theorem calls_new (pipefd : Nat × Nat) : (new pipefd : PollMgr Ch).Calls where
  woken := fun fd hfd => absurd hfd List.not_mem_nil
  checked := fun _ _ _ _ h => by cases h
  deleting := fun _ _ _ h => by cases h
  safe := fun h => by cases h

namespace Calls

variable {s t : PollMgr Ch}

theorem deleting_of_not_runs {pc : LoopPc Ch} (h : s.Calls) (hpc : ∀ fd, ¬ s.pc.Runs fd) :
    ∀ fd r onLoop, s.holder = some (.deleting fd r onLoop) → onLoop = true ∧ pc.Runs fd :=
  fun fd r onLoop hholder => absurd (h.deleting fd r onLoop hholder).2 (hpc fd)

theorem addWatch [DecidableEq Ch] {fd : Nat} {flag : PollFlag} {ch : Ch} (h : s.Calls)
    (hok : s.Proper (.addWatch fd flag ch)) (hs : s.addWatch fd flag ch = some t) : t.Calls := by
  have hquiet : ∀ i ∈ s.changedone.woken, t.Quiet i := by
    intro i hi
    refine (h.woken i hi).addWatch ?_ hs
    rintro rfl
    exact hok.2 (List.mem_append_right _ hi)
  obtain ⟨-, -, rfl⟩ := addWatch_eq_some hs
  exact { h with
    woken := hquiet
    deleting := fun _ _ _ hholder => by cases hholder }

theorem addSet [DecidableEq Ch] (h : s.Calls) (hs : s.addSet = some t) : t.Calls := by
  obtain ⟨fd, ch, -, rfl⟩ := addSet_eq_some hs
  refine { h with
    woken := fun i hi => { h.woken i hi with }
    checked := fun kind i readable writable hpc => ?_
    deleting := fun _ _ _ hholder => by cases hholder }
  by_cases hi : i = fd
  · subst hi
    exact fun hnone => by simp at hnone
  · show Function.update s.callbacks fd (some ch) i ≠ none
    rw [Function.update_of_ne hi]
    exact h.checked kind i readable writable hpc

theorem delUnwatch {onLoop : Bool} {fd : Nat} {flag : PollFlag} (h : s.Calls)
    (hok : s.Proper (.delUnwatch onLoop fd flag)) (hs : s.delUnwatch onLoop fd flag = some t) :
    t.Calls := by
  obtain ⟨-, r, aio, haio, rfl⟩ := delUnwatch_eq_some hs
  refine { h with
    woken := fun i hi => (h.woken i hi).unwatch (SelectAio.shrinks_unwatchFd haio)
    deleting := fun i r' b hholder => ?_ }
  cases hholder
  exact hok.2

theorem delClear (h : s.Calls) (hs : s.delClear = some t) : t.Calls := by
  obtain ⟨fd, r, b, hholder, rfl⟩ := delClear_eq_some hs
  refine { h with
    woken := fun i hi => { h.woken i hi with }
    checked := fun kind i readable writable hpc => ?_
    deleting := fun _ _ _ hholder => by cases hholder }
  have hruns := (h.deleting fd r b hholder).2
  rw [show s.pc = .checked kind i readable writable from hpc] at hruns
  exact hruns.elim

theorem removeUnwatch {fd : Nat} (h : s.Calls) (hs : s.removeUnwatch fd = some t) : t.Calls := by
  obtain ⟨-, r, aio, haio, rfl⟩ := removeUnwatch_eq_some hs
  exact { h with
    woken := fun i hi => (h.woken i hi).unwatch (SelectAio.shrinks_unwatchFd haio)
    deleting := fun _ _ _ hholder => by cases hholder }

theorem removeWait (h : s.Calls) (hs : s.removeWait = some t) : t.Calls := by
  obtain ⟨fd, -, rfl⟩ := removeWait_eq_some hs
  exact { h with
    woken := fun i hi => { h.woken i hi with }
    deleting := fun _ _ _ hholder => by cases hholder }

theorem removeReturn {fd : Nat} (h : s.Calls) (hs : s.removeReturn fd = some t) : t.Calls := by
  obtain ⟨-, hfd, rfl⟩ := removeReturn_eq_some hs
  refine { h with
    woken := fun i hi => { h.woken i (List.mem_of_mem_erase hi) with }
    checked := fun kind i readable writable hpc => ?_ }
  have hne : i ≠ fd := by
    rintro rfl
    apply (h.woken i hfd).unmentioned
    rw [show s.pc = .checked kind i readable writable from hpc]
    exact .inl rfl
  show Function.update s.callbacks fd none i ≠ none
  rw [Function.update_of_ne hne]
  exact h.checked kind i readable writable hpc

/-- All calls that are woken were asleep with a descriptor that is not watched. -/
theorem loopTop (h : s.Calls) (hwaits : s.Waits) (hs : s.loopTop = some t) : t.Calls := by
  have hquiet : ∀ i ∈ s.changedone.threads, t.Quiet i := by
    intro i hi
    refine Quiet.loopTop ?_ hs
    rcases List.mem_append.mp hi with hi | hi
    · obtain ⟨hpc, -, -⟩ := loopTop_eq_some hs
      refine .of_top (hwaits.asleep i hi) hpc (hwaits.between ?_)
      rw [hpc]
      exact fun heq => by cases heq
    · exact h.woken i hi
  obtain ⟨-, hholder, rfl⟩ := loopTop_eq_some hs
  have hnothing : ∀ fd r b, s.holder ≠ some (.deleting fd r b) := by
    rw [hholder]
    exact fun _ _ _ heq => by cases heq
  unfold announce at hquiet ⊢
  split_ifs at hquiet ⊢
  · exact { h with
      woken := fun i hi => hquiet i (Condition.mem_woken_broadcast.mp hi)
      checked := fun _ _ _ _ heq => by cases heq
      deleting := fun fd r b heq => absurd heq (hnothing fd r b)
      safe := fun heq => by cases heq }
  · exact { h with
      woken := fun i hi => hquiet i (List.mem_append_right _ hi)
      checked := fun _ _ _ _ heq => by cases heq
      deleting := fun fd r b heq => absurd heq (hnothing fd r b)
      safe := fun heq => by cases heq }

theorem waitStart (h : s.Calls) (hs : s.waitStart = some t) : t.Calls := by
  have hquiet : ∀ i ∈ s.changedone.woken, t.Quiet i := fun i hi => (h.woken i hi).waitStart hs
  obtain ⟨-, -, rfl⟩ := waitStart_eq_some hs
  exact { h with woken := hquiet }

theorem waitReturn {canRead canWrite : Finset Nat} (h : s.Calls)
    (hs : s.waitReturn canRead canWrite = some t) : t.Calls := by
  have hquiet : ∀ i ∈ s.changedone.woken, t.Quiet i := fun i hi => (h.woken i hi).waitReturn hs
  obtain ⟨hpc, w, wakeups, -, rfl⟩ := waitReturn_eq_some hs
  exact { h with
    woken := hquiet
    checked := fun _ _ _ _ heq => by cases heq
    deleting := h.deleting_of_not_runs fun fd => by rw [hpc]; exact id
    safe := fun heq => by cases heq }

theorem waitInterrupted (h : s.Calls) (hs : s.waitInterrupted = some t) : t.Calls := by
  have hquiet : ∀ i ∈ s.changedone.woken, t.Quiet i :=
    fun i hi => (h.woken i hi).waitInterrupted hs
  obtain ⟨hpc, -, rfl⟩ := waitInterrupted_eq_some hs
  exact { h with
    woken := hquiet
    checked := fun _ _ _ _ heq => by cases heq
    deleting := h.deleting_of_not_runs fun fd => by rw [hpc]; exact id
    safe := fun heq => by cases heq }

theorem check (h : s.Calls) (hs : s.check = some t) : t.Calls := by
  have hquiet : ∀ i ∈ s.changedone.woken, t.Quiet i := fun i hi => (h.woken i hi).check hs
  obtain ⟨readable, writable, hpc, hcase⟩ := check_eq_some hs
  have hruns : ∀ fd, ¬ s.pc.Runs fd := fun fd => by rw [hpc]; exact id
  rcases hcase with ⟨-, -, rfl⟩ | ⟨kind, fd, readable', writable', rfl, -, -⟩
  · exact { h with
      woken := hquiet
      checked := fun _ _ _ _ heq => by cases heq
      deleting := h.deleting_of_not_runs hruns
      safe := fun heq => by cases heq }
  · refine { h with
      woken := hquiet
      checked := fun kind' i _ _ heq => ?_
      deleting := h.deleting_of_not_runs hruns
      safe := ?_ }
    · replace heq : s.test kind fd readable' writable' = .checked kind' i _ _ := heq
      unfold test at heq
      split_ifs at heq with hsome
      cases heq
      exact fun hnone => by rw [show s.callbacks fd = none from hnone] at hsome; cases hsome
    · show s.test kind fd readable' writable' ≠ .crashed
      unfold test
      split_ifs <;> exact fun heq => by cases heq

theorem call (h : s.Calls) (hs : s.call = some t) : t.Calls := by
  have hquiet : ∀ i ∈ s.changedone.woken, t.Quiet i := fun i hi => (h.woken i hi).call hs
  obtain ⟨kind, fd, readable, writable, hpc, rfl⟩ := call_eq_some hs
  obtain ⟨ch, hch⟩ := Option.ne_none_iff_exists'.mp (h.checked kind fd readable writable hpc)
  have heq : LoopPc.enter kind fd readable writable (s.callbacks fd) =
      .calling kind fd ch readable writable := by
    rw [hch]
    rfl
  rw [heq] at hquiet ⊢
  exact { h with
    woken := hquiet
    checked := fun _ _ _ _ heq => by cases heq
    deleting := h.deleting_of_not_runs fun fd => by rw [hpc]; exact id
    safe := fun heq => by cases heq }

theorem callbackReturn (h : s.Calls) (hs : s.callbackReturn = some t) : t.Calls := by
  have hquiet : ∀ i ∈ s.changedone.woken, t.Quiet i :=
    fun i hi => (h.woken i hi).callbackReturn hs
  obtain ⟨kind, fd, ch, readable, writable, -, hdel, rfl⟩ := callbackReturn_eq_some hs
  refine { h with
    woken := hquiet
    checked := fun _ _ _ _ heq => by cases heq
    deleting := fun i r b hholder => ?_
    safe := fun heq => by cases heq }
  obtain ⟨rfl, -⟩ := h.deleting i r b hholder
  exact absurd hholder (hdel i r)

theorem step [DecidableEq Ch] {a : MgrAction Ch} (h : s.Calls) (hwaits : s.Waits)
    (hok : s.Proper a) (hs : s.step a = some t) : t.Calls := by
  cases a with
  | addWatch fd flag ch => exact h.addWatch hok hs
  | addSet => exact h.addSet hs
  | delUnwatch onLoop fd flag => exact h.delUnwatch hok hs
  | delClear => exact h.delClear hs
  | removeUnwatch fd => exact h.removeUnwatch hs
  | removeWait => exact h.removeWait hs
  | removeReturn fd => exact h.removeReturn hs
  | spurious fd => exact hok.elim
  | loopTop => exact h.loopTop hwaits hs
  | waitStart => exact h.waitStart hs
  | waitReturn canRead canWrite => exact h.waitReturn hs
  | waitInterrupted => exact h.waitInterrupted hs
  | check => exact h.check hs
  | call => exact h.call hs
  | callbackReturn => exact h.callbackReturn hs

end Calls

section Runs

variable [DecidableEq Ch]

theorem calls_alongRun {pipefd : Nat × Nat} {actions : List (MgrAction Ch)}
    (hproper : (system Ch pipefd).StepsMeet Proper (new pipefd) actions) :
    (system Ch pipefd).AlongRun (fun s => s.Waits ∧ s.Calls) (new pipefd) actions :=
  hproper.alongRun (P := fun s => s.Waits ∧ s.Calls)
    (fun _ _ _ h hok hs => ⟨h.1.step hok hs, h.2.step h.1 hok hs⟩)
    ⟨waits_new pipefd, calls_new pipefd⟩

/-- The descriptor has no callback, gets none and is quiet. -/
structure Gone (s : PollMgr Ch) (fd : Nat) : Prop where
  quiet : s.Quiet fd
  empty : s.callbacks fd = none
  noneComes : ∀ ch, s.holder ≠ some (.adding fd ch)

theorem Gone.step {s t : PollMgr Ch} {fd : Nat} {a : MgrAction Ch} (h : s.Gone fd)
    (hadds : ¬ a.Adds fd) (hs : s.step a = some t) : t.Gone fd := by
  have hquiet := h.quiet.step hadds hs
  cases a with
  | addWatch i flag ch =>
    obtain ⟨-, -, rfl⟩ := addWatch_eq_some hs
    refine ⟨hquiet, h.empty, fun ch' heq => hadds ?_⟩
    cases heq
    rfl
  | addSet =>
    obtain ⟨i, ch, hholder, rfl⟩ := addSet_eq_some hs
    have hne : fd ≠ i := by
      rintro rfl
      exact h.noneComes ch hholder
    refine ⟨hquiet, ?_, fun ch' heq => by cases heq⟩
    show Function.update s.callbacks i (some ch) fd = none
    rw [Function.update_of_ne hne]
    exact h.empty
  | delUnwatch onLoop i flag =>
    obtain ⟨-, r, aio, -, rfl⟩ := delUnwatch_eq_some hs
    exact ⟨hquiet, h.empty, fun ch' heq => by cases heq⟩
  | delClear =>
    obtain ⟨i, r, b, -, rfl⟩ := delClear_eq_some hs
    refine ⟨hquiet, ?_, fun ch' heq => by cases heq⟩
    show (if r then Function.update s.callbacks i none else s.callbacks) fd = none
    split_ifs
    · rw [Function.update_apply, h.empty, ite_self]
    · exact h.empty
  | removeUnwatch i =>
    obtain ⟨-, r, aio, -, rfl⟩ := removeUnwatch_eq_some hs
    exact ⟨hquiet, h.empty, fun ch' heq => by cases heq⟩
  | removeWait =>
    obtain ⟨i, -, rfl⟩ := removeWait_eq_some hs
    exact ⟨hquiet, h.empty, fun ch' heq => by cases heq⟩
  | removeReturn i =>
    obtain ⟨-, -, rfl⟩ := removeReturn_eq_some hs
    refine ⟨hquiet, ?_, h.noneComes⟩
    show Function.update s.callbacks i none fd = none
    rw [Function.update_apply, h.empty, ite_self]
  | spurious i =>
    obtain ⟨-, ⟨⟩⟩ := Option.ite_none_right_eq_some.mp hs
    exact ⟨hquiet, h.empty, h.noneComes⟩
  | loopTop =>
    obtain ⟨-, -, rfl⟩ := loopTop_eq_some hs
    refine ⟨hquiet, ?_, ?_⟩ <;> unfold announce <;> split_ifs
    · exact h.empty
    · exact h.empty
    · exact h.noneComes
    · exact h.noneComes
  | waitStart =>
    obtain ⟨-, -, rfl⟩ := waitStart_eq_some hs
    exact ⟨hquiet, h.empty, h.noneComes⟩
  | waitReturn canRead canWrite =>
    obtain ⟨-, w, wakeups, -, rfl⟩ := waitReturn_eq_some hs
    exact ⟨hquiet, h.empty, h.noneComes⟩
  | waitInterrupted =>
    obtain ⟨-, -, rfl⟩ := waitInterrupted_eq_some hs
    exact ⟨hquiet, h.empty, h.noneComes⟩
  | check =>
    obtain ⟨_, _, -, ⟨-, -, rfl⟩ | ⟨_, _, _, _, rfl, -, -⟩⟩ := check_eq_some hs
    · exact ⟨hquiet, h.empty, h.noneComes⟩
    · exact ⟨hquiet, h.empty, h.noneComes⟩
  | call =>
    obtain ⟨_, _, _, _, -, rfl⟩ := call_eq_some hs
    exact ⟨hquiet, h.empty, h.noneComes⟩
  | callbackReturn =>
    obtain ⟨_, _, _, _, _, -, -, rfl⟩ := callbackReturn_eq_some hs
    exact ⟨hquiet, h.empty, h.noneComes⟩

/-- When `block_remove_fd` returns, no callback of the descriptor runs, and none is called from then
on, whatever the loop had collected and whatever all threads do, until somebody registers a callback
for the descriptor again. -/
theorem no_callback_after_removal {pipefd : Nat × Nat} {before after : List (MgrAction Ch)}
    {s t : PollMgr Ch} {fd : Nat}
    (hbefore : (system Ch pipefd).StepsMeet Proper (new pipefd) before)
    (hrun : (system Ch pipefd).run (new pipefd) before = some s)
    (hreturn : s.step (.removeReturn fd) = some t)
    (hafter : (system Ch pipefd).StepsMeet (fun _ a => ¬ a.Adds fd) t after) :
    (system Ch pipefd).AlongRun (fun u => u.callbacks fd = none ∧ ¬ u.pc.Runs fd) t after := by
  obtain ⟨-, hcalls⟩ := (calls_alongRun hbefore).run hrun
  have hgone : t.Gone fd := by
    obtain ⟨hholder, hfd, rfl⟩ := removeReturn_eq_some hreturn
    refine ⟨{ hcalls.woken fd hfd with }, Function.update_self .., fun ch heq => ?_⟩
    rw [show s.holder = some (.adding fd ch) from heq] at hholder
    cases hholder
  have halong := hafter.alongRun (P := fun u => u.Gone fd)
    (fun _ _ _ h hadds hs => h.step hadds hs) hgone
  exact halong.mono fun u h => ⟨h.empty, fun hruns => h.quiet.unmentioned hruns.mentions⟩

end Runs

/-- A callback is registered, the loop has collected its descriptor, and the removal begins before
the callback is called. -/
def removal : List (MgrAction Unit) :=
  [.addWatch 7 .rdonly (), .addSet, .loopTop, .waitStart, .waitReturn {3, 7} ∅, .check,
    .removeUnwatch 7, .removeWait, .call, .callbackReturn, .check, .loopTop]

theorem no_callback_after_removal_collected :
    (system Unit (3, 4)).AlongRun (fun u => u.callbacks 7 = none ∧ ¬ u.pc.Runs 7)
      ((system Unit (3, 4)).final (new (3, 4)) (removal ++ [.removeReturn 7]))
      [.waitStart, .waitReturn {3} ∅, .check, .loopTop] := by
  have hbefore : (system Unit (3, 4)).StepsMeet Proper (new (3, 4)) removal := by decide +kernel
  have hrun : (system Unit (3, 4)).run (new (3, 4)) removal =
      some ((system Unit (3, 4)).final (new (3, 4)) removal) :=
    System.run_eq_some_final (by decide +kernel)
  have hafter : (system Unit (3, 4)).StepsMeet (fun _ a => ¬ a.Adds 7)
      ((system Unit (3, 4)).final (new (3, 4)) (removal ++ [.removeReturn 7]))
      [.waitStart, .waitReturn {3} ∅, .check, .loopTop] := by decide +kernel
  exact no_callback_after_removal hbefore hrun rfl hafter

/-- A spurious wake-up is enough for the loop to read an entry that has gone. -/
example : ((system Unit (3, 4)).final (new (3, 4)) (removal.take 8 ++
    [.spurious 7, .removeReturn 7, .call])).pc = .crashed := by
  rfl

end PollMgr
end Rpc
end Frangipani
