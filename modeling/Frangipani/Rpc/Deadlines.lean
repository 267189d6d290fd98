/-
The deadlines of a call (`add_timespec`, `cmp_timespec` and the loop of `rpcc::call1`).

A call has a final deadline.  It waits for a reply in stretches of one second, two
seconds, four seconds and so on, and the stretch that would pass the final deadline ends
with it.  The second of the final deadline is set to 0 then, and the loop ends when it
finds a 0 there.

`add_timespec` carries nanoseconds into the seconds while there are more than
`1000000000` of them, so a sum of exactly `1000000000` stays, which
`pthread_cond_timedwait` does not accept.  The deadlines of a call are what they should
be exactly when this does not happen to the final one, the final one is not in second 0,
and the timeout is short enough for the last stretch to be doubled in an `int`.

The clock does not go back, and a wait ends no earlier than its deadline.  The state
keeps the last time that was seen, the deadlines of the waits, and the number of waits
that have timed out.
-/
import Mathlib.Algebra.Order.Ring.Int
import Mathlib.Data.List.Basic
import Frangipani.Transition.System

namespace Frangipani
namespace Rpc

open Transition

/-- `struct timespec`. -/
structure Timespec where
  tvSec : Int
  tvNsec : Int
  deriving DecidableEq, Repr

namespace Timespec

/-- What `pthread_cond_timedwait` accepts, and what the clock shows. -/
def Valid (t : Timespec) : Prop := 0 ≤ t.tvNsec ∧ t.tvNsec < 1000000000

instance (t : Timespec) : Decidable t.Valid := inferInstanceAs (Decidable (_ ∧ _))

/-- The time in nanoseconds. -/
def nanos (t : Timespec) : Int := t.tvSec * 1000000000 + t.tvNsec

/-- `cmp_timespec`. -/
def cmp (a b : Timespec) : Int :=
  if a.tvSec > b.tvSec then 1
  else if a.tvSec < b.tvSec then -1
  else if a.tvNsec > b.tvNsec then 1
  else if a.tvNsec < b.tvNsec then -1
  else 0

/-- The loop of `add_timespec`. -/
def carry : Nat → Timespec → Timespec
  | 0, t => t
  | fuel + 1, t =>
    if t.tvNsec > 1000000000 then carry fuel ⟨t.tvSec + 1, t.tvNsec - 1000000000⟩ else t

/-- `add_timespec`.  The result is `none` when its assertion fails. -/
def add (a : Timespec) (b : Int) : Option Timespec :=
  let t : Timespec := ⟨a.tvSec + b.tdiv 1000, a.tvNsec + b.tmod 1000 * 1000000⟩
  if t.tvNsec ≥ 0 then some (carry (t.tvNsec / 1000000000).toNat t) else none

/-- `add_timespec` returns the time `b` milliseconds later, and a valid one. -/
def AddsExactly (a : Timespec) (b : Int) : Prop :=
  ∃ r, a.add b = some r ∧ r.nanos = a.nanos + b * 1000000 ∧ r.Valid

/-- The nanoseconds add up to a whole second. -/
def Uncarried (a : Timespec) (b : Int) : Prop :=
  a.tvNsec + b % 1000 * 1000000 = 1000000000

/-! ## Sums and comparisons -/

theorem cmp_pos_iff {a b : Timespec} (ha : a.Valid) (hb : b.Valid) :
    cmp a b > 0 ↔ b.nanos < a.nanos := by
  obtain ⟨ha0, ha1⟩ := ha
  obtain ⟨hb0, hb1⟩ := hb
  unfold cmp nanos
  split_ifs <;> omega

theorem carry_of_le (fuel : Nat) {t : Timespec} (h : t.tvNsec ≤ 1000000000) : carry fuel t = t := by
  cases fuel with
  | zero => rfl
  | succ fuel => exact if_neg (Int.not_lt.mpr h)

/-- A carry changes no time, and with as many rounds as there are seconds it leaves at most one. -/
theorem carry_spec (fuel : Nat) : ∀ t : Timespec, 0 ≤ t.tvNsec →
    t.tvNsec ≤ 1000000000 * (fuel + 1) →
      (carry fuel t).nanos = t.nanos ∧ 0 ≤ (carry fuel t).tvNsec ∧
        (carry fuel t).tvNsec ≤ 1000000000 := by
  induction fuel with
  | zero =>
    intro t hlow hhigh
    refine ⟨rfl, hlow, ?_⟩
    show t.tvNsec ≤ 1000000000
    omega
  | succ fuel ih =>
    intro t hlow hhigh
    by_cases hmore : t.tvNsec > 1000000000
    · rw [carry, if_pos hmore]
      obtain ⟨hnanos, hrest⟩ := ih ⟨t.tvSec + 1, t.tvNsec - 1000000000⟩
        (show (0 : Int) ≤ t.tvNsec - 1000000000 by omega)
        (show t.tvNsec - 1000000000 ≤ 1000000000 * ((fuel : Int) + 1) by omega)
      refine ⟨hnanos.trans ?_, hrest⟩
      unfold nanos
      simp only
      omega
    · rw [carry_of_le _ (Int.not_lt.mp hmore)]
      exact ⟨rfl, hlow, Int.not_lt.mp hmore⟩

/-- The sum is the later time, and it is valid unless the nanoseconds add up to a whole second. -/
theorem add_spec {a : Timespec} (ha : a.Valid) {b : Int} (hb : 0 ≤ b) :
    ∃ r, a.add b = some r ∧ r.nanos = a.nanos + b * 1000000 ∧ (r.Valid ↔ ¬ a.Uncarried b) := by
  obtain ⟨ha0, ha1⟩ := ha
  have hlow : 0 ≤ a.tvNsec + b % 1000 * 1000000 := by omega
  have hadd : a.add b = some (carry ((a.tvNsec + b % 1000 * 1000000) / 1000000000).toNat
      ⟨a.tvSec + b / 1000, a.tvNsec + b % 1000 * 1000000⟩) := by
    rw [add, Int.tdiv_eq_ediv_of_nonneg hb, Int.tmod_eq_emod_of_nonneg hb]
    exact if_pos hlow
  rw [hadd]
  generalize hfuel : ((a.tvNsec + b % 1000 * 1000000) / 1000000000).toNat = fuel
  obtain ⟨hnanos, hnonneg, hle⟩ := carry_spec fuel
    ⟨a.tvSec + b / 1000, a.tvNsec + b % 1000 * 1000000⟩ hlow
    (show a.tvNsec + b % 1000 * 1000000 ≤ 1000000000 * ((fuel : Int) + 1) by omega)
  refine ⟨_, rfl, ?_, ?_⟩
  · rw [hnanos]
    unfold nanos
    simp only
    omega
  · unfold Valid Uncarried
    by_cases hmore : a.tvNsec + b % 1000 * 1000000 ≤ 1000000000
    · rw [carry_of_le fuel hmore]
      simp only
      omega
    · -- One second is carried, and less than a second is left.
      unfold nanos at hnanos
      simp only at hnanos
      omega

end Timespec

/-! ## The loop of `call1` -/

/-- Where `call1` is: at the top of its loop, waiting, or done, with a reply or without. -/
inductive Call1Pc
  | top
  | waiting (deadline : Timespec)
  | returned (replied : Bool)
  deriving DecidableEq

structure Call1 where
  finaldeadline : Timespec
  /-- `curr_to.to`, an `int`. -/
  currTo : Int
  pc : Call1Pc
  clock : Timespec
  waits : List Timespec
  timeouts : Nat

inductive Call1Action
  /-- The time is read, and a wait starts. -/
  | wait (now : Timespec)
  /-- The wait returns `ETIMEDOUT`. -/
  | timedOut (now : Timespec)
  /-- The wait returns `EINVAL`, and the inner loop waits again. -/
  | invalid
  /-- The reply has arrived. -/
  | reply
  /-- The loop ends because the second of the final deadline is 0. -/
  | giveUp

namespace Call1

/-- `to_min`, in milliseconds. -/
def toMin : Int := 1000

/-- `x << 1` in an `int`. -/
def shiftLeft (x : Int) : Int := (2 * x + 2147483648) % 4294967296 - 2147483648

/-- `call1` before its loop, with the time `now` and the timeout `timeout`. -/
def start (now : Timespec) (timeout : Int) : Option Call1 :=
  (now.add timeout).map fun finaldeadline =>
    { finaldeadline, currTo := toMin, pc := .top, clock := now, waits := [], timeouts := 0 }

/-- A time that the clock can show next. -/
def CanBe (s : Call1) (now : Timespec) : Prop := now.Valid ∧ s.clock.nanos ≤ now.nanos

instance (s : Call1) (now : Timespec) : Decidable (s.CanBe now) :=
  inferInstanceAs (Decidable (_ ∧ _))

/-- The wait with a given next deadline. -/
def waitFor (s : Call1) (now nextdeadline : Timespec) : Call1 :=
  if Timespec.cmp nextdeadline s.finaldeadline > 0 then
    { s with
      finaldeadline := { s.finaldeadline with tvSec := 0 }
      pc := .waiting s.finaldeadline
      clock := now
      waits := s.waits ++ [s.finaldeadline] }
  else
    { s with pc := .waiting nextdeadline, clock := now, waits := s.waits ++ [nextdeadline] }

def step (s : Call1) (a : Call1Action) : Option Call1 :=
  match a, s.pc with
  | .giveUp, .top =>
    if s.finaldeadline.tvSec = 0 then some { s with pc := .returned false } else none
  | .wait now, .top =>
    if s.finaldeadline.tvSec ≠ 0 ∧ s.CanBe now then (now.add s.currTo).map (s.waitFor now)
    else none
  | .timedOut now, .waiting deadline =>
    if deadline.Valid ∧ s.CanBe now ∧ deadline.nanos ≤ now.nanos then
      some { s with
        currTo := shiftLeft s.currTo, pc := .top, clock := now, timeouts := s.timeouts + 1 }
    else none
  | .invalid, .waiting deadline =>
    if deadline.Valid then none else some { s with waits := s.waits ++ [deadline] }
  | .reply, .waiting _ => some { s with pc := .returned true }
  | _, _ => none

def system (now : Timespec) (timeout : Int) : System Call1 Call1Action where
  init s := start now timeout = some s
  step := step

/-- What the deadlines of a call should be.  `call1` returns after at most 22 waits, and without a
reply the last one was for the final deadline. -/
structure OnTime (now : Timespec) (timeout : Int) (s : Call1) : Prop where
  valid : ∀ d ∈ s.waits, d.Valid
  within : ∀ d ∈ s.waits, d.nanos ≤ now.nanos + timeout * 1000000
  last : s.pc = .returned false →
    ∃ d, s.waits.getLast? = some d ∧ d.nanos = now.nanos + timeout * 1000000
  /-- `curr_to.to` has been doubled with every timeout and has not overflowed. -/
  doubled : s.currTo = toMin * 2 ^ s.timeouts
  finite : s.waits.length ≤ 22
  goesOn : (∀ b, s.pc ≠ .returned b) → ∃ a t, a ≠ .reply ∧ s.step a = some t

/-- `add_timespec` is exact for the timeout, and the deadlines are right in every state that the
call can be in. -/
def Deadlines (now : Timespec) (timeout : Int) : Prop :=
  now.AddsExactly timeout ∧ ∀ s, (system now timeout).Reachable s → s.OnTime now timeout

/-- The nanoseconds of the final deadline do not add up to a whole second, the final deadline is not
in second 0, and the timeout is below `2097151` seconds, `2^21 - 1`. -/
structure Regular (now : Timespec) (timeout : Int) : Prop where
  carried : ¬ now.Uncarried timeout
  nonzero : (now.nanos + timeout * 1000000) / 1000000000 ≠ 0
  short : timeout < 2097151000

/-! ## What the steps do -/

theorem shiftLeft_of_lt {x : Int} (h0 : 0 ≤ x) (h : 2 * x < 2147483648) : shiftLeft x = 2 * x := by
  unfold shiftLeft
  omega

/-- Every deadline but the final one is a whole number of seconds away, so nothing is carried. -/
theorem add_toMin {now : Timespec} (hnow : now.Valid) (k : Nat) :
    ∃ r, now.add (toMin * 2 ^ k) = some r ∧ r.Valid ∧
      r.nanos = now.nanos + 2 ^ k * 1000000000 := by
  have hpos : (0 : Int) < 2 ^ k := Int.pow_pos (by decide)
  have hwhole : (toMin * 2 ^ k) % 1000 = 0 := Int.mul_emod_right 1000 (2 ^ k)
  obtain ⟨r, hadd, hnanos, hvalid⟩ := Timespec.add_spec hnow
    (show 0 ≤ toMin * 2 ^ k by unfold toMin; omega)
  refine ⟨r, hadd, hvalid.mpr ?_, ?_⟩
  · obtain ⟨hlow, hhigh⟩ := hnow
    unfold Timespec.Uncarried
    omega
  · unfold toMin at hnanos
    omega

/-- The stretches that have timed out fit between the start and the final deadline, so a short
timeout has at most 20 of them. -/
theorem timeouts_le {timeout : Int} (hshort : timeout < 2097151000) {k : Nat}
    (hk : (2 ^ k - 1) * 1000000000 ≤ timeout * 1000000) : k ≤ 20 := by
  by_contra hmore
  have hpow : (2 : Int) ^ 21 ≤ 2 ^ k := pow_le_pow_right₀ (by decide) (by omega)
  omega

theorem step_cases {s t : Call1} {a : Call1Action} (h : s.step a = some t) :
    (a = .giveUp ∧ s.pc = .top ∧ s.finaldeadline.tvSec = 0 ∧ t = { s with pc := .returned false }) ∨
    (∃ now next, a = .wait now ∧ s.pc = .top ∧ s.finaldeadline.tvSec ≠ 0 ∧ s.CanBe now ∧
      now.add s.currTo = some next ∧ t = s.waitFor now next) ∨
    (∃ now deadline, a = .timedOut now ∧ s.pc = .waiting deadline ∧ deadline.Valid ∧ s.CanBe now ∧
      deadline.nanos ≤ now.nanos ∧
      t = { s with
        currTo := shiftLeft s.currTo, pc := .top, clock := now, timeouts := s.timeouts + 1 }) ∨
    (∃ deadline, a = .invalid ∧ s.pc = .waiting deadline ∧ ¬ deadline.Valid ∧
      t = { s with waits := s.waits ++ [deadline] }) ∨
    (∃ deadline, a = .reply ∧ s.pc = .waiting deadline ∧ t = { s with pc := .returned true }) := by
  cases a <;> cases hpc : s.pc <;> simp only [step, hpc, reduceCtorEq] at h
  case giveUp.top =>
    split at h
    · cases h
      exact .inl ⟨rfl, rfl, ‹_›, rfl⟩
    · cases h
  case wait.top now =>
    split at h
    case isTrue hcan =>
      obtain ⟨next, hadd, rfl⟩ := Option.map_eq_some_iff.mp h
      exact .inr (.inl ⟨now, next, rfl, rfl, hcan.1, hcan.2, hadd, rfl⟩)
    case isFalse => cases h
  case timedOut.waiting now deadline =>
    split at h
    case isTrue hend =>
      cases h
      exact .inr (.inr (.inl ⟨now, deadline, rfl, rfl, hend.1, hend.2.1, hend.2.2, rfl⟩))
    case isFalse => cases h
  case invalid.waiting deadline =>
    split at h
    · cases h
    · cases h
      exact .inr (.inr (.inr (.inl ⟨deadline, rfl, rfl, ‹_›, rfl⟩)))
  case reply.waiting deadline =>
    cases h
    exact .inr (.inr (.inr (.inr ⟨deadline, rfl, rfl, rfl⟩)))

theorem step_wait {s : Call1} {now next : Timespec} (hpc : s.pc = .top)
    (hnonzero : s.finaldeadline.tvSec ≠ 0) (hcan : s.CanBe now)
    (hadd : now.add s.currTo = some next) : s.step (.wait now) = some (s.waitFor now next) := by
  simp only [step, hpc]
  rw [if_pos ⟨hnonzero, hcan⟩, hadd]
  rfl

theorem step_timedOut {s : Call1} {now deadline : Timespec} (hpc : s.pc = .waiting deadline)
    (hvalid : deadline.Valid) (hcan : s.CanBe now) (hend : deadline.nanos ≤ now.nanos) :
    s.step (.timedOut now) = some { s with
      currTo := shiftLeft s.currTo, pc := .top, clock := now, timeouts := s.timeouts + 1 } := by
  simp only [step, hpc]
  exact if_pos ⟨hvalid, hcan, hend⟩

/-! ## The invariant -/

/-- The final deadline has not been used. -/
structure Open (now : Timespec) (timeout : Int) (s : Call1) : Prop where
  valid : s.finaldeadline.Valid
  exact : s.finaldeadline.nanos = now.nanos + timeout * 1000000
  nonzero : s.finaldeadline.tvSec ≠ 0

/-- The last wait is for the final deadline, and it is the last one there will be. -/
structure Closed (now : Timespec) (timeout : Int) (s : Call1) : Prop where
  zero : s.finaldeadline.tvSec = 0
  last : ∃ d, s.waits.getLast? = some d ∧ d.nanos = now.nanos + timeout * 1000000

/-- The time from which on a call can be in the state after `k` timeouts. -/
def after (now : Timespec) (k : Nat) : Int := now.nanos + (2 ^ k - 1) * 1000000000

/-- What holds at each place of the loop. -/
def At (now : Timespec) (timeout : Int) (s : Call1) : Call1Pc → Prop
  | .top =>
    s.waits.length = s.timeouts ∧
      (s.Open now timeout ∧ after now s.timeouts ≤ s.clock.nanos ∧
          after now s.timeouts ≤ now.nanos + timeout * 1000000 ∨
        s.Closed now timeout ∧ s.timeouts ≤ 21)
  | .waiting d =>
    s.waits.length = s.timeouts + 1 ∧ d.Valid ∧ s.timeouts ≤ 20 ∧
      (s.Open now timeout ∧ after now (s.timeouts + 1) ≤ d.nanos ∧
          d.nanos ≤ now.nanos + timeout * 1000000 ∨
        s.Closed now timeout)
  | .returned true => s.waits.length = s.timeouts + 1 ∧ s.timeouts ≤ 20
  | .returned false => s.waits.length = s.timeouts ∧ s.timeouts ≤ 21 ∧ s.Closed now timeout

structure Inv (now : Timespec) (timeout : Int) (s : Call1) : Prop where
  clock : s.clock.Valid
  valid : ∀ d ∈ s.waits, d.Valid
  within : ∀ d ∈ s.waits, d.nanos ≤ now.nanos + timeout * 1000000
  doubled : s.currTo = toMin * 2 ^ s.timeouts
  at_pc : At now timeout s s.pc

section Invariant

variable {now : Timespec} {timeout : Int} {s : Call1}

theorem after_succ (now : Timespec) (k : Nat) :
    after now (k + 1) = after now k + 2 ^ k * 1000000000 := by
  unfold after
  omega

theorem Inv.waitFor (h : s.Inv now timeout) (hshort : timeout < 2097151000) (hpc : s.pc = .top)
    (hnonzero : s.finaldeadline.tvSec ≠ 0) {clock next : Timespec} (hcan : s.CanBe clock)
    (hadd : clock.add s.currTo = some next) : (s.waitFor clock next).Inv now timeout := by
  obtain ⟨hclock, hvalid, hwithin, hdoubled, hat⟩ := h
  rw [hpc] at hat
  obtain ⟨hlength, ⟨hopen, htime, hfits⟩ | ⟨hclosed, -⟩⟩ := hat
  case inr => exact absurd hclosed.zero hnonzero
  have hk : s.timeouts ≤ 20 := timeouts_le hshort (by unfold after at hfits; omega)
  rw [hdoubled] at hadd
  obtain ⟨r, hr, hrvalid, hrnanos⟩ := add_toMin hcan.1 s.timeouts
  obtain rfl : r = next := Option.some.inj (hr.symm.trans hadd)
  have hcmp := Timespec.cmp_pos_iff hrvalid hopen.valid
  unfold Call1.waitFor
  split
  case isTrue =>
    refine ⟨hcan.1, ?_, ?_, hdoubled, ?_⟩
    · exact List.forall_mem_append.mpr ⟨hvalid, List.forall_mem_singleton.mpr hopen.valid⟩
    · exact List.forall_mem_append.mpr
        ⟨hwithin, List.forall_mem_singleton.mpr (le_of_eq hopen.exact)⟩
    · refine ⟨?_, hopen.valid, hk, .inr ⟨rfl, s.finaldeadline, ?_, hopen.exact⟩⟩
      · simp [hlength]
      · simp
  case isFalse hnot =>
    have hle : r.nanos ≤ now.nanos + timeout * 1000000 := by
      have := mt hcmp.mpr hnot
      have := hopen.exact
      omega
    refine ⟨hcan.1, ?_, ?_, hdoubled, ?_⟩
    · exact List.forall_mem_append.mpr ⟨hvalid, List.forall_mem_singleton.mpr hrvalid⟩
    · exact List.forall_mem_append.mpr ⟨hwithin, List.forall_mem_singleton.mpr hle⟩
    · refine ⟨by simp [hlength], hrvalid, hk, .inl ⟨⟨hopen.valid, hopen.exact, hnonzero⟩, ?_, hle⟩⟩
      have := after_succ now s.timeouts
      have := hcan.2
      show after now (s.timeouts + 1) ≤ r.nanos
      omega

theorem Inv.timedOut (h : s.Inv now timeout) {clock deadline : Timespec}
    (hpc : s.pc = .waiting deadline) (hcan : s.CanBe clock) (hend : deadline.nanos ≤ clock.nanos) :
    Inv now timeout { s with
      currTo := shiftLeft s.currTo, pc := .top, clock := clock, timeouts := s.timeouts + 1 } := by
  obtain ⟨-, hvalid, hwithin, hdoubled, hat⟩ := h
  rw [hpc] at hat
  obtain ⟨hlength, -, hk, hrest⟩ := hat
  refine ⟨hcan.1, hvalid, hwithin, ?_, hlength, ?_⟩
  · have hpow : (2 : Int) ^ s.timeouts ≤ 2 ^ 20 := pow_le_pow_right₀ (by decide) hk
    have hpos : (0 : Int) < 2 ^ s.timeouts := Int.pow_pos (by decide)
    show shiftLeft s.currTo = toMin * 2 ^ (s.timeouts + 1)
    rw [hdoubled, shiftLeft_of_lt] <;> unfold toMin <;> omega
  · obtain ⟨hopen, hafter, hle⟩ | hclosed := hrest
    · exact .inl ⟨⟨hopen.valid, hopen.exact, hopen.nonzero⟩, le_trans hafter hend,
        le_trans hafter hle⟩
    · exact .inr ⟨⟨hclosed.zero, hclosed.last⟩, Nat.succ_le_succ hk⟩

theorem Inv.step (hshort : timeout < 2097151000) (h : s.Inv now timeout) {a : Call1Action}
    {t : Call1} (hstep : s.step a = some t) : t.Inv now timeout := by
  obtain ⟨-, hpc, hzero, rfl⟩ | ⟨clock, next, -, hpc, hnonzero, hcan, hadd, rfl⟩ |
    ⟨clock, deadline, -, hpc, -, hcan, hend, rfl⟩ | ⟨deadline, -, hpc, hinvalid, rfl⟩ |
    ⟨deadline, -, hpc, rfl⟩ := step_cases hstep
  · obtain ⟨hclock, hvalid, hwithin, hdoubled, hat⟩ := h
    rw [hpc] at hat
    obtain ⟨hlength, ⟨hopen, -⟩ | ⟨hclosed, hk⟩⟩ := hat
    · exact absurd hzero hopen.nonzero
    · exact ⟨hclock, hvalid, hwithin, hdoubled, hlength, hk, hclosed.zero, hclosed.last⟩
  · exact h.waitFor hshort hpc hnonzero hcan hadd
  · exact h.timedOut hpc hcan hend
  · -- A deadline that is waited for is valid.
    have hat := h.at_pc
    rw [hpc] at hat
    exact absurd hat.2.1 hinvalid
  · obtain ⟨hclock, hvalid, hwithin, hdoubled, hat⟩ := h
    rw [hpc] at hat
    exact ⟨hclock, hvalid, hwithin, hdoubled, hat.1, hat.2.2.1⟩

/-- A call that has not returned can go on without a reply. -/
theorem Inv.goesOn (h : s.Inv now timeout) (hpc : ∀ b, s.pc ≠ .returned b) :
    ∃ a t, a ≠ .reply ∧ s.step a = some t := by
  obtain ⟨hclock, -, -, hdoubled, hat⟩ := h
  cases hs : s.pc with
  | returned b => exact absurd hs (hpc b)
  | top =>
    by_cases hzero : s.finaldeadline.tvSec = 0
    · exact ⟨.giveUp, _, nofun, by simp only [Call1.step, hs, if_pos hzero]; rfl⟩
    · obtain ⟨r, hr, -⟩ := add_toMin hclock s.timeouts
      rw [← hdoubled] at hr
      exact ⟨.wait s.clock, _, nofun, step_wait hs hzero ⟨hclock, le_refl _⟩ hr⟩
  | waiting d =>
    rw [hs] at hat
    obtain ⟨-, hd, -⟩ := hat
    rcases le_total s.clock.nanos d.nanos with hle | hle
    · exact ⟨.timedOut d, _, nofun, step_timedOut hs hd ⟨hd, hle⟩ (le_refl _)⟩
    · exact ⟨.timedOut s.clock, _, nofun, step_timedOut hs hd ⟨hclock, le_refl _⟩ hle⟩

theorem Inv.onTime (h : s.Inv now timeout) (hshort : timeout < 2097151000) :
    s.OnTime now timeout := by
  refine ⟨h.valid, h.within, ?_, h.doubled, ?_, h.goesOn⟩
  · intro hpc
    have hat := h.at_pc
    rw [hpc] at hat
    exact hat.2.2.last
  · have hat := h.at_pc
    cases hpc : s.pc with
    | top =>
      rw [hpc] at hat
      obtain ⟨hlength, ⟨-, -, hfits⟩ | ⟨-, hk⟩⟩ := hat
      · have hk := timeouts_le hshort (k := s.timeouts) (by unfold after at hfits; omega)
        omega
      · omega
    | waiting d =>
      rw [hpc] at hat
      have := hat.1
      have := hat.2.2.1
      omega
    | returned b =>
      rw [hpc] at hat
      cases b <;> have := hat.1 <;> have := hat.2 <;> omega

end Invariant

/-! ## A timeout that is too long -/

/-- The call whose waits end exactly at their deadlines is here after `k` timeouts. -/
structure Punctual (now final : Timespec) (k : Nat) (s : Call1) : Prop where
  finaldeadline : s.finaldeadline = final
  currTo : s.currTo = toMin * 2 ^ k
  pc : s.pc = .top
  timeouts : s.timeouts = k
  valid : s.clock.Valid
  clock : s.clock.nanos = after now k

section Long

variable {now final : Timespec} {timeout : Int}

/-- A punctual call waits until `deadline`, the next one or the final one. -/
theorem Punctual.reachable {k : Nat} {s : Call1} (hp : s.Punctual now final k)
    (hs : (system now timeout).Reachable s) (hnonzero : final.tvSec ≠ 0) {r deadline : Timespec}
    (hr : s.clock.add (toMin * 2 ^ k) = some r) (hpc : (s.waitFor s.clock r).pc = .waiting deadline)
    (hvalid : deadline.Valid) (hlater : s.clock.nanos ≤ deadline.nanos) :
    (system now timeout).Reachable { s.waitFor s.clock r with
      currTo := shiftLeft (s.waitFor s.clock r).currTo
      pc := .top
      clock := deadline
      timeouts := (s.waitFor s.clock r).timeouts + 1 } := by
  have hwait : s.step (.wait s.clock) = some (s.waitFor s.clock r) :=
    step_wait hp.pc (by rw [hp.finaldeadline]; exact hnonzero) ⟨hp.valid, le_refl _⟩
      (by rw [hp.currTo]; exact hr)
  have hclock : (s.waitFor s.clock r).clock = s.clock := by
    unfold waitFor
    split <;> rfl
  have hend := step_timedOut hpc hvalid ⟨hvalid, by rw [hclock]; exact hlater⟩ (le_refl _)
  exact .step (.step hs trivial hwait) trivial hend

/-- The first 21 deadlines are before the final one when the timeout is long. -/
theorem exists_punctual (hnow : now.Valid) (hadd : now.add timeout = some final)
    (hfinal : final.Valid) (hnanos : final.nanos = now.nanos + timeout * 1000000)
    (hnonzero : final.tvSec ≠ 0) (hlong : 2097151000 ≤ timeout) :
    ∀ k ≤ 21, ∃ s, (system now timeout).Reachable s ∧ s.Punctual now final k := by
  intro k
  induction k with
  | zero =>
    intro _
    exact ⟨_, .init (congrArg (Option.map _) hadd), rfl, rfl, rfl, rfl, hnow, by simp [after]⟩
  | succ k ih =>
    intro hk
    obtain ⟨s, hs, hp⟩ := ih (Nat.le_of_succ_le hk)
    obtain ⟨r, hr, hrvalid, hrnanos⟩ := add_toMin hp.valid k
    have hafter : r.nanos = after now (k + 1) := by
      rw [after_succ, hrnanos, hp.clock]
    have hpow : (2 : Int) ^ (k + 1) ≤ 2 ^ 21 := pow_le_pow_right₀ (by decide) hk
    have hpos : (0 : Int) < 2 ^ k := Int.pow_pos (by decide)
    have hbefore : ¬ Timespec.cmp r s.finaldeadline > 0 := by
      rw [hp.finaldeadline, Timespec.cmp_pos_iff hrvalid hfinal, hafter, hnanos]
      unfold after
      omega
    have hwait : s.waitFor s.clock r =
        { s with pc := .waiting r, clock := s.clock, waits := s.waits ++ [r] } := if_neg hbefore
    have hnext := hp.reachable hs hnonzero hr (congrArg Call1.pc hwait) hrvalid (by omega)
    rw [hwait] at hnext
    refine ⟨_, hnext, hp.finaldeadline, ?_, rfl, congrArg (· + 1) hp.timeouts, hrvalid, hafter⟩
    show shiftLeft s.currTo = toMin * 2 ^ (k + 1)
    rw [hp.currTo, shiftLeft_of_lt] <;> unfold toMin <;> omega

/-- After 21 timeouts the call waits for its final deadline, and doubles `2097152000` then. -/
theorem exists_overflow (hnow : now.Valid) (hadd : now.add timeout = some final)
    (hfinal : final.Valid) (hnanos : final.nanos = now.nanos + timeout * 1000000)
    (hnonzero : final.tvSec ≠ 0) (hlong : 2097151000 ≤ timeout) (hint : timeout < 2147483648) :
    ∃ s, (system now timeout).Reachable s ∧ s.currTo ≠ toMin * 2 ^ s.timeouts := by
  obtain ⟨s, hs, hp⟩ := exists_punctual hnow hadd hfinal hnanos hnonzero hlong 21 (le_refl _)
  obtain ⟨r, hr, hrvalid, hrnanos⟩ := add_toMin hp.valid 21
  have hclock := hp.clock
  unfold after at hclock
  have hbehind : Timespec.cmp r s.finaldeadline > 0 := by
    rw [hp.finaldeadline, Timespec.cmp_pos_iff hrvalid hfinal]
    omega
  have hwait : s.waitFor s.clock r = { s with
      finaldeadline := { s.finaldeadline with tvSec := 0 }
      pc := .waiting s.finaldeadline
      clock := s.clock
      waits := s.waits ++ [s.finaldeadline] } := if_pos hbehind
  have hend := hp.reachable hs hnonzero hr (congrArg Call1.pc hwait)
    (by rw [hp.finaldeadline]; exact hfinal) (by rw [hp.finaldeadline]; omega)
  rw [hwait] at hend
  refine ⟨_, hend, ?_⟩
  show shiftLeft s.currTo ≠ toMin * 2 ^ (s.timeouts + 1)
  rw [hp.currTo, hp.timeouts]
  decide

end Long

/-! ## The deadlines -/

/-- The deadlines of a call are valid and bounded exactly when they are regular. -/
theorem deadlines_iff_regular {now : Timespec} (hnow : now.Valid) {timeout : Int}
    (hnonneg : 0 ≤ timeout) (hint : timeout < 2147483648) :
    Deadlines now timeout ↔ Regular now timeout := by
  obtain ⟨final, hadd, hnanos, hvalid⟩ := Timespec.add_spec hnow hnonneg
  have hstart : (system now timeout).Reachable
      ⟨final, toMin, .top, now, [], 0⟩ := .init (congrArg (Option.map _) hadd)
  constructor
  · rintro ⟨⟨r, hr, -, hrvalid⟩, hall⟩
    obtain rfl : r = final := Option.some.inj (hr.symm.trans hadd)
    have hnonzero : r.tvSec ≠ 0 := by
      -- The loop would end before its first wait.
      intro hzero
      have hgiveUp : (system now timeout).step ⟨r, toMin, .top, now, [], 0⟩ .giveUp =
          some ⟨r, toMin, .returned false, now, [], 0⟩ := if_pos hzero
      have hend := hall _ (.step hstart trivial hgiveUp)
      obtain ⟨d, hd, -⟩ := hend.last rfl
      cases hd
    refine ⟨hvalid.mp hrvalid, ?_, ?_⟩
    · rw [← hnanos]
      unfold Timespec.nanos
      have := hrvalid.1
      have := hrvalid.2
      omega
    · by_contra hlong
      obtain ⟨s, hs, hne⟩ := exists_overflow hnow hadd hrvalid hnanos hnonzero
        (Int.not_lt.mp hlong) hint
      exact hne (hall s hs).doubled
  · intro hreg
    have hfinal : final.Valid := hvalid.mpr hreg.carried
    refine ⟨⟨final, hadd, hnanos, hfinal⟩, fun s hs => ?_⟩
    refine Inv.onTime (hs.invariant ?_ ?_) hreg.short
    · intro s hinit
      obtain rfl : _ = s := Option.some.inj ((congrArg (Option.map _) hadd).symm.trans hinit)
      have hnonzero : final.tvSec ≠ 0 := by
        have h := hreg.nonzero
        rw [← hnanos] at h
        unfold Timespec.nanos at h
        have := hfinal.1
        have := hfinal.2
        omega
      have hafter : after now 0 = now.nanos := by simp [after]
      refine ⟨hnow, by simp, by simp, rfl, rfl,
        .inl ⟨⟨hfinal, hnanos, hnonzero⟩, le_of_eq hafter, ?_⟩⟩
      show after now 0 ≤ now.nanos + timeout * 1000000
      omega
    · exact fun s a t h hstep => h.step hreg.short hstep

/-- A timeout of two minutes. -/
theorem deadlines_twoMinutes : Deadlines ⟨1000, 5⟩ 120000 :=
  (deadlines_iff_regular (by decide) (by decide) (by decide)).mpr
    ⟨by unfold Timespec.Uncarried; decide, by decide, by decide⟩

/-- At a nanosecond `1000000`, a timeout of 999 milliseconds ends at nanosecond `1000000000`.  The
wait for it is refused, and tried again. -/
theorem deadlines_not_refused :
    Timespec.add ⟨1000, 1000000⟩ 999 = some ⟨1000, 1000000000⟩ ∧
      ¬ Deadlines ⟨1000, 1000000⟩ 999 := by
  refine ⟨by decide, ?_⟩
  rintro ⟨⟨r, hr, -, hvalid⟩, -⟩
  obtain rfl : r = ⟨1000, 1000000000⟩ := Option.some.inj (hr.symm.trans (by decide))
  exact absurd hvalid (by decide)

end Call1
end Rpc
end Frangipani
