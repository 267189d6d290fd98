/-
Condition variables.

A thread that waits on a condition is asleep until a signal, a broadcast or a spurious
wake-up.  From then on it is woken, until it has the mutex again and looks once more at
what it waited for.  A signal wakes one thread that is asleep, and which one is a
choice; it has no effect when nobody is.

`Covers c n` is why a signal for each thing is enough.  While a thread is asleep, there
are at least as many woken threads as there are things to be had.  Threads that come by
without having waited may take a thing from a woken one, but they never leave more
things than woken threads.
-/
import Mathlib.Data.List.Basic
import Mathlib.Data.List.Perm.Basic

universe u

namespace Frangipani
namespace Concurrency

structure Condition (T : Type u) where
  asleep : List T
  woken : List T
  deriving DecidableEq, Repr

namespace Condition

variable {T : Type u}

/-- Nobody waits. -/
def empty : Condition T := ⟨[], []⟩

/-- The threads that are in a wait. -/
def threads (c : Condition T) : List T := c.asleep ++ c.woken

def wait (c : Condition T) (t : T) : Condition T := { c with asleep := c.asleep ++ [t] }

theorem threads_wait (c : Condition T) (t : T) : (c.wait t).threads.Perm (t :: c.threads) := by
  show (c.asleep ++ [t] ++ c.woken).Perm (t :: (c.asleep ++ c.woken))
  rw [List.append_assoc]
  exact List.perm_middle

/-- All are woken. -/
def broadcast (c : Condition T) : Condition T := ⟨[], c.woken ++ c.asleep⟩

theorem threads_broadcast (c : Condition T) : c.broadcast.threads.Perm c.threads := by
  show (c.woken ++ c.asleep).Perm (c.asleep ++ c.woken)
  exact List.perm_append_comm

theorem mem_woken_broadcast {c : Condition T} {t : T} :
    t ∈ c.broadcast.woken ↔ t ∈ c.threads :=
  c.threads_broadcast.mem_iff

/-- There are as many woken threads as things, unless nobody is asleep. -/
def Covers (c : Condition T) (n : Nat) : Prop := c.asleep = [] ∨ n ≤ c.woken.length

theorem covers_empty (n : Nat) : (empty : Condition T).Covers n := .inl rfl

theorem covers_wait (c : Condition T) (t : T) : (c.wait t).Covers 0 := .inr (Nat.zero_le _)

/-- Things are taken by threads that did not wait. -/
theorem Covers.mono {c : Condition T} {n m : Nat} (h : c.Covers n) (hm : m ≤ n) : c.Covers m :=
  h.imp id (Nat.le_trans hm)

/-- When there is a thing, a thread that is asleep has a woken one to go before it. -/
theorem Covers.exists_woken {c : Condition T} {n : Nat} {t : T} (h : c.Covers n) (hn : 0 < n)
    (ht : t ∈ c.asleep) : ∃ t', t' ∈ c.woken := by
  rcases h with hnil | hle
  · rw [hnil] at ht
    exact absurd ht List.not_mem_nil
  · exact List.exists_mem_of_length_pos (Nat.lt_of_lt_of_le hn hle)

variable [DecidableEq T]

def wake (c : Condition T) (t : T) : Condition T := ⟨c.asleep.erase t, c.woken ++ [t]⟩

/-- A signal, with the thread that it wakes. -/
def signal (c : Condition T) : Option T → Option (Condition T)
  | some t => if t ∈ c.asleep then some (c.wake t) else none
  | none => if c.asleep = [] then some c else none

/-- The thread has the mutex again. -/
def resume (c : Condition T) (t : T) : Condition T := { c with woken := c.woken.erase t }

theorem signal_cases {c d : Condition T} {w : Option T} (h : c.signal w = some d) :
    (∃ t ∈ c.asleep, w = some t ∧ d = c.wake t) ∨ (c.asleep = [] ∧ w = none ∧ d = c) := by
  cases w with
  | some t =>
    obtain ⟨ht, ⟨⟩⟩ := Option.ite_none_right_eq_some.mp h
    exact .inl ⟨t, ht, rfl, rfl⟩
  | none =>
    obtain ⟨hnil, ⟨⟩⟩ := Option.ite_none_right_eq_some.mp h
    exact .inr ⟨hnil, rfl, rfl⟩

theorem exists_signal (c : Condition T) : ∃ w d, c.signal w = some d := by
  cases hc : c.asleep with
  | nil => exact ⟨none, c, if_pos hc⟩
  | cons t rest =>
    have ht : t ∈ c.asleep := hc ▸ List.mem_cons_self
    exact ⟨some t, c.wake t, if_pos ht⟩

/-! ## Who waits -/

theorem threads_wake {c : Condition T} {t : T} (ht : t ∈ c.asleep) :
    (c.wake t).threads.Perm c.threads := by
  show (c.asleep.erase t ++ (c.woken ++ [t])).Perm (c.asleep ++ c.woken)
  rw [← List.append_assoc]
  apply List.perm_append_comm.trans
  exact (List.perm_cons_erase ht).symm.append_right c.woken

theorem threads_signal {c d : Condition T} {w : Option T} (h : c.signal w = some d) :
    d.threads.Perm c.threads := by
  rcases signal_cases h with ⟨t, ht, -, rfl⟩ | ⟨-, -, rfl⟩
  · exact threads_wake ht
  · exact List.Perm.refl _

theorem asleep_signal {c d : Condition T} {w : Option T} (hone : c.threads.length ≤ 1)
    (h : c.signal w = some d) : d.asleep = [] := by
  rcases signal_cases h with ⟨t, ht, -, rfl⟩ | ⟨hnil, -, rfl⟩
  · have hlength : c.asleep.length ≤ 1 := by
      have hsum : c.threads.length = c.asleep.length + c.woken.length := List.length_append
      omega
    have herase := List.length_erase_of_mem ht
    exact List.length_eq_zero_iff.mp (by show (c.asleep.erase t).length = 0; omega)
  · exact hnil

theorem threads_resume {c : Condition T} {t : T} (ht : t ∈ c.woken) :
    c.threads.Perm (t :: (c.resume t).threads) :=
  ((List.perm_cons_erase ht).append_left c.asleep).trans List.perm_middle

theorem length_woken_signal_le {c d : Condition T} {w : Option T} (h : c.signal w = some d) :
    d.woken.length ≤ c.woken.length + 1 := by
  rcases signal_cases h with ⟨t, -, -, rfl⟩ | ⟨-, -, rfl⟩
  · exact Nat.le_of_eq List.length_append
  · exact Nat.le_succ _

theorem length_woken_resume {c : Condition T} {t : T} (ht : t ∈ c.woken) :
    (c.resume t).woken.length + 1 = c.woken.length := by
  have hpos := List.length_pos_of_mem ht
  show (c.woken.erase t).length + 1 = c.woken.length
  rw [List.length_erase_of_mem ht]
  omega

/-! ## No signal is missed -/

theorem Covers.wake {c : Condition T} {n : Nat} (h : c.Covers n) (t : T) :
    (c.wake t).Covers n := by
  rcases h with hnil | hle
  · left
    show c.asleep.erase t = []
    rw [hnil]
    rfl
  · right
    show n ≤ (c.woken ++ [t]).length
    rw [List.length_append]
    omega

theorem Covers.signal {c d : Condition T} {n : Nat} {w : Option T} (h : c.Covers n)
    (hs : c.signal w = some d) : d.Covers (n + 1) := by
  rcases signal_cases hs with ⟨t, ht, -, rfl⟩ | ⟨hnil, -, rfl⟩
  · right
    rcases h with hnil | hle
    · rw [hnil] at ht
      exact absurd ht List.not_mem_nil
    · show n + 1 ≤ (c.woken ++ [t]).length
      rw [List.length_append]
      exact Nat.succ_le_succ hle
  · exact .inl hnil

theorem Covers.resume {c : Condition T} {n : Nat} {t : T} (h : c.Covers n) (ht : t ∈ c.woken) :
    (c.resume t).Covers (n - 1) := by
  have hlen := length_woken_resume ht
  exact h.imp id fun hle => by omega

end Condition
end Concurrency
end Frangipani
