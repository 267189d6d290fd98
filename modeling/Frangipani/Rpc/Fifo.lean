/-
The queue between threads (`rpc/fifo.h`).

`enq` waits while the queue is full, or returns false when it must not wait; `deq` waits
while the queue is empty.  Each has a condition of its own, and each signals the other
one.  Both run under `m_` and look again at the queue after every wait, so a step goes
from the start of a call, or from the end of a wait, to the return or to the next wait.

Any number of threads use the queue.  A limit of 0 is no limit.
-/
import Frangipani.Concurrency.Condition
import Frangipani.Transition.System

namespace Frangipani
namespace Rpc

open Concurrency Transition

/-- A `fifo` with producers `P` and consumers `C`.  A producer that waits has its element with
it. -/
structure Fifo (P C α : Type) where
  q : List α
  max : Nat
  nonEmptyC : Condition C
  hasSpaceC : Condition (P × α)
  deriving DecidableEq

namespace Fifo

variable {P C α : Type}

def new (limit : Nat) : Fifo P C α where
  q := []
  max := limit
  nonEmptyC := .empty
  hasSpaceC := .empty

def HasSpace (f : Fifo P C α) : Prop := f.max = 0 ∨ f.q.length < f.max

instance (f : Fifo P C α) : Decidable f.HasSpace := inferInstanceAs (Decidable (_ ∨ _))

/-- The loop of `enq`, with what `enq` returns unless it waits, and the consumer that the signal
wakes. -/
def enq [DecidableEq C] (f : Fifo P C α) (p : P) (e : α) (blocking : Bool) (wake : Option C) :
    Option (Fifo P C α × Option Bool) :=
  if f.HasSpace then
    (f.nonEmptyC.signal wake).map fun c => ({ f with q := f.q ++ [e], nonEmptyC := c }, some true)
  else if blocking then some ({ f with hasSpaceC := f.hasSpaceC.wait (p, e) }, none)
  else some (f, some false)

/-- The loop of `deq`, with the element unless it waits, and the producer that the signal wakes. -/
def deq [DecidableEq P] [DecidableEq α] (f : Fifo P C α) (c : C) (wake : Option (P × α)) :
    Option (Fifo P C α × Option α) :=
  match f.q with
  | [] => some ({ f with nonEmptyC := f.nonEmptyC.wait c }, none)
  | e :: q =>
    if f.max ≠ 0 ∧ q.length < f.max then
      (f.hasSpaceC.signal wake).map fun s => ({ f with q := q, hasSpaceC := s }, some e)
    else some ({ f with q := q }, some e)

/-- `enq` after a wait. -/
def enqResume [DecidableEq P] [DecidableEq C] [DecidableEq α] (f : Fifo P C α) (p : P)
    (e : α) (wake : Option C) : Option (Fifo P C α × Option Bool) :=
  if (p, e) ∈ f.hasSpaceC.woken then
    { f with hasSpaceC := f.hasSpaceC.resume (p, e) }.enq p e true wake
  else none

/-- `deq` after a wait. -/
def deqResume [DecidableEq P] [DecidableEq C] [DecidableEq α] (f : Fifo P C α) (c : C)
    (wake : Option (P × α)) : Option (Fifo P C α × Option α) :=
  if c ∈ f.nonEmptyC.woken then { f with nonEmptyC := f.nonEmptyC.resume c }.deq c wake else none

/-- A producer wakes up without a signal. -/
def wakeProducer [DecidableEq P] [DecidableEq α] (f : Fifo P C α) (p : P) (e : α) :
    Option (Fifo P C α) :=
  if (p, e) ∈ f.hasSpaceC.asleep then some { f with hasSpaceC := f.hasSpaceC.wake (p, e) } else none

def wakeConsumer [DecidableEq C] (f : Fifo P C α) (c : C) : Option (Fifo P C α) :=
  if c ∈ f.nonEmptyC.asleep then some { f with nonEmptyC := f.nonEmptyC.wake c } else none

/-! ## What the loops do -/

theorem enq_cases [DecidableEq C] {f g : Fifo P C α} {p : P} {e : α} {blocking : Bool}
    {wake : Option C} {r : Option Bool} (h : f.enq p e blocking wake = some (g, r)) :
    (f.HasSpace ∧ r = some true ∧ ∃ c, f.nonEmptyC.signal wake = some c ∧
      g = { f with q := f.q ++ [e], nonEmptyC := c }) ∨
    (¬ f.HasSpace ∧ blocking = true ∧ r = none ∧
      g = { f with hasSpaceC := f.hasSpaceC.wait (p, e) }) ∨
    (¬ f.HasSpace ∧ blocking = false ∧ r = some false ∧ g = f) := by
  unfold enq at h
  split at h
  · obtain ⟨c, hc, heq⟩ := Option.map_eq_some_iff.mp h
    cases heq
    exact .inl ⟨‹_›, rfl, c, hc, rfl⟩
  · cases blocking with
    | true =>
      cases h
      exact .inr (.inl ⟨‹_›, rfl, rfl, rfl⟩)
    | false =>
      cases h
      exact .inr (.inr ⟨‹_›, rfl, rfl, rfl⟩)

theorem deq_cases [DecidableEq P] [DecidableEq α] {f g : Fifo P C α} {c : C}
    {wake : Option (P × α)} {r : Option α} (h : f.deq c wake = some (g, r)) :
    (f.q = [] ∧ r = none ∧ g = { f with nonEmptyC := f.nonEmptyC.wait c }) ∨
    ∃ e q, f.q = e :: q ∧ r = some e ∧
      ((f.max ≠ 0 ∧ q.length < f.max ∧ ∃ s, f.hasSpaceC.signal wake = some s ∧
        g = { f with q := q, hasSpaceC := s }) ∨
      (¬ (f.max ≠ 0 ∧ q.length < f.max) ∧ g = { f with q := q })) := by
  unfold deq at h
  split at h
  · cases h
    exact .inl ⟨‹_›, rfl, rfl⟩
  · rename_i e q hq
    split at h
    · rename_i hspace
      obtain ⟨s, hs, heq⟩ := Option.map_eq_some_iff.mp h
      cases heq
      exact .inr ⟨e, q, hq, rfl, .inl ⟨hspace.1, hspace.2, s, hs, rfl⟩⟩
    · cases h
      exact .inr ⟨e, q, hq, rfl, .inr ⟨‹_›, rfl⟩⟩

/-- A call that is not yet in its wait is never held up by the signal it gives. -/
theorem exists_enq [DecidableEq C] (f : Fifo P C α) (p : P) (e : α) (blocking : Bool) :
    ∃ wake g, f.enq p e blocking wake = some g := by
  obtain ⟨wake, c, hc⟩ := f.nonEmptyC.exists_signal
  refine ⟨wake, ?_⟩
  unfold enq
  rw [hc]
  split_ifs <;> exact ⟨_, rfl⟩

theorem exists_deq [DecidableEq P] [DecidableEq α] (f : Fifo P C α) (c : C) :
    ∃ wake g, f.deq c wake = some g := by
  obtain ⟨wake, s, hs⟩ := f.hasSpaceC.exists_signal
  refine ⟨wake, ?_⟩
  unfold deq
  rw [hs]
  split
  · exact ⟨_, rfl⟩
  · split_ifs <;> exact ⟨_, rfl⟩

/-! ## The invariant -/

/-- The queue is within its limit, each element has a woken consumer while one is asleep, and each
free place a woken producer. -/
structure Inv (f : Fifo P C α) : Prop where
  bounded : f.max ≠ 0 → f.q.length ≤ f.max
  consumers : f.nonEmptyC.Covers f.q.length
  producers : f.hasSpaceC.Covers (f.max - f.q.length)

theorem inv_new (limit : Nat) : (new limit : Fifo P C α).Inv where
  bounded := fun _ => Nat.zero_le _
  consumers := Condition.covers_empty _
  producers := Condition.covers_empty _

/-- One place less may be covered: a producer that was woken is not any more when it goes on. -/
theorem inv_enq [DecidableEq C] {f g : Fifo P C α} {p : P} {e : α} {blocking : Bool}
    {wake : Option C} {r : Option Bool} (hbounded : f.max ≠ 0 → f.q.length ≤ f.max)
    (hconsumers : f.nonEmptyC.Covers f.q.length)
    (hproducers : f.hasSpaceC.Covers (f.max - f.q.length - 1))
    (h : f.enq p e blocking wake = some (g, r)) : g.Inv := by
  rcases enq_cases h with ⟨hspace, -, c, hc, rfl⟩ | ⟨hfull, -, -, rfl⟩ | ⟨hfull, -, -, hg⟩
  · have hlen : (f.q ++ [e]).length = f.q.length + 1 := by rw [List.length_append]; rfl
    constructor
    · intro hmax
      show (f.q ++ [e]).length ≤ f.max
      rw [hlen]
      exact hspace.resolve_left hmax
    · show c.Covers (f.q ++ [e]).length
      rw [hlen]
      exact hconsumers.signal hc
    · show f.hasSpaceC.Covers (f.max - (f.q ++ [e]).length)
      rw [hlen]
      exact hproducers
  · have hzero : f.max - f.q.length = 0 := by
      unfold HasSpace at hfull
      omega
    refine ⟨hbounded, hconsumers, ?_⟩
    show (f.hasSpaceC.wait (p, e)).Covers (f.max - f.q.length)
    rw [hzero]
    exact Condition.covers_wait _ _
  · have hzero : f.max - f.q.length = 0 := by
      unfold HasSpace at hfull
      omega
    rw [hg]
    refine ⟨hbounded, hconsumers, ?_⟩
    rw [hzero] at hproducers ⊢
    exact hproducers

theorem inv_deq [DecidableEq P] [DecidableEq α] {f g : Fifo P C α} {c : C}
    {wake : Option (P × α)} {r : Option α} (hbounded : f.max ≠ 0 → f.q.length ≤ f.max)
    (hconsumers : f.nonEmptyC.Covers (f.q.length - 1))
    (hproducers : f.hasSpaceC.Covers (f.max - f.q.length))
    (h : f.deq c wake = some (g, r)) : g.Inv := by
  rcases deq_cases h with ⟨hnil, -, rfl⟩ | ⟨e, q, hq, -, hcase⟩
  · refine ⟨hbounded, ?_, hproducers⟩
    show (f.nonEmptyC.wait c).Covers f.q.length
    rw [hnil]
    exact Condition.covers_wait _ _
  · have hlen : f.q.length = q.length + 1 := by rw [hq]; rfl
    rw [hlen] at hbounded hconsumers hproducers
    rcases hcase with ⟨hmax, hlt, s, hs, rfl⟩ | ⟨hno, rfl⟩
    · refine ⟨fun _ => Nat.le_of_lt hlt, hconsumers, ?_⟩
      -- The place of the element is free now, and comes with the signal.
      have := hproducers.signal hs
      exact this.mono (by show f.max - q.length ≤ _; omega)
    · -- Without a signal there is no limit.
      have hzero : f.max = 0 := by
        by_contra hmax
        exact hno ⟨hmax, hbounded hmax⟩
      refine ⟨fun hmax => absurd hzero hmax, hconsumers, ?_⟩
      exact hproducers.mono (by show f.max - q.length ≤ _; omega)

namespace Inv

variable {f g : Fifo P C α} {p : P} {c : C} {e : α}

theorem enq [DecidableEq C] {blocking : Bool} {wake : Option C} {r : Option Bool} (h : f.Inv)
    (hs : f.enq p e blocking wake = some (g, r)) : g.Inv :=
  inv_enq h.bounded h.consumers (h.producers.mono (Nat.sub_le _ _)) hs

theorem deq [DecidableEq P] [DecidableEq α] {wake : Option (P × α)} {r : Option α} (h : f.Inv)
    (hs : f.deq c wake = some (g, r)) : g.Inv :=
  inv_deq h.bounded (h.consumers.mono (Nat.sub_le _ _)) h.producers hs

theorem enqResume [DecidableEq P] [DecidableEq C] [DecidableEq α] {wake : Option C}
    {r : Option Bool} (h : f.Inv) (hs : f.enqResume p e wake = some (g, r)) : g.Inv := by
  obtain ⟨hwoken, hs⟩ := Option.ite_none_right_eq_some.mp hs
  exact inv_enq (f := { f with hasSpaceC := f.hasSpaceC.resume (p, e) }) h.bounded h.consumers
    (h.producers.resume hwoken) hs

theorem deqResume [DecidableEq P] [DecidableEq C] [DecidableEq α] {wake : Option (P × α)}
    {r : Option α} (h : f.Inv) (hs : f.deqResume c wake = some (g, r)) : g.Inv := by
  obtain ⟨hwoken, hs⟩ := Option.ite_none_right_eq_some.mp hs
  exact inv_deq (f := { f with nonEmptyC := f.nonEmptyC.resume c }) h.bounded
    (h.consumers.resume hwoken) h.producers hs

theorem wakeProducer [DecidableEq P] [DecidableEq α] (h : f.Inv)
    (hs : f.wakeProducer p e = some g) : g.Inv := by
  obtain ⟨-, ⟨⟩⟩ := Option.ite_none_right_eq_some.mp hs
  exact ⟨h.bounded, h.consumers, h.producers.wake _⟩

theorem wakeConsumer [DecidableEq C] (h : f.Inv) (hs : f.wakeConsumer c = some g) : g.Inv := by
  obtain ⟨-, ⟨⟩⟩ := Option.ite_none_right_eq_some.mp hs
  exact ⟨h.bounded, h.consumers.wake _, h.producers⟩

end Inv
end Fifo

/-! ## Threads that use the queue -/

/-- A `fifo` with the elements that `enq` has put in and those that `deq` has returned, in the order
in which they did. -/
structure Queueing (P C α : Type) where
  fifo : Fifo P C α
  entered : List α
  taken : List (C × α)
  deriving DecidableEq

/-- A step of a thread.  The last two are wake-ups without a signal. -/
inductive QueueAction (P C α : Type)
  | enq (p : P) (e : α) (blocking : Bool) (wake : Option C)
  | enqResume (p : P) (e : α) (wake : Option C)
  | deq (c : C) (wake : Option (P × α))
  | deqResume (c : C) (wake : Option (P × α))
  | wakeProducer (p : P) (e : α)
  | wakeConsumer (c : C)

namespace Queueing

variable {P C α : Type}

def new (limit : Nat) : Queueing P C α := { fifo := .new limit, entered := [], taken := [] }

/-- The state after `enq` with the element `e`. -/
def enqueued (s : Queueing P C α) (e : α) (r : Fifo P C α × Option Bool) : Queueing P C α :=
  { s with fifo := r.1, entered := if r.2 = some true then s.entered ++ [e] else s.entered }

/-- The state after `deq` by `c`. -/
def dequeued (s : Queueing P C α) (c : C) (r : Fifo P C α × Option α) : Queueing P C α :=
  { s with
    fifo := r.1
    taken := match r.2 with
      | some e => s.taken ++ [(c, e)]
      | none => s.taken }

def step [DecidableEq P] [DecidableEq C] [DecidableEq α] (s : Queueing P C α) :
    QueueAction P C α → Option (Queueing P C α)
  | .enq p e blocking wake =>
    if p ∈ s.fifo.hasSpaceC.threads.map Prod.fst then none
    else (s.fifo.enq p e blocking wake).map (s.enqueued e)
  | .enqResume p e wake => (s.fifo.enqResume p e wake).map (s.enqueued e)
  | .deq c wake =>
    if c ∈ s.fifo.nonEmptyC.threads then none else (s.fifo.deq c wake).map (s.dequeued c)
  | .deqResume c wake => (s.fifo.deqResume c wake).map (s.dequeued c)
  | .wakeProducer p e => (s.fifo.wakeProducer p e).map fun f => { s with fifo := f }
  | .wakeConsumer c => (s.fifo.wakeConsumer c).map fun f => { s with fifo := f }

def system [DecidableEq P] [DecidableEq C] [DecidableEq α] (limit : Nat) :
    System (Queueing P C α) (QueueAction P C α) where
  init s := s = new limit
  step := step

/-- The elements leave in the order in which they came, no more than `limit` of them wait, and no
wake-up is lost: while a consumer is asleep there is a woken one for each element, and while a
producer is asleep there is a woken one for each free place. -/
structure Sound (limit : Nat) (s : Queueing P C α) : Prop where
  order : s.entered = s.taken.map Prod.snd ++ s.fifo.q
  bounded : limit ≠ 0 → s.fifo.q.length ≤ limit
  consumers : s.fifo.nonEmptyC.asleep ≠ [] → s.fifo.q.length ≤ s.fifo.nonEmptyC.woken.length
  producers : s.fifo.hasSpaceC.asleep ≠ [] →
    limit ≤ s.fifo.q.length + s.fifo.hasSpaceC.woken.length

structure Inv (limit : Nat) (s : Queueing P C α) : Prop where
  fifo : s.fifo.Inv
  max : s.fifo.max = limit
  order : s.entered = s.taken.map Prod.snd ++ s.fifo.q

theorem inv_new (limit : Nat) : Inv limit (new limit : Queueing P C α) where
  fifo := Fifo.inv_new limit
  max := rfl
  order := rfl

theorem Inv.sound {limit : Nat} {s : Queueing P C α} (h : s.Inv limit) : s.Sound limit where
  order := h.order
  bounded := h.max ▸ h.fifo.bounded
  consumers := h.fifo.consumers.resolve_left
  producers := fun hne => by
    have := h.fifo.producers.resolve_left hne
    rw [h.max] at this
    omega

theorem Inv.enqueued [DecidableEq C] {limit : Nat} {s : Queueing P C α} {f g : Fifo P C α} {p : P}
    {e : α} {blocking : Bool} {wake : Option C} {r : Option Bool} (h : s.Inv limit)
    (hq : f.q = s.fifo.q) (hmax : f.max = s.fifo.max) (hinv : g.Inv)
    (hs : f.enq p e blocking wake = some (g, r)) : (s.enqueued e (g, r)).Inv limit := by
  rcases Fifo.enq_cases hs with ⟨-, rfl, c, -, rfl⟩ | ⟨-, -, rfl, rfl⟩ | ⟨-, -, rfl, rfl⟩
  · refine ⟨hinv, hmax.trans h.max, ?_⟩
    show s.entered ++ [e] = s.taken.map Prod.snd ++ (f.q ++ [e])
    rw [h.order, hq, List.append_assoc]
  · exact ⟨hinv, hmax.trans h.max, hq ▸ h.order⟩
  · exact ⟨hinv, hmax.trans h.max, hq ▸ h.order⟩

theorem Inv.dequeued [DecidableEq P] [DecidableEq α] {limit : Nat} {s : Queueing P C α}
    {f g : Fifo P C α} {c : C} {wake : Option (P × α)} {r : Option α} (h : s.Inv limit)
    (hq : f.q = s.fifo.q) (hmax : f.max = s.fifo.max) (hinv : g.Inv)
    (hs : f.deq c wake = some (g, r)) : (s.dequeued c (g, r)).Inv limit := by
  rcases Fifo.deq_cases hs with ⟨-, rfl, rfl⟩ | ⟨e, q, hcons, rfl, hcase⟩
  · exact ⟨hinv, hmax.trans h.max, hq ▸ h.order⟩
  · have hg : g.max = f.max ∧ g.q = q := by
      rcases hcase with ⟨-, -, s, -, rfl⟩ | ⟨-, rfl⟩ <;> exact ⟨rfl, rfl⟩
    refine ⟨hinv, hg.1.trans (hmax.trans h.max), ?_⟩
    show s.entered = (s.taken ++ [(c, e)]).map Prod.snd ++ g.q
    rw [h.order, ← hq, hcons, hg.2, List.map_append, List.append_assoc]
    rfl

theorem Inv.step [DecidableEq P] [DecidableEq C] [DecidableEq α] {limit : Nat}
    {s t : Queueing P C α} {a : QueueAction P C α} (h : s.Inv limit)
    (hs : s.step a = some t) : t.Inv limit := by
  cases a with
  | enq p e blocking wake =>
    obtain ⟨-, hs⟩ := Option.ite_none_left_eq_some.mp hs
    obtain ⟨⟨g, r⟩, hg, rfl⟩ := Option.map_eq_some_iff.mp hs
    exact h.enqueued rfl rfl (h.fifo.enq hg) hg
  | enqResume p e wake =>
    obtain ⟨⟨g, r⟩, hg, rfl⟩ := Option.map_eq_some_iff.mp hs
    exact h.enqueued (f := { s.fifo with hasSpaceC := s.fifo.hasSpaceC.resume (p, e) }) rfl rfl
      (h.fifo.enqResume hg) (Option.ite_none_right_eq_some.mp hg).2
  | deq c wake =>
    obtain ⟨-, hs⟩ := Option.ite_none_left_eq_some.mp hs
    obtain ⟨⟨g, r⟩, hg, rfl⟩ := Option.map_eq_some_iff.mp hs
    exact h.dequeued rfl rfl (h.fifo.deq hg) hg
  | deqResume c wake =>
    obtain ⟨⟨g, r⟩, hg, rfl⟩ := Option.map_eq_some_iff.mp hs
    exact h.dequeued (f := { s.fifo with nonEmptyC := s.fifo.nonEmptyC.resume c }) rfl rfl
      (h.fifo.deqResume hg) (Option.ite_none_right_eq_some.mp hg).2
  | wakeProducer p e =>
    obtain ⟨g, hg, rfl⟩ := Option.map_eq_some_iff.mp hs
    obtain ⟨-, ⟨⟩⟩ := Option.ite_none_right_eq_some.mp hg
    exact ⟨h.fifo.wakeProducer hg, h.max, h.order⟩
  | wakeConsumer c =>
    obtain ⟨g, hg, rfl⟩ := Option.map_eq_some_iff.mp hs
    obtain ⟨-, ⟨⟩⟩ := Option.ite_none_right_eq_some.mp hg
    exact ⟨h.fifo.wakeConsumer hg, h.max, h.order⟩

/-- Whatever the threads do, and whenever they wake up, the queue stays sound. -/
theorem sound_alongRun [DecidableEq P] [DecidableEq C] [DecidableEq α] (limit : Nat)
    (actions : List (QueueAction P C α)) :
    (system limit).AlongRun (Sound limit) (new limit) actions :=
  (System.StepsMeet.alongRun (fun _ _ _ h _ hs => h.step hs) (inv_new limit)
    (System.stepsMeet_of_forall (fun _ _ => trivial) _ _)).mono fun _ h => h.sound

end Queueing
end Rpc
end Frangipani
