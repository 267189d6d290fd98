/-
The pool of threads that run jobs (`rpc/thr_pool.cc`).

The workers take jobs from a queue that holds up to a hundred for each of them.  The
destructor puts a job without a function into the queue for every worker, and a worker
that takes one of these ends.  Then the destructor joins the workers.

The destructor may be called only when no other thread uses the pool or will use it.
Under that condition it is shown what the trick with these last jobs is for: every job
that was accepted has been run, and has returned, when the destructor returns.  And it
does return.  No thread is left asleep that another one waits for, and without spurious
wake-ups only so many steps are left.
-/
import Mathlib.Algebra.GroupWithZero.Nat
import Mathlib.Data.List.Perm.Basic
import Frangipani.Concurrency.Threads
import Frangipani.Rpc.Fifo

namespace Frangipani
namespace Rpc

open Concurrency Transition

/-- Where a worker is in `do_worker`: before `takeJob`, waiting in it, in a job, or at the end. -/
inductive Runner (J : Type)
  | idle
  | taking
  | running (j : J)
  | exited
  deriving DecidableEq

/-- Where the destructor is.  It is at a job without a function, before `enq` or waiting in it, with
`k` more to come, or at the joins. -/
inductive Destroying
  | no
  | adding (k : Nat)
  | blocked (k : Nat)
  | joining
  | returned
  deriving DecidableEq

/-- The head of the first loop of the destructor, with `k` rounds to go. -/
def Destroying.loop : Nat → Destroying
  | 0 => .joining
  | k + 1 => .adding k

/-- The producers are the threads that call `addJob`, and the destructor.  A job without a function
is `none`. -/
structure ThrPool (Thr J : Type) (n : Nat) where
  blockadd : Bool
  jobq : Fifo (Option Thr) (Fin n) (Option J)
  worker : Fin n → Runner J
  destroying : Destroying
  /-- The jobs that `addJob` has put into the queue, those that a worker has begun, and those that
  have returned. -/
  accepted : List J
  started : List J
  finished : List J

/-- A step of a thread, with the thread that its signal wakes.  The last two are wake-ups without a
signal. -/
inductive PoolAction (Thr J : Type) (n : Nat)
  | addJob (t : Thr) (j : J) (wake : Option (Fin n))
  | addResume (t : Thr) (j : J) (wake : Option (Fin n))
  | takeJob (w : Fin n) (wake : Option (Option Thr × Option J))
  | takeResume (w : Fin n) (wake : Option (Option Thr × Option J))
  | jobReturn (w : Fin n)
  | destroy
  | addPill (wake : Option (Fin n))
  | pillResume (wake : Option (Fin n))
  | join
  | wakeProducer (p : Option Thr) (j : Option J)
  | wakeWorker (w : Fin n)

namespace ThrPool

variable {Thr J : Type} {n : Nat}

/-- The constructor. -/
def new (n : Nat) (blocking : Bool) : ThrPool Thr J n where
  blockadd := blocking
  jobq := .new (100 * n)
  worker _ := .idle
  destroying := .no
  accepted := []
  started := []
  finished := []

/-- `addJob` with what `enq` has returned. -/
def added (s : ThrPool Thr J n) (j : J)
    (r : Fifo (Option Thr) (Fin n) (Option J) × Option Bool) : ThrPool Thr J n :=
  { s with jobq := r.1, accepted := if r.2 = some true then s.accepted ++ [j] else s.accepted }

/-- `takeJob` with what `deq` has returned, and the worker's loop up to its next call. -/
def took (s : ThrPool Thr J n) (w : Fin n) :
    Fifo (Option Thr) (Fin n) (Option J) × Option (Option J) → ThrPool Thr J n
  | (f, none) => { s with jobq := f, worker := Function.update s.worker w .taking }
  | (f, some none) => { s with jobq := f, worker := Function.update s.worker w .exited }
  | (f, some (some j)) =>
    { s with jobq := f, worker := Function.update s.worker w (.running j),
             started := s.started ++ [j] }

/-- The destructor with what `enq` has returned. -/
def pill (s : ThrPool Thr J n) (k : Nat)
    (r : Fifo (Option Thr) (Fin n) (Option J) × Option Bool) : ThrPool Thr J n :=
  { s with jobq := r.1, destroying := if r.2 = none then .blocked k else .loop k }

def returns (s : ThrPool Thr J n) (w : Fin n) : Option (ThrPool Thr J n) :=
  match s.worker w with
  | .running j =>
    some { s with worker := Function.update s.worker w .idle, finished := s.finished ++ [j] }
  | _ => none

variable [DecidableEq Thr] [DecidableEq J]

/-- The first loop of the destructor. -/
def addPill (s : ThrPool Thr J n) (wake : Option (Fin n)) : Option (ThrPool Thr J n) :=
  match s.destroying with
  | .adding k => (s.jobq.enq none none true wake).map (s.pill k)
  | _ => none

/-- The same after a wait. -/
def pillResume (s : ThrPool Thr J n) (wake : Option (Fin n)) : Option (ThrPool Thr J n) :=
  match s.destroying with
  | .blocked k => (s.jobq.enqResume none none wake).map (s.pill k)
  | _ => none

def step (s : ThrPool Thr J n) : PoolAction Thr J n → Option (ThrPool Thr J n)
  | .addJob t j wake =>
    if some t ∈ s.jobq.hasSpaceC.threads.map Prod.fst then none
    else (s.jobq.enq (some t) (some j) s.blockadd wake).map (s.added j)
  | .addResume t j wake => (s.jobq.enqResume (some t) (some j) wake).map (s.added j)
  | .takeJob w wake =>
    if s.worker w = .idle then (s.jobq.deq w wake).map (s.took w) else none
  | .takeResume w wake => (s.jobq.deqResume w wake).map (s.took w)
  | .jobReturn w => s.returns w
  | .destroy => if s.destroying = .no then some { s with destroying := .loop n } else none
  | .addPill wake => s.addPill wake
  | .pillResume wake => s.pillResume wake
  | .join =>
    if s.destroying = .joining ∧ ∀ w, s.worker w = .exited then
      some { s with destroying := .returned }
    else none
  | .wakeProducer p j => (s.jobq.wakeProducer p j).map fun f => { s with jobq := f }
  | .wakeWorker w => (s.jobq.wakeConsumer w).map fun f => { s with jobq := f }

def system (n : Nat) (blocking : Bool) : System (ThrPool Thr J n) (PoolAction Thr J n) where
  init s := s = new n blocking
  step := step

/-- The destructor is called when no thread is in `addJob`, and none calls it from then on. -/
def Orderly (s : ThrPool Thr J n) : PoolAction Thr J n → Prop
  | .addJob _ _ _ => s.destroying = .no
  | .destroy => s.jobq.hasSpaceC.threads = []
  | _ => True

instance (s : ThrPool Thr J n) : DecidablePred s.Orderly
  | .addJob _ _ _ => inferInstanceAs (Decidable (_ = _))
  | .destroy => inferInstanceAs (Decidable (_ = _))
  | .addResume _ _ _ | .takeJob _ _ | .takeResume _ _ | .jobReturn _ | .addPill _ | .pillResume _
  | .join | .wakeProducer _ _ | .wakeWorker _ => isTrue trivial

omit [DecidableEq Thr] [DecidableEq J] in
theorem returns_eq_some {s t : ThrPool Thr J n} {w : Fin n} (h : s.returns w = some t) :
    ∃ j, s.worker w = .running j ∧
      t = { s with worker := Function.update s.worker w .idle, finished := s.finished ++ [j] } := by
  unfold returns at h
  split at h
  · cases h
    exact ⟨_, ‹_›, rfl⟩
  · cases h

omit [DecidableEq Thr] [DecidableEq J] in
theorem addPill_eq_some {s t : ThrPool Thr J n} {wake : Option (Fin n)}
    (h : s.addPill wake = some t) : ∃ k r, s.destroying = .adding k ∧
      s.jobq.enq none none true wake = some r ∧ t = s.pill k r := by
  unfold addPill at h
  split at h
  · obtain ⟨r, hr, heq⟩ := Option.map_eq_some_iff.mp h
    exact ⟨_, r, ‹_›, hr, heq.symm⟩
  · cases h

theorem pillResume_eq_some {s t : ThrPool Thr J n} {wake : Option (Fin n)}
    (h : s.pillResume wake = some t) : ∃ k r, s.destroying = .blocked k ∧
      s.jobq.enqResume none none wake = some r ∧ t = s.pill k r := by
  unfold pillResume at h
  split at h
  · obtain ⟨r, hr, heq⟩ := Option.map_eq_some_iff.mp h
    exact ⟨_, r, ‹_›, hr, heq.symm⟩
  · cases h

/-- What the destructor promises. -/
structure Drained (s : ThrPool Thr J n) : Prop where
  queue : s.jobq.q = []
  workers : ∀ w, s.worker w = .exited
  started : s.started = s.accepted
  finished : s.finished.Perm s.accepted

/-! ## The jobs -/

end ThrPool

/-- 1 for a worker that has ended. -/
def Runner.out {J : Type} : Runner J → Nat
  | .exited => 1
  | _ => 0

/-- 1 for a worker in the job `j`. -/
def Runner.runs {J : Type} [DecidableEq J] (j : J) : Runner J → Nat
  | .running k => if k = j then 1 else 0
  | _ => 0

/-- The number of jobs without a function that are not in the queue yet. -/
def Destroying.left (n : Nat) : Destroying → Nat
  | .no => n
  | .adding k => k + 1
  | .blocked k => k + 1
  | .joining => 0
  | .returned => 0

theorem Destroying.left_loop (n k : Nat) : (loop k).left n = k := by
  cases k <;> rfl

section Accounts

variable {J : Type} [DecidableEq J] {n : Nat}

/-- Where the jobs are.  What was accepted has been begun or is in the queue, in this order, and
what was begun has returned or is in a worker.  The jobs without a function are behind all others,
and each of them is for one worker. -/
structure Accounts (q : List (Option J)) (worker : Fin n → Runner J) (d : Destroying)
    (accepted started finished : List J) : Prop where
  order : accepted = started ++ q.filterMap id
  runs : ∀ j, started.count j = finished.count j + total (Runner.runs j) worker
  pills : q.count none + total Runner.out worker + d.left n = n
  last : q.Pairwise fun a b => a = none → b = none
  drained : 0 < total Runner.out worker → ∀ x ∈ q, x = none

namespace Accounts

variable {q : List (Option J)} {worker : Fin n → Runner J} {d : Destroying}
  {accepted started finished : List J} {w : Fin n}

theorem new : Accounts [] (fun _ : Fin n => (.idle : Runner J)) .no [] [] [] := by
  have hout : total Runner.out (fun _ : Fin n => (.idle : Runner J)) = 0 :=
    total_eq_zero fun _ => rfl
  constructor
  · rfl
  · intro j
    have hruns : total (Runner.runs j) (fun _ : Fin n => (.idle : Runner J)) = 0 :=
      total_eq_zero fun _ => rfl
    rw [hruns]
    rfl
  · rw [hout]
    exact Nat.zero_add n
  · exact List.Pairwise.nil
  · exact fun _ x hx => absurd hx List.not_mem_nil

theorem no_pills (h : Accounts q worker .no accepted started finished) :
    (∀ x ∈ q, x ≠ none) ∧ total Runner.out worker = 0 := by
  have hpills : q.count none + total Runner.out worker + n = n := h.pills
  refine ⟨fun x hx hnone => ?_, by omega⟩
  have hpos : 0 < q.count none := List.count_pos_iff.mpr (hnone ▸ hx)
  omega

theorem add (h : Accounts q worker .no accepted started finished) (j : J) :
    Accounts (q ++ [some j]) worker .no (accepted ++ [j]) started finished := by
  obtain ⟨hjobs, hout⟩ := h.no_pills
  constructor
  · rw [h.order, List.filterMap_append, List.append_assoc]
    rfl
  · exact h.runs
  · rw [List.count_append]
    exact h.pills
  · refine List.pairwise_append.mpr ⟨h.last, List.pairwise_singleton _ _, fun x hx y _ hnone => ?_⟩
    exact absurd hnone (hjobs x hx)
  · intro hpos
    omega

theorem addPill {d' : Destroying} (h : Accounts q worker d accepted started finished)
    (hleft : d.left n = d'.left n + 1) :
    Accounts (q ++ [none]) worker d' accepted started finished := by
  constructor
  · rw [h.order, List.filterMap_append]
    simp
  · exact h.runs
  · have hpills := h.pills
    rw [List.count_append, List.count_singleton_self]
    omega
  · refine List.pairwise_append.mpr ⟨h.last, List.pairwise_singleton _ _, fun x _ y hy _ => ?_⟩
    exact List.mem_singleton.mp hy
  · intro hpos x hx
    rcases List.mem_append.mp hx with hx | hx
    · exact h.drained hpos x hx
    · exact List.mem_singleton.mp hx

theorem destroying {d' : Destroying} (h : Accounts q worker d accepted started finished)
    (hleft : d.left n = d'.left n) : Accounts q worker d' accepted started finished :=
  { h with pills := hleft ▸ h.pills }

theorem moves {x : Runner J} (h : Accounts q worker d accepted started finished)
    (hout : x.out = (worker w).out) (hruns : ∀ j, x.runs j = (worker w).runs j) :
    Accounts q (Function.update worker w x) d accepted started finished := by
  have htotal := total_update Runner.out worker w x
  have hsame : total Runner.out (Function.update worker w x) = total Runner.out worker := by omega
  constructor
  · exact h.order
  · intro j
    have hj := total_update (Runner.runs j) worker w x
    have := h.runs j
    have := hruns j
    omega
  · rw [hsame]
    exact h.pills
  · exact h.last
  · rw [hsame]
    exact h.drained

theorem start {j : J} (h : Accounts (some j :: q) worker d accepted started finished)
    (hout : (worker w).out = 0) (hruns : ∀ j, (worker w).runs j = 0) :
    Accounts q (Function.update worker w (.running j)) d accepted (started ++ [j]) finished := by
  have htotal : total Runner.out (Function.update worker w (.running j)) + (worker w).out =
      total Runner.out worker + 0 := total_update Runner.out worker w (.running j)
  have hsame : total Runner.out (Function.update worker w (.running j)) =
      total Runner.out worker := by omega
  constructor
  · rw [h.order, List.append_assoc]
    rfl
  · intro i
    have hi : total (Runner.runs i) (Function.update worker w (.running j)) + (worker w).runs i =
        total (Runner.runs i) worker + if j = i then 1 else 0 :=
      total_update (Runner.runs i) worker w (.running j)
    have := h.runs i
    have := hruns i
    rw [List.count_append, List.count_singleton]
    simp only [beq_iff_eq]
    omega
  · rw [hsame]
    have hpills := h.pills
    rwa [List.count_cons_of_ne (by simp)] at hpills
  · exact (List.pairwise_cons.mp h.last).2
  · rw [hsame]
    exact fun hpos x hx => h.drained hpos x (List.mem_cons_of_mem _ hx)

theorem exit (h : Accounts (none :: q) worker d accepted started finished)
    (hout : (worker w).out = 0) (hruns : ∀ j, (worker w).runs j = 0) :
    Accounts q (Function.update worker w .exited) d accepted started finished := by
  have htotal : total Runner.out (Function.update worker w .exited) + (worker w).out =
      total Runner.out worker + 1 := total_update Runner.out worker w .exited
  constructor
  · rw [h.order]
    rfl
  · intro j
    have hj : total (Runner.runs j) (Function.update worker w .exited) + (worker w).runs j =
        total (Runner.runs j) worker + 0 := total_update (Runner.runs j) worker w .exited
    have := h.runs j
    have := hruns j
    omega
  · have hpills := h.pills
    rw [List.count_cons_self] at hpills
    omega
  · exact (List.pairwise_cons.mp h.last).2
  · exact fun _ x hx => (List.pairwise_cons.mp h.last).1 x hx rfl

theorem finish {j : J} (h : Accounts q worker d accepted started finished)
    (hw : worker w = .running j) :
    Accounts q (Function.update worker w .idle) d accepted started (finished ++ [j]) := by
  have htotal : total Runner.out (Function.update worker w .idle) + (worker w).out =
      total Runner.out worker + 0 := total_update Runner.out worker w .idle
  have hout : (worker w).out = 0 := by rw [hw]; rfl
  have hsame : total Runner.out (Function.update worker w .idle) = total Runner.out worker := by
    omega
  constructor
  · exact h.order
  · intro i
    have hi : total (Runner.runs i) (Function.update worker w .idle) + (worker w).runs i =
        total (Runner.runs i) worker + 0 := total_update (Runner.runs i) worker w .idle
    have hone : (worker w).runs i = if j = i then 1 else 0 := by rw [hw]; rfl
    have := h.runs i
    rw [List.count_append, List.count_singleton]
    simp only [beq_iff_eq]
    omega
  · rw [hsame]
    exact h.pills
  · exact h.last
  · rw [hsame]
    exact h.drained

theorem all_done (h : Accounts q worker d accepted started finished) (hn : 0 < n)
    (hexited : ∀ w, worker w = .exited) :
    q = [] ∧ started = accepted ∧ finished.Perm accepted := by
  have hout : total Runner.out worker = n := by
    rw [total_eq_card fun w => by rw [hexited w]; rfl, Fintype.card_fin]
  have hpills := h.pills
  have hq : q = [] := by
    -- Only jobs without a function are left, and there are none of these either.
    have hnone : ∀ x ∈ q, x = none := h.drained (by omega)
    rw [List.eq_replicate_of_mem hnone, List.count_replicate_self] at hpills
    exact List.eq_nil_of_length_eq_zero (by omega)
  have horder := h.order
  rw [hq, List.filterMap_nil, List.append_nil] at horder
  refine ⟨hq, horder.symm, List.perm_iff_count.mpr fun j => ?_⟩
  have hruns := h.runs j
  rw [total_eq_zero fun w => by rw [hexited w]; rfl] at hruns
  rw [horder]
  exact hruns.symm

end Accounts
end Accounts

/-! ## The waits -/

section Waits

variable {Thr J : Type} {n : Nat}

/-- The workers that wait are those in `takeJob`. -/
structure Sleepers (c : Condition (Fin n)) (worker : Fin n → Runner J) : Prop where
  nodup : c.threads.Nodup
  taking : ∀ w, worker w = .taking ↔ w ∈ c.threads

/-- The worker `w` does not wait, whatever it is said to do. -/
structure Awake (c : Condition (Fin n)) (worker : Fin n → Runner J) (w : Fin n) : Prop where
  nodup : c.threads.Nodup
  self : w ∉ c.threads
  others : ∀ v, v ≠ w → (worker v = .taking ↔ v ∈ c.threads)

namespace Sleepers

variable {c c' : Condition (Fin n)} {worker : Fin n → Runner J} {w : Fin n}

theorem of_perm (h : Sleepers c worker) (hp : c'.threads.Perm c.threads) : Sleepers c' worker where
  nodup := hp.nodup_iff.mpr h.nodup
  taking := fun w => (h.taking w).trans hp.mem_iff.symm

theorem awake (h : Sleepers c worker) (hw : worker w ≠ .taking) : Awake c worker w where
  nodup := h.nodup
  self := fun hmem => hw ((h.taking w).mpr hmem)
  others := fun v _ => h.taking v

theorem awake_resume (h : Sleepers c worker) (hw : w ∈ c.woken) :
    Awake (c.resume w) worker w := by
  have hp := Condition.threads_resume hw
  obtain ⟨hself, hnodup⟩ := List.nodup_cons.mp (hp.nodup_iff.mp h.nodup)
  refine ⟨hnodup, hself, fun v hv => (h.taking v).trans (hp.mem_iff.trans ?_)⟩
  rw [List.mem_cons]
  exact or_iff_right hv

end Sleepers

namespace Awake

variable {c : Condition (Fin n)} {worker : Fin n → Runner J} {w : Fin n}

theorem waits (h : Awake c worker w) :
    Sleepers (c.wait w) (Function.update worker w .taking) := by
  have hp := c.threads_wait w
  refine ⟨hp.nodup_iff.mpr (List.nodup_cons.mpr ⟨h.self, h.nodup⟩), fun v => ?_⟩
  rw [hp.mem_iff, List.mem_cons]
  by_cases hv : v = w
  · rw [hv, Function.update_self]
    exact iff_of_true rfl (.inl rfl)
  · rw [Function.update_of_ne hv, h.others v hv]
    exact (or_iff_right hv).symm

theorem leaves {x : Runner J} (h : Awake c worker w) (hx : x ≠ .taking) :
    Sleepers c (Function.update worker w x) := by
  refine ⟨h.nodup, fun v => ?_⟩
  by_cases hv : v = w
  · rw [hv, Function.update_self]
    exact iff_of_false hx h.self
  · rw [Function.update_of_ne hv]
    exact h.others v hv

end Awake

/-- The destructor waits for a free place when it says so, and then no other producer does. -/
structure Blocked (c : Condition (Option Thr × Option J)) (d : Destroying) : Prop where
  nodup : c.threads.Nodup
  external : d ≠ .no → ∀ x ∈ c.threads, x = (none, none)
  destructor : (none, none) ∈ c.threads ↔ ∃ k, d = .blocked k

namespace Blocked

variable {c c' : Condition (Option Thr × Option J)} {d : Destroying}

theorem of_perm (h : Blocked c d) (hp : c'.threads.Perm c.threads) : Blocked c' d where
  nodup := hp.nodup_iff.mpr h.nodup
  external := fun hd x hx => h.external hd x (hp.mem_iff.mp hx)
  destructor := hp.mem_iff.trans h.destructor

theorem wait_add {t : Thr} {j : Option J} (h : Blocked c .no) (ht : (some t, j) ∉ c.threads) :
    Blocked (c.wait (some t, j)) .no := by
  have hp := c.threads_wait (some t, j)
  refine ⟨hp.nodup_iff.mpr (List.nodup_cons.mpr ⟨ht, h.nodup⟩), fun hd => absurd rfl hd, ?_⟩
  rw [hp.mem_iff, List.mem_cons, ← h.destructor]
  exact or_iff_right fun heq => by cases heq

theorem wait_pill {k : Nat} (hc : c.threads = []) :
    Blocked (c.wait (none, none)) (.blocked k) := by
  have hp := c.threads_wait (none, none)
  rw [hc] at hp
  refine ⟨hp.nodup_iff.mpr (List.nodup_singleton _), fun _ x hx => ?_, ?_⟩
  · exact List.mem_singleton.mp (hp.mem_iff.mp hx)
  · exact iff_of_true (hp.mem_iff.mpr List.mem_cons_self) ⟨k, rfl⟩

/-- Nobody waits for a free place while the destructor does not. -/
theorem nobody (h : Blocked c d) (hd : d ≠ .no) (hk : ∀ k, d ≠ .blocked k) : c.threads = [] := by
  refine List.eq_nil_iff_forall_not_mem.mpr fun x hx => ?_
  obtain ⟨k, hk'⟩ := h.destructor.mp (h.external hd x hx ▸ hx)
  exact hk k hk'

theorem of_nobody (hc : c.threads = []) (hk : ∀ k, d ≠ .blocked k) : Blocked c d := by
  refine ⟨hc ▸ List.nodup_nil, fun _ x hx => ?_, ?_⟩
  · rw [hc] at hx
    exact absurd hx List.not_mem_nil
  · rw [hc]
    exact iff_of_false List.not_mem_nil fun ⟨k, hk'⟩ => hk k hk'

theorem resume_pill [DecidableEq Thr] [DecidableEq J] {k : Nat} (h : Blocked c (.blocked k))
    (hw : (none, none) ∈ c.woken) : (c.resume (none, none)).threads = [] := by
  have hp := Condition.threads_resume hw
  obtain ⟨hself, -⟩ := List.nodup_cons.mp (hp.nodup_iff.mp h.nodup)
  refine List.eq_nil_iff_forall_not_mem.mpr fun x hx => hself ?_
  have hx' := h.external (by simp) x (hp.mem_iff.mpr (List.mem_cons_of_mem _ hx))
  exact hx' ▸ hx

/-- A thread that waits in `addJob` goes on.  The destructor has not been called then. -/
theorem resume_add [DecidableEq Thr] [DecidableEq J] {t : Thr} {j : Option J} (h : Blocked c d)
    (hw : (some t, j) ∈ c.woken) :
    d = .no ∧ (some t, j) ∉ (c.resume (some t, j)).threads ∧ Blocked (c.resume (some t, j)) d := by
  have hp := Condition.threads_resume hw
  obtain ⟨hself, hnodup⟩ := List.nodup_cons.mp (hp.nodup_iff.mp h.nodup)
  have hd : d = .no := by
    by_contra hd
    have := h.external hd (some t, j) (hp.mem_iff.mpr List.mem_cons_self)
    cases this
  refine ⟨hd, hself, hnodup, fun hne => absurd hd hne, ?_⟩
  rw [← h.destructor, hp.mem_iff, List.mem_cons]
  exact (or_iff_right fun heq => by cases heq).symm

end Blocked
end Waits

/-! ## The invariant -/

namespace ThrPool

variable {Thr J : Type} [DecidableEq Thr] [DecidableEq J] {n : Nat}

structure Inv (s : ThrPool Thr J n) : Prop where
  jobq : s.jobq.Inv
  max : s.jobq.max = 100 * n
  accounts : Accounts s.jobq.q s.worker s.destroying s.accepted s.started s.finished
  sleepers : Sleepers s.jobq.nonEmptyC s.worker
  blocked : Blocked s.jobq.hasSpaceC s.destroying
  joined : s.destroying = .returned → ∀ w, s.worker w = .exited

omit [DecidableEq Thr] in
theorem inv_new (n : Nat) (blocking : Bool) : (new n blocking : ThrPool Thr J n).Inv where
  jobq := Fifo.inv_new _
  max := rfl
  accounts := .new
  sleepers := ⟨List.nodup_nil, fun _ => iff_of_false (fun h => by cases h) List.not_mem_nil⟩
  blocked := .of_nobody rfl fun _ h => by cases h
  joined := fun h => by cases h

variable {s t : ThrPool Thr J n} {f g : Fifo (Option Thr) (Fin n) (Option J)} {w : Fin n}

omit [DecidableEq Thr] in
/-- `enq` in `addJob`, for a thread that is not in its wait. -/
theorem Inv.added {u : Thr} {j : J} {blocking : Bool} {wake : Option (Fin n)} {r : Option Bool}
    (h : s.Inv) (hd : s.destroying = .no) (hq : f.q = s.jobq.q) (hmax : f.max = s.jobq.max)
    (hcond : f.nonEmptyC = s.jobq.nonEmptyC) (hblocked : Blocked f.hasSpaceC .no)
    (hu : (some u, some j) ∉ f.hasSpaceC.threads) (hinv : g.Inv)
    (hs : f.enq (some u) (some j) blocking wake = some (g, r)) : (s.added j (g, r)).Inv := by
  have haccounts := h.accounts
  rw [hd] at haccounts
  rcases Fifo.enq_cases hs with ⟨-, rfl, c, hc, rfl⟩ | ⟨-, -, rfl, rfl⟩ | ⟨-, -, rfl, hg⟩
  · refine ⟨hinv, hmax.trans h.max, ?_, ?_, ?_, h.joined⟩
    · show Accounts (f.q ++ [some j]) s.worker s.destroying (s.accepted ++ [j]) s.started s.finished
      rw [hd, hq]
      exact haccounts.add j
    · exact h.sleepers.of_perm (hcond ▸ Condition.threads_signal hc)
    · show Blocked f.hasSpaceC s.destroying
      rw [hd]
      exact hblocked
  · refine ⟨hinv, hmax.trans h.max, hq ▸ h.accounts, hcond ▸ h.sleepers, ?_, h.joined⟩
    show Blocked (f.hasSpaceC.wait (some u, some j)) s.destroying
    rw [hd]
    exact hblocked.wait_add hu
  · subst hg
    refine ⟨hinv, hmax.trans h.max, hq ▸ h.accounts, hcond ▸ h.sleepers, ?_, h.joined⟩
    show Blocked g.hasSpaceC s.destroying
    rw [hd]
    exact hblocked

omit [DecidableEq Thr] in
/-- `enq` in the destructor, when no other thread waits for a free place. -/
theorem Inv.pill {k : Nat} {wake : Option (Fin n)} {r : Option Bool} (h : s.Inv)
    (hleft : s.destroying.left n = k + 1) (hq : f.q = s.jobq.q) (hmax : f.max = s.jobq.max)
    (hcond : f.nonEmptyC = s.jobq.nonEmptyC) (hnobody : f.hasSpaceC.threads = []) (hinv : g.Inv)
    (hs : f.enq none none true wake = some (g, r)) : (s.pill k (g, r)).Inv := by
  rcases Fifo.enq_cases hs with ⟨-, rfl, c, hc, rfl⟩ | ⟨-, -, rfl, rfl⟩ | ⟨-, hno, -⟩
  · refine ⟨hinv, hmax.trans h.max, ?_, ?_, ?_, fun hd => by cases k <;> cases hd⟩
    · show Accounts (f.q ++ [none]) s.worker (.loop k) s.accepted s.started s.finished
      rw [hq]
      exact h.accounts.addPill (by rw [Destroying.left_loop, hleft])
    · exact h.sleepers.of_perm (hcond ▸ Condition.threads_signal hc)
    · exact .of_nobody hnobody fun i hi => by cases k <;> cases hi
  · refine ⟨hinv, hmax.trans h.max, ?_, hcond ▸ h.sleepers, Blocked.wait_pill hnobody,
      fun hd => by cases hd⟩
    show Accounts f.q s.worker (.blocked k) s.accepted s.started s.finished
    rw [hq]
    exact h.accounts.destroying hleft
  · cases hno

/-- `deq` in `takeJob`, for a worker that is not in its wait. -/
theorem Inv.took {wake : Option (Option Thr × Option J)} {r : Option (Option J)} (h : s.Inv)
    (hw : s.worker w = .idle ∨ s.worker w = .taking) (hq : f.q = s.jobq.q)
    (hmax : f.max = s.jobq.max) (hspace : f.hasSpaceC = s.jobq.hasSpaceC)
    (hawake : Awake f.nonEmptyC s.worker w) (hinv : g.Inv)
    (hs : f.deq w wake = some (g, r)) : (s.took w (g, r)).Inv := by
  have hout : (s.worker w).out = 0 := by rcases hw with hw | hw <;> rw [hw] <;> rfl
  have hruns : ∀ j, (s.worker w).runs j = 0 := by
    intro j
    rcases hw with hw | hw <;> rw [hw] <;> rfl
  have hnot : s.destroying ≠ .returned := by
    intro hd
    have := h.joined hd w
    rcases hw with hw | hw <;> rw [hw] at this <;> cases this
  rcases Fifo.deq_cases hs with ⟨-, rfl, rfl⟩ | ⟨e, q, hcons, rfl, hcase⟩
  · refine ⟨hinv, hmax.trans h.max, ?_, hawake.waits, hspace ▸ h.blocked,
      fun hd => absurd hd hnot⟩
    show Accounts f.q (Function.update s.worker w .taking) _ _ _ _
    rw [hq]
    exact h.accounts.moves hout.symm fun j => (hruns j).symm
  · -- The head is gone, and the producers that wait may have got a signal.
    obtain ⟨hgmax, hgq, hgcond, hgspace⟩ : g.max = f.max ∧ g.q = q ∧ g.nonEmptyC = f.nonEmptyC ∧
        g.hasSpaceC.threads.Perm f.hasSpaceC.threads := by
      rcases hcase with ⟨-, -, c, hc, rfl⟩ | ⟨-, rfl⟩
      · exact ⟨rfl, rfl, rfl, Condition.threads_signal hc⟩
      · exact ⟨rfl, rfl, rfl, List.Perm.refl _⟩
    have haccounts := h.accounts
    rw [← hq, hcons] at haccounts
    have hblocked : Blocked g.hasSpaceC s.destroying := h.blocked.of_perm (hspace ▸ hgspace)
    have hmax' : g.max = 100 * n := hgmax.trans (hmax.trans h.max)
    rw [← hgcond] at hawake
    rw [← hgq] at haccounts
    cases e with
    | none =>
      exact ⟨hinv, hmax', haccounts.exit hout hruns, hawake.leaves (by simp), hblocked,
        fun hd => absurd hd hnot⟩
    | some j =>
      exact ⟨hinv, hmax', haccounts.start hout hruns, hawake.leaves (by simp), hblocked,
        fun hd => absurd hd hnot⟩

theorem Inv.step {a : PoolAction Thr J n} (h : s.Inv) (hok : s.Orderly a)
    (hs : s.step a = some t) : t.Inv := by
  cases a with
  | addJob u j wake =>
    obtain ⟨hu, hs⟩ := Option.ite_none_left_eq_some.mp hs
    obtain ⟨⟨g, r⟩, hg, rfl⟩ := Option.map_eq_some_iff.mp hs
    have hd : s.destroying = .no := hok
    refine h.added hd rfl rfl rfl (hd ▸ h.blocked) (fun hmem => hu ?_) (h.jobq.enq hg) hg
    exact List.mem_map.mpr ⟨_, hmem, rfl⟩
  | addResume u j wake =>
    obtain ⟨⟨g, r⟩, hg, rfl⟩ := Option.map_eq_some_iff.mp hs
    obtain ⟨hwoken, hg'⟩ := Option.ite_none_right_eq_some.mp hg
    obtain ⟨hd, hu, hblocked⟩ := h.blocked.resume_add hwoken
    exact h.added (f := { s.jobq with hasSpaceC := s.jobq.hasSpaceC.resume (some u, some j) }) hd
      rfl rfl rfl (hd ▸ hblocked) hu (h.jobq.enqResume hg) hg'
  | takeJob w wake =>
    obtain ⟨hw, hs⟩ := Option.ite_none_right_eq_some.mp hs
    obtain ⟨⟨g, r⟩, hg, rfl⟩ := Option.map_eq_some_iff.mp hs
    exact h.took (.inl hw) rfl rfl rfl (h.sleepers.awake (by rw [hw]; simp)) (h.jobq.deq hg) hg
  | takeResume w wake =>
    obtain ⟨⟨g, r⟩, hg, rfl⟩ := Option.map_eq_some_iff.mp hs
    obtain ⟨hwoken, hg'⟩ := Option.ite_none_right_eq_some.mp hg
    have hw : s.worker w = .taking :=
      (h.sleepers.taking w).mpr (List.mem_append_right _ hwoken)
    exact h.took (f := { s.jobq with nonEmptyC := s.jobq.nonEmptyC.resume w }) (.inr hw) rfl rfl rfl
      (h.sleepers.awake_resume hwoken) (h.jobq.deqResume hg) hg'
  | jobReturn w =>
    obtain ⟨j, hw, rfl⟩ := returns_eq_some hs
    refine ⟨h.jobq, h.max, h.accounts.finish hw,
      (h.sleepers.awake (by rw [hw]; simp)).leaves (by simp), h.blocked, fun hd => ?_⟩
    have := h.joined hd w
    rw [hw] at this
    cases this
  | destroy =>
    obtain ⟨hd, ⟨⟩⟩ := Option.ite_none_right_eq_some.mp hs
    refine ⟨h.jobq, h.max, h.accounts.destroying ?_, h.sleepers, ?_, fun hd => ?_⟩
    · rw [hd, Destroying.left_loop]
      rfl
    · exact .of_nobody hok fun k hk => by cases n <;> cases hk
    · cases n <;> cases hd
  | addPill wake =>
    obtain ⟨k, ⟨g, r⟩, hd, hg, rfl⟩ := addPill_eq_some hs
    have hnobody := h.blocked.nobody (by rw [hd]; simp) (by rw [hd]; simp)
    exact h.pill (by rw [hd]; rfl) rfl rfl rfl hnobody (h.jobq.enq hg) hg
  | pillResume wake =>
    obtain ⟨k, ⟨g, r⟩, hd, hg, rfl⟩ := pillResume_eq_some hs
    obtain ⟨hwoken, hg'⟩ := Option.ite_none_right_eq_some.mp hg
    have hblocked := h.blocked
    rw [hd] at hblocked
    exact h.pill (f := { s.jobq with hasSpaceC := s.jobq.hasSpaceC.resume (none, none) })
      (by rw [hd]; rfl) rfl rfl rfl (hblocked.resume_pill hwoken) (h.jobq.enqResume hg) hg'
  | join =>
    obtain ⟨⟨hd, hexited⟩, ⟨⟩⟩ := Option.ite_none_right_eq_some.mp hs
    have hnobody := h.blocked.nobody (by rw [hd]; simp) (by rw [hd]; simp)
    exact ⟨h.jobq, h.max, h.accounts.destroying (by rw [hd]; rfl), h.sleepers,
      .of_nobody hnobody (by simp), fun _ => hexited⟩
  | wakeProducer p j =>
    obtain ⟨g, hg, rfl⟩ := Option.map_eq_some_iff.mp hs
    obtain ⟨hasleep, ⟨⟩⟩ := Option.ite_none_right_eq_some.mp hg
    exact ⟨h.jobq.wakeProducer hg, h.max, h.accounts, h.sleepers,
      h.blocked.of_perm (Condition.threads_wake hasleep), h.joined⟩
  | wakeWorker w =>
    obtain ⟨g, hg, rfl⟩ := Option.map_eq_some_iff.mp hs
    obtain ⟨hasleep, ⟨⟩⟩ := Option.ite_none_right_eq_some.mp hg
    exact ⟨h.jobq.wakeConsumer hg, h.max, h.accounts,
      h.sleepers.of_perm (Condition.threads_wake hasleep), h.blocked, h.joined⟩

theorem inv_alongRun {blocking : Bool} {actions : List (PoolAction Thr J n)}
    (horderly : (system n blocking).StepsMeet Orderly (new n blocking) actions) :
    (system n blocking).AlongRun Inv (new n blocking) actions :=
  horderly.alongRun (P := Inv) (fun _ _ _ h hok hs => h.step hok hs) (inv_new n blocking)

/-- When the destructor has returned, every job that was accepted has been begun, in the order in
which they were accepted, and has returned; no job has been run twice. -/
theorem destructor_drains (n : Nat) (blocking : Bool) (actions : List (PoolAction Thr J n))
    (hn : 0 < n) (horderly : (system n blocking).StepsMeet Orderly (new n blocking) actions) :
    (system n blocking).AlongRun (fun s => s.destroying = .returned → s.Drained) (new n blocking)
      actions := by
  refine (inv_alongRun horderly).mono fun s h hd => ?_
  obtain ⟨hq, hstarted, hfinished⟩ := h.accounts.all_done hn (h.joined hd)
  exact ⟨hq, h.joined hd, hstarted, hfinished⟩

/-- Three workers and one job.  Worker 0 takes the job that worker 1 was woken for, and is still in
it when the destructor is called. -/
def shutdown : List (PoolAction Nat Nat 3) :=
  [.takeJob 1 none, .addJob 7 5 (some 1), .takeJob 0 none, .takeResume 1 none, .destroy,
    .addPill (some 1), .takeResume 1 none, .addPill none, .addPill none, .jobReturn 0,
    .takeJob 0 none, .takeJob 2 none, .join]

theorem destructor_drains_shutdown :
    ((system 3 false).run (new 3 false) shutdown).isSome = true ∧
      (system 3 false).AlongRun (fun s => s.destroying = .returned → s.Drained) (new 3 false)
        shutdown :=
  ⟨by decide +kernel, destructor_drains 3 false shutdown (by decide) (by decide +kernel)⟩

/-! ## The destructor returns -/

/-- A wake-up without a signal. -/
def Spurious : PoolAction Thr J n → Prop
  | .wakeProducer _ _ => True
  | .wakeWorker _ => True
  | _ => False

instance : DecidablePred (Spurious : PoolAction Thr J n → Prop)
  | .wakeProducer _ _ | .wakeWorker _ => isTrue trivial
  | .addJob _ _ _ | .destroy | .addResume _ _ _ | .takeJob _ _ | .takeResume _ _ | .jobReturn _
  | .addPill _ | .pillResume _ | .join => isFalse id

end ThrPool

/-- The number of steps that are left, as if every signal woke a thread for nothing. -/
def Runner.effort {J : Type} : Runner J → Nat
  | .idle => 1
  | .taking => 0
  | .running _ => 2
  | .exited => 0

def Destroying.effort : Destroying → Nat
  | .no => 0
  | .adding k => 3 * k + 4
  | .blocked k => 3 * k + 3
  | .joining => 1
  | .returned => 0

theorem Destroying.effort_loop (k : Nat) : (loop k).effort = 3 * k + 1 := by
  cases k <;> rfl

def jobEffort {J : Type} : Option J → Nat
  | none => 1
  | some _ => 4

namespace ThrPool

variable {Thr J : Type} [DecidableEq Thr] [DecidableEq J] {n : Nat}

def work (s : ThrPool Thr J n) : Nat :=
  (s.jobq.q.map jobEffort).sum + total Runner.effort s.worker + s.jobq.nonEmptyC.woken.length +
    s.jobq.hasSpaceC.woken.length + s.destroying.effort

variable {s t : ThrPool Thr J n} {f g : Fifo (Option Thr) (Fin n) (Option J)} {w : Fin n}

/-- The jobs and the producers count as before, or a job has gone and a producer may be woken. -/
theorem work_took {wake : Option (Option Thr × Option J)} {r : Option (Option J)}
    (hq : f.q = s.jobq.q) (hspace : f.hasSpaceC = s.jobq.hasSpaceC)
    (hlt : f.nonEmptyC.woken.length < s.jobq.nonEmptyC.woken.length + (s.worker w).effort)
    (hs : f.deq w wake = some (g, r)) : (s.took w (g, r)).work < s.work := by
  rcases Fifo.deq_cases hs with ⟨-, rfl, rfl⟩ | ⟨e, q, hcons, rfl, hcase⟩
  · have htotal : total Runner.effort (Function.update s.worker w .taking) + (s.worker w).effort =
        total Runner.effort s.worker + 0 := total_update Runner.effort s.worker w .taking
    show (f.q.map jobEffort).sum + total Runner.effort (Function.update s.worker w .taking) +
      f.nonEmptyC.woken.length + f.hasSpaceC.woken.length + s.destroying.effort < s.work
    rw [hq, hspace]
    unfold work
    omega
  · obtain ⟨hgq, hgcond, hgspace⟩ : g.q = q ∧ g.nonEmptyC = f.nonEmptyC ∧
        g.hasSpaceC.woken.length ≤ f.hasSpaceC.woken.length + 1 := by
      rcases hcase with ⟨-, -, c, hc, rfl⟩ | ⟨-, rfl⟩
      · exact ⟨rfl, rfl, Condition.length_woken_signal_le hc⟩
      · exact ⟨rfl, rfl, Nat.le_succ _⟩
    have hsum : (s.jobq.q.map jobEffort).sum = jobEffort e + (g.q.map jobEffort).sum := by
      rw [← hq, hcons, List.map_cons, List.sum_cons, hgq]
    rw [hspace] at hgspace
    rw [← hgcond] at hlt
    cases e with
    | none =>
      have htotal : total Runner.effort (Function.update s.worker w .exited) +
          (s.worker w).effort = total Runner.effort s.worker + 0 :=
        total_update Runner.effort s.worker w .exited
      have hone : jobEffort (none : Option J) = 1 := rfl
      show (g.q.map jobEffort).sum + total Runner.effort (Function.update s.worker w .exited) +
        g.nonEmptyC.woken.length + g.hasSpaceC.woken.length + s.destroying.effort < s.work
      unfold work
      omega
    | some j =>
      have htotal : total Runner.effort (Function.update s.worker w (.running j)) +
          (s.worker w).effort = total Runner.effort s.worker + 2 :=
        total_update Runner.effort s.worker w (.running j)
      have hfour : jobEffort (some j) = 4 := rfl
      show (g.q.map jobEffort).sum + total Runner.effort (Function.update s.worker w (.running j)) +
        g.nonEmptyC.woken.length + g.hasSpaceC.woken.length + s.destroying.effort < s.work
      unfold work
      omega

omit [DecidableEq Thr] [DecidableEq J] in
/-- A job without a function has gone into the queue, or the destructor waits. -/
theorem work_pill {k : Nat} {wake : Option (Fin n)} {r : Option Bool} (hq : f.q = s.jobq.q)
    (hcond : f.nonEmptyC = s.jobq.nonEmptyC)
    (hlt : f.hasSpaceC.woken.length + 3 * k + 3 <
      s.jobq.hasSpaceC.woken.length + s.destroying.effort)
    (hs : f.enq none none true wake = some (g, r)) : (s.pill k (g, r)).work < s.work := by
  rcases Fifo.enq_cases hs with ⟨-, rfl, c, hc, rfl⟩ | ⟨-, -, rfl, rfl⟩ | ⟨-, hno, -⟩
  · have hwoken := Condition.length_woken_signal_le hc
    have heffort := Destroying.effort_loop k
    have hsum : ((f.q ++ [none]).map jobEffort).sum = (s.jobq.q.map jobEffort).sum + 1 := by
      rw [List.map_append, List.sum_append, hq]
      rfl
    rw [hcond] at hwoken
    show ((f.q ++ [none]).map jobEffort).sum + total Runner.effort s.worker + c.woken.length +
      f.hasSpaceC.woken.length + (Destroying.loop k).effort < s.work
    unfold work
    omega
  · show (f.q.map jobEffort).sum + total Runner.effort s.worker + f.nonEmptyC.woken.length +
      f.hasSpaceC.woken.length + (3 * k + 3) < s.work
    rw [hq, hcond]
    unfold work
    omega
  · cases hno

/-- Once the destructor has been called, every step without a spurious wake-up is one less. -/
theorem Inv.work_lt {a : PoolAction Thr J n} (h : s.Inv) (hd : s.destroying ≠ .no)
    (hok : s.Orderly a) (ha : ¬ Spurious a) (hs : s.step a = some t) :
    t.destroying ≠ .no ∧ t.work < s.work := by
  cases a with
  | addJob u j wake => exact absurd hok hd
  | addResume u j wake =>
    obtain ⟨r, hr, rfl⟩ := Option.map_eq_some_iff.mp hs
    obtain ⟨hwoken, -⟩ := Option.ite_none_right_eq_some.mp hr
    exact absurd (h.blocked.resume_add hwoken).1 hd
  | takeJob w wake =>
    obtain ⟨hw, hs⟩ := Option.ite_none_right_eq_some.mp hs
    obtain ⟨⟨g, r⟩, hg, rfl⟩ := Option.map_eq_some_iff.mp hs
    refine ⟨?_, work_took rfl rfl ?_ hg⟩
    · rcases r with _ | _ | j <;> exact hd
    · rw [hw]
      exact Nat.lt_succ_self _
  | takeResume w wake =>
    obtain ⟨⟨g, r⟩, hg, rfl⟩ := Option.map_eq_some_iff.mp hs
    obtain ⟨hwoken, hg⟩ := Option.ite_none_right_eq_some.mp hg
    have hlen := Condition.length_woken_resume hwoken
    refine ⟨?_, work_took (f := { s.jobq with nonEmptyC := s.jobq.nonEmptyC.resume w }) rfl rfl
      ?_ hg⟩
    · rcases r with _ | _ | j <;> exact hd
    · show (s.jobq.nonEmptyC.resume w).woken.length < _
      omega
  | jobReturn w =>
    obtain ⟨j, hw, rfl⟩ := returns_eq_some hs
    refine ⟨hd, ?_⟩
    have htotal : total Runner.effort (Function.update s.worker w .idle) + (s.worker w).effort =
        total Runner.effort s.worker + 1 := total_update Runner.effort s.worker w .idle
    have htwo : (s.worker w).effort = 2 := by rw [hw]; rfl
    show (s.jobq.q.map jobEffort).sum + total Runner.effort (Function.update s.worker w .idle) +
      s.jobq.nonEmptyC.woken.length + s.jobq.hasSpaceC.woken.length + s.destroying.effort < s.work
    unfold work
    omega
  | destroy =>
    obtain ⟨hno, -⟩ := Option.ite_none_right_eq_some.mp hs
    exact absurd hno hd
  | addPill wake =>
    obtain ⟨k, ⟨g, r⟩, hk, hg, rfl⟩ := addPill_eq_some hs
    refine ⟨?_, work_pill rfl rfl ?_ hg⟩
    · show (if r = none then Destroying.blocked k else .loop k) ≠ .no
      split_ifs
      · simp
      · cases k <;> simp [Destroying.loop]
    · rw [hk]
      show _ < _ + (3 * k + 4)
      omega
  | pillResume wake =>
    obtain ⟨k, ⟨g, r⟩, hk, hg, rfl⟩ := pillResume_eq_some hs
    obtain ⟨hwoken, hg⟩ := Option.ite_none_right_eq_some.mp hg
    have hlen := Condition.length_woken_resume hwoken
    refine ⟨?_, work_pill (f := { s.jobq with hasSpaceC := s.jobq.hasSpaceC.resume (none, none) })
      rfl rfl ?_ hg⟩
    · show (if r = none then Destroying.blocked k else .loop k) ≠ .no
      split_ifs
      · simp
      · cases k <;> simp [Destroying.loop]
    · rw [hk]
      show (s.jobq.hasSpaceC.resume (none, none)).woken.length + 3 * k + 3 < _ + (3 * k + 3)
      omega
  | join =>
    obtain ⟨⟨hjoin, -⟩, ⟨⟩⟩ := Option.ite_none_right_eq_some.mp hs
    refine ⟨by simp, ?_⟩
    have hone : s.destroying.effort = 1 := by rw [hjoin]; rfl
    show (s.jobq.q.map jobEffort).sum + total Runner.effort s.worker +
      s.jobq.nonEmptyC.woken.length + s.jobq.hasSpaceC.woken.length + 0 < s.work
    unfold work
    omega
  | wakeProducer p j => exact absurd trivial ha
  | wakeWorker w => exact absurd trivial ha

/-- A worker that is not asleep, nor at its end, has a step. -/
theorem exists_step_worker (h : s.Inv) (hw : s.worker w ≠ .exited)
    (hasleep : w ∉ s.jobq.nonEmptyC.asleep) :
    ∃ a t, s.Orderly a ∧ ¬ Spurious a ∧ s.step a = some t := by
  cases hcase : s.worker w with
  | exited => exact absurd hcase hw
  | idle =>
    obtain ⟨wake, r, hr⟩ := s.jobq.exists_deq w
    refine ⟨.takeJob w wake, s.took w r, trivial, id, ?_⟩
    show (if s.worker w = .idle then (s.jobq.deq w wake).map (s.took w) else none) = _
    rw [if_pos hcase, hr]
    rfl
  | running j =>
    refine ⟨.jobReturn w, { s with
      worker := Function.update s.worker w .idle, finished := s.finished ++ [j] }, trivial, id, ?_⟩
    show s.returns w = _
    rw [returns, hcase]
  | taking =>
    have hwoken : w ∈ s.jobq.nonEmptyC.woken :=
      (List.mem_append.mp ((h.sleepers.taking w).mp hcase)).resolve_left hasleep
    obtain ⟨wake, r, hr⟩ :=
      { s.jobq with nonEmptyC := s.jobq.nonEmptyC.resume w : Fifo _ _ _ }.exists_deq w
    refine ⟨.takeResume w wake, s.took w r, trivial, id, ?_⟩
    show (s.jobq.deqResume w wake).map (s.took w) = _
    rw [Fifo.deqResume, if_pos hwoken, hr]
    rfl

/-- If no worker has a step, all that are not at their end are asleep at an empty queue. -/
theorem Inv.stuck (h : s.Inv)
    (hstuck : ¬ ∃ a t, s.Orderly a ∧ ¬ Spurious a ∧ s.step a = some t) :
    (∀ w, s.worker w = .exited) ∨ s.jobq.q = [] := by
  by_contra hno
  obtain ⟨hexited, hq⟩ := not_or.mp hno
  obtain ⟨w, hw⟩ := not_forall.mp hexited
  have hasleep : w ∈ s.jobq.nonEmptyC.asleep := by
    by_contra hasleep
    exact hstuck (exists_step_worker h hw hasleep)
  obtain ⟨v, hv⟩ := h.jobq.consumers.exists_woken (List.length_pos_iff.mpr hq) hasleep
  -- A woken worker is in `takeJob`, and is not asleep as well.
  have htaking : s.worker v = .taking := (h.sleepers.taking v).mpr (List.mem_append_right _ hv)
  refine hstuck (exists_step_worker h (w := v) (by rw [htaking]; simp) fun hmem => ?_)
  exact List.disjoint_of_nodup_append h.sleepers.nodup hmem hv

/-- As long as the destructor has not returned, some thread has a step without a spurious
wake-up. -/
theorem Inv.progress (h : s.Inv) (hd : s.destroying ≠ .no) :
    s.destroying = .returned ∨ ∃ a t, s.Orderly a ∧ ¬ Spurious a ∧ s.step a = some t := by
  by_contra hno
  obtain ⟨hret, hstuck⟩ := not_or.mp hno
  have hpills := h.accounts.pills
  -- As many workers have ended as jobs without a function are neither in the queue nor to come.
  have hout : (∀ w, s.worker w = .exited) → total Runner.out s.worker = n := by
    intro hexited
    rw [total_eq_card fun w => by rw [hexited w]; rfl, Fintype.card_fin]
  cases hcase : s.destroying with
  | no => exact hd hcase
  | returned => exact hret hcase
  | adding k =>
    obtain ⟨wake, r, hr⟩ := s.jobq.exists_enq none none true
    refine hstuck ⟨.addPill wake, s.pill k r, trivial, id, ?_⟩
    show s.addPill wake = _
    rw [addPill, hcase, hr]
    rfl
  | joining =>
    rcases h.stuck hstuck with hexited | hq
    · refine hstuck ⟨.join, { s with destroying := .returned }, trivial, id, ?_⟩
      exact if_pos ⟨hcase, hexited⟩
    · rw [hq, hcase] at hpills
      obtain ⟨w, hw⟩ : ∃ w, s.worker w ≠ .exited := by
        by_contra hall
        refine hstuck ⟨.join, { s with destroying := .returned }, trivial, id, ?_⟩
        exact if_pos ⟨hcase, fun w => by_contra fun hw => hall ⟨w, hw⟩⟩
      have hzero : (s.worker w).out = 0 := by
        cases hcase' : s.worker w with
        | exited => exact absurd hcase' hw
        | idle | taking | running j => rfl
      have hlt := total_lt_card (g := s.worker) (fun v => by cases s.worker v <;> simp [Runner.out])
        hzero
      rw [Fintype.card_fin] at hlt
      simp only [List.count_nil, Destroying.left] at hpills
      omega
  | blocked k =>
    have hleft : s.destroying.left n = k + 1 := by rw [hcase]; rfl
    -- The destructor is asleep, so there is no free place, and the queue is full.
    have hmem := h.blocked.destructor.mpr ⟨k, hcase⟩
    have hasleep : (none, none) ∈ s.jobq.hasSpaceC.asleep := by
      refine (List.mem_append.mp hmem).resolve_right fun hwoken => ?_
      obtain ⟨wake, r, hr⟩ := { s.jobq with
        hasSpaceC := s.jobq.hasSpaceC.resume (none, none) : Fifo _ _ _ }.exists_enq none none true
      refine hstuck ⟨.pillResume wake, s.pill k r, trivial, id, ?_⟩
      show s.pillResume wake = _
      rw [pillResume, hcase]
      show (s.jobq.enqResume none none wake).map (s.pill k) = _
      rw [Fifo.enqResume, if_pos hwoken, hr]
      rfl
    have hfull : s.jobq.max - s.jobq.q.length = 0 := by
      by_contra hspace
      obtain ⟨x, hx⟩ := h.jobq.producers.exists_woken (Nat.pos_of_ne_zero hspace) hasleep
      have hx' := h.blocked.external hd x (List.mem_append_right _ hx)
      exact List.disjoint_of_nodup_append h.blocked.nodup hasleep (hx' ▸ hx)
    rw [h.max] at hfull
    rcases h.stuck hstuck with hexited | hq
    · have := hout hexited
      omega
    · rw [hq] at hfull
      simp only [List.length_nil] at hfull
      omega

end ThrPool
end Rpc
end Frangipani
