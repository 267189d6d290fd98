/-
The plain lock server behind the pool of `rpcs`.

A call that waits for a lock keeps its worker.  When every worker has such a call, a
`release` is put into the queue like all other requests, and nobody is there to take it.
The locks that the calls wait for are never released then.
-/
import Mathlib.Data.Fintype.Basic
import Frangipani.Lock.Plain
import Frangipani.Rpc.Server

namespace Frangipani
namespace Lock

open Concurrency Rpc Transition

instance (pc : CallPc) (lid : LockId) : Decidable (pc.Waits lid) :=
  inferInstanceAs (Decidable (_ ∨ _))

/-- A request in the queue of the pool. -/
inductive PlainRequest (Call : Type)
  | acquire (c : Call) (lid : LockId)
  | release (lid : LockId) (owner : Option Call)
  deriving DecidableEq

/-- The server with the queue and the `n` workers.  A worker has the call it waits for in
`acquire`. -/
structure PlainService (Call : Type) (n : Nat) where
  server : LockServer Call
  queue : List (PlainRequest Call)
  worker : Fin n → Option (Call × LockId)

inductive ServiceAction (Call : Type) (n : Nat)
  | request (r : PlainRequest Call)
  | dispatch (w : Fin n) (wake : Option Call)
  | resume (w : Fin n)
  | reply (c : Call)
  | timeout (c : Call)
  | spurious (c : Call) (lid : LockId)

namespace PlainService

variable {Call : Type} {n : Nat}

def new (n : Nat) : PlainService Call n where
  server := .new
  queue := []
  worker _ := none

/-- The worker has gone through the loop of `acquire`. -/
def settle (s : PlainService Call n) (w : Fin n) (c : Call) (lid : LockId)
    (server : LockServer Call) : PlainService Call n :=
  { s with
    server := server
    worker := Function.update s.worker w
      (if (server.pc c).Waits lid then some (c, lid) else none) }

variable [DecidableEq Call]

/-- A worker takes the first request and runs its handler. -/
def dispatch (s : PlainService Call n) (w : Fin n) (wake : Option Call) :
    Option (PlainService Call n) :=
  match s.worker w, s.queue with
  | none, .acquire c lid :: queue =>
    (s.server.acquire c lid).map fun server => { s with queue := queue }.settle w c lid server
  | none, .release lid owner :: queue =>
    (s.server.release lid owner wake).map fun r => { s with server := r.2, queue := queue }
  | _, _ => none

def resume (s : PlainService Call n) (w : Fin n) : Option (PlainService Call n) :=
  match s.worker w with
  | some (c, lid) => (s.server.resume c lid).map (s.settle w c lid)
  | none => none

def step (s : PlainService Call n) : ServiceAction Call n → Option (PlainService Call n)
  | .request r =>
    if s.queue.length < 100 * n then some { s with queue := s.queue ++ [r] } else none
  | .dispatch w wake => s.dispatch w wake
  | .resume w => s.resume w
  | .reply c => (s.server.step (.reply c)).map fun server => { s with server := server }
  | .timeout c => (s.server.step (.timeout c)).map fun server => { s with server := server }
  | .spurious c lid =>
    (s.server.step (.spurious c lid)).map fun server => { s with server := server }

def system (n : Nat) : System (PlainService Call n) (ServiceAction Call n) where
  init s := s = new n
  step := step

/-- The worker waits for a lock that is taken. -/
def Waiting (s : PlainService Call n) : Option (Call × LockId) → Prop
  | some (c, lid) => (s.server.pc c).Waits lid ∧ s.server.Locked lid
  | none => False

/-- All of them do. -/
def Stuck (s : PlainService Call n) : Prop := ∀ w, s.Waiting (s.worker w)

instance (s : PlainService Call n) : DecidablePred s.Waiting
  | some _ => inferInstanceAs (Decidable (_ ∧ _))
  | none => isFalse id

instance (s : PlainService Call n) : Decidable s.Stuck :=
  inferInstanceAs (Decidable (∀ w, s.Waiting (s.worker w)))

/-- Since `s`, no request has been taken from the queue, no lock released, and none given out. -/
structure Unserved (s t : PlainService Call n) : Prop where
  queue : s.queue <+: t.queue
  locked : ∀ lid, t.server.Locked lid ↔ s.server.Locked lid
  owns : ∀ c lid, (t.server.pc c).Owns lid → (s.server.pc c).Owns lid

omit [DecidableEq Call] in
theorem Unserved.refl (s : PlainService Call n) : Unserved s s :=
  ⟨List.prefix_rfl, fun _ => Iff.rfl, fun _ _ => id⟩

omit [DecidableEq Call] in
theorem Unserved.trans {s t u : PlainService Call n} (h : Unserved s t) (h' : Unserved t u) :
    Unserved s u :=
  ⟨h.queue.trans h'.queue, fun lid => (h'.locked lid).trans (h.locked lid),
    fun c lid hc => h.owns c lid (h'.owns c lid hc)⟩

omit [DecidableEq Call] in
theorem Stuck.of_server {s : PlainService Call n} {server : LockServer Call} (h : s.Stuck)
    (hlocked : ∀ lid, server.Locked lid ↔ s.server.Locked lid)
    (hwaits : ∀ c lid, (server.pc c).Waits lid ↔ (s.server.pc c).Waits lid) :
    { s with server := server : PlainService Call n }.Stuck := by
  intro w
  have hw := h w
  show Waiting _ (s.worker w)
  cases hworker : s.worker w with
  | none =>
    rw [hworker] at hw
    exact hw
  | some p =>
    rw [hworker] at hw
    exact ⟨(hwaits p.1 p.2).mpr hw.1, (hlocked p.2).mpr hw.2⟩

/-- A call of a client that is told or gives up still waits, or still has its lock. -/
theorem Stuck.setPc {s : PlainService Call n} {c : Call} {pc : CallPc} (h : s.Stuck)
    (hwaits : ∀ lid, pc.Waits lid ↔ (s.server.pc c).Waits lid)
    (howns : ∀ lid, pc.Owns lid → (s.server.pc c).Owns lid) :
    { s with server := s.server.setPc c pc : PlainService Call n }.Stuck ∧
      Unserved s { s with server := s.server.setPc c pc } := by
  have hupdate : ∀ d, (s.server.setPc c pc).pc d = if d = c then pc else s.server.pc d :=
    fun d => Function.update_apply _ _ _ d
  constructor
  · refine h.of_server (fun _ => Iff.rfl) fun d lid => ?_
    rw [hupdate]
    split_ifs with hd
    · rw [hd]
      exact hwaits lid
    · exact Iff.rfl
  · refine ⟨List.prefix_rfl, fun _ => Iff.rfl, fun d lid hd => ?_⟩
    rw [hupdate] at hd
    split_ifs at hd with hdc
    · rw [hdc]
      exact howns lid hd
    · exact hd

theorem Stuck.resume {s t : PlainService Call n} {w : Fin n} (h : s.Stuck)
    (hs : s.resume w = some t) : t.Stuck ∧ Unserved s t := by
  unfold PlainService.resume at hs
  split at hs
  · rename_i c lid hworker
    have hw : (s.server.pc c).Waits lid ∧ s.server.Locked lid := by
      have := h w
      rw [hworker] at this
      exact this
    obtain ⟨server, hserver, rfl⟩ := Option.map_eq_some_iff.mp hs
    obtain ⟨-, ⟨⟩⟩ := Option.ite_none_right_eq_some.mp hserver
    have hlocked : (s.server.setCond lid ((s.server.lockConds lid).resume c)).Locked lid := hw.2
    unfold LockServer.acquireLoop
    rw [if_pos hlocked]
    have hpc : ∀ d, Function.update s.server.pc c (s.server.pc c) d = s.server.pc d :=
      fun d => by rw [Function.update_eq_self]
    refine ⟨fun v => ?_, List.prefix_rfl, fun _ => Iff.rfl, fun d lid' hd => ?_⟩
    · show Waiting _ (Function.update s.worker w (if (Function.update s.server.pc c
        (s.server.pc c) c).Waits lid then some (c, lid) else none) v)
      rw [hpc, if_pos hw.1]
      by_cases hv : v = w
      · rw [hv, Function.update_self]
        refine ⟨?_, hw.2⟩
        show (Function.update s.server.pc c (s.server.pc c) c).Waits lid
        rw [hpc]
        exact hw.1
      · rw [Function.update_of_ne hv]
        have hv' := h v
        cases hworker' : s.worker v with
        | none =>
          rw [hworker'] at hv'
          exact hv'
        | some p =>
          rw [hworker'] at hv'
          refine ⟨?_, hv'.2⟩
          show (Function.update s.server.pc c (s.server.pc c) p.1).Waits p.2
          rw [hpc]
          exact hv'.1
    · change (Function.update s.server.pc c (s.server.pc c) d).Owns lid' at hd
      rw [hpc] at hd
      exact hd
  · cases hs

theorem Stuck.step {s t : PlainService Call n} {a : ServiceAction Call n} (h : s.Stuck)
    (hs : s.step a = some t) : t.Stuck ∧ Unserved s t := by
  cases a with
  | request r =>
    obtain ⟨-, ⟨⟩⟩ := Option.ite_none_right_eq_some.mp hs
    exact ⟨h, List.prefix_append _ _, fun _ => Iff.rfl, fun _ _ => id⟩
  | dispatch w wake =>
    -- No worker is free.
    have hw := h w
    change s.dispatch w wake = some t at hs
    cases hworker : s.worker w with
    | none =>
      rw [hworker] at hw
      exact absurd hw id
    | some p =>
      rw [dispatch, hworker] at hs
      cases hs
  | resume w => exact h.resume hs
  | reply c =>
    obtain ⟨server, hserver, rfl⟩ := Option.map_eq_some_iff.mp hs
    obtain ⟨lid, hc, rfl⟩ := LockServer.reply_eq_some hserver
    exact h.setPc (by simp [CallPc.Waits, hc]) (by simp [CallPc.Owns, hc])
  | timeout c =>
    obtain ⟨server, hserver, rfl⟩ := Option.map_eq_some_iff.mp hs
    rcases LockServer.timeout_eq_some hserver with ⟨lid, hc, rfl⟩ | ⟨lid, hc, rfl⟩
    · exact h.setPc (by simp [CallPc.Waits, hc]) (by simp [CallPc.Owns, hc])
    · exact h.setPc (by simp [CallPc.Waits, hc]) (by simp [CallPc.Owns, hc])
  | spurious c lid =>
    obtain ⟨server, hserver, rfl⟩ := Option.map_eq_some_iff.mp hs
    obtain ⟨-, ⟨⟩⟩ := Option.ite_none_right_eq_some.mp hserver
    exact ⟨h.of_server (fun _ => Iff.rfl) fun _ _ => Iff.rfl, List.prefix_rfl, fun _ => Iff.rfl,
      fun _ _ => id⟩

/-- When all workers wait for locks that are taken, the server does nothing any more: whatever is
requested, times out or wakes up, no request is taken from the queue, and no lock is released or
given out. -/
theorem unserved_of_stuck (s : PlainService Call n) (hstuck : s.Stuck)
    (actions : List (ServiceAction Call n)) :
    (system n).AlongRun (Unserved s) s actions := by
  have halong : (system n).AlongRun (fun t => t.Stuck ∧ Unserved s t) s actions :=
    System.StepsMeet.alongRun (P := fun t => t.Stuck ∧ Unserved s t)
      (fun t a u h _ hs => ⟨(h.1.step hs).1, h.2.trans (h.1.step hs).2⟩) ⟨hstuck, .refl s⟩
      (System.stepsMeet_of_forall (fun _ _ => trivial) _ _)
  exact halong.mono fun t h => h.2

/-- Call 0 has the lock, and the ten calls after it wait for it. -/
def tenWaiting : List (ServiceAction Nat poolSize) :=
  [.request (.acquire 0 5), .dispatch 0 none, .reply 0] ++
    (List.finRange poolSize).flatMap fun i => [.request (.acquire (i + 1) 5), .dispatch i none]

/-- The release of call 0 stays in the queue. -/
theorem unserved_of_stuck_tenWaiting :
    ((system poolSize).run (new poolSize) tenWaiting).isSome = true ∧
      (system poolSize).AlongRun (Unserved ((system poolSize).final (new poolSize) tenWaiting))
        ((system poolSize).final (new poolSize) tenWaiting)
        [.request (.release 5 (some 0)), .timeout 3] :=
  ⟨by decide +kernel, unserved_of_stuck _ (by decide +kernel) _⟩

end PlainService
end Lock
end Frangipani
