/-
The references to the connections of a server, and who has them.

Every reference has a holder: `tcpsconn`, a client in `rpcs::conns_`, a job in the queue,
the poll thread until it has queued its job, or a worker.  One more holder is a request
for another instance of the server: `dispatch` answers it and returns, and nobody gives
the reference back.  With those requests counted in, a connection counts its references at
all times.

Next to the counts the invariant keeps what the threads rely on: `tcpsconn` has a connection
under its own descriptor, a client that was saved has a connection from then on, and a job
is queued or deleted.
-/
import Frangipani.Memory.Counted
import Frangipani.Rpc.Dispatch

namespace Frangipani
namespace Rpc

open Memory Transition

/-! ## Counting a connection -/

namespace Conns

variable (p : Conns) (c d : Nat)

@[simp] theorem fd_incref : (p.incref c).fd d = p.fd d := by
  by_cases h : d = c <;> simp [incref, fd, Heap.write, h]

@[simp] theorem fd_die : (p.die c).fd d = p.fd d := by
  by_cases h : d = c <;> simp [die, fd, Heap.write, h]

@[simp] theorem refno_die : (p.die c).refno d = p.refno d := by
  by_cases h : d = c <;> simp [die, refno, Heap.write, h]

theorem fd_create_self (fd : Int) : (p.create c fd).fd c = fd := by
  simp [create, Conns.fd, Heap.write]

variable {p c d}

theorem fd_create_ne (h : d ≠ c) (fd : Int) : (p.create c fd).fd d = p.fd d := by
  simp [create, Conns.fd, Heap.write, Heap.alloc, h]

theorem live_create_ne (h : d ≠ c) (fd : Int) : (p.create c fd).Live d ↔ p.Live d := by
  simp [create, Live, Heap.write, Heap.alloc, h]

theorem decref_last (h : p.refno c - 1 = 0 ∧ p.dead c = true) :
    p.decref c =
      { heap := (p.heap.write c { p.heap.content c with refno := p.refno c - 1 }).free c
        fds := Function.update p.fds (p.fd c) false } := if_pos h

theorem decref_kept (h : ¬ (p.refno c - 1 = 0 ∧ p.dead c = true)) :
    p.decref c =
      { p with heap := p.heap.write c { p.heap.content c with refno := p.refno c - 1 } } := if_neg h

@[simp] theorem content_decref (p : Conns) (c : Nat) :
    (p.decref c).heap.content =
      Function.update p.heap.content c { p.heap.content c with refno := p.refno c - 1 } := by
  by_cases h : p.refno c - 1 = 0 ∧ p.dead c = true
  · rw [decref_last h]
    rfl
  · rw [decref_kept h]
    rfl

@[simp] theorem fd_decref (p : Conns) (c d : Nat) : (p.decref c).fd d = p.fd d := by
  by_cases h : d = c <;> simp [fd, h]

theorem live_decref_ne (h : d ≠ c) : (p.decref c).Live d ↔ p.Live d := by
  by_cases hlast : p.refno c - 1 = 0 ∧ p.dead c = true
  · rw [decref_last hlast]
    simp [Live, Heap.write, Heap.free, h]
  · rw [decref_kept hlast]
    rfl

/-- A connection that is still there had another reference, or is not dead. -/
theorem decref_of_live (h : (p.decref c).Live c) :
    p.Live c ∧ (p.decref c).fds = p.fds := by
  by_cases hlast : p.refno c - 1 = 0 ∧ p.dead c = true
  · rw [decref_last hlast] at h
    simp [Live, Heap.free] at h
  · rw [decref_kept hlast] at h ⊢
    exact ⟨h, rfl⟩

theorem live_of_decref (h : (p.decref c).Live d) : p.Live d := by
  by_cases hd : d = c
  · rw [hd] at h ⊢
    exact (decref_of_live h).1
  · exact (live_decref_ne hd).mp h

theorem fds_decref {fd : Int} (h : fd ≠ p.fd c) : (p.decref c).fds fd = p.fds fd := by
  by_cases hlast : p.refno c - 1 = 0 ∧ p.dead c = true
  · rw [decref_last hlast]
    exact Function.update_of_ne h _ _
  · rw [decref_kept hlast]

/-- A descriptor is open for one connection. -/
structure Sound (p : Conns) : Prop where
  fds : ∀ c, p.Live c → p.fds (p.fd c) = true
  distinct : ∀ c d, p.Live c → p.Live d → p.fd c = p.fd d → c = d

theorem Sound.incref (h : p.Sound) (c : Nat) : (p.incref c).Sound where
  fds d hd := by
    rw [fd_incref]
    exact h.fds d hd
  distinct d e hd he hfd := h.distinct d e hd he (by simpa using hfd)

theorem Sound.die (h : p.Sound) (c : Nat) : (p.die c).Sound where
  fds d hd := by
    rw [fd_die]
    exact h.fds d hd
  distinct d e hd he hfd := h.distinct d e hd he (by simpa using hfd)

theorem Sound.decref (h : p.Sound) (hc : p.Live c) : (p.decref c).Sound where
  fds d hd := by
    rw [fd_decref]
    by_cases hdc : d = c
    · rw [hdc] at hd ⊢
      rw [(decref_of_live hd).2]
      exact h.fds c hc
    · have hlive := live_of_decref hd
      rw [fds_decref fun hsame => hdc (h.distinct d c hlive hc hsame)]
      exact h.fds d hlive
  distinct d e hd he hfd := by
    rw [fd_decref, fd_decref] at hfd
    exact h.distinct d e (live_of_decref hd) (live_of_decref he) hfd

theorem Sound.create (h : p.Sound) {fd : Int} (hfd : p.fds fd = false) : (p.create c fd).Sound := by
  -- The descriptor is not that of another connection.
  have hother : ∀ d, d ≠ c → (p.create c fd).Live d → (p.create c fd).fd d ≠ fd := by
    intro d hd hlive hsame
    rw [fd_create_ne hd] at hsame
    have hopen := h.fds d ((live_create_ne hd fd).mp hlive)
    rw [hsame, hfd] at hopen
    cases hopen
  constructor
  · intro d hlive
    show Function.update p.fds fd true ((p.create c fd).fd d) = true
    by_cases hd : d = c
    · rw [hd, fd_create_self, Function.update_self]
    · rw [Function.update_of_ne (hother d hd hlive), fd_create_ne hd]
      exact h.fds d ((live_create_ne hd fd).mp hlive)
  · intro d e hd he hsame
    by_cases hdc : d = c <;> by_cases hec : e = c
    · rw [hdc, hec]
    · rw [hdc, fd_create_self] at hsame
      exact absurd hsame.symm (hother e hec he)
    · rw [hec, fd_create_self] at hsame
      exact absurd hsame (hother d hdc hd)
    · rw [fd_create_ne hdc, fd_create_ne hec] at hsame
      exact h.distinct d e ((live_create_ne hdc fd).mp hd) ((live_create_ne hec fd).mp he) hsame

end Conns

/-- What a pointer adds to the references of a connection. -/
def one (x : Option Nat) (c : Nat) : Nat := (decide (x = some c)).toNat

@[simp] theorem one_none (c : Nat) : one none c = 0 := rfl

theorem one_self (c : Nat) : one (some c) c = 1 := by simp [one]

theorem one_ne {c d : Nat} (h : d ≠ c) : one (some c) d = 0 := by simp [one, Ne.symm h]

section Balanced

variable {p : Conns} {c : Nat} {r r' : Nat → Nat}

theorem balanced_incref (h : Balanced p.Live p.refno r) (hc : p.Live c)
    (hr : ∀ d, r' d = r d + one (some c) d) :
    Balanced (p.incref c).Live (p.incref c).refno r' := by
  refine h.take hc (fun d hd => ?_) ?_ (fun d hd => ?_) ?_
  · simp [Conns.incref, Conns.refno, Heap.write, hd]
  · simp [Conns.incref, Conns.refno, Heap.write]
  · rw [hr, one_ne hd, Nat.add_zero]
  · rw [hr, one_self]

theorem balanced_decref (h : Balanced p.Live p.refno r) (hr : ∀ d, r d = r' d + one (some c) d) :
    Balanced (p.decref c).Live (p.decref c).refno r' := by
  have hdrop : Balanced p.Live (p.decref c).refno r' := by
    refine h.drop (i := c) (fun d hd => ?_) ?_ (fun d hd => ?_) ?_
    · simp [Conns.refno, hd]
    · simp [Conns.refno]
    · rw [hr, one_ne hd, Nat.add_zero]
    · rw [hr, one_self]
  by_cases hlast : p.refno c - 1 = 0 ∧ p.dead c = true
  · have hc : p.Live c := h.dangling c (by rw [hr, one_self]; omega)
    refine hdrop.free hc ?_ (fun d hd => Conns.live_decref_ne hd) (fun hlive => ?_) fun _ _ => rfl
    · simpa [Conns.refno] using hlast.1
    · rw [Conns.decref_last hlast] at hlive
      simp [Conns.Live, Heap.free] at hlive
  · have hlive : (p.decref c).Live = p.Live := by
      rw [Conns.decref_kept hlast]
      rfl
    rw [hlive]
    exact hdrop

theorem balanced_create (h : Balanced p.Live p.refno r) (hc : ¬ p.Live c) (fd : Int)
    (hr : ∀ d, r' d = r d + one (some c) d) :
    Balanced (p.create c fd).Live (p.create c fd).refno r' := by
  refine h.new hc (fun d hd => Conns.live_create_ne hd fd) ?_ (fun d hd => ?_) ?_
    (fun d hd => ?_) ?_
  · simp [Conns.create, Conns.Live, Heap.write, Heap.alloc]
  · simp [Conns.create, Conns.refno, Heap.write, Heap.alloc, hd]
  · simp [Conns.create, Conns.refno, Heap.write]
  · rw [hr, one_ne hd, Nat.add_zero]
  · rw [hr, one_self]

end Balanced

/-! ## The holders -/

/-- The poll thread has the reference of its job until the queue takes it. -/
def Poll.conn : Poll → Option Nat
  | .adding j | .added j false => some j.conn
  | .idle | .added _ true => none

def Dispatch.conn (d : Dispatch) : Option Nat := d.pointer.join

theorem Dispatch.conn_idle : Dispatch.idle.conn = none := rfl

/-- The number of workers that have a connection. -/
def inHand (worker : Fin poolSize → Dispatch) (c : Nat) : Nat := ∑ t, one (worker t).conn c

theorem inHand_split (worker : Fin poolSize → Dispatch) (t : Fin poolSize) (c : Nat) :
    inHand worker c =
      one (worker t).conn c + ∑ u ∈ Finset.univ.erase t, one (worker u).conn c :=
  (Finset.add_sum_erase Finset.univ (fun u => one (worker u).conn c) (Finset.mem_univ t)).symm

theorem inHand_update (worker : Fin poolSize → Dispatch) (t : Fin poolSize) (d : Dispatch)
    (c : Nat) :
    inHand (Function.update worker t d) c + one (worker t).conn c =
      inHand worker c + one d.conn c := by
  have hrest : ∑ u ∈ Finset.univ.erase t, one (Function.update worker t d u).conn c =
      ∑ u ∈ Finset.univ.erase t, one (worker u).conn c := by
    refine Finset.sum_congr rfl fun u hu => ?_
    rw [Function.update_of_ne (Finset.ne_of_mem_erase hu)]
  rw [inHand_split worker t, inHand_split (Function.update worker t d) t, hrest,
    Function.update_self]
  omega

theorem inHand_idle {worker : Fin poolSize → Dispatch} {t : Fin poolSize} {c : Nat}
    (h : (worker t).conn = some c) (d : Nat) :
    inHand worker d = inHand (Function.update worker t .idle) d + one (some c) d := by
  have hupdate := inHand_update worker t .idle d
  rw [h, Dispatch.conn_idle, one_none] at hupdate
  omega

theorem inHand_pos {worker : Fin poolSize → Dispatch} {t : Fin poolSize} {c : Nat}
    (h : (worker t).conn = some c) : 0 < inHand worker c := by
  rw [inHand_split worker t, h, one_self]
  omega

theorem countP_queue_cons (j : Job) (queue : List Job) (c : Nat) :
    (j :: queue).countP (fun j => j.conn = c) =
      queue.countP (fun j => j.conn = c) + one (some j.conn) c := by
  rw [List.countP_cons]
  by_cases hc : j.conn = c <;> simp [one, hc]

theorem countP_queue_append (j : Job) (queue : List Job) (c : Nat) :
    (queue ++ [j]).countP (fun j => j.conn = c) =
      queue.countP (fun j => j.conn = c) + one (some j.conn) c := by
  rw [List.countP_append, countP_queue_cons, List.countP_nil, Nat.zero_add]

theorem count_stale_cons (d : Nat) (stale : List Nat) (c : Nat) :
    (d :: stale).count c = stale.count c + one (some d) c := by
  rw [List.count_cons]
  by_cases hc : d = c <;> simp [one, hc]

theorem count_tcps_assign {tcps : OrderedMap Int Nat} {k : Int} (h : tcps.find k = none)
    (d c : Nat) :
    (tcps.assign k d).count (fun d => d = c) =
      tcps.count (fun d => d = c) + one (some d) c := by
  have hcount := tcps.count_assign (fun d => d = c) k d
  rw [h] at hcount
  simpa [one] using hcount

theorem count_tcps_erase {tcps : OrderedMap Int Nat} {k : Int} {d : Nat}
    (h : tcps.find k = some d) (c : Nat) :
    tcps.count (fun d => d = c) =
      (tcps.erase k).count (fun d => d = c) + one (some d) c := by
  have hcount := tcps.count_erase (fun d => d = c) k
  rw [h] at hcount
  simpa [one] using hcount

theorem count_conns_erase {conns : OrderedMap Nat (Option Nat)} {n : Nat} {p : Option Nat}
    (h : conns.find n = some p) (c : Nat) :
    conns.count (fun q => q = some c) =
      (conns.erase n).count (fun q => q = some c) + one p c := by
  have hcount := conns.count_erase (fun q => q = some c) n
  rw [h] at hcount
  simpa [one] using hcount

theorem count_conns_assign (conns : OrderedMap Nat (Option Nat)) (n : Nat) (p : Option Nat)
    (c : Nat) :
    (conns.assign n p).count (fun q => q = some c) + one (conns.find n).join c =
      conns.count (fun q => q = some c) + one p c := by
  have hcount := conns.count_assign (fun q => q = some c) n p
  cases hfind : conns.find n with
  | none => simpa [hfind, one] using hcount
  | some q => simpa [hfind, one] using hcount

namespace Serving

/-- All references to a connection. -/
def refs (s : Serving) (c : Nat) : Nat :=
  s.tcps.count (fun d => d = c) + one s.acceptor.conn c + s.stored c +
    s.queue.countP (fun j => j.conn = c) + one s.poll.conn c + inHand s.worker c + s.stale.count c

end Serving

/-- The entries that the loop has not passed. -/
def Acceptor.pending : Acceptor → List (Int × Nat)
  | .idle => []
  | .collecting _ rest => rest
  | .dead _ e rest | .sole _ e rest => e :: rest

/-- What `tcpsconn` knows of its connections. -/
structure Listening (p : Conns) (tcps : OrderedMap Int Nat) (a : Acceptor) : Prop where
  keyed : ∀ k c, tcps.find k = some c → p.fd c = k
  pending : a.pending.Sublist tcps.entries
  fresh : ∀ ch, a.conn = some ch → tcps.find (p.fd ch) = none

/-- What a worker relies on: a client with a nonce has a connection from the time it is saved. -/
def Dispatch.Ok (conns : OrderedMap Nat (Option Nat)) : Dispatch → Prop
  | .idle | .entered .. | .stale _ | .leaving _ => True
  | .saving _ h => h.cltNonce ≠ 0
  | .checking _ h | .running _ h | .switching _ h =>
    h.cltNonce ≠ 0 → (conns.find h.cltNonce.toNat).isSome = true
  | .sending p => p ≠ none

structure Saved (conns : OrderedMap Nat (Option Nat)) (worker : Fin poolSize → Dispatch) :
    Prop where
  proper : ∀ n p, conns.find n = some p → n ≠ 0 ∧ p ≠ none
  stages : ∀ t, (worker t).Ok conns

/-- What becomes of the job that is being added. -/
def Poll.Ok (made : Nat) (queued deleted : List Nat) : Poll → Prop
  | .idle => True
  | .adding j => j.id < made ∧ j.id ∉ queued ∧ j.id ∉ deleted
  | .added j false => j.id < made ∧ j.id ∉ queued
  | .added j true => j.id ∈ queued

structure Numbered (made : Nat) (queued deleted : List Nat) (poll : Poll) : Prop where
  made_queued : ∀ i ∈ queued, i < made
  made_deleted : ∀ i ∈ deleted, i < made
  once : ∀ i ∈ queued, i ∉ deleted
  job : poll.Ok made queued deleted

theorem Listening.of_fd {p p' : Conns} {tcps : OrderedMap Int Nat} {a : Acceptor}
    (h : Listening p tcps a) (hfd : ∀ c, p'.fd c = p.fd c) : Listening p' tcps a where
  keyed k c hc := (hfd c).trans (h.keyed k c hc)
  pending := h.pending
  fresh ch hch := by
    rw [hfd]
    exact h.fresh ch hch

theorem Dispatch.Ok.assign {conns : OrderedMap Nat (Option Nat)} {d : Dispatch} (h : d.Ok conns)
    (n : Nat) (p : Option Nat) : d.Ok (conns.assign n p) := by
  have hkept : ∀ m, (conns.find m).isSome = true → ((conns.assign n p).find m).isSome = true := by
    intro m hm
    by_cases hmn : m = n
    · rw [hmn, OrderedMap.find_assign_self]
      rfl
    · rwa [OrderedMap.find_assign_ne _ _ hmn]
  cases d with
  | checking _ _ => exact fun hne => hkept _ (h hne)
  | running _ _ => exact fun hne => hkept _ (h hne)
  | switching _ _ => exact fun hne => hkept _ (h hne)
  | _ => exact h

theorem Saved.assign {conns : OrderedMap Nat (Option Nat)} {worker : Fin poolSize → Dispatch}
    (h : Saved conns worker) {n : Nat} (hn : n ≠ 0) (c : Nat) :
    Saved (conns.assign n (some c)) worker where
  proper m p hp := by
    by_cases hmn : m = n
    · rw [hmn, OrderedMap.find_assign_self] at hp
      rw [hmn, ← Option.some.inj hp]
      exact ⟨hn, Option.some_ne_none c⟩
    · rw [OrderedMap.find_assign_ne _ _ hmn] at hp
      exact h.proper m p hp
  stages t := Dispatch.Ok.assign (h.stages t) n (some c)

theorem Saved.update {conns : OrderedMap Nat (Option Nat)} {worker : Fin poolSize → Dispatch}
    (h : Saved conns worker) (t : Fin poolSize) {d : Dispatch} (hd : d.Ok conns) :
    Saved conns (Function.update worker t d) where
  proper := h.proper
  stages u := by
    by_cases hu : u = t
    · rw [hu, Function.update_self]
      exact hd
    · rw [Function.update_of_ne hu]
      exact h.stages u

namespace Serving

structure Inv (s : Serving) : Prop where
  sound : s.pool.Sound
  balanced : Balanced s.pool.Live s.pool.refno s.refs
  listening : Listening s.pool s.tcps s.acceptor
  saved : Saved s.conns s.worker
  numbered : Numbered s.made s.queued s.deleted s.poll

section Inv

variable {s : Serving} (h : s.Inv)

include h

theorem Inv.live_worker {t : Fin poolSize} {c : Nat} (hc : (s.worker t).conn = some c) :
    s.pool.Live c := by
  refine h.balanced.dangling c ?_
  have := inHand_pos hc
  unfold refs
  omega

theorem Inv.live_queue {j : Job} (hj : j ∈ s.queue) : s.pool.Live j.conn := by
  refine h.balanced.dangling j.conn ?_
  have : 0 < s.queue.countP fun i => i.conn = j.conn :=
    List.countP_pos_iff.mpr ⟨j, hj, decide_eq_true rfl⟩
  unfold refs
  omega

theorem Inv.live_stored {n c : Nat} (hc : s.conns.find n = some (some c)) : s.pool.Live c := by
  refine h.balanced.dangling c ?_
  have : 0 < s.stored c := OrderedMap.count_pos _ hc (decide_eq_true rfl)
  unfold refs
  omega

theorem Inv.live_tcps {k : Int} {c : Nat} (hc : s.tcps.find k = some c) : s.pool.Live c := by
  refine h.balanced.dangling c ?_
  have : 0 < s.tcps.count fun d => d = c := OrderedMap.count_pos _ hc (decide_eq_true rfl)
  unfold refs
  omega

theorem Inv.live_stale {c : Nat} (hc : c ∈ s.stale) : s.pool.Live c := by
  refine h.balanced.dangling c ?_
  have : 0 < s.stale.count c := List.count_pos_iff.mpr hc
  unfold refs
  omega

theorem Inv.pointer {t : Fin poolSize} {p : Option Nat} (hp : (s.worker t).pointer = some p) :
    ∃ c, p = some c := by
  have hstage := h.saved.stages t
  generalize s.worker t = d at hp hstage
  cases d <;> cases hp
  case sending => exact Option.ne_none_iff_exists'.mp hstage
  all_goals exact ⟨_, rfl⟩

theorem Inv.safe : s.Safe where
  refno c hc := h.balanced.count_nonneg hc
  jobs := h.numbered.once
  worker t p hp := by
    obtain ⟨c, rfl⟩ := h.pointer hp
    exact ⟨c, rfl, h.live_worker (by rw [Dispatch.conn, hp]; rfl)⟩
  queue j hj := ⟨j.conn, rfl, h.live_queue hj⟩
  conns n p hp := by
    obtain ⟨c, rfl⟩ := Option.ne_none_iff_exists'.mp (h.saved.proper n p hp).2
    exact ⟨c, rfl, h.live_stored hp⟩

end Inv

theorem refs_new (nonce : UInt32) (procs : List Int32) (c : Nat) :
    (new nonce procs).refs c = 0 := by
  simp [refs, new, stored, OrderedMap.count, OrderedMap.empty, Acceptor.conn, Poll.conn, inHand,
    Dispatch.conn, Dispatch.pointer]

theorem new_inv (nonce : UInt32) (procs : List Int32) : (new nonce procs).Inv where
  sound := ⟨fun _ hc => (by cases hc), fun _ _ hc => (by cases hc)⟩
  balanced := by
    refine ⟨fun _ hc => (by cases hc), fun c hc => ?_⟩
    rw [refs_new] at hc
    exact absurd hc (Nat.lt_irrefl 0)
  listening := ⟨fun _ _ hc => (by cases hc), List.Sublist.refl [], fun _ hc => (by cases hc)⟩
  saved := ⟨fun _ _ hc => (by cases hc), fun _ => trivial⟩
  numbered := ⟨fun _ hi => absurd hi List.not_mem_nil, fun _ hi => absurd hi List.not_mem_nil,
    fun _ hi => absurd hi List.not_mem_nil, trivial⟩

end Serving
end Rpc
end Frangipani
