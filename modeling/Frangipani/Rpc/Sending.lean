/-
The waits of `connection::send` (`rpc/connection.cc`).

A connection has room for one PDU.  A thread that comes to `send` while another one's
PDU is there waits on `send_wait_`.  The thread that has put its PDU there writes what
the socket takes.  If that is not all, it registers a callback for writing and waits on
`send_complete_`, and `write_cb` writes the rest.

`Sender` of `Rpc/Connection.lean` lets a thread go on whenever the loop that it waits in
would let it.  Here the two conditions are added, with who is asleep and who is woken, so
that it can be asked whether a thread sleeps for ever.  Each step is at most one step of
`Sender`.

Two answers.  When a connection dies by an error, everybody is woken, and as long as a
`send` is under way some thread can go on, or the socket is registered for writing and
has bytes to take.  But `closeconn` wakes nobody.  A `send` that waits for its PDU to be
written when the connection is closed never returns.
-/
import Frangipani.Concurrency.Condition
import Frangipani.Rpc.Framing

namespace Frangipani
namespace Rpc

open Concurrency Transition

/-- `wronly` says that `PollMgr` has the connection's callback for writing. -/
structure Sending (Thr : Type) where
  sender : Sender Thr
  waiters : Nat
  sendWait : Condition Thr
  sendComplete : Condition Thr
  wronly : Bool

/-- `removed` is the rest of a `send` whose write has failed, when `block_remove_fd` has returned.
`wake` is the thread that a signal wakes, and the last two are wake-ups without one. -/
inductive SendingAction (Thr : Type)
  | send (t : Thr) (b : Pdu) (r : WriteResult)
  | sendResume (t : Thr) (r : WriteResult)
  | completeResume (t : Thr)
  | removed (t : Thr)
  | writeCb (r : WriteResult) (wake : Option Thr)
  | readFails (wake : Option Thr)
  | closeconn
  | closed
  | wakeSend (t : Thr)
  | wakeComplete (t : Thr)

namespace SendingAction

variable {Thr : Type}

/-- The step is that of a thread in `send`, which has been woken. -/
def resumes : SendingAction Thr → Bool
  | .sendResume _ _ | .completeResume _ | .removed _ => true
  | .send _ _ _ | .writeCb _ _ | .readFails _ | .closeconn | .closed | .wakeSend _
  | .wakeComplete _ => false

def closes : SendingAction Thr → Bool
  | .closeconn => true
  | .send _ _ _ | .sendResume _ _ | .completeResume _ | .removed _ | .writeCb _ _ | .readFails _
  | .closed | .wakeSend _ | .wakeComplete _ => false

/-- A wake-up without a signal. -/
def spurious : SendingAction Thr → Bool
  | .wakeSend _ | .wakeComplete _ => true
  | .send _ _ _ | .sendResume _ _ | .completeResume _ | .removed _ | .writeCb _ _ | .readFails _
  | .closeconn | .closed => false

end SendingAction

namespace Sending

variable {Thr : Type} [DecidableEq Thr]

def new : Sending Thr where
  sender := .new
  waiters := 0
  sendWait := .empty
  sendComplete := .empty
  wronly := false

/-- The end of `send`. -/
def announce (c : Sending Thr) : Sending Thr :=
  if 0 < c.waiters then { c with sendWait := c.sendWait.broadcast } else c

/-- After `writepdu`: `send` has returned, or it is in `block_remove_fd`, or it waits for the rest
to be written. -/
def written (c : Sending Thr) (t : Thr) : Sending Thr :=
  match c.sender.pc t with
  | .sending _ =>
    if c.sender.dead then c
    else { c with wronly := true, sendComplete := c.sendComplete.wait t }
  | _ => c.announce

/-- `send` at the condition of its first loop, counted in `waiters_`. -/
def proceed (c : Sending Thr) (t : Thr) (b : Pdu) (r : WriteResult) : Option (Sending Thr) :=
  (c.sender.enter t b r).map fun s =>
    if c.sender.dead then { c with sender := s, waiters := c.waiters - 1 }
    else if c.sender.wpdu.buf.isSome then { c with sender := s, sendWait := c.sendWait.wait t }
    else written { c with sender := s, waiters := c.waiters - 1 } t

def send (c : Sending Thr) (t : Thr) (b : Pdu) (r : WriteResult) : Option (Sending Thr) :=
  match c.sender.pc t with
  | .idle => proceed { c with waiters := c.waiters + 1 } t b r
  | _ => none

def sendResume (c : Sending Thr) (t : Thr) (r : WriteResult) : Option (Sending Thr) :=
  match c.sender.pc t with
  | .waiting b =>
    if t ∈ c.sendWait.woken then proceed { c with sendWait := c.sendWait.resume t } t b r else none
  | _ => none

/-- The second loop of `send`, at its condition. -/
def completeResume (c : Sending Thr) (t : Thr) : Option (Sending Thr) :=
  if t ∈ c.sendComplete.woken then
    match c.sender.step (.complete t) with
    | some s => some (announce { c with sender := s, sendComplete := c.sendComplete.resume t })
    | none => some { c with sendComplete := (c.sendComplete.resume t).wait t }
  else none

def removed (c : Sending Thr) (t : Thr) : Option (Sending Thr) :=
  if t ∈ c.sendComplete.threads then none
  else (c.sender.step (.complete t)).map fun s => announce { c with sender := s, wronly := false }

/-- The signal of a callback. -/
def signal (c : Sending Thr) (wake : Option Thr) : Option (Sending Thr) :=
  (c.sendComplete.signal wake).map fun q => { c with sendComplete := q }

def writeCb (c : Sending Thr) (r : WriteResult) (wake : Option Thr) : Option (Sending Thr) :=
  (c.sender.step (.writeCb r)).bind fun s =>
    if c.sender.wpdu.sz = 0 then some { c with wronly := false }
    else if s.dead then signal { c with sender := s, wronly := false } wake
    else if s.wpdu.solong < s.wpdu.sz then some { c with sender := s }
    else signal { c with sender := s } wake

/-- `read_cb` when `readpdu` fails. -/
def readFails (c : Sending Thr) (wake : Option Thr) : Option (Sending Thr) :=
  if c.sender.dead then none
  else (c.sender.step .die).bind fun s => signal { c with sender := s, wronly := false } wake

def closeconn (c : Sending Thr) : Option (Sending Thr) :=
  if c.sender.dead then none else (c.sender.step .die).map fun s => { c with sender := s }

/-- `block_remove_fd` of `closeconn` takes the callbacks away. -/
def closed (c : Sending Thr) : Option (Sending Thr) :=
  if c.sender.dead then some { c with wronly := false } else none

def wakeSend (c : Sending Thr) (t : Thr) : Option (Sending Thr) :=
  if t ∈ c.sendWait.asleep then some { c with sendWait := c.sendWait.wake t } else none

def wakeComplete (c : Sending Thr) (t : Thr) : Option (Sending Thr) :=
  if t ∈ c.sendComplete.asleep then some { c with sendComplete := c.sendComplete.wake t } else none

def step (c : Sending Thr) : SendingAction Thr → Option (Sending Thr)
  | .send t b r => c.send t b r
  | .sendResume t r => c.sendResume t r
  | .completeResume t => c.completeResume t
  | .removed t => c.removed t
  | .writeCb r wake => c.writeCb r wake
  | .readFails wake => c.readFails wake
  | .closeconn => c.closeconn
  | .closed => c.closed
  | .wakeSend t => c.wakeSend t
  | .wakeComplete t => c.wakeComplete t

def system : System (Sending Thr) (SendingAction Thr) where
  init c := c = new
  step := step

end Sending

/-! ## What a step of the sender does -/

namespace Sender

variable {Thr : Type} [DecidableEq Thr] {s s' : Sender Thr}

/-- `send` has written its PDU, or the PDU is in place and not all of it is written. -/
theorem transmit_cases {t : Thr} {b : Pdu} {r : WriteResult} (hs : s.transmit t b r = some s') :
    (s'.pc = Function.update s.pc t .idle ∧ s'.wpdu.buf = none ∧ s'.dead = s.dead) ∨
      ∃ k, s'.pc = Function.update s.pc t (.sending k) ∧
        (s'.dead = false → s'.wpdu.solong ≠ s'.wpdu.sz) := by
  unfold transmit at hs
  split at hs
  · cases hs
  · rename_i p bs ok hw
    simp only at hs
    split at hs
    · cases hs
      exact .inl ⟨rfl, rfl, rfl⟩
    · rename_i hno
      cases hs
      refine .inr ⟨_, rfl, fun hdead hfull => hno ⟨?_, hfull⟩⟩
      simpa using (Bool.or_eq_false_iff.mp hdead).2

theorem enter_cases {t : Thr} {b : Pdu} {r : WriteResult} (hs : s.enter t b r = some s') :
    (s.dead = true ∧ s'.pc = Function.update s.pc t .idle ∧ s'.wpdu = s.wpdu ∧ s'.dead = true) ∨
      (s.dead = false ∧ s.wpdu.buf ≠ none ∧ s'.pc = Function.update s.pc t (.waiting b) ∧
        s'.wpdu = s.wpdu ∧ s'.dead = false) ∨
      (s.dead = false ∧ s.wpdu.buf = none ∧ s.transmit t b r = some s') := by
  unfold enter at hs
  split at hs
  · rename_i hdead
    cases hs
    exact .inl ⟨hdead, rfl, rfl, hdead⟩
  · rename_i hdead
    have hlive := Bool.eq_false_iff.mpr hdead
    split at hs
    · rename_i hbuf
      cases hs
      exact .inr (.inl ⟨hlive, Option.isSome_iff_ne_none.mp hbuf, rfl, rfl, hlive⟩)
    · rename_i hbuf
      exact .inr (.inr ⟨hlive, Option.not_isSome_iff_eq_none.mp hbuf, hs⟩)

/-- A `send` can go on even if the socket takes nothing. -/
theorem exists_enter (s : Sender Thr) (t : Thr) (b : Pdu) :
    ∃ s', s.enter t b .eagain = some s' := by
  obtain ⟨p, hp⟩ : ∃ p, writepdu { buf := some b.bytes, sz := b.bytes.length, solong := 0 }
      .eagain = some (p, [], true) := by
    unfold writepdu
    rw [if_neg (Int.lt_irrefl 0)]
    split_ifs <;> exact ⟨_, rfl⟩
  have htransmit : ∃ s', s.transmit t b .eagain = some s' := by
    simp only [transmit, hp]
    split_ifs <;> exact ⟨_, rfl⟩
  unfold enter
  split_ifs
  · exact ⟨_, rfl⟩
  · exact ⟨_, rfl⟩
  · exact htransmit

theorem complete_eq_some {t : Thr} (hs : s.step (.complete t) = some s') :
    ∃ k, s.pc t = .sending k ∧ s' = s.finish t k ∧
      ¬ (s.dead = false ∧ 0 ≤ s.wpdu.solong ∧ s.wpdu.solong < s.wpdu.sz) := by
  simp only [step] at hs
  split at hs
  · rename_i k hpc
    obtain ⟨hdone, ⟨⟩⟩ := Option.ite_none_left_eq_some.mp hs
    exact ⟨k, hpc, rfl, hdone⟩
  · cases hs

theorem complete_eq_none {t : Thr} {k : Nat} (hpc : s.pc t = .sending k)
    (hs : s.step (.complete t) = none) :
    s.dead = false ∧ 0 ≤ s.wpdu.solong ∧ s.wpdu.solong < s.wpdu.sz := by
  simp only [step, hpc] at hs
  by_contra hno
  rw [if_neg hno] at hs
  cases hs

theorem complete_of_dead {t : Thr} {k : Nat} (hpc : s.pc t = .sending k) (hdead : s.dead = true) :
    s.step (.complete t) = some (s.finish t k) := by
  simp only [step, hpc, hdead]
  exact if_neg fun h => by cases h.1

theorem writeCb_cases {r : WriteResult} (hs : s.step (.writeCb r) = some s') :
    s.dead = false ∧ s'.pc = s.pc ∧ (s.wpdu.sz = 0 → s' = s) ∧
      (s.wpdu.solong = s.wpdu.sz → s'.wpdu = s.wpdu) := by
  simp only [step] at hs
  split at hs
  · cases hs
  · rename_i hdead
    have hlive := Bool.eq_false_iff.mpr hdead
    split at hs
    · cases hs
      exact ⟨hlive, rfl, fun _ => rfl, fun _ => rfl⟩
    · rename_i hsz
      split at hs
      · cases hs
      · rename_i p bs ok hw
        cases hs
        refine ⟨hlive, rfl, fun hzero => absurd hzero hsz, fun hfull => ?_⟩
        unfold writepdu at hw
        rw [if_pos hfull] at hw
        obtain ⟨-, heq⟩ := Option.ite_none_left_eq_some.mp hw
        cases heq
        rfl

end Sender

namespace Sending

variable {Thr : Type} [DecidableEq Thr]

/-! ## Who waits for what -/

/-- The threads on `send_wait_` are those in the first loop, and `waiters_` is their number. -/
structure Queue (s : Sender Thr) (q : Condition Thr) (waiters : Nat) : Prop where
  waiting : ∀ t, t ∈ q.threads ↔ ∃ b, s.pc t = .waiting b
  nodup : q.threads.Nodup
  length : waiters = q.threads.length

/-- The same when one thread is counted in `waiters_` and has the mutex. -/
structure Entering (s : Sender Thr) (q : Condition Thr) (waiters : Nat) (t : Thr) : Prop where
  waiting : ∀ u, u ∈ q.threads ↔ u ≠ t ∧ ∃ b, s.pc u = .waiting b
  nodup : q.threads.Nodup
  length : waiters = q.threads.length + 1

/-- At most one thread is on `send_complete_`, the one whose PDU is in place.  If its PDU is in
place and it is not there, the connection is dead.  While there are bytes to be written, the
callback for writing is registered. -/
structure Completion (s : Sender Thr) (q : Condition Thr) (wronly : Bool) : Prop where
  sending : ∀ t ∈ q.threads, ∃ k, s.pc t = .sending k
  single : q.threads.length ≤ 1
  failed : ∀ t k, s.pc t = .sending k → t ∉ q.threads → s.dead = true
  owner : s.wpdu.buf ≠ none → ∃ t k, s.pc t = .sending k
  watched : s.dead = false → s.wpdu.buf ≠ none → s.wpdu.solong < s.wpdu.sz → wronly = true

section

variable {s s' : Sender Thr} {q q' : Condition Thr} {n : Nat} {t : Thr} {wronly : Bool}

omit [DecidableEq Thr] in
theorem Queue.perm (h : Queue s q n) (hq : q'.threads.Perm q.threads) : Queue s q' n where
  waiting u := hq.mem_iff.trans (h.waiting u)
  nodup := hq.nodup_iff.mpr h.nodup
  length := h.length.trans hq.length_eq.symm

omit [DecidableEq Thr] in
theorem Queue.of_pc (h : Queue s q n)
    (hpc : ∀ u, (∃ b, s'.pc u = .waiting b) ↔ ∃ b, s.pc u = .waiting b) : Queue s' q n :=
  { h with waiting := fun u => (h.waiting u).trans (hpc u).symm }

omit [DecidableEq Thr] in
theorem Queue.enter (h : Queue s q n) (hpc : s.pc t = .idle) : Entering s q (n + 1) t where
  waiting u := by
    rw [h.waiting u]
    refine ⟨fun ⟨b, hb⟩ => ⟨?_, b, hb⟩, And.right⟩
    rintro rfl
    rw [hpc] at hb
    cases hb
  nodup := h.nodup
  length := congrArg (· + 1) h.length

theorem Queue.resume (h : Queue s q n) (ht : t ∈ q.woken) : Entering s (q.resume t) n t := by
  have hperm := Condition.threads_resume ht
  have hnodup := hperm.nodup_iff.mp h.nodup
  refine ⟨fun u => ?_, (List.nodup_cons.mp hnodup).2, h.length.trans hperm.length_eq⟩
  rw [← h.waiting u, hperm.mem_iff, List.mem_cons]
  refine ⟨fun hu => ⟨?_, .inr hu⟩, fun ⟨hne, hu⟩ => hu.resolve_left hne⟩
  rintro rfl
  exact (List.nodup_cons.mp hnodup).1 hu

theorem Entering.leave {pc : SendPc} (h : Entering s q n t) (hs : s'.pc = Function.update s.pc t pc)
    (hpc : ∀ b, pc ≠ .waiting b) : Queue s' q (n - 1) where
  waiting u := by
    rw [h.waiting u, hs, Function.update_apply]
    split_ifs with hu
    · exact ⟨fun hw => absurd hu hw.1, fun ⟨b, hb⟩ => absurd hb (hpc b)⟩
    · exact ⟨And.right, fun hw => ⟨hu, hw⟩⟩
  nodup := h.nodup
  length := by
    have := h.length
    omega

theorem Entering.wait {b : Pdu} (h : Entering s q n t)
    (hs : s'.pc = Function.update s.pc t (.waiting b)) : Queue s' (q.wait t) n := by
  have hperm := q.threads_wait t
  refine ⟨fun u => ?_, hperm.nodup_iff.mpr (List.nodup_cons.mpr ⟨?_, h.nodup⟩),
    h.length.trans hperm.length_eq.symm⟩
  · rw [hperm.mem_iff, List.mem_cons, h.waiting u, hs, Function.update_apply]
    split_ifs with hu
    · exact ⟨fun _ => ⟨b, rfl⟩, fun _ => .inl hu⟩
    · exact ⟨fun hw => (hw.resolve_left hu).2, fun hw => .inr ⟨hu, hw⟩⟩
  · rw [h.waiting t]
    exact fun hw => hw.1 rfl

omit [DecidableEq Thr] in
theorem Completion.nobody (h : Completion s q wronly) (hinv : s.Inv) (hbuf : s.wpdu.buf = none) :
    q.threads = [] := by
  refine List.eq_nil_iff_forall_not_mem.mpr fun t ht => ?_
  obtain ⟨k, hk⟩ := h.sending t ht
  exact (hinv.sending t k hk).1 hbuf

omit [DecidableEq Thr] in
theorem Completion.perm (h : Completion s q wronly) (hq : q'.threads.Perm q.threads) :
    Completion s q' wronly :=
  { h with
    sending := fun t ht => h.sending t (hq.mem_iff.mp ht)
    single := hq.length_eq ▸ h.single
    failed := fun t k hk ht => h.failed t k hk fun hmem => ht (hq.mem_iff.mpr hmem) }

/-- A thread whose PDU is not in place goes elsewhere. -/
theorem Completion.move {pc : SendPc} (h : Completion s q wronly)
    (hs : s'.pc = Function.update s.pc t pc) (hold : ∀ k, s.pc t ≠ .sending k)
    (hnew : ∀ k, pc ≠ .sending k) (hwpdu : s'.wpdu = s.wpdu) (hdead : s'.dead = s.dead) :
    Completion s' q wronly := by
  have hpc : ∀ u k, s'.pc u = .sending k ↔ s.pc u = .sending k := by
    intro u k
    rw [hs, Function.update_apply]
    split_ifs with hu
    · subst hu
      exact iff_of_false (hnew k) (hold k)
    · exact Iff.rfl
  refine ⟨fun u hu => ?_, h.single, fun u k hk hu => ?_, fun hbuf => ?_, fun hlive hbuf hlt => ?_⟩
  · obtain ⟨k, hk⟩ := h.sending u hu
    exact ⟨k, (hpc u k).mpr hk⟩
  · rw [hdead]
    exact h.failed u k ((hpc u k).mp hk) hu
  · obtain ⟨u, k, hk⟩ := h.owner (hwpdu ▸ hbuf)
    exact ⟨u, k, (hpc u k).mpr hk⟩
  · rw [hwpdu] at hbuf hlt
    exact h.watched (hdead ▸ hlive) hbuf hlt

theorem Completion.finish {k : Nat} (h : Completion s q wronly) (hinv : s.Inv)
    (hpc : s.pc t = .sending k) (hq : t ∉ q'.threads) (hsub : ∀ u ∈ q'.threads, u ∈ q.threads)
    (wronly' : Bool) : Completion (s.finish t k) q' wronly' := by
  -- Only one PDU is in place at a time.
  have hnobody : q'.threads = [] := by
    refine List.eq_nil_iff_forall_not_mem.mpr fun u hu => ?_
    obtain ⟨l, hl⟩ := h.sending u (hsub u hu)
    exact hq (hinv.one u t l k hl hpc ▸ hu)
  refine ⟨fun u hu => ?_, ?_, fun u l hu => ?_, fun hbuf => absurd rfl hbuf,
    fun _ hbuf => absurd rfl hbuf⟩
  · rw [hnobody] at hu
    exact absurd hu List.not_mem_nil
  · rw [hnobody]
    exact Nat.zero_le 1
  · replace hu : Function.update s.pc t .idle u = .sending l := hu
    rw [Function.update_apply] at hu
    split_ifs at hu with hut
    exact absurd (hinv.one u t l k hu hpc) hut

end

/-- What holds in every run. -/
structure Inv (c : Sending Thr) : Prop where
  sender : c.sender.Inv
  queue : Queue c.sender c.sendWait c.waiters
  completion : Completion c.sender c.sendComplete c.wronly
  queued : c.sendWait.asleep ≠ [] → c.sender.wpdu.buf ≠ none

/-- A thread that is asleep on `send_complete_` has something left to be written. -/
def Awake (c : Sending Thr) : Prop :=
  ∀ t ∈ c.sendComplete.asleep, c.sender.dead = false ∧ c.sender.wpdu.solong < c.sender.wpdu.sz

omit [DecidableEq Thr] in
theorem inv_new : (new : Sending Thr).Inv where
  sender := Sender.inv_new
  queue :=
    { waiting := fun t => iff_of_false List.not_mem_nil fun ⟨b, hb⟩ => by cases hb
      nodup := List.nodup_nil
      length := rfl }
  completion :=
    { sending := fun t ht => absurd ht List.not_mem_nil
      single := Nat.zero_le 1
      failed := fun t k hk => by cases hk
      owner := fun h => absurd rfl h
      watched := fun _ h => absurd rfl h }
  queued := fun h => absurd rfl h

omit [DecidableEq Thr] in
/-- With the number of waiters right, nobody stays asleep on `send_wait_` when a `send` ends. -/
theorem asleep_announce {c : Sending Thr} (h : Queue c.sender c.sendWait c.waiters) :
    c.announce.sendWait.asleep = [] := by
  unfold announce
  split_ifs with hpos
  · rfl
  · have hlength : c.sendWait.threads.length = c.sendWait.asleep.length + c.sendWait.woken.length :=
      List.length_append
    have := h.length
    exact List.length_eq_zero_iff.mp (by omega)

omit [DecidableEq Thr] in
theorem inv_announce {c : Sending Thr} (hsender : c.sender.Inv)
    (hqueue : Queue c.sender c.sendWait c.waiters)
    (hcompletion : Completion c.sender c.sendComplete c.wronly) : c.announce.Inv := by
  have hasleep := asleep_announce hqueue
  unfold announce at hasleep ⊢
  split_ifs at hasleep ⊢
  · exact ⟨hsender, hqueue.perm c.sendWait.threads_broadcast, hcompletion,
      fun hne => absurd hasleep hne⟩
  · exact ⟨hsender, hqueue, hcompletion, fun hne => absurd hasleep hne⟩

omit [DecidableEq Thr] in
/-- While the connection lives, what is in place is written in part. -/
theorem solong_le {s : Sender Thr} (h : s.Inv) (hlive : s.dead = false) (hbuf : s.wpdu.buf ≠ none) :
    0 ≤ s.wpdu.solong ∧ s.wpdu.solong ≤ s.wpdu.sz := by
  obtain ⟨-, b, out, -, hpartly, -⟩ := h.writing hlive hbuf
  exact ⟨hpartly.low, hpartly.high⟩

omit [DecidableEq Thr] in
theorem written_idle {c : Sending Thr} {t : Thr} (h : c.sender.pc t = .idle) :
    c.written t = c.announce := by
  rw [written, h]

omit [DecidableEq Thr] in
theorem written_sending {c : Sending Thr} {t : Thr} {k : Nat} (h : c.sender.pc t = .sending k) :
    c.written t = if c.sender.dead then c
      else { c with wronly := true, sendComplete := c.sendComplete.wait t } := by
  rw [written, h]

omit [DecidableEq Thr] in
theorem sendComplete_announce (c : Sending Thr) : c.announce.sendComplete = c.sendComplete := by
  unfold announce
  split_ifs <;> rfl

theorem inv_written {c : Sending Thr} {s' : Sender Thr} {t : Thr} {b : Pdu} {r : WriteResult}
    (hsender : s'.Inv) (hqueue : Queue s' c.sendWait c.waiters)
    (hnobody : c.sendComplete.threads = []) (hasleep : c.sendWait.asleep = [])
    (hs : c.sender.transmit t b r = some s') :
    (written { c with sender := s' } t).Inv ∧ (written { c with sender := s' } t).Awake := by
  have hvacuous : ∀ u, u ∉ c.sendComplete.asleep := fun u hu => by
    have : u ∈ c.sendComplete.threads := List.mem_append_left _ hu
    rw [hnobody] at this
    exact List.not_mem_nil this
  have hnone : ∀ u, u ∉ c.sendComplete.threads := fun u hu => by
    rw [hnobody] at hu
    exact List.not_mem_nil hu
  rcases Sender.transmit_cases hs with ⟨hpc, hbuf, -⟩ | ⟨k, hpc, hrest⟩
  · rw [written_idle (by rw [hpc, Function.update_self])]
    refine ⟨inv_announce hsender hqueue ?_, fun u hu => ?_⟩
    · exact ⟨fun u hu => absurd hu (hnone u), by rw [hnobody]; exact Nat.zero_le 1,
        fun u l hl => absurd hbuf (hsender.sending u l hl).1, fun hne => absurd hbuf hne,
        fun _ hne => absurd hbuf hne⟩
    · rw [sendComplete_announce] at hu
      exact absurd hu (hvacuous u)
  · have hself : s'.pc t = .sending k := by rw [hpc, Function.update_self]
    have hbuf := (hsender.sending t k hself).1
    rw [written_sending hself]
    split_ifs with hdead
    · refine ⟨⟨hsender, hqueue, ?_, fun hne => absurd hasleep hne⟩,
        fun u hu => absurd hu (hvacuous u)⟩
      exact ⟨fun u hu => absurd hu (hnone u), by rw [hnobody]; exact Nat.zero_le 1,
        fun _ _ _ _ => hdead, fun _ => ⟨t, k, hself⟩,
        fun hlive => by rw [hlive] at hdead; cases hdead⟩
    · -- The thread waits for `write_cb`.
      have hlive := Bool.eq_false_iff.mpr hdead
      have hperm := c.sendComplete.threads_wait t
      rw [hnobody] at hperm
      have honly : ∀ u, u ∈ (c.sendComplete.wait t).threads ↔ u = t := fun u => by
        rw [hperm.mem_iff, List.mem_singleton]
      refine ⟨⟨hsender, hqueue, ?_, fun hne => absurd hasleep hne⟩, fun u hu => ⟨hlive, ?_⟩⟩
      · refine ⟨fun u hu => ⟨k, (honly u).mp hu ▸ hself⟩, Nat.le_of_eq hperm.length_eq,
          fun u l hl hu => absurd ((honly u).mpr (hsender.one u t l k hl hself)) hu,
          fun _ => ⟨t, k, hself⟩, fun _ _ _ => rfl⟩
      · obtain ⟨-, hle⟩ := solong_le hsender hlive hbuf
        have hne := hrest hlive
        show s'.wpdu.solong < s'.wpdu.sz
        omega

theorem inv_proceed {c d : Sending Thr} {t : Thr} {b : Pdu} {r : WriteResult}
    (hsender : c.sender.Inv) (hentering : Entering c.sender c.sendWait c.waiters t)
    (hcompletion : Completion c.sender c.sendComplete c.wronly)
    (hqueued : c.sendWait.asleep ≠ [] → c.sender.wpdu.buf ≠ none)
    (hpc : ∀ k, c.sender.pc t ≠ .sending k) (hs : c.proceed t b r = some d) :
    d.Inv ∧ (c.Awake → d.Awake) := by
  obtain ⟨s', henter, rfl⟩ := Option.map_eq_some_iff.mp hs
  have hsender' := hsender.enter henter
  rcases Sender.enter_cases henter with ⟨hdead, hpc', hwpdu, hdead'⟩ |
    ⟨hlive, hbuf, hpc', hwpdu, hlive'⟩ | ⟨hlive, hbuf, htransmit⟩
  · rw [if_pos hdead]
    refine ⟨⟨hsender', hentering.leave hpc' nofun,
      hcompletion.move hpc' hpc nofun hwpdu (hdead'.trans hdead.symm),
      fun hne => hwpdu ▸ hqueued hne⟩, fun hawake u hu => ?_⟩
    have := (hawake u hu).1
    rw [hdead] at this
    cases this
  · rw [if_neg (by rw [hlive]; exact Bool.false_ne_true),
      if_pos (Option.isSome_iff_ne_none.mpr hbuf)]
    refine ⟨⟨hsender', hentering.wait hpc',
      hcompletion.move hpc' hpc nofun hwpdu (hlive'.trans hlive.symm),
      fun _ => hwpdu ▸ hbuf⟩, fun hawake u hu => ⟨hlive', ?_⟩⟩
    show s'.wpdu.solong < s'.wpdu.sz
    rw [hwpdu]
    exact (hawake u hu).2
  · have hasleep : c.sendWait.asleep = [] := by
      by_contra hne
      exact hqueued hne hbuf
    rw [if_neg (by rw [hlive]; exact Bool.false_ne_true),
      if_neg (by rw [hbuf]; exact Bool.false_ne_true)]
    have hqueue : Queue s' c.sendWait (c.waiters - 1) := by
      rcases Sender.transmit_cases htransmit with ⟨hpc', -, -⟩ | ⟨k, hpc', -⟩
      · exact hentering.leave hpc' nofun
      · exact hentering.leave hpc' nofun
    obtain ⟨hinv, hawake⟩ := inv_written (c := { c with waiters := c.waiters - 1 }) hsender' hqueue
      (hcompletion.nobody hsender hbuf) hasleep htransmit
    exact ⟨hinv, fun _ => hawake⟩

namespace Inv

variable {c d : Sending Thr}

theorem send {t : Thr} {b : Pdu} {r : WriteResult} (h : c.Inv) (hs : c.send t b r = some d) :
    d.Inv ∧ (c.Awake → d.Awake) := by
  unfold Sending.send at hs
  split at hs
  · rename_i hpc
    refine inv_proceed (c := { c with waiters := c.waiters + 1 }) h.sender (h.queue.enter hpc)
      h.completion h.queued (fun k hk => ?_) hs
    rw [show c.sender.pc t = .sending k from hk] at hpc
    cases hpc
  · cases hs

theorem sendResume {t : Thr} {r : WriteResult} (h : c.Inv) (hs : c.sendResume t r = some d) :
    d.Inv ∧ (c.Awake → d.Awake) := by
  unfold Sending.sendResume at hs
  split at hs
  · rename_i b hpc
    obtain ⟨hwoken, hs⟩ := Option.ite_none_right_eq_some.mp hs
    refine inv_proceed (c := { c with sendWait := c.sendWait.resume t }) h.sender
      (h.queue.resume hwoken) h.completion h.queued (fun k hk => ?_) hs
    rw [show c.sender.pc t = .sending k from hk] at hpc
    cases hpc
  · cases hs

/-- The threads in the first loop do not change when another one returns. -/
theorem queue_finish {t : Thr} {k : Nat} (h : c.Inv) (hpc : c.sender.pc t = .sending k) :
    Queue (c.sender.finish t k) c.sendWait c.waiters := by
  refine h.queue.of_pc fun u => ?_
  show (∃ b, Function.update c.sender.pc t .idle u = .waiting b) ↔ _
  rw [Function.update_apply]
  split_ifs with hu
  · rw [hu, hpc]
    exact iff_of_false (fun ⟨_, hb⟩ => by cases hb) fun ⟨_, hb⟩ => by cases hb
  · exact Iff.rfl

theorem not_mem_resume {t : Thr} (h : c.Inv) (ht : t ∈ c.sendComplete.woken) :
    (c.sendComplete.resume t).threads = [] := by
  have hlength := (Condition.threads_resume ht).length_eq
  have hsingle := h.completion.single
  rw [List.length_cons] at hlength
  exact List.length_eq_zero_iff.mp (by omega)

theorem completeResume {t : Thr} (h : c.Inv) (hs : c.completeResume t = some d) :
    d.Inv ∧ (c.Awake → d.Awake) := by
  obtain ⟨hwoken, hs⟩ := Option.ite_none_right_eq_some.mp hs
  have hnobody := h.not_mem_resume hwoken
  have hperm := Condition.threads_resume hwoken
  split at hs
  · rename_i s' hstep
    cases hs
    have hsender := h.sender.step hstep
    obtain ⟨k, hpc, rfl, -⟩ := Sender.complete_eq_some hstep
    refine ⟨inv_announce hsender (h.queue_finish hpc) ?_, fun _ u hu => ?_⟩
    · refine h.completion.finish h.sender hpc ?_ ?_ c.wronly
      · rw [hnobody]
        exact List.not_mem_nil
      · rw [hnobody]
        exact fun u hu => absurd hu List.not_mem_nil
    · rw [sendComplete_announce] at hu
      have : u ∈ (c.sendComplete.resume t).threads := List.mem_append_left _ hu
      rw [hnobody] at this
      exact absurd this List.not_mem_nil
  · -- The condition of the loop still holds.
    rename_i hnone
    cases hs
    have hmem : t ∈ c.sendComplete.threads := List.mem_append_right _ hwoken
    obtain ⟨k, hpc⟩ := h.completion.sending t hmem
    obtain ⟨hlive, -, hlt⟩ := Sender.complete_eq_none hpc hnone
    have hback : ((c.sendComplete.resume t).wait t).threads.Perm c.sendComplete.threads :=
      ((c.sendComplete.resume t).threads_wait t).trans hperm.symm
    exact ⟨{ h with completion := h.completion.perm hback }, fun _ u _ => ⟨hlive, hlt⟩⟩

theorem removed {t : Thr} (h : c.Inv) (hs : c.removed t = some d) :
    d.Inv ∧ (c.Awake → d.Awake) := by
  obtain ⟨hnot, hs⟩ := Option.ite_none_left_eq_some.mp hs
  obtain ⟨s', hstep, rfl⟩ := Option.map_eq_some_iff.mp hs
  have hsender := h.sender.step hstep
  obtain ⟨k, hpc, rfl, -⟩ := Sender.complete_eq_some hstep
  have hcompletion := h.completion.finish h.sender hpc hnot (fun _ hu => hu) false
  refine ⟨inv_announce hsender (h.queue_finish hpc) hcompletion, fun hawake u hu => ?_⟩
  rw [sendComplete_announce] at hu
  obtain ⟨l, hl⟩ := h.completion.sending u (List.mem_append_left _ hu)
  exact absurd (List.mem_append_left _ (h.sender.one u t l k hl hpc ▸ hu)) hnot

theorem signal {s' : Sender Thr} {w : Option Thr} {wronly : Bool} (h : c.Inv) (hsender : s'.Inv)
    (hpc : s'.pc = c.sender.pc) (hbuf : c.sender.wpdu.buf ≠ none → s'.wpdu.buf ≠ none)
    (hbuf' : s'.wpdu.buf ≠ none → c.sender.wpdu.buf ≠ none)
    (hdead : c.sender.dead = true → s'.dead = true)
    (hwatched : s'.dead = false → s'.wpdu.solong < s'.wpdu.sz → wronly = true)
    (hs : Sending.signal { c with sender := s', wronly := wronly } w = some d) :
    d.Inv ∧ d.Awake := by
  obtain ⟨q, hq, rfl⟩ := Option.map_eq_some_iff.mp hs
  have hcompletion : Completion s' c.sendComplete wronly :=
    { sending := fun t ht => hpc ▸ h.completion.sending t ht
      single := h.completion.single
      failed := fun t k hk ht => hdead (h.completion.failed t k (hpc ▸ hk) ht)
      owner := fun hne => hpc ▸ h.completion.owner (hbuf' hne)
      watched := fun hlive _ hlt => hwatched hlive hlt }
  refine ⟨⟨hsender, h.queue.of_pc fun u => by rw [hpc],
    hcompletion.perm (Condition.threads_signal hq), fun hne => hbuf (h.queued hne)⟩, ?_⟩
  intro u hu
  rw [Condition.asleep_signal h.completion.single hq] at hu
  exact absurd hu List.not_mem_nil

theorem writeCb {r : WriteResult} {w : Option Thr} (h : c.Inv) (hs : c.writeCb r w = some d) :
    d.Inv ∧ (c.Awake → d.Awake) := by
  obtain ⟨s', hstep, hs⟩ := Option.bind_eq_some_iff.mp hs
  have hsender := h.sender.step hstep
  obtain ⟨hlive, hpc, hzero, hfull⟩ := Sender.writeCb_cases hstep
  split_ifs at hs with hsz hdead hlt
  · -- There is nothing to be written.
    cases hs
    refine ⟨{ h with completion := { h.completion with watched := fun _ hbuf hlt => ?_ } },
      fun hawake => hawake⟩
    have hlow := (solong_le h.sender hlive hbuf).1
    replace hlt : c.sender.wpdu.solong < c.sender.wpdu.sz := hlt
    omega
  all_goals
    have hbuf : c.sender.wpdu.buf ≠ none := fun hnone => hsz (h.sender.unset hnone)
    obtain ⟨t, k, hk⟩ := h.completion.owner hbuf
    have hbuf' : s'.wpdu.buf ≠ none := (hsender.sending t k (hpc ▸ hk)).1
  · obtain ⟨hinv, hawake⟩ := h.signal hsender hpc (fun _ => hbuf') (fun _ => hbuf)
      (fun _ => hdead) (fun hno => by rw [hno] at hdead; cases hdead) hs
    exact ⟨hinv, fun _ => hawake⟩
  · cases hs
    have hlive' := Bool.eq_false_iff.mpr hdead
    have hlt' : c.sender.wpdu.solong < c.sender.wpdu.sz := by
      have hle := (solong_le h.sender hlive hbuf).2
      have hne : c.sender.wpdu.solong ≠ c.sender.wpdu.sz := fun heq => by
        rw [hfull heq] at hlt
        omega
      omega
    refine ⟨⟨hsender, h.queue.of_pc fun u => by rw [hpc], ?_, fun _ => hbuf'⟩,
      fun _ u _ => ⟨hlive', hlt⟩⟩
    exact
      { sending := fun u hu => hpc ▸ h.completion.sending u hu
        single := h.completion.single
        failed := fun u l hl hu => by
          have := h.completion.failed u l (hpc ▸ hl) hu
          rw [hlive] at this
          cases this
        owner := fun _ => ⟨t, k, hpc ▸ hk⟩
        watched := fun _ _ _ => h.completion.watched hlive hbuf hlt' }
  · obtain ⟨hinv, hawake⟩ := h.signal hsender hpc (fun _ => hbuf') (fun _ => hbuf)
      (fun hdead' => by rw [hlive] at hdead'; cases hdead') (fun _ hlt' => absurd hlt' hlt) hs
    exact ⟨hinv, fun _ => hawake⟩

theorem readFails {w : Option Thr} (h : c.Inv) (hs : c.readFails w = some d) : d.Inv ∧ d.Awake := by
  obtain ⟨-, hs⟩ := Option.ite_none_left_eq_some.mp hs
  obtain ⟨s', hstep, hs⟩ := Option.bind_eq_some_iff.mp hs
  have hsender := h.sender.step hstep
  cases hstep
  exact h.signal hsender rfl id id (fun _ => rfl) nofun hs

theorem closeconn (h : c.Inv) (hs : c.closeconn = some d) : d.Inv := by
  obtain ⟨-, hs⟩ := Option.ite_none_left_eq_some.mp hs
  obtain ⟨s', hstep, rfl⟩ := Option.map_eq_some_iff.mp hs
  have hsender := h.sender.step hstep
  cases hstep
  exact { h with
    sender := hsender
    queue := h.queue.of_pc fun _ => Iff.rfl
    completion := { h.completion with failed := fun _ _ _ _ => rfl, watched := nofun } }

omit [DecidableEq Thr] in
theorem closed (h : c.Inv) (hs : c.closed = some d) : d.Inv ∧ (c.Awake → d.Awake) := by
  obtain ⟨hdead, ⟨⟩⟩ := Option.ite_none_right_eq_some.mp hs
  refine ⟨{ h with completion := { h.completion with watched := fun hlive => ?_ } }, id⟩
  rw [hlive] at hdead
  cases hdead

theorem wakeSend {t : Thr} (h : c.Inv) (hs : c.wakeSend t = some d) :
    d.Inv ∧ (c.Awake → d.Awake) := by
  obtain ⟨hasleep, ⟨⟩⟩ := Option.ite_none_right_eq_some.mp hs
  exact ⟨{ h with
    queue := h.queue.perm (Condition.threads_wake hasleep)
    queued := fun _ => h.queued (List.ne_nil_of_mem hasleep) }, id⟩

theorem wakeComplete {t : Thr} (h : c.Inv) (hs : c.wakeComplete t = some d) :
    d.Inv ∧ (c.Awake → d.Awake) := by
  obtain ⟨hasleep, ⟨⟩⟩ := Option.ite_none_right_eq_some.mp hs
  exact ⟨{ h with completion := h.completion.perm (Condition.threads_wake hasleep) },
    fun hawake u hu => hawake u (List.mem_of_mem_erase hu)⟩

/-- Every step keeps the invariant, and only `closeconn` may leave a thread asleep for nothing. -/
theorem step {a : SendingAction Thr} (h : c.Inv) (hs : c.step a = some d) :
    d.Inv ∧ (a.closes = false → c.Awake → d.Awake) := by
  cases a with
  | send t b r => exact (h.send hs).imp id fun hawake _ => hawake
  | sendResume t r => exact (h.sendResume hs).imp id fun hawake _ => hawake
  | completeResume t => exact (h.completeResume hs).imp id fun hawake _ => hawake
  | removed t => exact (h.removed hs).imp id fun hawake _ => hawake
  | writeCb r w => exact (h.writeCb hs).imp id fun hawake _ => hawake
  | readFails w => exact (h.readFails hs).imp id fun hawake _ _ => hawake
  | closeconn => exact ⟨h.closeconn hs, nofun⟩
  | closed => exact (h.closed hs).imp id fun hawake _ => hawake
  | wakeSend t => exact (h.wakeSend hs).imp id fun hawake _ => hawake
  | wakeComplete t => exact (h.wakeComplete hs).imp id fun hawake _ => hawake

end Inv

/-! ## When everybody is woken -/

/-- A thread in `send` can go on, or there are bytes to be written and the callback for writing is
registered. -/
def NotStuck (c : Sending Thr) : Prop :=
  (∃ t, c.sender.pc t ≠ .idle) → (∃ a : SendingAction Thr, a.resumes = true ∧ c.step a ≠ none) ∨
    (c.sender.dead = false ∧ c.sender.wpdu.solong < c.sender.wpdu.sz ∧ c.wronly = true)

/-- The thread whose PDU is in place goes on, or waits for the socket. -/
theorem notStuck_of_sending {c : Sending Thr} {t : Thr} {k : Nat} (h : c.Inv) (hawake : c.Awake)
    (hpc : c.sender.pc t = .sending k) : c.NotStuck := by
  intro _
  by_cases ht : t ∈ c.sendComplete.threads
  · rcases List.mem_append.mp ht with hasleep | hwoken
    · right
      obtain ⟨hlive, hlt⟩ := hawake t hasleep
      exact ⟨hlive, hlt, h.completion.watched hlive (h.sender.sending t k hpc).1 hlt⟩
    · left
      refine ⟨.completeResume t, rfl, ?_⟩
      show c.completeResume t ≠ none
      rw [completeResume, if_pos hwoken]
      split <;> exact Option.some_ne_none _
  · left
    refine ⟨.removed t, rfl, ?_⟩
    show c.removed t ≠ none
    rw [removed, if_neg ht, Sender.complete_of_dead hpc (h.completion.failed t k hpc ht)]
    exact Option.some_ne_none _

theorem Inv.notStuck {c : Sending Thr} (h : c.Inv) (hawake : c.Awake) : c.NotStuck := by
  by_cases hsending : ∃ t k, c.sender.pc t = .sending k
  · obtain ⟨t, k, hpc⟩ := hsending
    exact notStuck_of_sending h hawake hpc
  · rintro ⟨t, ht⟩
    have hbuf : c.sender.wpdu.buf = none := by
      by_contra hne
      exact hsending (h.completion.owner hne)
    -- Nobody's PDU is in place, so nobody is asleep, and the thread has been woken.
    obtain ⟨b, hb⟩ : ∃ b, c.sender.pc t = .waiting b := by
      cases hpc : c.sender.pc t with
      | idle => exact absurd hpc ht
      | waiting b => exact ⟨b, rfl⟩
      | sending k => exact absurd ⟨t, k, hpc⟩ hsending
    have hwoken : t ∈ c.sendWait.woken := by
      rcases List.mem_append.mp ((h.queue.waiting t).mpr ⟨b, hb⟩) with hasleep | hwoken
      · exact absurd hbuf (h.queued (List.ne_nil_of_mem hasleep))
      · exact hwoken
    left
    refine ⟨.sendResume t .eagain, rfl, ?_⟩
    obtain ⟨s', hs'⟩ := c.sender.exists_enter t b
    simp only [Sending.step, Sending.sendResume, hb, if_pos hwoken, proceed, hs', Option.map_some]
    exact Option.some_ne_none _

theorem inv_alongRun {actions : List (SendingAction Thr)}
    (hclose : system.StepsMeet (fun _ a => a.closes = false) new actions) :
    system.AlongRun (fun c : Sending Thr => c.Inv ∧ c.Awake) new actions :=
  hclose.alongRun (P := fun c => c.Inv ∧ c.Awake)
    (fun _ _ _ h hok hs => ⟨(h.1.step hs).1, (h.1.step hs).2 hok h.2⟩)
    ⟨inv_new, fun _ ht => absurd ht List.not_mem_nil⟩

/-- As long as nobody calls `closeconn`, and whatever else kills the connection: when a `send` is
under way, some thread in `send` can go on, or the connection lives, has bytes to be written and has
its callback for writing registered.  No wake-up is lost. -/
theorem sends_never_stuck (actions : List (SendingAction Thr))
    (hclose : system.StepsMeet (fun _ a => a.closes = false) new actions) :
    system.AlongRun NotStuck new actions :=
  (inv_alongRun hclose).mono fun _ h => h.1.notStuck h.2

/-- The socket takes ten bytes of the first PDU, a second thread waits, and then a read fails. -/
def readError : List (SendingAction Nat) :=
  [.send 0 (Link.plain 1) (.wrote 10), .send 1 (Link.plain 2) .eagain, .readFails (some 0),
    .completeResume 0, .sendResume 1 .eagain]

theorem sends_never_stuck_readError :
    (system.run new readError).isSome = true ∧ system.AlongRun NotStuck new readError :=
  ⟨by decide +kernel, sends_never_stuck readError (by decide +kernel)⟩

/-! ## `closeconn` -/

/-- The connection is dead, and the thread is asleep on `send_complete_`. -/
structure Forgotten (c : Sending Thr) (t : Thr) (k : Nat) : Prop where
  inv : c.Inv
  dead : c.sender.dead = true
  asleep : t ∈ c.sendComplete.asleep
  pc : c.sender.pc t = .sending k

omit [DecidableEq Thr] in
theorem Forgotten.not_mem_woken {c : Sending Thr} {t : Thr} {k : Nat} (h : c.Forgotten t k)
    (u : Thr) : u ∉ c.sendComplete.woken := by
  intro hu
  have hsingle := h.inv.completion.single
  have hsum : c.sendComplete.threads.length =
      c.sendComplete.asleep.length + c.sendComplete.woken.length := List.length_append
  have hpos := List.length_pos_of_mem h.asleep
  have hpos' := List.length_pos_of_mem hu
  omega

theorem proceed_of_dead {c d : Sending Thr} {t u : Thr} {k : Nat} {b : Pdu} {r : WriteResult}
    (hs : c.proceed u b r = some d) (hdead : c.sender.dead = true)
    (hpc : c.sender.pc t = .sending k) (hu : ∀ l, c.sender.pc u ≠ .sending l) :
    d.sender.dead = true ∧ d.sendComplete = c.sendComplete ∧ d.sender.pc t = .sending k ∧
      d.sendWait = c.sendWait := by
  obtain ⟨s', henter, rfl⟩ := Option.map_eq_some_iff.mp hs
  rw [if_pos hdead]
  rcases Sender.enter_cases henter with ⟨-, hpc', -, hdead'⟩ | ⟨hlive, -⟩ | ⟨hlive, -⟩
  · refine ⟨hdead', rfl, ?_, rfl⟩
    have hne : t ≠ u := by
      rintro rfl
      exact hu k hpc
    show s'.pc t = .sending k
    rw [hpc', Function.update_of_ne hne, hpc]
  · rw [hdead] at hlive
    cases hlive
  · rw [hdead] at hlive
    cases hlive

/-- What is left of the steps when the connection is dead and the owner of the PDU is asleep. -/
theorem Forgotten.step {c d : Sending Thr} {t : Thr} {k : Nat} {a : SendingAction Thr}
    (h : c.Forgotten t k) (ha : a.spurious = false) (hs : c.step a = some d) :
    d.Forgotten t k ∧ ∀ u ∈ c.sendWait.asleep, u ∈ d.sendWait.asleep := by
  have hinv := (h.inv.step hs).1
  have hnodie : c.sender.dead ≠ false := by
    rw [h.dead]
    exact fun heq => by cases heq
  cases a with
  | send u b r =>
    change c.send u b r = some d at hs
    unfold Sending.send at hs
    split at hs
    · rename_i hpc
      obtain ⟨hdead, hq, hpc', hw⟩ := proceed_of_dead hs h.dead h.pc
        fun l hl => by rw [show c.sender.pc u = .sending l from hl] at hpc; cases hpc
      exact ⟨⟨hinv, hdead, hq ▸ h.asleep, hpc'⟩, fun v hv => hw ▸ hv⟩
    · cases hs
  | sendResume u r =>
    change c.sendResume u r = some d at hs
    unfold Sending.sendResume at hs
    split at hs
    · rename_i b hpc
      obtain ⟨hwoken, hs⟩ := Option.ite_none_right_eq_some.mp hs
      obtain ⟨hdead, hq, hpc', hw⟩ := proceed_of_dead hs h.dead h.pc
        fun l hl => by rw [show c.sender.pc u = .sending l from hl] at hpc; cases hpc
      exact ⟨⟨hinv, hdead, hq ▸ h.asleep, hpc'⟩, fun v hv => hw ▸ hv⟩
    · cases hs
  | completeResume u =>
    obtain ⟨hwoken, -⟩ := Option.ite_none_right_eq_some.mp hs
    exact absurd hwoken (h.not_mem_woken u)
  | removed u =>
    obtain ⟨hnot, hs⟩ := Option.ite_none_left_eq_some.mp hs
    obtain ⟨s', hstep, -⟩ := Option.map_eq_some_iff.mp hs
    obtain ⟨l, hpc, -⟩ := Sender.complete_eq_some hstep
    rw [h.inv.sender.one u t l k hpc h.pc] at hnot
    exact absurd (List.mem_append_left _ h.asleep) hnot
  | writeCb r w =>
    obtain ⟨s', hstep, -⟩ := Option.bind_eq_some_iff.mp hs
    exact absurd (Sender.writeCb_cases hstep).1 hnodie
  | readFails w =>
    obtain ⟨hlive, -⟩ := Option.ite_none_left_eq_some.mp hs
    exact absurd h.dead hlive
  | closeconn =>
    obtain ⟨hlive, -⟩ := Option.ite_none_left_eq_some.mp hs
    exact absurd h.dead hlive
  | closed =>
    obtain ⟨-, ⟨⟩⟩ := Option.ite_none_right_eq_some.mp hs
    exact ⟨{ h with inv := hinv }, fun v hv => hv⟩
  | wakeSend u => cases ha
  | wakeComplete u => cases ha

/-- When `closeconn` comes while a `send` waits for its PDU to be written, that `send` never
returns, and neither does a `send` that waits for its turn behind it: nobody wakes them any more. -/
theorem closed_send_stuck {before after : List (SendingAction Thr)} {c d : Sending Thr} {t : Thr}
    {k : Nat} (hrun : system.run new before = some c) (hpc : c.sender.pc t = .sending k)
    (hasleep : t ∈ c.sendComplete.asleep) (hclose : c.step .closeconn = some d)
    (hafter : system.StepsMeet (fun _ a => a.spurious = false) d after) :
    system.AlongRun (fun e => t ∈ e.sendComplete.asleep ∧ e.sender.pc t = .sending k ∧
      ∀ u ∈ c.sendWait.asleep, u ∈ e.sendWait.asleep) d after := by
  have hinv : c.Inv :=
    ((System.stepsMeet_of_forall (fun _ _ => trivial) _ _).alongRun (P := Inv)
      (fun _ _ _ h _ hs => (h.step hs).1) inv_new).run hrun
  have hforgotten : d.Forgotten t k ∧ ∀ u ∈ c.sendWait.asleep, u ∈ d.sendWait.asleep := by
    have hinv' := (hinv.step hclose).1
    obtain ⟨-, hs⟩ := Option.ite_none_left_eq_some.mp hclose
    obtain ⟨s', hstep, rfl⟩ := Option.map_eq_some_iff.mp hs
    cases hstep
    exact ⟨⟨hinv', rfl, hasleep, hpc⟩, fun u hu => hu⟩
  have halong := hafter.alongRun
    (P := fun e => e.Forgotten t k ∧ ∀ u ∈ c.sendWait.asleep, u ∈ e.sendWait.asleep)
    (fun e a f h ha hs => ⟨(h.1.step ha hs).1, fun u hu => (h.1.step ha hs).2 u (h.2 u hu)⟩)
    hforgotten
  exact halong.mono fun e h => ⟨h.1.asleep, h.1.pc, h.2⟩

/-- The first PDU is partly written and a second thread waits when the connection is closed. -/
theorem closed_send_stuck_partly :
    system.AlongRun (fun e : Sending Nat => 0 ∈ e.sendComplete.asleep ∧ e.sender.pc 0 = .sending 0 ∧
        ∀ u ∈ [1], u ∈ e.sendWait.asleep)
      (system.final new (readError.take 2 ++ [.closeconn]))
      [.closed, .send 2 (Link.plain 3) .eagain] := by
  have hrun : system.run new (readError.take 2) =
      some (system.final (new : Sending Nat) (readError.take 2)) :=
    System.run_eq_some_final (by decide +kernel)
  exact closed_send_stuck (t := 0) (k := 0) hrun rfl (by decide +kernel) rfl (by decide +kernel)

end Sending
end Rpc
end Frangipani
