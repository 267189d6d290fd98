/-
The order in which the threads of a client get a lock.

A thread that enters `acquire` goes to the end of `waiting_threads`, and only the first
thread there may take the lock or ask the server for it.  The call to the server is made
without the mutex, so others come and go meanwhile.  None of them is taken out before the
thread that asks: `release` takes its caller out of the queue, but a thread that can call
`release` is in no queue.  So the entry that `pop_front` takes when the call returns is
the thread that called.

A clock that ticks with every `acquire` notes when each thread has arrived.  The client
stands alone as in `openSystem`: its calls may return anything, its handlers may run at
any time, and any thread outside `acquire` may release any lock.
-/
import Frangipani.Lock.Transient

namespace Frangipani
namespace Lock

open Transition

namespace LockClientCache

/-- The lock for which a thread is in `acquire`. -/
def wants : AcquirePc → Option LockId
  | .idle => none
  | .waiting lid | .calling lid | .replied lid _ | .retryWait lid => some lid

/-- The lock for which a thread has asked the server since it was first in the queue. -/
def askedFor : AcquirePc → Option LockId
  | .idle | .waiting _ => none
  | .calling lid | .replied lid _ | .retryWait lid => some lid

variable {Tid : Type}

def queue (c : LockClientCache Tid) (lid : LockId) : List Tid := (c.info lid).waitingThreads

/-- The threads in `acquire` stand in the queues of their locks, in the order in which they
have arrived, and one that has asked the server is the first. -/
structure Lined (arrived : Tid → Nat) (c : LockClientCache Tid) : Prop where
  mem : ∀ t lid, t ∈ c.queue lid ↔ wants (c.threads t) = some lid
  order : ∀ lid, (c.queue lid).Pairwise fun t u => arrived t < arrived u
  head : ∀ t lid, askedFor (c.threads t) = some lid → (c.queue lid).head? = some t

/-- A step from `c` to `d` in which no thread enters `acquire`, and one that leaves it has
arrived before all that still want the lock. -/
structure Serves (arrived : Tid → Nat) (c d : LockClientCache Tid) : Prop where
  lined : d.Lined arrived
  stays : ∀ t lid, wants (d.threads t) = some lid → wants (c.threads t) = some lid
  first : ∀ t lid, wants (c.threads t) = some lid → d.threads t = .idle →
    ∀ u, wants (d.threads u) = some lid → arrived t < arrived u

variable {arrived : Tid → Nat} {c d : LockClientCache Tid}

theorem Lined.nodup (h : c.Lined arrived) (lid : LockId) : (c.queue lid).Nodup := by
  refine (h.order lid).imp fun {t u} hlt heq => ?_
  subst heq
  exact Nat.lt_irrefl _ hlt

theorem Lined.wants_of_head (h : c.Lined arrived) {t : Tid} {rest : List Tid} {lid : LockId}
    (hqueue : c.queue lid = t :: rest) : wants (c.threads t) = some lid :=
  (h.mem t lid).mp (hqueue ▸ List.mem_cons_self)

theorem Lined.not_mem_of_idle (h : c.Lined arrived) {t : Tid} (hidle : c.threads t = .idle)
    (lid : LockId) : t ∉ c.queue lid := by
  rw [h.mem, hidle]
  exact fun hno => by cases hno

theorem Lined.stay (h : c.Lined arrived)
    (hwants : ∀ u, wants (d.threads u) = wants (c.threads u))
    (hqueue : ∀ lid, d.queue lid = c.queue lid)
    (hasked : ∀ u lid, askedFor (d.threads u) = some lid →
      askedFor (c.threads u) = some lid ∨ (c.queue lid).head? = some u) :
    Serves arrived c d := by
  refine ⟨⟨fun t lid => ?_, fun lid => ?_, fun t lid ht => ?_⟩, fun t lid ht => ?_,
    fun t lid ht hidle => ?_⟩
  · rw [hqueue, hwants]
    exact h.mem t lid
  · rw [hqueue]
    exact h.order lid
  · rw [hqueue]
    exact (hasked t lid ht).elim (h.head t lid) id
  · rwa [hwants] at ht
  · rw [← hwants, hidle] at ht
    cases ht

theorem queue_setInfo {lid : LockId} {li : ClientInfo Tid}
    (h : li.waitingThreads = c.queue lid) (l : LockId) :
    (c.setInfo lid li).queue l = c.queue l := by
  unfold queue
  by_cases hl : l = lid
  · subst hl
    rw [info_setInfo_self, h]
    rfl
  · rw [info_setInfo_ne c li hl]

theorem Lined.frame (h : c.Lined arrived) (hthreads : d.threads = c.threads)
    (hqueue : ∀ lid, d.queue lid = c.queue lid) : Serves arrived c d := by
  refine h.stay (fun u => ?_) hqueue fun u lid hu => .inl ?_
  · rw [hthreads]
  · rwa [hthreads] at hu

/-- What a step says of the threads it says of any state with these threads. -/
theorem Serves.of_threads {b : LockClientCache Tid} (h : Serves arrived c d)
    (hthreads : c.threads = b.threads) : Serves arrived b d :=
  ⟨h.lined, hthreads ▸ h.stays, hthreads ▸ h.first⟩

/-! ## The releaser and the handlers -/

theorem Lined.releaserScan (h : c.Lined arrived) (it : Nat) :
    Serves arrived c (c.releaserScan it) := by
  unfold LockClientCache.releaserScan
  split
  · exact h.frame rfl (queue_setInfo rfl)
  · exact h.frame rfl fun _ => rfl

theorem Lined.releaserStart (h : c.Lined arrived) (hd : c.releaserStart = some d) :
    Serves arrived c d := by
  unfold LockClientCache.releaserStart at hd
  split at hd
  · split_ifs at hd
    cases hd
    exact h.releaserScan 0
  · cases hd

theorem Lined.releaseReply (h : c.Lined arrived) {ret : Ret} (hd : c.releaseReply ret = some d) :
    Serves arrived c d := by
  obtain ⟨it, lid, -, hcases⟩ := releaseReply_cases hd
  rcases hcases with ⟨-, rfl⟩ | ⟨-, rfl⟩
  · have hafter : Serves arrived c (c.afterRelease it lid .ok).1 := h.frame rfl (queue_setInfo rfl)
    exact (hafter.lined.releaserScan it).of_threads rfl
  · exact h.releaserScan (it + 1)

theorem Lined.revoke (h : c.Lined arrived) (lid : LockId) :
    Serves arrived c (c.revoke lid).2 := by
  unfold LockClientCache.revoke
  dsimp only
  split_ifs
  · exact h.frame rfl (queue_setInfo rfl)
  · exact h.frame rfl (queue_setInfo rfl)

theorem Lined.retry (h : c.Lined arrived) (lid : LockId) : Serves arrived c (c.retry lid).2 := by
  unfold LockClientCache.retry
  split
  · exact h.frame rfl fun _ => rfl
  · rename_i li hfind
    have hli : li = c.info lid := by simp [info, hfind]
    subst hli
    exact h.frame rfl (queue_setInfo rfl)

variable [DecidableEq Tid]

/-! ## Leaving `acquire` -/

theorem queue_returnOk (t : Tid) (lid l : LockId) :
    (c.returnOk t lid).queue l = if l = lid then (c.queue lid).tail else c.queue l := by
  show ((c.setInfo lid _).info l).waitingThreads = _
  split
  · rename_i hl
    subst hl
    rw [info_setInfo_self]
    rfl
  · rename_i hl
    rw [info_setInfo_ne c _ hl]
    rfl

theorem returnOk_threads_self (t : Tid) (lid : LockId) : (c.returnOk t lid).threads t = .idle :=
  Function.update_self ..

theorem returnOk_threads_ne {t u : Tid} (h : u ≠ t) (lid : LockId) :
    (c.returnOk t lid).threads u = c.threads u :=
  Function.update_of_ne h ..

/-- The thread that leaves is out of the queue as well, and nobody else is. -/
theorem Lined.mem_returnOk (h : c.Lined arrived) {t : Tid} {rest : List Tid} {lid : LockId}
    (hqueue : c.queue lid = t :: rest) (u : Tid) (l : LockId) :
    u ∈ (c.returnOk t lid).queue l ↔ wants ((c.returnOk t lid).threads u) = some l := by
  rw [queue_returnOk, hqueue, List.tail_cons]
  by_cases hu : u = t
  · subst hu
    rw [returnOk_threads_self]
    refine iff_of_false (fun hin => ?_) (fun hno => by cases hno)
    split at hin
    · have hnodup := h.nodup lid
      rw [hqueue] at hnodup
      exact (List.nodup_cons.mp hnodup).1 hin
    · rename_i hl
      rw [h.mem, h.wants_of_head hqueue] at hin
      exact hl (Option.some.inj hin).symm
  · rw [returnOk_threads_ne hu, ← h.mem]
    split
    · rename_i hl
      rw [hl, hqueue, List.mem_cons, or_iff_right hu]
    · rfl

theorem Lined.lined_returnOk (h : c.Lined arrived) {t : Tid} {rest : List Tid} {lid : LockId}
    (hqueue : c.queue lid = t :: rest) : (c.returnOk t lid).Lined arrived := by
  refine ⟨h.mem_returnOk hqueue, fun l => ?_, fun u l hu => ?_⟩
  · have horder := h.order lid
    rw [hqueue] at horder
    rw [queue_returnOk, hqueue]
    split
    · exact (List.pairwise_cons.mp horder).2
    · exact h.order l
  · have hne : u ≠ t := by
      rintro rfl
      rw [returnOk_threads_self] at hu
      cases hu
    rw [returnOk_threads_ne hne] at hu
    have hhead := h.head u l hu
    rw [queue_returnOk]
    split
    · rename_i hl
      rw [hl, hqueue] at hhead
      exact absurd (Option.some.inj hhead).symm hne
    · exact hhead

theorem Lined.returnOk (h : c.Lined arrived) {t : Tid} {lid : LockId}
    (hhead : (c.queue lid).head? = some t) : Serves arrived c (c.returnOk t lid) := by
  obtain ⟨rest, hqueue⟩ := List.head?_eq_some_iff.mp hhead
  refine ⟨h.lined_returnOk hqueue, fun u l hu => ?_, fun u l hu hidle v hv => ?_⟩
  · by_cases hut : u = t
    · rw [hut, returnOk_threads_self] at hu
      cases hu
    · rwa [returnOk_threads_ne hut] at hu
  · have hut : u = t := by
      by_contra hne
      rw [returnOk_threads_ne hne] at hidle
      rw [hidle] at hu
      cases hu
    subst hut
    obtain rfl : lid = l := Option.some.inj ((h.wants_of_head hqueue).symm.trans hu)
    -- Who still wants the lock stood behind the thread that leaves.
    have horder := h.order lid
    rw [hqueue] at horder
    rw [← h.mem_returnOk hqueue, queue_returnOk, if_pos rfl, hqueue] at hv
    exact (List.pairwise_cons.mp horder).1 v hv

/-! ## The loops of `acquire` -/

/-- A thread stays in `acquire`, and asks the server only as the first. -/
theorem Lined.remain (h : c.Lined arrived) {t : Tid} {lid : LockId} {pc : AcquirePc}
    (ht : wants (c.threads t) = some lid) (hpc : wants pc = some lid)
    (hasked : askedFor pc = none ∨ (c.queue lid).head? = some t)
    (hthreads : d.threads = Function.update c.threads t pc)
    (hqueue : ∀ l, d.queue l = c.queue l) : Serves arrived c d := by
  refine h.stay (fun u => ?_) hqueue fun u l hu => ?_
  · rw [hthreads]
    by_cases hut : u = t
    · subst hut
      rw [Function.update_self, ht, hpc]
    · rw [Function.update_of_ne hut]
  · rw [hthreads] at hu
    by_cases hut : u = t
    · subst hut
      rw [Function.update_self] at hu
      have hl : l = lid := by
        have hwants : wants pc = some l := by
          cases pc with
          | idle | waiting => cases hu
          | calling | replied | retryWait => exact hu
        exact Option.some.inj (hwants.symm.trans hpc)
      refine .inr (hl ▸ hasked.resolve_left fun hnone => ?_)
      rw [hnone] at hu
      cases hu
    · rw [Function.update_of_ne hut] at hu
      exact .inl hu

theorem Lined.acquireLoop (h : c.Lined arrived) {t : Tid} {lid : LockId}
    (ht : wants (c.threads t) = some lid) : Serves arrived c (c.acquireLoop t lid) := by
  have hwait : Serves arrived c (c.setThread t (.waiting lid)) :=
    h.remain ht rfl (.inl rfl) rfl fun _ => rfl
  unfold LockClientCache.acquireLoop
  dsimp only
  split_ifs with hrevoked hfirst
  · exact hwait
  · exact hwait
  · have hhead : (c.queue lid).head? = some t := not_not.mp hfirst
    split
    · exact h.remain ht rfl (.inr hhead) rfl (queue_setInfo rfl)
    · exact h.returnOk hhead
    · exact hwait

theorem returnOk_setThread (c : LockClientCache Tid) (t : Tid) (pc : AcquirePc) (lid : LockId) :
    (c.setThread t pc).returnOk t lid = c.returnOk t lid := by
  show (((c.setInfo lid _).setThread t pc).setThread t .idle).setHolds t lid true = _
  rw [setThread_setThread]
  rfl

/-- The loop does not look at where its thread was. -/
theorem acquireLoop_setThread (c : LockClientCache Tid) (t : Tid) (pc : AcquirePc)
    (lid : LockId) : (c.setThread t pc).acquireLoop t lid = c.acquireLoop t lid := by
  have hcall : ∀ li : ClientInfo Tid,
      ((c.setThread t pc).setInfo lid li).setThread t (.calling lid) =
        (c.setInfo lid li).setThread t (.calling lid) :=
    fun li => setThread_setThread (c.setInfo lid li) t pc _
  unfold LockClientCache.acquireLoop
  dsimp only
  rw [setThread_info, returnOk_setThread, setThread_setThread, hcall]

theorem Lined.retryLoop (h : c.Lined arrived) {t : Tid} {lid : LockId}
    (ht : wants (c.threads t) = some lid) : Serves arrived c (c.retryLoop t lid) := by
  unfold LockClientCache.retryLoop
  split_ifs
  · exact h.acquireLoop ht
  · exact h.frame rfl fun _ => rfl

theorem Lined.wake (h : c.Lined arrived) {t : Tid} (hd : c.wake t = some d) :
    Serves arrived c d := by
  unfold LockClientCache.wake at hd
  split at hd
  · rename_i lid hpc
    cases hd
    exact h.acquireLoop (by rw [hpc]; rfl)
  · rename_i lid hpc
    cases hd
    exact h.retryLoop (by rw [hpc]; rfl)
  · cases hd

/-- The thread that has called is still the first when its call returns. -/
theorem Lined.acquireReply (h : c.Lined arrived) {t : Tid} {ret : Ret}
    (hd : c.acquireReply t ret = some d) : Serves arrived c d := by
  obtain ⟨lid, hpc, hcases⟩ := acquireReply_cases hd
  have ht : wants (c.threads t) = some lid := by
    rw [hpc]
    rfl
  have hhead : (c.queue lid).head? = some t := h.head t lid (by rw [hpc]; rfl)
  rcases hcases with ⟨-, rfl⟩ | ⟨-, rfl⟩ | ⟨-, -, rfl⟩
  · exact h.returnOk hhead
  · have hset : Serves arrived c (c.setInfo lid { c.info lid with state := .none }) :=
      h.frame rfl (queue_setInfo rfl)
    unfold LockClientCache.retryLoop
    split_ifs
    · rw [acquireLoop_setThread]
      exact (hset.lined.acquireLoop ht).of_threads rfl
    · exact h.remain ht rfl (.inr hhead) rfl (queue_setInfo rfl)
  · rw [acquireLoop_setThread]
    exact h.acquireLoop ht

/-! ## Entering `acquire` -/

/-- The client with `t` at the end of the queue, before its first pass of the loop. -/
def enter (c : LockClientCache Tid) (t : Tid) (lid : LockId) : LockClientCache Tid :=
  (c.setInfo lid { c.info lid with waitingThreads := c.queue lid ++ [t] }).setThread t
    (.waiting lid)

theorem queue_enter (t : Tid) (lid l : LockId) :
    (c.enter t lid).queue l = if l = lid then c.queue lid ++ [t] else c.queue l := by
  show ((c.setInfo lid _).info l).waitingThreads = _
  split
  · rename_i hl
    rw [hl, info_setInfo_self]
  · rename_i hl
    rw [info_setInfo_ne c _ hl]
    rfl

theorem enter_threads_self (t : Tid) (lid : LockId) :
    (c.enter t lid).threads t = .waiting lid :=
  Function.update_self ..

theorem enter_threads_ne {t u : Tid} (h : u ≠ t) (lid : LockId) :
    (c.enter t lid).threads u = c.threads u :=
  Function.update_of_ne h ..

theorem Lined.mem_enter (h : c.Lined arrived) {t : Tid} (lid : LockId)
    (hidle : c.threads t = .idle) (u : Tid) (l : LockId) :
    u ∈ (c.enter t lid).queue l ↔ wants ((c.enter t lid).threads u) = some l := by
  rw [queue_enter]
  by_cases hut : u = t
  · subst hut
    rw [enter_threads_self]
    split
    · rename_i hl
      exact iff_of_true (List.mem_append_right _ List.mem_cons_self) (congrArg some hl.symm)
    · rename_i hl
      exact iff_of_false (h.not_mem_of_idle hidle l) fun heq => hl (Option.some.inj heq).symm
  · rw [enter_threads_ne hut, ← h.mem]
    split
    · rename_i hl
      rw [hl, List.mem_append, List.mem_singleton, or_iff_left hut]
    · rfl

theorem Lined.order_enter (h : c.Lined arrived) {t : Tid} (lid : LockId) {clock : Nat}
    (hidle : c.threads t = .idle)
    (hpast : ∀ u l, wants (c.threads u) = some l → arrived u < clock) (l : LockId) :
    ((c.enter t lid).queue l).Pairwise fun u v =>
      Function.update arrived t clock u < Function.update arrived t clock v := by
  have hne : ∀ {l u}, u ∈ c.queue l → u ≠ t :=
    fun hu heq => h.not_mem_of_idle hidle _ (heq ▸ hu)
  -- The new time is that of `t` alone, which is in no queue yet.
  have hold : ∀ l, (c.queue l).Pairwise fun u v =>
      Function.update arrived t clock u < Function.update arrived t clock v := by
    intro l
    refine (h.order l).imp_of_mem fun hu hv hlt => ?_
    rwa [Function.update_of_ne (hne hu), Function.update_of_ne (hne hv)]
  rw [queue_enter]
  split
  · refine List.pairwise_append.mpr ⟨hold lid, List.pairwise_singleton _ _, ?_⟩
    intro u hu v hv
    rw [List.mem_singleton.mp hv, Function.update_self, Function.update_of_ne (hne hu)]
    exact hpast u lid ((h.mem u lid).mp hu)
  · exact hold l

/-- A thread goes to the end of the queue at a time after all arrivals. -/
theorem Lined.enter (h : c.Lined arrived) {t : Tid} (lid : LockId) {clock : Nat}
    (hidle : c.threads t = .idle)
    (hpast : ∀ u l, wants (c.threads u) = some l → arrived u < clock) :
    (c.enter t lid).Lined (Function.update arrived t clock) := by
  refine ⟨h.mem_enter lid hidle, h.order_enter lid hidle hpast, fun u l hu => ?_⟩
  by_cases hut : u = t
  · rw [hut, enter_threads_self] at hu
    cases hu
  · rw [enter_threads_ne hut] at hu
    have hhead := h.head u l hu
    rw [queue_enter]
    split
    · rename_i hl
      rw [hl] at hhead
      rw [List.head?_append, hhead, Option.some_or]
    · exact hhead

theorem Lined.acquire (h : c.Lined arrived) {t : Tid} {lid : LockId}
    (hd : c.acquire t lid = some d) :
    c.threads t = .idle ∧ d = (c.enter t lid).acquireLoop t lid := by
  unfold LockClientCache.acquire at hd
  split at hd
  · rename_i hidle
    have hnot : t ∉ (c.info lid).waitingThreads := h.not_mem_of_idle hidle lid
    rw [LockClientCache.enter, acquireLoop_setThread]
    simp only [if_neg hnot] at hd
    cases hd
    exact ⟨hidle, rfl⟩
  · cases hd

/-! ## `release` -/

theorem Lined.release (h : c.Lined arrived) {t : Tid} {lid : LockId}
    (hd : c.release t lid = some d) : Serves arrived c d := by
  unfold LockClientCache.release at hd
  split_ifs at hd with hpre
  cases hd
  have hnot : t ∉ c.queue lid := h.not_mem_of_idle hpre.1 lid
  have hfilter : (c.queue lid).filter (· ≠ t) = c.queue lid := by
    refine List.filter_eq_self.mpr fun u hu => decide_eq_true ?_
    rintro rfl
    exact hnot hu
  exact h.frame rfl (queue_setInfo hfilter)

end LockClientCache

/-! ## Every interleaving -/

/-- A client, and when each thread has last entered `acquire`. -/
structure Arrivals (Tid : Type) where
  client : LockClientCache Tid
  clock : Nat
  arrived : Tid → Nat

namespace Arrivals

open LockClientCache

variable {Tid : Type} [DecidableEq Tid]

def start : Arrivals Tid where
  client := .new
  clock := 0
  arrived := fun _ => 0

/-- Note the time of an arrival. -/
def note (s : Arrivals Tid) : OpenAction Tid → Arrivals Tid
  | .acquire t _ =>
    { s with clock := s.clock + 1, arrived := Function.update s.arrived t s.clock }
  | _ => s

def step (s : Arrivals Tid) (a : OpenAction Tid) : Option (Arrivals Tid) :=
  (s.client.openStep a).map fun c => { s.note a with client := c }

def system : System (Arrivals Tid) (OpenAction Tid) where
  init s := s = start
  step := step

/-- Each thread in `acquire` for a lock is once in its queue, and no other thread is. -/
def Exact (s : Arrivals Tid) : Prop :=
  ∀ t lid, (s.client.queue lid).count t = if wants (s.client.threads t) = some lid then 1 else 0

/-- In this step `acquire(lid)` returns to `t`.  It returns nothing but `OK`. -/
def Returns (s : Arrivals Tid) (a : OpenAction Tid) (s' : Arrivals Tid) (t : Tid)
    (lid : LockId) : Prop :=
  (a = .acquire t lid ∨ wants (s.client.threads t) = some lid) ∧ s'.client.threads t = .idle

/-- A thread to which `acquire` returns has arrived before all that still want the lock. -/
def LongestFirst (s : Arrivals Tid) (a : OpenAction Tid) : Prop :=
  ∀ s', s.step a = some s' → ∀ t lid, Returns s a s' t lid →
    ∀ u, wants (s'.client.threads u) = some lid → s'.arrived t < s'.arrived u

structure Inv (s : Arrivals Tid) : Prop where
  lined : s.client.Lined s.arrived
  past : ∀ t lid, wants (s.client.threads t) = some lid → s.arrived t < s.clock

omit [DecidableEq Tid] in
theorem start_inv : (start : Arrivals Tid).Inv where
  lined :=
    { mem := fun t lid => by simp [start, LockClientCache.new, queue, info, wants]
      order := fun lid => List.Pairwise.nil
      head := fun t lid ht => by cases ht }
  past t lid ht := by cases ht

/-- The step serves from a state `b` in which a thread that enters waits already. -/
def Served (s : Arrivals Tid) (a : OpenAction Tid) (d : LockClientCache Tid) : Prop :=
  ∃ b, Serves (s.note a).arrived b d ∧
    (∀ t lid, a = .acquire t lid ∨ wants (s.client.threads t) = some lid →
      wants (b.threads t) = some lid) ∧
    ∀ t lid, wants (b.threads t) = some lid → (s.note a).arrived t < (s.note a).clock

theorem Inv.served {s : Arrivals Tid} {a : OpenAction Tid} {d : LockClientCache Tid} (h : s.Inv)
    (hd : s.client.openStep a = some d) : s.Served a d := by
  have hsame : Serves s.arrived s.client d → (∀ t lid, a ≠ .acquire t lid) → s.note a = s →
      s.Served a d := by
    intro hserves hne hnote
    unfold Served
    rw [hnote]
    exact ⟨s.client, hserves, fun t lid ht => ht.resolve_left (hne t lid), h.past⟩
  cases a with
  | acquire t lid =>
    obtain ⟨hidle, rfl⟩ := h.lined.acquire hd
    have hself : wants ((s.client.enter t lid).threads t) = some lid := by
      rw [enter_threads_self]
      rfl
    refine ⟨s.client.enter t lid, (h.lined.enter lid hidle h.past).acquireLoop hself, ?_, ?_⟩
    · rintro u l (heq | hu)
      · cases heq
        exact hself
      · rwa [enter_threads_ne]
        rintro rfl
        rw [hidle] at hu
        cases hu
    · intro u l hu
      show Function.update s.arrived t s.clock u < s.clock + 1
      by_cases hut : u = t
      · rw [hut, Function.update_self]
        exact Nat.lt_succ_self _
      · rw [enter_threads_ne hut] at hu
        rw [Function.update_of_ne hut]
        exact Nat.lt_succ_of_lt (h.past u l hu)
  | wake t => exact hsame (h.lined.wake hd) (fun _ _ heq => by cases heq) rfl
  | acquireReply t ret => exact hsame (h.lined.acquireReply hd) (fun _ _ heq => by cases heq) rfl
  | release t lid =>
    have hholds : Serves s.arrived s.client (s.client.setHolds t lid true) :=
      h.lined.frame rfl fun _ => rfl
    exact hsame ((hholds.lined.release hd).of_threads rfl) (fun _ _ heq => by cases heq) rfl
  | releaserStart => exact hsame (h.lined.releaserStart hd) (fun _ _ heq => by cases heq) rfl
  | releaseReply ret => exact hsame (h.lined.releaseReply hd) (fun _ _ heq => by cases heq) rfl
  | revoke lid =>
    cases hd
    exact hsame (h.lined.revoke lid) (fun _ _ heq => by cases heq) rfl
  | retry lid =>
    cases hd
    exact hsame (h.lined.retry lid) (fun _ _ heq => by cases heq) rfl

theorem Inv.step {s s' : Arrivals Tid} {a : OpenAction Tid} (h : s.Inv)
    (hs : s.step a = some s') : s'.Inv := by
  obtain ⟨d, hd, rfl⟩ := Option.map_eq_some_iff.mp hs
  obtain ⟨b, hserves, -, hpast⟩ := h.served hd
  exact ⟨hserves.lined, fun t lid ht => hpast t lid (hserves.stays t lid ht)⟩

theorem Inv.longestFirst {s : Arrivals Tid} (h : s.Inv) (a : OpenAction Tid) :
    s.LongestFirst a := by
  rintro s' hs t lid ⟨hwants, hidle⟩ u hu
  obtain ⟨d, hd, rfl⟩ := Option.map_eq_some_iff.mp hs
  obtain ⟨b, hserves, hwaits, -⟩ := h.served hd
  exact hserves.first t lid (hwaits t lid hwants) hidle u hu

theorem Inv.exact {s : Arrivals Tid} (h : s.Inv) : s.Exact := by
  intro t lid
  split
  · rename_i ht
    exact List.count_eq_one_of_mem (h.lined.nodup lid) ((h.lined.mem t lid).mpr ht)
  · rename_i ht
    exact List.count_eq_zero_of_not_mem fun hin => ht ((h.lined.mem t lid).mp hin)

/-- For every interleaving of the threads of a client, its releaser and its handlers, and for
every return of its calls: the queue of a lock has each thread in `acquire` for it once and no
other, and `acquire` returns to the thread that has been in the queue longest. -/
theorem acquire_in_arrival_order (actions : List (OpenAction Tid)) :
    system.AlongRun Exact (start : Arrivals Tid) actions ∧
      system.StepsMeet LongestFirst (start : Arrivals Tid) actions := by
  have hinv : system.AlongRun Inv (start : Arrivals Tid) actions :=
    System.StepsMeet.alongRun (P := Inv) (fun _ _ _ h _ hs => h.step hs) start_inv
      (System.stepsMeet_of_forall (fun _ _ => trivial) start actions)
  exact ⟨hinv.mono fun _ => Inv.exact, hinv.stepsMeet fun _ a _ h _ => h.longestFirst a⟩

end Arrivals
end Lock
end Frangipani
