/-
Removed extents, over any number of caching clients.

`remove` takes an extent out of the cache of its caller and leaves the copy on the
server to the next flush.  Until then the server still answers for it.  An id is gone
for every client once no cache and not the server has it, and it stays gone until the
next put.

`CallStep` says once what a step inside a call does.  What follows about all runs,
removals included, is read off it.
-/
import Frangipani.Extent.Sizes

namespace Frangipani
namespace Extent

open Transition

namespace ExtentClient

/-- A read of an id that is cached or on the server leaves it in the cache. -/
theorem Queued.get_of_contents {c : ExtentClient} (h : c.Queued) {server : ExtentServer}
    {eid : ExtentId} {buf : Buffer}
    (hbuf : (c.extents.find eid).or (server.extents.find eid) = some buf) (now : UInt32) :
    ∃ c' server', c.get server eid now = ((.ok, some buf), c', server') ∧ c'.Queued ∧
      (∀ id, id ≠ eid → c'.extents.find id = c.extents.find id) ∧
      server'.extents = server.extents := by
  cases hcached : c.extents.find eid with
  | some b =>
    rw [hcached] at hbuf
    cases hbuf
    exact ⟨_, _, get_cached server hcached now, h.getCached eid now,
      fun id _ => congrArg (fun m => m.find id) (ExtentServer.get_extents ..), rfl⟩
  | none =>
    rw [hcached] at hbuf
    obtain ⟨attr, hget⟩ := get_fetched hcached hbuf now
    exact ⟨_, _, hget, h.entered eid buf attr, fun id hid => Map.find_insert_ne _ _ hid,
      ExtentServer.get_extents ..⟩

theorem remove_find (c : ExtentClient) {eid id : ExtentId} (hid : id ≠ eid) :
    (c.remove eid).2.extents.find id = c.extents.find id := by
  cases hbuf : c.extents.find eid with
  | none => rw [remove_uncached hbuf]
  | some buf => rw [(remove_cached hbuf).2.1, Map.find_erase_ne _ hid]

theorem remove_find_self (c : ExtentClient) (eid : ExtentId) :
    (c.remove eid).2.extents.find eid = none := by
  cases hbuf : c.extents.find eid with
  | none => rw [remove_uncached hbuf, hbuf]
  | some buf => rw [(remove_cached hbuf).2.1, Map.find_erase_self]

theorem remove_status (c : ExtentClient) (eid : ExtentId) :
    (c.remove eid).1 = if (c.extents.find eid).isSome then .ok else .noent := by
  cases hbuf : c.extents.find eid with
  | none => rw [remove_uncached hbuf]; rfl
  | some buf => rw [(remove_cached hbuf).1]; rfl

theorem flushModified_find (c : ExtentClient) (server : ExtentServer) {eid id : ExtentId}
    (hid : id ≠ eid) : (c.flushModified server eid).1.extents.find id = c.extents.find id := by
  unfold flushModified
  split
  · exact Map.find_erase_ne _ hid
  · rfl

theorem Queued.flushModified_uncached {c : ExtentClient} (h : c.Queued) (server : ExtentServer)
    (eid : ExtentId) : (c.flushModified server eid).1.extents.find eid = none := by
  unfold ExtentClient.flushModified
  split
  · exact Map.find_erase_self _ _
  · rename_i hmem
    rw [h.mem] at hmem
    exact Option.not_isSome_iff_eq_none.mp hmem

end ExtentClient

namespace Sharing

variable {Clt : Type}

/-! ## The steps inside a call -/

/-- A step of client `c` in a call on `eid`, and what it leaves: the client, the server, where the
client stands, the flush mark of the id, and what the step adds to the history. -/
inductive CallStep (w : Sharing Clt) (c : Clt) (eid : ExtentId) :
    Action Clt → ExtentClient → ExtentServer → Pc → Bool → List (Event Clt) → Prop
  | getCached {buf : Buffer} (now : UInt32) (call : w.CanCall c eid)
      (cached : (w.clients c).extents.find eid = some buf) :
      CallStep w c eid (.get c eid now)
        ((w.clients c).withLocal ((w.clients c).toExtentServer.get eid now).2) w.server .idle false
        [.got c eid (.ok, some buf)]
  | getattrCached (now : UInt32) (call : w.CanCall c eid) :
      CallStep w c eid (.getattr c eid now) (w.clients c) w.server .idle false []
  | fetchStarted {a : Action Clt} {buf : Buffer} {server : ExtentServer} {isGet : Bool}
      (call : w.CanCall c eid) (uncached : (w.clients c).extents.find eid = none)
      (sent : w.server.extents.find eid = some buf) (same : server.extents = w.server.extents) :
      CallStep w c eid a (w.clients c) server (.fetching eid buf isGet) false []
  | fetchFailed {a : Action Clt} (events : List (Event Clt)) (call : w.CanCall c eid)
      (missing : w.server.extents.find eid = none)
      (read : ∀ e ∈ events, e = .got c eid (.noent, none)) :
      CallStep w c eid a (w.clients c) w.server .idle false events
  | fetched {buf : Buffer} {isGet : Bool} {events : List (Event Clt)} (attr : Attr)
      (fetching : w.pc c = .fetching eid buf isGet)
      (read : ∀ e ∈ events, ∃ reply, e = .got c eid reply) :
      CallStep w c eid (.fetchAttr c)
        (((w.clients c).withLocal
          ((w.clients c).toExtentServer.put eid buf attr).2).addExtentToModifiedQueues eid)
        w.server .idle (w.flushed eid) events
  | fetchLost {buf : Buffer} {isGet : Bool} {events : List (Event Clt)}
      (fetching : w.pc c = .fetching eid buf isGet)
      (read : ∀ e ∈ events, ∃ reply, e = .got c eid reply) :
      CallStep w c eid (.fetchAttr c) (w.clients c) w.server .idle (w.flushed eid) events
  | put (buf : Buffer) (mtime ctime atime : UInt32) (call : w.CanCall c eid) :
      CallStep w c eid (.put c eid buf mtime ctime atime)
        ((w.clients c).put eid buf mtime ctime atime).2 w.server .idle false [.put c eid buf]
  | remove (call : w.CanCall c eid) :
      CallStep w c eid (.remove c eid) ((w.clients c).remove eid).2 w.server .idle false []
  | flush (call : w.CanCall c eid) :
      CallStep w c eid (.flush c eid) ((w.clients c).flushModified w.server eid).1
        ((w.clients c).flushModified w.server eid).2 (.flushing eid) false []
  | flushRemoval (flushing : w.pc c = .flushing eid) :
      CallStep w c eid (.flushRemoval c) ((w.clients c).flushRemoved w.server eid).1
        ((w.clients c).flushRemoved w.server eid).2 .idle true []

section

variable [DecidableEq Clt]

/-- The state that a step inside a call leads to. -/
def after (w : Sharing Clt) (c : Clt) (eid : ExtentId) (client : ExtentClient)
    (server : ExtentServer) (pc : Pc) (flushed : Bool) (events : List (Event Clt)) :
    Sharing Clt where
  clients := Function.update w.clients c client
  pc := Function.update w.pc c pc
  server := server
  holder := w.holder
  flushed := Function.update w.flushed eid flushed
  history := events ++ w.history

/-- The two steps of a lock, and the steps inside a call. -/
inductive StepCase (w : Sharing Clt) (a : Action Clt) : Sharing Clt → Prop
  | acquire (c : Clt) (eid : ExtentId) (free : w.holder eid = none) :
      StepCase w a ({ w with holder := Function.update w.holder eid (some c) }.setFlushed eid false)
  | release (eid : ExtentId) (flushed : w.flushed eid = true) :
      StepCase w a { w with holder := Function.update w.holder eid none }
  | call {c : Clt} {eid : ExtentId} {client : ExtentClient} {server : ExtentServer} {pc : Pc}
      {flushed : Bool} {events : List (Event Clt)}
      (step : w.CallStep c eid a client server pc flushed events) :
      StepCase w a (w.after c eid client server pc flushed events)

variable {w : Sharing Clt} {c : Clt} {eid : ExtentId} {a : Action Clt}

theorem StepCase.local {client : ExtentClient} {events : List (Event Clt)}
    (hcall : w.CanCall c eid) (h : w.CallStep c eid a client w.server .idle false events) :
    w.StepCase a { (w.setFlushed eid false).setClient c client with
      history := events ++ w.history } := by
  have hcase := StepCase.call h
  rwa [after, ← hcall.2, Function.update_eq_self] at hcase

theorem StepCase.unchanged {events : List (Event Clt)} (hcall : w.CanCall c eid)
    (h : w.CallStep c eid a (w.clients c) w.server .idle false events) :
    w.StepCase a { w.setFlushed eid false with history := events ++ w.history } := by
  have hcase := StepCase.call h
  rwa [after, Function.update_eq_self, ← hcall.2, Function.update_eq_self] at hcase

theorem StepCase.fetch (hcall : w.CanCall c eid) (hc : (w.clients c).extents.find eid = none)
    (now : UInt32) (isGet : Bool) :
    w.StepCase a ((w.setFlushed eid false).startFetch c eid now isGet) := by
  have hserver : (w.setFlushed eid false).server = w.server := rfl
  unfold startFetch
  rw [hserver]
  cases hs : w.server.extents.find eid with
  | some buf =>
    have hget : w.server.get eid now = ((.ok, some buf), (w.server.get eid now).2) :=
      Prod.ext (ExtentServer.get_eq_of_find hs now) rfl
    have hstep : w.CallStep c eid a (w.clients c) (w.server.get eid now).2
        (.fetching eid buf isGet) false [] :=
      .fetchStarted hcall hc hs (ExtentServer.get_extents ..)
    have hcase := StepCase.call hstep
    rw [after, Function.update_eq_self] at hcase
    rw [hget]
    exact hcase
  | none =>
    rw [ExtentServer.get_eq_of_not_find hs]
    cases isGet with
    | true => exact .unchanged hcall (.fetchFailed [_] hcall hs fun e => List.mem_singleton.mp)
    | false =>
      exact .unchanged hcall (.fetchFailed [] hcall hs fun _ he => absurd he List.not_mem_nil)

theorem StepCase.fetchAttr {w' : Sharing Clt} (hs : w.step (.fetchAttr c) = some w') :
    w.StepCase (.fetchAttr c) w' := by
  cases hpc : w.pc c with
  | fetching eid buf isGet =>
    have hsame : w.flushed = Function.update w.flushed eid (w.flushed eid) :=
      (Function.update_eq_self ..).symm
    have hcase : ∀ events, (∀ e ∈ events, ∃ reply, e = .got c eid reply) →
        w.StepCase (.fetchAttr c)
          { (w.setClient c ((w.clients c).cacheFetched eid buf (w.server.getattr eid)).2).setPc c
              .idle with history := events ++ w.history } := by
      intro events hread
      unfold ExtentClient.cacheFetched
      split
      · rename_i attr _
        have hdone := StepCase.call (.fetched attr hpc hread)
        rwa [after, ← hsame] at hdone
      · have hdone := StepCase.call (.fetchLost hpc hread)
        rwa [after, ← hsame] at hdone
    simp only [step, hpc, Option.some.injEq] at hs
    subst hs
    cases isGet with
    | true => exact hcase [_] fun e he => ⟨_, List.mem_singleton.mp he⟩
    | false => exact hcase [] fun _ he => absurd he List.not_mem_nil
  | idle => simp [step, hpc] at hs
  | flushing eid => simp [step, hpc] at hs

theorem step_cases {w' : Sharing Clt} (hs : w.step a = some w') : w.StepCase a w' := by
  cases a with
  | acquire c eid =>
    simp only [step] at hs
    split at hs
    · rename_i hfree
      cases hs
      exact .acquire c eid hfree
    · cases hs
  | release c eid =>
    simp only [step] at hs
    split at hs
    · rename_i hpre
      cases hs
      exact .release eid hpre.2
    · cases hs
  | get c eid now =>
    simp only [step] at hs
    split at hs
    · rename_i hcall
      split at hs
      · rename_i hsome
        obtain ⟨buf, hbuf⟩ := Option.isSome_iff_exists.mp hsome
        cases hs
        have hcase := StepCase.local hcall (.getCached now hcall hbuf)
        rwa [← ExtentServer.get_eq_of_find hbuf now] at hcase
      · rename_i hnone
        cases hs
        exact .fetch hcall (Option.not_isSome_iff_eq_none.mp hnone) now true
    · cases hs
  | getattr c eid now =>
    simp only [step] at hs
    split at hs
    · rename_i hcall
      split at hs
      · cases hs
        exact .unchanged hcall (.getattrCached now hcall)
      · rename_i hnone
        have hkeys := (w.clients c).sameKeys eid
        cases hs
        exact .fetch hcall (Option.not_isSome_iff_eq_none.mp fun h => hnone (hkeys ▸ h)) now false
    · cases hs
  | fetchAttr c => exact .fetchAttr hs
  | put c eid buf mtime ctime atime =>
    simp only [step] at hs
    split at hs
    · rename_i hcall
      cases hs
      exact .local hcall (.put buf mtime ctime atime hcall)
    · cases hs
  | remove c eid =>
    simp only [step] at hs
    split at hs
    · rename_i hcall
      cases hs
      exact .local hcall (.remove hcall)
    · cases hs
  | flush c eid =>
    simp only [step] at hs
    split at hs
    · rename_i hcall
      cases hs
      exact .call (.flush hcall)
    · cases hs
  | flushRemoval c =>
    simp only [step] at hs
    split at hs
    · rename_i eid hpc
      cases hs
      exact .call (.flushRemoval hpc)
    · cases hs

end

/-! ## The caches and the locks -/

/-- What holds of the caches and the locks in every run. -/
structure Coherent (w : Sharing Clt) : Prop where
  queued : ∀ d, (w.clients d).Queued
  holder : ∀ d id, (w.clients d).extents.find id ≠ none → w.holder id = some d
  inCall : ∀ d id, w.InCall d id → w.holder id = some d ∧ w.flushed id = false
  flushing : ∀ d id, w.pc d = .flushing id → (w.clients d).extents.find id = none
  flushed : ∀ id, w.flushed id = true → ∀ d, (w.clients d).extents.find id = none

theorem start_coherent : (start : Sharing Clt).Coherent where
  queued _ := ExtentClient.new_queued
  holder _ _ h := absurd rfl h
  inCall _ _ h := h.elim
  flushing _ _ h := by cases h
  flushed _ h := by cases h

section

variable {w : Sharing Clt} {c : Clt} {eid : ExtentId} {a : Action Clt} {client : ExtentClient}
  {server : ExtentServer} {pc : Pc} {flushed : Bool} {events : List (Event Clt)}

theorem inCall_of_fetching {buf : Buffer} {isGet : Bool} (h : w.pc c = .fetching eid buf isGet) :
    w.InCall c eid := by
  simp only [InCall, h]

theorem inCall_of_flushing (h : w.pc c = .flushing eid) : w.InCall c eid := by
  simp only [InCall, h]

theorem CallStep.held (h : w.Coherent) (hs : w.CallStep c eid a client server pc flushed events) :
    w.holder eid = some c := by
  cases hs with
  | getCached _ hcall | getattrCached _ hcall | fetchStarted hcall | fetchFailed _ hcall
  | put _ _ _ _ hcall | remove hcall | flush hcall => exact hcall.1
  | fetched _ hpc | fetchLost hpc => exact (h.inCall c eid (inCall_of_fetching hpc)).1
  | flushRemoval hpc => exact (h.inCall c eid (inCall_of_flushing hpc)).1

theorem CallStep.queued (h : (w.clients c).Queued)
    (hs : w.CallStep c eid a client server pc flushed events) : client.Queued := by
  cases hs with
  | getCached now => exact h.getCached eid now
  | getattrCached | fetchStarted | fetchFailed | fetchLost => exact h
  | fetched attr => exact h.entered eid _ attr
  | put buf => exact h.entered eid buf _
  | remove => exact h.remove eid
  | flush => exact h.flushModified w.server eid
  | flushRemoval => exact h.flushRemoved w.server eid

theorem CallStep.find (hs : w.CallStep c eid a client server pc flushed events) {id : ExtentId}
    (hid : id ≠ eid) : client.extents.find id = (w.clients c).extents.find id := by
  cases hs with
  | getCached now => exact congrArg (fun m => m.find id) (ExtentServer.get_extents ..)
  | getattrCached | fetchStarted | fetchFailed | fetchLost => rfl
  | fetched | put => exact Map.find_insert_ne _ _ hid
  | remove => exact ExtentClient.remove_find (w.clients c) hid
  | flush => exact ExtentClient.flushModified_find (w.clients c) w.server hid
  | flushRemoval =>
    rw [(ExtentClient.flushRemoved_effect (w.clients c) w.server eid).1]

theorem CallStep.server_find (hs : w.CallStep c eid a client server pc flushed events)
    {id : ExtentId} (hid : id ≠ eid) : server.extents.find id = w.server.extents.find id := by
  cases hs with
  | getCached | getattrCached | fetchFailed | fetched | fetchLost | put | remove => rfl
  | fetchStarted _ _ _ hsame => rw [hsame]
  | flush => exact ExtentClient.flushModified_server (w.clients c) w.server hid
  | flushRemoval => exact ExtentClient.flushRemoved_server (w.clients c) w.server hid

/-- A call that goes on is one on `eid`, which is not flushed. -/
theorem CallStep.pc_cases (hs : w.CallStep c eid a client server pc flushed events) :
    pc = .idle ∨ flushed = false ∧
      (pc = .flushing eid ∨ ∃ buf isGet, pc = .fetching eid buf isGet) := by
  cases hs with
  | getCached | getattrCached | fetchFailed | fetched | fetchLost | put | remove
  | flushRemoval => exact .inl rfl
  | fetchStarted => exact .inr ⟨rfl, .inr ⟨_, _, rfl⟩⟩
  | flush => exact .inr ⟨rfl, .inl rfl⟩

/-- A flush takes the id out of the cache, since every cached id is in the queues. -/
theorem CallStep.uncached (h : w.Coherent)
    (hs : w.CallStep c eid a client server pc flushed events)
    (hout : pc = .flushing eid ∨ flushed = true) : client.extents.find eid = none := by
  cases hs with
  | getCached | getattrCached | fetchStarted | fetchFailed | put | remove => simp at hout
  | fetched _ hpc | fetchLost hpc =>
    have hno := (h.inCall c eid (inCall_of_fetching hpc)).2
    simp [hno] at hout
  | flush => exact (h.queued c).flushModified_uncached w.server eid
  | flushRemoval hpc =>
    rw [(ExtentClient.flushRemoved_effect (w.clients c) w.server eid).1]
    exact h.flushing c eid hpc

theorem Coherent.ne_of_inCall (h : w.Coherent) (hheld : w.holder eid = some c) {d : Clt}
    {id : ExtentId} (hd : d ≠ c) (hcall : w.InCall d id) : id ≠ eid := by
  rintro rfl
  exact hd (Option.some.inj ((h.inCall d id hcall).1.symm.trans hheld))

theorem Coherent.uncached (h : w.Coherent) (hheld : w.holder eid = some c) {d : Clt} (hd : d ≠ c) :
    (w.clients d).extents.find eid = none := by
  by_contra hne
  exact hd (Option.some.inj ((h.holder d eid hne).symm.trans hheld))

theorem Coherent.acquire (h : w.Coherent) (c : Clt) (hfree : w.holder eid = none) :
    ({ w with holder := Function.update w.holder eid (some c) }.setFlushed eid false).Coherent := by
  have hkeep : ∀ {id d}, w.holder id = some d →
      Function.update w.holder eid (some c) id = some d := by
    intro id d hd
    have hid : id ≠ eid := fun he => by rw [he, hfree] at hd; cases hd
    rwa [Function.update_of_ne hid]
  exact
    { queued := h.queued
      holder := fun d id hne => hkeep (h.holder d id hne)
      inCall := fun d id hcall =>
        ⟨hkeep (h.inCall d id hcall).1, not_flushed_update (h.inCall d id hcall).2⟩
      flushing := h.flushing
      flushed := fun id hid => h.flushed id (flushed_of_update hid) }

/-- A lock that goes is the lock of an id that no client caches or is in a call on. -/
theorem Coherent.release (h : w.Coherent) (hfl : w.flushed eid = true) :
    Coherent { w with holder := Function.update w.holder eid none } := by
  have hkeep : ∀ {id d}, id ≠ eid → w.holder id = some d →
      Function.update w.holder eid none id = some d := by
    intro id d hid hd
    rwa [Function.update_of_ne hid]
  refine ⟨h.queued, fun d id hne => ?_, fun d id hcall => ?_, h.flushing, h.flushed⟩
  · refine hkeep ?_ (h.holder d id hne)
    rintro rfl
    exact hne (h.flushed id hfl d)
  · obtain ⟨hholder, hno⟩ := h.inCall d id hcall
    refine ⟨hkeep ?_ hholder, hno⟩
    rintro rfl
    rw [hfl] at hno
    cases hno

variable [DecidableEq Clt]

theorem after_clients_self : (w.after c eid client server pc flushed events).clients c = client :=
  Function.update_self ..

theorem after_clients_ne {d : Clt} (hd : d ≠ c) :
    (w.after c eid client server pc flushed events).clients d = w.clients d :=
  Function.update_of_ne hd ..

theorem after_pc_self : (w.after c eid client server pc flushed events).pc c = pc :=
  Function.update_self ..

theorem after_pc_ne {d : Clt} (hd : d ≠ c) :
    (w.after c eid client server pc flushed events).pc d = w.pc d :=
  Function.update_of_ne hd ..

theorem CallStep.after_find (hs : w.CallStep c eid a client server pc flushed events) (d : Clt)
    {id : ExtentId} (hid : id ≠ eid) :
    ((w.after c eid client server pc flushed events).clients d).extents.find id =
      (w.clients d).extents.find id := by
  by_cases hd : d = c
  · rw [hd, after_clients_self, hs.find hid]
  · rw [after_clients_ne hd]

/-- A client that is in a call after the step was in it before, or is the caller. -/
theorem CallStep.after_inCall (hs : w.CallStep c eid a client server pc flushed events) {d : Clt}
    {id : ExtentId} (h : (w.after c eid client server pc flushed events).InCall d id) :
    d ≠ c ∧ w.InCall d id ∨ d = c ∧ id = eid ∧ flushed = false := by
  by_cases hd : d = c
  · subst hd
    refine .inr ⟨rfl, ?_⟩
    rw [InCall, after_pc_self] at h
    rcases hs.pc_cases with rfl | ⟨hno, rfl | ⟨buf, isGet, rfl⟩⟩
    · exact h.elim
    · exact ⟨h.symm, hno⟩
    · exact ⟨h.symm, hno⟩
  · rw [InCall, after_pc_ne hd] at h
    exact .inl ⟨hd, h⟩

theorem Coherent.call (h : w.Coherent) (hs : w.CallStep c eid a client server pc flushed events) :
    (w.after c eid client server pc flushed events).Coherent := by
  have hheld := hs.held h
  have hflushed : ∀ id, id ≠ eid →
      (w.after c eid client server pc flushed events).flushed id = w.flushed id :=
    fun id hid => Function.update_of_ne hid ..
  constructor
  case queued =>
    intro d
    by_cases hd : d = c
    · rw [hd, after_clients_self]
      exact hs.queued (h.queued c)
    · rw [after_clients_ne hd]
      exact h.queued d
  case holder =>
    intro d id hne
    by_cases hid : id = eid
    · subst hid
      by_cases hd : d = c
      · rw [hd]
        exact hheld
      · rw [after_clients_ne hd, h.uncached hheld hd] at hne
        exact absurd rfl hne
    · rw [hs.after_find d hid] at hne
      exact h.holder d id hne
  case inCall =>
    intro d id hcall
    rcases hs.after_inCall hcall with ⟨hd, hcall⟩ | ⟨rfl, rfl, hno⟩
    · obtain ⟨hholder, hno⟩ := h.inCall d id hcall
      exact ⟨hholder, (hflushed id (h.ne_of_inCall hheld hd hcall)).trans hno⟩
    · exact ⟨hheld, (Function.update_self ..).trans hno⟩
  case flushing =>
    intro d id hpc
    by_cases hd : d = c
    · subst hd
      rw [after_pc_self] at hpc
      obtain ⟨-, rfl, -⟩ : d = d ∧ id = eid ∧ flushed = false :=
        (hs.after_inCall (inCall_of_flushing (after_pc_self.trans hpc))).resolve_left
          fun hne => hne.1 rfl
      rw [after_clients_self]
      exact hs.uncached h (.inl hpc)
    · rw [after_pc_ne hd] at hpc
      rw [after_clients_ne hd]
      exact h.flushing d id hpc
  case flushed =>
    intro id hid d
    by_cases hie : id = eid
    · subst hie
      by_cases hd : d = c
      · rw [hd, after_clients_self]
        exact hs.uncached h (.inr ((Function.update_self ..).symm.trans hid))
      · rw [after_clients_ne hd]
        exact h.uncached hheld hd
    · rw [hs.after_find d hie]
      exact h.flushed id ((hflushed id hie).symm.trans hid) d

theorem Coherent.step {w' : Sharing Clt} (h : w.Coherent) (hs : w.step a = some w') :
    w'.Coherent := by
  cases step_cases hs with
  | acquire c eid hfree => exact h.acquire c hfree
  | release eid hfl => exact h.release hfl
  | call hstep => exact h.call hstep

theorem coherent_of_reachable (h : system.Reachable w) : w.Coherent :=
  h.invariant (fun _ hw => hw ▸ start_coherent) fun _ _ _ hc hs => hc.step hs

end

/-! ## An id that is gone -/

/-- Neither a cache nor the server has the id, and every read of it has come back with `NOENT`. -/
structure Gone (id : ExtentId) (w : Sharing Clt) : Prop where
  queued : ∀ d, (w.clients d).Queued
  uncached : ∀ d, (w.clients d).extents.find id = none
  server : w.server.extents.find id = none
  unfetched : ∀ d buf isGet, w.pc d ≠ .fetching id buf isGet
  reads : ∀ d reply, .got d id reply ∈ w.history → reply = (.noent, none)

/-- Nobody puts the id again. -/
def NoPut (id : ExtentId) (_ : Sharing Clt) (a : Action Clt) : Prop :=
  ∀ c buf mtime ctime atime, a ≠ .put c id buf mtime ctime atime

section

variable {w : Sharing Clt} {c : Clt} {eid id : ExtentId} {a : Action Clt} {client : ExtentClient}
  {server : ExtentServer} {pc : Pc} {flushed : Bool} {events : List (Event Clt)}

/-- The caller does not find the id, and only a put would bring it back. -/
theorem Gone.callStep (h : w.Gone id) (hok : w.NoPut id a)
    (hs : w.CallStep c id a client server pc flushed events) :
    client.extents.find id = none ∧ server.extents.find id = none ∧
      (∀ buf isGet, pc ≠ .fetching id buf isGet) ∧
      ∀ d reply, .got d id reply ∈ events → reply = (.noent, none) := by
  have hcache := h.uncached c
  have hmissing := h.server
  have hnotMem : id ∉ (w.clients c).modifiedExtents := by
    rw [(h.queued c).mem, hcache]
    exact Bool.false_ne_true
  cases hs with
  | getCached now _ hcached =>
    rw [hcache] at hcached
    cases hcached
  | getattrCached => exact ⟨hcache, hmissing, nofun, nofun⟩
  | fetchStarted _ _ hsent =>
    rw [hmissing] at hsent
    cases hsent
  | fetchFailed _ _ _ hread =>
    refine ⟨hcache, hmissing, nofun, fun d reply hmem => ?_⟩
    cases hread _ hmem
    rfl
  | fetched _ hpc | fetchLost hpc => exact absurd hpc (h.unfetched c _ _)
  | put buf mtime ctime atime => exact absurd rfl (hok c buf mtime ctime atime)
  | remove =>
    rw [ExtentClient.remove_uncached hcache]
    exact ⟨hcache, hmissing, nofun, nofun⟩
  | flush =>
    rw [ExtentClient.flushModified_of_not_mem hnotMem]
    exact ⟨hcache, hmissing, nofun, nofun⟩
  | flushRemoval =>
    rw [ExtentClient.flushRemoved_of_missing hmissing]
    exact ⟨hcache, hmissing, nofun, nofun⟩

theorem CallStep.not_read (hs : w.CallStep c eid a client server pc flushed events)
    (hid : id ≠ eid) {d : Clt} {reply : Reply} : .got d id reply ∉ events := by
  intro hmem
  cases hs with
  | getCached =>
    cases List.mem_singleton.mp hmem
    exact hid rfl
  | put => cases List.mem_singleton.mp hmem
  | fetchFailed _ _ _ hread =>
    cases hread _ hmem
    exact hid rfl
  | fetched _ _ hread | fetchLost _ hread =>
    obtain ⟨_, heq⟩ := hread _ hmem
    cases heq
    exact hid rfl
  | getattrCached | fetchStarted | remove | flush | flushRemoval => cases hmem

variable [DecidableEq Clt]

theorem Gone.call (h : w.Gone id) (hok : w.NoPut id a)
    (hs : w.CallStep c eid a client server pc flushed events) :
    (w.after c eid client server pc flushed events).Gone id := by
  have hnew : client.extents.find id = none ∧ server.extents.find id = none ∧
      (∀ buf isGet, pc ≠ .fetching id buf isGet) ∧
      ∀ d reply, .got d id reply ∈ events → reply = (.noent, none) := by
    by_cases hid : id = eid
    · subst hid
      exact h.callStep hok hs
    · refine ⟨(hs.find hid).trans (h.uncached c), (hs.server_find hid).trans h.server,
        fun buf isGet hpc => ?_, fun d reply hmem => absurd hmem (hs.not_read hid)⟩
      rcases hs.pc_cases with hidle | ⟨-, hflushing | ⟨b, g, hfetching⟩⟩
      · rw [hidle] at hpc
        cases hpc
      · rw [hflushing] at hpc
        cases hpc
      · rw [hfetching] at hpc
        cases hpc
        exact hid rfl
  obtain ⟨hcache, hserver, hpc, hread⟩ := hnew
  refine ⟨fun d => ?_, fun d => ?_, hserver, fun d => ?_, fun d reply hmem => ?_⟩
  · by_cases hd : d = c
    · rw [hd, after_clients_self]
      exact hs.queued (h.queued c)
    · rw [after_clients_ne hd]
      exact h.queued d
  · by_cases hd : d = c
    · rw [hd, after_clients_self, hcache]
    · rw [after_clients_ne hd, h.uncached d]
  · by_cases hd : d = c
    · rw [hd, after_pc_self]
      exact hpc
    · rw [after_pc_ne hd]
      exact h.unfetched d
  · rcases List.mem_append.mp hmem with hmem | hmem
    · exact hread d reply hmem
    · exact h.reads d reply hmem

theorem Gone.step {w' : Sharing Clt} (h : w.Gone id) (hok : w.NoPut id a)
    (hs : w.step a = some w') : w'.Gone id := by
  cases step_cases hs with
  | acquire | release => exact ⟨h.queued, h.uncached, h.server, h.unfetched, h.reads⟩
  | call hstep => exact h.call hok hstep

/-- As long as the server has a copy, the holder of the lock reads it. -/
theorem run_get_of_server {buf : Buffer} (hcall : w.CanCall c id)
    (hc : (w.clients c).extents.find id = none) (hs : w.server.extents.find id = some buf)
    (now : UInt32) :
    ∃ t, system.run w [.get c id now, .fetchAttr c] = some t ∧
      .got c id (.ok, some buf) ∈ t.history := by
  have hget : w.server.get id now = ((.ok, some buf), (w.server.get id now).2) :=
    Prod.ext (ExtentServer.get_eq_of_find hs now) rfl
  have hkept : (w.server.get id now).2.extents.find id = some buf := by
    rw [ExtentServer.get_extents, hs]
  obtain ⟨attr, hattr⟩ := ExtentServer.getattr_eq_of_find hkept
  have hfirst : w.step (.get c id now) =
      some ({ w.setFlushed id false with server := (w.server.get id now).2 }.setPc c
        (.fetching id buf true)) := by
    have hserver : (w.setFlushed id false).server = w.server := rfl
    have hcache : ((w.setFlushed id false).clients c).extents.find id = none := hc
    simp only [step, hcall, hcache, startFetch, hserver, if_true, Option.isSome_none,
      Bool.false_eq_true, if_false]
    rw [hget]
  have hsecond : ∀ v : Sharing Clt, v.pc c = .fetching id buf true →
      v.server = (w.server.get id now).2 →
      ∃ t, v.step (.fetchAttr c) = some t ∧ .got c id (.ok, some buf) ∈ t.history := by
    intro v hpc hserver
    simp only [step, hpc, hserver, hattr, ExtentClient.cacheFetched, if_true]
    exact ⟨_, rfl, List.mem_cons_self⟩
  obtain ⟨t, ht, hmem⟩ := hsecond ({ w.setFlushed id false with
    server := (w.server.get id now).2 }.setPc c (.fetching id buf true))
    (Function.update_self ..) rfl
  refine ⟨t, ?_, hmem⟩
  show (w.step (.get c id now)).bind (fun v => (v.step (.fetchAttr c)).bind some) = some t
  rw [hfirst, Option.bind_some, ht, Option.bind_some]

end

end Sharing
end Extent
end Frangipani
