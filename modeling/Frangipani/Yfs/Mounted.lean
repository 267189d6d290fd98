/-
Operations at the same time, on the caches of the clients.

Each client runs one operation at a time, and the extent clients answer from their caches.
A lock stays with its client when an operation releases it.  When another client asks for it,
the client flushes the id and hands the lock back; an extent that is too long to be sent stays
in the cache then.  A call of the extent client is one step here, and so is a hand-back.

What an id stands for is what the client with its lock has cached, and else what the server
has.  The caches answer as this store does under four conditions, which are `Careful`:

* A client reads what it has locked.  A number that it draws has no extent, at the server or in
  the cache of another client.  Otherwise the read would leave a copy in its cache that is not
  its own, or miss an extent that has not been flushed.
* It does not read what it has removed while the server still has it.
* What it hands back can be sent, and a removal that is pending then is of an extent that the
  server has.
* The lengths of what it puts fit the size attribute.
-/
import Frangipani.Concurrency.Backed
import Frangipani.Yfs.Limits
import Frangipani.Yfs.Serial

namespace Frangipani

namespace Extent

open Rpc

theorem ExtentServer.extentAttrs_find_of_missing {s : ExtentServer} {id : ExtentId}
    (h : s.extents.find id = none) : s.extentAttrs.find id = none := by
  have hkeys := s.sameKeys id
  rw [h] at hkeys
  exact Option.isNone_iff_eq_none.mp (Option.isSome_eq_false_iff.mp hkeys.symm)

namespace ExtentClient

/-- Every request of a flush is one that the connection takes. -/
def FlushTaken (c : ExtentClient) (server : ExtentServer) (eid : ExtentId) : Prop :=
  ∀ rpc ∈ c.flushRpcs server eid, (rpc.size eid : Int) ≤ maxPdu

instance (c : ExtentClient) (server : ExtentServer) (eid : ExtentId) :
    Decidable (c.FlushTaken server eid) := inferInstanceAs (Decidable (∀ _ ∈ _, _))

/-- A flush over the connection.  A `put` that is too long fails, and the extent stays. -/
def flushSent (c : ExtentClient) (server : ExtentServer) (eid : ExtentId) :
    ExtentClient × ExtentServer :=
  if c.FlushTaken server eid then c.flush server eid else c.flushRemoved server eid

variable {c : ExtentClient} {server : ExtentServer}

theorem getattr_missing {eid : ExtentId} (h : c.extents.find eid = none)
    (hs : server.extents.find eid = none) (now : UInt32) :
    c.getattr server eid now = ((.noent, none), c, server) := by
  simp [getattr, getAndCacheExtentFromServer, ExtentServer.extentAttrs_find_of_missing h,
    ExtentServer.get_eq_of_not_find hs, ExtentServer.getattr,
    ExtentServer.extentAttrs_find_of_missing hs]

theorem sized_fetch (hc : c.toExtentServer.Sized) (hs : server.Sized) (eid : ExtentId)
    (now : UInt32) :
    (c.getAndCacheExtentFromServer server eid now).2.1.toExtentServer.Sized ∧
      (c.getAndCacheExtentFromServer server eid now).2.2.Sized := by
  unfold getAndCacheExtentFromServer
  cases hbuf : server.extents.find eid with
  | none =>
    rw [ExtentServer.get_eq_of_not_find hbuf]
    exact ⟨hc, hs⟩
  | some buf =>
    have hget : server.get eid now = ((.ok, some buf), (server.get eid now).2) :=
      Prod.ext (ExtentServer.get_eq_of_find hbuf now) rfl
    have hkept : (server.get eid now).2.extents.find eid = some buf := by
      rw [ExtentServer.get_extents, hbuf]
    obtain ⟨attr, hattr, hsize⟩ := (hs.get eid now).getattr hkept
    rw [hget]
    simp only [hattr, cacheFetched]
    exact ⟨hc.put hsize, hs.get eid now⟩

theorem sized_get (hc : c.toExtentServer.Sized) (hs : server.Sized) (eid : ExtentId)
    (now : UInt32) : (c.get server eid now).2.1.toExtentServer.Sized ∧
      (c.get server eid now).2.2.Sized := by
  unfold get
  split
  · exact ⟨hc.get eid now, hs⟩
  · exact sized_fetch hc hs eid now

theorem sized_getattr (hc : c.toExtentServer.Sized) (hs : server.Sized) (eid : ExtentId)
    (now : UInt32) : (c.getattr server eid now).2.1.toExtentServer.Sized ∧
      (c.getattr server eid now).2.2.Sized := by
  unfold getattr
  split
  · exact ⟨hc, hs⟩
  · exact sized_fetch hc hs eid now

end ExtentClient
end Extent

namespace Yfs

open Extent Text Program Concurrency Transition

section CallOn

variable {c : ExtentClient} (h : c.Tidy) (server : ExtentServer) (eid : Inum)

include h

theorem callOn_getattr (now : UInt32) :
    CallOn eid c (c.getattr server eid now).2.1 server (c.getattr server eid now).2.2 := by
  cases hattr : c.extentAttrs.find eid with
  | none =>
    rw [Shared.getattr_of_uncached hattr]
    exact callOn_get_any h server eid now
  | some attr =>
    rw [ExtentClient.getattr, if_pos (by rw [hattr]; rfl)]
    exact ⟨h, fun _ _ => rfl, fun _ _ => Iff.rfl, fun _ _ => rfl⟩

theorem callOn_getattr_found (hc : c.toExtentServer.Sized) (hs : server.Sized) {buf : Buffer}
    (now : UInt32) (hbuf : (c.extents.find eid).or (server.extents.find eid) = some buf) :
    ∃ attr c' server', c.getattr server eid now = ((.ok, some attr), c', server') ∧
      c'.extents.find eid = some buf ∧ attr.size = .ofNat buf.length := by
  have hfound : (c.getattr server eid now).1.1 = .ok ∧
      (c.getattr server eid now).2.1.extents.find eid = some buf := by
    cases hattr : c.extentAttrs.find eid with
    | none =>
      obtain ⟨c', server', hget, -, hcached⟩ := callOn_get h server eid now hbuf
      rw [Shared.getattr_of_uncached hattr, hget]
      exact ⟨rfl, hcached⟩
    | some attr =>
      have hsome : (c.extents.find eid).isSome = true := by rw [c.sameKeys eid, hattr]; rfl
      obtain ⟨b, hb⟩ := Option.isSome_iff_exists.mp hsome
      rw [hb] at hbuf
      rw [ExtentClient.getattr, if_pos (by rw [hattr]; rfl), ExtentServer.getattr, hattr]
      exact ⟨rfl, hb.trans hbuf⟩
  obtain ⟨c', server', ⟨attr, hget⟩ | ⟨attr, hget⟩⟩ := Shared.getattr_reply c server eid now
  · have hstatus : (c.getattr server eid now).1 = (.ok, some attr) := by rw [hget]
    obtain ⟨b, hb, hsize⟩ :=
      (ExtentClient.Accounted.mk hc h.queued).getattr hs hstatus
    obtain rfl : buf = b := Option.some.inj (hfound.2.symm.trans hb)
    rw [hget] at hb
    exact ⟨attr, c', server', hget, hb, hsize.symm ▸ UInt32.ofNat_toNat.symm⟩
  · rw [hget] at hfound
    cases hfound.1

theorem callOn_remove : CallOn eid c (c.remove eid).2 server server where
  tidy := h.remove eid
  extents id hid := by
    cases hbuf : c.extents.find eid with
    | none => rw [ExtentClient.remove_uncached hbuf]
    | some buf => rw [(ExtentClient.remove_cached hbuf).2.1, Map.find_erase_ne _ hid]
  removed id hid := by
    cases hbuf : c.extents.find eid with
    | none => rw [ExtentClient.remove_uncached hbuf]
    | some buf =>
      rw [(ExtentClient.remove_cached hbuf).2.2.2, List.mem_append, List.mem_singleton]
      exact ⟨fun hmem => hmem.resolve_right hid, .inl⟩
  server _ _ := rfl

end CallOn

/-- What the answer of the extent client tells besides the contents.  A removal can fail for an
extent that is there, since only the cache is asked. -/
def Command.shown : (c : Command) → Answer c → CallInput
  | .acquire _, _ | .release _, _ | .get _, _ | .put .., _ => .good
  | .getattr _, g =>
    { failed := none, atime := g.attr.atime, mtime := g.attr.mtime, ctime := g.attr.ctime }
  | .remove _, ret =>
    { CallInput.good with failed := if ret = YfsClient.OK then none else some ret }

namespace Shared

variable {T : Type} [DecidableEq T]

/-! ## Locks that stay with the clients -/

/-- A lock that another client has is waited for. -/
def takeLock (w : Shared T) (t : T) (lid : Inum) : Option (Shared T) :=
  match w.holder lid with
  | none => some (w.give t lid)
  | some d => if d = t then some w else none

/-- Replace who has the lock. -/
def pass (w : Shared T) (lid : Inum) (holder : Option T) : Shared T :=
  { w with holder := Function.update w.holder lid holder }

/-- The client that has a lock flushes the id and hands the lock back. -/
def handBack (w : Shared T) (lid : Inum) : Option (Shared T) :=
  (w.holder lid).map fun d =>
    let sent := (w.clients d).flushSent w.server lid
    (w.set d sent.1 sent.2).pass lid none

omit [DecidableEq T] in
/-- What an id stands for. -/
def view (w : Shared T) (eid : Inum) : Option Buffer :=
  match w.holder eid with
  | none => w.server.extents.find eid
  | some c =>
    if eid ∈ (w.clients c).removedExtents then none
    else ((w.clients c).extents.find eid).or (w.server.extents.find eid)

/-! ## What the caches have -/

/-- Only the client with the lock of an id has it cached or has its removal pending. -/
structure Consistent (w : Shared T) : Prop extends w.Sound where
  pending : ∀ c eid, eid ∈ (w.clients c).removedExtents → w.holder eid = some c
  sized : ∀ c, (w.clients c).toExtentServer.Sized
  served : w.server.Sized

variable {w : Shared T} {c : T} {eid : Inum} {ec : ExtentClient} {server : ExtentServer}

omit [DecidableEq T] in
theorem view_of_holder (hheld : w.holder eid = some c) :
    w.view eid = if eid ∈ (w.clients c).removedExtents then none
      else ((w.clients c).extents.find eid).or (w.server.extents.find eid) := by
  rw [view, hheld]

omit [DecidableEq T] in
theorem view_of_free (hcached : ∀ d, (w.clients d).extents.find eid = none)
    (hkept : ∀ d, eid ∉ (w.clients d).removedExtents) :
    w.view eid = w.server.extents.find eid := by
  rw [view]
  split
  · rfl
  · rename_i d _
    rw [if_neg (hkept d), hcached d, Option.none_or]

theorem view_set (hheld : w.holder eid = some c)
    (hcall : CallOn eid (w.clients c) ec w.server server) :
    (w.set c ec server).view = Function.update w.view eid
      (if eid ∈ ec.removedExtents then none
        else (ec.extents.find eid).or (server.extents.find eid)) := by
  funext id
  by_cases hid : id = eid
  · subst hid
    rw [Function.update_self, view_of_holder (w := w.set c ec server) hheld, clients_set_self]
    rfl
  · rw [Function.update_of_ne hid]
    have hserver : (w.set c ec server).server.extents.find id = w.server.extents.find id :=
      hcall.server id hid
    rw [view, view, hserver, show (w.set c ec server).holder = w.holder from rfl]
    split
    · rfl
    · rename_i d _
      by_cases hd : d = c
      · rw [hd, clients_set_self, hcall.extents id hid]
        simp only [hcall.removed id hid]
      · rw [clients_set_ne hd]

theorem view_set_cached (hheld : w.holder eid = some c)
    (hcall : CallOn eid (w.clients c) ec w.server server) {buf : Buffer}
    (hcached : ec.extents.find eid = some buf) :
    (w.set c ec server).view = Function.update w.view eid (some buf) := by
  have hnot : eid ∉ ec.removedExtents := fun hmem => by
    rw [hcall.tidy.pendingUncached eid hmem] at hcached
    cases hcached
  rw [view_set hheld hcall, if_neg hnot, hcached, Option.some_or]

theorem Consistent.set (h : w.Consistent) (hheld : w.holder eid = some c)
    (hcall : CallOn eid (w.clients c) ec w.server server) (hec : ec.toExtentServer.Sized)
    (hserver : server.Sized) : (w.set c ec server).Consistent where
  toSound := h.toSound.set hheld hcall
  pending d id hmem := by
    by_cases hd : d = c
    · subst hd
      rw [clients_set_self] at hmem
      by_cases hid : id = eid
      · exact hid ▸ hheld
      · exact h.pending d id ((hcall.removed id hid).mp hmem)
    · rw [clients_set_ne hd] at hmem
      exact h.pending d id hmem
  sized d := by
    by_cases hd : d = c
    · rw [hd, clients_set_self]
      exact hec
    · rw [clients_set_ne hd]
      exact h.sized d
  served := hserver

omit [DecidableEq T] in
theorem Consistent.tick (h : w.Consistent) (n : Nat) : (w.tick n).Consistent :=
  ⟨h.toSound.tick n, h.pending, h.sized, h.served⟩

omit [DecidableEq T] in
/-- A lock can go to anybody when nobody has the id cached or its removal pending. -/
theorem Consistent.pass (h : w.Consistent) {lid : Inum}
    (hcached : ∀ d, (w.clients d).extents.find lid = none)
    (hkept : ∀ d, lid ∉ (w.clients d).removedExtents) (holder : Option T) :
    (w.pass lid holder).Consistent := by
  have hne : ∀ id, id ≠ lid → (w.pass lid holder).holder id = w.holder id := fun id hid =>
    Function.update_of_ne hid ..
  refine ⟨⟨h.tidy, fun d id hsome => ?_⟩, fun d id hmem => ?_, h.sized, h.served⟩
  · rw [hne id fun hid => ?_]
    · exact h.owned d id hsome
    · rw [hid, show (w.pass lid holder).clients d = w.clients d from rfl, hcached d] at hsome
      cases hsome
  · rw [hne id fun hid => hkept d (hid ▸ hmem)]
    exact h.pending d id hmem

omit [DecidableEq T] in
theorem view_pass {lid : Inum} (hcached : ∀ d, (w.clients d).extents.find lid = none)
    (hkept : ∀ d, lid ∉ (w.clients d).removedExtents) (holder : Option T) :
    (w.pass lid holder).view = w.view := by
  funext id
  by_cases hid : id = lid
  · subst hid
    exact (view_of_free (w := w.pass id holder) hcached hkept).trans
      (view_of_free hcached hkept).symm
  · have hholder : (w.pass lid holder).holder id = w.holder id := Function.update_of_ne hid ..
    rw [view, view, hholder]
    rfl

/-! ## Taking locks and handing them back -/

theorem takeLock_of_free {lid : Inum} (h : w.holder lid = none) (t : T) :
    w.takeLock t lid = some (w.give t lid) := by
  rw [takeLock, h]

theorem takeLock_spec (h : w.Consistent) {t : T} {lid : Inum} {w' : Shared T}
    (hw : w.takeLock t lid = some w') : w'.Consistent ∧ w'.view = w.view ∧
      w'.holder = Function.update w.holder lid (some t) := by
  rw [takeLock] at hw
  split at hw
  · rename_i hnone
    cases hw
    have hcached : ∀ d, (w.clients d).extents.find lid = none := fun d =>
      h.uncached (by rw [hnone]; exact fun heq => by cases heq)
    have hkept : ∀ d, lid ∉ (w.clients d).removedExtents := fun d hmem => by
      cases hnone.symm.trans (h.pending d lid hmem)
    exact ⟨h.pass hcached hkept (some t), view_pass hcached hkept (some t), rfl⟩
  · rename_i d hheld
    obtain ⟨rfl, hsame⟩ := Option.ite_none_right_eq_some.mp hw
    cases hsame
    exact ⟨h, rfl, by rw [← hheld, Function.update_eq_self]⟩

/-- What is handed back can be sent, and the server has what is removed. -/
def CarefulBack (w : Shared T) (lid : Inum) : Prop :=
  ∀ c ∈ w.holder lid, (w.clients c).FlushTaken w.server lid ∧
    (lid ∈ (w.clients c).removedExtents → (w.server.extents.find lid).isSome = true)

instance (w : Shared T) (lid : Inum) : Decidable (w.CarefulBack lid) :=
  inferInstanceAs (Decidable (∀ _ ∈ _, _))

theorem flush_view {ec : ExtentClient} (h : ec.Tidy) (server : ExtentServer) {lid : Inum}
    (hserver : lid ∈ ec.removedExtents → (server.extents.find lid).isSome = true) :
    (ec.flush server lid).2.extents.find lid = if lid ∈ ec.removedExtents then none
      else (ec.extents.find lid).or (server.extents.find lid) := by
  by_cases hpending : lid ∈ ec.removedExtents
  · rw [if_pos hpending]
    obtain ⟨buf, hbuf⟩ := Option.isSome_iff_exists.mp (hserver hpending)
    have hnot : lid ∉ ec.modifiedExtents := by
      rw [h.queued.mem lid, h.pendingUncached lid hpending]
      exact Bool.false_ne_true
    have hflush : ec.flush server lid = ec.flushRemoved server lid := by
      rw [ExtentClient.flush, ExtentClient.flushModified_of_not_mem hnot]
    rw [hflush, (ExtentClient.flushRemoved_of_mem hpending hbuf).2, Map.find_erase_self]
  · rw [if_neg hpending]
    exact flush_contents h server lid hpending

theorem handBack_spec (h : w.Consistent) {lid : Inum} (hok : w.CarefulBack lid) {w' : Shared T}
    (hw : w.handBack lid = some w') : w'.Consistent ∧ w'.view = w.view ∧
      w'.holder = Function.update w.holder lid none := by
  obtain ⟨d, hheld, rfl⟩ := Option.map_eq_some_iff.mp hw
  obtain ⟨htaken, hserver⟩ := hok d hheld
  have htidy := h.tidy d
  have hcall := callOn_flush htidy w.server lid
  have hcached := free_flush h.toSound hheld
  rw [ExtentClient.flushSent, if_pos htaken]
  obtain ⟨haccounted, hsized⟩ :=
    (ExtentClient.Accounted.mk (h.sized d) htidy.queued).flushModified h.served lid
  obtain ⟨haccounted, hsized⟩ := haccounted.flushRemoved hsized lid
  have hset := h.set hheld hcall haccounted.sized hsized
  have hkept : ∀ e, lid ∉ ((w.flush d lid).clients e).removedExtents := by
    intro e hmem
    obtain rfl : d = e :=
      Option.some.inj (hheld.symm.trans (hset.pending e lid hmem))
    rw [Shared.flush, clients_set_self, htidy.flush_removedExtents] at hmem
    have hsome := hserver hmem.1
    rw [hmem.2] at hsome
    cases hsome
  refine ⟨hset.pass hcached hkept none, (view_pass hcached hkept none).trans ?_, rfl⟩
  -- What the server has now is what the id stood for.
  have hnot := hkept d
  rw [Shared.flush, clients_set_self] at hnot
  rw [Shared.flush, view_set hheld hcall, if_neg hnot, htidy.flush_uncached, Option.none_or,
    flush_view htidy w.server hserver, ← view_of_holder hheld, Function.update_eq_self]

/-! ## The calls of the extent client -/

/-- The client reads what it has locked, and not what it has removed, or what nobody has. -/
def CarefulRead (w : Shared T) (t : T) (eid : Inum) : Prop :=
  if w.holder eid = some t then
    eid ∈ (w.clients t).removedExtents → w.server.extents.find eid = none
  else w.server.extents.find eid = none ∧ w.view eid = none

def CarefulCall (w : Shared T) (t : T) : Command → Prop
  | .get eid | .getattr eid => w.CarefulRead t eid
  | .put _ buf => buf.length < UInt32.size
  | .acquire _ | .release _ | .remove _ => True

instance (w : Shared T) (t : T) (eid : Inum) : Decidable (w.CarefulRead t eid) :=
  inferInstanceAs (Decidable (ite ..))

instance (w : Shared T) (t : T) : (c : Command) → Decidable (w.CarefulCall t c)
  | .get eid | .getattr eid => inferInstanceAs (Decidable (w.CarefulRead t eid))
  | .put _ buf => inferInstanceAs (Decidable (buf.length < UInt32.size))
  | .acquire _ | .release _ | .remove _ => isTrue trivial

end Shared

/-- The caches of the clients and the server, as the memory of the operations. -/
def caches {T : Type} [DecidableEq T] :
    Backing Command Answer Inum (Option Buffer) CallInput (Shared T) T where
  acquire w t lid := w.takeLock t lid
  access w t c := w.answer t c
  settle w lid := w.handBack lid
  view := Shared.view
  shown := Command.shown

namespace Shared

variable {T : Type} [DecidableEq T] {w : Shared T} {t : T} {eid : Inum}

/-- The caches answer the call as the store does. -/
structure Served (w : Shared T) (t : T) (c : Command) (eid : Inum) : Prop where
  consistent : (answer t w c).2.Consistent
  holder : (answer t w c).2.holder = w.holder
  answers : caches.Answers operations w t c eid

theorem Served.of_eq {c : Command} {x : Answer c} {v : Option Buffer} {w' : Shared T}
    (hanswer : answer t w c = (x, w')) (hw' : w'.Consistent) (hholder : w'.holder = w.holder)
    (hstore : c.onContents (c.shown x) (w.view eid) = (x, v))
    (hview : w'.view = Function.update w.view eid v) : w.Served t c eid := by
  have haccess : caches.access w t c = (x, w') := hanswer
  refine ⟨hanswer ▸ hw', hanswer ▸ hholder, ?_, ?_⟩
  · rw [haccess]
    exact congrArg Prod.fst hstore
  · rw [haccess]
    exact hview.trans (congrArg (fun r => Function.update w.view eid r.2) hstore.symm)

theorem Served.of_same {c : Command} {x : Answer c} {w' : Shared T}
    (hanswer : answer t w c = (x, w')) (hw' : w'.Consistent) (hholder : w'.holder = w.holder)
    (hview : w'.view = w.view) (hstore : c.onContents (c.shown x) (w.view eid) = (x, w.view eid)) :
    w.Served t c eid :=
  .of_eq hanswer hw' hholder hstore (hview.trans (Function.update_eq_self eid w.view).symm)

theorem CarefulRead.found (h : w.Consistent) (hok : w.CarefulRead t eid)
    (hheld : w.holder eid = some t) :
    w.view eid = ((w.clients t).extents.find eid).or (w.server.extents.find eid) := by
  rw [CarefulRead, if_pos hheld] at hok
  rw [view_of_holder hheld]
  split
  · rename_i hpending
    rw [(h.tidy t).pendingUncached eid hpending, hok hpending]
    rfl
  · rfl

theorem CarefulRead.missed (h : w.Consistent) (hok : w.CarefulRead t eid)
    (hview : w.view eid = none) :
    (w.clients t).extents.find eid = none ∧ w.server.extents.find eid = none := by
  by_cases hheld : w.holder eid = some t
  · rw [hok.found h hheld] at hview
    exact Option.or_eq_none_iff.mp hview
  · rw [CarefulRead, if_neg hheld] at hok
    exact ⟨h.uncached hheld, hok.1⟩

theorem CarefulRead.held (hok : w.CarefulRead t eid) {buf : Buffer}
    (hview : w.view eid = some buf) : w.holder eid = some t := by
  by_contra hheld
  rw [CarefulRead, if_neg hheld] at hok
  rw [hok.2] at hview
  cases hview

theorem set_self (w : Shared T) (c : T) : w.set c (w.clients c) w.server = w := by
  rw [set, Function.update_eq_self]

theorem served_get (h : w.Consistent) (hok : w.CarefulRead t eid) : w.Served t (.get eid) eid := by
  cases hview : w.view eid with
  | none =>
    obtain ⟨hcached, hserver⟩ := hok.missed h hview
    have hget : w.get t eid = (⟨YfsClient.NOENT, []⟩, w.tick 1) := by
      rw [Shared.get, ExtentClient.get_missing hcached hserver, set_self]
      rfl
    exact .of_same hget (h.tick 1) rfl rfl (by rw [hview]; rfl)
  | some buf =>
    have hheld := hok.held hview
    obtain ⟨ec, server, hget, hcall, hcached⟩ := callOn_get (h.tidy t) w.server eid (w.clock 0)
      ((hok.found h hheld).symm.trans hview)
    have hsized := ExtentClient.sized_get (h.sized t) h.served eid (w.clock 0)
    rw [hget] at hsized
    have hanswer : w.get t eid = (⟨YfsClient.OK, buf⟩, (w.set t ec server).tick 1) := by
      rw [Shared.get, hget]
      rfl
    exact .of_eq hanswer ((h.set hheld hcall hsized.1 hsized.2).tick 1) rfl (by rw [hview]; rfl)
      (view_set_cached hheld hcall hcached)

theorem served_getattr (h : w.Consistent) (hok : w.CarefulRead t eid) :
    w.Served t (.getattr eid) eid := by
  cases hview : w.view eid with
  | none =>
    obtain ⟨hcached, hserver⟩ := hok.missed h hview
    have hget : w.getattr t eid = (⟨YfsClient.NOENT, default⟩, w.tick 1) := by
      rw [Shared.getattr, ExtentClient.getattr_missing hcached hserver, set_self]
      rfl
    exact .of_same hget (h.tick 1) rfl rfl (by rw [hview]; rfl)
  | some buf =>
    have hheld := hok.held hview
    obtain ⟨attr, ec, server, hget, hcached, hsize⟩ := callOn_getattr_found (h.tidy t) w.server eid
      (h.sized t) h.served (w.clock 0) ((hok.found h hheld).symm.trans hview)
    have hcall := callOn_getattr (h.tidy t) w.server eid (w.clock 0)
    have hsized := ExtentClient.sized_getattr (h.sized t) h.served eid (w.clock 0)
    rw [hget] at hsized hcall
    have hanswer : w.getattr t eid = (⟨YfsClient.OK, attr⟩, (w.set t ec server).tick 1) := by
      rw [Shared.getattr, hget]
      rfl
    refine .of_eq hanswer ((h.set hheld hcall hsized.1 hsized.2).tick 1) rfl ?_
      (view_set_cached hheld hcall hcached)
    rw [hview]
    show ((⟨YfsClient.OK, ⟨attr.atime, attr.mtime, attr.ctime, .ofNat buf.length⟩⟩ : GotAttr), _)
      = _
    rw [← hsize]

theorem served_put (h : w.Consistent) (hheld : w.holder eid = some t) {buf : Buffer}
    (hbuf : buf.length < UInt32.size) : w.Served t (.put eid buf) eid := by
  have hcall := callOn_entered (h.tidy t) w.server eid buf
    ⟨w.clock 2, w.clock 0, w.clock 1, .ofNat buf.length⟩ rfl
  refine .of_eq rfl ((h.set hheld hcall ?_ h.served).tick 3) rfl rfl
    (view_set_cached hheld hcall (Map.find_insert_self ..))
  exact (h.sized t).put (UInt32.toNat_ofNat_of_lt' hbuf)

theorem served_remove (h : w.Consistent) (hheld : w.holder eid = some t) :
    w.Served t (.remove eid) eid := by
  cases hcached : (w.clients t).extents.find eid with
  | none =>
    have hanswer : w.remove t eid = (YfsClient.NOENT, w) := by
      rw [Shared.remove, ExtentClient.remove_uncached hcached, set_self]
      rfl
    exact .of_same hanswer h rfl rfl rfl
  | some buf =>
    obtain ⟨hok, hext, -, hremoved⟩ := ExtentClient.remove_cached hcached
    have hcall := callOn_remove (h.tidy t) w.server eid
    have hsized := (ExtentClient.Accounted.mk (h.sized t) (h.tidy t).queued).remove eid
    have hnot : eid ∉ (w.clients t).removedExtents := fun hmem => by
      rw [(h.tidy t).pendingUncached eid hmem] at hcached
      cases hcached
    have hview : w.view eid = some buf := by
      rw [view_of_holder hheld, if_neg hnot, hcached, Option.some_or]
    have hanswer : w.remove t eid =
        (YfsClient.OK, w.set t ((w.clients t).remove eid).2 w.server) := by
      rw [Shared.remove, hok]
      rfl
    refine .of_eq hanswer (h.set hheld hcall hsized.sized h.served) rfl (by rw [hview]; rfl) ?_
    rw [view_set hheld hcall, if_pos (by rw [hremoved]; simp)]

end Shared

/-! ## Clients at work -/

instance : (c : Command) → DecidableEq (Answer c)
  | .acquire _ | .release _ => inferInstanceAs (DecidableEq Unit)
  | .get _ => inferInstanceAs (DecidableEq Got)
  | .getattr _ => inferInstanceAs (DecidableEq GotAttr)
  | .put .. | .remove _ => inferInstanceAs (DecidableEq Int)

/-- The clients of one server, with one operation at a time for each. -/
abbrev Mounted (T : Type) :=
  Backed Command Answer Inum CallInput Operation Outcome (Shared T) T

abbrev MountedStep (T : Type) := BackedStep Inum Operation T

namespace Mounted

variable {T : Type} [DecidableEq T]

def CarefulRest (w : Shared T) (t : T) : YfsClient.M Outcome → Prop
  | .done _ => True
  | .call c _ => w.CarefulCall t c

/-- The conditions at the head of this file. -/
def Careful (s : Mounted T) : MountedStep T → Prop
  | .start .. | .finish _ => True
  | .go t => ∀ τ ∈ s.task t, CarefulRest s.mem t τ.rest
  | .settle lid => s.mem.CarefulBack lid

instance (w : Shared T) (t : T) : (p : YfsClient.M Outcome) → Decidable (CarefulRest w t p)
  | .done _ => isTrue trivial
  | .call c _ => inferInstanceAs (Decidable (w.CarefulCall t c))

instance (s : Mounted T) : (a : MountedStep T) → Decidable (Careful s a)
  | .start .. | .finish _ => isTrue trivial
  | .go t => inferInstanceAs (Decidable (∀ τ ∈ s.task t, CarefulRest s.mem t τ.rest))
  | .settle lid => inferInstanceAs (Decidable (s.mem.CarefulBack lid))

/-- The client of an operation that has a lock has it. -/
structure Coherent (s : Mounted T) : Prop where
  memory : s.mem.Consistent
  held : ∀ lid t, s.owner lid = some t → s.mem.holder lid = some t

variable {s s' : Mounted T}

theorem Coherent.served (h : Coherent s) (howned : Locking.Owned (caches.viewed s))
    (hphased : operations.Phased (caches.viewed s)) {t : T} {τ : OperationTask}
    (hτ : s.task t = some τ) {c : Command} {k : Answer c → YfsClient.M Outcome}
    (hrest : τ.rest = .call c k) {eid : Inum} (huse : c.use = .access eid)
    (hok : s.mem.CarefulCall t c) : s.mem.Served t c eid := by
  have hlocked := (Locking.PhasedTask.access (hphased t τ hτ) hrest huse).2.1
  have hheld : eid ∈ τ.locks → s.mem.holder eid = some t := fun hmem =>
    h.held eid t ((howned.mem_locks_iff hτ).mp hmem)
  cases c with
  | acquire lid => cases huse
  | release lid => cases huse
  | get id =>
    cases huse
    exact Shared.served_get h.memory hok
  | getattr id =>
    cases huse
    exact Shared.served_getattr h.memory hok
  | put id buf =>
    cases huse
    refine Shared.served_put h.memory (hheld (hlocked.resolve_right fun hread => ?_)) hok
    cases hread .good none
  | remove id =>
    cases huse
    refine Shared.served_remove h.memory (hheld (hlocked.resolve_right fun hread => ?_))
    cases hread .good (some [])

theorem Coherent.serves (h : Coherent s) (howned : Locking.Owned (caches.viewed s))
    (hphased : operations.Phased (caches.viewed s)) {a : MountedStep T} (hok : Careful s a) :
    caches.Serves operations s a := by
  cases a with
  | start t op => trivial
  | finish t => trivial
  | settle lid => exact fun w hw => (Shared.handBack_spec h.memory hok hw).2.1
  | go t =>
    intro τ hτ c k hrest
    have hcall := hok τ hτ
    rw [hrest] at hcall
    rw [Backing.ServesCall]
    split
    · exact fun w hw => (Shared.takeLock_spec h.memory hw).2.1
    · rename_i huse
      exact (h.served howned hphased hτ hrest huse hcall).answers
    · trivial

theorem Coherent.step (h : Coherent s) (howned : Locking.Owned (caches.viewed s))
    (hphased : operations.Phased (caches.viewed s)) {a : MountedStep T} (hok : Careful s a)
    (hs : caches.step operations s a = some s') : Coherent s' := by
  cases a with
  | start t op =>
    simp only [Backing.step] at hs
    split at hs <;> cases hs
    exact ⟨h.memory, h.held⟩
  | finish t =>
    obtain ⟨τ, hτ, hs⟩ := Option.bind_eq_some_iff.mp hs
    rw [Backing.finish] at hs
    split at hs <;> cases hs
    exact ⟨h.memory, h.held⟩
  | settle lid =>
    obtain ⟨hfree, w, hw, rfl⟩ := Backing.settle_eq_some hs
    obtain ⟨hmem, -, hholder⟩ := Shared.handBack_spec h.memory hok hw
    refine ⟨hmem, fun lid' t howner => ?_⟩
    rw [hholder, Function.update_of_ne fun heq => ?_]
    · exact h.held lid' t howner
    · rw [heq, hfree] at howner
      cases howner
  | go t =>
    obtain ⟨τ, hτ, hs⟩ := Option.bind_eq_some_iff.mp hs
    have hcall := hok τ hτ
    obtain ⟨c, k, lid, hrest, ⟨huse, hfree, w, hw, rfl⟩ | ⟨huse, rfl⟩ | ⟨huse, rfl⟩⟩ :=
      Backing.call_cases hs
    · obtain ⟨hmem, -, hholder⟩ := Shared.takeLock_spec h.memory hw
      refine ⟨hmem, fun lid' u howner => ?_⟩
      rw [hholder]
      replace howner : Function.update s.owner lid (some t) lid' = some u := howner
      by_cases hlid : lid' = lid
      · rw [hlid, Function.update_self] at howner ⊢
        exact howner
      · rw [Function.update_of_ne hlid] at howner ⊢
        exact h.held lid' u howner
    · refine ⟨h.memory, fun lid' u howner => ?_⟩
      replace howner : Function.update s.owner lid none lid' = some u := howner
      by_cases hlid : lid' = lid
      · rw [hlid, Function.update_self] at howner
        cases howner
      · rw [Function.update_of_ne hlid] at howner
        exact h.held lid' u howner
    · rw [hrest] at hcall
      have hserved := h.served howned hphased hτ hrest huse hcall
      refine ⟨hserved.consistent, fun lid' u howner => ?_⟩
      exact (congrFun hserved.holder lid').trans (h.held lid' u howner)

/-! ## One operation after another -/

/-- The caches answer as the store does, each operation releases what it has, and what it has drawn
is still so at its first release: another operation may draw the same number, and then both put
it. -/
def Proper (S : Inum → Option Buffer) (s : Mounted T) (a : MountedStep T) : Prop :=
  Careful s a ∧ ∀ b ∈ caches.label operations s a, operations.Proper S (caches.viewed s) b

instance (S : Inum → Option Buffer) (s : Mounted T) (a : MountedStep T) :
    Decidable (Proper S s a) := inferInstanceAs (Decidable (_ ∧ _))

theorem Coherent.of_fresh (hfresh : Locking.Fresh (caches.viewed s)) (hmem : s.mem.Consistent) :
    Coherent s := by
  refine ⟨hmem, fun lid t howner => ?_⟩
  cases (hfresh.1 lid).symm.trans howner

section

/-- The root with no entries and one file, with no operation under way. -/
def twoExtents : Mounted Bool where
  mem :=
    { clients := fun _ => .new
      server := ((ExtentServer.new.put 1 [] default).2.put 0x80000009 [7] { (default : Attr) with
        size := 1 }).2
      holder := fun _ => none
      clock := fun _ => 0 }
  owner _ := none
  task _ := none
  order := []
  returned := []

theorem twoExtents_consistent : twoExtents.mem.Consistent where
  tidy _ := ExtentClient.new_tidy
  owned _ _ h := by cases h
  pending _ _ h := absurd h List.not_mem_nil
  sized _ := ExtentServer.new_sized
  served := (ExtentServer.new_sized.put rfl).put rfl

/-- A creation and a write take turns.  The client of the write then asks for the lock of the new
file, which is handed back with its extent. -/
def takingTurns : List (MountedStep Bool) :=
  [.start false (.addEntryToFilesystem 1 "a" true [.five]),
    .start true (.write 0x80000009 [1, 2] 0), .go false, .go true, .go false, .go true,
    .go false, .go true, .go false, .go false, .go true, .finish true,
    .start true (.setsize 0x80000005 3), .go false, .go false, .settle 0x80000005, .go true,
    .go false, .finish false, .go true, .go true, .go true, .finish true]

/-- The creation draws the number of the file first, and so reads it without its lock.  The file is
written at the other client, and read again at the first. -/
def readingOld : List (MountedStep Bool) :=
  [.start false (.addEntryToFilesystem 1 "a" true [⟨9, by decide, by decide⟩, .five]), .go false,
    .go false, .go false, .go false, .go false, .go false, .go false, .go false, .go false,
    .finish false, .start true (.write 0x80000009 [1, 2] 0), .go true, .go true, .go true, .go true,
    .finish true, .settle 0x80000009, .start false (.read 0x80000009 2 0), .go false, .go false,
    .go false, .finish false]

/- Without `Careful` the read finds what the draw has left in the cache. -/
example : (((caches.system operations).run twoExtents readingOld).any fun s =>
    s.returned.any fun r => match r.2 with
      | ⟨.read .., res⟩ => decide (res = (YfsClient.OK, [7]))
      | _ => false) = true := by
  decide +kernel

end

end Mounted

end Yfs
end Frangipani
