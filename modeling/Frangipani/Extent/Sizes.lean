/-
Contents and attributes of extents, on the server and in every cache.

The size of an extent is an attribute that travels apart from the contents:
`put` computes it, a flush sends it along, and a fetch asks for it in a call of its
own.  It equals the length of the contents everywhere, and the two queues of a
client list exactly the ids that it caches.

A call is made by the client that holds the lock of its id.  The lock can be handed
on at any time when its holder is in no call on the id, whether the id has been
flushed or not.
-/
import Frangipani.Extent.Sharing

namespace Frangipani
namespace Extent

open Transition

namespace ExtentServer

/-- The size of every extent is the length of its contents. -/
def Sized (s : ExtentServer) : Prop :=
  ∀ id buf attr, s.extents.find id = some buf → s.extentAttrs.find id = some attr →
    attr.size.toNat = buf.length

variable {s : ExtentServer}

theorem new_sized : new.Sized := fun _ _ _ h => by cases h

theorem Sized.put (h : s.Sized) {id : ExtentId} {buf : Buffer} {attr : Attr}
    (hattr : attr.size.toNat = buf.length) : (s.put id buf attr).2.Sized := by
  intro k b a hb ha
  rcases Map.find_insert_eq_some.mp hb with ⟨hk, rfl⟩ | ⟨hk, hb⟩ <;>
    rcases Map.find_insert_eq_some.mp ha with ⟨hk', rfl⟩ | ⟨hk', ha⟩
  · exact hattr
  · exact absurd hk hk'
  · exact absurd hk' hk
  · exact h k b a hb ha

theorem Sized.get (h : s.Sized) (id : ExtentId) (now : UInt32) : (s.get id now).2.Sized := by
  intro k b a hb ha
  rw [get_extents] at hb
  unfold ExtentServer.get at ha
  split at ha
  · rename_i buf attr hbuf hattr
    rcases Map.find_insert_eq_some.mp ha with ⟨rfl, rfl⟩ | ⟨-, ha⟩
    · exact h k b attr hb hattr
    · exact h k b a hb ha
  · exact h k b a hb ha

theorem Sized.erase (h : s.Sized) (id k : ExtentId) (b : Buffer) (a : Attr)
    (hb : (s.extents.erase id).find k = some b) (ha : (s.extentAttrs.erase id).find k = some a) :
    a.size.toNat = b.length :=
  h k b a (Map.find_erase_eq_some.mp hb).2 (Map.find_erase_eq_some.mp ha).2

theorem Sized.remove (h : s.Sized) (id : ExtentId) : (s.remove id).2.Sized := by
  unfold ExtentServer.remove
  split
  · exact h.erase id
  · exact h

theorem Sized.getattr (h : s.Sized) {id : ExtentId} {buf : Buffer}
    (hbuf : s.extents.find id = some buf) :
    ∃ attr, s.getattr id = (.ok, some attr) ∧ attr.size.toNat = buf.length := by
  obtain ⟨attr, hattr⟩ := extentAttrs_find_of_extents_find hbuf
  exact ⟨attr, by simp [ExtentServer.getattr, hattr], h id buf attr hbuf hattr⟩

end ExtentServer

namespace ExtentClient

/-- A client whose queues list exactly what it caches. -/
structure Queued (c : ExtentClient) : Prop where
  nodup : c.modifiedExtents.Nodup
  mem : ∀ id, id ∈ c.modifiedExtents ↔ (c.extents.find id).isSome
  nodupAttributes : c.modifiedExtentAttributes.Nodup
  memAttributes : ∀ id, id ∈ c.modifiedExtentAttributes ↔ (c.extentAttrs.find id).isSome

structure Accounted (c : ExtentClient) : Prop where
  sized : c.toExtentServer.Sized
  queued : c.Queued

variable {c : ExtentClient}

theorem new_queued : new.Queued where
  nodup := List.nodup_nil
  mem id := by simp [new, ExtentServer.new]
  nodupAttributes := List.nodup_nil
  memAttributes id := by simp [new, ExtentServer.new]

theorem new_accounted : new.Accounted := ⟨ExtentServer.new_sized, new_queued⟩

theorem mem_enqueue_iff {queue : List ExtentId} {ν : Type} {m : Map ExtentId ν} (eid : ExtentId)
    (v : ν) (h : ∀ id, id ∈ queue ↔ (m.find id).isSome) (id : ExtentId) :
    id ∈ enqueue queue eid ↔ ((m.insert eid v).find id).isSome := by
  rw [mem_enqueue, h, Map.find_insert]
  by_cases hid : id = eid <;> simp [hid]

theorem mem_filter_iff {queue : List ExtentId} {ν : Type} {m : Map ExtentId ν} (eid : ExtentId)
    (h : ∀ id, id ∈ queue ↔ (m.find id).isSome) (id : ExtentId) :
    id ∈ queue.filter (· ≠ eid) ↔ ((m.erase eid).find id).isSome := by
  rw [List.mem_filter, h, Map.find_erase]
  by_cases hid : id = eid <;> simp [hid]

theorem mem_erase_iff {queue : List ExtentId} {ν : Type} {m : Map ExtentId ν} (eid : ExtentId)
    (hnodup : queue.Nodup) (h : ∀ id, id ∈ queue ↔ (m.find id).isSome) (id : ExtentId) :
    id ∈ queue.erase eid ↔ ((m.erase eid).find id).isSome := by
  rw [hnodup.erase_eq_filter, ← mem_filter_iff eid h id]
  simp

theorem Queued.entered (h : c.Queued) (eid : ExtentId) (buf : Buffer) (attr : Attr) :
    ((c.withLocal (c.toExtentServer.put eid buf attr).2).addExtentToModifiedQueues
      eid).Queued where
  nodup := enqueue_nodup h.nodup eid
  mem := mem_enqueue_iff eid buf h.mem
  nodupAttributes := enqueue_nodup h.nodupAttributes eid
  memAttributes := mem_enqueue_iff eid attr h.memAttributes

theorem Accounted.entered (h : c.Accounted) (eid : ExtentId) {buf : Buffer} {attr : Attr}
    (hattr : attr.size.toNat = buf.length) :
    ((c.withLocal (c.toExtentServer.put eid buf attr).2).addExtentToModifiedQueues
      eid).Accounted :=
  ⟨h.sized.put hattr, h.queued.entered eid buf attr⟩

theorem Accounted.put (h : c.Accounted) (eid : ExtentId) {buf : Buffer}
    (hbuf : buf.length < UInt32.size) (mtime ctime atime : UInt32) :
    (c.put eid buf mtime ctime atime).2.Accounted :=
  h.entered eid (UInt32.toNat_ofNat_of_lt' hbuf)

theorem Queued.getCached (h : c.Queued) (eid : ExtentId) (now : UInt32) :
    (c.withLocal (c.toExtentServer.get eid now).2).Queued where
  nodup := h.nodup
  mem id := by
    show _ ↔ ((c.toExtentServer.get eid now).2.extents.find id).isSome
    rw [ExtentServer.get_extents]
    exact h.mem id
  nodupAttributes := h.nodupAttributes
  memAttributes id := by
    show _ ↔ ((c.toExtentServer.get eid now).2.extentAttrs.find id).isSome
    rw [← (c.toExtentServer.get eid now).2.sameKeys id, ExtentServer.get_extents, c.sameKeys id]
    exact h.memAttributes id

theorem Accounted.getCached (h : c.Accounted) (eid : ExtentId) (now : UInt32) :
    (c.withLocal (c.toExtentServer.get eid now).2).Accounted :=
  ⟨h.sized.get eid now, h.queued.getCached eid now⟩

theorem Queued.remove (h : c.Queued) (eid : ExtentId) : (c.remove eid).2.Queued := by
  cases hbuf : c.extents.find eid with
  | none =>
    rw [remove_uncached hbuf]
    exact h
  | some buf =>
    have hremove : c.toExtentServer.remove eid = (.ok, (c.toExtentServer.remove eid).2) :=
      Prod.ext (ExtentServer.remove_of_find hbuf).1 rfl
    have hattrs : (c.toExtentServer.remove eid).2.extentAttrs = c.extentAttrs.erase eid := by
      unfold ExtentServer.remove
      rw [hbuf]
    unfold ExtentClient.remove
    rw [hremove]
    refine ⟨h.nodup.erase eid, ?_, h.nodupAttributes.erase eid, ?_⟩
    · show ∀ id, _ ↔ ((c.toExtentServer.remove eid).2.extents.find id).isSome
      rw [(ExtentServer.remove_of_find hbuf).2]
      exact mem_erase_iff eid h.nodup h.mem
    · show ∀ id, _ ↔ ((c.toExtentServer.remove eid).2.extentAttrs.find id).isSome
      rw [hattrs]
      exact mem_erase_iff eid h.nodupAttributes h.memAttributes

theorem Accounted.remove (h : c.Accounted) (eid : ExtentId) : (c.remove eid).2.Accounted := by
  refine ⟨?_, h.queued.remove eid⟩
  have hsized := h.sized.remove eid
  unfold ExtentClient.remove
  split
  · rename_i heq
    rw [heq] at hsized
    exact hsized
  · rename_i heq
    rw [heq] at hsized
    exact hsized

theorem Queued.flushModified (h : c.Queued) (server : ExtentServer) (eid : ExtentId) :
    (c.flushModified server eid).1.Queued := by
  unfold ExtentClient.flushModified
  split
  · exact ⟨h.nodup.filter _, mem_filter_iff eid h.mem, h.nodupAttributes.filter _,
      mem_filter_iff eid h.memAttributes⟩
  · exact h

/-- What a flush writes back has the right size, and the client drops it everywhere. -/
theorem Accounted.flushModified (h : c.Accounted) {server : ExtentServer} (hs : server.Sized)
    (eid : ExtentId) :
    (c.flushModified server eid).1.Accounted ∧ (c.flushModified server eid).2.Sized := by
  have hqueued := h.queued.flushModified server eid
  by_cases hmem : eid ∈ c.modifiedExtents
  · obtain ⟨buf, hbuf⟩ := Option.isSome_iff_exists.mp ((h.queued.mem eid).mp hmem)
    obtain ⟨attr, hattr⟩ := ExtentServer.extentAttrs_find_of_extents_find hbuf
    unfold ExtentClient.flushModified at hqueued ⊢
    rw [if_pos hmem, hbuf, hattr] at hqueued ⊢
    exact ⟨⟨h.sized.erase eid, hqueued⟩, hs.put (h.sized eid buf attr hbuf hattr)⟩
  · rw [flushModified_of_not_mem hmem]
    exact ⟨h, hs⟩

theorem flushModified_server (c : ExtentClient) (server : ExtentServer) {eid id : ExtentId}
    (hid : id ≠ eid) :
    (c.flushModified server eid).2.extents.find id = server.extents.find id := by
  unfold flushModified
  split
  · exact Map.find_insert_ne _ _ hid
  · rfl

theorem Queued.flushRemoved (h : c.Queued) (server : ExtentServer) (eid : ExtentId) :
    (c.flushRemoved server eid).1.Queued := by
  unfold ExtentClient.flushRemoved
  split
  · split
    · exact ⟨h.nodup, h.mem, h.nodupAttributes, h.memAttributes⟩
    · exact h
  · exact h

/-- The second half of a flush touches no cached extent, and at most removes the id on the
server. -/
theorem flushRemoved_effect (c : ExtentClient) (server : ExtentServer) (eid : ExtentId) :
    (c.flushRemoved server eid).1.toExtentServer = c.toExtentServer ∧
      ((c.flushRemoved server eid).2 = server ∨
        (c.flushRemoved server eid).2 = (server.remove eid).2) := by
  unfold flushRemoved
  split
  · split
    · rename_i heq
      exact ⟨rfl, .inr (by rw [heq])⟩
    · rename_i heq
      exact ⟨rfl, .inr (by rw [heq])⟩
  · exact ⟨rfl, .inl rfl⟩

theorem Accounted.flushRemoved (h : c.Accounted) {server : ExtentServer} (hs : server.Sized)
    (eid : ExtentId) :
    (c.flushRemoved server eid).1.Accounted ∧ (c.flushRemoved server eid).2.Sized := by
  obtain ⟨hlocal, hserver⟩ := flushRemoved_effect c server eid
  refine ⟨⟨hlocal ▸ h.sized, h.queued.flushRemoved server eid⟩, ?_⟩
  rcases hserver with hserver | hserver
  · rw [hserver]
    exact hs
  · rw [hserver]
    exact hs.remove eid

theorem flushRemoved_server (c : ExtentClient) (server : ExtentServer) {eid id : ExtentId}
    (hid : id ≠ eid) :
    (c.flushRemoved server eid).2.extents.find id = server.extents.find id := by
  rcases (flushRemoved_effect c server eid).2 with hserver | hserver
  · rw [hserver]
  · rw [hserver]
    cases hbuf : server.extents.find eid with
    | none => rw [ExtentServer.remove_of_not_find hbuf]
    | some buf => rw [(ExtentServer.remove_of_find hbuf).2, Map.find_erase_ne _ hid]

/-- After a successful `getattr` the id is cached, with contents of the size that was returned. -/
theorem Accounted.getattr (h : c.Accounted) {server : ExtentServer} (hs : server.Sized)
    {eid : ExtentId} {now : UInt32} {attr : Attr}
    (hattr : (c.getattr server eid now).1 = (.ok, some attr)) :
    ∃ buf, (c.getattr server eid now).2.1.extents.find eid = some buf ∧
      attr.size.toNat = buf.length := by
  unfold ExtentClient.getattr at hattr ⊢
  split at hattr
  · rename_i hcached
    rw [if_pos hcached]
    obtain ⟨a, ha⟩ := Option.isSome_iff_exists.mp hcached
    obtain ⟨buf, hbuf⟩ := Option.isSome_iff_exists.mp ((c.sameKeys eid).trans hcached)
    have hsame : a = attr := by simpa [ExtentServer.getattr, ha] using hattr
    exact ⟨buf, hbuf, hsame ▸ h.sized eid buf a hbuf ha⟩
  · rename_i hcached
    rw [if_neg hcached]
    cases hbuf : server.extents.find eid with
    | none =>
      -- The server has nothing to send.
      simp [getAndCacheExtentFromServer, ExtentServer.get_eq_of_not_find hbuf] at hattr
    | some buf =>
      have hget : server.get eid now = ((.ok, some buf), (server.get eid now).2) :=
        Prod.ext (ExtentServer.get_eq_of_find hbuf now) rfl
      have hkept : (server.get eid now).2.extents.find eid = some buf := by
        rw [ExtentServer.get_extents, hbuf]
      obtain ⟨a, ha, hsize⟩ := (hs.get eid now).getattr hkept
      unfold getAndCacheExtentFromServer at hattr ⊢
      rw [hget] at hattr ⊢
      simp only [ha, cacheFetched, Prod.mk.injEq, Option.some.injEq, true_and] at hattr ⊢
      exact ⟨buf, Map.find_insert_self _ _ _, hattr ▸ hsize⟩

end ExtentClient

namespace Sharing

variable {Clt : Type}

/-- The client is in a call on the id. -/
def InCall (w : Sharing Clt) (c : Clt) (eid : ExtentId) : Prop :=
  match w.pc c with
  | .idle => False
  | .fetching id _ _ => id = eid
  | .flushing id => id = eid

instance (w : Sharing Clt) (c : Clt) (eid : ExtentId) : Decidable (w.InCall c eid) :=
  match h : w.pc c with
  | .idle => isFalse (by simp [InCall, h])
  | .fetching id _ _ => decidable_of_iff (id = eid) (by simp [InCall, h])
  | .flushing id => decidable_of_iff (id = eid) (by simp [InCall, h])

/-- The steps of `Sharing`, but a lock may be handed on without a flush. -/
def freeStep [DecidableEq Clt] (w : Sharing Clt) : Action Clt → Option (Sharing Clt)
  | .release c eid =>
    if w.holder eid = some c ∧ ¬ w.InCall c eid then
      some { w with holder := Function.update w.holder eid none }
    else none
  | a => w.step a

def freeSystem [DecidableEq Clt] : System (Sharing Clt) (Action Clt) where
  init w := w = start
  step := freeStep

/-- Buffers whose length fits the size attribute. -/
def ShortPuts (_ : Sharing Clt) : Action Clt → Prop
  | .put _ _ buf _ _ _ => buf.length < UInt32.size
  | _ => True

instance (w : Sharing Clt) : DecidablePred w.ShortPuts
  | .put _ _ buf _ _ _ => Nat.decLt buf.length UInt32.size
  | .acquire .. | .release .. | .get .. | .getattr .. | .fetchAttr _ | .remove .. | .flush ..
  | .flushRemoval _ => isTrue trivial

/-- The maps of the server and of every client have the same keys and the right sizes, and the
queues of every client list its keys. -/
structure Consistent (w : Sharing Clt) : Prop where
  serverKeys : ∀ id, (w.server.extents.find id).isSome = (w.server.extentAttrs.find id).isSome
  server : w.server.Sized
  clientKeys : ∀ c id,
    ((w.clients c).extents.find id).isSome = ((w.clients c).extentAttrs.find id).isSome
  clients : ∀ c, (w.clients c).Accounted

/-- While a client fetches an id, the server keeps the contents that it has sent. -/
structure Matched (w : Sharing Clt) : Prop where
  server : w.server.Sized
  clients : ∀ c, (w.clients c).Accounted
  fetching : ∀ c eid buf isGet, w.pc c = .fetching eid buf isGet →
    w.holder eid = some c ∧ w.server.extents.find eid = some buf
  flushing : ∀ c eid, w.pc c = .flushing eid → w.holder eid = some c

theorem Matched.consistent {w : Sharing Clt} (h : w.Matched) : w.Consistent :=
  ⟨w.server.sameKeys, h.server, fun c => (w.clients c).sameKeys, h.clients⟩

theorem start_matched : (start : Sharing Clt).Matched where
  server := ExtentServer.new_sized
  clients _ := ExtentClient.new_accounted
  fetching _ _ _ _ h := by cases h
  flushing _ _ h := by cases h

theorem Matched.onlyAt {w w' : Sharing Clt} (h : w.Matched) {c : Clt} {eid : ExtentId}
    (hheld : w.holder eid = some c) (hholder : w'.holder = w.holder)
    (hclients : ∀ d, d ≠ c → w'.clients d = w.clients d) (hclient : (w'.clients c).Accounted)
    (hserver : w'.server.Sized)
    (hfind : ∀ id, id ≠ eid → w'.server.extents.find id = w.server.extents.find id)
    (hpcs : ∀ d, d ≠ c → w'.pc d = w.pc d)
    (hpc : w'.pc c = .idle ∨ w'.pc c = .flushing eid ∨ ∃ buf isGet,
      w'.pc c = .fetching eid buf isGet ∧ w'.server.extents.find eid = some buf) :
    w'.Matched := by
  refine ⟨hserver, fun d => ?_, fun d id buf isGet hd => ?_, fun d id hd => ?_⟩
  · by_cases hdc : d = c
    · subst hdc
      exact hclient
    · rw [hclients d hdc]
      exact h.clients d
  · rw [hholder]
    by_cases hdc : d = c
    · subst hdc
      rcases hpc with hpc | hpc | ⟨b, g, hpc, hb⟩
      · rw [hpc] at hd
        cases hd
      · rw [hpc] at hd
        cases hd
      · rw [hpc] at hd
        cases hd
        exact ⟨hheld, hb⟩
    · obtain ⟨hh, hb⟩ := h.fetching d id buf isGet (hpcs d hdc ▸ hd)
      -- Another client holds another id.
      have hid : id ≠ eid := fun he => hdc (Option.some.inj (hh.symm.trans (he ▸ hheld)))
      exact ⟨hh, (hfind id hid).trans hb⟩
  · rw [hholder]
    by_cases hdc : d = c
    · subst hdc
      rcases hpc with hpc | hpc | ⟨b, g, hpc, -⟩
      · rw [hpc] at hd
        cases hd
      · rw [hpc] at hd
        cases hd
        exact hheld
      · rw [hpc] at hd
        cases hd
    · exact h.flushing d id (hpcs d hdc ▸ hd)

theorem Matched.record {w : Sharing Clt} (h : w.Matched) (e : Event Clt) : (w.record e).Matched :=
  ⟨h.server, h.clients, h.fetching, h.flushing⟩

variable [DecidableEq Clt]

theorem Matched.acquire {w w' : Sharing Clt} (h : w.Matched) {c : Clt} {eid : ExtentId}
    (hs : w.step (.acquire c eid) = some w') : w'.Matched := by
  simp only [step] at hs
  split at hs
  · rename_i hnone
    cases hs
    have hkeep : ∀ {id d}, w.holder id = some d →
        Function.update w.holder eid (some c) id = some d := by
      intro id d hd
      have hid : id ≠ eid := fun he => by rw [he, hnone] at hd; cases hd
      rwa [Function.update_of_ne hid]
    exact ⟨h.server, h.clients,
      fun d id buf isGet hd => ⟨hkeep (h.fetching d id buf isGet hd).1,
        (h.fetching d id buf isGet hd).2⟩,
      fun d id hd => hkeep (h.flushing d id hd)⟩
  · cases hs

theorem Matched.release {w w' : Sharing Clt} (h : w.Matched) {c : Clt} {eid : ExtentId}
    (hs : w.freeStep (.release c eid) = some w') : w'.Matched := by
  simp only [freeStep] at hs
  split at hs
  · rename_i hpre
    obtain ⟨hheld, hcall⟩ := hpre
    cases hs
    have hkeep : ∀ {id d}, w.holder id = some d → (d = c → id ≠ eid) →
        Function.update w.holder eid none id = some d := by
      intro id d hd hne
      have hid : id ≠ eid := by
        rintro rfl
        exact hne (Option.some.inj (hd.symm.trans hheld)) rfl
      rwa [Function.update_of_ne hid]
    refine ⟨h.server, h.clients, fun d id buf isGet hd => ?_, fun d id hd => ?_⟩
    · obtain ⟨hh, hb⟩ := h.fetching d id buf isGet hd
      refine ⟨hkeep hh ?_, hb⟩
      rintro rfl rfl
      exact hcall (by simp only [InCall, show w.pc d = _ from hd])
    · refine hkeep (h.flushing d id hd) ?_
      rintro rfl rfl
      exact hcall (by simp only [InCall, show w.pc d = _ from hd])
  · cases hs

theorem Matched.startFetch {w : Sharing Clt} (h : w.Matched) {c : Clt} {eid : ExtentId}
    (hcall : w.CanCall c eid) (now : UInt32) (isGet : Bool) :
    ((w.setFlushed eid false).startFetch c eid now isGet).Matched := by
  have hsized := h.server.get eid now
  have hext := ExtentServer.get_extents w.server eid now
  have hserver : (w.setFlushed eid false).server = w.server := rfl
  unfold Sharing.startFetch
  rw [hserver]
  cases hs : w.server.extents.find eid with
  | some buf =>
    have hget : w.server.get eid now = ((.ok, some buf), (w.server.get eid now).2) :=
      Prod.ext (ExtentServer.get_eq_of_find hs now) rfl
    rw [hget]
    refine h.onlyAt hcall.1 rfl (fun _ _ => rfl) (h.clients c) hsized (fun id _ => ?_)
      (fun d hd => ?_) (.inr (.inr ⟨buf, isGet, ?_, ?_⟩))
    · exact congrArg (fun m => m.find id) hext
    · simp [setPc, setFlushed, hd]
    · simp [setPc]
    · exact (congrArg (fun m => m.find eid) hext).trans hs
  | none =>
    rw [ExtentServer.get_eq_of_not_find hs]
    cases isGet with
    | true =>
      exact h.onlyAt hcall.1 rfl (fun _ _ => rfl) (h.clients c) h.server (fun _ _ => rfl)
        (fun _ _ => rfl) (.inl hcall.2)
    | false =>
      exact h.onlyAt hcall.1 rfl (fun _ _ => rfl) (h.clients c) h.server (fun _ _ => rfl)
        (fun _ _ => rfl) (.inl hcall.2)

/-- The attributes that arrive belong to the contents that arrived before. -/
theorem Matched.fetchAttr {w w' : Sharing Clt} (h : w.Matched) {c : Clt}
    (hs : w.step (.fetchAttr c) = some w') : w'.Matched := by
  cases hpc : w.pc c with
  | fetching eid buf isGet =>
    obtain ⟨hheld, hbuf⟩ := h.fetching c eid buf isGet hpc
    obtain ⟨attr, hattr, hsize⟩ := h.server.getattr hbuf
    simp only [step, hpc, hattr, ExtentClient.cacheFetched, Option.some.injEq] at hs
    have hclient := (h.clients c).entered eid hsize
    have hdone : ((w.setClient c (((w.clients c).withLocal ((w.clients c).toExtentServer.put eid buf
        attr).2).addExtentToModifiedQueues eid)).setPc c .idle).Matched := by
      refine h.onlyAt hheld rfl (fun d hd => ?_) ?_ h.server (fun _ _ => rfl) (fun d hd => ?_)
        (.inl ?_)
      · simp [setPc, setClient, hd]
      · simpa [setPc, setClient] using hclient
      · simp [setPc, setClient, hd]
      · simp [setPc]
    subst hs
    cases isGet with
    | true => exact hdone.record _
    | false => exact hdone
  | idle => simp [step, hpc] at hs
  | flushing eid => simp [step, hpc] at hs

theorem Matched.local {w : Sharing Clt} (h : w.Matched) {c : Clt} {eid : ExtentId}
    (hcall : w.CanCall c eid) {client : ExtentClient} (hclient : client.Accounted) :
    ((w.setFlushed eid false).setClient c client).Matched := by
  refine h.onlyAt hcall.1 rfl (fun d hd => ?_) ?_ h.server (fun _ _ => rfl) (fun _ _ => rfl)
    (.inl hcall.2)
  · simp [setClient, setFlushed, hd]
  · simpa [setClient] using hclient

theorem Matched.flush {w : Sharing Clt} (h : w.Matched) {c : Clt} {eid : ExtentId}
    (hheld : w.holder eid = some c) {client : ExtentClient} {server : ExtentServer} {pc : Pc}
    (hclient : client.Accounted) (hserver : server.Sized)
    (hfind : ∀ id, id ≠ eid → server.extents.find id = w.server.extents.find id)
    (hpc : pc = .idle ∨ pc = .flushing eid) (b : Bool) :
    ((({ w with server }.setClient c client).setPc c pc).setFlushed eid b).Matched := by
  refine h.onlyAt hheld rfl (fun d hd => ?_) ?_ hserver hfind (fun d hd => ?_) ?_
  · simp [setClient, setPc, setFlushed, hd]
  · simpa [setClient, setPc, setFlushed] using hclient
  · simp [setClient, setPc, setFlushed, hd]
  · rcases hpc with rfl | rfl
    · exact .inl (by simp [setPc, setFlushed])
    · exact .inr (.inl (by simp [setPc, setFlushed]))

theorem Matched.step {w w' : Sharing Clt} {a : Action Clt} (h : w.Matched) (hok : w.ShortPuts a)
    (hs : w.freeStep a = some w') : w'.Matched := by
  cases a with
  | acquire c eid => exact h.acquire hs
  | release c eid => exact h.release hs
  | get c eid now =>
    simp only [freeStep, Sharing.step] at hs
    split at hs
    · rename_i hcall
      split at hs
      · cases hs
        exact (h.local hcall ((h.clients c).getCached eid now)).record _
      · cases hs
        exact h.startFetch hcall now true
    · cases hs
  | getattr c eid now =>
    simp only [freeStep, Sharing.step] at hs
    split at hs
    · rename_i hcall
      split at hs
      · cases hs
        exact ⟨h.server, h.clients, h.fetching, h.flushing⟩
      · cases hs
        exact h.startFetch hcall now false
    · cases hs
  | fetchAttr c => exact h.fetchAttr hs
  | put c eid buf mtime ctime atime =>
    simp only [freeStep, Sharing.step] at hs
    split at hs
    · rename_i hcall
      cases hs
      exact (h.local hcall ((h.clients c).put eid hok mtime ctime atime)).record _
    · cases hs
  | remove c eid =>
    simp only [freeStep, Sharing.step] at hs
    split at hs
    · rename_i hcall
      cases hs
      exact h.local hcall ((h.clients c).remove eid)
    · cases hs
  | flush c eid =>
    simp only [freeStep, Sharing.step] at hs
    split at hs
    · rename_i hcall
      cases hs
      obtain ⟨hclient, hserver⟩ := (h.clients c).flushModified h.server eid
      exact h.flush hcall.1 hclient hserver
        (fun _ hid => ExtentClient.flushModified_server _ _ hid) (.inr rfl) false
    · cases hs
  | flushRemoval c =>
    simp only [freeStep, Sharing.step] at hs
    split at hs
    · rename_i eid hpc
      cases hs
      obtain ⟨hclient, hserver⟩ := (h.clients c).flushRemoved h.server eid
      exact h.flush (h.flushing c eid hpc) hclient hserver
        (fun _ hid => ExtentClient.flushRemoved_server _ _ hid) (.inl rfl) true
    · cases hs

theorem matched_of_reachable {w : Sharing Clt} (h : freeSystem.ReachableWhile ShortPuts w) :
    w.Matched :=
  h.invariant (fun _ hw => hw ▸ start_matched) fun _ _ _ hm hok hs => hm.step hok hs

end Sharing
end Extent
end Frangipani
