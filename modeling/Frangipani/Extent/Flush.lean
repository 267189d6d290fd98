/-
What a flush leaves behind in a client.

An id is in up to five collections of a client: the two maps, the two modified queues
and the list of pending removals.  A flush clears the first four when the server has
taken the extent, and the last one when the server has removed it.  The server answers
a removal with `NOENT` when it has no extent of the id, and the client then keeps the
removal pending.  So a flush leaves nothing behind exactly when the server has the
extent whose removal is pending.

The server may have anything at each call, since other clients use it in between.
-/
import Frangipani.Extent.Removal

namespace Frangipani
namespace Extent

open Transition

/-- A call on a client, with the server as it is then. -/
inductive ServedCall
  | get (eid : ExtentId) (now : UInt32) (server : ExtentServer)
  | getattr (eid : ExtentId) (now : UInt32) (server : ExtentServer)
  | put (eid : ExtentId) (buf : Buffer) (mtime ctime atime : UInt32)
  | remove (eid : ExtentId)
  | flush (eid : ExtentId) (server : ExtentServer)

/-- The remote calls of `flush`. -/
inductive FlushRpc
  | put (buf : Buffer) (attr : Attr)
  | remove
  deriving DecidableEq

namespace ExtentClient

/-- The client after a call. -/
def after (c : ExtentClient) : ServedCall → ExtentClient
  | .get eid now server => (c.get server eid now).2.1
  | .getattr eid now server => (c.getattr server eid now).2.1
  | .put eid buf mtime ctime atime => (c.put eid buf mtime ctime atime).2
  | .remove eid => (c.remove eid).2
  | .flush eid server => (c.flush server eid).1

def system : System ExtentClient ServedCall where
  init c := c = .new
  step c call := some (c.after call)

/-- What `flush` sends to the server, in this order. -/
def flushRpcs (c : ExtentClient) (server : ExtentServer) (eid : ExtentId) : List FlushRpc :=
  (if eid ∈ c.modifiedExtents then
    [.put ((c.extents.find eid).getD []) ((c.extentAttrs.find eid).getD default)] else []) ++
  (if eid ∈ (c.flushModified server eid).1.removedExtents then [.remove] else [])

/-- The id is in none of the five collections. -/
structure Clear (c : ExtentClient) (eid : ExtentId) : Prop where
  extents : c.extents.find eid = none
  extentAttrs : c.extentAttrs.find eid = none
  modifiedExtents : eid ∉ c.modifiedExtents
  modifiedExtentAttributes : eid ∉ c.modifiedExtentAttributes
  removedExtents : eid ∉ c.removedExtents

/-- The entries of all other ids are the same in both clients, in the same order. -/
structure SameElsewhere (c d : ExtentClient) (eid : ExtentId) : Prop where
  extents : ∀ id, id ≠ eid → d.extents.find id = c.extents.find id
  extentAttrs : ∀ id, id ≠ eid → d.extentAttrs.find id = c.extentAttrs.find id
  modifiedExtents : d.modifiedExtents.filter (· ≠ eid) = c.modifiedExtents.filter (· ≠ eid)
  modifiedExtentAttributes :
    d.modifiedExtentAttributes.filter (· ≠ eid) = c.modifiedExtentAttributes.filter (· ≠ eid)
  removedExtents : d.removedExtents.filter (· ≠ eid) = c.removedExtents.filter (· ≠ eid)

/-- After the flush the id is nowhere, the other ids are as before, and a second flush does
nothing, whatever the server has by then. -/
structure LeavesNothing (c : ExtentClient) (server : ExtentServer) (eid : ExtentId) : Prop where
  clear : (c.flush server eid).1.Clear eid
  elsewhere : c.SameElsewhere (c.flush server eid).1 eid
  silent : ∀ later, (c.flush server eid).1.flushRpcs later eid = [] ∧
    ((c.flush server eid).1.flush later eid).2 = later

/-! ## The clients that calls lead to -/

/-- The queues list what is cached, and what is pending removal is listed once and not cached. -/
structure Tidy (c : ExtentClient) : Prop where
  queued : c.Queued
  pendingNodup : c.removedExtents.Nodup
  pendingUncached : ∀ eid ∈ c.removedExtents, c.extents.find eid = none

variable {c : ExtentClient}

theorem new_tidy : new.Tidy :=
  ⟨new_queued, List.nodup_nil, fun _ h => absurd h List.not_mem_nil⟩

/-- An id that enters the cache is not pending removal any more. -/
theorem Tidy.entered (h : c.Tidy) (eid : ExtentId) (buf : Buffer) (attr : Attr) :
    ((c.withLocal (c.toExtentServer.put eid buf attr).2).addExtentToModifiedQueues
      eid).Tidy where
  queued := h.queued.entered eid buf attr
  pendingNodup := h.pendingNodup.erase eid
  pendingUncached id hid := by
    obtain ⟨hne, hmem⟩ := h.pendingNodup.mem_erase_iff.mp hid
    exact (Map.find_insert_ne _ _ hne).trans (h.pendingUncached id hmem)

theorem Tidy.getCached (h : c.Tidy) (eid : ExtentId) (now : UInt32) :
    (c.withLocal (c.toExtentServer.get eid now).2).Tidy where
  queued := h.queued.getCached eid now
  pendingNodup := h.pendingNodup
  pendingUncached id hid :=
    (congrArg (fun m => m.find id) (ExtentServer.get_extents ..)).trans (h.pendingUncached id hid)

theorem Tidy.fetch (h : c.Tidy) (server : ExtentServer) (eid : ExtentId) (now : UInt32) :
    (c.getAndCacheExtentFromServer server eid now).2.1.Tidy := by
  have hcached : ∀ buf res, (c.cacheFetched eid buf res).2.Tidy := by
    intro buf res
    unfold cacheFetched
    split
    · exact h.entered eid buf _
    · exact h
  unfold getAndCacheExtentFromServer
  split
  · exact hcached _ _
  · exact h

theorem Tidy.get (h : c.Tidy) (server : ExtentServer) (eid : ExtentId) (now : UInt32) :
    (c.get server eid now).2.1.Tidy := by
  unfold ExtentClient.get
  split
  · exact h.getCached eid now
  · exact h.fetch server eid now

theorem Tidy.getattr (h : c.Tidy) (server : ExtentServer) (eid : ExtentId) (now : UInt32) :
    (c.getattr server eid now).2.1.Tidy := by
  unfold ExtentClient.getattr
  split
  · exact h
  · exact h.fetch server eid now

theorem Tidy.remove (h : c.Tidy) (eid : ExtentId) : (c.remove eid).2.Tidy := by
  cases hbuf : c.extents.find eid with
  | none =>
    rw [remove_uncached hbuf]
    exact h
  | some buf =>
    obtain ⟨-, hext, -, hrem⟩ := remove_cached hbuf
    have hnot : eid ∉ c.removedExtents := fun hmem => by
      rw [h.pendingUncached eid hmem] at hbuf
      cases hbuf
    refine ⟨h.queued.remove eid, ?_, fun id hid => ?_⟩
    · rw [hrem, ← List.concat_eq_append]
      exact List.Nodup.concat hnot h.pendingNodup
    · rw [hrem] at hid
      rcases List.mem_append.mp hid with hid | hid
      · rw [hext, Map.find_erase]
        split
        · rfl
        · exact h.pendingUncached id hid
      · rw [List.mem_singleton.mp hid, hext, Map.find_erase_self]

theorem flushModified_removedExtents (c : ExtentClient) (server : ExtentServer) (eid : ExtentId) :
    (c.flushModified server eid).1.removedExtents = c.removedExtents := by
  unfold flushModified
  split <;> rfl

theorem Tidy.flushModified (h : c.Tidy) (server : ExtentServer) (eid : ExtentId) :
    (c.flushModified server eid).1.Tidy := by
  have hrem := flushModified_removedExtents c server eid
  refine ⟨h.queued.flushModified server eid, hrem ▸ h.pendingNodup, fun id hid => ?_⟩
  rw [hrem] at hid
  by_cases hne : id = eid
  · rw [hne]
    exact h.queued.flushModified_uncached server eid
  · rw [flushModified_find c server hne]
    exact h.pendingUncached id hid

theorem Tidy.flushRemoved (h : c.Tidy) (server : ExtentServer) (eid : ExtentId) :
    (c.flushRemoved server eid).1.Tidy := by
  refine ⟨h.queued.flushRemoved server eid, ?_, ?_⟩
  all_goals unfold ExtentClient.flushRemoved
  all_goals split
  all_goals try split
  · exact h.pendingNodup.filter _
  · exact h.pendingNodup
  · exact h.pendingNodup
  · exact fun id hid => h.pendingUncached id (List.mem_filter.mp hid).1
  · exact h.pendingUncached
  · exact h.pendingUncached

theorem Tidy.flush (h : c.Tidy) (server : ExtentServer) (eid : ExtentId) :
    (c.flush server eid).1.Tidy :=
  (h.flushModified server eid).flushRemoved _ eid

theorem Tidy.after (h : c.Tidy) (call : ServedCall) : (c.after call).Tidy := by
  cases call with
  | get eid now server => exact h.get server eid now
  | getattr eid now server => exact h.getattr server eid now
  | put eid buf mtime ctime atime => exact h.entered eid buf _
  | remove eid => exact h.remove eid
  | flush eid server => exact h.flush server eid

theorem tidy_of_reachable (h : system.Reachable c) : c.Tidy :=
  System.Reachable.invariant (fun _ hc => hc ▸ new_tidy)
    (fun _ call _ hc hs => Option.some.inj hs ▸ hc.after call) h

/-! ## What a flush leaves -/

theorem Tidy.flush_uncached (h : c.Tidy) (server : ExtentServer) (eid : ExtentId) :
    (c.flush server eid).1.extents.find eid = none := by
  have hlocal := (flushRemoved_effect (c.flushModified server eid).1
    (c.flushModified server eid).2 eid).1
  have hext := congrArg ExtentServer.extents hlocal
  exact (congrArg (fun m => m.find eid) hext).trans
    (h.queued.flushModified_uncached server eid)

theorem Tidy.clear (h : c.Tidy) {eid : ExtentId} (hcache : c.extents.find eid = none)
    (hpending : eid ∉ c.removedExtents) : c.Clear eid := by
  have hattrs : (c.extentAttrs.find eid).isSome = false := by
    rw [← c.sameKeys eid, hcache]
    rfl
  have hmod := h.queued.mem eid
  have hmodAttrs := h.queued.memAttributes eid
  rw [hcache] at hmod
  rw [hattrs] at hmodAttrs
  exact ⟨hcache, Option.isSome_eq_false_iff.mp hattrs |> Option.isNone_iff_eq_none.mp,
    fun hmem => absurd (hmod.mp hmem) (by decide),
    fun hmem => absurd (hmodAttrs.mp hmem) (by decide), hpending⟩

/-- What is pending removal after a flush: the id stays if the server has no extent of it. -/
theorem Tidy.flush_removedExtents (h : c.Tidy) (server : ExtentServer) (eid : ExtentId) :
    eid ∈ (c.flush server eid).1.removedExtents ↔
      eid ∈ c.removedExtents ∧ server.extents.find eid = none := by
  by_cases hpending : eid ∈ c.removedExtents
  · -- What is pending is not cached, so the first half has nothing to write back.
    have hnot : eid ∉ c.modifiedExtents := fun hmem => by
      have hsome := (h.queued.mem eid).mp hmem
      rw [h.pendingUncached eid hpending] at hsome
      cases hsome
    have hflush : c.flush server eid = c.flushRemoved server eid := by
      rw [ExtentClient.flush, flushModified_of_not_mem hnot]
    rw [hflush]
    cases hbuf : server.extents.find eid with
    | none =>
      rw [flushRemoved_of_missing hbuf]
      exact ⟨fun hmem => ⟨hmem, rfl⟩, fun hmem => hmem.1⟩
    | some buf =>
      rw [(flushRemoved_of_mem hpending hbuf).1]
      exact ⟨fun hmem => absurd rfl (of_decide_eq_true (List.mem_filter.mp hmem).2),
        fun hmem => absurd hmem.2 (Option.some_ne_none buf)⟩
  · have hnot : eid ∉ (c.flushModified server eid).1.removedExtents := by
      rw [flushModified_removedExtents]
      exact hpending
    have hflush : c.flush server eid = c.flushModified server eid :=
      flushRemoved_of_not_mem hnot
    rw [hflush, flushModified_removedExtents]
    exact ⟨fun hmem => absurd hmem hpending, fun hmem => hmem.1⟩

theorem SameElsewhere.trans {d e : ExtentClient} {eid : ExtentId} (h : c.SameElsewhere d eid)
    (h' : d.SameElsewhere e eid) : c.SameElsewhere e eid where
  extents id hid := (h'.extents id hid).trans (h.extents id hid)
  extentAttrs id hid := (h'.extentAttrs id hid).trans (h.extentAttrs id hid)
  modifiedExtents := h'.modifiedExtents.trans h.modifiedExtents
  modifiedExtentAttributes := h'.modifiedExtentAttributes.trans h.modifiedExtentAttributes
  removedExtents := h'.removedExtents.trans h.removedExtents

theorem filter_ne_filter_ne (queue : List ExtentId) (eid : ExtentId) :
    (queue.filter (· ≠ eid)).filter (· ≠ eid) = queue.filter (· ≠ eid) := by
  rw [List.filter_filter]
  simp only [Bool.and_self]

theorem flushModified_sameElsewhere (c : ExtentClient) (server : ExtentServer) (eid : ExtentId) :
    c.SameElsewhere (c.flushModified server eid).1 eid := by
  unfold flushModified
  split
  · exact ⟨fun id hid => Map.find_erase_ne _ hid, fun id hid => Map.find_erase_ne _ hid,
      filter_ne_filter_ne _ _, filter_ne_filter_ne _ _, rfl⟩
  · exact ⟨fun _ _ => rfl, fun _ _ => rfl, rfl, rfl, rfl⟩

theorem flushRemoved_sameElsewhere (c : ExtentClient) (server : ExtentServer) (eid : ExtentId) :
    c.SameElsewhere (c.flushRemoved server eid).1 eid := by
  unfold flushRemoved
  split
  · split
    · exact ⟨fun _ _ => rfl, fun _ _ => rfl, rfl, rfl, filter_ne_filter_ne _ _⟩
    · exact ⟨fun _ _ => rfl, fun _ _ => rfl, rfl, rfl, rfl⟩
  · exact ⟨fun _ _ => rfl, fun _ _ => rfl, rfl, rfl, rfl⟩

theorem Clear.silent {eid : ExtentId} (h : c.Clear eid) (server : ExtentServer) :
    c.flushRpcs server eid = [] ∧ (c.flush server eid).2 = server := by
  have hfirst : c.flushModified server eid = (c, server) :=
    flushModified_of_not_mem h.modifiedExtents
  constructor
  · rw [flushRpcs, if_neg h.modifiedExtents, hfirst, if_neg h.removedExtents, List.append_nil]
  · rw [ExtentClient.flush, hfirst]
    exact congrArg Prod.snd (flushRemoved_of_not_mem h.removedExtents)

/-- For every client that calls lead to and every server: a flush leaves nothing behind if and only
if the server has the extent, or its removal is not pending. -/
theorem leavesNothing_iff (hc : system.Reachable c) (server : ExtentServer) (eid : ExtentId) :
    c.LeavesNothing server eid ↔
      (eid ∈ c.removedExtents → (server.extents.find eid).isSome) := by
  have htidy := tidy_of_reachable hc
  have hpending := htidy.flush_removedExtents server eid
  constructor
  · intro h hmem
    by_contra hnone
    exact h.clear.removedExtents
      (hpending.mpr ⟨hmem, Option.not_isSome_iff_eq_none.mp hnone⟩)
  · intro h
    have hclear : (c.flush server eid).1.Clear eid := by
      refine (htidy.flush server eid).clear (htidy.flush_uncached server eid) fun hmem => ?_
      obtain ⟨hmem, hnone⟩ := hpending.mp hmem
      have hsome := h hmem
      rw [hnone] at hsome
      cases hsome
    exact ⟨hclear, (flushModified_sameElsewhere c server eid).trans
      (flushRemoved_sameElsewhere _ _ eid), hclear.silent⟩

/-- An extent that was flushed and read back is removed and flushed again. -/
theorem leavesNothing_stored :
    ∃ (c : ExtentClient) (server : ExtentServer), system.Reachable c ∧ 7 ∈ c.removedExtents ∧
      c.LeavesNothing server 7 := by
  let server := (ExtentServer.new.put 7 [104] default).2
  let calls : List ServedCall := [.get 7 0 server, .remove 7]
  have hreach : system.Reachable (system.final .new calls) :=
    System.Reachable.final calls (.init rfl) rfl
  exact ⟨_, server, hreach, by decide +kernel, (leavesNothing_iff hreach server 7).mpr fun _ => rfl⟩

/-- An extent that never was on the server is put, removed and flushed.  Its removal stays pending.
When another client has stored an extent under the id, the next flush removes it. -/
theorem unstored_leaves_removal :
    ∃ c : ExtentClient, system.Reachable c ∧ ¬ c.LeavesNothing .new 7 ∧
      7 ∈ (c.flush .new 7).1.removedExtents ∧
      (let later := (ExtentServer.new.put 7 [104] default).2
       (c.flush .new 7).1.flushRpcs later 7 = [.remove] ∧
         later.extents.find 7 = some [104] ∧
         ((c.flush .new 7).1.flush later 7).2.extents.find 7 = none) := by
  let calls : List ServedCall := [.put 7 [] 0 0 0, .remove 7]
  have hreach : system.Reachable (system.final .new calls) :=
    System.Reachable.final calls (.init rfl) rfl
  exact ⟨_, hreach, fun h => h.clear.removedExtents (by decide +kernel), by decide +kernel,
    by decide +kernel, by decide +kernel, by decide +kernel⟩

end ExtentClient
end Extent
end Frangipani
