/-
The caching extent client.

The client answers from a local extent server and reaches the remote one in
three places: a read or an attribute read of an id that is not cached, and
`flush`.  An id is listed in the two modified queues from the time it is put or
fetched until it is flushed, and in `removedExtents` from the time it is removed
locally until the removal has reached the server.

Each call holds `extent_mutex` from its first line to its last, remote calls
included, so the calls of one client do not overlap.  A call enters itself in
`waiting_threads` and leaves it under that mutex, so a call always finds itself
at the front and never waits there.
-/
import Mathlib.Data.List.Nodup
import Frangipani.Extent.Server

namespace Frangipani
namespace Extent

@[ext] structure ExtentClient extends ExtentServer where
  modifiedExtents : List ExtentId
  modifiedExtentAttributes : List ExtentId
  removedExtents : List ExtentId

namespace ExtentClient

def new : ExtentClient :=
  { ExtentServer.new with
    modifiedExtents := [], modifiedExtentAttributes := [], removedExtents := [] }

/-- The client with its local extent server replaced. -/
def withLocal (c : ExtentClient) (l : ExtentServer) : ExtentClient :=
  { c with toExtentServer := l }

/-- Append `eid` unless the queue already holds it. -/
def enqueue (queue : List ExtentId) (eid : ExtentId) : List ExtentId :=
  if eid ∈ queue then queue else queue ++ [eid]

def addExtentToModifiedQueues (c : ExtentClient) (eid : ExtentId) : ExtentClient :=
  { c with
    modifiedExtents := enqueue c.modifiedExtents eid
    modifiedExtentAttributes := enqueue c.modifiedExtentAttributes eid
    removedExtents := c.removedExtents.erase eid }

/-- The second half of `get_and_cache_extent_from_server`: the buffer has
arrived and the attribute call answers with `res`. -/
def cacheFetched (c : ExtentClient) (eid : ExtentId) (buf : Buffer) (res : Status × Option Attr) :
    Reply × ExtentClient :=
  match res with
  | (.ok, some attr) =>
    ((.ok, some buf),
      (c.withLocal (c.toExtentServer.put eid buf attr).2).addExtentToModifiedQueues eid)
  | (status, _) => ((status, some buf), c)

/-- Fetch an id from the server, first its buffer and then its attributes. -/
def getAndCacheExtentFromServer (c : ExtentClient) (server : ExtentServer) (eid : ExtentId)
    (now : UInt32) : Reply × ExtentClient × ExtentServer :=
  match server.get eid now with
  | ((.ok, some buf), server) =>
    let (reply, c) := c.cacheFetched eid buf (server.getattr eid)
    (reply, c, server)
  | (reply, server) => (reply, c, server)

def get (c : ExtentClient) (server : ExtentServer) (eid : ExtentId) (now : UInt32) :
    Reply × ExtentClient × ExtentServer :=
  if (c.extents.find eid).isSome then
    let (reply, l) := c.toExtentServer.get eid now
    (reply, c.withLocal l, server)
  else
    c.getAndCacheExtentFromServer server eid now

/-- An id that is not cached is fetched, and the second of the two remote calls fills the
attributes. -/
def getattr (c : ExtentClient) (server : ExtentServer) (eid : ExtentId) (now : UInt32) :
    (Status × Option Attr) × ExtentClient × ExtentServer :=
  if (c.extentAttrs.find eid).isSome then (c.toExtentServer.getattr eid, c, server)
  else
    let (reply, c, server) := c.getAndCacheExtentFromServer server eid now
    ((reply.1, (server.getattr eid).2), c, server)

/-- The three arguments are the values of the three calls of `time(0)`. -/
def put (c : ExtentClient) (eid : ExtentId) (buf : Buffer) (mtime ctime atime : UInt32) :
    Status × ExtentClient :=
  let attr : Attr := { atime, mtime, ctime, size := .ofNat buf.length }
  match c.toExtentServer.put eid buf attr with
  | (.ok, l) => (.ok, (c.withLocal l).addExtentToModifiedQueues eid)
  | (status, l) => (status, c.withLocal l)

/-- Only the local maps are consulted. -/
def remove (c : ExtentClient) (eid : ExtentId) : Status × ExtentClient :=
  match c.toExtentServer.remove eid with
  | (.ok, l) =>
    (.ok,
      { c.withLocal l with
        removedExtents := c.removedExtents ++ [eid]
        modifiedExtents := c.modifiedExtents.erase eid
        modifiedExtentAttributes := c.modifiedExtentAttributes.erase eid })
  | (status, l) => (status, c.withLocal l)

/-- The first half of `flush`: write a modified extent back and drop it from the
cache. -/
def flushModified (c : ExtentClient) (server : ExtentServer) (eid : ExtentId) :
    ExtentClient × ExtentServer :=
  if eid ∈ c.modifiedExtents then
    let buf := (c.extents.find eid).getD []
    let attr := (c.extentAttrs.find eid).getD default
    match server.put eid buf attr with
    | (.ok, server) =>
      ({ c with
          modifiedExtents := c.modifiedExtents.filter (· ≠ eid)
          modifiedExtentAttributes := c.modifiedExtentAttributes.filter (· ≠ eid)
          extents := c.extents.erase eid
          extentAttrs := c.extentAttrs.erase eid
          sameKeys := fun k => by
            by_cases h : k = eid
            · simp [h]
            · simpa [h] using c.sameKeys k }, server)
    | (_, server) => (c, server)
  else (c, server)

/-- The second half of `flush`: pass a pending removal on.  The id stays pending
when the server answers anything but `OK`. -/
def flushRemoved (c : ExtentClient) (server : ExtentServer) (eid : ExtentId) :
    ExtentClient × ExtentServer :=
  if eid ∈ c.removedExtents then
    match server.remove eid with
    | (.ok, server) => ({ c with removedExtents := c.removedExtents.filter (· ≠ eid) }, server)
    | (_, server) => (c, server)
  else (c, server)

def flush (c : ExtentClient) (server : ExtentServer) (eid : ExtentId) :
    ExtentClient × ExtentServer :=
  let (c, server) := c.flushModified server eid
  c.flushRemoved server eid

theorem mem_enqueue {queue : List ExtentId} {eid id : ExtentId} :
    id ∈ enqueue queue eid ↔ id = eid ∨ id ∈ queue := by
  unfold enqueue
  split
  · next h =>
    constructor
    · exact Or.inr
    · rintro (rfl | h') <;> assumption
  · simp [or_comm]

theorem enqueue_nodup {queue : List ExtentId} (h : queue.Nodup) (eid : ExtentId) :
    (enqueue queue eid).Nodup := by
  unfold enqueue
  split
  · exact h
  · rename_i hnot
    rw [← List.concat_eq_append]
    exact List.Nodup.concat hnot h

/-! ## What each operation does to the local maps and the queues -/

section Effects

variable (c : ExtentClient) (server : ExtentServer) (eid : ExtentId)

variable {c eid}

theorem get_cached {buf : Buffer} (h : c.extents.find eid = some buf) (now : UInt32) :
    c.get server eid now =
      ((.ok, some buf), c.withLocal (c.toExtentServer.get eid now).2, server) := by
  simp [get, h, ExtentServer.get_eq_of_find h now]

variable {server}

theorem get_missing (h : c.extents.find eid = none) (hs : server.extents.find eid = none)
    (now : UInt32) : c.get server eid now = ((.noent, none), c, server) := by
  simp [get, h, getAndCacheExtentFromServer, ExtentServer.get_eq_of_not_find hs now]

theorem get_fetched {buf : Buffer} (h : c.extents.find eid = none)
    (hs : server.extents.find eid = some buf) (now : UInt32) :
    ∃ attr, c.get server eid now =
      ((.ok, some buf),
        (c.withLocal (c.toExtentServer.put eid buf attr).2).addExtentToModifiedQueues eid,
        (server.get eid now).2) := by
  have hreply := ExtentServer.get_eq_of_find hs now
  have hs' : (server.get eid now).2.extents.find eid = some buf := by simpa using hs
  obtain ⟨attr, hattr⟩ := ExtentServer.getattr_eq_of_find hs'
  refine ⟨attr, ?_⟩
  have hsplit : server.get eid now = ((.ok, some buf), (server.get eid now).2) :=
    Prod.ext hreply rfl
  simp only [get, h, Option.isSome_none, Bool.false_eq_true, if_false,
    getAndCacheExtentFromServer]
  rw [hsplit]
  simp [hattr, cacheFetched]

theorem remove_cached {buf : Buffer} (h : c.extents.find eid = some buf) :
    (c.remove eid).1 = .ok ∧
      (c.remove eid).2.extents = c.extents.erase eid ∧
      (c.remove eid).2.modifiedExtents = c.modifiedExtents.erase eid ∧
      (c.remove eid).2.removedExtents = c.removedExtents ++ [eid] := by
  obtain ⟨hst, hext⟩ := ExtentServer.remove_of_find h
  have hsplit : c.toExtentServer.remove eid = (.ok, (c.toExtentServer.remove eid).2) :=
    Prod.ext hst rfl
  unfold remove
  rw [hsplit]
  exact ⟨rfl, hext, rfl, rfl⟩

theorem remove_uncached (h : c.extents.find eid = none) : c.remove eid = (.noent, c) := by
  simp [remove, ExtentServer.remove_of_not_find h, withLocal]

theorem flushModified_of_not_mem (h : eid ∉ c.modifiedExtents) :
    c.flushModified server eid = (c, server) := by
  simp [flushModified, h]

theorem flushModified_of_mem (server : ExtentServer) {buf : Buffer} (h : eid ∈ c.modifiedExtents)
    (hbuf : c.extents.find eid = some buf) :
    (c.flushModified server eid).1.extents = c.extents.erase eid ∧
      (c.flushModified server eid).1.modifiedExtents = c.modifiedExtents.filter (· ≠ eid) ∧
      (c.flushModified server eid).1.removedExtents = c.removedExtents ∧
      (c.flushModified server eid).2.extents = server.extents.insert eid buf := by
  simp [flushModified, h, hbuf, ExtentServer.put]

theorem flushRemoved_of_not_mem (h : eid ∉ c.removedExtents) :
    c.flushRemoved server eid = (c, server) := by
  simp [flushRemoved, h]

theorem flushRemoved_of_missing (hs : server.extents.find eid = none) :
    c.flushRemoved server eid = (c, server) := by
  simp [flushRemoved, ExtentServer.remove_of_not_find hs]

theorem flushRemoved_of_mem {buf : Buffer} (h : eid ∈ c.removedExtents)
    (hs : server.extents.find eid = some buf) :
    (c.flushRemoved server eid).1 = { c with removedExtents := c.removedExtents.filter (· ≠ eid) } ∧
      (c.flushRemoved server eid).2.extents = server.extents.erase eid := by
  obtain ⟨hst, hext⟩ := ExtentServer.remove_of_find hs
  have hsplit : server.remove eid = (.ok, (server.remove eid).2) := Prod.ext hst rfl
  simp only [flushRemoved, h, if_true]
  rw [hsplit]
  exact ⟨rfl, hext⟩

end Effects

end ExtentClient
end Extent
end Frangipani
