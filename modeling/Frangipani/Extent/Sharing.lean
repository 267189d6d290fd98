/-
Any number of caching clients on one extent server.

A call on an id is made by the client that holds the id's lock, and the lock is
handed on only after the holder has flushed the id with no call on it since.
The lock itself is the pair of steps `acquire` and `release`.

A call holds its client's `extent_mutex` to the end, so each client is in at
most one call.  Calls of different clients interleave at every remote call:
a read that misses the cache is two steps, the server's `get` and its
`getattr`, and a flush is two steps, the write back and the removal.

A handler of the extent server is one step here.  In the source nothing sees to that:
`extent_server` has no mutex, and the RPC server runs its handlers in a pool of ten
threads.

`history` lists the puts and the completed reads, newest first.
-/
import Frangipani.Extent.Client
import Frangipani.Transition.System
import Mathlib.Logic.Function.Basic

namespace Frangipani
namespace Extent

open Transition

inductive Event (Clt : Type)
  | put (c : Clt) (eid : ExtentId) (buf : Buffer)
  | got (c : Clt) (eid : ExtentId) (reply : Reply)

/-- The buffer of the most recent put of `eid`. -/
def lastPut {Clt : Type} (eid : ExtentId) : List (Event Clt) → Option Buffer
  | [] => none
  | .put _ id buf :: h => if id = eid then some buf else lastPut eid h
  | .got .. :: h => lastPut eid h

def replyOf : Option Buffer → Reply
  | some buf => (.ok, some buf)
  | none => (.noent, none)

/-- Every read in the history returned the most recent put before it. -/
def ReadsLastPut {Clt : Type} : List (Event Clt) → Prop
  | [] => True
  | .put .. :: h => ReadsLastPut h
  | .got _ eid reply :: h => reply = replyOf (lastPut eid h) ∧ ReadsLastPut h

/-- Where a client is inside a call that makes two remote calls. -/
inductive Pc
  | idle
  /-- `get` or `getattr` has fetched the buffer and asks for the attributes next. -/
  | fetching (eid : ExtentId) (buf : Buffer) (isGet : Bool)
  /-- `flush` has written the extent back and looks for a removal next. -/
  | flushing (eid : ExtentId)
  deriving DecidableEq

structure Sharing (Clt : Type) where
  clients : Clt → ExtentClient
  pc : Clt → Pc
  server : ExtentServer
  holder : ExtentId → Option Clt
  /-- The holder's last call on the id was a completed flush. -/
  flushed : ExtentId → Bool
  history : List (Event Clt)

inductive Action (Clt : Type)
  | acquire (c : Clt) (eid : ExtentId)
  | release (c : Clt) (eid : ExtentId)
  | get (c : Clt) (eid : ExtentId) (now : UInt32)
  | getattr (c : Clt) (eid : ExtentId) (now : UInt32)
  | fetchAttr (c : Clt)
  | put (c : Clt) (eid : ExtentId) (buf : Buffer) (mtime ctime atime : UInt32)
  | remove (c : Clt) (eid : ExtentId)
  | flush (c : Clt) (eid : ExtentId)
  | flushRemoval (c : Clt)

namespace Sharing

variable {Clt : Type}

def setClient [DecidableEq Clt] (w : Sharing Clt) (c : Clt) (client : ExtentClient) : Sharing Clt :=
  { w with clients := Function.update w.clients c client }

def setPc [DecidableEq Clt] (w : Sharing Clt) (c : Clt) (pc : Pc) : Sharing Clt :=
  { w with pc := Function.update w.pc c pc }

def setFlushed (w : Sharing Clt) (eid : ExtentId) (b : Bool) : Sharing Clt :=
  { w with flushed := Function.update w.flushed eid b }

def record (w : Sharing Clt) (e : Event Clt) : Sharing Clt :=
  { w with history := e :: w.history }

/-- A client may start a call on an id when it holds its lock and is in no
other call. -/
def CanCall (w : Sharing Clt) (c : Clt) (eid : ExtentId) : Prop :=
  w.holder eid = some c ∧ w.pc c = .idle

instance [DecidableEq Clt] (w : Sharing Clt) (c : Clt) (eid : ExtentId) :
    Decidable (w.CanCall c eid) :=
  inferInstanceAs (Decidable (_ ∧ _))

/-- The first remote call of a fetch.  A failure ends the call. -/
def startFetch [DecidableEq Clt] (w : Sharing Clt) (c : Clt) (eid : ExtentId) (now : UInt32)
    (isGet : Bool) : Sharing Clt :=
  match w.server.get eid now with
  | ((.ok, some buf), server) => { w with server }.setPc c (.fetching eid buf isGet)
  | (reply, server) =>
    if isGet then { w with server }.record (.got c eid reply) else { w with server }

def step [DecidableEq Clt] (w : Sharing Clt) : Action Clt → Option (Sharing Clt)
  | .acquire c eid =>
    if w.holder eid = none then
      some ({ w with holder := Function.update w.holder eid (some c) }.setFlushed eid false)
    else none
  | .release c eid =>
    if w.holder eid = some c ∧ w.flushed eid = true then
      some { w with holder := Function.update w.holder eid none }
    else none
  | .get c eid now =>
    if w.CanCall c eid then
      let w := w.setFlushed eid false
      if ((w.clients c).extents.find eid).isSome then
        let (reply, l) := (w.clients c).toExtentServer.get eid now
        some ((w.setClient c ((w.clients c).withLocal l)).record (.got c eid reply))
      else some (w.startFetch c eid now true)
    else none
  | .getattr c eid now =>
    if w.CanCall c eid then
      let w := w.setFlushed eid false
      if ((w.clients c).extentAttrs.find eid).isSome then some w
      else some (w.startFetch c eid now false)
    else none
  | .fetchAttr c =>
    match w.pc c with
    | .fetching eid buf isGet =>
      let (reply, client) := (w.clients c).cacheFetched eid buf (w.server.getattr eid)
      let w := (w.setClient c client).setPc c .idle
      some (if isGet then w.record (.got c eid reply) else w)
    | _ => none
  | .put c eid buf mtime ctime atime =>
    if w.CanCall c eid then
      let (_, client) := (w.clients c).put eid buf mtime ctime atime
      some (((w.setFlushed eid false).setClient c client).record (.put c eid buf))
    else none
  | .remove c eid =>
    if w.CanCall c eid then
      let (_, client) := (w.clients c).remove eid
      some ((w.setFlushed eid false).setClient c client)
    else none
  | .flush c eid =>
    if w.CanCall c eid then
      let (client, server) := (w.clients c).flushModified w.server eid
      some ((({ w with server }.setClient c client).setPc c (.flushing eid)).setFlushed eid false)
    else none
  | .flushRemoval c =>
    match w.pc c with
    | .flushing eid =>
      let (client, server) := (w.clients c).flushRemoved w.server eid
      some ((({ w with server }.setClient c client).setPc c .idle).setFlushed eid true)
    | _ => none

/-- New clients, an empty server and no lock held. -/
def start : Sharing Clt where
  clients := fun _ => .new
  pc := fun _ => .idle
  server := .new
  holder := fun _ => none
  flushed := fun _ => false
  history := []

def system [DecidableEq Clt] : System (Sharing Clt) (Action Clt) where
  init w := w = start
  step := step

/-- The runs of reads, puts and flushes, with the locks handed on between. -/
def NoRemove (_ : Sharing Clt) : Action Clt → Prop
  | .remove .. => False
  | _ => True

/-! ## The invariant -/

structure Inv (w : Sharing Clt) : Prop where
  cached_holder : ∀ c eid, (w.clients c).extents.find eid ≠ none → w.holder eid = some c
  cached_iff : ∀ c eid,
    eid ∈ (w.clients c).modifiedExtents ↔ (w.clients c).extents.find eid ≠ none
  none_removed : ∀ c, (w.clients c).removedExtents = []
  cached_value : ∀ c eid buf,
    (w.clients c).extents.find eid = some buf → lastPut eid w.history = some buf
  server_value : ∀ eid, (∀ c, (w.clients c).extents.find eid = none) →
    w.server.extents.find eid = lastPut eid w.history
  fetching : ∀ c eid buf isGet, w.pc c = .fetching eid buf isGet →
    w.holder eid = some c ∧ (w.clients c).extents.find eid = none ∧
      w.server.extents.find eid = some buf ∧ w.flushed eid = false
  flushing : ∀ c eid, w.pc c = .flushing eid →
    w.holder eid = some c ∧ (w.clients c).extents.find eid = none ∧ w.flushed eid = false
  flushed_uncached : ∀ eid, w.flushed eid = true → ∀ c, (w.clients c).extents.find eid = none
  reads : ReadsLastPut w.history

theorem inv_start : (start : Sharing Clt).Inv where
  cached_holder := fun _ _ h => absurd rfl h
  cached_iff := fun _ _ => by simp [start, ExtentClient.new, ExtentServer.new]
  none_removed := fun _ => rfl
  cached_value := fun _ _ _ h => by simp [start, ExtentClient.new, ExtentServer.new] at h
  server_value := fun _ _ => rfl
  fetching := fun _ _ _ _ h => by simp [start] at h
  flushing := fun _ _ h => by simp [start] at h
  flushed_uncached := fun _ h => by simp [start] at h
  reads := trivial

/-- An id its holder does not cache is cached nowhere. -/
theorem Inv.uncached {w : Sharing Clt} (h : w.Inv) {c : Clt} {eid : ExtentId}
    (hh : w.holder eid = some c) (hc : (w.clients c).extents.find eid = none) (d : Clt) :
    (w.clients d).extents.find eid = none := by
  by_contra hd
  have hdc : d = c := Option.some.inj ((h.cached_holder d eid hd).symm.trans hh)
  exact hd (hdc ▸ hc)

theorem flushed_of_update {w : Sharing Clt} {eid id : ExtentId}
    (h : Function.update w.flushed eid false id = true) : w.flushed id = true := by
  by_cases hid : id = eid
  · simp [hid] at h
  · rwa [Function.update_of_ne hid] at h

theorem not_flushed_update {w : Sharing Clt} {eid id : ExtentId} (h : w.flushed id = false) :
    Function.update w.flushed eid false id = false := by
  by_cases hid : id = eid
  · simp [hid]
  · rwa [Function.update_of_ne hid]

theorem inv_acquire {w : Sharing Clt} (h : w.Inv) (c : Clt) {eid : ExtentId}
    (hh : w.holder eid = none) :
    ({ w with holder := Function.update w.holder eid (some c) }.setFlushed eid false).Inv := by
  have hholder : ∀ {id d}, w.holder id = some d →
      Function.update w.holder eid (some c) id = some d := by
    intro id d hd
    have hid : id ≠ eid := fun he => by rw [he, hh] at hd; cases hd
    rwa [Function.update_of_ne hid]
  exact
    { h with
      cached_holder := fun d id hd => hholder (h.cached_holder d id hd)
      fetching := fun d id buf isGet hd =>
        have ⟨h1, h2, h3, h4⟩ := h.fetching d id buf isGet hd
        ⟨hholder h1, h2, h3, not_flushed_update h4⟩
      flushing := fun d id hd =>
        have ⟨h1, h2, h3⟩ := h.flushing d id hd
        ⟨hholder h1, h2, not_flushed_update h3⟩
      flushed_uncached := fun id hid => h.flushed_uncached id (flushed_of_update hid) }

/-- A flushed id is cached nowhere and in no call, so its lock can go. -/
theorem inv_release {w : Sharing Clt} (h : w.Inv) {eid : ExtentId} (hf : w.flushed eid = true) :
    Inv { w with holder := Function.update w.holder eid none } := by
  have hholder : ∀ {id d}, id ≠ eid → w.holder id = some d →
      Function.update w.holder eid none id = some d := by
    intro id d hid hd
    rwa [Function.update_of_ne hid]
  have hne : ∀ {id}, w.flushed id = false → id ≠ eid := by
    rintro id hid rfl
    rw [hf] at hid
    cases hid
  exact
    { h with
      cached_holder := fun d id hd =>
        hholder (fun he => hd (he ▸ h.flushed_uncached eid hf d)) (h.cached_holder d id hd)
      fetching := fun d id buf isGet hd =>
        have ⟨h1, h2, h3, h4⟩ := h.fetching d id buf isGet hd
        ⟨hholder (hne h4) h1, h2, h3, h4⟩
      flushing := fun d id hd =>
        have ⟨h1, h2, h3⟩ := h.flushing d id hd
        ⟨hholder (hne h3) h1, h2, h3⟩ }

theorem Inv.unchanged {w w' : Sharing Clt} (h : w.Inv)
    (hext : ∀ d, (w'.clients d).extents = (w.clients d).extents)
    (hmod : ∀ d, (w'.clients d).modifiedExtents = (w.clients d).modifiedExtents)
    (hrem : ∀ d, (w'.clients d).removedExtents = (w.clients d).removedExtents)
    (hpc : w'.pc = w.pc) (hsrv : w'.server.extents = w.server.extents)
    (hholder : w'.holder = w.holder)
    (hfl : ∀ id, w'.flushed id = true → w.flushed id = true)
    (hlast : ∀ id, lastPut id w'.history = lastPut id w.history)
    (hreads : ReadsLastPut w'.history) : w'.Inv where
  cached_holder := by simpa only [hext, hholder] using h.cached_holder
  cached_iff := by simpa only [hext, hmod] using h.cached_iff
  none_removed := by simpa only [hrem] using h.none_removed
  cached_value := by simpa only [hext, hlast] using h.cached_value
  server_value := by simpa only [hext, hlast, hsrv] using h.server_value
  fetching := by
    intro d id buf isGet hd
    obtain ⟨h1, h2, h3, h4⟩ := h.fetching d id buf isGet (by rwa [← hpc])
    refine ⟨by rwa [hholder], by rwa [hext], by rwa [hsrv], ?_⟩
    by_contra hne
    rw [hfl id (by simpa using hne)] at h4
    cases h4
  flushing := by
    intro d id hd
    obtain ⟨h1, h2, h3⟩ := h.flushing d id (by rwa [← hpc])
    refine ⟨by rwa [hholder], by rwa [hext], ?_⟩
    by_contra hne
    rw [hfl id (by simpa using hne)] at h3
    cases h3
  flushed_uncached := fun id hid d => by
    rw [hext]
    exact h.flushed_uncached id (hfl id hid) d
  reads := hreads

/-- Holding the lock of `eid`, client `c` changes its cache and the server at `eid` at most. -/
structure OnlyAt (w w' : Sharing Clt) (c : Clt) (eid : ExtentId) : Prop where
  held : w.holder eid = some c
  clients : ∀ d, d ≠ c → w'.clients d = w.clients d
  find : ∀ id, id ≠ eid → (w'.clients c).extents.find id = (w.clients c).extents.find id
  pc : ∀ d, d ≠ c → w'.pc d = w.pc d
  server : ∀ id, id ≠ eid → w'.server.extents.find id = w.server.extents.find id
  holder : w'.holder = w.holder
  flushed : w'.flushed = Function.update w.flushed eid false

theorem OnlyAt.find_eq {w w' : Sharing Clt} {c : Clt} {eid : ExtentId} (ht : OnlyAt w w' c eid)
    (d : Clt) {id : ExtentId} (hid : id ≠ eid) :
    (w'.clients d).extents.find id = (w.clients d).extents.find id := by
  by_cases hd : d = c
  · rw [hd, ht.find id hid]
  · rw [ht.clients d hd]

theorem OnlyAt.uncached {w w' : Sharing Clt} {c : Clt} {eid : ExtentId} (ht : OnlyAt w w' c eid)
    (h : w.Inv) {d : Clt} (hd : d ≠ c) : (w'.clients d).extents.find eid = none := by
  rw [ht.clients d hd]
  by_contra hne
  exact hd (Option.some.inj ((h.cached_holder d eid hne).symm.trans ht.held))

/-- What a step at `eid` leaves to show is about the caller's cache at `eid`, the server there, and
where the caller stands. -/
theorem Inv.onlyAt {w w' : Sharing Clt} (h : w.Inv) {c : Clt} {eid : ExtentId}
    (ht : OnlyAt w w' c eid)
    (hiff : ∀ id, id ∈ (w'.clients c).modifiedExtents ↔ (w'.clients c).extents.find id ≠ none)
    (hrem : (w'.clients c).removedExtents = [])
    (hcached : ∀ buf, (w'.clients c).extents.find eid = some buf →
      lastPut eid w'.history = some buf)
    (hserver : (w'.clients c).extents.find eid = none →
      w'.server.extents.find eid = lastPut eid w'.history)
    (hpc : w'.pc c = .idle ∨
      w'.pc c = .flushing eid ∧ (w'.clients c).extents.find eid = none)
    (hlast : ∀ id, id ≠ eid → lastPut id w'.history = lastPut id w.history)
    (hreads : ReadsLastPut w'.history) : w'.Inv where
  cached_holder d id hd := by
    rw [ht.holder]
    by_cases hid : id = eid
    · by_cases hdc : d = c
      · rw [hid, hdc, ht.held]
      · exact absurd (hid ▸ ht.uncached h hdc) hd
    · exact h.cached_holder d id (ht.find_eq d hid ▸ hd)
  cached_iff d id := by
    by_cases hdc : d = c
    · exact hdc ▸ hiff id
    · rw [ht.clients d hdc]
      exact h.cached_iff d id
  none_removed d := by
    by_cases hdc : d = c
    · rw [hdc, hrem]
    · rw [ht.clients d hdc]
      exact h.none_removed d
  cached_value d id b hb := by
    by_cases hid : id = eid
    · subst hid
      by_cases hdc : d = c
      · exact hcached b (hdc ▸ hb)
      · rw [ht.uncached h hdc] at hb
        cases hb
    · rw [hlast id hid]
      exact h.cached_value d id b (ht.find_eq d hid ▸ hb)
  server_value id hall := by
    by_cases hid : id = eid
    · subst hid
      exact hserver (hall c)
    · rw [ht.server id hid, hlast id hid]
      exact h.server_value id fun d => ht.find_eq d hid ▸ hall d
  fetching d id b isGet hd := by
    have hdc : d ≠ c := by
      rintro rfl
      rcases hpc with hpc | ⟨hpc, -⟩ <;> rw [hpc] at hd <;> cases hd
    obtain ⟨h1, h2, h3, h4⟩ := h.fetching d id b isGet (ht.pc d hdc ▸ hd)
    have hid : id ≠ eid := fun he => hdc (Option.some.inj (h1.symm.trans (he ▸ ht.held)))
    refine ⟨by rwa [ht.holder], by rwa [ht.clients d hdc], by rwa [ht.server id hid], ?_⟩
    rw [ht.flushed]
    exact not_flushed_update h4
  flushing d id hd := by
    by_cases hdc : d = c
    · subst hdc
      rcases hpc with hpc | ⟨hpc, hnone⟩ <;> rw [hpc] at hd <;> cases hd
      exact ⟨ht.holder ▸ ht.held, hnone, by rw [ht.flushed, Function.update_self]⟩
    · obtain ⟨h1, h2, h3⟩ := h.flushing d id (ht.pc d hdc ▸ hd)
      refine ⟨by rwa [ht.holder], by rwa [ht.clients d hdc], ?_⟩
      rw [ht.flushed]
      exact not_flushed_update h3
  flushed_uncached id hid d := by
    rw [ht.flushed] at hid
    have hide : id ≠ eid := fun he => by simp [he] at hid
    rw [ht.find_eq d hide]
    exact h.flushed_uncached id (flushed_of_update hid) d
  reads := hreads

/-- The holder's cache takes `buf` under `eid`, by a put or at the end of a
fetch, and `buf` is now the last buffer put there. -/
theorem Inv.entered {w w' : Sharing Clt} (h : w.Inv) {c : Clt} {eid : ExtentId} (buf : Buffer)
    (hh : w.holder eid = some c)
    (hext : (w'.clients c).extents = (w.clients c).extents.insert eid buf)
    (hmod : (w'.clients c).modifiedExtents =
      ExtentClient.enqueue (w.clients c).modifiedExtents eid)
    (hrem : (w'.clients c).removedExtents = (w.clients c).removedExtents.erase eid)
    (hother : ∀ d, d ≠ c → w'.clients d = w.clients d)
    (hidle : w'.pc c = .idle) (hpc : ∀ d, d ≠ c → w'.pc d = w.pc d)
    (hsrv : w'.server.extents = w.server.extents) (hholder : w'.holder = w.holder)
    (hfl : w'.flushed = Function.update w.flushed eid false)
    (hlast : ∀ id, lastPut id w'.history = if id = eid then some buf else lastPut id w.history)
    (hreads : ReadsLastPut w'.history) : w'.Inv := by
  have hself : (w'.clients c).extents.find eid = some buf := by rw [hext, Map.find_insert_self]
  have ht : OnlyAt w w' c eid :=
    { held := hh, clients := hother, pc := hpc, holder := hholder, flushed := hfl
      find := fun id hid => by rw [hext, Map.find_insert_ne _ _ hid]
      server := fun id _ => by rw [hsrv] }
  refine h.onlyAt ht (fun id => ?_) ?_ (fun b hb => ?_) (fun hnone => ?_) (.inl hidle)
    (fun id hid => by rw [hlast, if_neg hid]) hreads
  · rw [hmod, hext, ExtentClient.mem_enqueue, h.cached_iff, Map.find_insert]
    by_cases hid : id = eid <;> simp [hid]
  · rw [hrem, h.none_removed c, List.erase_nil]
  · rw [hlast, if_pos rfl, ← hself, hb]
  · rw [hself] at hnone
    cases hnone

/-- The first half of a flush leaves `eid` out of the cache and its last put on
the server. -/
theorem inv_flush {w : Sharing Clt} (h : w.Inv) {c : Clt} {eid : ExtentId}
    (hcall : w.CanCall c eid) {w' : Sharing Clt}
    (hext : (w'.clients c).extents = (w.clients c).extents.erase eid)
    (hmod : (w'.clients c).modifiedExtents = (w.clients c).modifiedExtents.filter (· ≠ eid))
    (hrem : (w'.clients c).removedExtents = (w.clients c).removedExtents)
    (hother : ∀ d, d ≠ c → w'.clients d = w.clients d)
    (hflushing : w'.pc c = .flushing eid) (hpc : ∀ d, d ≠ c → w'.pc d = w.pc d)
    (hsrv : ∀ id, id ≠ eid → w'.server.extents.find id = w.server.extents.find id)
    (hlast : w'.server.extents.find eid = lastPut eid w.history)
    (hholder : w'.holder = w.holder) (hfl : w'.flushed = Function.update w.flushed eid false)
    (hhist : w'.history = w.history) : w'.Inv := by
  have hnone : (w'.clients c).extents.find eid = none := by rw [hext, Map.find_erase_self]
  have ht : OnlyAt w w' c eid :=
    { held := hcall.1, clients := hother, pc := hpc, server := hsrv, holder := hholder
      flushed := hfl, find := fun id hid => by rw [hext, Map.find_erase_ne _ hid] }
  refine h.onlyAt ht (fun id => ?_) ?_ (fun b hb => ?_) (fun _ => ?_) (.inr ⟨hflushing, hnone⟩)
    (fun id _ => by rw [hhist]) (hhist ▸ h.reads)
  · rw [hmod, hext, List.mem_filter, h.cached_iff, Map.find_erase]
    by_cases hid : id = eid <;> simp [hid]
  · rw [hrem, h.none_removed c]
  · rw [hnone] at hb
    cases hb
  · rw [hlast, hhist]

variable [DecidableEq Clt]

theorem setClient_same {α : Type} (f : ExtentClient → α) {w : Sharing Clt} {c : Clt}
    {client : ExtentClient} (h : f client = f (w.clients c)) (d : Clt) :
    f ((w.setClient c client).clients d) = f (w.clients d) := by
  by_cases hd : d = c
  · subst hd
    simp only [setClient, Function.update_self, h]
  · simp only [setClient, Function.update_of_ne hd]

theorem inv_getCached {w : Sharing Clt} (h : w.Inv) {c : Clt} {eid : ExtentId} {buf : Buffer}
    (hbuf : (w.clients c).extents.find eid = some buf) (now : UInt32) :
    (((w.setFlushed eid false).setClient c
      ((w.clients c).withLocal ((w.clients c).toExtentServer.get eid now).2)).record
        (.got c eid ((w.clients c).toExtentServer.get eid now).1)).Inv := by
  refine h.unchanged
    (setClient_same (fun client => client.extents) (ExtentServer.get_extents ..))
    (setClient_same (fun client => client.modifiedExtents) rfl)
    (setClient_same (fun client => client.removedExtents) rfl) rfl rfl rfl
    (fun id hid => flushed_of_update hid) (fun _ => rfl) ⟨?_, h.reads⟩
  show _ = replyOf (lastPut eid w.history)
  rw [ExtentServer.get_eq_of_find hbuf, h.cached_value c eid buf hbuf]
  rfl

/-- The first remote call of a fetch, when the server has the extent. -/
theorem inv_fetchStarted {w : Sharing Clt} (h : w.Inv) {c : Clt} {eid : ExtentId} {buf : Buffer}
    (hcall : w.CanCall c eid) (hc : (w.clients c).extents.find eid = none)
    (hs : w.server.extents.find eid = some buf) {server : ExtentServer}
    (hsrv : server.extents = w.server.extents) (isGet : Bool) :
    ({ w.setFlushed eid false with server }.setPc c (.fetching eid buf isGet)).Inv := by
  have hpc : ∀ d, d ≠ c → Function.update w.pc c (.fetching eid buf isGet) d = w.pc d :=
    fun d hd => Function.update_of_ne hd _ _
  exact
    { cached_holder := h.cached_holder
      cached_iff := h.cached_iff
      none_removed := h.none_removed
      cached_value := h.cached_value
      server_value := fun id hall => by
        show server.extents.find id = _
        rw [hsrv]
        exact h.server_value id hall
      fetching := fun d id b g hd => by
        by_cases hdc : d = c
        · simp only [setPc, hdc, Function.update_self, Pc.fetching.injEq] at hd
          obtain ⟨rfl, rfl, rfl⟩ := hd
          refine ⟨hdc ▸ hcall.1, hdc ▸ hc, ?_, by simp [setPc, setFlushed]⟩
          show server.extents.find eid = _
          rw [hsrv, hs]
        · obtain ⟨h1, h2, h3, h4⟩ := h.fetching d id b g (hpc d hdc ▸ hd)
          refine ⟨h1, h2, ?_, not_flushed_update h4⟩
          show server.extents.find id = _
          rw [hsrv, h3]
      flushing := fun d id hd => by
        by_cases hdc : d = c
        · simp [setPc, hdc] at hd
        · obtain ⟨h1, h2, h3⟩ := h.flushing d id (hpc d hdc ▸ hd)
          exact ⟨h1, h2, not_flushed_update h3⟩
      flushed_uncached := fun id hid => h.flushed_uncached id (flushed_of_update hid)
      reads := h.reads }

theorem inv_startFetch {w : Sharing Clt} (h : w.Inv) {c : Clt} {eid : ExtentId}
    (hcall : w.CanCall c eid) (hc : (w.clients c).extents.find eid = none) (now : UInt32)
    (isGet : Bool) : ((w.setFlushed eid false).startFetch c eid now isGet).Inv := by
  have hserver : (w.setFlushed eid false).server = w.server := rfl
  cases hs : w.server.extents.find eid with
  | some buf =>
    have hget : w.server.get eid now = ((.ok, some buf), (w.server.get eid now).2) :=
      Prod.ext (ExtentServer.get_eq_of_find hs now) rfl
    unfold startFetch
    rw [hserver, hget]
    exact inv_fetchStarted h hcall hc hs (ExtentServer.get_extents ..) isGet
  | none =>
    -- The id is cached nowhere, so the server's answer is the last put.
    have hlast := h.server_value eid (h.uncached hcall.1 hc)
    unfold startFetch
    rw [hserver, ExtentServer.get_eq_of_not_find hs]
    cases isGet with
    | true =>
      refine h.unchanged (fun _ => rfl) (fun _ => rfl) (fun _ => rfl) rfl rfl rfl
        (fun id hid => flushed_of_update hid) (fun _ => rfl) ⟨?_, h.reads⟩
      show _ = replyOf (lastPut eid w.history)
      rw [← hlast, hs]
      rfl
    | false =>
      exact h.unchanged (fun _ => rfl) (fun _ => rfl) (fun _ => rfl) rfl rfl rfl
        (fun id hid => flushed_of_update hid) (fun _ => rfl) h.reads

theorem inv_fetchAttr {w : Sharing Clt} (h : w.Inv) {c : Clt} {eid : ExtentId} {buf : Buffer}
    {isGet : Bool} (hpc : w.pc c = .fetching eid buf isGet) {w' : Sharing Clt}
    (hstep : w.step (.fetchAttr c) = some w') : w'.Inv := by
  obtain ⟨hh, hc, hs, hfl⟩ := h.fetching c eid buf isGet hpc
  obtain ⟨attr, hattr⟩ := ExtentServer.getattr_eq_of_find hs
  have hlast : lastPut eid w.history = some buf := by
    rw [← h.server_value eid (h.uncached hh hc), hs]
  have hsame : ∀ id,
      lastPut id w.history = if id = eid then some buf else lastPut id w.history := by
    intro id
    by_cases hid : id = eid
    · rw [if_pos hid, hid, hlast]
    · rw [if_neg hid]
  have hflushed : w.flushed = Function.update w.flushed eid false := by
    rw [← hfl, Function.update_eq_self]
  simp only [step, hpc, hattr, ExtentClient.cacheFetched, Option.some.injEq] at hstep
  subst hstep
  cases isGet with
  | true =>
    refine h.entered buf hh (by simp [record, setPc, setClient]; rfl)
      (by simp [record, setPc, setClient]; rfl) (by simp [record, setPc, setClient]; rfl)
      (fun d hd => by simp [record, setPc, setClient, hd]) (by simp [record, setPc])
      (fun d hd => by simp [record, setPc, setClient, hd]) rfl rfl hflushed hsame ⟨?_, h.reads⟩
    show _ = replyOf (lastPut eid w.history)
    rw [hlast]
    rfl
  | false =>
    exact h.entered buf hh (by simp [setPc, setClient]; rfl)
      (by simp [setPc, setClient]; rfl) (by simp [setPc, setClient]; rfl)
      (fun d hd => by simp [setPc, setClient, hd]) (by simp [setPc])
      (fun d hd => by simp [setPc, setClient, hd]) rfl rfl hflushed hsame h.reads

theorem inv_put {w : Sharing Clt} (h : w.Inv) {c : Clt} {eid : ExtentId} (hcall : w.CanCall c eid)
    (buf : Buffer) (mtime ctime atime : UInt32) :
    (((w.setFlushed eid false).setClient c
      ((w.clients c).put eid buf mtime ctime atime).2).record (.put c eid buf)).Inv := by
  refine h.entered buf hcall.1 (by simp [record, setClient]; rfl)
    (by simp [record, setClient]; rfl) (by simp [record, setClient]; rfl)
    (fun d hd => by simp [record, setClient, setFlushed, hd]) hcall.2 (fun _ _ => rfl) rfl rfl rfl
    (fun id => ?_) h.reads
  by_cases hid : id = eid
  · simp [record, lastPut, hid]
  · simp [record, lastPut, hid, Ne.symm hid, setClient, setFlushed]

theorem inv_flushStep {w : Sharing Clt} (h : w.Inv) {c : Clt} {eid : ExtentId}
    (hcall : w.CanCall c eid) {w' : Sharing Clt}
    (hstep : w.step (.flush c eid) = some w') : w'.Inv := by
  simp only [step, if_pos hcall, Option.some.injEq] at hstep
  subst hstep
  by_cases hm : eid ∈ (w.clients c).modifiedExtents
  · obtain ⟨buf, hbuf⟩ := Option.ne_none_iff_exists'.mp ((h.cached_iff c eid).mp hm)
    obtain ⟨hext, hmod, hrem, hsrv⟩ :=
      ExtentClient.flushModified_of_mem w.server hm hbuf
    refine inv_flush h hcall ?_ ?_ ?_ (fun d hd => ?_) ?_ (fun d hd => ?_) (fun id hid => ?_) ?_
      rfl rfl rfl
    · simpa [setFlushed, setPc, setClient] using hext
    · simpa [setFlushed, setPc, setClient] using hmod
    · simpa [setFlushed, setPc, setClient] using hrem
    · simp [setFlushed, setPc, setClient, hd]
    · simp [setFlushed, setPc]
    · simp [setFlushed, setPc, setClient, hd]
    · simp [setFlushed, setPc, setClient, hsrv, hid]
    · simp [setFlushed, setPc, setClient, hsrv, h.cached_value c eid buf hbuf]
  · have hc : (w.clients c).extents.find eid = none :=
      not_not.mp fun hc => hm ((h.cached_iff c eid).mpr hc)
    rw [ExtentClient.flushModified_of_not_mem hm]
    refine inv_flush h hcall ?_ ?_ ?_ (fun d hd => ?_) ?_ (fun d hd => ?_) (fun _ _ => rfl) ?_
      rfl rfl rfl
    · apply Map.ext
      intro id
      by_cases hid : id = eid
      · simp [setFlushed, setPc, setClient, hid, hc]
      · simp [setFlushed, setPc, setClient, hid]
    · simp only [setFlushed, setPc, setClient, Function.update_self]
      exact (List.filter_eq_self.mpr fun id hid => by
        simpa using fun he : id = eid => hm (he ▸ hid)).symm
    · simp [setFlushed, setPc, setClient]
    · simp [setFlushed, setPc, setClient]
    · simp [setFlushed, setPc]
    · simp [setFlushed, setPc, setClient, hd]
    · exact h.server_value eid (h.uncached hcall.1 hc)

/-- With no removal pending the second half of a flush changes nothing. -/
theorem inv_flushRemoval {w : Sharing Clt} (h : w.Inv) {c : Clt} {eid : ExtentId}
    (hpc : w.pc c = .flushing eid) {w' : Sharing Clt}
    (hstep : w.step (.flushRemoval c) = some w') : w'.Inv := by
  obtain ⟨hh, hc, hfl⟩ := h.flushing c eid hpc
  have hnot : eid ∉ (w.clients c).removedExtents := by
    rw [h.none_removed c]
    exact List.not_mem_nil
  simp only [step, hpc, ExtentClient.flushRemoved_of_not_mem hnot, Option.some.injEq] at hstep
  subst hstep
  have hpcs : ∀ {d p}, p ≠ .idle → Function.update w.pc c .idle d = p → d ≠ c ∧ w.pc d = p := by
    intro d p hp hd
    have hdc : d ≠ c := fun he => hp (by rw [← hd, he, Function.update_self])
    exact ⟨hdc, by rwa [Function.update_of_ne hdc] at hd⟩
  have hkeep : ∀ {d id}, d ≠ c → w.holder id = some d → w.flushed id = false →
      Function.update w.flushed eid true id = false := by
    intro d id hd hid hf
    have hne : id ≠ eid := fun he =>
      hd (Option.some.inj (hid.symm.trans (he ▸ hh)))
    rwa [Function.update_of_ne hne]
  simp only [setFlushed, setPc, setClient, Function.update_eq_self]
  constructor
  · exact h.cached_holder
  · exact h.cached_iff
  · exact h.none_removed
  · exact h.cached_value
  · exact h.server_value
  · intro d id b isGet hd
    obtain ⟨hdc, hd⟩ := hpcs (by simp) hd
    obtain ⟨h1, h2, h3, h4⟩ := h.fetching d id b isGet hd
    exact ⟨h1, h2, h3, hkeep hdc h1 h4⟩
  · intro d id hd
    obtain ⟨hdc, hd⟩ := hpcs (by simp) hd
    obtain ⟨h1, h2, h3⟩ := h.flushing d id hd
    exact ⟨h1, h2, hkeep hdc h1 h3⟩
  · intro id hid d
    by_cases he : id = eid
    · rw [he]
      exact h.uncached hh hc d
    · exact h.flushed_uncached id ((Function.update_of_ne he _ _).symm.trans hid) d
  · exact h.reads

theorem inv_step {w w' : Sharing Clt} {a : Action Clt} (h : w.Inv) (hok : w.NoRemove a)
    (hstep : w.step a = some w') : w'.Inv := by
  cases a with
  | acquire c eid =>
    simp only [step] at hstep
    split at hstep
    · next hh =>
      cases hstep
      exact inv_acquire h c hh
    · cases hstep
  | release c eid =>
    simp only [step] at hstep
    split at hstep
    · next hh =>
      cases hstep
      exact inv_release h hh.2
    · cases hstep
  | get c eid now =>
    simp only [step] at hstep
    split at hstep
    · next hcall =>
      split at hstep
      · next hsome =>
        obtain ⟨buf, hbuf⟩ := Option.isSome_iff_exists.mp hsome
        cases hstep
        exact inv_getCached h hbuf now
      · next hnone =>
        cases hstep
        exact inv_startFetch h hcall (Option.not_isSome_iff_eq_none.mp hnone) now true
    · cases hstep
  | getattr c eid now =>
    simp only [step] at hstep
    split at hstep
    · next hcall =>
      split at hstep
      · cases hstep
        exact h.unchanged (fun _ => rfl) (fun _ => rfl) (fun _ => rfl) rfl rfl rfl
          (fun id hid => flushed_of_update hid) (fun _ => rfl) h.reads
      · next hnone =>
        have hkeys := (w.clients c).sameKeys eid
        cases hstep
        exact inv_startFetch h hcall
          (Option.not_isSome_iff_eq_none.mp fun hs => hnone (hkeys ▸ hs)) now false
    · cases hstep
  | fetchAttr c =>
    cases hpc : w.pc c with
    | fetching eid buf isGet => exact inv_fetchAttr h hpc hstep
    | idle => simp [step, hpc] at hstep
    | flushing eid => simp [step, hpc] at hstep
  | put c eid buf mtime ctime atime =>
    simp only [step] at hstep
    split at hstep
    · next hcall =>
      cases hstep
      exact inv_put h hcall buf mtime ctime atime
    · cases hstep
  | remove c eid => exact hok.elim
  | flush c eid =>
    by_cases hcall : w.CanCall c eid
    · exact inv_flushStep h hcall hstep
    · simp [step, hcall] at hstep
  | flushRemoval c =>
    cases hpc : w.pc c with
    | flushing eid => exact inv_flushRemoval h hpc hstep
    | idle => simp [step, hpc] at hstep
    | fetching eid buf isGet => simp [step, hpc] at hstep

theorem inv_of_reachable {w : Sharing Clt} (h : system.ReachableWhile NoRemove w) : w.Inv :=
  h.invariant (fun _ hw => hw ▸ inv_start) fun _ _ _ hinv hok hstep => inv_step hinv hok hstep

/-- No update is lost: every read returned the most recent put of its id by any
client, or `NOENT` if there was none, and only the holder of an id's lock has
it in its cache. -/
theorem reads_last_put {w : Sharing Clt} (h : system.ReachableWhile NoRemove w) :
    ReadsLastPut w.history ∧
      ∀ c eid, ((w.clients c).extents.find eid).isSome ∨
        ((w.clients c).extentAttrs.find eid).isSome → w.holder eid = some c := by
  have hinv := inv_of_reachable h
  refine ⟨hinv.reads, fun c eid hcached => hinv.cached_holder c eid ?_⟩
  rw [← (w.clients c).sameKeys eid, or_self] at hcached
  exact Option.isSome_iff_ne_none.mp hcached

/-- Client 1 puts and hands the lock on, and client 2 reads what it put. -/
def handOff : List (Action Nat) :=
  [.acquire 1 7, .get 1 7 0, .put 1 7 [42] 0 0 0, .flush 1 7, .flushRemoval 1, .release 1 7,
    .acquire 2 7, .get 2 7 5, .fetchAttr 2]

theorem reads_last_put_handOff :
    ∃ w : Sharing Nat, system.ReachableWhile NoRemove w ∧
      w.history = [.got 2 7 (.ok, some [42]), .put 1 7 [42], .got 1 7 (.noent, none)] ∧
      ReadsLastPut w.history ∧ w.holder 7 = some 2 := by
  have hreach : system.ReachableWhile NoRemove (system.final start handOff) := by
    refine System.ReachableWhile.final handOff (.init rfl) ?_ (by decide +kernel)
    simp [handOff, System.StepsMeet, NoRemove]
  have hread := reads_last_put hreach
  exact ⟨_, hreach, rfl, hread.1, hread.2 2 7 (.inl rfl)⟩

end Sharing
end Extent
end Frangipani
