/-
Operations of several clients on one server.

An operation runs as one step of its client, since it holds the locks of what it works on.
A lock that another client has comes over with a flush of the id by that client, and stays
with its client when the operation releases it.  The requests of the flush are taken to be
received here.  `Limits` says when they are, and `Mounted` has the operations call by call.

The contents of an id are in the cache of the client that has its lock, or on the server.
-/
import Mathlib.Logic.Function.Basic
import Frangipani.Extent.Flush
import Frangipani.Yfs.Operations

namespace Frangipani

namespace Extent

/-- The number of a status. -/
def Status.code : Status → Int
  | .ok => 0
  | .rpcerr => 1
  | .noent => 2
  | .ioerr => 3
  | .fbig => 4

end Extent

namespace Yfs

open Extent Text Program

structure Shared (Clt : Type) where
  clients : Clt → ExtentClient
  server : ExtentServer
  /-- The client that has the lock of an id. -/
  holder : Inum → Option Clt
  /-- What the next calls of `time(0)` return. -/
  clock : Nat → UInt32

namespace Shared

variable {Clt : Type} [DecidableEq Clt]

/-! ## Operations -/

/-- Replace the extents of one client, and the server. -/
def set (w : Shared Clt) (c : Clt) (ec : ExtentClient) (server : ExtentServer) : Shared Clt :=
  { w with clients := Function.update w.clients c ec, server }

/-- Read the time `n` times. -/
def tick (w : Shared Clt) (n : Nat) : Shared Clt := { w with clock := fun i => w.clock (n + i) }

def give (w : Shared Clt) (c : Clt) (lid : Inum) : Shared Clt :=
  { w with holder := Function.update w.holder lid (some c) }

def flush (w : Shared Clt) (c : Clt) (eid : Inum) : Shared Clt :=
  w.set c ((w.clients c).flush w.server eid).1 ((w.clients c).flush w.server eid).2

def acquire (w : Shared Clt) (c : Clt) (lid : Inum) : Shared Clt :=
  match w.holder lid with
  | none => w.give c lid
  | some d => if d = c then w else (w.flush d lid).give c lid

def get (w : Shared Clt) (c : Clt) (eid : Inum) : Got × Shared Clt :=
  let res := (w.clients c).get w.server eid (w.clock 0)
  (⟨res.1.1.code, res.1.2.getD []⟩, (w.set c res.2.1 res.2.2).tick 1)

def getattr (w : Shared Clt) (c : Clt) (eid : Inum) : GotAttr × Shared Clt :=
  let res := (w.clients c).getattr w.server eid (w.clock 0)
  (⟨res.1.1.code, res.1.2.getD default⟩, (w.set c res.2.1 res.2.2).tick 1)

def put (w : Shared Clt) (c : Clt) (eid : Inum) (buf : Buffer) : Int × Shared Clt :=
  let res := (w.clients c).put eid buf (w.clock 0) (w.clock 1) (w.clock 2)
  (res.1.code, (w.set c res.2 w.server).tick 3)

def remove (w : Shared Clt) (c : Clt) (eid : Inum) : Int × Shared Clt :=
  let res := (w.clients c).remove eid
  (res.1.code, w.set c res.2 w.server)

/-- The answers to the calls of an operation of `c`. -/
def answer (c : Clt) (w : Shared Clt) : (cmd : Command) → Answer cmd × Shared Clt
  | .acquire lid => ((), w.acquire c lid)
  | .release _ => ((), w)
  | .get eid => w.get c eid
  | .getattr eid => w.getattr c eid
  | .put eid buf => w.put c eid buf
  | .remove eid => w.remove c eid

@[simp] theorem answer_acquire (c : Clt) (w : Shared Clt) (lid : Inum) :
    answer c w (.acquire lid) = ((), w.acquire c lid) := rfl

@[simp] theorem answer_release (c : Clt) (w : Shared Clt) (lid : Inum) :
    answer c w (.release lid) = ((), w) := rfl

@[simp] theorem answer_get (c : Clt) (w : Shared Clt) (eid : Inum) :
    answer c w (.get eid) = w.get c eid := rfl

@[simp] theorem answer_getattr (c : Clt) (w : Shared Clt) (eid : Inum) :
    answer c w (.getattr eid) = w.getattr c eid := rfl

@[simp] theorem answer_put (c : Clt) (w : Shared Clt) (eid : Inum) (buf : Buffer) :
    answer c w (.put eid buf) = w.put c eid buf := rfl

@[simp] theorem answer_remove (c : Clt) (w : Shared Clt) (eid : Inum) :
    answer c w (.remove eid) = w.remove c eid := rfl

/-- An operation of `c`. -/
def run (w : Shared Clt) (c : Clt) (op : Operation) : op.Result × Shared Clt :=
  op.program.exec (answer c) w

theorem run_setsize_snd (w : Shared Clt) (c : Clt) (inum : Inum) (size : UInt64) :
    (w.run c (.setsize inum size)).2 =
      let g := (w.acquire c inum).get c inum
      if g.1.ret ≠ YfsClient.OK then g.2
      else (g.2.put c inum (YfsClient.resize g.1.buf size.toNat)).2 := by
  by_cases hret : ((w.acquire c inum).get c inum).1.ret = YfsClient.OK <;>
    simp [run, Operation.program, YfsClient.setsize, YfsClient.acquire, YfsClient.get,
      YfsClient.put, YfsClient.release, hret]

theorem run_write_snd (w : Shared Clt) (c : Clt) (inum : Inum) (data : Buffer) (off : UInt64) :
    (w.run c (.write inum data off)).2 =
      let g := (w.acquire c inum).get c inum
      if g.1.ret ≠ YfsClient.OK then g.2
      else (g.2.put c inum (YfsClient.writeTo g.1.buf data off)).2 := by
  by_cases hret : ((w.acquire c inum).get c inum).1.ret = YfsClient.OK <;>
    simp [run, Operation.program, YfsClient.write, YfsClient.acquire, YfsClient.get,
      YfsClient.put, YfsClient.release, hret]

/-! ## Contents -/

/-- What the client with the lock has cached, or else what the server has. -/
def contents (w : Shared Clt) (eid : Inum) : Option Buffer :=
  ((w.holder eid).bind fun c => (w.clients c).extents.find eid).or (w.server.extents.find eid)

/-- A client still has to remove the extent from the server. -/
def Pending (w : Shared Clt) (eid : Inum) : Prop := ∃ c, eid ∈ (w.clients c).removedExtents

/-- Only the client with the lock of an id has it cached. -/
structure Sound (w : Shared Clt) : Prop where
  tidy : ∀ c, (w.clients c).Tidy
  owned : ∀ c eid, ((w.clients c).extents.find eid).isSome → w.holder eid = some c

/-- All other ids have the same contents, and the same removals are pending. -/
structure SameBut (eid : Inum) (w w' : Shared Clt) : Prop where
  contents : ∀ id, id ≠ eid → w'.contents id = w.contents id
  pending : ∀ id, id ≠ eid → (w'.Pending id ↔ w.Pending id)

omit [DecidableEq Clt] in
theorem SameBut.refl (eid : Inum) (w : Shared Clt) : SameBut eid w w :=
  ⟨fun _ _ => rfl, fun _ _ => Iff.rfl⟩

omit [DecidableEq Clt] in
theorem SameBut.trans {eid : Inum} {w w' w'' : Shared Clt} (h : SameBut eid w w')
    (h' : SameBut eid w' w'') : SameBut eid w w'' :=
  ⟨fun id hid => (h'.contents id hid).trans (h.contents id hid),
    fun id hid => (h'.pending id hid).trans (h.pending id hid)⟩

end Shared

/-! ## Calls on one id -/

/-- What a call on `eid` leaves of a client and the server. -/
structure CallOn (eid : Inum) (c c' : ExtentClient) (server server' : ExtentServer) : Prop where
  tidy : c'.Tidy
  extents : ∀ id, id ≠ eid → c'.extents.find id = c.extents.find id
  removed : ∀ id, id ≠ eid → (id ∈ c'.removedExtents ↔ id ∈ c.removedExtents)
  server : ∀ id, id ≠ eid → server'.extents.find id = server.extents.find id

section CallOn

variable {c : ExtentClient} (h : c.Tidy) (server : ExtentServer) (eid : Inum)

include h

theorem callOn_entered (buf : Buffer) (attr : Attr) {server' : ExtentServer}
    (hserver : server'.extents = server.extents) :
    CallOn eid c ((c.withLocal (c.toExtentServer.put eid buf attr).2).addExtentToModifiedQueues eid)
      server server' where
  tidy := h.entered eid buf attr
  extents _ hid := Map.find_insert_ne _ _ hid
  removed _ hid := List.mem_erase_of_ne hid
  server _ _ := by rw [hserver]

theorem callOn_get {buf : Buffer} (now : UInt32)
    (hbuf : (c.extents.find eid).or (server.extents.find eid) = some buf) :
    ∃ c' server', c.get server eid now = ((.ok, some buf), c', server') ∧
      CallOn eid c c' server server' ∧ c'.extents.find eid = some buf := by
  cases hcached : c.extents.find eid with
  | some b =>
    rw [hcached] at hbuf
    cases hbuf
    have hsame := ExtentServer.get_extents c.toExtentServer eid now
    refine ⟨_, _, ExtentClient.get_cached server hcached now, ⟨h.getCached eid now, ?_, ?_, ?_⟩, ?_⟩
    · exact fun id _ => congrArg (fun m => m.find id) hsame
    · exact fun _ _ => Iff.rfl
    · exact fun _ _ => rfl
    · exact (congrArg (fun m => m.find eid) hsame).trans hcached
  | none =>
    rw [hcached] at hbuf
    obtain ⟨attr, hget⟩ := ExtentClient.get_fetched hcached hbuf now
    exact ⟨_, _, hget, callOn_entered h server eid buf attr (ExtentServer.get_extents ..),
      Map.find_insert_self ..⟩

theorem callOn_get_any (now : UInt32) :
    CallOn eid c (c.get server eid now).2.1 server (c.get server eid now).2.2 := by
  cases hbuf : (c.extents.find eid).or (server.extents.find eid) with
  | some buf =>
    obtain ⟨c', server', hget, hcall, -⟩ := callOn_get h server eid now hbuf
    rw [hget]
    exact hcall
  | none =>
    obtain ⟨hcached, hserver⟩ := Option.or_eq_none_iff.mp hbuf
    rw [ExtentClient.get_missing hcached hserver]
    exact ⟨h, fun _ _ => rfl, fun _ _ => Iff.rfl, fun _ _ => rfl⟩

theorem callOn_flush :
    CallOn eid c (c.flush server eid).1 server (c.flush server eid).2 where
  tidy := h.flush server eid
  extents id hid := by
    have hsame := (c.flushModified_sameElsewhere server eid).trans
      (ExtentClient.flushRemoved_sameElsewhere _ (c.flushModified server eid).2 eid)
    exact hsame.extents id hid
  removed id hid := by
    have hsame := (c.flushModified_sameElsewhere server eid).trans
      (ExtentClient.flushRemoved_sameElsewhere _ (c.flushModified server eid).2 eid)
    have hmem : id ∈ ((c.flush server eid).1.removedExtents.filter (· ≠ eid)) ↔
        id ∈ c.removedExtents.filter (· ≠ eid) := by
      rw [ExtentClient.flush, hsame.removedExtents]
    simpa [List.mem_filter, hid] using hmem
  server id hid := by
    rw [ExtentClient.flush, ExtentClient.flushRemoved_server _ _ hid,
      ExtentClient.flushModified_server _ _ hid]

theorem flush_contents (hkept : eid ∉ c.removedExtents) :
    (c.flush server eid).2.extents.find eid =
      (c.extents.find eid).or (server.extents.find eid) := by
  have hnot : eid ∉ (c.flushModified server eid).1.removedExtents := by
    rw [ExtentClient.flushModified_removedExtents]
    exact hkept
  have hflush : c.flush server eid = c.flushModified server eid :=
    ExtentClient.flushRemoved_of_not_mem hnot
  rw [hflush]
  cases hbuf : c.extents.find eid with
  | none =>
    have hmem : eid ∉ c.modifiedExtents := by
      rw [h.queued.mem eid, hbuf]
      exact Bool.false_ne_true
    rw [ExtentClient.flushModified_of_not_mem hmem]
    rfl
  | some buf =>
    have hmem : eid ∈ c.modifiedExtents := by
      rw [h.queued.mem eid, hbuf]
      rfl
    rw [(ExtentClient.flushModified_of_mem server hmem hbuf).2.2.2, Map.find_insert_self]
    rfl

end CallOn

namespace Shared

variable {Clt : Type} [DecidableEq Clt] {w : Shared Clt}

/-! ## What the calls do to the contents -/

omit [DecidableEq Clt] in
theorem contents_of_holder {c : Clt} {eid : Inum} (h : w.holder eid = some c) :
    w.contents eid = ((w.clients c).extents.find eid).or (w.server.extents.find eid) := by
  rw [contents, h]
  rfl

omit [DecidableEq Clt] in
theorem Sound.uncached (h : w.Sound) {c : Clt} {eid : Inum} (hc : w.holder eid ≠ some c) :
    (w.clients c).extents.find eid = none := by
  by_contra hne
  exact hc (h.owned c eid (Option.isSome_iff_ne_none.mpr hne))

theorem clients_set_self (c : Clt) (ec : ExtentClient) (server : ExtentServer) :
    (w.set c ec server).clients c = ec := Function.update_self ..

theorem clients_set_ne {c d : Clt} (h : d ≠ c) (ec : ExtentClient) (server : ExtentServer) :
    (w.set c ec server).clients d = w.clients d := Function.update_of_ne h ..

section Set

variable {c : Clt} {eid : Inum} {ec : ExtentClient} {server : ExtentServer}

theorem Sound.set (h : w.Sound) (hheld : w.holder eid = some c)
    (hcall : CallOn eid (w.clients c) ec w.server server) : (w.set c ec server).Sound where
  tidy d := by
    by_cases hd : d = c
    · rw [hd, clients_set_self]
      exact hcall.tidy
    · rw [clients_set_ne hd]
      exact h.tidy d
  owned d id hsome := by
    by_cases hd : d = c
    · subst hd
      rw [clients_set_self] at hsome
      by_cases hid : id = eid
      · exact hid ▸ hheld
      · rw [hcall.extents id hid] at hsome
        exact h.owned d id hsome
    · rw [clients_set_ne hd] at hsome
      exact h.owned d id hsome

theorem sameBut_set (hcall : CallOn eid (w.clients c) ec w.server server) :
    SameBut eid w (w.set c ec server) where
  contents id hid := by
    have hcached : ∀ d, ((w.set c ec server).clients d).extents.find id =
        (w.clients d).extents.find id := by
      intro d
      by_cases hd : d = c
      · rw [hd, clients_set_self, hcall.extents id hid]
      · rw [clients_set_ne hd]
    have hserver : (w.set c ec server).server.extents.find id = w.server.extents.find id :=
      hcall.server id hid
    have hholder : (w.set c ec server).holder = w.holder := rfl
    simp only [Shared.contents, hcached, hserver, hholder]
  pending id hid := by
    refine exists_congr fun d => ?_
    by_cases hd : d = c
    · rw [hd, clients_set_self, hcall.removed id hid]
    · rw [clients_set_ne hd]

theorem not_pending_set (server : ExtentServer) (hkept : ¬ w.Pending eid)
    (hec : eid ∉ ec.removedExtents) : ¬ (w.set c ec server).Pending eid := by
  rintro ⟨d, hd⟩
  by_cases hdc : d = c
  · rw [hdc, clients_set_self] at hd
    exact hec hd
  · rw [clients_set_ne hdc] at hd
    exact hkept ⟨d, hd⟩

end Set

omit [DecidableEq Clt] in
theorem Sound.tick (h : w.Sound) (n : Nat) : (w.tick n).Sound := ⟨h.tidy, h.owned⟩

omit [DecidableEq Clt] in
theorem Sound.give (h : w.Sound) (c : Clt) {lid : Inum}
    (hfree : ∀ d, (w.clients d).extents.find lid = none) : (w.give c lid).Sound where
  tidy := h.tidy
  owned d id hsome := by
    by_cases hid : id = lid
    · subst hid
      rw [show (w.give c id).clients d = w.clients d from rfl, hfree d] at hsome
      cases hsome
    · show Function.update w.holder lid (some c) id = some d
      rw [Function.update_of_ne hid]
      exact h.owned d id hsome

omit [DecidableEq Clt] in
theorem holder_give (c : Clt) (lid : Inum) : (w.give c lid).holder lid = some c :=
  Function.update_self ..

omit [DecidableEq Clt] in
theorem sameBut_give (c : Clt) (lid : Inum) : SameBut lid w (w.give c lid) where
  contents id hid := by
    have hholder : (w.give c lid).holder id = w.holder id := Function.update_of_ne hid ..
    rw [Shared.contents, Shared.contents, hholder]
    rfl
  pending _ _ := Iff.rfl

omit [DecidableEq Clt] in
theorem contents_of_free {lid : Inum} (hfree : ∀ d, (w.clients d).extents.find lid = none) :
    w.contents lid = w.server.extents.find lid := by
  rw [Shared.contents]
  cases w.holder lid with
  | none => rfl
  | some d => rw [Option.bind_some, hfree d, Option.none_or]

theorem free_flush (h : w.Sound) {d : Clt} {lid : Inum} (hheld : w.holder lid = some d) :
    ∀ e, ((w.flush d lid).clients e).extents.find lid = none := by
  intro e
  by_cases he : e = d
  · rw [he, Shared.flush, clients_set_self]
    exact (h.tidy d).flush_uncached w.server lid
  · rw [Shared.flush, clients_set_ne he]
    refine h.uncached fun heq => he ?_
    exact Option.some.inj (heq.symm.trans hheld)

/-! ## Operations on one id -/

/-- The client has the lock of the id, and nothing else has changed. -/
structure Touches (w : Shared Clt) (c : Clt) (inum : Inum) (w' : Shared Clt) : Prop where
  sound : w'.Sound
  holder : w'.holder inum = some c
  same : SameBut inum w w'

omit [DecidableEq Clt] in
theorem Touches.trans {c : Clt} {inum : Inum} {w' w'' : Shared Clt} (h : w.Touches c inum w')
    (h' : w'.Touches c inum w'') : w.Touches c inum w'' :=
  ⟨h'.sound, h'.holder, h.same.trans h'.same⟩

theorem touches_acquire (h : w.Sound) (c : Clt) (lid : Inum) :
    w.Touches c lid (w.acquire c lid) ∧ (¬ w.Pending lid →
      (w.acquire c lid).contents lid = w.contents lid ∧ ¬ (w.acquire c lid).Pending lid) := by
  unfold Shared.acquire
  cases hheld : w.holder lid with
  | none =>
    have hfree : ∀ d, (w.clients d).extents.find lid = none := fun d =>
      h.uncached (by rw [hheld]; exact nofun)
    refine ⟨⟨h.give c hfree, holder_give c lid, sameBut_give c lid⟩, fun hkept => ⟨?_, hkept⟩⟩
    exact (contents_of_free (w := w.give c lid) hfree).trans (contents_of_free hfree).symm
  | some d =>
    simp only
    split
    case isTrue hd =>
      subst hd
      exact ⟨⟨h, hheld, .refl lid w⟩, fun hkept => ⟨rfl, hkept⟩⟩
    case isFalse hd =>
      have hcall := callOn_flush (h.tidy d) w.server lid
      have hfree := free_flush h hheld
      refine ⟨⟨(h.set hheld hcall).give c hfree, holder_give c lid,
        (sameBut_set hcall).trans (sameBut_give c lid)⟩, fun hkept => ⟨?_, ?_⟩⟩
      · have hnot : lid ∉ (w.clients d).removedExtents := fun hmem => hkept ⟨d, hmem⟩
        rw [contents_of_holder hheld, ← flush_contents (h.tidy d) w.server lid hnot]
        exact contents_of_free hfree
      · have hnot : lid ∉ ((w.clients d).flush w.server lid).1.removedExtents := by
          rw [(h.tidy d).flush_removedExtents w.server lid]
          exact fun hmem => hkept ⟨d, hmem.1⟩
        exact not_pending_set ((w.clients d).flush w.server lid).2 hkept hnot

theorem touches_set (h : w.Sound) {c : Clt} {inum : Inum} (hheld : w.holder inum = some c)
    {ec : ExtentClient} {server : ExtentServer}
    (hcall : CallOn inum (w.clients c) ec w.server server) (n : Nat) :
    w.Touches c inum ((w.set c ec server).tick n) :=
  ⟨(h.set hheld hcall).tick n, hheld, ⟨(sameBut_set hcall).contents, (sameBut_set hcall).pending⟩⟩

/-! ## Operations on a file that is there -/

/-- An extent with its contents, whose removal is not pending. -/
structure File (w : Shared Clt) (inum : Inum) (buf : Buffer) : Prop where
  contents : w.contents inum = some buf
  kept : ¬ w.Pending inum

/-- The contents are `buf` then. -/
structure Leaves (w : Shared Clt) (c : Clt) (inum : Inum) (buf : Buffer) (w' : Shared Clt) : Prop
    extends w.Touches c inum w' where
  file : w'.File inum buf

omit [DecidableEq Clt] in
theorem Leaves.trans {c : Clt} {inum : Inum} {buf buf' : Buffer} {w' w'' : Shared Clt}
    (h : w.Leaves c inum buf w') (h' : w'.Leaves c inum buf' w'') : w.Leaves c inum buf' w'' :=
  ⟨h.toTouches.trans h'.toTouches, h'.file⟩

section Calls

variable {c : Clt} {inum : Inum} {buf : Buffer}

theorem leaves_acquire (h : w.Sound) (hfile : w.File inum buf) (c : Clt) :
    w.Leaves c inum buf (w.acquire c inum) := by
  obtain ⟨htouches, hrest⟩ := touches_acquire h c inum
  obtain ⟨hcontents, hkept⟩ := hrest hfile.kept
  exact ⟨htouches, hcontents.trans hfile.contents, hkept⟩

theorem leaves_cached (h : w.Sound) (hheld : w.holder inum = some c) (hkept : ¬ w.Pending inum)
    {ec : ExtentClient} {server : ExtentServer}
    (hcall : CallOn inum (w.clients c) ec w.server server)
    (hcached : ec.extents.find inum = some buf) (n : Nat) :
    w.Leaves c inum buf ((w.set c ec server).tick n) := by
  have hnot : inum ∉ ec.removedExtents := by
    intro hmem
    rw [hcall.tidy.pendingUncached inum hmem] at hcached
    cases hcached
  have hcontents : (w.set c ec server).contents inum = some buf := by
    rw [contents_of_holder (w := w.set c ec server) hheld, clients_set_self, hcached]
    rfl
  exact ⟨touches_set h hheld hcall n, hcontents, not_pending_set server hkept hnot⟩

theorem leaves_get (h : w.Sound) (hheld : w.holder inum = some c) (hfile : w.File inum buf) :
    (w.get c inum).1 = ⟨0, buf⟩ ∧ w.Leaves c inum buf (w.get c inum).2 := by
  have hbuf := hfile.contents
  rw [contents_of_holder hheld] at hbuf
  obtain ⟨ec, server, hget, hcall, hcached⟩ :=
    callOn_get (h.tidy c) w.server inum (w.clock 0) hbuf
  unfold Shared.get
  rw [hget]
  exact ⟨rfl, leaves_cached h hheld hfile.kept hcall hcached 1⟩

theorem leaves_put (h : w.Sound) (hheld : w.holder inum = some c) (hkept : ¬ w.Pending inum)
    (buf : Buffer) : (w.put c inum buf).1 = 0 ∧ w.Leaves c inum buf (w.put c inum buf).2 :=
  ⟨rfl, leaves_cached h hheld hkept
    (callOn_entered (h.tidy c) w.server inum buf _ rfl) (Map.find_insert_self ..) 3⟩

theorem leaves_open (h : w.Sound) (hfile : w.File inum buf) (c : Clt) :
    ∃ w', (w.acquire c inum).get c inum = (⟨0, buf⟩, w') ∧ w.Leaves c inum buf w' := by
  have hacq := leaves_acquire h hfile c
  obtain ⟨hgot, hget⟩ := leaves_get hacq.sound hacq.holder hacq.file
  exact ⟨_, Prod.ext hgot rfl, hacq.trans hget⟩

theorem run_read (h : w.Sound) (hfile : w.File inum buf) (c : Clt) (size off : UInt64) :
    ∃ w', w.run c (.read inum size off) = ((0, readFrom buf size off), w') ∧
      w.Leaves c inum buf w' := by
  obtain ⟨w', hget, hopen⟩ := leaves_open h hfile c
  refine ⟨w', ?_, hopen⟩
  simp [run, Operation.program, YfsClient.read, YfsClient.acquire, YfsClient.get,
    YfsClient.release, hget]

theorem run_write (h : w.Sound) (hfile : w.File inum buf) (c : Clt) (data : Buffer)
    (off : UInt64) :
    ∃ w', w.run c (.write inum data off) = ((0, some (.ofNat data.length)), w') ∧
      w.Leaves c inum (YfsClient.writeTo buf data off) w' := by
  obtain ⟨w', hget, hopen⟩ := leaves_open h hfile c
  obtain ⟨hret, hput⟩ :=
    leaves_put hopen.sound hopen.holder hopen.file.kept (YfsClient.writeTo buf data off)
  refine ⟨_, ?_, hopen.trans hput⟩
  simp [run, Operation.program, YfsClient.write, YfsClient.acquire, YfsClient.get, YfsClient.put,
    YfsClient.release, hget, hret]

end Calls

/-! ## The operations of one client, in one piece

`getfile`, `read`, `ilookup` and `unlink` of a client that has the locks are the functions of the
caches that are studied on their own. -/

section OnePiece

variable {c : Clt} {inum : Inum}

theorem acquire_of_held (h : w.holder inum = some c) : w.acquire c inum = w := by
  rw [Shared.acquire, h]
  exact if_pos rfl

omit [DecidableEq Clt] in
theorem get_reply (ec : ExtentClient) (server : ExtentServer) (eid : Inum) (now : UInt32) :
    ∃ ec' server', (∃ buf, ec.get server eid now = ((.ok, some buf), ec', server')) ∨
      ec.get server eid now = ((.noent, none), ec', server') := by
  cases hcached : ec.extents.find eid with
  | some buf => exact ⟨_, _, .inl ⟨buf, ExtentClient.get_cached server hcached now⟩⟩
  | none =>
    cases hserver : server.extents.find eid with
    | some buf =>
      obtain ⟨attr, hget⟩ := ExtentClient.get_fetched hcached hserver now
      exact ⟨_, _, .inl ⟨buf, hget⟩⟩
    | none => exact ⟨_, _, .inr (ExtentClient.get_missing hcached hserver now)⟩

/-- The result of an operation, and the client and the server after it. -/
structure Agrees {α : Type} (c : Clt) (r : α × Shared Clt) (a : α) (ec : ExtentClient)
    (server : ExtentServer) : Prop where
  result : r.1 = a
  client : r.2.clients c = ec
  server : r.2.server = server

theorem read_agrees (h : w.holder inum = some c) (size off : UInt64) :
    let r := Yfs.read (w.clients c) w.server inum size off (w.clock 0)
    Agrees c (w.run c (.read inum size off)) (r.1.1.code, r.1.2.getD []) r.2.1 r.2.2 := by
  obtain ⟨ec, server, ⟨buf, hget⟩ | hget⟩ := get_reply (w.clients c) w.server inum (w.clock 0)
  all_goals
    constructor <;>
      simp [run, Operation.program, YfsClient.read, YfsClient.acquire, YfsClient.get,
        YfsClient.release, acquire_of_held h, Shared.get, Yfs.read, hget, Status.code, tick,
        set]

theorem ilookup_agrees (h : w.holder inum = some c) (name : String) :
    let r := Cached.ilookup (w.clients c) w.server inum name (w.clock 0)
    Agrees c (w.run c (.ilookup inum name)) r.1 r.2.1 r.2.2 := by
  obtain ⟨ec, server, ⟨buf, hget⟩ | hget⟩ := get_reply (w.clients c) w.server inum (w.clock 0)
  all_goals
    by_cases hdir : isdir inum <;> constructor <;>
      simp [run, Operation.program, YfsClient.ilookup, YfsClient.acquire, YfsClient.get,
        YfsClient.release, acquire_of_held h, Shared.get, Cached.ilookup, hget, hdir, Status.code,
        tick, set]

omit [DecidableEq Clt] in
theorem extents_of_attrs {ec : ExtentClient} {eid : Inum} (h : ec.extentAttrs.find eid = none) :
    ec.extents.find eid = none := by
  have hkeys := ec.sameKeys eid
  simpa [h] using hkeys

omit [DecidableEq Clt] in
/-- Attributes that are not cached are fetched with the extent. -/
theorem getattr_of_uncached {ec : ExtentClient} {eid : Inum}
    (h : ec.extentAttrs.find eid = none) (server : ExtentServer) (now : UInt32) :
    ec.getattr server eid now =
      (((ec.get server eid now).1.1, ((ec.get server eid now).2.2.getattr eid).2),
        (ec.get server eid now).2) := by
  simp [ExtentClient.getattr, ExtentClient.get, h, extents_of_attrs h]

omit [DecidableEq Clt] in
theorem getattr_reply (ec : ExtentClient) (server : ExtentServer) (eid : Inum) (now : UInt32) :
    ∃ ec' server', (∃ a, ec.getattr server eid now = ((.ok, some a), ec', server')) ∨
      ∃ a, ec.getattr server eid now = ((.noent, a), ec', server') := by
  cases hcached : ec.extentAttrs.find eid with
  | some a =>
    exact ⟨ec, server, .inl ⟨a, by simp [ExtentClient.getattr, ExtentServer.getattr, hcached]⟩⟩
  | none =>
    have hext := extents_of_attrs hcached
    rw [getattr_of_uncached hcached]
    cases hserver : server.extents.find eid with
    | none =>
      rw [ExtentClient.get_missing hext hserver]
      exact ⟨ec, server, .inr ⟨_, rfl⟩⟩
    | some buf =>
      obtain ⟨_, hget⟩ := ExtentClient.get_fetched hext hserver now
      have hfound : (server.get eid now).2.extents.find eid = some buf := by simpa using hserver
      obtain ⟨a, ha⟩ := ExtentServer.getattr_eq_of_find hfound
      rw [hget]
      exact ⟨_, _, .inl ⟨a, by rw [ha]⟩⟩

theorem getfile_agrees (h : w.holder inum = some c) :
    let r := Yfs.getfile (w.clients c) w.server inum (w.clock 0)
    Agrees c (w.run c (.getfile inum)) (r.1.1.code, r.1.2) r.2.1 r.2.2 := by
  obtain ⟨ec, server, ⟨a, hget⟩ | ⟨a, hget⟩⟩ :=
    getattr_reply (w.clients c) w.server inum (w.clock 0)
  all_goals
    constructor <;>
      simp [run, Operation.program, YfsClient.getfile, YfsClient.acquire, YfsClient.getattr,
        YfsClient.release, acquire_of_held h, Shared.getattr, Yfs.getfile, hget, Status.code,
        tick, set]

theorem unlink_agrees (h : w.holder inum = some c) (name : String) (inumToRemove finum : Inum)
    (htarget : ∀ buf, ((w.clients c).get w.server inum (w.clock 0)).1.2 = some buf →
      w.holder (unlinkTarget (text buf) name finum) = some c) :
    let r := Cached.unlink (w.clients c) w.server inum name finum (w.clock 0) (w.clock 1)
      (w.clock 2) (w.clock 3)
    Agrees c (w.run c (.unlink inum name inumToRemove finum)) r.1.code r.2.1 r.2.2 := by
  obtain ⟨ec, server, ⟨buf, hget⟩ | hget⟩ := get_reply (w.clients c) w.server inum (w.clock 0)
  · have hg : w.get c inum = (⟨YfsClient.OK, buf⟩, (w.set c ec server).tick 1) := by
      simp [Shared.get, hget, Status.code]
    have hacquire : ((w.set c ec server).tick 1).acquire c (unlinkTarget (text buf) name finum) =
        (w.set c ec server).tick 1 := acquire_of_held (htarget buf (by rw [hget]))
    have hput : ∀ b, ((w.set c ec server).tick 1).put c inum b = (YfsClient.OK,
        ((w.set c (ec.put inum b (w.clock 1) (w.clock 2) (w.clock 3)).2 server).tick 4)) := by
      intro b
      simp [Shared.put, set, tick, ExtentClient.put, ExtentServer.put, Status.code,
        ← Nat.add_assoc]
    have hrun : w.run c (.unlink inum name inumToRemove finum) =
        ((w.set c (ec.put inum (bytes (unlinkText (text buf) name)) (w.clock 1) (w.clock 2)
          (w.clock 3)).2 server).tick 4).remove c (unlinkTarget (text buf) name finum) := by
      simp [run, Operation.program, YfsClient.unlink, YfsClient.acquire, YfsClient.get,
        YfsClient.put, YfsClient.remove, YfsClient.release, acquire_of_held h, hacquire, hg, hput]
    constructor <;>
      simp [hrun, Shared.remove, Cached.unlink, hget, tick, set, ExtentClient.put, ExtentServer.put]
  · constructor <;>
      simp [run, Operation.program, YfsClient.unlink, YfsClient.acquire, YfsClient.get,
        YfsClient.release, acquire_of_held h, Shared.get, Cached.unlink, hget, Status.code,
        tick, set]

end OnePiece

/-! ## A server with one file -/

/-- New clients, and a server that has one extent. -/
def oneFile (Clt : Type) (inum : Inum) (buf : Buffer) : Shared Clt where
  clients _ := .new
  server := (ExtentServer.new.put inum buf default).2
  holder _ := none
  clock _ := 0

omit [DecidableEq Clt] in
theorem oneFile_sound (inum : Inum) (buf : Buffer) : (oneFile Clt inum buf).Sound where
  tidy _ := ExtentClient.new_tidy
  owned _ _ h := by cases h

omit [DecidableEq Clt] in
theorem oneFile_file (inum : Inum) (buf : Buffer) : (oneFile Clt inum buf).File inum buf where
  contents := Map.find_insert_self ..
  kept := fun ⟨_, h⟩ => absurd h List.not_mem_nil

end Shared
end Yfs
end Frangipani
