/-
How large an extent can get.

A flush sends the whole extent in one request, and the connection that receives it takes
requests of at most `MAX_PDU` bytes.  `write`, `setsize` and `add_entry_to_filesystem` do
not look at the length that they give an extent: `maxextent` and `FBIG` of the protocol are
used nowhere.  So every request of a flush is taken exactly as long as no call makes an
extent longer than `MAX_PDU` less the 52 bytes of the rest of the request.
-/
import Frangipani.Rpc.Connection
import Frangipani.Rpc.Pdu
import Frangipani.Transition.System
import Frangipani.Yfs.Contents

namespace Frangipani

namespace Extent

open Rpc

/-- `extent_protocol::attr` as it is marshalled. -/
def Attr.marshalled (a : Attr) : Rpc.Attr := ⟨a.atime, a.mtime, a.ctime, a.size⟩

/-- The arguments of a request, in the order in which they are marshalled. -/
def FlushRpc.arguments (eid : ExtentId) : FlushRpc → List Value
  | .put buf attr =>
    [⟨UInt64, .ulonglong, .ulonglong, eid⟩, ⟨List UInt8, .string, .string, buf⟩,
      ⟨Rpc.Attr, .attr, .attr, attr.marshalled⟩]
  | .remove => [⟨UInt64, .ulonglong, .ulonglong, eid⟩]

/-- The size of a request, with its header. -/
def FlushRpc.size (eid : ExtentId) (rpc : FlushRpc) : Nat := Pdu.size (rpc.arguments eid)

theorem FlushRpc.size_put (eid : ExtentId) (buf : Buffer) (attr : Attr) :
    (FlushRpc.put buf attr).size eid = buf.length + 52 := by
  have hsizes : Pdu.writeSizes ((FlushRpc.put buf attr).arguments eid) =
      List.replicate 12 1 ++ buf.length :: List.replicate 16 1 := rfl
  rw [FlushRpc.size, Pdu.size_eq, hsizes, List.sum_append, List.sum_cons]
  show 24 + (12 + (buf.length + 16)) = buf.length + 52
  omega

theorem FlushRpc.size_remove (eid : ExtentId) : FlushRpc.remove.size eid = 32 := rfl

end Extent

namespace Yfs

open Extent Program Rpc Text Transition

/-- The calls that make extents longer. -/
inductive GrowingCall
  | write (inum : Inum) (data : Buffer) (off : UInt64)
      (fits : off.toNat + data.length < 9223372036854775808)
  | setsize (inum : Inum) (size : UInt64)
  | addEntryToFilesystem (parent : Inum) (name : String) (isFile : Bool) (draws : List Draw)

def GrowingCall.operation : GrowingCall → Operation
  | .write inum data off _ => .write inum data off
  | .setsize inum size => .setsize inum size
  | .addEntryToFilesystem parent name isFile draws =>
    .addEntryToFilesystem parent name isFile draws

/-- The length of the longest extent that can be sent. -/
def longest : Nat := 10485708

namespace Shared

variable {Clt : Type} [DecidableEq Clt]

/-- The calls of all clients, in any order. -/
def growing (w₀ : Shared Clt) : System (Shared Clt) (Clt × GrowingCall) where
  init w := w = w₀
  step w a := some (w.run a.1 a.2.operation).2

/-- Every request that a flush would send now is one that the connection takes. -/
def Sendable (w : Shared Clt) : Prop :=
  ∀ c eid, ∀ rpc ∈ (w.clients c).flushRpcs w.server eid, (rpc.size eid : Int) ≤ maxPdu

/-- The number that a call of `add_entry_to_filesystem` draws. -/
def drawn (w : Shared Clt) (c : Clt) (isFile : Bool) (draws : List Draw) :
    Option Inum × Shared Clt :=
  (YfsClient.generateUniqueInum isFile draws).exec (answer c) w

/-- If the call finds its extent, it does not make it too long. -/
def KeepsShort (w : Shared Clt) (c : Clt) : GrowingCall → Prop
  | .write inum data off _ =>
    ((w.acquire c inum).get c inum).1.ret = YfsClient.OK → off.toNat + data.length ≤ longest
  | .setsize inum size =>
    ((w.acquire c inum).get c inum).1.ret = YfsClient.OK → size.toNat ≤ longest
  | .addEntryToFilesystem parent name isFile draws =>
    ((w.acquire c parent).get c parent).1.ret = YfsClient.OK →
      ∀ n ∈ (((w.acquire c parent).get c parent).2.drawn c isFile draws).1,
        ((w.acquire c parent).get c parent).1.buf.length +
          (entryText (decimal64 n) name).length ≤ longest

/-- No extent is too long to be sent. -/
structure Short (w : Shared Clt) : Prop where
  tidy : ∀ c, (w.clients c).Tidy
  cached : ∀ c eid buf, (w.clients c).extents.find eid = some buf → buf.length ≤ longest
  stored : ∀ eid buf, w.server.extents.find eid = some buf → buf.length ≤ longest

end Shared

/-! ## Where the buffers of a client and the server come from -/

section Sources

variable {c : ExtentClient} (h : c.Tidy) (server : ExtentServer) {eid id : Inum} {buf : Buffer}

include h

theorem get_source (now : UInt32)
    (hbuf : (c.get server eid now).2.1.extents.find id = some buf) :
    c.extents.find id = some buf ∨ server.extents.find id = some buf := by
  by_cases hid : id = eid
  · subst hid
    cases hfound : (c.extents.find id).or (server.extents.find id) with
    | none =>
      obtain ⟨hcached, hserver⟩ := Option.or_eq_none_iff.mp hfound
      rw [ExtentClient.get_missing hcached hserver] at hbuf
      exact .inl hbuf
    | some b =>
      obtain ⟨c', server', hget, -, hcached⟩ := callOn_get h server id now hfound
      rw [hget] at hbuf
      obtain rfl : b = buf := Option.some.inj (hcached.symm.trans hbuf)
      exact (Option.or_eq_some_iff.mp hfound).imp_right And.right
  · rw [(callOn_get_any h server eid now).extents id hid] at hbuf
    exact .inl hbuf

omit h in
theorem get_server (now : UInt32) : (c.get server eid now).2.2.extents = server.extents := by
  cases hcached : c.extents.find eid with
  | some b => rw [ExtentClient.get_cached server hcached]
  | none =>
    cases hserver : server.extents.find eid with
    | none => rw [ExtentClient.get_missing hcached hserver]
    | some b =>
      obtain ⟨attr, hget⟩ := ExtentClient.get_fetched hcached hserver now
      rw [hget]
      exact ExtentServer.get_extents ..

theorem flush_cached (hbuf : (c.flush server eid).1.extents.find id = some buf) :
    c.extents.find id = some buf := by
  by_cases hid : id = eid
  · subst hid
    rw [h.flush_uncached server id] at hbuf
    cases hbuf
  · rwa [(callOn_flush h server eid).extents id hid] at hbuf

theorem flush_stored (hbuf : (c.flush server eid).2.extents.find id = some buf) :
    c.extents.find id = some buf ∨ server.extents.find id = some buf := by
  by_cases hid : id = eid
  · subst hid
    by_cases hpending : id ∈ c.removedExtents
    · -- Nothing is written back, and the removal can only take the extent away.
      have hmem : id ∉ c.modifiedExtents := by
        rw [h.queued.mem id, h.pendingUncached id hpending]
        exact Bool.false_ne_true
      rw [ExtentClient.flush, ExtentClient.flushModified_of_not_mem hmem] at hbuf
      rcases (c.flushRemoved_effect server id).2 with hserver | hserver
      · rw [hserver] at hbuf
        exact .inr hbuf
      · rw [hserver] at hbuf
        cases hstored : server.extents.find id with
        | none =>
          rw [ExtentServer.remove_of_not_find hstored, hstored] at hbuf
          cases hbuf
        | some b =>
          rw [(ExtentServer.remove_of_find hstored).2, Map.find_erase_self] at hbuf
          cases hbuf
    · rw [flush_contents h server id hpending] at hbuf
      exact (Option.or_eq_some_iff.mp hbuf).imp_right And.right
  · rw [(callOn_flush h server eid).server id hid] at hbuf
    exact .inr hbuf

end Sources

namespace Shared

variable {Clt : Type} [DecidableEq Clt] {w : Shared Clt}

theorem Short.set (h : w.Short) (c : Clt) {ec : ExtentClient} {server : ExtentServer}
    (htidy : ec.Tidy)
    (hcached : ∀ eid buf, ec.extents.find eid = some buf → buf.length ≤ longest)
    (hstored : ∀ eid buf, server.extents.find eid = some buf → buf.length ≤ longest) :
    (w.set c ec server).Short where
  tidy d := by
    by_cases hd : d = c
    · rw [hd, clients_set_self]
      exact htidy
    · rw [clients_set_ne hd]
      exact h.tidy d
  cached d eid buf hbuf := by
    by_cases hd : d = c
    · rw [hd, clients_set_self] at hbuf
      exact hcached eid buf hbuf
    · rw [clients_set_ne hd] at hbuf
      exact h.cached d eid buf hbuf
  stored := hstored

theorem Short.acquire (h : w.Short) (c : Clt) (lid : Inum) : (w.acquire c lid).Short := by
  unfold Shared.acquire
  split
  · exact ⟨h.tidy, h.cached, h.stored⟩
  · rename_i d _
    split
    · exact h
    · have hflush : (w.flush d lid).Short := by
        refine h.set d ((h.tidy d).flush w.server lid) (fun eid buf hbuf => ?_)
          fun eid buf hbuf => ?_
        · exact h.cached d eid buf (flush_cached (h.tidy d) w.server hbuf)
        · rcases flush_stored (h.tidy d) w.server hbuf with hbuf | hbuf
          · exact h.cached d eid buf hbuf
          · exact h.stored eid buf hbuf
      exact ⟨hflush.tidy, hflush.cached, hflush.stored⟩

theorem Short.get (h : w.Short) (c : Clt) (eid : Inum) : (w.get c eid).2.Short := by
  have hset : (w.set c ((w.clients c).get w.server eid (w.clock 0)).2.1
      ((w.clients c).get w.server eid (w.clock 0)).2.2).Short := by
    refine h.set c ((h.tidy c).get w.server eid (w.clock 0)) (fun id buf hbuf => ?_)
      fun id buf hbuf => ?_
    · rcases get_source (h.tidy c) w.server (w.clock 0) hbuf with hbuf | hbuf
      · exact h.cached c id buf hbuf
      · exact h.stored id buf hbuf
    · rw [get_server] at hbuf
      exact h.stored id buf hbuf
  exact ⟨hset.tidy, hset.cached, hset.stored⟩

theorem Short.put (h : w.Short) (c : Clt) (eid : Inum) {buf : Buffer}
    (hbuf : buf.length ≤ longest) : (w.put c eid buf).2.Short := by
  have hset : (w.set c ((w.clients c).put eid buf (w.clock 0) (w.clock 1) (w.clock 2)).2
      w.server).Short := by
    refine h.set c ((h.tidy c).entered eid buf _) (fun id b hb => ?_) h.stored
    have hb : ((w.clients c).extents.insert eid buf).find id = some b := hb
    rw [Map.find_insert] at hb
    split at hb
    · obtain rfl : buf = b := Option.some.inj hb
      exact hbuf
    · exact h.cached c id b hb
  exact ⟨hset.tidy, hset.cached, hset.stored⟩

theorem clients_get (w : Shared Clt) (c : Clt) (eid : Inum) :
    (w.get c eid).2.clients c = ((w.clients c).get w.server eid (w.clock 0)).2.1 :=
  Function.update_self ..

theorem clients_put (w : Shared Clt) (c : Clt) (eid : Inum) (buf : Buffer) :
    ((w.put c eid buf).2.clients c).extents = (w.clients c).extents.insert eid buf :=
  congrArg (fun e => e.extents) (Function.update_self c _ w.clients)

theorem get_ok (htidy : ∀ c, (w.clients c).Tidy) {c : Clt} {eid : Inum}
    (hret : (w.get c eid).1.ret = YfsClient.OK) :
    ((w.get c eid).2.clients c).extents.find eid = some (w.get c eid).1.buf := by
  cases hfound : ((w.clients c).extents.find eid).or (w.server.extents.find eid) with
  | none =>
    obtain ⟨hcached, hserver⟩ := Option.or_eq_none_iff.mp hfound
    rw [Shared.get, ExtentClient.get_missing hcached hserver] at hret
    cases hret
  | some buf =>
    obtain ⟨ec, server, hget, -, hcached⟩ :=
      callOn_get (htidy c) w.server eid (w.clock 0) hfound
    rw [clients_get, Shared.get, hget]
    exact hcached

theorem cached_get (htidy : ∀ c, (w.clients c).Tidy) {c : Clt} {eid : Inum} {buf : Buffer}
    (hcached : (w.clients c).extents.find eid = some buf) (id : Inum) :
    ((w.get c id).2.clients c).extents.find eid = some buf := by
  rw [clients_get]
  by_cases hid : eid = id
  · subst hid
    rw [ExtentClient.get_cached w.server hcached]
    exact (congrArg (fun m => m.find eid) (ExtentServer.get_extents ..)).trans hcached
  · rw [(callOn_get_any (htidy c) w.server id (w.clock 0)).extents eid hid]
    exact hcached

theorem ret_of_cached {c : Clt} {eid : Inum} {buf : Buffer}
    (hcached : (w.clients c).extents.find eid = some buf) :
    (w.get c eid).1.ret = YfsClient.OK := by
  rw [Shared.get, ExtentClient.get_cached w.server hcached]
  rfl

/-! ## Drawing a number -/

theorem drawn_cons (w : Shared Clt) (c : Clt) (isFile : Bool) (d : Draw) (draws : List Draw) :
    w.drawn c isFile (d :: draws) =
      if (w.get c (d.inum isFile)).1.ret = YfsClient.OK then
        (w.get c (d.inum isFile)).2.drawn c isFile draws
      else (some (d.inum isFile), (w.get c (d.inum isFile)).2) := by
  by_cases hret : (w.get c (d.inum isFile)).1.ret = YfsClient.OK <;>
    simp [drawn, YfsClient.generateUniqueInum, YfsClient.get, hret]

/-- Drawing only reads, and the number is not one that is cached. -/
theorem drawn_spec {c : Clt} {eid : Inum} {buf : Buffer} (isFile : Bool) (draws : List Draw) :
    ∀ {w : Shared Clt}, w.Short → (w.clients c).extents.find eid = some buf →
      (w.drawn c isFile draws).2.Short ∧
      ((w.drawn c isFile draws).2.clients c).extents.find eid = some buf ∧
      ∀ n ∈ (w.drawn c isFile draws).1, n ≠ eid := by
  induction draws with
  | nil =>
    intro w h hcached
    exact ⟨h, hcached, fun n hn => absurd hn (Option.not_mem_none n)⟩
  | cons d draws ih =>
    intro w h hcached
    have hget := h.get c (d.inum isFile)
    have hkept := cached_get h.tidy hcached (d.inum isFile)
    rw [drawn_cons]
    split
    · exact ih hget hkept
    · rename_i hret
      refine ⟨hget, hkept, fun n hn heid => ?_⟩
      obtain rfl : d.inum isFile = n := Option.some.inj hn
      rw [heid] at hret
      exact hret (ret_of_cached hcached)

/-! ## `add_entry_to_filesystem` -/

section AddEntry

variable {c : Clt} {parent : Inum} {name : String} {isFile : Bool} {draws : List Draw}

theorem run_addEntry_of_fail (hret : ((w.acquire c parent).get c parent).1.ret ≠ YfsClient.OK) :
    (w.run c (.addEntryToFilesystem parent name isFile draws)).2 =
      ((w.acquire c parent).get c parent).2 := by
  simp [run, Operation.program, YfsClient.addEntryToFilesystem, YfsClient.acquire, YfsClient.get,
    YfsClient.release, hret]

theorem run_addEntry_of_none {v : Shared Clt}
    (hret : ((w.acquire c parent).get c parent).1.ret = YfsClient.OK)
    (hdrawn : ((w.acquire c parent).get c parent).2.drawn c isFile draws = (none, v)) :
    (w.run c (.addEntryToFilesystem parent name isFile draws)).2 = v := by
  rw [drawn] at hdrawn
  simp [run, Operation.program, YfsClient.addEntryToFilesystem, YfsClient.acquire, YfsClient.get,
    YfsClient.release, hret, Prog.exec_bind, hdrawn]

theorem run_addEntry_of_some {v : Shared Clt} {n : Inum}
    (hret : ((w.acquire c parent).get c parent).1.ret = YfsClient.OK)
    (hdrawn : ((w.acquire c parent).get c parent).2.drawn c isFile draws = (some n, v)) :
    (w.run c (.addEntryToFilesystem parent name isFile draws)).2 =
      (((v.acquire c n).put c parent (((w.acquire c parent).get c parent).1.buf ++
        bytes (entryText (decimal64 n) name))).2.put c n []).2 := by
  rw [drawn] at hdrawn
  have hput : ∀ (u : Shared Clt) (eid : Inum) (buf : Buffer), (u.put c eid buf).1 = 0 :=
    fun _ _ _ => rfl
  simp [run, Operation.program, YfsClient.addEntryToFilesystem, YfsClient.addEntry,
    YfsClient.acquire, YfsClient.get, YfsClient.put, YfsClient.release, hret, Prog.exec_bind,
    hdrawn, hput]

end AddEntry

/-! ## Calls -/

omit [DecidableEq Clt] in
theorem not_sendable (htidy : ∀ c, (w.clients c).Tidy) {c : Clt} {eid : Inum} {buf : Buffer}
    (hcached : (w.clients c).extents.find eid = some buf) (hlong : longest < buf.length) :
    ¬ w.Sendable := by
  intro hall
  have hmem : eid ∈ (w.clients c).modifiedExtents := by
    rw [(htidy c).queued.mem eid, hcached]
    rfl
  have hrpc := hall c eid
    (.put buf (((w.clients c).extentAttrs.find eid).getD default)) (by
      rw [ExtentClient.flushRpcs, if_pos hmem, hcached]
      exact List.mem_append_left _ List.mem_cons_self)
  rw [FlushRpc.size_put] at hrpc
  have hmax : maxPdu = 10485760 := rfl
  unfold longest at hlong
  omega

omit [DecidableEq Clt] in
theorem Short.sendable (h : w.Short) : w.Sendable := by
  intro c eid rpc hrpc
  have hmax : maxPdu = 10485760 := rfl
  rcases List.mem_append.mp hrpc with hrpc | hrpc
  · split at hrpc
    · rename_i hmem
      rw [(h.tidy c).queued.mem eid] at hmem
      obtain ⟨buf, hbuf⟩ := Option.isSome_iff_exists.mp hmem
      rw [List.mem_singleton.mp hrpc, FlushRpc.size_put, hbuf]
      have hshort := h.cached c eid buf hbuf
      unfold longest at hshort
      show ((buf.length + 52 : Nat) : Int) ≤ maxPdu
      omega
    · exact absurd hrpc List.not_mem_nil
  · split at hrpc
    · rw [List.mem_singleton.mp hrpc, FlushRpc.size_remove, hmax]
      decide
    · exact absurd hrpc List.not_mem_nil

theorem Short.open (h : w.Short) (c : Clt) (inum : Inum) :
    ((w.acquire c inum).get c inum).2.Short := (h.acquire c inum).get c inum

theorem Short.found (h : w.Short) {c : Clt} {inum : Inum}
    (hret : ((w.acquire c inum).get c inum).1.ret = YfsClient.OK) :
    ((w.acquire c inum).get c inum).1.buf.length ≤ longest :=
  (h.open c inum).cached c inum _ (get_ok (h.acquire c inum).tidy hret)

theorem tidy_put (htidy : ∀ c, (w.clients c).Tidy) (c : Clt) (eid : Inum) (buf : Buffer) :
    ∀ d, ((w.put c eid buf).2.clients d).Tidy := by
  intro d
  by_cases hd : d = c
  · rw [hd]
    have hclient : (w.put c eid buf).2.clients c = _ := Function.update_self ..
    rw [hclient]
    exact (htidy c).entered eid buf _
  · have hclient : (w.put c eid buf).2.clients d = w.clients d := Function.update_of_ne hd ..
    rw [hclient]
    exact htidy d

theorem Short.run (h : w.Short) (c : Clt) (call : GrowingCall) (ha : w.KeepsShort c call) :
    (w.run c call.operation).2.Short := by
  cases call with
  | write inum data off fits =>
    show (w.run c (.write inum data off)).2.Short
    rw [run_write_snd]
    simp only
    split
    · exact h.open c inum
    · rename_i hret
      have hfound := h.found (not_not.mp hret)
      refine (h.open c inum).put c inum ?_
      rw [length_writeTo (lt_of_le_of_lt hfound (by decide)) fits]
      exact max_le hfound (ha (not_not.mp hret))
  | setsize inum size =>
    show (w.run c (.setsize inum size)).2.Short
    rw [run_setsize_snd]
    simp only
    split
    · exact h.open c inum
    · rename_i hret
      refine (h.open c inum).put c inum ?_
      rw [length_resize]
      exact ha (not_not.mp hret)
  | addEntryToFilesystem parent name isFile draws =>
    show (w.run c (.addEntryToFilesystem parent name isFile draws)).2.Short
    by_cases hret : ((w.acquire c parent).get c parent).1.ret = YfsClient.OK
    · obtain ⟨hshort, -, -⟩ := drawn_spec isFile draws (h.open c parent)
        (get_ok (h.acquire c parent).tidy hret)
      have hline := ha hret
      cases hdrawn : ((w.acquire c parent).get c parent).2.drawn c isFile draws with
      | mk entryInum v =>
        rw [hdrawn] at hshort hline
        cases entryInum with
        | none =>
          rw [run_addEntry_of_none hret hdrawn]
          exact hshort
        | some n =>
          rw [run_addEntry_of_some hret hdrawn]
          refine ((hshort.acquire c n).put c parent ?_).put c n (Nat.zero_le _)
          rw [List.length_append, bytes, List.length_map]
          exact hline n rfl
    · rw [run_addEntry_of_fail hret]
      exact h.open c parent

theorem put_not_sendable (htidy : ∀ c, (w.clients c).Tidy) (c : Clt) (eid : Inum) {buf : Buffer}
    (hlong : longest < buf.length) : ¬ (w.put c eid buf).2.Sendable := by
  have hcached : ((w.put c eid buf).2.clients c).extents.find eid = some buf := by
    rw [clients_put, Map.find_insert_self]
  exact not_sendable (tidy_put htidy c eid buf) hcached hlong

/-- Putting another extent does not help. -/
theorem put_put_not_sendable (htidy : ∀ c, (w.clients c).Tidy) (c : Clt) {eid id : Inum}
    (hne : eid ≠ id) {buf : Buffer} (hlong : longest < buf.length) (buf' : Buffer) :
    ¬ ((w.put c eid buf).2.put c id buf').2.Sendable := by
  have hcached : (((w.put c eid buf).2.put c id buf').2.clients c).extents.find eid = some buf := by
    rw [clients_put, Map.find_insert_ne _ _ hne, clients_put, Map.find_insert_self]
  exact not_sendable (tidy_put (tidy_put htidy c eid buf) c id buf') hcached hlong

theorem Short.run_long (h : w.Short) (c : Clt) (call : GrowingCall) (ha : ¬ w.KeepsShort c call) :
    ¬ (w.run c call.operation).2.Sendable := by
  cases call with
  | write inum data off fits =>
    obtain ⟨hret, hlong⟩ := Classical.not_imp.mp ha
    show ¬ (w.run c (.write inum data off)).2.Sendable
    rw [run_write_snd]
    simp only
    rw [if_neg (not_not_intro hret)]
    refine put_not_sendable (h.open c inum).tidy c inum ?_
    rw [length_writeTo (lt_of_le_of_lt (h.found hret) (by decide)) fits]
    exact lt_max_of_lt_right (Nat.not_le.mp hlong)
  | setsize inum size =>
    obtain ⟨hret, hlong⟩ := Classical.not_imp.mp ha
    show ¬ (w.run c (.setsize inum size)).2.Sendable
    rw [run_setsize_snd]
    simp only
    rw [if_neg (not_not_intro hret)]
    refine put_not_sendable (h.open c inum).tidy c inum ?_
    rw [length_resize]
    exact Nat.not_le.mp hlong
  | addEntryToFilesystem parent name isFile draws =>
    obtain ⟨hret, hrest⟩ := Classical.not_imp.mp ha
    obtain ⟨n, hrest⟩ := not_forall.mp hrest
    obtain ⟨hn, hlong⟩ := Classical.not_imp.mp hrest
    obtain ⟨hshort, -, hne⟩ := drawn_spec isFile draws (h.open c parent)
      (get_ok (h.acquire c parent).tidy hret)
    show ¬ (w.run c (.addEntryToFilesystem parent name isFile draws)).2.Sendable
    rw [run_addEntry_of_some hret (Prod.ext hn rfl)]
    refine put_put_not_sendable (hshort.acquire c n).tidy c (Ne.symm (hne n hn)) ?_ []
    rw [List.length_append, bytes, List.length_map]
    exact Nat.not_le.mp hlong

/-- For any number of clients and any sequence of their calls, from any state whose extents are
short enough: every request that a flush would send is one that the connection takes, all along the
run, if and only if no call makes an extent longer than `longest`. -/
theorem sendable_iff_keepsShort {w₀ : Shared Clt} (hw : w₀.Short) (as : List (Clt × GrowingCall)) :
    (growing w₀).AlongRun Sendable w₀ as ↔
      (growing w₀).StepsMeet (fun w a => w.KeepsShort a.1 a.2) w₀ as := by
  refine System.alongRun_iff_stepsMeet (J := Short) (fun w h => h.sendable) ?_ ?_ hw
  · intro w a t h ha hstep
    obtain rfl := Option.some.inj hstep
    exact h.run a.1 a.2 ha
  · intro w a t h ha hstep
    obtain rfl := Option.some.inj hstep
    exact h.run_long a.1 a.2 ha

omit [DecidableEq Clt] in
theorem oneFile_short (inum : Inum) {buf : Buffer} (hbuf : buf.length ≤ longest) :
    (oneFile Clt inum buf).Short where
  tidy _ := ExtentClient.new_tidy
  cached _ _ _ h := by cases h
  stored eid b h := by
    have h : (Map.empty.insert inum buf).find eid = some b := h
    rw [Map.find_insert] at h
    split at h
    · obtain rfl : buf = b := Option.some.inj h
      exact hbuf
    · cases h

/-- A write of one byte behind the first 4096. -/
theorem sendable_page :
    (growing (oneFile Nat 7 [])).AlongRun Sendable (oneFile Nat 7 [])
      [(1, .write 7 [33] 4096 (by decide))] :=
  (sendable_iff_keepsShort (oneFile_short 7 (Nat.zero_le _)) _).mpr
    fun _ _ => ⟨fun _ => by decide, trivial⟩

/-- A write of one byte behind the first 10 MiB returns `OK`, and the file cannot be sent. -/
theorem tenMiB_not_sendable :
    ∃ w, (oneFile Nat 7 []).run 1 (.write 7 [33] 10485760) = ((0, some 1), w) ∧ ¬ w.Sendable := by
  obtain ⟨w, hrun, -⟩ := run_write (oneFile_sound 7 []) (oneFile_file 7 []) 1 [33] 10485760
  obtain ⟨v, hget, -⟩ := leaves_open (oneFile_sound 7 []) (oneFile_file 7 []) 1
  refine ⟨w, hrun, ?_⟩
  have hshort : (oneFile Nat 7 []).Short := oneFile_short 7 (Nat.zero_le _)
  have hret : (((oneFile Nat 7 []).acquire 1 7).get 1 7).1.ret = YfsClient.OK := by
    rw [hget]
  have hlong := hshort.run_long 1 (.write 7 [33] 10485760 (by decide))
    fun hkeeps => absurd (hkeeps hret) (by decide)
  have hstate : ((oneFile Nat 7 []).run 1 (.write 7 [33] 10485760)).2 = w := congrArg Prod.snd hrun
  rw [← hstate]
  exact hlong

end Shared
end Yfs
end Frangipani
