/-
`unlink` through the cache of a client.

The call reads the directory, writes it back without the entry, and removes the extent
of the file with `extent_client::remove`, which looks in the cache of the client alone.
A file that the client has not read since its last flush is not there, and a copy on
the server stays until the id is flushed.  So the call does what it says exactly when
the cache has the file and the server does not.
-/
import Frangipani.Extent.Removal
import Frangipani.Yfs.Directory

namespace Frangipani
namespace Yfs

open Extent Transition Text

/-! ## The calls -/

namespace Cached

/-- `ilookup`, with the lock of the directory held. -/
def ilookup (ec : ExtentClient) (server : ExtentServer) (di : Inum) (name : String)
    (now : UInt32) : Inum × ExtentClient × ExtentServer :=
  if !isdir di then (0, ec, server)
  else
    match ec.get server di now with
    | ((.ok, some buf), ec, server) => (lookupText (text buf) name, ec, server)
    | (_, ec, server) => (0, ec, server)

/-- `unlink`, with the locks of the directory and the file held.  `finum` is what the
uninitialised variable of `n2i` holds, and the times are the values of `time(0)`. -/
def unlink (ec : ExtentClient) (server : ExtentServer) (parent : Inum) (name : String)
    (finum : Inum) (now mtime ctime atime : UInt32) :
    Extent.Status × ExtentClient × ExtentServer :=
  match ec.get server parent now with
  | ((.ok, some buf), ec, server) =>
    match ec.put parent (bytes (unlinkText (text buf) name)) mtime ctime atime with
    | (.ok, ec) =>
      let (ret, ec) := ec.remove (unlinkTarget (text buf) name finum)
      (ret, ec, server)
    | (ret, ec) => (ret, ec, server)
  | ((ret, _), ec, server) => (ret, ec, server)

end Cached

section

variable {ec : ExtentClient} {server : ExtentServer} {parent inum : Inum} {buf : Buffer}
  {es : List Dirent} {name : String}

theorem text_bytes_dirText (htext : text buf = dirText es) (p : Dirent → Bool) :
    text (bytes (dirText (es.filter p))) = dirText (es.filter p) :=
  text_bytes_filter htext p

theorem Cached.unlink_effect (hqueued : ec.Queued) (hne : inum ≠ parent)
    (hbuf : (ec.extents.find parent).or (server.extents.find parent) = some buf)
    (htext : text buf = dirText es) (hwords : ∀ e ∈ es, IsWord e.name)
    (hone : es.filter (fun e => e.name == name) = [⟨name, inum⟩]) (finum : Inum)
    (now mtime ctime atime : UInt32) :
    ∃ ec' server', unlink ec server parent name finum now mtime ctime atime =
        (if (ec.extents.find inum).isSome then .ok else .noent, ec', server') ∧
      ec'.Queued ∧ ec'.extents.find inum = none ∧
      ec'.extents.find parent = some (bytes (dirText (es.filter fun e => e.name != name))) ∧
      server'.extents = server.extents := by
  obtain ⟨ec₁, server₁, hget, hqueued₁, hfind, hserver⟩ :=
    hqueued.get_of_contents hbuf now
  have htarget : unlinkTarget (text buf) name finum = inum := by
    rw [htext, unlinkTarget_dirText hwords, hone]
    rfl
  have hnew : unlinkText (text buf) name = dirText (es.filter fun e => e.name != name) := by
    rw [htext, unlinkText_dirText hwords]
  have hput : ec₁.put parent (bytes (unlinkText (text buf) name)) mtime ctime atime =
      (.ok, (ec₁.put parent (bytes (unlinkText (text buf) name)) mtime ctime atime).2) := rfl
  generalize hec : (ec₁.put parent (bytes (unlinkText (text buf) name)) mtime ctime atime).2 =
    ec₂ at hput
  have hqueued₂ : ec₂.Queued := hec ▸ hqueued₁.entered parent _ _
  have hparent₂ : ec₂.extents.find parent =
      some (bytes (dirText (es.filter fun e => e.name != name))) := by
    rw [← hnew, ← hec]
    exact Map.find_insert_self ..
  have hinum₂ : ec₂.extents.find inum = ec.extents.find inum := by
    rw [← hfind inum hne, ← hec]
    exact Map.find_insert_ne _ _ hne
  refine ⟨(ec₂.remove inum).2, server₁, ?_, hqueued₂.remove inum, ?_, ?_, hserver⟩
  · simp only [unlink, hget, hput, htarget]
    rw [← hinum₂, ← ExtentClient.remove_status]
  · exact ExtentClient.remove_find_self ec₂ inum
  · rw [ExtentClient.remove_find ec₂ (Ne.symm hne), hparent₂]

end

/-! ## Removal, for every client -/

section

variable {Clt : Type} [DecidableEq Clt]

/-- The state in which a call of client `c` on a directory and a file has returned.  The history
starts anew. -/
def returned (w : Sharing Clt) (c : Clt) (parent inum : Inum) (ec : ExtentClient)
    (server : ExtentServer) : Sharing Clt where
  clients := Function.update w.clients c ec
  pc := w.pc
  server := server
  holder := w.holder
  flushed := Function.update (Function.update w.flushed parent false) inum false
  history := []

/-- Every read of the id has come back with `NOENT`. -/
def ReadsNoent (id : ExtentId) (w : Sharing Clt) : Prop :=
  ∀ d reply, .got d id reply ∈ w.history → reply = (.noent, none)

/-- The call has returned `OK`, the name is not found any more, and until somebody puts the file
again every read of it comes back with `NOENT`. -/
structure Removed (w : Sharing Clt) (c : Clt) (parent inum : Inum) (name : String)
    (res : Extent.Status × ExtentClient × ExtentServer) : Prop where
  status : res.1 = .ok
  lookup : ∀ now, (Cached.ilookup res.2.1 res.2.2 parent name now).1 = 0
  reads : ∀ as : List (Action Clt),
    Sharing.system.StepsMeet (Sharing.NoPut inum) (returned w c parent inum res.2.1 res.2.2) as →
      Sharing.system.AlongRun (ReadsNoent inum) (returned w c parent inum res.2.1 res.2.2) as

variable {w : Sharing Clt} {c : Clt} {parent inum : Inum} {ec : ExtentClient}
  {server : ExtentServer}

theorem returned_clients_self : (returned w c parent inum ec server).clients c = ec :=
  Function.update_self ..

theorem returned_clients_ne {d : Clt} (hd : d ≠ c) :
    (returned w c parent inum ec server).clients d = w.clients d :=
  Function.update_of_ne hd ..

/-- With the file out of the cache and not on the server, nobody has it. -/
theorem gone_returned (parent : Inum) (h : w.Coherent) (hinum : w.CanCall c inum)
    (hqueued : ec.Queued)
    (hcache : ec.extents.find inum = none) (hserver : server.extents.find inum = none) :
    (returned w c parent inum ec server).Gone inum := by
  refine ⟨fun d => ?_, fun d => ?_, hserver, fun d buf isGet hpc => ?_, nofun⟩
  · by_cases hd : d = c
    · rw [hd, returned_clients_self]
      exact hqueued
    · rw [returned_clients_ne hd]
      exact h.queued d
  · by_cases hd : d = c
    · rw [hd, returned_clients_self, hcache]
    · rw [returned_clients_ne hd, h.uncached hinum.1 hd]
  · -- A client in the middle of a fetch holds the lock, and the holder is in no call.
    have hpc : w.pc d = .fetching inum buf isGet := hpc
    have hholder := (h.inCall d inum (Sharing.inCall_of_fetching hpc)).1
    have hd : d = c := Option.some.inj (hholder.symm.trans hinum.1)
    rw [hd, hinum.2] at hpc
    cases hpc

/-- As long as the server has a copy, there is a run in which the file is read. -/
theorem read_of_server {v : Sharing Clt} (buf : Buffer) (hcall : v.CanCall c inum)
    (hcache : (v.clients c).extents.find inum = none)
    (hserver : v.server.extents.find inum = some buf)
    (hreads : ∀ as : List (Action Clt), Sharing.system.StepsMeet (Sharing.NoPut inum) v as →
      Sharing.system.AlongRun (ReadsNoent inum) v as) : False := by
  obtain ⟨t, hrun, hmem⟩ := Sharing.run_get_of_server hcall hcache hserver 0
  have hmeet : Sharing.system.StepsMeet (Sharing.NoPut inum) v [.get c inum 0, .fetchAttr c] :=
    fun _ _ => ⟨nofun, fun _ _ => ⟨nofun, trivial⟩⟩
  cases (hreads _ hmeet).run hrun c _ hmem

theorem reads_returned (parent : Inum) (server : ExtentServer) (h : w.Coherent)
    (hinum : w.CanCall c inum) (hqueued : ec.Queued) (hcache : ec.extents.find inum = none) :
    (∀ as : List (Action Clt),
      Sharing.system.StepsMeet (Sharing.NoPut inum) (returned w c parent inum ec server) as →
        Sharing.system.AlongRun (ReadsNoent inum) (returned w c parent inum ec server) as) ↔
      server.extents.find inum = none := by
  constructor
  · intro hreads
    by_contra hne
    obtain ⟨buf, hbuf⟩ := Option.ne_none_iff_exists'.mp hne
    refine read_of_server (v := returned w c parent inum ec server) buf hinum ?_ hbuf hreads
    rw [returned_clients_self, hcache]
  · intro hserver as hmeet
    have hgone := gone_returned parent h hinum hqueued hcache hserver
    have halong := System.StepsMeet.alongRun (P := Sharing.Gone inum)
      (fun _ _ _ hg hok hs => hg.step hok hs) hgone hmeet
    exact halong.mono fun _ hg => hg.reads

/-- With the lock of the file held, for a directory with exactly one entry of the name: `unlink`
removes the file if and only if the cache of the client has it and the server does not. -/
theorem unlink_removed_iff (hw : Sharing.system.Reachable w)
    (hinum : w.CanCall c inum) (hdir : isdir parent = true) (hfile : isfile inum = true)
    {buf : Buffer} {es : List Dirent} {name : String}
    (hbuf : ((w.clients c).extents.find parent).or (w.server.extents.find parent) = some buf)
    (htext : text buf = dirText es) (hwords : ∀ e ∈ es, IsWord e.name)
    (hone : es.filter (fun e => e.name == name) = [⟨name, inum⟩]) (finum : Inum)
    (now mtime ctime atime : UInt32) :
    Removed w c parent inum name
        (Cached.unlink (w.clients c) w.server parent name finum now mtime ctime atime) ↔
      ((w.clients c).extents.find inum).isSome ∧ w.server.extents.find inum = none := by
  have hcoherent := Sharing.coherent_of_reachable hw
  have hne : inum ≠ parent := by
    rintro rfl
    rw [isdir, hfile] at hdir
    cases hdir
  obtain ⟨ec, server, hres, hqueued, hcache, hdirText, hserver⟩ :=
    Cached.unlink_effect (hcoherent.queued c) hne hbuf htext hwords hone finum now mtime ctime atime
  have hreads := reads_returned parent server hcoherent hinum hqueued hcache
  rw [hserver] at hreads
  rw [hres]
  constructor
  · rintro ⟨hstatus, -, hlater⟩
    refine ⟨?_, hreads.mp hlater⟩
    by_contra hno
    rw [if_neg hno] at hstatus
    cases hstatus
  · rintro ⟨hcached, hmissing⟩
    refine ⟨if_pos hcached, fun now => ?_, hreads.mpr hmissing⟩
    have hnone : (es.filter fun e => e.name != name).find? (fun e => e.name == name) = none :=
      List.find?_eq_none.mpr fun e he => by simpa using (List.mem_filter.mp he).2
    have hkept : ∀ e ∈ es.filter fun e => e.name != name, IsWord e.name :=
      fun e he => hwords e (List.mem_filter.mp he).1
    simp only [Cached.ilookup, hdir, Bool.not_true, Bool.false_eq_true, if_false,
      ExtentClient.get_cached server hdirText now]
    rw [text_bytes_dirText htext, lookupText_dirText hkept, hnone]
    rfl

end

/-! ## A file in the three places -/

/-- Client 1 has written a directory with one entry and the empty file. -/
def written : List (Action Nat) :=
  [.acquire 1 1, .put 1 1 (bytes (dirText [⟨"a", 0x80000005⟩])) 0 0 0, .acquire 1 0x80000005,
    .put 1 0x80000005 [] 0 0 0]

/-- The file has been flushed to the server. -/
def stored : List (Action Nat) := written ++ [.flush 1 0x80000005, .flushRemoval 1]

/-- The file has been read again. -/
def readBack : List (Action Nat) := stored ++ [.get 1 0x80000005 0, .fetchAttr 1]

theorem unlink_removed_written :
    ∃ w : Sharing Nat, Sharing.system.Reachable w ∧
      Removed w 1 1 0x80000005 "a" (Cached.unlink (w.clients 1) w.server 1 "a" 0 1 1 1 1) := by
  have hreach : Sharing.system.Reachable (Sharing.system.final .start written) :=
    System.Reachable.final written (.init rfl) (by decide +kernel)
  have htext : text (bytes (dirText [⟨"a", 0x80000005⟩])) = dirText [⟨"a", 0x80000005⟩] := by
    decide +kernel
  refine ⟨_, hreach, (unlink_removed_iff (c := 1) hreach ?_ ?_ ?_ ?_ htext ?_ ?_ 0 1 1 1 1).mpr ?_⟩
  all_goals decide +kernel

/-- A file that only the server has is not removed and the call returns `NOENT`.  A file that the
server has too is read again. -/
theorem unlink_leaves_stored :
    (∃ w : Sharing Nat, Sharing.system.Reachable w ∧ w.CanCall 1 1 ∧ w.CanCall 1 0x80000005 ∧
      (w.clients 1).extents.find 1 = some (bytes (dirText [⟨"a", 0x80000005⟩])) ∧
      (Cached.unlink (w.clients 1) w.server 1 "a" 0 1 1 1 1).1 = .noent) ∧
    ∃ w : Sharing Nat, Sharing.system.Reachable w ∧ w.CanCall 1 1 ∧ w.CanCall 1 0x80000005 ∧
      (w.clients 1).extents.find 1 = some (bytes (dirText [⟨"a", 0x80000005⟩])) ∧
      (Cached.unlink (w.clients 1) w.server 1 "a" 0 1 1 1 1).1 = .ok ∧
      ¬ Removed w 1 1 0x80000005 "a" (Cached.unlink (w.clients 1) w.server 1 "a" 0 1 1 1 1) := by
  have hstored : Sharing.system.Reachable (Sharing.system.final .start stored) :=
    System.Reachable.final stored (.init rfl) (by decide +kernel)
  have hread : Sharing.system.Reachable (Sharing.system.final .start readBack) :=
    System.Reachable.final readBack (.init rfl) (by decide +kernel)
  refine ⟨⟨_, hstored, ?_, ?_, ?_, ?_⟩, _, hread, ?_, ?_, ?_, ?_,
    fun hremoved => read_of_server (c := 1) [] ?_ ?_ ?_ hremoved.reads⟩
  all_goals decide +kernel

end Yfs
end Frangipani
