/-
The handlers of the FUSE server.

A handler gets a request of the kernel, calls operations of `yfs_client`, and answers with
a `fuse_reply_*` call.  The handlers are programs whose calls are the operations and the
replies.

Arguments that no handler reads are left out.  What a handler reads of a variable that it
has not set comes from `Unset`.
-/
import Frangipani.Yfs.Operations

namespace Frangipani
namespace Fuse

open Extent Program Text Yfs YfsClient

/-! ## Replies -/

abbrev ENOENT : Nat := 2

abbrev ENOTDIR : Nat := 20

abbrev ENOSYS : Nat := 38

/-- `struct stat`, as far as it is set.  The rest of it is zero. -/
structure Stat where
  ino : Inum
  mode : UInt32
  nlink : UInt64
  atime : UInt64
  mtime : UInt64
  ctime : UInt64
  size : UInt64
  deriving DecidableEq, Repr

/-- `struct fuse_entry_param`.  The timeouts are in seconds. -/
structure EntryParam where
  ino : Inum
  attr : Stat
  attrTimeout : Nat
  entryTimeout : Nat
  deriving DecidableEq, Repr

/-- The `fuse_reply_*` calls, with their arguments after the request.  `buf` has the bytes from
the pointer to the end of the object it points into, and the number of bytes to send. -/
inductive Reply
  | err (errno : Nat)
  | attr (st : Stat) (timeout : Nat)
  | entry (e : EntryParam)
  | create (e : EntryParam)
  | «open»
  | buf (mem : Buffer) (size : UInt64)
  | write (count : UInt64)
  | statfs (namemax bsize : UInt64)
  deriving DecidableEq, Repr

inductive Command
  | yfs (op : Operation)
  | reply (r : Reply)

abbrev Answer : Command → Type
  | .yfs op => op.Result
  | .reply _ => Unit

abbrev M := Prog Command Answer

def yfs (op : Operation) : M op.Result := Prog.perform (Command.yfs op)

def reply (r : Reply) : M Unit := Prog.perform (Command.reply r)

/-- What the variables hold that a handler or an operation reads before it sets them. -/
structure Unset where
  e : EntryParam
  newInum : Inum
  inumToRemove : Inum
  finum : Inum

instance : Inhabited FileInfo := ⟨⟨0, 0, 0, 0⟩⟩

instance : Inhabited DirInfo := ⟨⟨0, 0, 0⟩⟩

/-! ## Attributes -/

/-- `S_IFREG | 0666`. -/
def fileMode : UInt32 := 0o100000 ||| 0o666

/-- `S_IFDIR | 0777`. -/
def dirMode : UInt32 := 0o040000 ||| 0o777

def getattr (inum : Inum) : M (Int × Stat) := do
  let st : Stat :=
    { ino := inum, mode := 0, nlink := 0, atime := 0, mtime := 0, ctime := 0, size := 0 }
  if isfile inum then
    let r ← yfs (.getfile inum)
    if r.1 ≠ OK then pure (r.1, st)
    else
      let info := r.2.getD default
      pure (OK, { st with
        mode := fileMode, nlink := 1, atime := info.atime, mtime := info.mtime
        ctime := info.ctime, size := info.size })
  else
    let r ← yfs (.getdir inum)
    if r.1 ≠ OK then pure (r.1, st)
    else
      let info := r.2.getD default
      pure (OK, { st with
        mode := dirMode, nlink := 2, atime := info.atime, mtime := info.mtime
        ctime := info.ctime })

def fuseserverGetattr (ino : Inum) : M Unit := do
  let r ← getattr ino
  if r.1 ≠ OK then reply (.err ENOENT) else reply (.attr r.2 0)

/-- `FUSE_SET_ATTR_SIZE`. -/
def setAttrSize : UInt32 := 8

def fuseserverSetattr (ino : Inum) (stSize : UInt64) (toSet : UInt32) : M Unit := do
  if setAttrSize &&& toSet ≠ 0 then
    let ret ← yfs (.setsize ino stSize)
    if ret ≠ OK then reply (.err ENOENT)
    else
      let r ← getattr ino
      if r.1 ≠ OK then reply (.err ENOENT) else reply (.attr r.2 0)
  else reply (.err ENOSYS)

def fuseserverStatfs : M Unit := reply (.statfs 255 512)

/-! ## Files -/

/-- The reply has the size of the request and points to the characters of a string, which end with
a zero. -/
def fuseserverRead (ino : Inum) (size off : UInt64) : M Unit := do
  let r ← yfs (.read ino size off)
  if r.1 ≠ OK then reply (.err ENOENT) else reply (.buf (r.2 ++ [0]) size)

def fuseserverWrite (ino : Inum) (buf : Buffer) (off : UInt64) : M Unit := do
  let r ← yfs (.write ino buf off)
  if r.1 ≠ OK then reply (.err ENOENT) else reply (.write (r.2.getD 0))

def fuseserverOpen (ino : Inum) : M Unit := do
  let r ← yfs (.getfile ino)
  if r.1 = OK then reply .open else reply (.err ENOENT)

/-! ## Entries -/

/-- `fuseserver_createhelper`: the status, and `e`.  The result is `none` when `createfile` has
not returned with these draws. -/
def fuseserverCreatehelper (parent : Inum) (name : String) (draws : List Draw) (u : Unset) :
    M (Option (Int × EntryParam)) := do
  if !isdir parent then pure (some (IOERR, u.e))
  else
    let din ← yfs (.getdir parent)
    if din.1 ≠ OK then pure (some (NOENT, u.e))
    else
      let inum ← yfs (.ilookup parent name)
      if inum = 0 then
        match ← yfs (.addEntryToFilesystem parent name true draws) with
        | none => pure none
        | some (ret, newInum) =>
          if ret ≠ OK then pure (some (ret, u.e))
          else
            let newInum := newInum.getD u.newInum
            let r ← getattr newInum
            pure (some (r.1, { ino := newInum, attr := r.2, attrTimeout := 0, entryTimeout := 0 }))
      else
        let r ← getattr inum
        pure (some (r.1,
          if r.1 ≠ OK then { u.e with ino := inum, attr := r.2 }
          else { ino := inum, attr := r.2, attrTimeout := 0, entryTimeout := 0 }))

/-- The result says whether the handler has returned. -/
def fuseserverCreate (parent : Inum) (name : String) (draws : List Draw) (u : Unset) : M Bool := do
  match ← fuseserverCreatehelper parent name draws u with
  | none => pure false
  | some (ret, e) =>
    if ret = OK then reply (.create e) else reply (.err ENOENT)
    pure true

def fuseserverMknod (parent : Inum) (name : String) (draws : List Draw) (u : Unset) : M Bool := do
  match ← fuseserverCreatehelper parent name draws u with
  | none => pure false
  | some (ret, e) =>
    if ret = OK then reply (.entry e) else reply (.err ENOENT)
    pure true

def fuseserverLookup (parent : Inum) (name : String) : M Unit := do
  let inum ← yfs (.ilookup parent name)
  if inum ≠ 0 then
    let r ← getattr inum
    if r.1 ≠ OK then reply (.err ENOENT)
    else reply (.entry { ino := inum, attr := r.2, attrTimeout := 0, entryTimeout := 0 })
  else reply (.err ENOENT)

/-- The end of `mkdir`. -/
def mkdirReply (newInum : Inum) : M Unit := do
  let r ← getattr newInum
  if r.1 ≠ OK then reply (.err ENOENT)
  else reply (.entry { ino := newInum, attr := r.2, attrTimeout := 0, entryTimeout := 0 })

/-- Nothing returns after a failed `makedir`, and nothing replies for a name that is there. -/
def fuseserverMkdir (parent : Inum) (name : String) (draws : List Draw) (u : Unset) : M Bool := do
  if !isdir parent then
    reply (.err ENOENT)
    pure true
  else
    let din ← yfs (.getdir parent)
    if din.1 ≠ OK then
      reply (.err ENOENT)
      pure true
    else
      let inum ← yfs (.ilookup parent name)
      if inum = 0 then
        match ← yfs (.addEntryToFilesystem parent name false draws) with
        | none => pure false
        | some (ret, newInum) =>
          if ret ≠ OK then reply (.err ENOENT)
          mkdirReply (newInum.getD u.newInum)
          pure true
      else pure true

def fuseserverUnlink (parent : Inum) (name : String) (u : Unset) : M Unit := do
  let inum ← yfs (.ilookup parent name)
  if inum ≠ 0 then
    let ret ← yfs (.unlink parent name u.inumToRemove u.finum)
    if ret = OK then reply (.err 0) else reply (.err ENOENT)
  else reply (.err ENOENT)

/-! ## Directories -/

/-- What `readdir` takes from libfuse, which is not part of this code: `fuse_dirent_size`, and the
bytes that `fuse_add_dirent` writes with a `stat` that has only a number. -/
structure Libfuse where
  direntSize : Nat → Nat
  addDirent : List Char → Inum → Nat → Buffer
  length_addDirent : ∀ name ino off, (addDirent name ino off).length = direntSize name.length

/-- `dirbuf_add`.  A C string ends at its first zero. -/
def dirbufAdd (lib : Libfuse) (b : Buffer) (e : Dirent) : Buffer :=
  let name := e.name.toList.takeWhile (· != '\x00')
  b ++ lib.addDirent name e.inum (b.length + lib.direntSize name.length)

def replyBufLimited (buf : Buffer) (off maxsize : UInt64) : M Unit :=
  let bufsize : UInt64 := .ofNat buf.length
  if off < bufsize then
    reply (.buf (buf.drop off.toNat) (if bufsize - off < maxsize then bufsize - off else maxsize))
  else reply (.buf [] 0)

/-- The status of `readdir` is not looked at. -/
def fuseserverReaddir (lib : Libfuse) (ino : Inum) (size off : UInt64) : M Unit := do
  if !isdir ino then reply (.err ENOTDIR)
  else
    let r ← yfs (.readdir ino)
    replyBufLimited (r.2.foldl (dirbufAdd lib) []) off size

/-! ## All handlers -/

/-- A registered handler with the arguments of its request, and the library that it needs. -/
inductive Handler
  | getattr (ino : Inum)
  | setattr (ino : Inum) (stSize : UInt64) (toSet : UInt32)
  | lookup (parent : Inum) (name : String)
  | create (parent : Inum) (name : String) (draws : List Draw) (u : Unset)
  | mknod (parent : Inum) (name : String) (draws : List Draw) (u : Unset)
  | «open» (ino : Inum)
  | read (ino : Inum) (size off : UInt64)
  | write (ino : Inum) (buf : Buffer) (off : UInt64)
  | readdir (lib : Libfuse) (ino : Inum) (size off : UInt64)
  | mkdir (parent : Inum) (name : String) (draws : List Draw) (u : Unset)
  | unlink (parent : Inum) (name : String) (u : Unset)
  | statfs

/-- A handler that returns. -/
def returning (p : M Unit) : M Bool := p >>= fun _ => pure true

def Handler.program : Handler → M Bool
  | .getattr ino => returning (fuseserverGetattr ino)
  | .setattr ino stSize toSet => returning (fuseserverSetattr ino stSize toSet)
  | .lookup parent name => returning (fuseserverLookup parent name)
  | .create parent name draws u => fuseserverCreate parent name draws u
  | .mknod parent name draws u => fuseserverMknod parent name draws u
  | .open ino => returning (fuseserverOpen ino)
  | .read ino size off => returning (fuseserverRead ino size off)
  | .write ino buf off => returning (fuseserverWrite ino buf off)
  | .readdir lib ino size off => returning (fuseserverReaddir lib ino size off)
  | .mkdir parent name draws u => fuseserverMkdir parent name draws u
  | .unlink parent name u => returning (fuseserverUnlink parent name u)
  | .statfs => returning fuseserverStatfs

end Fuse
end Frangipani
