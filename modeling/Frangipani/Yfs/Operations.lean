/-
The operations of `yfs_client`, as programs.

An operation calls the lock client and the extent client.  The calls of the extent client
return a status, an `int` that is one of `extent_protocol` or the failure of a remote
call, and what they fill in.  Every use of a lock is a call of its own, in the order of
the source: the operations release at labels that several places jump to.

A read of a variable that was not set has the value of a parameter.
-/
import Frangipani.Program.Effect
import Frangipani.Yfs.Files
import Frangipani.Yfs.Unlink

namespace Frangipani
namespace Yfs

open Extent Text Program

/-- The calls of an operation: those of the lock client, and those of the extent client. -/
inductive Command
  | acquire (lid : Inum)
  | release (lid : Inum)
  | get (eid : Inum)
  | getattr (eid : Inum)
  | put (eid : Inum) (buf : Buffer)
  | remove (eid : Inum)
  deriving DecidableEq, Repr

/-- The status of `ec->get`, and what is in its buffer then. -/
structure Got where
  ret : Int
  buf : Buffer
  deriving DecidableEq, Repr

/-- The status of `ec->getattr`, and what is in its attributes then. -/
structure GotAttr where
  ret : Int
  attr : Attr
  deriving DecidableEq, Repr

abbrev Answer : Command → Type
  | .acquire _ | .release _ => Unit
  | .get _ => Got
  | .getattr _ => GotAttr
  | .put .. | .remove _ => Int

/-- `yfs_client::dirinfo`. -/
structure DirInfo where
  atime : UInt64
  mtime : UInt64
  ctime : UInt64
  deriving DecidableEq, Repr

namespace YfsClient

/-! The statuses, which `yfs_client` and `extent_protocol` number alike. -/

abbrev OK : Int := 0

abbrev NOENT : Int := 2

abbrev IOERR : Int := 3

/-! ## The calls -/

abbrev M := Prog Command Answer

def acquire (lid : Inum) : M Unit := Prog.perform (Command.acquire lid)

def release (lid : Inum) : M Unit := Prog.perform (Command.release lid)

def get (eid : Inum) : M Got := Prog.perform (Command.get eid)

def getattr (eid : Inum) : M GotAttr := Prog.perform (Command.getattr eid)

def put (eid : Inum) (buf : Buffer) : M Int := Prog.perform (Command.put eid buf)

def remove (eid : Inum) : M Int := Prog.perform (Command.remove eid)

/-! ## Reading -/

/-- The constructor, once its clients are made. -/
def init : M Unit := do
  acquire 1
  let dirContent ← get 1
  if dirContent.ret = NOENT then
    let _ ← put 1 []
  release 1

def getfile (inum : Inum) : M (Int × Option FileInfo) := do
  acquire inum
  let a ← getattr inum
  release inum
  pure
    (if a.ret ≠ OK then (IOERR, none)
    else
      (OK, some
        { size := a.attr.size.toUInt64, atime := a.attr.atime.toUInt64
          mtime := a.attr.mtime.toUInt64, ctime := a.attr.ctime.toUInt64 }))

def getdir (inum : Inum) : M (Int × Option DirInfo) := do
  acquire inum
  let a ← getattr inum
  release inum
  pure
    (if a.ret ≠ OK then (IOERR, none)
    else
      (OK, some
        { atime := a.attr.atime.toUInt64, mtime := a.attr.mtime.toUInt64
          ctime := a.attr.ctime.toUInt64 }))

def ilookup (di : Inum) (name : String) : M Inum := do
  acquire di
  if !isdir di then
    release di
    pure 0
  else
    let g ← get di
    release di
    pure (if g.ret ≠ OK then 0 else lookupText (text g.buf) name)

def readdir (dir : Inum) : M (Int × List Dirent) := do
  acquire dir
  let g ← get dir
  release dir
  pure (g.ret,
    if g.ret ≠ OK then []
    else (rawEntries (text g.buf)).map fun e => { name := e.2, inum := n2i 0 e.1 })

def read (inum : Inum) (size off : UInt64) : M (Int × Buffer) := do
  acquire inum
  let g ← get inum
  release inum
  pure (g.ret, if g.ret ≠ OK then g.buf else readFrom g.buf size off)

/-! ## Writing -/

/-- `buf.resize(n, '\0')`. -/
def resize (buf : Buffer) (n : Nat) : Buffer := buf.take n ++ List.replicate (n - buf.length) 0

/-- `memcpy(&dst[off], src, n)` for the `n` bytes of `src`, which have to fit. -/
def memcpy (dst : Buffer) (off : Nat) (src : Buffer) : Buffer :=
  dst.take off ++ src ++ dst.drop (off + src.length)

/-- The contents that `write` puts.  The sum is one of unsigned numbers, and wraps. -/
def writeTo (fileBuf buf : Buffer) (off : UInt64) : Buffer :=
  let size : UInt64 := .ofNat buf.length
  memcpy (if off + size > .ofNat fileBuf.length then resize fileBuf (off + size).toNat else fileBuf)
    off.toNat buf

/-- Both branches of the source fill with zeros. -/
def setsize (inum : Inum) (size : UInt64) : M Int := do
  acquire inum
  let g ← get inum
  let ret ← if g.ret ≠ OK then pure g.ret else put inum (resize g.buf size.toNat)
  release inum
  pure ret

/-- The result has `bytes_written` when it is set. -/
def write (inum : Inum) (buf : Buffer) (off : UInt64) : M (Int × Option UInt64) := do
  acquire inum
  let g ← get inum
  if g.ret ≠ OK then
    release inum
    pure (g.ret, none)
  else
    let ret ← put inum (writeTo g.buf buf off)
    release inum
    pure (ret, if ret ≠ OK then none else some (.ofNat buf.length))

/-! ## Entries -/

/-- `generate_unique_inum`.  The result is `none` while no draw is unused. -/
def generateUniqueInum (isFile : Bool) : List Draw → M (Option Inum)
  | [] => pure none
  | d :: ds => do
    let g ← get (d.inum isFile)
    if g.ret = OK then generateUniqueInum isFile ds else pure (some (d.inum isFile))

/-- `add_entry_to_filesystem`, from the lock of the entry on. -/
def addEntry (parent : Inum) (buf : Buffer) (name : String) (entryInum : Inum) : M Int := do
  acquire entryInum
  let ret ← put parent (buf ++ bytes (entryText (decimal64 entryInum) name))
  let ret ← if ret ≠ OK then pure ret else put entryInum []
  release entryInum
  release parent
  pure ret

/-- The status, and `entry_inum` when it is set.  The result is `none` when the call has not
returned with these draws. -/
def addEntryToFilesystem (parent : Inum) (name : String) (isFile : Bool) (draws : List Draw) :
    M (Option (Int × Option Inum)) := do
  acquire parent
  let g ← get parent
  if g.ret ≠ OK then
    release parent
    pure (some (g.ret, none))
  else
    match ← generateUniqueInum isFile draws with
    | none => pure none
    | some entryInum =>
      let ret ← addEntry parent g.buf name entryInum
      pure (some (ret, some entryInum))

/-- `unlink`.  `inumToRemove` is what the variable holds before it is set, and `finum` what the
variable of `n2i` holds. -/
def unlink (parent : Inum) (name : String) (inumToRemove finum : Inum) : M Int := do
  acquire parent
  let g ← get parent
  if g.ret ≠ OK then
    release inumToRemove
    release parent
    pure g.ret
  else
    let inumToRemove := unlinkTarget (text g.buf) name finum
    acquire inumToRemove
    let ret ← put parent (bytes (unlinkText (text g.buf) name))
    let ret ← if ret ≠ OK then pure ret else remove inumToRemove
    release inumToRemove
    release parent
    pure ret

end YfsClient

/-! ## All operations -/

/-- An operation with its arguments.  `createfile` and `makedir` are the two uses of
`add_entry_to_filesystem`. -/
inductive Operation
  | init
  | getfile (inum : Inum)
  | getdir (inum : Inum)
  | ilookup (di : Inum) (name : String)
  | addEntryToFilesystem (parent : Inum) (name : String) (isFile : Bool) (draws : List Draw)
  | readdir (dir : Inum)
  | setsize (inum : Inum) (size : UInt64)
  | write (inum : Inum) (buf : Buffer) (off : UInt64)
  | read (inum : Inum) (size off : UInt64)
  | unlink (parent : Inum) (name : String) (inumToRemove finum : Inum)

namespace Operation

abbrev Result : Operation → Type
  | .init => Unit
  | .getfile _ => Int × Option FileInfo
  | .getdir _ => Int × Option DirInfo
  | .ilookup .. => Inum
  | .addEntryToFilesystem .. => Option (Int × Option Inum)
  | .readdir _ => Int × List Dirent
  | .setsize .. => Int
  | .write .. => Int × Option UInt64
  | .read .. => Int × Buffer
  | .unlink .. => Int

def program : (op : Operation) → YfsClient.M op.Result
  | .init => YfsClient.init
  | .getfile inum => YfsClient.getfile inum
  | .getdir inum => YfsClient.getdir inum
  | .ilookup di name => YfsClient.ilookup di name
  | .addEntryToFilesystem parent name isFile draws =>
    YfsClient.addEntryToFilesystem parent name isFile draws
  | .readdir dir => YfsClient.readdir dir
  | .setsize inum size => YfsClient.setsize inum size
  | .write inum buf off => YfsClient.write inum buf off
  | .read inum size off => YfsClient.read inum size off
  | .unlink parent name inumToRemove finum => YfsClient.unlink parent name inumToRemove finum

/-- The operation has returned. -/
def Returned : (op : Operation) → op.Result → Prop
  | .addEntryToFilesystem .., r => r.isSome = true
  | _, _ => True

end Operation
end Yfs
end Frangipani
