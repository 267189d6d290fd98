/-
Operations at the same time.

Several clients run operations on one file system.  A lock has one holder here, and a call
of the extent client works on the contents of one id.  Whether a call fails and the times
it finds are inputs.  That the extent clients with their caches answer like this is shown
in `Mounted`.

All operations have two phases: an operation that has released a lock makes no call but
releases, and what it puts or removes it has locked.  So an operation can be taken as one
step of its client.  Only the draws of `generate_unique_inum` read an id without its lock.
-/
import Frangipani.Concurrency.TwoPhase
import Frangipani.Yfs.Operations

namespace Frangipani
namespace Yfs

open Extent Text Program Concurrency Transition

/-- What a call of the extent client finds besides the contents. -/
structure CallInput where
  /-- The status of a call that fails. -/
  failed : Option Int
  atime : UInt32
  mtime : UInt32
  ctime : UInt32
  deriving DecidableEq, Repr

/-- A call that does not fail. -/
def CallInput.good : CallInput := { failed := none, atime := 0, mtime := 0, ctime := 0 }

namespace Command

def use : Command → LockUse Inum
  | .acquire lid => .acquire lid
  | .release lid => .release lid
  | .get eid | .getattr eid | .put eid _ | .remove eid => .access eid

/-- The answer of the lock client. -/
def granted : (c : Command) → Answer c
  | .acquire _ | .release _ => ()
  | .get _ => ⟨YfsClient.OK, []⟩
  | .getattr _ => ⟨YfsClient.OK, default⟩
  | .put .. | .remove _ => YfsClient.OK

/-- The answer of the extent client, and the contents of the id after the call. -/
def onContents : (c : Command) → CallInput → Option Buffer → Answer c × Option Buffer
  | .acquire _, _, v | .release _, _, v => ((), v)
  | .get _, i, v =>
    (match i.failed, v with
      | some ret, _ => ⟨ret, []⟩
      | none, some buf => ⟨YfsClient.OK, buf⟩
      | none, none => ⟨YfsClient.NOENT, []⟩, v)
  | .getattr _, i, v =>
    (match i.failed, v with
      | some ret, _ => ⟨ret, default⟩
      | none, some buf => ⟨YfsClient.OK,
          { atime := i.atime, mtime := i.mtime, ctime := i.ctime, size := .ofNat buf.length }⟩
      | none, none => ⟨YfsClient.NOENT, default⟩, v)
  | .put _ buf, i, v =>
    match i.failed with
    | some ret => (ret, v)
    | none => (YfsClient.OK, some buf)
  | .remove _, i, v =>
    match i.failed, v with
    | some ret, v => (ret, v)
    | none, some _ => (YfsClient.OK, none)
    | none, none => (YfsClient.NOENT, none)

end Command

/-- The result of an operation, with the operation. -/
abbrev Outcome := (op : Operation) × op.Result

def operations : Locking Command Answer Inum (Option Buffer) CallInput Operation Outcome where
  use := Command.use
  answer := Command.onContents
  granted := Command.granted
  blank := .good
  program op := op.program >>= fun r => .done ⟨op, r⟩

/-! ## Two phases -/

namespace YfsClient

theorem get_readOnly (eid : Inum) : operations.ReadOnly (.get eid) := fun _ _ => rfl

theorem init_twoPhase : operations.TwoPhase [] init := by
  refine fun _ => ⟨.inl (List.mem_singleton_self 1), fun g => ?_⟩
  show operations.TwoPhase [1] (if g.ret = NOENT then _ else _)
  split
  · exact ⟨.inl (List.mem_singleton_self 1), fun _ _ => trivial⟩
  · exact fun _ => trivial

theorem getfile_twoPhase (inum : Inum) : operations.TwoPhase [] (getfile inum) :=
  fun _ => ⟨.inl (List.mem_singleton_self inum), fun _ _ => trivial⟩

theorem getdir_twoPhase (inum : Inum) : operations.TwoPhase [] (getdir inum) :=
  fun _ => ⟨.inl (List.mem_singleton_self inum), fun _ _ => trivial⟩

theorem ilookup_twoPhase (di : Inum) (name : String) :
    operations.TwoPhase [] (ilookup di name) := by
  intro _
  show operations.TwoPhase [di] (if (!isdir di) = true then _ else _)
  split
  · exact fun _ => trivial
  · exact ⟨.inl (List.mem_singleton_self di), fun _ _ => trivial⟩

theorem readdir_twoPhase (dir : Inum) : operations.TwoPhase [] (readdir dir) :=
  fun _ => ⟨.inl (List.mem_singleton_self dir), fun _ _ => trivial⟩

theorem read_twoPhase (inum : Inum) (size off : UInt64) :
    operations.TwoPhase [] (read inum size off) :=
  fun _ => ⟨.inl (List.mem_singleton_self inum), fun _ _ => trivial⟩

theorem setsize_twoPhase (inum : Inum) (size : UInt64) :
    operations.TwoPhase [] (setsize inum size) := by
  refine fun _ => ⟨.inl (List.mem_singleton_self inum), fun g => ?_⟩
  show operations.TwoPhase [inum] (if g.ret ≠ OK then _ else _)
  split
  · exact fun _ => trivial
  · exact ⟨.inl (List.mem_singleton_self inum), fun _ _ => trivial⟩

theorem write_twoPhase (inum : Inum) (buf : Buffer) (off : UInt64) :
    operations.TwoPhase [] (write inum buf off) := by
  refine fun _ => ⟨.inl (List.mem_singleton_self inum), fun g => ?_⟩
  show operations.TwoPhase [inum] (if g.ret ≠ OK then _ else _)
  split
  · exact fun _ => trivial
  · exact ⟨.inl (List.mem_singleton_self inum), fun _ _ => trivial⟩

theorem generateUniqueInum_twoPhase {α : Type} (isFile : Bool) (draws : List Draw)
    {locks : List Inum} {f : Option Inum → M α} (hf : ∀ r, operations.TwoPhase locks (f r)) :
    operations.TwoPhase locks (generateUniqueInum isFile draws >>= f) := by
  induction draws with
  | nil => exact hf none
  | cons d ds ih =>
    refine ⟨.inr (get_readOnly _), fun g => ?_⟩
    show operations.TwoPhase locks ((if g.ret = OK then _ else _) >>= f)
    split
    · exact ih
    · exact hf _

theorem addEntry_twoPhase (parent : Inum) (buf : Buffer) (name : String) (entryInum : Inum) :
    operations.TwoPhase [parent] (addEntry parent buf name entryInum) := by
  refine fun _ => ⟨.inl (by simp), fun ret => ?_⟩
  show operations.TwoPhase [entryInum, parent] (if ret ≠ OK then _ else _)
  split
  · exact fun _ => ⟨⟨parent, rfl⟩, fun _ => trivial⟩
  · exact ⟨.inl (by simp), fun _ _ => ⟨⟨parent, rfl⟩, fun _ => trivial⟩⟩

theorem addEntryToFilesystem_twoPhase (parent : Inum) (name : String) (isFile : Bool)
    (draws : List Draw) :
    operations.TwoPhase [] (addEntryToFilesystem parent name isFile draws) := by
  refine fun _ => ⟨.inl (List.mem_singleton_self parent), fun g => ?_⟩
  show operations.TwoPhase [parent] (if g.ret ≠ OK then _ else _)
  split
  · exact fun _ => trivial
  · refine generateUniqueInum_twoPhase isFile draws fun r => ?_
    cases r with
    | none => trivial
    | some entryInum => exact (addEntry_twoPhase parent g.buf name entryInum).map _

theorem unlink_twoPhase (parent : Inum) (name : String) (inumToRemove finum : Inum) :
    operations.TwoPhase [] (unlink parent name inumToRemove finum) := by
  refine fun _ => ⟨.inl (List.mem_singleton_self parent), fun g => ?_⟩
  show operations.TwoPhase [parent] (if g.ret ≠ OK then _ else _)
  split
  · exact fun _ => ⟨⟨parent, rfl⟩, fun _ => trivial⟩
  · refine fun _ => ⟨.inl (by simp), fun ret => ?_⟩
    show operations.TwoPhase [_, parent] (if ret ≠ OK then _ else _)
    split
    · exact fun _ => ⟨⟨parent, rfl⟩, fun _ => trivial⟩
    · exact ⟨.inl (by simp), fun _ _ => ⟨⟨parent, rfl⟩, fun _ => trivial⟩⟩

end YfsClient

theorem operations_twoPhase (op : Operation) :
    operations.TwoPhase [] (operations.program op) := by
  have hprogram : operations.TwoPhase [] op.program := by
    cases op with
    | init => exact YfsClient.init_twoPhase
    | getfile inum => exact YfsClient.getfile_twoPhase inum
    | getdir inum => exact YfsClient.getdir_twoPhase inum
    | ilookup di name => exact YfsClient.ilookup_twoPhase di name
    | addEntryToFilesystem parent name isFile draws =>
      exact YfsClient.addEntryToFilesystem_twoPhase parent name isFile draws
    | readdir dir => exact YfsClient.readdir_twoPhase dir
    | setsize inum size => exact YfsClient.setsize_twoPhase inum size
    | write inum buf off => exact YfsClient.write_twoPhase inum buf off
    | read inum size off => exact YfsClient.read_twoPhase inum size off
    | unlink parent name inumToRemove finum =>
      exact YfsClient.unlink_twoPhase parent name inumToRemove finum
  exact hprogram.map _

abbrev OperationTask := Task Command Answer Inum CallInput Operation Outcome

/-- A file system at work, with one operation at a time for each client. -/
abbrev Working (T : Type) :=
  Interleaved Command Answer Inum (Option Buffer) CallInput Operation Outcome T

end Yfs
end Frangipani
