/-
Files, read through the cache of a client.

`getfile` reports the size that `extent_client::getattr` returns, and `read` works on
the contents that `extent_client::get` returns.  In every state that the clients and
the server can reach the two agree.

The statuses of `yfs_client` are those of `extent_protocol`, in the same order, and
what a call of the extent client returns is passed on as it is.
-/
import Frangipani.Extent.Sizes

namespace Frangipani
namespace Yfs

open Extent Transition

/-- `yfs_client::fileinfo`. -/
structure FileInfo where
  size : UInt64
  atime : UInt64
  mtime : UInt64
  ctime : UInt64
  deriving DecidableEq, Repr

def getfile (ec : ExtentClient) (server : ExtentServer) (inum : ExtentId) (now : UInt32) :
    (Extent.Status × Option FileInfo) × ExtentClient × ExtentServer :=
  match ec.getattr server inum now with
  | ((.ok, some a), ec, server) =>
    ((.ok, some
      { size := a.size.toUInt64, atime := a.atime.toUInt64, mtime := a.mtime.toUInt64
        ctime := a.ctime.toUInt64 }), ec, server)
  | (_, ec, server) => ((.ioerr, none), ec, server)

/-- `buf.substr(pos, n)`. -/
def substr (buf : Buffer) (pos n : UInt64) : Buffer := (buf.drop pos.toNat).take n.toNat

/-- What `read` makes of the contents of a file.  The offset is converted to the unsigned type of
the sizes, and the sum wraps. -/
def readFrom (buf : Buffer) (size off : UInt64) : Buffer :=
  if off ≥ .ofNat buf.length then []
  else substr buf off (if off + size > .ofNat buf.length then .ofNat buf.length - off else size)

def read (ec : ExtentClient) (server : ExtentServer) (inum : ExtentId) (size off : UInt64)
    (now : UInt32) : Reply × ExtentClient × ExtentServer :=
  match ec.get server inum now with
  | ((.ok, some buf), ec, server) => ((.ok, some (readFrom buf size off)), ec, server)
  | (reply, ec, server) => (reply, ec, server)

theorem length_readFrom {buf : Buffer} (hbuf : buf.length < UInt64.size) (size off : UInt64) :
    (readFrom buf size off).length = min size.toNat (buf.length - off.toNat) := by
  have hn : (UInt64.ofNat buf.length).toNat = buf.length := UInt64.toNat_ofNat_of_lt' hbuf
  have hoff : off ≥ UInt64.ofNat buf.length ↔ buf.length ≤ off.toNat := by
    rw [ge_iff_le, UInt64.le_iff_toNat_le, hn]
  unfold readFrom
  split
  · rename_i hend
    rw [hoff] at hend
    rw [List.length_nil]
    omega
  · rename_i hend
    rw [hoff] at hend
    rw [substr, List.length_take, List.length_drop]
    split
    · -- A sum that passes the end without its carry passes it with the carry too.
      rename_i hlong
      rw [gt_iff_lt, UInt64.lt_iff_toNat_lt, hn, UInt64.toNat_add] at hlong
      have hle : off ≤ UInt64.ofNat buf.length := by
        rw [UInt64.le_iff_toNat_le, hn]
        omega
      have hmod := Nat.mod_le (off.toNat + size.toNat) 18446744073709551616
      rw [UInt64.toNat_sub_of_le _ _ hle, hn]
      omega
    · rfl

/-- For any number of clients and any interleaving of their calls on ids whose locks they hold,
with buffers below `2^32` bytes: the maps of the server and of every client have the same keys and
the right sizes, the queues of every client list its keys once, and what `read` sees of a file has
the size that `getfile` reports. -/
theorem sizes_match {Clt : Type} [DecidableEq Clt] {w : Sharing Clt}
    (h : Sharing.freeSystem.ReachableWhile Sharing.ShortPuts w) :
    w.Consistent ∧ ∀ c inum now fin ec server,
      getfile (w.clients c) w.server inum now = ((.ok, some fin), ec, server) →
      ∀ size off now', ∃ buf bytes, (ec.get server inum now').1 = (.ok, some buf) ∧
        buf.length = fin.size.toNat ∧ (read ec server inum size off now').1 = (.ok, some bytes) ∧
        bytes.length = min size.toNat (fin.size.toNat - off.toNat) := by
  have hmatched := Sharing.matched_of_reachable h
  refine ⟨hmatched.consistent, fun c inum now fin ec server hfile size off now' => ?_⟩
  unfold getfile at hfile
  split at hfile
  · rename_i a ec' server' hattr
    cases hfile
    obtain ⟨buf, hbuf, hsize⟩ :=
      (hmatched.clients c).getattr hmatched.server (congrArg Prod.fst hattr)
    rw [hattr] at hbuf
    have hget := ExtentClient.get_cached server hbuf now'
    have hread : (read ec server inum size off now').1 = (.ok, some (readFrom buf size off)) := by
      rw [read, hget]
    have hlen : buf.length < UInt64.size := by
      have hlt := a.size.toNat_lt
      rw [UInt64.size]
      omega
    refine ⟨buf, _, congrArg Prod.fst hget, ?_, hread, ?_⟩
    · rw [← hsize, UInt32.toNat_toUInt64]
    · rw [length_readFrom hlen, ← hsize, UInt32.toNat_toUInt64]
  · cases hfile

/-- A client writes two bytes and hands the lock on without a flush. -/
def twoBytes : List (Action Nat) :=
  [.acquire 1 7, .put 1 7 [104, 105] 3 3 3, .release 1 7, .acquire 2 7, .get 2 7 5]

theorem sizes_match_twoBytes :
    ∃ w : Sharing Nat, Sharing.freeSystem.ReachableWhile Sharing.ShortPuts w ∧ w.Consistent ∧
      (getfile (w.clients 1) w.server 7 9).1 = (.ok, some ⟨2, 3, 3, 3⟩) := by
  have hreach : Sharing.freeSystem.ReachableWhile Sharing.ShortPuts
      (Sharing.freeSystem.final .start twoBytes) :=
    System.ReachableWhile.final twoBytes (.init rfl) (by decide +kernel) (by decide +kernel)
  exact ⟨_, hreach, (sizes_match hreach).1, by decide +kernel⟩

end Yfs
end Frangipani
