/-
What a read request gets back.

`yfs_client::read` cuts the text to what the file has.  `fuseserver_read` passes the size of
the request to `fuse_reply_buf`, not the length of the text, so the reply is the bytes of the
file exactly when the file has as many as were asked for.  Otherwise a zero follows them,
and then what is behind the string in memory.
-/
import Frangipani.Fuse.Handlers
import Frangipani.Yfs.Contents

namespace Frangipani
namespace Fuse

open Extent Program Yfs

variable {Clt : Type} [DecidableEq Clt]

/-- The answers to the calls of a handler, with the replies so far. -/
def answer (c : Clt) (s : Shared Clt × List Reply) :
    (cmd : Command) → Answer cmd × (Shared Clt × List Reply)
  | .yfs op => ((s.1.run c op).1, ((s.1.run c op).2, s.2))
  | .reply r => ((), (s.1, s.2 ++ [r]))

/-- A handler runs on client `c`. -/
def serve (w : Shared Clt) (c : Clt) (h : Handler) : Bool × (Shared Clt × List Reply) :=
  h.program.exec (answer c) (w, [])

/-- The reply sends these bytes, all of them from inside the object that it points into. -/
def Reply.Sends (data : Buffer) : Reply → Prop
  | .buf mem size => size.toNat ≤ mem.length ∧ mem.take size.toNat = data
  | _ => False

/-- The one reply to a read is the bytes of the file from `off` up to the smaller of `off + size`
and its length. -/
def RepliesExactly (buf : Buffer) (size off : UInt64) (replies : List Reply) : Prop :=
  ∃ r, replies = [r] ∧ r.Sends ((buf.drop off.toNat).take size.toNat)

/-- The text of `read`, the zero behind it, and the size of the request. -/
theorem serve_read {w : Shared Clt} (hw : w.Sound) {ino : Inum} {buf : Buffer}
    (hfile : w.File ino buf) (hlength : buf.length < UInt64.size) (c : Clt) (size off : UInt64) :
    (serve w c (.read ino size off)).2.2 =
      [.buf ((buf.drop off.toNat).take size.toNat ++ [0]) size] := by
  obtain ⟨w', hrun, -⟩ := Shared.run_read hw hfile c size off
  rw [readFrom_eq hlength] at hrun
  simp [serve, Handler.program, returning, fuseserverRead, yfs, reply, answer, hrun]

/-- For every file, offset and size: the reply is exactly the bytes of the file if and only if the
file has as many bytes behind the offset as were asked for. -/
theorem repliesExactly_iff {w : Shared Clt} (hw : w.Sound) {ino : Inum} {buf : Buffer}
    (hfile : w.File ino buf) (hlength : buf.length < UInt64.size) (c : Clt) (size off : UInt64) :
    RepliesExactly buf size off (serve w c (.read ino size off)).2.2 ↔
      size.toNat ≤ buf.length - off.toNat := by
  have hdata : ((buf.drop off.toNat).take size.toNat).length =
      min size.toNat (buf.length - off.toNat) := by
    rw [List.length_take, List.length_drop]
  rw [serve_read hw hfile hlength c size off]
  constructor
  · rintro ⟨r, hr, hsends⟩
    obtain rfl : _ = r := List.head_eq_of_cons_eq hr
    obtain ⟨hinside, hexact⟩ := hsends
    have hlen := congrArg List.length hexact
    rw [List.length_take_of_le hinside, hdata] at hlen
    omega
  · intro hle
    refine ⟨_, rfl, ?_, ?_⟩
    · rw [List.length_append, hdata]
      omega
    · exact List.take_left' (hdata.trans (Nat.min_eq_left hle))

/-- Two bytes of a file of three. -/
theorem repliesExactly_inside :
    RepliesExactly [104, 105, 33] 2 0
      (serve (Shared.oneFile Nat 7 [104, 105, 33]) 1 (.read 7 2 0)).2.2 :=
  (repliesExactly_iff (Shared.oneFile_sound 7 _) (Shared.oneFile_file 7 _) (by decide) 1 2 0).mpr
    (by decide)

/-- A page of a file of two bytes: the reply is 4096 bytes from an object of three. -/
theorem page_not_repliesExactly :
    (serve (Shared.oneFile Nat 7 [104, 105]) 1 (.read 7 4096 0)).2.2 = [.buf [104, 105, 0] 4096] ∧
      ¬ RepliesExactly [104, 105] 4096 0
        (serve (Shared.oneFile Nat 7 [104, 105]) 1 (.read 7 4096 0)).2.2 := by
  have hreply : (serve (Shared.oneFile Nat 7 [104, 105]) 1 (.read 7 4096 0)).2.2 =
      [.buf [104, 105, 0] 4096] := by decide +kernel
  refine ⟨hreply, ?_⟩
  rw [hreply]
  rintro ⟨r, hr, hsends⟩
  obtain rfl : _ = r := List.head_eq_of_cons_eq hr
  exact absurd hsends.1 (by decide)

end Fuse
end Frangipani
