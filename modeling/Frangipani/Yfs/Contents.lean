/-
The contents of files.

`write`, `setsize` and `read` work on the whole text of an extent: they read it, resize it,
copy into it or cut a part out of it, and put it back.  What a client sees of a file with
these operations is a sparse array of bytes.

The client is alone here.  No lock is ever asked back from it, so it flushes nothing, and a
file is what it has cached or else what the server has.

Offsets are `off_t` and sizes `size_t`.  Below `2^63` their sums do not wrap.
-/
import Mathlib.Data.UInt
import Frangipani.Data.Sparse
import Frangipani.Yfs.Shared

namespace Frangipani
namespace Yfs

open Extent

/-- A call on a file, with an offset and a size whose sum is an `off_t`. -/
inductive FileCall
  | write (inum : Inum) (data : Buffer) (off : UInt64)
      (fits : off.toNat + data.length < 9223372036854775808)
  | setsize (inum : Inum) (size : UInt64)
  | read (inum : Inum) (size off : UInt64) (fits : off.toNat + size.toNat < 9223372036854775808)

namespace FileCall

def inum : FileCall → Inum
  | .write inum .. | .setsize inum _ | .read inum .. => inum

def operation : FileCall → Operation
  | .write inum data off _ => .write inum data off
  | .setsize inum size => .setsize inum size
  | .read inum size off _ => .read inum size off

/-- What the call does to a sparse array. -/
def apply (a : Sparse UInt8) : FileCall → Sparse UInt8
  | .write _ data off _ => a.write off.toNat data
  | .setsize _ size => a.truncate size.toNat
  | .read .. => a

/-- What the call returns: the status, and the number of bytes written or the bytes read. -/
def Returns (a : Sparse UInt8) : (call : FileCall) → call.operation.Result → Prop
  | .write _ data _ _, r => r = (YfsClient.OK, some (.ofNat data.length))
  | .setsize .., r => r = YfsClient.OK
  | .read _ size off _, r => r = (YfsClient.OK, a.read off.toNat size.toNat)

end FileCall

namespace Shared

/-- What the one client finds. -/
def found (w : Shared Unit) (eid : Inum) : Option Buffer :=
  ((w.clients ()).extents.find eid).or (w.server.extents.find eid)

/-- The client makes these calls, one after the other. -/
def after (w : Shared Unit) : List FileCall → Shared Unit
  | [] => w
  | call :: calls => (w.run () call.operation).2.after calls

/-- What the calls on `inum` make of an array. -/
def arrayAfter (inum : Inum) (a : Sparse UInt8) : List FileCall → Sparse UInt8
  | [] => a
  | call :: calls => arrayAfter inum (if call.inum = inum then call.apply a else a) calls

/-- The file is the array `a`, and the next call on it is the one on the array. -/
structure BehavesAs (w : Shared Unit) (inum : Inum) (a : Sparse UInt8) : Prop where
  contents : (w.found inum).map Sparse.ofList = some a
  returns : ∀ call : FileCall, call.inum = inum → call.Returns a (w.run () call.operation).1
  changes : ∀ call : FileCall, call.inum = inum →
    ((w.run () call.operation).2.found inum).map Sparse.ofList = some (call.apply a)
  others : ∀ call : FileCall, call.inum = inum → ∀ id, id ≠ inum →
    (w.run () call.operation).2.found id = w.found id

end Shared

/-! ## Bytes -/

/-- The bytes that `read` cuts out.  It cuts the size itself, or `substr` does. -/
theorem readFrom_eq {buf : Buffer} (hbuf : buf.length < UInt64.size) (size off : UInt64) :
    readFrom buf size off = (buf.drop off.toNat).take size.toNat := by
  have hn : (UInt64.ofNat buf.length).toNat = buf.length := UInt64.toNat_ofNat_of_lt' hbuf
  unfold readFrom
  split
  · rename_i hend
    rw [ge_iff_le, UInt64.le_iff_toNat_le, hn] at hend
    rw [List.drop_eq_nil_of_le hend, List.take_nil]
  · rename_i hend
    rw [ge_iff_le, UInt64.le_iff_toNat_le, hn] at hend
    rw [substr]
    split
    · rename_i hlong
      rw [gt_iff_lt, UInt64.lt_iff_toNat_lt, hn, UInt64.toNat_add] at hlong
      have hmod := Nat.mod_le (off.toNat + size.toNat) 18446744073709551616
      have hle : off ≤ UInt64.ofNat buf.length := by
        rw [UInt64.le_iff_toNat_le, hn]
        omega
      rw [UInt64.toNat_sub_of_le _ _ hle, hn, List.take_of_length_le, List.take_of_length_le]
      · rw [List.length_drop]
        omega
      · rw [List.length_drop]
    · rfl

theorem ofList_memcpy {dst : Buffer} {off : Nat} {src : Buffer}
    (h : off + src.length ≤ dst.length) :
    Sparse.ofList (YfsClient.memcpy dst off src) = (Sparse.ofList dst).write off src :=
  Sparse.ofList_write dst src h

theorem ofList_setsize (buf : Buffer) (n : Nat) :
    Sparse.ofList (YfsClient.resize buf n) = (Sparse.ofList buf).truncate n :=
  Sparse.ofList_resize buf n

theorem length_resize (buf : Buffer) (n : Nat) : (YfsClient.resize buf n).length = n :=
  congrArg Sparse.length (ofList_setsize buf n)

theorem ofList_writeTo {buf : Buffer} (hbuf : buf.length < UInt64.size) {data : Buffer}
    {off : UInt64} (hfits : off.toNat + data.length < 9223372036854775808) :
    Sparse.ofList (YfsClient.writeTo buf data off) = (Sparse.ofList buf).write off.toNat data := by
  have hn : (UInt64.ofNat buf.length).toNat = buf.length := UInt64.toNat_ofNat_of_lt' hbuf
  have hdata : data.length < UInt64.size := by
    rw [UInt64.size]
    omega
  have hsum : (off + UInt64.ofNat data.length).toNat = off.toNat + data.length := by
    rw [UInt64.toNat_add, UInt64.toNat_ofNat_of_lt' hdata]
    omega
  unfold YfsClient.writeTo
  simp only
  split
  · rename_i hlong
    rw [gt_iff_lt, UInt64.lt_iff_toNat_lt, hn, hsum] at hlong
    rw [hsum, ofList_memcpy (by rw [length_resize]), ofList_setsize]
    exact Sparse.truncate_write _ (le_of_lt hlong)
  · rename_i hinside
    rw [gt_iff_lt, UInt64.lt_iff_toNat_lt, hn, hsum] at hinside
    exact ofList_memcpy (Nat.not_lt.mp hinside)

theorem length_writeTo {buf : Buffer} (hbuf : buf.length < UInt64.size) {data : Buffer}
    {off : UInt64} (hfits : off.toNat + data.length < 9223372036854775808) :
    (YfsClient.writeTo buf data off).length = max buf.length (off.toNat + data.length) :=
  congrArg Sparse.length (ofList_writeTo hbuf hfits)

/-! ## Calls -/

namespace Shared

variable {w : Shared Unit}

theorem found_acquire (w : Shared Unit) (lid : Inum) : (w.acquire () lid).found = w.found := by
  unfold Shared.acquire
  split
  · rfl
  · rw [if_pos rfl]

/-- A read changes where the contents are, and not what they are. -/
theorem found_get (w : Shared Unit) (eid : Inum) : (w.get () eid).2.found = w.found := by
  funext id
  show (((w.clients ()).get w.server eid (w.clock 0)).2.1.extents.find id).or
    (((w.clients ()).get w.server eid (w.clock 0)).2.2.extents.find id) = w.found id
  cases hcached : (w.clients ()).extents.find eid with
  | some buf =>
    rw [ExtentClient.get_cached _ hcached]
    show (((w.clients ()).toExtentServer.get eid (w.clock 0)).2.extents.find id).or _ = _
    rw [ExtentServer.get_extents]
    rfl
  | none =>
    cases hserver : w.server.extents.find eid with
    | none =>
      rw [ExtentClient.get_missing hcached hserver]
      rfl
    | some buf =>
      obtain ⟨attr, hget⟩ := ExtentClient.get_fetched hcached hserver (w.clock 0)
      rw [hget, ExtentServer.get_extents]
      show (((w.clients ()).extents.insert eid buf).find id).or _ = _
      by_cases hid : id = eid
      · rw [hid, Map.find_insert_self, found, hcached, hserver]
        rfl
      · rw [Map.find_insert_ne _ _ hid]
        rfl

theorem get_of_found {eid : Inum} {buf : Buffer} (h : w.found eid = some buf) :
    (w.get () eid).1 = ⟨YfsClient.OK, buf⟩ := by
  unfold Shared.get
  cases hcached : (w.clients ()).extents.find eid with
  | some b =>
    rw [found, hcached] at h
    cases h
    rw [ExtentClient.get_cached _ hcached]
    rfl
  | none =>
    rw [found, hcached] at h
    obtain ⟨attr, hget⟩ := ExtentClient.get_fetched hcached h (w.clock 0)
    rw [hget]
    rfl

theorem found_put (w : Shared Unit) (eid : Inum) (buf : Buffer) :
    (w.put () eid buf).2.found = Function.update w.found eid (some buf) := by
  funext id
  show (((w.clients ()).extents.insert eid buf).find id).or (w.server.extents.find id) = _
  by_cases hid : id = eid
  · rw [hid, Map.find_insert_self, Function.update_self]
    rfl
  · rw [Map.find_insert_ne _ _ hid, Function.update_of_ne hid]
    rfl

theorem open_of_found {inum : Inum} {buf : Buffer} (h : w.found inum = some buf) :
    ∃ w', (w.acquire () inum).get () inum = (⟨YfsClient.OK, buf⟩, w') ∧ w'.found = w.found := by
  have hacquire := found_acquire w inum
  refine ⟨_, Prod.ext (get_of_found (hacquire ▸ h)) rfl, ?_⟩
  rw [found_get, hacquire]

section OneCall

variable {inum : Inum} {buf : Buffer} (h : w.found inum = some buf)

include h

theorem write_of_found (data : Buffer) (off : UInt64) :
    (w.run () (.write inum data off)).1 = (YfsClient.OK, some (.ofNat data.length)) ∧
      (w.run () (.write inum data off)).2.found =
        Function.update w.found inum (some (YfsClient.writeTo buf data off)) := by
  obtain ⟨w', hopen, hfound⟩ := open_of_found h
  have hput : (w'.put () inum (YfsClient.writeTo buf data off)).1 = YfsClient.OK := rfl
  rw [← hfound, ← found_put]
  simp [run, Operation.program, YfsClient.write, YfsClient.acquire, YfsClient.get, YfsClient.put,
    YfsClient.release, hopen, hput]

theorem setsize_of_found (size : UInt64) :
    (w.run () (.setsize inum size)).1 = YfsClient.OK ∧
      (w.run () (.setsize inum size)).2.found =
        Function.update w.found inum (some (YfsClient.resize buf size.toNat)) := by
  obtain ⟨w', hopen, hfound⟩ := open_of_found h
  have hput : (w'.put () inum (YfsClient.resize buf size.toNat)).1 = YfsClient.OK := rfl
  rw [← hfound, ← found_put]
  simp [run, Operation.program, YfsClient.setsize, YfsClient.acquire, YfsClient.get, YfsClient.put,
    YfsClient.release, hopen, hput]

theorem read_of_found (size off : UInt64) :
    (w.run () (.read inum size off)).1 = (YfsClient.OK, readFrom buf size off) ∧
      (w.run () (.read inum size off)).2.found = w.found := by
  obtain ⟨w', hopen, hfound⟩ := open_of_found h
  rw [← hfound]
  simp [run, Operation.program, YfsClient.read, YfsClient.acquire, YfsClient.get,
    YfsClient.release, hopen]

end OneCall

/-- A call on a file changes its contents as the call changes an array. -/
theorem run_call {buf : Buffer} (hbuf : buf.length < UInt64.size) (call : FileCall)
    (h : w.found call.inum = some buf) :
    call.Returns (Sparse.ofList buf) (w.run () call.operation).1 ∧
      ∃ buf', buf'.length < UInt64.size ∧
        Sparse.ofList buf' = call.apply (Sparse.ofList buf) ∧
        (w.run () call.operation).2.found call.inum = some buf' := by
  cases call with
  | write inum data off fits =>
    obtain ⟨hreturns, hfound⟩ := write_of_found h data off
    have hlength := length_writeTo hbuf fits
    refine ⟨hreturns, _, ?_, ofList_writeTo hbuf fits, ?_⟩
    · rw [hlength, UInt64.size]
      rw [UInt64.size] at hbuf
      omega
    · exact (congrFun hfound inum).trans (Function.update_self ..)
  | setsize inum size =>
    obtain ⟨hreturns, hfound⟩ := setsize_of_found h size
    refine ⟨hreturns, _, ?_, ofList_setsize buf size.toNat, ?_⟩
    · rw [length_resize]
      exact size.toNat_lt
    · exact (congrFun hfound inum).trans (Function.update_self ..)
  | read inum size off fits =>
    obtain ⟨hreturns, hfound⟩ := read_of_found h size off
    refine ⟨?_, buf, hbuf, rfl, (congrFun hfound inum).trans h⟩
    rw [readFrom_eq hbuf, ← Sparse.read_ofList] at hreturns
    exact hreturns

/-- A call on an id changes nothing else, whether there is a file or not. -/
theorem found_run_ne (w : Shared Unit) (call : FileCall) {id : Inum} (hid : id ≠ call.inum) :
    (w.run () call.operation).2.found id = w.found id := by
  have hopen : ∀ inum, ((w.acquire () inum).get () inum).2.found = w.found := fun inum => by
    rw [found_get, found_acquire]
  have hput : ∀ inum buf, id ≠ inum →
      (((w.acquire () inum).get () inum).2.put () inum buf).2.found id = w.found id := by
    intro inum buf hne
    rw [found_put, Function.update_of_ne hne, hopen]
  cases call with
  | write inum data off fits =>
    show (w.run () (.write inum data off)).2.found id = _
    rw [run_write_snd]
    simp only
    split
    · rw [hopen]
    · exact hput inum _ hid
  | setsize inum size =>
    show (w.run () (.setsize inum size)).2.found id = _
    rw [run_setsize_snd]
    simp only
    split
    · rw [hopen]
    · exact hput inum _ hid
  | read inum size off fits =>
    exact congrFun (hopen inum) id

/-- The client finds the bytes of the array. -/
def Tracks (w : Shared Unit) (inum : Inum) (a : Sparse UInt8) : Prop :=
  ∃ buf, w.found inum = some buf ∧ buf.length < UInt64.size ∧ Sparse.ofList buf = a

theorem Tracks.call {inum : Inum} {a : Sparse UInt8} (h : w.Tracks inum a) (call : FileCall) :
    (w.run () call.operation).2.Tracks inum (if call.inum = inum then call.apply a else a) := by
  obtain ⟨buf, hfound, hlength, rfl⟩ := h
  split
  case isTrue hinum =>
    subst hinum
    obtain ⟨-, buf', hlength', hbuf', hfound'⟩ := run_call hlength call hfound
    exact ⟨buf', hfound', hlength', hbuf'⟩
  case isFalse hother =>
    exact ⟨buf, (found_run_ne w call (Ne.symm hother)).trans hfound, hlength, rfl⟩

theorem Tracks.after {inum : Inum} (calls : List FileCall) :
    ∀ {w : Shared Unit} {a : Sparse UInt8}, w.Tracks inum a →
      (w.after calls).Tracks inum (arrayAfter inum a calls) := by
  induction calls with
  | nil => exact fun h => h
  | cons call calls ih => exact fun h => ih (h.call call)

theorem Tracks.behavesAs {inum : Inum} {a : Sparse UInt8} (h : w.Tracks inum a) :
    w.BehavesAs inum a := by
  obtain ⟨buf, hfound, hlength, rfl⟩ := h
  refine ⟨by rw [hfound]; rfl, ?_, ?_, ?_⟩
  · rintro call rfl
    exact (run_call hlength call hfound).1
  · rintro call rfl
    obtain ⟨-, buf', -, hbuf', hfound'⟩ := run_call hlength call hfound
    rw [hfound', ← hbuf']
    rfl
  · rintro call rfl id hid
    exact found_run_ne w call hid

/-- For every file and any sequence of calls: the file is the sparse array that the calls on it make
of its first contents, and so is what the next call on it sees. -/
theorem behavesAs_arrayAfter {inum : Inum} {buf : Buffer} (hfile : w.found inum = some buf)
    (hlength : buf.length < UInt64.size) (calls : List FileCall) :
    (w.after calls).BehavesAs inum (arrayAfter inum (Sparse.ofList buf) calls) :=
  (Tracks.after calls ⟨buf, hfile, hlength, rfl⟩).behavesAs

/-- A write behind the end, a cut, and an extension. -/
def holes : List FileCall := [.write 7 [33] 4 (by decide), .setsize 7 1, .setsize 7 3]

theorem behavesAs_holes :
    ((oneFile Unit 7 [104, 105]).after holes).BehavesAs 7
        (arrayAfter 7 (Sparse.ofList [104, 105]) holes) ∧
      ((oneFile Unit 7 [104, 105]).after holes).found 7 = some [104, 0, 0] :=
  ⟨behavesAs_arrayAfter rfl (by decide) holes, by decide +kernel⟩

end Shared
end Yfs
end Frangipani
