/-
One direction of a connection: the threads that send, the callbacks that write and
read, and the stream of bytes between.

`send` takes a PDU once the one before it has left `wpdu_`, writes what the socket
takes, and leaves the rest to `write_cb`.  On the other end `read_cb` reads the length
first and then the rest, and hands a complete PDU to `got_pdu` until that accepts it.
Every function runs under the mutex of its connection, so the steps are the stretches
between two waits.

The results of `write` and `read` are arguments.  A result that the call cannot give
disables the step, and so does an assertion that fails, since it stops the process.
The stream is everything that has been written; a read returns the next bytes of it.
-/
import Mathlib.Logic.Function.Basic
import Frangipani.Data.Bytes
import Frangipani.Rpc.Marshall
import Frangipani.Transition.System

namespace Frangipani
namespace Rpc

open Transition

/-- The bytes of `htonl(x)`. -/
def htonl (x : Int32) : List UInt8 :=
  [((x.toUInt32 >>> 24) &&& 0xff).toUInt8, ((x.toUInt32 >>> 16) &&& 0xff).toUInt8,
    ((x.toUInt32 >>> 8) &&& 0xff).toUInt8, (x.toUInt32 &&& 0xff).toUInt8]

/-- `ntohl` of the number with the given bytes. -/
def ntohl : List UInt8 → Int32
  | [a, b, c, d] =>
    (a.toUInt32 <<< 24 ||| b.toUInt32 <<< 16 ||| c.toUInt32 <<< 8 ||| d.toUInt32).toInt32
  | _ => 0

theorem ntohl_htonl (x : Int32) : ntohl (htonl x) = x := by
  rw [htonl, ntohl, Data.uint32_of_bytes]
  exact Int32.toInt32_toUInt32 x

/-- `connection::charbuf`.  The buffer that is read into holds what has been read so far. -/
structure CharBuf where
  buf : Option (List UInt8)
  sz : Int
  solong : Int
  deriving DecidableEq

def CharBuf.empty : CharBuf := ⟨none, 0, 0⟩

/-- `MAX_PDU`. -/
def maxPdu : Int := 10 <<< 20

/-! ## Writing -/

inductive WriteResult
  | wrote (n : Nat)
  | eagain
  | failed
  deriving DecidableEq

/-- The buffer with its size in the first four bytes. -/
def stamp (sz : Int) (b : List UInt8) : List UInt8 := htonl (.ofInt sz) ++ b.drop 4

/-- `writepdu`, with the bytes that it writes. -/
def writepdu (p : CharBuf) (r : WriteResult) : Option (CharBuf × List UInt8 × Bool) :=
  if p.solong < 0 then none
  else if p.solong = p.sz then some (p, [], true)
  else
    let p := if p.solong = 0 then { p with buf := p.buf.map (stamp p.sz) } else p
    match r with
    | .wrote n =>
      if n ≤ p.sz - p.solong then
        some ({ p with solong := p.solong + n }, ((p.buf.getD []).drop p.solong.toNat).take n, true)
      else none
    | .eagain => some (p, [], true)
    | .failed => some ({ p with sz := 0, solong := -1 }, [], false)

/-- The arguments of `send`. -/
structure Pdu where
  bytes : List UInt8
  header : rpcHeaderSz ≤ bytes.length
  int : bytes.length < intBound

/-- Where a thread is in `send`.  It waits for `wpdu_`, or it has put its PDU there as the one with
the number `k`. -/
inductive SendPc
  | idle
  | waiting (b : Pdu)
  | sending (k : Nat)

structure Sender (Thr : Type) where
  dead : Bool
  wpdu : CharBuf
  pc : Thr → SendPc
  stream : List UInt8
  /-- The PDUs in the order in which `send` took them. -/
  taken : List Pdu
  /-- The values that `send` has returned, with the number of the PDU if it was taken. -/
  returns : List (Thr × Option Nat × Bool)

inductive SendAction (Thr : Type)
  | send (t : Thr) (b : Pdu) (r : WriteResult)
  | wake (t : Thr) (r : WriteResult)
  | complete (t : Thr)
  | writeCb (r : WriteResult)
  | die

namespace Sender

variable {Thr : Type} [DecidableEq Thr]

def new : Sender Thr where
  dead := false
  wpdu := .empty
  pc _ := .idle
  stream := []
  taken := []
  returns := []

/-- The end of `send`. -/
def finish (s : Sender Thr) (t : Thr) (k : Nat) : Sender Thr :=
  { s with
    wpdu := .empty
    pc := Function.update s.pc t .idle
    returns := (t, some k, !s.dead && s.wpdu.solong == s.wpdu.sz) :: s.returns }

/-- `send` takes the PDU and tries to write it. -/
def transmit (s : Sender Thr) (t : Thr) (b : Pdu) (r : WriteResult) : Option (Sender Thr) :=
  match writepdu { buf := some b.bytes, sz := b.bytes.length, solong := 0 } r with
  | none => none
  | some (p, bs, ok) =>
    let k := s.taken.length
    let s := { s with wpdu := p, stream := s.stream ++ bs, taken := s.taken ++ [b] }
    if ok ∧ p.solong = p.sz then some (s.finish t k)
    else some { s with dead := s.dead || !ok, pc := Function.update s.pc t (.sending k) }

/-- The first loop of `send`, at its condition. -/
def enter (s : Sender Thr) (t : Thr) (b : Pdu) (r : WriteResult) : Option (Sender Thr) :=
  if s.dead then
    some { s with pc := Function.update s.pc t .idle, returns := (t, none, false) :: s.returns }
  else if s.wpdu.buf.isSome then some { s with pc := Function.update s.pc t (.waiting b) }
  else s.transmit t b r

def step (s : Sender Thr) : SendAction Thr → Option (Sender Thr)
  | .send t b r =>
    match s.pc t with
    | .idle => s.enter t b r
    | _ => none
  | .wake t r =>
    match s.pc t with
    | .waiting b => s.enter t b r
    | _ => none
  | .complete t =>
    match s.pc t with
    | .sending k =>
      if s.dead = false ∧ 0 ≤ s.wpdu.solong ∧ s.wpdu.solong < s.wpdu.sz then none
      else some (s.finish t k)
    | _ => none
  | .writeCb r =>
    if s.dead then none
    else if s.wpdu.sz = 0 then some s
    else
      match writepdu s.wpdu r with
      | none => none
      | some (p, bs, ok) => some { s with wpdu := p, stream := s.stream ++ bs, dead := !ok }
  -- `closeconn`, or a read on this end that fails.
  | .die => some { s with dead := true }

end Sender

/-! ## Reading -/

inductive Errno
  | eagain
  | other
  deriving DecidableEq

/-- A result of `read`: some bytes, or 0 or -1 with what `errno` is then. -/
inductive ReadResult
  | data (bs : List UInt8)
  | eof (errno : Errno)
  | failed (errno : Errno)
  deriving DecidableEq

/-- The number of bytes that the second `read` of `readpdu` asks for, as an unsigned number. -/
def CharBuf.request (p : CharBuf) : Nat := ((p.sz - p.solong) % 2 ^ 64).toNat

/-- The first half of `readpdu`, with the bytes that it reads: the buffer that it allocates, unless
it returns false. -/
def readLength : ReadResult → Option (Option CharBuf × List UInt8)
  | .eof _ => some (none, [])
  | .failed .eagain => none
  | .failed .other => some (none, [])
  | .data bs =>
    if bs = [] ∨ 4 < bs.length then none
    else if bs.length ≠ 4 then some (none, bs)
    else if (ntohl bs).toInt > maxPdu then some (none, bs)
    else some (some { buf := some bs, sz := (ntohl bs).toInt, solong := 4 }, bs)

/-- The second half. -/
def readRest (p : CharBuf) : ReadResult → Option (CharBuf × List UInt8 × Bool)
  | .data bs =>
    if bs = [] ∨ p.request < bs.length then none
    else some ({ p with buf := p.buf.map (· ++ bs), solong := p.solong + bs.length }, bs, true)
  | .eof .eagain | .failed .eagain => some (p, [], true)
  | .eof .other | .failed .other => some (.empty, [], false)

def readpdu (p : CharBuf) (first second : ReadResult) :
    Option (CharBuf × List UInt8 × Bool) :=
  if p.sz = 0 then
    match readLength first with
    | none => none
    | some (none, bs) => some (p, bs, false)
    | some (some p, bs) => (readRest p second).map fun (p, bs', ok) => (p, bs ++ bs', ok)
  else readRest p second

structure Receiver where
  dead : Bool
  rpdu : CharBuf
  /-- The number of bytes of the stream that have been read. -/
  consumed : Nat
  /-- The buffers that `got_pdu` has accepted. -/
  accepted : List (List UInt8)

namespace Receiver

def new : Receiver where
  dead := false
  rpdu := .empty
  consumed := 0
  accepted := []

/-- The first part of `read_cb`. -/
def fill (r : Receiver) (first second : ReadResult) : Option (CharBuf × List UInt8 × Bool) :=
  if r.rpdu.buf = none ∨ r.rpdu.solong < r.rpdu.sz then readpdu r.rpdu first second
  else some (r.rpdu, [], true)

/-- The second part: a complete PDU is offered to `got_pdu`, which returns `accept`. -/
def deliver (r : Receiver) (accept : Bool) : Receiver :=
  match r.rpdu.buf with
  | some b =>
    if r.rpdu.sz = r.rpdu.solong ∧ accept then
      { r with rpdu := .empty, accepted := r.accepted ++ [b] }
    else r
  | none => r

def readCb (r : Receiver) (first second : ReadResult) (accept : Bool) :
    Option (Receiver × List UInt8) :=
  if r.dead then some (r, [])
  else
    match r.fill first second with
    | none => none
    | some (p, bs, ok) =>
      let r := { r with rpdu := p, dead := !ok, consumed := r.consumed + bs.length }
      some (r.deliver accept, bs)

end Receiver

/-! ## The two ends -/

structure Link (Thr : Type) where
  sender : Sender Thr
  receiver : Receiver

inductive LinkAction (Thr : Type)
  | sending (a : SendAction Thr)
  | readCb (first second : ReadResult) (accept : Bool)
  | closeconn

namespace Link

variable {Thr : Type} [DecidableEq Thr]

def step (l : Link Thr) : LinkAction Thr → Option (Link Thr)
  | .sending a => (l.sender.step a).map fun s => { l with sender := s }
  | .readCb first second accept =>
    match l.receiver.readCb first second accept with
    | none => none
    | some (r, bs) =>
      -- The bytes that were read are the next ones of the stream.
      if bs <+: l.sender.stream.drop l.receiver.consumed then some { l with receiver := r }
      else none
  | .closeconn => some { l with receiver := { l.receiver with dead := true } }

def system : System (Link Thr) (LinkAction Thr) where
  init l := l = { sender := .new, receiver := .new }
  step := step

end Link
end Rpc
end Frangipani
