/-
Whole PDUs: a header and a list of values, written and read back
(`rpc/marshall.h`, and the structs of `paxos_protocol.h`, `rsm_protocol.h` and
`extent_protocol.h`).

The values go behind the space that the constructor reserves; the header is
packed into that space afterwards.  The reader unpacks the header and then reads
the types that were written.
-/
import Frangipani.Rpc.Wire

namespace Frangipani
namespace Rpc

/-! ## The structs of the protocols -/

structure PropT where
  n : UInt32
  m : List UInt8

structure PrepareArg where
  inst : UInt32
  n : PropT
  v : List UInt8

structure PrepareRes where
  oldinstance : Int32
  accept : Int32
  nA : PropT
  vA : List UInt8

structure AcceptArg where
  inst : UInt32
  n : PropT
  v : List UInt8

structure DecideArg where
  inst : UInt32
  v : List UInt8

structure Attr where
  atime : UInt32
  mtime : UInt32
  ctime : UInt32
  size : UInt32

structure Viewstamp where
  vid : UInt32
  seqno : UInt32

structure TransferRes where
  state : List UInt8
  last : Viewstamp

structure JoinRes where
  log : List UInt8

namespace Codec

def propT : Codec PropT := (uint.both string).via (fun p => ⟨p.1, p.2⟩) fun a => (a.n, a.m)

def preparearg : Codec PrepareArg :=
  (uint.both (propT.both string)).via (fun p => ⟨p.1, p.2.1, p.2.2⟩) fun a => (a.inst, a.n, a.v)

def prepareres : Codec PrepareRes :=
  (int.both (int.both (propT.both string))).via (fun p => ⟨p.1, p.2.1, p.2.2.1, p.2.2.2⟩)
    fun r => (r.oldinstance, r.accept, r.nA, r.vA)

def acceptarg : Codec AcceptArg :=
  (uint.both (propT.both string)).via (fun p => ⟨p.1, p.2.1, p.2.2⟩) fun a => (a.inst, a.n, a.v)

def decidearg : Codec DecideArg :=
  (uint.both string).via (fun p => ⟨p.1, p.2⟩) fun a => (a.inst, a.v)

def attr : Codec Attr :=
  (uint.both (uint.both (uint.both uint))).via (fun p => ⟨p.1, p.2.1, p.2.2.1, p.2.2.2⟩)
    fun a => (a.atime, a.mtime, a.ctime, a.size)

def viewstamp : Codec Viewstamp :=
  (uint.both uint).via (fun p => ⟨p.1, p.2⟩) fun v => (v.vid, v.seqno)

def transferres : Codec TransferRes :=
  (string.both viewstamp).via (fun p => ⟨p.1, p.2⟩) fun r => (r.state, r.last)

def joinres : Codec JoinRes := string.via JoinRes.mk JoinRes.log

/-- The operators that the sources define, over all nestings of vectors and maps.  A map's key type
has an order, and only its `<` is used. -/
inductive Marshallable : {α : Type} → Codec α → Prop
  | uchar : Marshallable uchar
  | char : Marshallable char
  | ushort : Marshallable ushort
  | short : Marshallable short
  | uint : Marshallable uint
  | int : Marshallable int
  | ulonglong : Marshallable ulonglong
  | string : Marshallable string
  | vector {α : Type} {c : Codec α} : Marshallable c → Marshallable c.vector
  | map {α β : Type} [LinearOrder α] {c : Codec α} {d : Codec β} :
      Marshallable c → Marshallable d → Marshallable (c.map d)
  | propT : Marshallable propT
  | preparearg : Marshallable preparearg
  | prepareres : Marshallable prepareres
  | acceptarg : Marshallable acceptarg
  | decidearg : Marshallable decidearg
  | attr : Marshallable attr
  | viewstamp : Marshallable viewstamp
  | transferres : Marshallable transferres
  | joinres : Marshallable joinres

theorem int_lawful : int.Lawful := uint_lawful.via fun _ => rfl

theorem propT_lawful : propT.Lawful := (uint_lawful.both string_lawful).via fun _ => rfl

theorem viewstamp_lawful : viewstamp.Lawful := (uint_lawful.both uint_lawful).via fun _ => rfl

theorem Marshallable.lawful {α : Type} {c : Codec α} (h : Marshallable c) : c.Lawful := by
  -- The fields of `preparearg`, and of `acceptarg` too.
  have hargs := uint_lawful.both (propT_lawful.both string_lawful)
  induction h with
  | uchar => exact uchar_lawful
  | char => exact uchar_lawful.via fun _ => rfl
  | ushort => exact ushort_lawful
  | short => exact ushort_lawful.via fun _ => rfl
  | uint => exact uint_lawful
  | int => exact int_lawful
  | ulonglong => exact ulonglong_lawful
  | string => exact string_lawful
  | vector _ hc => exact hc.vector
  | map _ _ hc hd => exact hc.map hd
  | propT => exact propT_lawful
  | preparearg => exact hargs.via fun _ => rfl
  | prepareres =>
    exact (int_lawful.both (int_lawful.both (propT_lawful.both string_lawful))).via fun _ => rfl
  | acceptarg => exact hargs.via fun _ => rfl
  | decidearg => exact (uint_lawful.both string_lawful).via fun _ => rfl
  | attr =>
    exact (uint_lawful.both (uint_lawful.both (uint_lawful.both uint_lawful))).via fun _ => rfl
  | viewstamp => exact viewstamp_lawful
  | transferres => exact (string_lawful.both viewstamp_lawful).via fun _ => rfl
  | joinres => exact string_lawful.via fun _ => rfl

end Codec

/-! ## Headers -/

structure ReqHeader where
  xid : Int32
  proc : Int32
  cltNonce : UInt32
  srvNonce : UInt32
  xidRep : Int32

structure ReplyHeader where
  xid : Int32
  ret : Int32

inductive Header where
  | req (h : ReqHeader)
  | reply (h : ReplyHeader)

namespace Codec

/-- `pack` and `unpack`.  The integer is shifted with its sign here, and the mask cuts what the
shift brings in. -/
def pack : Codec Int32 where
  put x :=
    [.rawbyte ((x >>> 24) &&& 0xff).toUInt32.toUInt8,
      .rawbyte ((x >>> 16) &&& 0xff).toUInt32.toUInt8,
      .rawbyte ((x >>> 8) &&& 0xff).toUInt32.toUInt8, .rawbyte (x &&& 0xff).toUInt32.toUInt8]
  get u := ((get32 u).1.toInt32, (get32 u).2)

/-- A nonce, cast to an integer for `pack` and read through a cast pointer. -/
def packNonce : Codec UInt32 := pack.via Int32.toUInt32 UInt32.toInt32

def reqHeader : Codec ReqHeader :=
  (pack.both (pack.both (packNonce.both (packNonce.both pack)))).via
    (fun p => ⟨p.1, p.2.1, p.2.2.1, p.2.2.2.1, p.2.2.2.2⟩)
    fun h => (h.xid, h.proc, h.cltNonce, h.srvNonce, h.xidRep)

def replyHeader : Codec ReplyHeader :=
  (pack.both pack).via (fun p => ⟨p.1, p.2⟩) fun h => (h.xid, h.ret)

theorem pack_put (x : Int32) : pack.put x = int.put x := by
  have h24 : ((x >>> 24) &&& 0xff).toUInt32.toUInt8 = ((x.toUInt32 >>> 24) &&& 0xff).toUInt8 :=
    UInt8.eq_of_toBitVec_eq (by simp [Data.setWidth_sshiftRight])
  have h16 : ((x >>> 16) &&& 0xff).toUInt32.toUInt8 = ((x.toUInt32 >>> 16) &&& 0xff).toUInt8 :=
    UInt8.eq_of_toBitVec_eq (by simp [Data.setWidth_sshiftRight])
  have h8 : ((x >>> 8) &&& 0xff).toUInt32.toUInt8 = ((x.toUInt32 >>> 8) &&& 0xff).toUInt8 :=
    UInt8.eq_of_toBitVec_eq (by simp [Data.setWidth_sshiftRight])
  simp only [pack, h24, h16, h8]
  rfl

theorem pack_lawful : pack.Lawful where
  pos _ := (by decide : 0 < 4)
  get_put x u h := by
    rw [bytes, pack_put] at h ⊢
    exact int_lawful.get_put x u h

theorem packNonce_lawful : packNonce.Lawful := pack_lawful.via fun _ => rfl

theorem reqHeader_lawful : reqHeader.Lawful :=
  (pack_lawful.both (pack_lawful.both
    (packNonce_lawful.both (packNonce_lawful.both pack_lawful)))).via fun _ => rfl

theorem replyHeader_lawful : replyHeader.Lawful := (pack_lawful.both pack_lawful).via fun _ => rfl

end Codec

namespace Header

def put : Header → List Write
  | req h => Codec.reqHeader.put h
  | reply h => Codec.replyHeader.put h

/-- The reads of `unpack_req_header` and of `unpack_reply_header`: a header of the same kind. -/
def get : Header → Unmarshall → Header × Unmarshall
  | req _, u => (req (Codec.reqHeader.get u).1, (Codec.reqHeader.get u).2)
  | reply _, u => (reply (Codec.replyHeader.get u).1, (Codec.replyHeader.get u).2)

theorem length_le (h : Header) : rpcSzSize + (bytesOf h.put).length ≤ rpcHeaderSz := by
  cases h with
  | req h => exact (by decide : 4 + 20 ≤ 24)
  | reply h => exact (by decide : 4 + 8 ≤ 24)

theorem get_put (h : Header) {u : Unmarshall} (hu : u.Holds (bytesOf h.put)) :
    h.get u = (h, u.skip (bytesOf h.put).length) := by
  cases h with
  | req h =>
    have hget := Codec.reqHeader_lawful.get_put h u hu
    simp only [get, hget]
    rfl
  | reply h =>
    have hget := Codec.replyHeader_lawful.get_put h u hu
    simp only [get, hget]
    rfl

end Header

/-- The header goes behind the bytes of the channel, and the write position comes back. -/
def Marshall.packHeader (m : Marshall) (h : Header) : Option Marshall :=
  (Marshall.writeAll { m with ind := rpcSzSize } h.put).map fun m' => { m' with ind := m.ind }

def Unmarshall.unpackHeader (u : Unmarshall) (h : Header) : Header × Unmarshall :=
  let r := h.get { u with ind := rpcSzSize }
  (r.1, { r.2 with ind := rpcHeaderSz })

theorem Marshall.packHeader_eq {m : Marshall} (hm : m.Sound) (h : Header) :
    m.packHeader h = some { m with buf := overwrite m.buf rpcSzSize (bytesOf h.put) } := by
  have hspace : rpcHeaderSz ≤ m.capa := Nat.le_trans (by decide) hm.le_capa
  have hsound : Marshall.Sound { m with ind := rpcSzSize } :=
    ⟨Nat.le_trans (by decide : rpcSzSize ≤ rpcHeaderSz) hspace, hm.le_capa, hm.capa_lt⟩
  have hcapa : capaAfter m.capa rpcSzSize (h.put.map Write.size) = m.capa :=
    capaAfter_of_le (by rw [sum_size]; exact Nat.le_trans h.length_le hspace)
  rw [packHeader, writeAll_eq hsound, hcapa, if_pos hm.capa_lt]
  rfl

/-! ## Values -/

/-- A value together with the operators of its type. -/
structure Value where
  type : Type
  codec : Codec type
  marshallable : codec.Marshallable
  value : type

namespace Value

/-- `m << value`. -/
def put (v : Value) : List Write := v.codec.put v.value

/-- `u >> z` for a fresh variable `z` of the type of `v`. -/
def get (v : Value) (u : Unmarshall) : Value × Unmarshall :=
  ({ v with value := (v.codec.get u).1 }, (v.codec.get u).2)

def getAll : List Value → Unmarshall → List Value × Unmarshall
  | [], u => ([], u)
  | v :: vs, u =>
    let r := v.get u
    let rs := getAll vs r.2
    (r.1 :: rs.1, rs.2)

theorem getAll_put {vs : List Value} {u : Unmarshall} (h : u.Holds (bytesOf (vs.flatMap put))) :
    getAll vs u = (vs, u.skip (bytesOf (vs.flatMap put)).length) := by
  induction vs generalizing u with
  | nil => rfl
  | cons v vs ih =>
    -- The first type reads its own bytes and leaves the rest.
    rw [List.flatMap_cons, bytesOf_append] at h ⊢
    have hget := v.marshallable.lawful.get_put v.value u h.left
    have hv : v.get u = (v, u.skip (bytesOf v.put).length) := by
      simp only [get, hget]
      rfl
    simp only [getAll, hv, ih h.right, Unmarshall.skip_skip, List.length_append]

end Value

/-! ## The round trip -/

namespace Pdu

/-- The values written behind a fresh block, then the header packed. -/
def write (buf : Nat → UInt8) (h : Header) (vs : List Value) : Option Marshall :=
  ((Marshall.new buf).writeAll (vs.flatMap Value.put)).bind fun m => m.packHeader h

/-- The header unpacked, then the types of the values read. -/
def read (h : Header) (vs : List Value) (u : Unmarshall) : (Header × List Value) × Unmarshall :=
  let r := u.unpackHeader h
  let rs := Value.getAll vs r.2
  ((r.1, rs.1), rs.2)

/-- The bytes of a PDU, with the space for the header. -/
def size (vs : List Value) : Nat := rpcHeaderSz + (bytesOf (vs.flatMap Value.put)).length

def writeSizes (vs : List Value) : List Nat := (vs.flatMap Value.put).map Write.size

/-- The PDU is written, and a reader of its buffer gets back the header and the values and is
done. -/
def RoundTrips (buf : Nat → UInt8) (h : Header) (vs : List Value) : Prop :=
  ∃ m u, write buf h vs = some m ∧ read h vs (.new m.buf m.ind) = ((h, vs), u) ∧ u.okdone = true

/-- The capacity that the writes of the values ask for is one that a C integer can state. -/
def CapacityFits (vs : List Value) : Prop :=
  Marshall.capaAfter defaultRpcSz rpcHeaderSz (writeSizes vs) < intBound

instance (vs : List Value) : Decidable (CapacityFits vs) := Nat.decLt _ _

/-- What a block holds once the values and then the header are in it. -/
def written (buf : Nat → UInt8) (h : Header) (vs : List Value) : Nat → UInt8 :=
  overwrite (overwrite buf rpcHeaderSz (bytesOf (vs.flatMap Value.put))) rpcSzSize (bytesOf h.put)

theorem size_eq (vs : List Value) : size vs = rpcHeaderSz + (writeSizes vs).sum := by
  rw [size, writeSizes, sum_size]

theorem size_le_capaAfter (vs : List Value) :
    size vs ≤ Marshall.capaAfter defaultRpcSz rpcHeaderSz (writeSizes vs) := by
  rw [size_eq]
  exact Marshall.add_sum_le_capaAfter (by decide) (writeSizes vs)

theorem write_eq (buf : Nat → UInt8) (h : Header) (vs : List Value) :
    write buf h vs =
      if CapacityFits vs then
        some ⟨written buf h vs, Marshall.capaAfter defaultRpcSz rpcHeaderSz (writeSizes vs),
          size vs⟩
      else none := by
  have hvalues : (Marshall.new buf).writeAll (vs.flatMap Value.put) =
      if CapacityFits vs then
        some ⟨overwrite buf rpcHeaderSz (bytesOf (vs.flatMap Value.put)),
          Marshall.capaAfter defaultRpcSz rpcHeaderSz (writeSizes vs), size vs⟩
      else none :=
    Marshall.writeAll_eq (Marshall.new_sound buf) _
  rw [write, hvalues]
  by_cases hfits : CapacityFits vs
  · have hsound : Marshall.Sound
        ⟨overwrite buf rpcHeaderSz (bytesOf (vs.flatMap Value.put)),
          Marshall.capaAfter defaultRpcSz rpcHeaderSz (writeSizes vs), size vs⟩ :=
      ⟨size_le_capaAfter vs, Marshall.le_capaAfter _ _ _, hfits⟩
    rw [if_pos hfits, if_pos hfits, Option.bind_some, Marshall.packHeader_eq hsound]
    rfl
  · rw [if_neg hfits, if_neg hfits]
    rfl

theorem holds_header (buf : Nat → UInt8) (h : Header) {vs : List Value}
    (hsize : size vs < intBound) :
    Unmarshall.Holds ⟨written buf h vs, size vs, rpcSzSize, true⟩ (bytesOf h.put) where
  ok := rfl
  sz_lt := hsize
  le_sz := Nat.le_trans h.length_le (Nat.le_add_right _ _)
  bytes _ _ hb := overwrite_add _ _ hb

theorem holds_values (buf : Nat → UInt8) (h : Header) {vs : List Value}
    (hsize : size vs < intBound) :
    Unmarshall.Holds ⟨written buf h vs, size vs, rpcHeaderSz, true⟩
      (bytesOf (vs.flatMap Value.put)) where
  ok := rfl
  sz_lt := hsize
  le_sz := Nat.le_refl _
  bytes i b hb := by
    -- The header was packed last and does not reach the values.
    have hout : rpcSzSize + (bytesOf h.put).length ≤ rpcHeaderSz + i :=
      Nat.le_trans h.length_le (Nat.le_add_right _ _)
    exact (overwrite_of_outside _ (Or.inr hout)).trans (overwrite_add _ _ hb)

theorem unpackHeader_written (buf : Nat → UInt8) (h : Header) {vs : List Value}
    (hsize : size vs < intBound) :
    (Unmarshall.new (written buf h vs) (size vs)).unpackHeader h =
      (h, ⟨written buf h vs, size vs, rpcHeaderSz, true⟩) := by
  have hheader := h.get_put (holds_header buf h hsize)
  simp only [Unmarshall.unpackHeader, Unmarshall.new, hheader, Unmarshall.skip]

theorem read_written (buf : Nat → UInt8) (h : Header) {vs : List Value}
    (hsize : size vs < intBound) :
    read h vs (.new (written buf h vs) (size vs)) =
      ((h, vs), ⟨written buf h vs, size vs, size vs, true⟩) := by
  have hvalues := Value.getAll_put (holds_values buf h hsize)
  simp only [read, unpackHeader_written buf h hsize, hvalues, Unmarshall.skip]
  rfl

/-- The capacity is at most twice the size.  A connection takes no PDU of more than ten
megabytes. -/
theorem capacityFits_of_size_lt {vs : List Value} (hsize : size vs < 2 ^ 30) : CapacityFits vs := by
  have hsum : rpcHeaderSz + (writeSizes vs).sum ≤ 2 ^ 30 - 1 :=
    size_eq vs ▸ Nat.le_pred_of_lt hsize
  have hcapa := Marshall.capaAfter_le (by decide : defaultRpcSz ≤ 2 * (2 ^ 30 - 1)) hsum
  exact Nat.lt_of_le_of_lt hcapa (by decide)

/-- A PDU is written and read back if and only if its capacity fits.  It does for every PDU below
half the range of the capacity. -/
theorem roundTrips_iff (buf : Nat → UInt8) (h : Header) (vs : List Value) :
    (RoundTrips buf h vs ↔ CapacityFits vs) ∧ (size vs < 2 ^ 30 → CapacityFits vs) := by
  refine ⟨⟨?_, ?_⟩, capacityFits_of_size_lt⟩
  · -- A capacity that does not fit ends the writing, so there is nothing to read.
    rintro ⟨m, u, hwrite, -, -⟩
    by_contra hfits
    rw [write_eq, if_neg hfits] at hwrite
    cases hwrite
  · intro hfits
    have hsize : size vs < intBound := Nat.lt_of_le_of_lt (size_le_capaAfter vs) hfits
    refine ⟨_, _, (write_eq buf h vs).trans (if_pos hfits), read_written buf h hsize, ?_⟩
    simp [Unmarshall.okdone]

def zeros (n : Nat) : Value := ⟨_, .string, .string, List.replicate n 0⟩

theorem writeSizes_zeros (n n' : Nat) :
    writeSizes [zeros n, zeros n'] = [1, 1, 1, 1, n, 1, 1, 1, 1, n'] := by
  simp [writeSizes, zeros, Value.put, Codec.string, Codec.uint, Codec.put32, Write.size,
    Write.bytes]

/-- The second string needs a larger block, and twice the capacity is not an integer any more. -/
def gigabyte : List Value := [zeros (2 ^ 30), zeros 1000]

theorem gigabyte_not_roundTrips :
    size gigabyte < 2 ^ 31 ∧ ∀ buf h, ¬ RoundTrips buf h gigabyte := by
  have hsizes : writeSizes gigabyte = _ := writeSizes_zeros (2 ^ 30) 1000
  have hfits : ¬ CapacityFits gigabyte := by
    rw [CapacityFits, hsizes]
    decide
  refine ⟨?_, ?_⟩
  · rw [size_eq, hsizes]
    decide
  · rintro buf h ⟨m, u, hwrite, -, -⟩
    rw [write_eq, if_neg hfits] at hwrite
    cases hwrite

end Pdu

end Rpc
end Frangipani
