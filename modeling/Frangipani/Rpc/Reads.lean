/-
The bytes that decoding reads (`rpc/marshall.h`, `rpc/rpc.cc`).

Every operator `>>` and the unpacking of a header are programs of raw reads.  A
`Reader` is such a program; running it gives what the operator gives, and next to
the result it has the raw reads that were made, each with the state it was made
in.  So it can be said which bytes of the block are touched.

`rawbyte` compares the position with the size.  `rawbytes` compares the sum of the
position and a length that comes from the block, and the sum has 32 bits.  A
length for which it wraps passes, so nothing outside the block is read exactly
when no string has such a length.
-/
import Frangipani.Rpc.Pdu

namespace Frangipani
namespace Rpc

/-! ## Programs of raw reads -/

/-- Calls of `rawbyte`, `rawbytes` and `ok`, and assignments to `_ind`. -/
inductive Reader (α : Type) : Type where
  | done (a : α)
  | readByte (k : UInt32 → Reader α)
  | readBytes (ss : List UInt8) (n : UInt32) (k : List UInt8 → Reader α)
  | readOk (k : Bool → Reader α)
  | setInd (ind : Nat) (r : Reader α)

inductive RawRead where
  | rawbyte
  | rawbytes (ss : List UInt8) (n : UInt32)

/-- A raw read and the reader it is called on. -/
structure Call where
  before : Unmarshall
  read : RawRead

namespace Reader

variable {α β : Type}

def bind : Reader α → (α → Reader β) → Reader β
  | done a, f => f a
  | readByte k, f => readByte fun x => (k x).bind f
  | readBytes ss n k, f => readBytes ss n fun s => (k s).bind f
  | readOk k, f => readOk fun b => (k b).bind f
  | setInd ind r, f => setInd ind (r.bind f)

instance : Monad Reader where
  pure := done
  bind := bind

def run : Reader α → Unmarshall → α × Unmarshall
  | done a, u => (a, u)
  | readByte k, u => (k u.rawbyte.1).run u.rawbyte.2
  | readBytes ss n k, u => (k (u.rawbytes ss n).1).run (u.rawbytes ss n).2
  | readOk k, u => (k u.ok).run u
  | setInd ind r, u => r.run { u with ind := ind }

def calls : Reader α → Unmarshall → List Call
  | done _, _ => []
  | readByte k, u => ⟨u, .rawbyte⟩ :: (k u.rawbyte.1).calls u.rawbyte.2
  | readBytes ss n k, u =>
    ⟨u, .rawbytes ss n⟩ :: (k (u.rawbytes ss n).1).calls (u.rawbytes ss n).2
  | readOk k, u => (k u.ok).calls u
  | setInd ind r, u => r.calls { u with ind := ind }

theorem run_bind (r : Reader α) (f : α → Reader β) (u : Unmarshall) :
    (r >>= f).run u = (f (r.run u).1).run (r.run u).2 := by
  show (r.bind f).run u = _
  induction r generalizing u with
  | done a => rfl
  | readByte k ih => exact ih _ _
  | readBytes ss n k ih => exact ih _ _
  | readOk k ih => exact ih _ _
  | setInd ind r ih => exact ih _

theorem run_pure (a : α) (u : Unmarshall) : (pure a : Reader α).run u = (a, u) := rfl

theorem run_map (f : α → β) (r : Reader α) (u : Unmarshall) :
    (f <$> r).run u = (f (r.run u).1, (r.run u).2) :=
  run_bind r (fun a => done (f a)) u

theorem calls_bind (r : Reader α) (f : α → Reader β) (u : Unmarshall) :
    (r >>= f).calls u = r.calls u ++ (f (r.run u).1).calls (r.run u).2 := by
  show (r.bind f).calls u = _
  induction r generalizing u with
  | done a => rfl
  | readByte k ih => exact congrArg _ (ih _ _)
  | readBytes ss n k ih => exact congrArg _ (ih _ _)
  | readOk k ih => exact ih _ _
  | setInd ind r ih => exact ih _

theorem calls_map (f : α → β) (r : Reader α) (u : Unmarshall) :
    (f <$> r).calls u = r.calls u :=
  (calls_bind r (fun a => done (f a)) u).trans (List.append_nil _)

/-! ## The operators -/

def rawbyte : Reader UInt32 := readByte done

def rawbytes (ss : List UInt8) (n : UInt32) : Reader (List UInt8) := readBytes ss n done

def ok : Reader Bool := readOk done

def seek (ind : Nat) : Reader Unit := setInd ind (done ())

def get16 : Reader UInt16 := do
  let r1 ← rawbyte
  let r0 ← rawbyte
  return ((r1 &&& 0xff) <<< 8).toUInt16 ||| (r0 &&& 0xff).toUInt16

def get32 : Reader UInt32 := do
  let r3 ← rawbyte
  let r2 ← rawbyte
  let r1 ← rawbyte
  let r0 ← rawbyte
  return (r3 &&& 0xff) <<< 24 ||| (r2 &&& 0xff) <<< 16 ||| (r1 &&& 0xff) <<< 8 ||| (r0 &&& 0xff)

def string : Reader (List UInt8) := do
  let n ← get32
  if ← ok then rawbytes [] n else return []

def both (r : Reader α) (s : Reader β) : Reader (α × β) := do
  let a ← r
  let b ← s
  return (a, b)

def getEach {σ : Type} (r : Reader α) (add : σ → α → σ) : Nat → σ → Reader σ
  | 0, s => return s
  | n + 1, s => do
    let a ← r
    getEach r add n (add s a)

/-- The size of a container, then its elements. -/
def sized {σ : Type} (r : Reader α) (add : σ → α → σ) (s : σ) : Reader σ := do
  let n ← get32
  getEach r add n.toNat s

theorem run_ok_bind (f : Bool → Reader β) (u : Unmarshall) :
    (ok >>= f).run u = (f u.ok).run u := rfl

theorem calls_ok_bind (f : Bool → Reader β) (u : Unmarshall) :
    (ok >>= f).calls u = (f u.ok).calls u := rfl

theorem run_get32 (u : Unmarshall) : get32.run u = Codec.get32 u := rfl

theorem run_string (u : Unmarshall) : string.run u = Codec.string.get u := by
  have hsize : Codec.uint.get u = get32.run u := (run_get32 u).symm
  simp only [Codec.string, hsize]
  rw [string, run_bind, run_ok_bind]
  by_cases hok : (get32.run u).2.ok = true
  · rw [if_pos hok, if_pos hok]
    rfl
  · rw [if_neg hok, if_neg hok]
    rfl

theorem run_both {r : Reader α} {s : Reader β} {c : Codec α} {d : Codec β}
    (hr : ∀ u, r.run u = c.get u) (hs : ∀ u, s.run u = d.get u) (u : Unmarshall) :
    (r.both s).run u = (c.both d).get u := by
  simp only [both, run_bind, hr, hs]
  rfl

theorem run_getEach {σ : Type} {r : Reader α} {c : Codec α} (hr : ∀ u, r.run u = c.get u)
    (add : σ → α → σ) (n : Nat) (s : σ) (u : Unmarshall) :
    (getEach r add n s).run u = Codec.getEach c add n s u := by
  induction n generalizing s u with
  | zero => rfl
  | succ n ih => rw [getEach, run_bind, ih, hr, Codec.getEach]

theorem run_sized {σ : Type} {r : Reader α} {c : Codec α} (hr : ∀ u, r.run u = c.get u)
    (add : σ → α → σ) (s : σ) (u : Unmarshall) :
    (sized r add s).run u =
      Codec.getEach c add (Codec.uint.get u).1.toNat s (Codec.uint.get u).2 := by
  rw [sized, run_bind, run_getEach hr]
  rfl

end Reader

/-- The operators `>>`.  The fields of a struct are read one after the other, which `both` is, and
`via` puts them together. -/
inductive Operator : {α : Type} → Codec α → Type 1
  | uchar : Operator .uchar
  | ushort : Operator .ushort
  | uint : Operator .uint
  | string : Operator .string
  | both {α β : Type} {c : Codec α} {d : Codec β} : Operator c → Operator d → Operator (c.both d)
  | via {α β : Type} {c : Codec α} (o : Operator c) (ofWire : α → β) (toWire : β → α) :
      Operator (c.via ofWire toWire)
  | vector {α : Type} {c : Codec α} : Operator c → Operator c.vector
  | map {α β : Type} [LinearOrder α] {c : Codec α} {d : Codec β} :
      Operator c → Operator d → Operator (c.map d)

namespace Operator

def reader : {α : Type} → {c : Codec α} → Operator c → Reader α
  | _, _, uchar => UInt32.toUInt8 <$> Reader.rawbyte
  | _, _, ushort => Reader.get16
  | _, _, uint => Reader.get32
  | _, _, string => Reader.string
  | _, _, both o o' => o.reader.both o'.reader
  | _, _, via o ofWire _ => ofWire <$> o.reader
  | _, _, vector o => Reader.sized o.reader (fun v z => v ++ [z]) []
  | _, _, map o o' =>
    Reader.sized (o.reader.both o'.reader) (fun m e => OrderedMap.assign m e.1 e.2) .empty

theorem run_reader {α : Type} {c : Codec α} (o : Operator c) (u : Unmarshall) :
    o.reader.run u = c.get u := by
  induction o generalizing u with
  | uchar | ushort | uint => rfl
  | string => exact Reader.run_string u
  | both o o' ih ih' => exact Reader.run_both ih ih' u
  | via o ofWire _ ih => rw [reader, Reader.run_map, ih, Codec.via]
  | vector o ih => exact Reader.run_sized ih _ _ u
  | map o o' ih ih' => exact Reader.run_sized (Reader.run_both ih ih') _ _ u

def propT : Operator .propT := via (both uint string) _ _

theorem nonempty_of_marshallable {α : Type} {c : Codec α} (h : c.Marshallable) :
    Nonempty (Operator c) := by
  induction h with
  | uchar => exact ⟨uchar⟩
  | char => exact ⟨via uchar _ _⟩
  | ushort => exact ⟨ushort⟩
  | short => exact ⟨via ushort _ _⟩
  | uint => exact ⟨uint⟩
  | int => exact ⟨via uint _ _⟩
  | ulonglong => exact ⟨via (both uint uint) _ _⟩
  | string => exact ⟨string⟩
  | vector _ hc => exact hc.map vector
  | map _ _ hc hd => exact hc.elim fun o => hd.map (Operator.map o)
  | propT => exact ⟨propT⟩
  | preparearg => exact ⟨via (both uint (both propT string)) _ _⟩
  | prepareres =>
    exact ⟨via (both (via uint _ _) (both (via uint _ _) (both propT string))) _ _⟩
  | acceptarg => exact ⟨via (both uint (both propT string)) _ _⟩
  | decidearg => exact ⟨via (both uint string) _ _⟩
  | attr => exact ⟨via (both uint (both uint (both uint uint))) _ _⟩
  | viewstamp => exact ⟨via (both uint uint) _ _⟩
  | transferres => exact ⟨via (both string (via (both uint uint) _ _)) _ _⟩
  | joinres => exact ⟨via string _ _⟩

end Operator

namespace Reader

def unpack : Reader Int32 := UInt32.toInt32 <$> get32

def unpackReqHeader : Reader ReqHeader := do
  seek rpcSzSize
  let xid ← unpack
  let proc ← unpack
  let cltNonce ← unpack
  let srvNonce ← unpack
  let xidRep ← unpack
  seek rpcHeaderSz
  return ⟨xid, proc, cltNonce.toUInt32, srvNonce.toUInt32, xidRep⟩

def unpackReplyHeader : Reader ReplyHeader := do
  seek rpcSzSize
  let xid ← unpack
  let ret ← unpack
  seek rpcHeaderSz
  return ⟨xid, ret⟩

/-- The header of the kind of `h`. -/
def unpackHeader (h : Header) : Reader Header :=
  match h with
  | .req _ => .req <$> unpackReqHeader
  | .reply _ => .reply <$> unpackReplyHeader

theorem run_unpack (u : Unmarshall) : unpack.run u = Codec.pack.get u :=
  run_map _ _ u

theorem run_seek (ind : Nat) (u : Unmarshall) : (seek ind).run u = ((), { u with ind := ind }) :=
  rfl

theorem run_unpackHeader (h : Header) (u : Unmarshall) :
    (unpackHeader h).run u = u.unpackHeader h := by
  cases h with
  | req h =>
    simp only [unpackHeader, run_map, unpackReqHeader, run_bind, run_unpack, run_seek, run_pure,
      Unmarshall.unpackHeader, Header.get, Codec.reqHeader, Codec.packNonce, Codec.via, Codec.both]
  | reply h =>
    simp only [unpackHeader, run_map, unpackReplyHeader, run_bind, run_unpack, run_seek, run_pure,
      Unmarshall.unpackHeader, Header.get, Codec.replyHeader, Codec.via, Codec.both]

end Reader

/-- What is done with a reader: a header is unpacked, or a value of some type is read. -/
inductive Decode : Type 1
  | unpackHeader (h : Header)
  | get {α : Type} {c : Codec α} (o : Operator c)

namespace Decode

def reader : Decode → Reader Unit
  | unpackHeader h => (fun _ => ()) <$> Reader.unpackHeader h
  | get o => (fun _ => ()) <$> o.reader

def all : List Decode → Reader Unit
  | [] => return ()
  | d :: ds => do
    d.reader
    all ds

end Decode

/-! ## What a raw read touches -/

namespace Call

/-- The positions of the block that the call reads. -/
def positions : Call → List Nat
  | ⟨u, .rawbyte⟩ => if u.ind ≥ u.sz then [] else [u.ind]
  | ⟨u, .rawbytes _ n⟩ =>
    if UInt32.ofNat u.ind + n > UInt32.ofNat u.sz then []
    else (List.range n.toNat).map (u.ind + ·)

/-- `rawbytes` delivers its bytes when the block has that many left, and fails without moving
otherwise. -/
def Exact : Call → Prop
  | ⟨_, .rawbyte⟩ => True
  | ⟨u, .rawbytes ss n⟩ =>
    u.rawbytes ss n =
      if u.ind + n.toNat ≤ u.sz then
        ((List.range n.toNat).map fun i => u.buf (u.ind + i), u.skip n.toNat)
      else (ss, { u with ok := false })

/-- The end of the bytes that `rawbytes` is asked for is a number of 32 bits. -/
def LengthFits : Call → Prop
  | ⟨_, .rawbyte⟩ => True
  | ⟨u, .rawbytes _ n⟩ => u.ind + n.toNat < UInt32.size

instance : DecidablePred LengthFits
  | ⟨_, .rawbyte⟩ => isTrue trivial
  | ⟨u, .rawbytes _ n⟩ => Nat.decLt (u.ind + n.toNat) UInt32.size

/-- The position of a `rawbytes` call is not behind the end of the block. -/
def Within : Call → Prop
  | ⟨_, .rawbyte⟩ => True
  | ⟨u, .rawbytes ..⟩ => u.ind ≤ u.sz

theorem over_iff {u : Unmarshall} {n : UInt32} (hsz : u.sz < intBound) (hind : u.ind ≤ u.sz) :
    UInt32.ofNat u.ind + n > UInt32.ofNat u.sz ↔ u.sz < (u.ind + n.toNat) % 2 ^ 32 := by
  have hlt : u.sz < 2 ^ 31 := hsz
  rw [gt_iff_lt, UInt32.lt_iff_toNat_lt, UInt32.toNat_add,
    UInt32.toNat_ofNat_of_lt' (by simp only [UInt32.size]; omega),
    UInt32.toNat_ofNat_of_lt' (by simp only [UInt32.size]; omega)]

theorem exact_of_lengthFits {c : Call} (hsz : c.before.sz < intBound) (hin : c.Within)
    (hfits : c.LengthFits) : c.Exact := by
  obtain ⟨u, read⟩ := c
  cases read with
  | rawbyte => trivial
  | rawbytes ss n =>
    have hsum : u.ind + n.toNat < 2 ^ 32 := hfits
    have hlt : u.sz < 2 ^ 31 := hsz
    have hle : u.ind ≤ u.sz := hin
    have hnat : (UInt32.ofNat u.ind + n).toNat = u.ind + n.toNat := by
      rw [UInt32.toNat_add, UInt32.toNat_ofNat_of_lt' (by simp only [UInt32.size]; omega),
        Nat.mod_eq_of_lt hsum]
    have hover : UInt32.ofNat u.ind + n > UInt32.ofNat u.sz ↔ _ := over_iff hsz hle
    rw [Nat.mod_eq_of_lt hsum] at hover
    show u.rawbytes ss n = _
    by_cases hend : u.ind + n.toNat ≤ u.sz
    · have hpass : ¬ UInt32.ofNat u.ind + n > UInt32.ofNat u.sz := by
        rw [hover]
        omega
      rw [Unmarshall.rawbytes, if_neg hpass, if_pos hend, hnat]
      rfl
    · rw [Unmarshall.rawbytes, if_pos (hover.mpr (by omega)), if_neg hend]

theorem positions_lt {c : Call} (hsz : c.before.sz < intBound) (hin : c.Within)
    (hfits : c.LengthFits) {i : Nat} (hi : i ∈ c.positions) : i < c.before.sz := by
  obtain ⟨u, read⟩ := c
  cases read with
  | rawbyte =>
    simp only [positions] at hi
    split_ifs at hi with hend
    · exact absurd hi List.not_mem_nil
    · have := List.mem_singleton.mp hi
      show i < u.sz
      omega
  | rawbytes ss n =>
    have hsum : u.ind + n.toNat < 2 ^ 32 := hfits
    simp only [positions] at hi
    split_ifs at hi with hover
    · exact absurd hi List.not_mem_nil
    · have hend : ¬ u.sz < _ := (over_iff hsz hin).not.mp hover
      rw [Nat.mod_eq_of_lt hsum] at hend
      obtain ⟨j, hj, rfl⟩ := List.mem_map.mp hi
      have := List.mem_range.mp hj
      show u.ind + j < u.sz
      omega

/-- A sum that wraps lies before the position, so it passes, and the last byte that is read is
behind the end. -/
theorem exists_position_of_not_lengthFits {c : Call} (hsz : c.before.sz < intBound)
    (hin : c.Within) (hfits : ¬ c.LengthFits) : ∃ i ∈ c.positions, c.before.sz ≤ i := by
  obtain ⟨u, read⟩ := c
  cases read with
  | rawbyte => exact absurd trivial hfits
  | rawbytes ss n =>
    have hsum : ¬ u.ind + n.toNat < 2 ^ 32 := hfits
    have hlt : u.sz < 2 ^ 31 := hsz
    have hle : u.ind ≤ u.sz := hin
    have hn : n.toNat < 2 ^ 32 := n.toNat_lt
    have hover : UInt32.ofNat u.ind + n > UInt32.ofNat u.sz ↔ _ := over_iff hsz hle
    have hpass : ¬ UInt32.ofNat u.ind + n > UInt32.ofNat u.sz := by
      rw [hover]
      omega
    refine ⟨u.ind + (n.toNat - 1), ?_, show u.sz ≤ _ by omega⟩
    simp only [positions, if_neg hpass]
    exact List.mem_map.mpr ⟨_, List.mem_range.mpr (by omega), rfl⟩

end Call

/-! ## Runs of programs -/

namespace Unmarshall

theorem sz_rawbyte (u : Unmarshall) : u.rawbyte.2.sz = u.sz := by
  unfold rawbyte
  split_ifs <;> rfl

theorem sz_rawbytes (u : Unmarshall) (ss : List UInt8) (n : UInt32) :
    (u.rawbytes ss n).2.sz = u.sz := by
  unfold rawbytes
  split_ifs <;> rfl

theorem ok_of_rawbyte {u : Unmarshall} (h : u.rawbyte.2.ok = true) :
    u.ok = true ∧ u.ind < u.sz := by
  unfold rawbyte at h
  split_ifs at h with hend
  exact ⟨h, Nat.lt_of_not_le hend⟩

theorem ok_of_rawbytes {u : Unmarshall} {ss : List UInt8} {n : UInt32}
    (h : (u.rawbytes ss n).2.ok = true) : u.ok = true := by
  unfold rawbytes at h
  split_ifs at h
  exact h

end Unmarshall

namespace Reader

variable {α β : Type}

theorem sz_of_mem_calls {r : Reader α} {u : Unmarshall} {c : Call} (h : c ∈ r.calls u) :
    c.before.sz = u.sz := by
  induction r generalizing u with
  | done a => exact absurd h List.not_mem_nil
  | readByte k ih =>
    rcases List.mem_cons.mp h with rfl | h
    · rfl
    · exact (ih _ h).trans u.sz_rawbyte
  | readBytes ss n k ih =>
    rcases List.mem_cons.mp h with rfl | h
    · rfl
    · exact (ih _ h).trans (u.sz_rawbytes ss n)
  | readOk k ih => exact ih _ h
  | setInd ind r ih =>
    have := @ih { u with ind := ind } h
    exact this

theorem ok_of_run {r : Reader α} {u : Unmarshall} (h : (r.run u).2.ok = true) : u.ok = true := by
  induction r generalizing u with
  | done a => exact h
  | readByte k ih => exact (Unmarshall.ok_of_rawbyte (ih _ h)).1
  | readBytes ss n k ih => exact Unmarshall.ok_of_rawbytes (ih _ h)
  | readOk k ih => exact ih _ h
  | setInd ind r ih =>
    have := @ih { u with ind := ind } h
    exact this

/-- The program calls `rawbytes` only at positions in the block. -/
def Guarded (r : Reader α) : Prop := ∀ u, ∀ c ∈ r.calls u, c.Within

theorem Guarded.bind {r : Reader α} {f : α → Reader β} (hr : r.Guarded)
    (hf : ∀ a, (f a).Guarded) : (r >>= f).Guarded := by
  intro u c hc
  rw [calls_bind] at hc
  rcases List.mem_append.mp hc with hc | hc
  · exact hr u c hc
  · exact hf _ _ c hc

theorem guarded_pure (a : α) : (pure a : Reader α).Guarded :=
  fun _ _ hc => absurd hc List.not_mem_nil

theorem Guarded.map {r : Reader α} (f : α → β) (hr : r.Guarded) : (f <$> r).Guarded := by
  intro u c hc
  rw [calls_map] at hc
  exact hr u c hc

theorem guarded_rawbyte : rawbyte.Guarded := fun _ _ hc => List.mem_singleton.mp hc ▸ trivial

theorem guarded_seek (ind : Nat) : (seek ind).Guarded :=
  fun _ _ hc => absurd hc List.not_mem_nil

theorem guarded_get16 : get16.Guarded :=
  guarded_rawbyte.bind fun _ => guarded_rawbyte.bind fun _ => guarded_pure _

theorem guarded_get32 : get32.Guarded :=
  guarded_rawbyte.bind fun _ => guarded_rawbyte.bind fun _ => guarded_rawbyte.bind fun _ =>
    guarded_rawbyte.bind fun _ => guarded_pure _

/-- A reader that has not failed stands behind a byte of its block. -/
theorem ind_le_of_get32 {u : Unmarshall} (h : (get32.run u).2.ok = true) :
    (get32.run u).2.ind ≤ (get32.run u).2.sz := by
  have hlast : ∀ v : Unmarshall, v.rawbyte.2.ok = true → v.rawbyte.2.ind ≤ v.rawbyte.2.sz := by
    intro v hv
    obtain ⟨-, hlt⟩ := Unmarshall.ok_of_rawbyte hv
    rw [Unmarshall.rawbyte, if_neg (Nat.not_le_of_lt hlt)]
    exact hlt
  exact hlast _ h

/-- The size of a string is read first, and `ok` is asked before its bytes. -/
theorem guarded_string : string.Guarded := by
  intro u c hc
  rw [string, calls_bind] at hc
  rcases List.mem_append.mp hc with hc | hc
  · exact guarded_get32 u c hc
  · rw [calls_ok_bind] at hc
    by_cases hok : (get32.run u).2.ok = true
    · rw [if_pos hok] at hc
      rw [List.mem_singleton.mp hc]
      exact ind_le_of_get32 hok
    · rw [if_neg hok] at hc
      exact absurd hc List.not_mem_nil

theorem Guarded.both {r : Reader α} {s : Reader β} (hr : r.Guarded) (hs : s.Guarded) :
    (r.both s).Guarded :=
  hr.bind fun _ => hs.bind fun _ => guarded_pure _

theorem Guarded.sized {σ : Type} {r : Reader α} (hr : r.Guarded) (add : σ → α → σ) (s : σ) :
    (r.sized add s).Guarded := by
  have heach : ∀ n s, (getEach r add n s).Guarded := by
    intro n
    induction n with
    | zero => exact guarded_pure
    | succ n ih => exact fun s => hr.bind fun a => ih (add s a)
  exact guarded_get32.bind fun n => heach n.toNat s

theorem guarded_unpackHeader (h : Header) : (unpackHeader h).Guarded := by
  have hunpack : unpack.Guarded := guarded_get32.map _
  have hfive : unpackReqHeader.Guarded :=
    (guarded_seek _).bind fun _ => hunpack.bind fun _ => hunpack.bind fun _ => hunpack.bind fun _ =>
      hunpack.bind fun _ => hunpack.bind fun _ => (guarded_seek _).bind fun _ => guarded_pure _
  have htwo : unpackReplyHeader.Guarded :=
    (guarded_seek _).bind fun _ => hunpack.bind fun _ => hunpack.bind fun _ =>
      (guarded_seek _).bind fun _ => guarded_pure _
  cases h with
  | req h => exact hfive.map _
  | reply h => exact htwo.map _

end Reader

theorem Operator.guarded {α : Type} {c : Codec α} (o : Operator c) : o.reader.Guarded := by
  induction o with
  | uchar => exact Reader.guarded_rawbyte.map _
  | ushort => exact Reader.guarded_get16
  | uint => exact Reader.guarded_get32
  | string => exact Reader.guarded_string
  | both o o' ih ih' => exact ih.both ih'
  | via o ofWire _ ih => exact ih.map ofWire
  | vector o ih => exact ih.sized _ _
  | map o o' ih ih' => exact (ih.both ih').sized _ _

namespace Decode

theorem guarded_all (ds : List Decode) : (all ds).Guarded := by
  induction ds with
  | nil => exact Reader.guarded_pure ()
  | cons d ds ih =>
    refine Reader.Guarded.bind ?_ fun _ => ih
    cases d with
    | unpackHeader h => exact (Reader.guarded_unpackHeader h).map _
    | get o => exact o.guarded.map _

theorem run_all_append (ds es : List Decode) (u : Unmarshall) :
    (all (ds ++ es)).run u = (all es).run ((all ds).run u).2 := by
  induction ds generalizing u with
  | nil => rfl
  | cons d ds ih => simp only [List.cons_append, all, Reader.run_bind, ih]

/-- Decoding stays in the block. -/
structure Confined (ds : List Decode) (u : Unmarshall) : Prop where
  inside : ∀ c ∈ (all ds).calls u, ∀ i ∈ c.positions, i < u.sz
  exact : ∀ c ∈ (all ds).calls u, c.Exact
  failed : ∀ es es', es ++ es' = ds → ((all es).run u).2.ok = false →
    ((all ds).run u).2.ok = false

/-- For every block below `2^31` bytes and every sequence of headers and values that are read from
it: no byte outside the block is read, every `rawbytes` delivers its bytes exactly when they are
there, and a failure is kept, if and only if the length of no string ends behind `2^32`. -/
theorem confined_iff (ds : List Decode) (u : Unmarshall) (hsz : u.sz < intBound) :
    Confined ds u ↔ ∀ c ∈ (all ds).calls u, c.LengthFits := by
  have hsize : ∀ c ∈ (all ds).calls u, c.before.sz < intBound := fun c hc =>
    (Reader.sz_of_mem_calls hc).symm ▸ hsz
  constructor
  · intro h c hc
    by_contra hfits
    obtain ⟨i, hi, hout⟩ :=
      Call.exists_position_of_not_lengthFits (hsize c hc) (guarded_all ds u c hc) hfits
    have hlt := h.inside c hc i hi
    rw [Reader.sz_of_mem_calls hc] at hout
    omega
  · intro h
    refine ⟨fun c hc i hi => ?_, fun c hc => ?_, ?_⟩
    · rw [← Reader.sz_of_mem_calls hc]
      exact Call.positions_lt (hsize c hc) (guarded_all ds u c hc) (h c hc) hi
    · exact Call.exact_of_lengthFits (hsize c hc) (guarded_all ds u c hc) (h c hc)
    · rintro es es' rfl hfailed
      rw [run_all_append]
      by_contra hok
      rw [Reader.ok_of_run (Bool.not_eq_false _ ▸ hok)] at hfailed
      cases hfailed

/-- A reply whose only value is the string `ok`. -/
def okReply : Unmarshall :=
  .new (fun i => ([0, 0, 0, 2, 111, 107] : List UInt8)[i - rpcHeaderSz]?.getD 0) 30

def replyString : List Decode := [.unpackHeader (.reply ⟨0, 0⟩), .get .string]

theorem okReply_confined : Confined replyString okReply :=
  (confined_iff replyString okReply (by decide)).mpr (by decide)

/-- A reply of 28 bytes, all with their bits set. -/
def setBits : Unmarshall := .new (fun _ => 0xff) 28

/-- The length `2^32 - 1` ends at 27 after the wrap.  The bytes from 28 on are read, and the reader
moves back. -/
theorem setBits_not_confined :
    (∃ c ∈ (all replyString).calls setBits, 28 ∈ c.positions) ∧
    ((all replyString).run setBits).2.ind = 27 ∧ ((all replyString).run setBits).2.ok = true ∧
    ¬ Confined replyString setBits := by
  have hcall : (⟨{ setBits with ind := 28 }, .rawbytes [] 0xffffffff⟩ : Call) ∈
      (all replyString).calls setBits := List.mem_of_getElem? (i := 12) rfl
  have hread : 28 ∈ (⟨{ setBits with ind := 28 }, .rawbytes [] 0xffffffff⟩ : Call).positions :=
    List.mem_map.mpr ⟨0, List.mem_range.mpr (by decide), rfl⟩
  refine ⟨⟨_, hcall, hread⟩, by decide +kernel, by decide +kernel, fun h => ?_⟩
  exact absurd (h.inside _ hcall 28 hread) (by decide)

end Decode
end Rpc
end Frangipani
