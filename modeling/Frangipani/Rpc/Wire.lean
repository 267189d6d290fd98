/-
The operators `<<` and `>>` of the RPC library (`rpc/marshall.h`, `rpc/rpc.cc`).

A `Codec` is the pair of operators of one type.  `put` is the sequence of raw
writes that `<<` makes; `get` is what `>>` stores in a freshly constructed
variable, and what it leaves of the reader.  A codec is lawful when `>>` reads
back what `<<` wrote, whatever surrounds it in the block.

There is no operator for a signed integer of 64 bits: the call would be
ambiguous.  `unsigned long` goes through the operators of one of the two other
unsigned types and is left out.
-/
import Frangipani.Data.OrderedMap
import Frangipani.Rpc.Marshall

namespace Frangipani
namespace Rpc

structure Codec (α : Type) where
  put : α → List Write
  get : Unmarshall → α × Unmarshall

namespace Codec

variable {α β : Type}

def bytes (c : Codec α) (x : α) : List UInt8 := bytesOf (c.put x)

structure Lawful (c : Codec α) : Prop where
  pos : ∀ x, 0 < (c.bytes x).length
  get_put : ∀ x (u : Unmarshall), u.Holds (c.bytes x) → c.get u = (x, u.skip (c.bytes x).length)

/-! ## Ways to make a codec from others -/

/-- A type whose operators go through another type. -/
def via (c : Codec α) (ofWire : α → β) (toWire : β → α) : Codec β where
  put y := c.put (toWire y)
  get u := (ofWire (c.get u).1, (c.get u).2)

/-- Two values, one after the other. -/
def both (c : Codec α) (d : Codec β) : Codec (α × β) where
  put p := c.put p.1 ++ d.put p.2
  get u :=
    let a := c.get u
    let b := d.get a.2
    ((a.1, b.1), b.2)

theorem both_bytes (c : Codec α) (d : Codec β) (p : α × β) :
    (c.both d).bytes p = c.bytes p.1 ++ d.bytes p.2 :=
  bytesOf_append (c.put p.1) (d.put p.2)

theorem Lawful.via {c : Codec α} (hc : c.Lawful) {ofWire : α → β} {toWire : β → α}
    (hback : ∀ y, ofWire (toWire y) = y) : (c.via ofWire toWire).Lawful where
  pos y := hc.pos (toWire y)
  get_put y u h := by
    have hget := hc.get_put (toWire y) u h
    simp only [Codec.via, hget, hback]
    rfl

theorem Lawful.both {c : Codec α} {d : Codec β} (hc : c.Lawful) (hd : d.Lawful) :
    (c.both d).Lawful where
  pos p := by
    have := hc.pos p.1
    rw [both_bytes, List.length_append]
    omega
  get_put p u h := by
    rw [both_bytes] at h ⊢
    have ha := hc.get_put p.1 u h.left
    have hb := hd.get_put p.2 _ h.right
    simp only [Codec.both, ha, hb, Unmarshall.skip_skip, List.length_append]

/-! ## Integers -/

def put16 (x : UInt16) : List Write :=
  [.rawbyte ((x >>> 8) &&& 0xff).toUInt8, .rawbyte (x &&& 0xff).toUInt8]

/-- The two reads that `unsigned short` and `short` share, as the unsigned type. -/
def get16 (u : Unmarshall) : UInt16 × Unmarshall :=
  let r1 := u.rawbyte
  let r0 := r1.2.rawbyte
  (((r1.1 &&& 0xff) <<< 8).toUInt16 ||| (r0.1 &&& 0xff).toUInt16, r0.2)

/-- The bytes of `unsigned int`: network order is big-endian. -/
def put32 (x : UInt32) : List Write :=
  [.rawbyte ((x >>> 24) &&& 0xff).toUInt8, .rawbyte ((x >>> 16) &&& 0xff).toUInt8,
    .rawbyte ((x >>> 8) &&& 0xff).toUInt8, .rawbyte (x &&& 0xff).toUInt8]

/-- The four reads that `unsigned int`, `int` and `unpack` share, as the unsigned type. -/
def get32 (u : Unmarshall) : UInt32 × Unmarshall :=
  let r3 := u.rawbyte
  let r2 := r3.2.rawbyte
  let r1 := r2.2.rawbyte
  let r0 := r1.2.rawbyte
  ((r3.1 &&& 0xff) <<< 24 ||| (r2.1 &&& 0xff) <<< 16 ||| (r1.1 &&& 0xff) <<< 8 ||| (r0.1 &&& 0xff),
    r0.2)

def uchar : Codec UInt8 where
  put x := [.rawbyte x]
  get u := (u.rawbyte.1.toUInt8, u.rawbyte.2)

def char : Codec Int8 := uchar.via UInt8.toInt8 Int8.toUInt8

def ushort : Codec UInt16 where
  put := put16
  get := get16

def short : Codec Int16 := ushort.via UInt16.toInt16 Int16.toUInt16

def uint : Codec UInt32 where
  put := put32
  get := get32

def int : Codec Int32 := uint.via UInt32.toInt32 Int32.toUInt32

/-- `unsigned long long`: the high half goes first. -/
def ulonglong : Codec UInt64 :=
  (uint.both uint).via (fun p => p.2.toUInt64 ||| p.1.toUInt64 <<< 32)
    fun x => ((x >>> 32).toUInt32, x.toUInt32)

theorem get16_of_holds {u : Unmarshall} (x : UInt16) (h : u.Holds (bytesOf (put16 x))) :
    get16 u = (x, u.skip 2) := by
  have r1 := Unmarshall.rawbyte_of_holds h
  have r0 := Unmarshall.rawbyte_of_holds h.tail
  simp only [get16, r1, r0, Data.signExtend_and, Data.uint16_of_bytes]
  rfl

theorem get32_of_holds {u : Unmarshall} (x : UInt32) (h : u.Holds (bytesOf (put32 x))) :
    get32 u = (x, u.skip 4) := by
  have r3 := Unmarshall.rawbyte_of_holds h
  have r2 := Unmarshall.rawbyte_of_holds h.tail
  have r1 := Unmarshall.rawbyte_of_holds h.tail.tail
  have r0 := Unmarshall.rawbyte_of_holds h.tail.tail.tail
  simp only [get32, r3, r2, r1, r0, Data.signExtend_and, Data.uint32_of_bytes]
  rfl

/-- A byte comes back through the signed character and its extension. -/
theorem toUInt8_signExtend (c : UInt8) : c.toInt8.toInt32.toUInt32.toUInt8 = c := by
  have h := congrArg UInt32.toUInt8 (Data.signExtend_and c)
  rwa [UInt32.toUInt8_and, show (0xff : UInt32).toUInt8 = -1 from rfl, UInt8.and_neg_one,
    UInt8.toUInt8_toUInt32] at h

theorem uchar_lawful : uchar.Lawful where
  pos _ := Nat.one_pos
  get_put x u h := by
    have r := Unmarshall.rawbyte_of_holds h
    simp only [uchar, r, toUInt8_signExtend]
    rfl

theorem ushort_lawful : ushort.Lawful where
  pos _ := Nat.two_pos
  get_put x _ h := get16_of_holds x h

theorem uint_lawful : uint.Lawful where
  pos _ := (by decide : 0 < 4)
  get_put x _ h := get32_of_holds x h

example : uint.bytes 0xfe020304 = [0xfe, 2, 3, 4] := by decide

example : (char.get (.new (fun _ => 0xff) 1)).1 = -1 := by decide

theorem ulonglong_lawful : ulonglong.Lawful :=
  (uint_lawful.both uint_lawful).via Data.uint64_of_halves

/-! ## Strings, vectors and maps -/

/-- `std::string`: the size, then the bytes in one write. -/
def string : Codec (List UInt8) where
  put s := uint.put (UInt32.ofNat s.length) ++ [.rawbytes s]
  get u :=
    let n := uint.get u
    -- A reader that has failed leaves the fresh string empty.
    if n.2.ok then n.2.rawbytes [] n.1 else ([], n.2)

/-- The loops of `>>` on containers: `n` elements are read, and each is added to what is there. -/
def getEach {σ : Type} (c : Codec α) (add : σ → α → σ) : Nat → σ → Unmarshall → σ × Unmarshall
  | 0, s, u => (s, u)
  | n + 1, s, u => getEach c add n (add s (c.get u).1) (c.get u).2

/-- `std::vector<C>`: the elements that were read are pushed to the back. -/
def vector (c : Codec α) : Codec (List α) where
  put v := uint.put (UInt32.ofNat v.length) ++ v.flatMap c.put
  get u := getEach c (fun v z => v ++ [z]) (uint.get u).1.toNat [] (uint.get u).2

/-- `std::map<A, B>`, visited in the order of its keys; the pairs that were read are assigned. -/
def map [LinearOrder α] (c : Codec α) (d : Codec β) : Codec (OrderedMap α β) where
  put m := uint.put (UInt32.ofNat m.entries.length) ++ m.entries.flatMap (c.both d).put
  get u :=
    getEach (c.both d) (fun m e => m.assign e.1 e.2) (uint.get u).1.toNat .empty (uint.get u).2

theorem toNat_ofNat_of_holds {u : Unmarshall} {bs : List UInt8} (h : u.Holds bs) {n : Nat}
    (hn : n ≤ bs.length) : (UInt32.ofNat n).toNat = n := by
  have hsz : u.sz < 2 ^ 31 := h.sz_lt
  have hle := h.le_sz
  exact UInt32.toNat_ofNat_of_lt' (by simp only [UInt32.size]; omega)

theorem string_bytes (s : List UInt8) :
    string.bytes s = uint.bytes (UInt32.ofNat s.length) ++ s := by
  have hone : bytesOf [.rawbytes s] = s := List.flatMap_singleton Write.bytes (.rawbytes s)
  exact (bytesOf_append _ _).trans (congrArg _ hone)

theorem string_lawful : string.Lawful where
  pos s := by
    have := uint_lawful.pos (UInt32.ofNat s.length)
    rw [string_bytes, List.length_append]
    omega
  get_put s u h := by
    rw [string_bytes] at h ⊢
    have hsize := uint_lawful.get_put _ u h.left
    have hrest := h.right
    simp only [string, hsize, hrest.ok, if_true, Unmarshall.rawbytes_of_holds hrest,
      Unmarshall.skip_skip, List.length_append]

theorem getEach_of_holds {σ : Type} {c : Codec α} (hc : c.Lawful) (add : σ → α → σ)
    {xs : List α} (s : σ) {u : Unmarshall} (h : u.Holds (xs.flatMap c.bytes)) :
    getEach c add xs.length s u = (xs.foldl add s, u.skip (xs.flatMap c.bytes).length) := by
  -- What has been added so far and the read position change from element to element.
  induction xs generalizing s u with
  | nil => rfl
  | cons x xs ih =>
    rw [List.flatMap_cons] at h ⊢
    have hget := hc.get_put x u h.left
    rw [List.length_cons, getEach, hget, ih _ h.right, Unmarshall.skip_skip, List.length_append,
      List.foldl_cons]

theorem Lawful.length_le {c : Codec α} (hc : c.Lawful) (xs : List α) :
    xs.length ≤ (xs.flatMap c.bytes).length := by
  induction xs with
  | nil => exact Nat.le_refl 0
  | cons x xs ih =>
    have := hc.pos x
    rw [List.flatMap_cons, List.length_append, List.length_cons]
    omega

/-- A size and that many elements, read into what a fresh container starts as. -/
theorem getEach_of_size {σ : Type} {c : Codec α} (hc : c.Lawful) (add : σ → α → σ) (s : σ)
    {xs : List α} {u : Unmarshall}
    (h : u.Holds (uint.bytes (UInt32.ofNat xs.length) ++ xs.flatMap c.bytes)) :
    getEach c add (uint.get u).1.toNat s (uint.get u).2 =
      (xs.foldl add s,
        u.skip (uint.bytes (UInt32.ofNat xs.length) ++ xs.flatMap c.bytes).length) := by
  have hsize := uint_lawful.get_put _ u h.left
  -- Every element takes a byte, so the number of elements fits the 32 bits it is written in.
  rw [hsize, toNat_ofNat_of_holds h.right (hc.length_le xs), getEach_of_holds hc add s h.right,
    Unmarshall.skip_skip, List.length_append]

theorem sized_bytes (c : Codec α) (xs : List α) :
    bytesOf (uint.put (UInt32.ofNat xs.length) ++ xs.flatMap c.put) =
      uint.bytes (UInt32.ofNat xs.length) ++ xs.flatMap c.bytes :=
  (bytesOf_append _ _).trans (congrArg _ (bytesOf_flatMap c.put xs))

theorem sized_pos (c : Codec α) (xs : List α) :
    0 < (bytesOf (uint.put (UInt32.ofNat xs.length) ++ xs.flatMap c.put)).length := by
  have := uint_lawful.pos (UInt32.ofNat xs.length)
  rw [sized_bytes, List.length_append]
  omega

theorem Lawful.vector {c : Codec α} (hc : c.Lawful) : c.vector.Lawful where
  pos := sized_pos c
  get_put v u h := by
    have hbytes : c.vector.bytes v = _ := sized_bytes c v
    rw [hbytes] at h ⊢
    have hget := getEach_of_size hc (fun v z => v ++ [z]) [] h
    rw [List.foldl_append_eq_append, List.nil_append, ← List.flatMap_def,
      List.flatMap_singleton'] at hget
    exact hget

theorem Lawful.map [LinearOrder α] {c : Codec α} {d : Codec β} (hc : c.Lawful) (hd : d.Lawful) :
    (c.map d).Lawful where
  pos m := sized_pos (c.both d) m.entries
  get_put m u h := by
    have hbytes : (c.map d).bytes m = _ := sized_bytes (c.both d) m.entries
    rw [hbytes] at h ⊢
    have hget := getEach_of_size (hc.both hd) (fun m e => OrderedMap.assign m e.1 e.2)
      OrderedMap.empty h
    rw [OrderedMap.foldl_assign_empty] at hget
    exact hget

end Codec

end Rpc
end Frangipani
