/-
The buffers of the RPC library (`rpc/marshall.h`, `rpc/rpc.cc`).

A `marshall` owns a block of bytes that it reallocates when a write does not
fit, with a capacity and a write position that are C integers.  An `unmarshall`
reads such a block.  All operators are made of `rawbyte` and `rawbytes` on both
sides, so this file says what a sequence of raw writes leaves in the block, and
for which sequences the capacity stays an integer.

The block is a function from positions to bytes: `malloc` does not clear it, and
`realloc` keeps what it held.  A request for `2^31` bytes or more is one the
capacity cannot state; it has overflowed, `realloc` gets a huge size, and the
assertion behind it fails.  Smaller requests are taken to succeed.  A write
outside the capacity is undefined and has no result here.
-/
import Frangipani.Data.Bytes

namespace Frangipani
namespace Rpc

/-- `DEFAULT_RPC_SZ`. -/
def defaultRpcSz : Nat := 1024

/-- `sizeof(rpc_sz_t)`: the first bytes are left to the channel. -/
def rpcSzSize : Nat := 4

/-- `RPC_HEADER_SZ`, without checksumming. -/
def rpcHeaderSz : Nat := 24

/-- The values of a C integer that are not negative lie below this bound. -/
def intBound : Nat := 2 ^ 31

/-! ## Raw writes -/

/-- A call of `rawbyte` or of `rawbytes`. -/
inductive Write where
  | rawbyte (x : UInt8)
  | rawbytes (p : List UInt8)
deriving DecidableEq, Repr

def Write.bytes : Write → List UInt8
  | rawbyte x => [x]
  | rawbytes p => p

def Write.size (w : Write) : Nat := w.bytes.length

def bytesOf (ws : List Write) : List UInt8 := ws.flatMap Write.bytes

@[simp] theorem bytesOf_nil : bytesOf [] = [] := rfl

theorem bytesOf_cons (w : Write) (ws : List Write) : bytesOf (w :: ws) = w.bytes ++ bytesOf ws :=
  List.flatMap_cons

theorem bytesOf_append (ws ws' : List Write) : bytesOf (ws ++ ws') = bytesOf ws ++ bytesOf ws' :=
  List.flatMap_append

theorem sum_size (ws : List Write) : (ws.map Write.size).sum = (bytesOf ws).length :=
  List.length_flatMap.symm

theorem bytesOf_flatMap {α : Type*} (f : α → List Write) (xs : List α) :
    bytesOf (xs.flatMap f) = xs.flatMap fun x => bytesOf (f x) :=
  List.flatMap_assoc

/-- A block of memory with the bytes `p` copied to the position `i`. -/
def overwrite (buf : Nat → UInt8) (i : Nat) (p : List UInt8) : Nat → UInt8 :=
  fun k => if i ≤ k then p[k - i]?.getD (buf k) else buf k

theorem overwrite_nil (buf : Nat → UInt8) (i : Nat) : overwrite buf i [] = buf := by
  funext k
  simp [overwrite]

theorem overwrite_add (buf : Nat → UInt8) (i : Nat) {p : List UInt8} {j : Nat} {b : UInt8}
    (hb : p[j]? = some b) : overwrite buf i p (i + j) = b := by
  simp [overwrite, hb]

theorem overwrite_of_outside (buf : Nat → UInt8) {i k : Nat} {p : List UInt8}
    (hk : k < i ∨ i + p.length ≤ k) : overwrite buf i p k = buf k := by
  unfold overwrite
  split_ifs with hi
  · rw [List.getElem?_eq_none (by omega), Option.getD_none]
  · rfl

theorem overwrite_overwrite (buf : Nat → UInt8) (i : Nat) (p q : List UInt8) :
    overwrite (overwrite buf i p) (i + p.length) q = overwrite buf i (p ++ q) := by
  funext k
  -- A position lies before the end of `p`, or `q` decides about it.
  by_cases hp : k < i + p.length
  · rw [overwrite_of_outside _ (Or.inl hp)]
    unfold overwrite
    split_ifs with hi
    · rw [List.getElem?_append_left (by omega)]
    · rfl
  · have hi : i ≤ k := by omega
    simp only [overwrite, if_pos hi, if_pos (Nat.le_of_not_lt hp)]
    rw [List.getElem?_append_right (by omega), show k - i - p.length = k - (i + p.length) by omega,
      List.getElem?_eq_none (show p.length ≤ k - i by omega), Option.getD_none]

/-! ## `marshall` -/

structure Marshall where
  buf : Nat → UInt8
  capa : Nat
  ind : Nat

namespace Marshall

/-- The constructor, on the block `malloc` returned. -/
def new (buf : Nat → UInt8) : Marshall := ⟨buf, defaultRpcSz, rpcHeaderSz⟩

def realloc (m : Marshall) (capa : Nat) : Option Marshall :=
  if capa < intBound then some { m with capa := capa } else none

def store (m : Marshall) (p : List UInt8) : Option Marshall :=
  if m.ind + p.length ≤ m.capa then
    some { m with buf := overwrite m.buf m.ind p, ind := m.ind + p.length }
  else none

def rawbyte (m : Marshall) (x : UInt8) : Option Marshall :=
  (if m.ind ≥ m.capa then m.realloc (m.capa * 2) else some m).bind fun m => m.store [x]

-- A size of `2^31` or more, which `n` cannot state, asks for a capacity that has no result either.
def rawbytes (m : Marshall) (p : List UInt8) : Option Marshall :=
  (if m.ind + p.length > m.capa then
      m.realloc (if m.capa > p.length then 2 * m.capa else m.capa + p.length)
    else some m).bind fun m => m.store p

def write (m : Marshall) : Write → Option Marshall
  | .rawbyte x => m.rawbyte x
  | .rawbytes p => m.rawbytes p

def writeAll (m : Marshall) : List Write → Option Marshall
  | [] => some m
  | w :: ws => (m.write w).bind fun m => m.writeAll ws

/-- What holds of every marshall between two writes. -/
structure Sound (m : Marshall) : Prop where
  ind_le : m.ind ≤ m.capa
  le_capa : defaultRpcSz ≤ m.capa
  capa_lt : m.capa < intBound

theorem new_sound (buf : Nat → UInt8) : (new buf).Sound where
  ind_le := (by decide : rpcHeaderSz ≤ defaultRpcSz)
  le_capa := Nat.le_refl defaultRpcSz
  capa_lt := (by decide : defaultRpcSz < intBound)

/-! ## The growth of the capacity

The capacity is followed as a number without bound here.  It never shrinks, so
all writes succeed exactly when the last capacity is still an integer.
-/

/-- The capacity that a write of `n` bytes at `ind` asks for. -/
def grown (capa ind n : Nat) : Nat :=
  if ind + n > capa then if capa > n then 2 * capa else capa + n else capa

/-- The capacity that writes of these sizes ask for, one after the other. -/
def capaAfter (capa ind : Nat) : List Nat → Nat
  | [] => capa
  | n :: ns => capaAfter (grown capa ind n) (ind + n) ns

theorem le_grown (capa ind n : Nat) : capa ≤ grown capa ind n := by
  unfold grown
  split_ifs <;> omega

theorem le_capaAfter (capa ind : Nat) (ns : List Nat) : capa ≤ capaAfter capa ind ns := by
  induction ns generalizing capa ind with
  | nil => exact Nat.le_refl capa
  | cons n ns ih => exact Nat.le_trans (le_grown capa ind n) (ih _ _)

theorem add_le_grown {capa ind : Nat} (hind : ind ≤ capa) (n : Nat) :
    ind + n ≤ grown capa ind n := by
  unfold grown
  split_ifs <;> omega

theorem add_sum_le_capaAfter {capa ind : Nat} (hind : ind ≤ capa) (ns : List Nat) :
    ind + ns.sum ≤ capaAfter capa ind ns := by
  induction ns generalizing capa ind with
  | nil => exact hind
  | cons n ns ih =>
    have := ih (add_le_grown hind n)
    rw [List.sum_cons, capaAfter]
    omega

theorem capaAfter_of_le {capa ind : Nat} {ns : List Nat} (hle : ind + ns.sum ≤ capa) :
    capaAfter capa ind ns = capa := by
  induction ns generalizing ind with
  | nil => rfl
  | cons n ns ih =>
    rw [List.sum_cons] at hle
    rw [capaAfter, grown, if_neg (by omega)]
    exact ih (by omega)

/-- The capacity at most doubles what is written, so writes up to half the bound fit. -/
theorem capaAfter_le {capa ind : Nat} {ns : List Nat} {bound : Nat} (hcapa : capa ≤ 2 * bound)
    (hsum : ind + ns.sum ≤ bound) : capaAfter capa ind ns ≤ 2 * bound := by
  induction ns generalizing capa ind with
  | nil => exact hcapa
  | cons n ns ih =>
    rw [List.sum_cons] at hsum
    refine ih ?_ (by omega)
    -- A capacity below what is written doubles, and one of at most `n` grows by `n`.
    unfold grown
    split_ifs <;> omega

theorem realloc_capa {m : Marshall} (hm : m.Sound) : m.realloc m.capa = some m :=
  if_pos hm.capa_lt

theorem rawbyte_eq {m : Marshall} (hm : m.Sound) (x : UInt8) :
    m.rawbyte x = (m.realloc (grown m.capa m.ind 1)).bind fun m => m.store [x] := by
  have hone : 1 < m.capa := Nat.lt_of_lt_of_le (by decide) hm.le_capa
  unfold rawbyte grown
  by_cases hfull : m.ind ≥ m.capa
  · rw [if_pos hfull, if_pos (show m.ind + 1 > m.capa by omega), if_pos hone, Nat.mul_comm]
  · rw [if_neg hfull, if_neg (show ¬ m.ind + 1 > m.capa by omega), realloc_capa hm]

theorem rawbytes_eq {m : Marshall} (hm : m.Sound) (p : List UInt8) :
    m.rawbytes p = (m.realloc (grown m.capa m.ind p.length)).bind fun m => m.store p := by
  unfold rawbytes grown
  by_cases hfull : m.ind + p.length > m.capa
  · rw [if_pos hfull, if_pos hfull]
  · rw [if_neg hfull, if_neg hfull, realloc_capa hm]

theorem write_eq {m : Marshall} (hm : m.Sound) (w : Write) :
    m.write w =
      if grown m.capa m.ind w.size < intBound then
        some ⟨overwrite m.buf m.ind w.bytes, grown m.capa m.ind w.size, m.ind + w.size⟩
      else none := by
  have hwrite : m.write w =
      (m.realloc (grown m.capa m.ind w.size)).bind fun m => m.store w.bytes := by
    cases w with
    | rawbyte x => exact rawbyte_eq hm x
    | rawbytes p => exact rawbytes_eq hm p
  rw [hwrite, realloc]
  by_cases hlt : grown m.capa m.ind w.size < intBound
  · rw [if_pos hlt, if_pos hlt, Option.bind_some]
    exact if_pos (add_le_grown hm.ind_le w.size)
  · rw [if_neg hlt, if_neg hlt]
    rfl

theorem grown_sound {m : Marshall} (hm : m.Sound) {w : Write}
    (hlt : grown m.capa m.ind w.size < intBound) (buf : Nat → UInt8) :
    (Marshall.mk buf (grown m.capa m.ind w.size) (m.ind + w.size)).Sound where
  ind_le := add_le_grown hm.ind_le w.size
  le_capa := Nat.le_trans hm.le_capa (le_grown _ _ _)
  capa_lt := hlt

theorem writeAll_eq {m : Marshall} (hm : m.Sound) (ws : List Write) :
    m.writeAll ws =
      if capaAfter m.capa m.ind (ws.map Write.size) < intBound then
        some ⟨overwrite m.buf m.ind (bytesOf ws), capaAfter m.capa m.ind (ws.map Write.size),
          m.ind + (bytesOf ws).length⟩
      else none := by
  induction ws generalizing m with
  | nil =>
    rw [writeAll, List.map_nil, capaAfter, if_pos hm.capa_lt, bytesOf_nil, overwrite_nil]
    rfl
  | cons w ws ih =>
    have hle := le_capaAfter (grown m.capa m.ind w.size) (m.ind + w.size) (ws.map Write.size)
    rw [writeAll, write_eq hm, List.map_cons, capaAfter]
    by_cases hlt : grown m.capa m.ind w.size < intBound
    · rw [if_pos hlt, Option.bind_some, ih (grown_sound hm hlt _), bytesOf_cons,
        List.length_append, ← overwrite_overwrite, ← Nat.add_assoc]
      rfl
    · -- The capacity never shrinks, so it is too large at the end as well.
      rw [if_neg hlt, if_neg (by omega)]
      rfl

end Marshall

/-! ## `unmarshall` -/

structure Unmarshall where
  buf : Nat → UInt8
  sz : Nat
  ind : Nat
  ok : Bool

namespace Unmarshall

def new (buf : Nat → UInt8) (sz : Nat) : Unmarshall := ⟨buf, sz, 0, true⟩

def okdone (u : Unmarshall) : Bool := u.ok && u.ind == u.sz

/-- The byte at the read position.  It passes through a `char`, which is signed, so its high bit
fills the upper bytes of the unsigned result. -/
def rawbyte (u : Unmarshall) : UInt32 × Unmarshall :=
  if u.ind ≥ u.sz then (0, { u with ok := false })
  else ((u.buf u.ind).toInt8.toInt32.toUInt32, { u with ind := u.ind + 1 })

/-- `rawbytes(ss, n)`: the sum is unsigned, and `ss` stays as it is when too few bytes are left. -/
def rawbytes (u : Unmarshall) (ss : List UInt8) (n : UInt32) : List UInt8 × Unmarshall :=
  if UInt32.ofNat u.ind + n > UInt32.ofNat u.sz then (ss, { u with ok := false })
  else ((List.range n.toNat).map fun i => u.buf (u.ind + i),
    { u with ind := (UInt32.ofNat u.ind + n).toNat })

def skip (u : Unmarshall) (n : Nat) : Unmarshall := { u with ind := u.ind + n }

@[simp] theorem skip_skip (u : Unmarshall) (n n' : Nat) : (u.skip n).skip n' = u.skip (n + n') := by
  simp [skip, Nat.add_assoc]

/-- Nothing has failed so far, and the bytes `bs` are next. -/
structure Holds (u : Unmarshall) (bs : List UInt8) : Prop where
  ok : u.ok = true
  sz_lt : u.sz < intBound
  le_sz : u.ind + bs.length ≤ u.sz
  bytes : ∀ i b, bs[i]? = some b → u.buf (u.ind + i) = b

theorem Holds.left {u : Unmarshall} {p q : List UInt8} (h : u.Holds (p ++ q)) : u.Holds p where
  ok := h.ok
  sz_lt := h.sz_lt
  le_sz := by have := h.le_sz; rw [List.length_append] at this; omega
  bytes i b hb := h.bytes i b
    (by rw [List.getElem?_append_left (List.getElem?_eq_some_iff.mp hb).1, hb])

theorem Holds.right {u : Unmarshall} {p q : List UInt8} (h : u.Holds (p ++ q)) :
    (u.skip p.length).Holds q where
  ok := h.ok
  sz_lt := h.sz_lt
  le_sz := by have := h.le_sz; rw [List.length_append] at this; simp only [skip]; omega
  bytes i b hb := by
    rw [skip, Nat.add_assoc]
    refine h.bytes (p.length + i) b ?_
    rw [List.getElem?_append_right (Nat.le_add_right _ _), Nat.add_sub_cancel_left, hb]

theorem Holds.tail {u : Unmarshall} {b : UInt8} {bs : List UInt8} (h : u.Holds (b :: bs)) :
    (u.skip 1).Holds bs :=
  Holds.right (p := [b]) h

theorem rawbyte_of_holds {u : Unmarshall} {b : UInt8} {bs : List UInt8} (h : u.Holds (b :: bs)) :
    u.rawbyte = (b.toInt8.toInt32.toUInt32, u.skip 1) := by
  have hlt : ¬ u.ind ≥ u.sz := by
    have := h.le_sz
    rw [List.length_cons] at this
    omega
  rw [rawbyte, if_neg hlt, show u.buf u.ind = b from h.bytes 0 b rfl]
  rfl

theorem rawbytes_of_holds {u : Unmarshall} {p : List UInt8} (h : u.Holds p) (ss : List UInt8) :
    u.rawbytes ss (UInt32.ofNat p.length) = (p, u.skip p.length) := by
  have hlt : u.sz < 2 ^ 31 := h.sz_lt
  have hle := h.le_sz
  have hnat : (UInt32.ofNat p.length).toNat = p.length :=
    UInt32.toNat_ofNat_of_lt' (by simp only [UInt32.size]; omega)
  -- Position and size are below `2^31`, so the unsigned sum does not wrap.
  have hsum : (UInt32.ofNat u.ind + UInt32.ofNat p.length).toNat = u.ind + p.length := by
    rw [← UInt32.ofNat_add, UInt32.toNat_ofNat_of_lt' (by simp only [UInt32.size]; omega)]
  have hfits : ¬ UInt32.ofNat u.ind + UInt32.ofNat p.length > UInt32.ofNat u.sz := by
    rw [gt_iff_lt, UInt32.lt_iff_toNat_lt, hsum,
      UInt32.toNat_ofNat_of_lt' (by simp only [UInt32.size]; omega)]
    omega
  have hbytes : ((List.range p.length).map fun i => u.buf (u.ind + i)) = p := by
    refine List.ext_getElem (by simp) fun i hi hi' => ?_
    rw [List.getElem_map, List.getElem_range]
    exact h.bytes i _ (List.getElem?_eq_getElem hi')
  rw [rawbytes, if_neg hfits, hsum, hnat, hbytes]
  rfl

end Unmarshall

end Rpc
end Frangipani
