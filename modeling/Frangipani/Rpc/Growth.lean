/-
Writing and packing in any order.

A caller writes to a `marshall` and packs a header into it, and it may do so more
than once and in any order.  `rawbyte` and `rawbytes` have different rules for a
block that is too small, and packing moves the write position to the front of the
block and back.

As long as less than `2^29` bytes are written, every operation has a result.  So
no byte is stored outside of the capacity and no capacity overflows, and what was
written before stays behind the header.
-/
import Frangipani.Rpc.Pdu

namespace Frangipani
namespace Rpc

/-- An operation on a `marshall`. -/
inductive MarshallOp where
  | rawbyte (x : UInt8)
  | rawbytes (p : List UInt8)
  | packReqHeader (h : ReqHeader)
  | packReplyHeader (h : ReplyHeader)

/-- The bytes that an operation adds to the content. -/
def MarshallOp.content : MarshallOp → List UInt8
  | .rawbyte x => [x]
  | .rawbytes p => p
  | .packReqHeader _ | .packReplyHeader _ => []

def contentOf (ops : List MarshallOp) : List UInt8 := ops.flatMap MarshallOp.content

namespace Marshall

def perform (m : Marshall) : MarshallOp → Option Marshall
  | .rawbyte x => m.rawbyte x
  | .rawbytes p => m.rawbytes p
  | .packReqHeader h => m.packHeader (.req h)
  | .packReplyHeader h => m.packHeader (.reply h)

def performAll (m : Marshall) : List MarshallOp → Option Marshall
  | [] => some m
  | op :: ops => (m.perform op).bind fun m => m.performAll ops

/-- The content stands behind the header, and the write position behind the content. -/
structure Contains (m : Marshall) (content : List UInt8) : Prop where
  ind_eq : m.ind = rpcHeaderSz + content.length
  bytes : ∀ i b, content[i]? = some b → m.buf (rpcHeaderSz + i) = b

theorem new_contains (buf : Nat → UInt8) : (new buf).Contains [] where
  ind_eq := rfl
  bytes i b hb := by cases hb

theorem Contains.overwrite {m : Marshall} {content : List UInt8} (h : m.Contains content)
    (p : List UInt8) (capa : Nat) :
    (Marshall.mk (overwrite m.buf m.ind p) capa (m.ind + p.length)).Contains (content ++ p) where
  ind_eq := by
    have := h.ind_eq
    rw [List.length_append]
    show m.ind + p.length = _
    omega
  bytes i b hb := by
    have hind := h.ind_eq
    show Rpc.overwrite m.buf m.ind p (rpcHeaderSz + i) = b
    by_cases hi : i < content.length
    · rw [overwrite_of_outside _ (.inl (by omega))]
      rw [List.getElem?_append_left hi] at hb
      exact h.bytes i b hb
    · rw [List.getElem?_append_right (Nat.le_of_not_lt hi)] at hb
      have hpos : rpcHeaderSz + i = m.ind + (i - content.length) := by omega
      rw [hpos]
      exact overwrite_add _ _ hb

/-- A header does not reach the content. -/
theorem Contains.packHeader {m : Marshall} {content : List UInt8} (h : m.Contains content)
    (hd : Header) :
    Contains { m with buf := Rpc.overwrite m.buf rpcSzSize (bytesOf hd.put) } content where
  ind_eq := h.ind_eq
  bytes i b hb := by
    have hle := hd.length_le
    rw [← h.bytes i b hb]
    exact overwrite_of_outside _ (.inr (by omega))

/-- What an operation leaves when there is room for twice the content. -/
theorem Contains.perform {m : Marshall} {content : List UInt8} {bound : Nat}
    (h : m.Contains content) (hm : m.Sound) (hcapa : m.capa ≤ 2 * bound)
    (hbound : 2 * bound < intBound) {op : MarshallOp}
    (hsize : rpcHeaderSz + (content ++ op.content).length ≤ bound) :
    ∃ m', m.perform op = some m' ∧ m'.Sound ∧ m'.capa ≤ 2 * bound ∧
      m'.Contains (content ++ op.content) := by
  have hwrite : ∀ w : Write, rpcHeaderSz + (content ++ w.bytes).length ≤ bound →
      ∃ m', m.write w = some m' ∧ m'.Sound ∧ m'.capa ≤ 2 * bound ∧
        m'.Contains (content ++ w.bytes) := by
    intro w hw
    have hind := h.ind_eq
    have hsum : m.ind + [w.size].sum ≤ bound := by
      rw [List.length_append] at hw
      rw [List.sum_singleton, Write.size]
      omega
    have hgrown : grown m.capa m.ind w.size ≤ 2 * bound := capaAfter_le hcapa hsum
    have hlt : grown m.capa m.ind w.size < intBound := Nat.lt_of_le_of_lt hgrown hbound
    exact ⟨_, (write_eq hm w).trans (if_pos hlt), grown_sound hm hlt _, hgrown,
      h.overwrite w.bytes _⟩
  have hpack : ∀ hd : Header, ∃ m', m.packHeader hd = some m' ∧ m'.Sound ∧
      m'.capa ≤ 2 * bound ∧ m'.Contains (content ++ []) := by
    intro hd
    rw [List.append_nil]
    exact ⟨_, packHeader_eq hm hd, ⟨hm.ind_le, hm.le_capa, hm.capa_lt⟩, hcapa, h.packHeader hd⟩
  cases op with
  | rawbyte x => exact hwrite (.rawbyte x) hsize
  | rawbytes p => exact hwrite (.rawbytes p) hsize
  | packReqHeader hd => exact hpack (.req hd)
  | packReplyHeader hd => exact hpack (.reply hd)

theorem Contains.performAll {m : Marshall} {content : List UInt8} {bound : Nat}
    (h : m.Contains content) (hm : m.Sound) (hcapa : m.capa ≤ 2 * bound)
    (hbound : 2 * bound < intBound) {ops : List MarshallOp}
    (hsize : rpcHeaderSz + (content ++ contentOf ops).length ≤ bound) :
    ∃ m', m.performAll ops = some m' ∧ m'.Sound ∧ m'.Contains (content ++ contentOf ops) := by
  induction ops generalizing m content with
  | nil => exact ⟨m, rfl, hm, by rwa [contentOf, List.flatMap_nil, List.append_nil]⟩
  | cons op ops ih =>
    have happend : content ++ contentOf (op :: ops) = content ++ op.content ++ contentOf ops := by
      rw [contentOf, List.flatMap_cons, List.append_assoc]
      rfl
    rw [happend] at hsize ⊢
    have hfirst : rpcHeaderSz + (content ++ op.content).length ≤ bound := by
      rw [List.length_append] at hsize
      omega
    obtain ⟨m₁, hop, hm₁, hcapa₁, h₁⟩ := h.perform hm hcapa hbound hfirst
    rw [Marshall.performAll, hop, Option.bind_some]
    exact ih h₁ hm₁ hcapa₁ hsize

/-- For every sequence of raw writes and of header packings on a new `marshall` that writes less
than `2^29` bytes, and after each of its operations: no byte was stored outside of the capacity,
the write position is at most the capacity, and the block holds everything that was written. -/
theorem performAll_contains (buf : Nat → UInt8) (ops : List MarshallOp)
    (hsize : (contentOf ops).length < 2 ^ 29) (k : Nat) :
    ∃ m, (new buf).performAll (ops.take k) = some m ∧ m.ind ≤ m.capa ∧
      m.Contains (contentOf (ops.take k)) := by
  have hprefix : (contentOf (ops.take k)).length ≤ (contentOf ops).length := by
    have hsub : contentOf (ops.take k) <+: contentOf ops := by
      refine ⟨contentOf (ops.drop k), ?_⟩
      rw [contentOf, contentOf, contentOf, ← List.flatMap_append, List.take_append_drop]
    exact hsub.length_le
  have hroom : rpcHeaderSz + ([] ++ contentOf (ops.take k)).length ≤ rpcHeaderSz + 2 ^ 29 := by
    rw [List.nil_append]
    omega
  obtain ⟨m, hrun, hm, hcontains⟩ := (new_contains buf).performAll (new_sound buf)
    (show defaultRpcSz ≤ _ by decide) (by decide) hroom
  exact ⟨m, hrun, hm.ind_le, hcontains⟩

/-- A header is packed between two writes, the second of which does not fit the block that `malloc`
has returned. -/
theorem performAll_contains_kilobyte :
    ∃ m, (new fun _ => 0).performAll [.rawbytes (List.replicate 1000 1),
        .packReplyHeader ⟨1, 0⟩, .rawbyte 2] = some m ∧ m.ind ≤ m.capa ∧
      m.Contains (List.replicate 1000 1 ++ [2]) := by
  have hlength : (List.replicate 1000 (1 : UInt8)).length = 1000 := List.length_replicate
  generalize List.replicate 1000 (1 : UInt8) = p at hlength ⊢
  refine performAll_contains (fun _ => 0) [.rawbytes p, .packReplyHeader ⟨1, 0⟩, .rawbyte 2] ?_ 3
  show (p ++ [2]).length < 2 ^ 29
  rw [List.length_append, hlength]
  decide

end Marshall
end Rpc
end Frangipani
