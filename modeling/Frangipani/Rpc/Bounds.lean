/-
The buffer that a PDU is read into.

The length of a PDU comes from the wire as a signed number.  `readpdu` refuses one above
`MAX_PDU` and takes every other: also one below 4, the size of the length itself, or
below 0.  The size of the buffer is computed from it without a sign, and so is the number
of bytes that the second `read` asks for.  Both are what they should be exactly as long
as every length that is taken is at least 4.

`Incoming` keeps next to the receiver the size of the block it reads into and the
reads of the rest of a PDU that were made.
-/
import Frangipani.Rpc.Connection

namespace Frangipani
namespace Rpc

open Transition

/-- The number of bytes that `malloc(sz+sizeof(sz))` is asked for: `sizeof` makes the sum an
unsigned number. -/
def CharBuf.mallocSize (p : CharBuf) : Nat := ((p.sz + 4) % 2 ^ 64).toNat

/-- No block is larger than `PTRDIFF_MAX`, and `malloc` returns `NULL` for such a size. -/
def ptrdiffMax : Nat := 9223372036854775807

namespace Receiver

/-- The call reads from the socket. -/
def Reads (r : Receiver) : Prop :=
  r.dead = false ∧ (r.rpdu.buf = none ∨ r.rpdu.solong < r.rpdu.sz)

instance (r : Receiver) : Decidable r.Reads := inferInstanceAs (Decidable (_ ∧ _))

/-- The buffer that `read_cb` allocates, when the length is taken. -/
def started (r : Receiver) (first : ReadResult) : Option CharBuf :=
  if r.Reads ∧ r.rpdu.sz = 0 then (readLength first).bind Prod.fst else none

/-- The buffer that the second `read` is made into. -/
def readInto (r : Receiver) (first : ReadResult) : Option CharBuf :=
  if r.Reads ∧ r.rpdu.sz ≠ 0 then some r.rpdu else r.started first

end Receiver

/-- A read of the rest of a PDU: `sz` and `solong` at the time, the number of bytes asked for, and
the size of the block. -/
structure RestRead where
  sz : Int
  solong : Int
  count : Nat
  block : Nat
  deriving DecidableEq

structure Incoming where
  receiver : Receiver
  block : Nat
  reads : List RestRead

inductive IncomingAction
  | readCb (first second : ReadResult) (accept : Bool)
  | closeconn

namespace Incoming

/-- The block at `rpdu_.buf` during the second `read`. -/
def blockFor (s : Incoming) (first : ReadResult) : Nat :=
  (s.receiver.started first).elim s.block CharBuf.mallocSize

/-- The second `read` of the call, if there is one. -/
def restRead (s : Incoming) (first : ReadResult) : List RestRead :=
  ((s.receiver.readInto first).map fun p =>
    { sz := p.sz, solong := p.solong, count := p.request, block := s.blockFor first }).toList

/-- The two assertions of `readpdu` about the buffer: there was none, and there is one now. -/
def Allocates (s : Incoming) (first : ReadResult) : Prop :=
  ∀ p ∈ s.receiver.started first, s.receiver.rpdu.buf = none ∧ p.mallocSize ≤ ptrdiffMax

instance (s : Incoming) (first : ReadResult) : Decidable (s.Allocates first) :=
  inferInstanceAs (Decidable (∀ p ∈ s.receiver.started first, _))

def step (s : Incoming) : IncomingAction → Option Incoming
  | .readCb first second accept =>
    if s.Allocates first then
      (s.receiver.readCb first second accept).map fun r =>
        { receiver := r.1, block := s.blockFor first, reads := s.reads ++ s.restRead first }
    else none
  | .closeconn => some { s with receiver := { s.receiver with dead := true } }

def start : Incoming := { receiver := .new, block := 0, reads := [] }

def system : System Incoming IncomingAction where
  init s := s = start
  step := step

/-- A buffer of `rpdu_` that is within its bounds. -/
def Bounded (p : CharBuf) : Prop := 4 ≤ p.solong ∧ p.solong ≤ p.sz ∧ p.sz ≤ maxPdu

/-- The buffer is within its bounds whenever it is allocated, and every read was for the
`sz - solong` bytes from `solong` on of a block of `sz + 4` bytes. -/
structure Inside (s : Incoming) : Prop where
  bounded : s.receiver.rpdu.buf ≠ none → Bounded s.receiver.rpdu
  reads : ∀ r ∈ s.reads, 0 ≤ r.solong ∧ 0 ≤ r.sz - r.solong ∧ (r.count : Int) = r.sz - r.solong ∧
    (r.block : Int) = r.sz + 4

/-- A length that is taken is at least 4. -/
def LongEnough (s : Incoming) : IncomingAction → Prop
  | .readCb first _ _ => ∀ p ∈ s.receiver.started first, 4 ≤ p.sz
  | .closeconn => True

instance (s : Incoming) : DecidablePred s.LongEnough
  | .readCb first _ _ => inferInstanceAs (Decidable (∀ p ∈ s.receiver.started first, _))
  | .closeconn => isTrue trivial

/-! ## One call -/

/-- What is known of the state: without a buffer `rpdu_` is empty, and with one the block has the
size that belongs to it. -/
structure Inv (s : Incoming) : Prop where
  inside : s.Inside
  empty : s.receiver.rpdu.buf = none → s.receiver.rpdu = .empty
  block : s.receiver.rpdu.buf ≠ none → (s.block : Int) = s.receiver.rpdu.sz + 4

theorem inv_start : start.Inv where
  inside := ⟨fun h => absurd rfl h, fun _ h => absurd h List.not_mem_nil⟩
  empty _ := rfl
  block h := absurd rfl h

theorem request_of_bounded {p : CharBuf} (h : Bounded p) : (p.request : Int) = p.sz - p.solong := by
  obtain ⟨hlow, hle, hmax⟩ := h
  have hsz : p.sz ≤ 10485760 := hmax
  rw [CharBuf.request, Int.toNat_of_nonneg (Int.emod_nonneg _ (by decide))]
  exact Int.emod_eq_of_lt (by omega) (by omega)

theorem mallocSize_of_bounded {p : CharBuf} (h : Bounded p) : (p.mallocSize : Int) = p.sz + 4 := by
  obtain ⟨hlow, hle, hmax⟩ := h
  have hsz : p.sz ≤ 10485760 := hmax
  rw [CharBuf.mallocSize, Int.toNat_of_nonneg (Int.emod_nonneg _ (by decide))]
  exact Int.emod_eq_of_lt (by omega) (by omega)

/-- The second `read` leaves the buffer within its bounds, with the same size, or drops it. -/
theorem readRest_bounded {p p' : CharBuf} {r : ReadResult} {bs : List UInt8} {ok : Bool}
    (h : Bounded p) (hbuf : p.buf ≠ none) (hr : readRest p r = some (p', bs, ok)) :
    p' = .empty ∨ Bounded p' ∧ p'.sz = p.sz ∧ p'.buf ≠ none := by
  have hreq := request_of_bounded h
  cases r with
  | data bs' =>
    simp only [readRest] at hr
    split at hr
    · cases hr
    · rename_i hfits
      cases hr
      obtain ⟨hlow, hle, hmax⟩ := h
      have hlen : bs.length ≤ p.request := by
        rw [not_or, Nat.not_lt] at hfits
        exact hfits.2
      refine .inr ⟨⟨?_, ?_, hmax⟩, rfl, ?_⟩
      · show 4 ≤ p.solong + bs.length
        omega
      · show p.solong + bs.length ≤ p.sz
        omega
      · simpa using hbuf
  | eof e | failed e =>
    cases e with
    | eagain =>
      cases hr
      exact .inr ⟨h, rfl, hbuf⟩
    | other =>
      cases hr
      exact .inl rfl

/-- A length that is taken is at most `MAX_PDU`, and four bytes have been read. -/
theorem readLength_some {first : ReadResult} {p : CharBuf} {bs : List UInt8}
    (h : readLength first = some (some p, bs)) :
    p.solong = 4 ∧ p.sz ≤ maxPdu ∧ p.buf ≠ none := by
  cases first with
  | eof e => cases h
  | failed e => cases e <;> cases h
  | data bs' =>
    simp only [readLength] at h
    split at h
    · cases h
    · split at h
      · cases h
      · split at h
        · cases h
        · rename_i hmax
          cases h
          exact ⟨rfl, Int.not_lt.mp hmax, Option.some_ne_none _⟩

theorem started_some {r : Receiver} {first : ReadResult} {p : CharBuf}
    (h : r.started first = some p) : r.Reads ∧ r.rpdu.sz = 0 ∧ p.solong = 4 ∧ p.sz ≤ maxPdu ∧
      p.buf ≠ none ∧ ∃ bs, readLength first = some (some p, bs) := by
  unfold Receiver.started at h
  split at h
  · rename_i hreads
    obtain ⟨⟨q, bs⟩, hlen, hq⟩ := Option.bind_eq_some_iff.mp h
    cases hq
    obtain ⟨hsolong, hmax, hbuf⟩ := readLength_some hlen
    exact ⟨hreads.1, hreads.2, hsolong, hmax, hbuf, bs, hlen⟩
  · cases h

theorem deliver_rpdu (r : Receiver) (accept : Bool) :
    (r.deliver accept).rpdu = .empty ∨ (r.deliver accept).rpdu = r.rpdu := by
  unfold Receiver.deliver
  split
  · split
    · exact .inl rfl
    · exact .inr rfl
  · exact .inr rfl

/-- What the reads of a call leave in `rpdu_`: what it was, or a buffer that was read into. -/
theorem fill_cases {r : Receiver} {first second : ReadResult} {p' : CharBuf} {bs : List UInt8}
    {ok : Bool} (hdead : r.dead = false) (h : r.fill first second = some (p', bs, ok)) :
    (p' = r.rpdu ∧ r.readInto first = none) ∨
      ∃ p bs' ok, r.readInto first = some p ∧ readRest p second = some (p', bs', ok) := by
  unfold Receiver.fill at h
  split at h
  · rename_i hopen
    have hreads : r.Reads := ⟨hdead, hopen⟩
    unfold readpdu at h
    split at h
    · rename_i hsz
      have hinto : r.readInto first = (readLength first).bind Prod.fst := by
        rw [Receiver.readInto, if_neg (fun hne => hne.2 hsz), Receiver.started,
          if_pos ⟨hreads, hsz⟩]
      split at h
      · cases h
      · rename_i hlen
        cases h
        refine .inl ⟨rfl, ?_⟩
        rw [hinto, hlen]
        rfl
      · rename_i p bs' hlen
        obtain ⟨⟨q, bs'', ok'⟩, hrest, hq⟩ := Option.map_eq_some_iff.mp h
        cases hq
        refine .inr ⟨p, bs'', ok, ?_, hrest⟩
        rw [hinto, hlen]
        rfl
    · rename_i hsz
      exact .inr ⟨r.rpdu, bs, ok, if_pos ⟨hreads, hsz⟩, h⟩
  · rename_i hclosed
    have hreads : ¬ r.Reads := fun hr => hclosed hr.2
    cases h
    refine .inl ⟨rfl, ?_⟩
    rw [Receiver.readInto, if_neg (fun hr => hreads hr.1), Receiver.started,
      if_neg (fun hr => hreads hr.1)]

theorem readCb_cases {r r' : Receiver} {first second : ReadResult} {accept : Bool}
    {bs : List UInt8} (h : r.readCb first second accept = some (r', bs)) :
    r'.rpdu = .empty ∨ (r'.rpdu = r.rpdu ∧ r.readInto first = none) ∨
      ∃ p bs' ok, r.readInto first = some p ∧ readRest p second = some (r'.rpdu, bs', ok) := by
  unfold Receiver.readCb at h
  split at h
  · rename_i hdead
    cases h
    have hreads : ¬ r.Reads := fun hr => by
      rw [hr.1] at hdead
      cases hdead
    refine .inr (.inl ⟨rfl, ?_⟩)
    rw [Receiver.readInto, if_neg (fun hr => hreads hr.1), Receiver.started,
      if_neg (fun hr => hreads hr.1)]
  · rename_i hdead
    split at h
    · cases h
    · rename_i p' bs' ok hfill
      cases h
      rcases deliver_rpdu { r with rpdu := p', dead := !ok, consumed := r.consumed + bs.length }
        accept with hempty | hsame
      · exact .inl hempty
      · rw [hsame]
        exact .inr (fill_cases (Bool.eq_false_iff.mpr hdead) hfill)

/-- The buffer that is read into is within its bounds, and the block belongs to it. -/
theorem Inv.readInto {s : Incoming} (h : s.Inv) {first : ReadResult} {p : CharBuf}
    (hlong : ∀ q ∈ s.receiver.started first, 4 ≤ q.sz) (hp : s.receiver.readInto first = some p) :
    Bounded p ∧ p.buf ≠ none ∧ (s.blockFor first : Int) = p.sz + 4 := by
  unfold Receiver.readInto at hp
  split at hp
  · rename_i hreads
    cases hp
    have hbuf : s.receiver.rpdu.buf ≠ none := fun hnone => hreads.2 (by rw [h.empty hnone]; rfl)
    have hnone : s.receiver.started first = none := if_neg fun hr => hreads.2 hr.2
    refine ⟨h.inside.bounded hbuf, hbuf, ?_⟩
    rw [blockFor, hnone]
    exact h.block hbuf
  · obtain ⟨-, -, hsolong, hmax, hbuf, -⟩ := started_some hp
    have hbounded : Bounded p := ⟨by omega, by have := hlong p hp; omega, hmax⟩
    refine ⟨hbounded, hbuf, ?_⟩
    rw [blockFor, hp]
    exact mallocSize_of_bounded hbounded

theorem Inv.step {s t : Incoming} {a : IncomingAction} (h : s.Inv) (hlong : s.LongEnough a)
    (hs : s.step a = some t) : t.Inv := by
  cases a with
  | closeconn =>
    cases hs
    exact ⟨⟨h.inside.bounded, h.inside.reads⟩, h.empty, h.block⟩
  | readCb first second accept =>
    simp only [Incoming.step] at hs
    split at hs
    · obtain ⟨⟨r, bs⟩, hcb, ht⟩ := Option.map_eq_some_iff.mp hs
      cases ht
      have hreads : ∀ q ∈ s.restRead first, 0 ≤ q.solong ∧ 0 ≤ q.sz - q.solong ∧
          (q.count : Int) = q.sz - q.solong ∧ (q.block : Int) = q.sz + 4 := by
        intro q hq
        obtain ⟨p, hp, rfl⟩ := Option.map_eq_some_iff.mp (Option.mem_toList.mp hq)
        obtain ⟨hbounded, -, hblock⟩ := h.readInto hlong hp
        have hlow := hbounded.1
        exact ⟨show 0 ≤ p.solong by omega, Int.sub_nonneg.mpr hbounded.2.1,
          request_of_bounded hbounded, hblock⟩
      have hall : ∀ q ∈ s.reads ++ s.restRead first, _ := fun q hq =>
        (List.mem_append.mp hq).elim (h.inside.reads q) (hreads q)
      rcases readCb_cases hcb with hempty | ⟨hsame, hnone⟩ | ⟨p, bs', ok, hp, hrest⟩
      · have hbuf : r.rpdu.buf = none := by rw [hempty]; rfl
        exact ⟨⟨fun hne => absurd hbuf hne, hall⟩, fun _ => hempty, fun hne => absurd hbuf hne⟩
      · have hstarted : s.receiver.started first = none := by
          unfold Receiver.readInto at hnone
          split at hnone
          · cases hnone
          · exact hnone
        refine ⟨⟨?_, hall⟩, ?_, ?_⟩
        · show r.rpdu.buf ≠ none → Bounded r.rpdu
          rw [hsame]
          exact h.inside.bounded
        · show r.rpdu.buf = none → r.rpdu = .empty
          rw [hsame]
          exact h.empty
        · show r.rpdu.buf ≠ none → (s.blockFor first : Int) = r.rpdu.sz + 4
          rw [hsame, blockFor, hstarted]
          exact h.block
      · obtain ⟨hbounded, hbuf, hblock⟩ := h.readInto hlong hp
        rcases readRest_bounded hbounded hbuf hrest with hempty | ⟨hbounded', hsz, hbuf'⟩
        · have hnone : r.rpdu.buf = none := by rw [hempty]; rfl
          exact ⟨⟨fun hne => absurd hnone hne, hall⟩, fun _ => hempty, fun hne => absurd hnone hne⟩
        · refine ⟨⟨fun _ => hbounded', hall⟩, fun hnone => absurd hnone hbuf', fun _ => ?_⟩
          show (s.blockFor first : Int) = r.rpdu.sz + 4
          rw [hsz, hblock]
    · cases hs

/-- A length below 4 makes the second `read` ask for a negative number of bytes. -/
theorem not_inside_of_short {s t : Incoming} {a : IncomingAction} (hlong : ¬ s.LongEnough a)
    (hs : s.step a = some t) : ¬ t.Inside := by
  cases a with
  | closeconn => exact absurd trivial hlong
  | readCb first second accept =>
    simp only [LongEnough, not_forall] at hlong
    obtain ⟨p, hp, hshort⟩ := hlong
    have hp : s.receiver.started first = some p := hp
    obtain ⟨hreads, hsz, hsolong, -⟩ := started_some hp
    have hinto : s.receiver.readInto first = some p := by
      rw [Receiver.readInto, if_neg (fun hr => hr.2 hsz), hp]
    simp only [Incoming.step] at hs
    split at hs
    · obtain ⟨r, -, ht⟩ := Option.map_eq_some_iff.mp hs
      cases ht
      intro hinside
      have hmem : ⟨p.sz, p.solong, p.request, s.blockFor first⟩ ∈ s.reads ++ s.restRead first := by
        refine List.mem_append_right _ ?_
        rw [restRead, hinto]
        exact List.mem_singleton_self _
      have hneg := (hinside.reads _ hmem).2.1
      simp only at hneg
      omega
    · cases hs

/-- For every sequence of results of the reads, over any number of calls of `read_cb`: the reader
stays inside its buffer if and only if every length that it takes is at least 4. -/
theorem inside_iff_longEnough (as : List IncomingAction) :
    system.AlongRun Inside start as ↔ system.StepsMeet LongEnough start as :=
  System.alongRun_iff_stepsMeet (fun _ hinv => hinv.inside)
    (fun _ _ _ hinv hok hs => hinv.step hok hs)
    (fun _ _ _ _ hshort hs => not_inside_of_short hshort hs) inv_start

/-- The length -1: four bytes are copied to a block of three, and the second `read` asks for
`2^64 - 5` bytes behind them. -/
def minusOne : List IncomingAction := [.readCb (.data [255, 255, 255, 255]) (.data [1, 2]) true]

theorem minusOne_not_inside :
    (∃ s, system.run start minusOne = some s ∧ s.block = 3 ∧
      s.receiver.rpdu = ⟨some [255, 255, 255, 255, 1, 2], -1, 6⟩ ∧
      s.reads = [⟨-1, 4, 18446744073709551611, 3⟩]) ∧
    ¬ system.AlongRun Inside start minusOne := by
  refine ⟨⟨_, rfl, by decide +kernel, by decide +kernel, by decide +kernel⟩, fun h => ?_⟩
  have hinside : Inside (system.final start minusOne) := h.final (by decide +kernel)
  exact absurd (hinside.bounded (by decide +kernel)).2.1 (by decide +kernel)

end Incoming
end Rpc
end Frangipani
