/-
PDUs over a stream of bytes.

The bytes on the stream are those of the PDUs that `send` took, in order, each with its
length in the first four bytes, up to a point inside the last one.  The receiver is
always at the start of a PDU or inside the next one, so what it hands on are those PDUs
from the first on.  A write or a read that fails in the middle of a PDU ends the
connection on its side, and nothing is written or handed on after that.
-/
import Frangipani.Data.Frames
import Frangipani.Rpc.Connection

namespace Frangipani
namespace Rpc

open Data Transition

/-! ## The bytes of a PDU -/

theorem length_htonl (x : Int32) : (htonl x).length = 4 := rfl

theorem length_stamp (sz : Int) {b : List UInt8} (h : 4 ≤ b.length) :
    (stamp sz b).length = b.length := by
  rw [stamp, List.length_append, length_htonl, List.length_drop]
  omega

theorem stamp_stamp (sz : Int) (b : List UInt8) : stamp sz (stamp sz b) = stamp sz b := by
  have hdrop : (stamp sz b).drop 4 = b.drop 4 := List.drop_left' (length_htonl _)
  rw [stamp, hdrop, stamp]

namespace Pdu

/-- The bytes that stand for the PDU on the stream. -/
def frame (b : Pdu) : List UInt8 := stamp b.bytes.length b.bytes

theorem length_frame (b : Pdu) : b.frame.length = b.bytes.length :=
  length_stamp _ (Nat.le_trans (by decide : 4 ≤ rpcHeaderSz) b.header)

theorem stamp_frame (b : Pdu) : stamp b.frame.length b.frame = b.frame := by
  rw [b.length_frame]
  exact stamp_stamp _ _

theorem ntohl_frame (b : Pdu) : (ntohl (b.frame.take 4)).toInt = b.frame.length := by
  have hlt : b.bytes.length < 2 ^ 31 := b.int
  have htake : b.frame.take 4 = htonl (.ofInt b.bytes.length) :=
    List.take_left' (length_htonl _)
  rw [htake, ntohl_htonl, b.length_frame]
  exact Int32.toInt_ofInt_of_le (by omega) (by omega)

end Pdu

/-! ## The sending end -/

/-- `p` is the buffer of `b` with `out` of it written. -/
structure Partly (p : CharBuf) (b : Pdu) (out : List UInt8) : Prop where
  sz : p.sz = b.frame.length
  low : 0 ≤ p.solong
  high : p.solong ≤ p.sz
  out : out = b.frame.take p.solong.toNat
  buf : ∃ bytes, p.buf = some bytes ∧ stamp p.sz bytes = b.frame ∧
    (0 < p.solong → bytes = b.frame)

theorem Partly.start (b : Pdu) :
    Partly { buf := some b.bytes, sz := b.bytes.length, solong := 0 } b [] where
  sz := by rw [b.length_frame]
  low := Int.le_refl 0
  high := Int.natCast_nonneg _
  out := rfl
  buf := ⟨b.bytes, rfl, rfl, fun h => absurd h (Int.lt_irrefl 0)⟩

theorem Partly.nonneg {p : CharBuf} {b : Pdu} {out : List UInt8} (h : Partly p b out) :
    ¬ p.solong < 0 := Int.not_lt.mpr h.low

theorem Partly.stamped {p : CharBuf} {b : Pdu} {out : List UInt8} (h : Partly p b out) :
    (if p.solong = 0 then { p with buf := p.buf.map (stamp p.sz) } else p) =
      { p with buf := some b.frame } := by
  obtain ⟨bytes, hbuf, hstamp, hwhole⟩ := h.buf
  split
  · rw [hbuf, Option.map_some, hstamp]
  · rename_i hne
    have hlow := h.low
    rw [← hwhole (by omega), ← hbuf]

theorem Partly.buf_ne_none {p : CharBuf} {b : Pdu} {out : List UInt8} (h : Partly p b out) :
    p.buf ≠ none := by
  obtain ⟨bytes, hbuf, -⟩ := h.buf
  rw [hbuf]
  exact Option.some_ne_none bytes

theorem Partly.prefix {p : CharBuf} {b : Pdu} {out : List UInt8} (h : Partly p b out) :
    out <+: b.frame := by
  rw [h.out]
  exact List.take_prefix _ _

theorem Partly.whole {p : CharBuf} {b : Pdu} {out : List UInt8} (h : Partly p b out)
    (hdone : p.solong = p.sz) : out = b.frame := by
  rw [h.out, hdone, h.sz, Int.toNat_natCast, List.take_length]

theorem Partly.writepdu {p p' : CharBuf} {b : Pdu} {out bs : List UInt8} {ok : Bool}
    {r : WriteResult} (h : Partly p b out) (hw : Rpc.writepdu p r = some (p', bs, ok)) :
    ok = true ∧ Partly p' b (out ++ bs) ∨ ok = false ∧ bs = [] ∧ p'.buf ≠ none := by
  have hlow := h.low
  have hhigh := h.high
  have hsz := h.sz
  have hstamp : stamp p.sz b.frame = b.frame := by rw [hsz, b.stamp_frame]
  unfold Rpc.writepdu at hw
  rw [if_neg h.nonneg] at hw
  split at hw
  · cases hw
    rw [List.append_nil]
    exact .inl ⟨rfl, h⟩
  · rw [h.stamped] at hw
    cases r with
    | wrote n =>
      simp only at hw
      split at hw
      · rename_i hn
        cases hw
        refine .inl ⟨rfl, h.sz, ?_, ?_, ?_, b.frame, rfl, hstamp, fun _ => rfl⟩
        · show 0 ≤ p.solong + n
          omega
        · show p.solong + n ≤ p.sz
          omega
        · show out ++ (b.frame.drop p.solong.toNat).take n = b.frame.take (p.solong + n).toNat
          rw [h.out, show (p.solong + n).toNat = p.solong.toNat + n by omega, List.take_add]
      · cases hw
    | eagain =>
      cases hw
      rw [List.append_nil]
      exact .inl ⟨rfl, h.sz, h.low, h.high, h.out, b.frame, rfl, hstamp, fun _ => rfl⟩
    | failed =>
      cases hw
      exact .inr ⟨rfl, rfl, Option.some_ne_none b.frame⟩

namespace Sender

variable {Thr : Type}

/-- What stands for the PDUs that have been taken. -/
def frames (s : Sender Thr) : List (List UInt8) := s.taken.map Pdu.frame

structure Inv (s : Sender Thr) : Prop where
  written : s.stream <+: s.frames.flatten
  unset : s.wpdu.buf = none → s.wpdu.sz = 0
  idle : s.dead = false → s.wpdu.buf = none → s.stream = s.frames.flatten
  writing : s.dead = false → s.wpdu.buf ≠ none → ∃ done b out,
    s.taken = done ++ [b] ∧ Partly s.wpdu b out ∧
      s.stream = (done.map Pdu.frame).flatten ++ out
  sending : ∀ t k, s.pc t = .sending k → s.wpdu.buf ≠ none ∧ k + 1 = s.taken.length
  one : ∀ t u k l, s.pc t = .sending k → s.pc u = .sending l → t = u
  returned : ∀ t i, (t, i, true) ∈ s.returns → ∃ k, i = some k ∧ k < s.taken.length ∧
    (s.frames.take (k + 1)).flatten <+: s.stream

theorem inv_new : (new : Sender Thr).Inv where
  written := List.nil_prefix
  unset _ := rfl
  idle _ _ := rfl
  writing _ h := absurd rfl h
  sending _ _ h := by cases h
  one _ _ _ _ h := by cases h
  returned _ _ h := by cases h

/-- The bytes of the PDUs before the last one and of a part of that. -/
theorem prefix_frames {done : List Pdu} {b : Pdu} {out : List UInt8} (h : out <+: b.frame) :
    (done.map Pdu.frame).flatten ++ out <+: ((done ++ [b]).map Pdu.frame).flatten := by
  rw [List.map_append, List.flatten_append, List.map_singleton, List.flatten_singleton]
  exact (List.prefix_append_right_inj _).mpr h

theorem returned_mono {s : Sender Thr} (h : s.Inv) (s' : Sender Thr) {more : List Pdu}
    (htaken : s'.taken = s.taken ++ more) (hstream : s.stream <+: s'.stream) {t : Thr}
    {i : Option Nat} (hmem : (t, i, true) ∈ s.returns) :
    ∃ k, i = some k ∧ k < s'.taken.length ∧ (s'.frames.take (k + 1)).flatten <+: s'.stream := by
  obtain ⟨k, hi, hk, hpre⟩ := h.returned t i hmem
  refine ⟨k, hi, ?_, ?_⟩
  · rw [htaken, List.length_append]
    omega
  · have hlen : k + 1 ≤ s.frames.length := by
      rw [frames, List.length_map]
      omega
    have hframes : s'.frames = s.frames ++ more.map Pdu.frame := by
      rw [frames, htaken, List.map_append, frames]
    rw [hframes, List.take_append_of_le_length hlen]
    exact hpre.trans hstream

theorem Inv.whole {s : Sender Thr} (h : s.Inv) (hdead : s.dead = false)
    (hdone : s.wpdu.solong = s.wpdu.sz) : s.stream = s.frames.flatten := by
  by_cases hbuf : s.wpdu.buf = none
  · exact h.idle hdead hbuf
  · obtain ⟨done, b, out, htaken, hpartly, hstream⟩ := h.writing hdead hbuf
    rw [hstream, hpartly.whole hdone, frames, htaken, List.map_append, List.flatten_append,
      List.map_singleton, List.flatten_singleton]

theorem Inv.writeCb {s : Sender Thr} {r : WriteResult} {p : CharBuf} {bs : List UInt8} {ok : Bool}
    (h : s.Inv) (hdead : s.dead = false) (hsz : s.wpdu.sz ≠ 0)
    (hw : writepdu s.wpdu r = some (p, bs, ok)) :
    Inv { s with wpdu := p, stream := s.stream ++ bs, dead := !ok } := by
  obtain ⟨done, b, out, htaken, hpartly, hstream⟩ := h.writing hdead fun hno => hsz (h.unset hno)
  have hreturned : ∀ u i, (u, i, true) ∈ s.returns → ∃ k, i = some k ∧ k < s.taken.length ∧
      (s.frames.take (k + 1)).flatten <+: s.stream ++ bs :=
    fun u i hmem => returned_mono h { s with stream := s.stream ++ bs } (List.append_nil _).symm
      (List.prefix_append _ _) hmem
  rcases hpartly.writepdu hw with ⟨rfl, hpartly⟩ | ⟨rfl, rfl, hset⟩
  · have hwritten : s.stream ++ bs <+: s.frames.flatten := by
      rw [hstream, List.append_assoc, frames, htaken]
      exact prefix_frames hpartly.prefix
    refine ⟨hwritten, fun hno => absurd hno hpartly.buf_ne_none,
      fun _ hno => absurd hno hpartly.buf_ne_none,
      fun _ _ => ⟨done, b, out ++ bs, htaken, hpartly, ?_⟩,
      fun u l hu => ⟨hpartly.buf_ne_none, (h.sending u l hu).2⟩, h.one, hreturned⟩
    show s.stream ++ bs = _
    rw [hstream, List.append_assoc]
  · rw [List.append_nil] at hreturned ⊢
    exact ⟨h.written, fun hno => absurd hno hset, nofun, nofun,
      fun u l hu => ⟨hset, (h.sending u l hu).2⟩, h.one, hreturned⟩

variable [DecidableEq Thr]

/-- The end of `send`, for the only thread that has put a PDU in place. -/
theorem inv_finish {s : Sender Thr} {t : Thr} {k : Nat} (hwritten : s.stream <+: s.frames.flatten)
    (hwhole : s.dead = false → s.stream = s.frames.flatten)
    (hk : k + 1 = s.taken.length) (hothers : ∀ u l, u ≠ t → s.pc u ≠ .sending l)
    (hreturned : ∀ u i, (u, i, true) ∈ s.returns → ∃ k, i = some k ∧ k < s.taken.length ∧
      (s.frames.take (k + 1)).flatten <+: s.stream) : (s.finish t k).Inv := by
  have hnone : ∀ u l, (s.finish t k).pc u ≠ .sending l := by
    intro u l
    by_cases hu : u = t
    · rw [hu, finish]
      simp
    · rw [finish]
      simpa [hu] using hothers u l hu
  refine ⟨hwritten, fun _ => rfl, fun hdead _ => hwhole hdead, fun _ h => absurd rfl h,
    fun u l hu => absurd hu (hnone u l), fun u _ l _ hu => absurd hu (hnone u l),
    fun u i hmem => ?_⟩
  rcases List.mem_cons.mp hmem with heq | hmem
  · -- The value is true only when the connection lives, and then all has been written.
    simp only [Prod.mk.injEq, Bool.true_eq, Bool.and_eq_true, Bool.not_eq_true'] at heq
    obtain ⟨-, rfl, hdead, -⟩ := heq
    refine ⟨k, rfl, Nat.lt_of_succ_le (Nat.le_of_eq hk), ?_⟩
    have hlen : s.frames.length ≤ k + 1 := by
      rw [frames, List.length_map]
      omega
    show (s.frames.take (k + 1)).flatten <+: s.stream
    rw [List.take_of_length_le hlen, hwhole hdead]
  · exact hreturned u i hmem

theorem Inv.transmit {s s' : Sender Thr} {t : Thr} {b : Pdu} {r : WriteResult} (h : s.Inv)
    (hdead : s.dead = false) (hbuf : s.wpdu.buf = none) (hs : s.transmit t b r = some s') :
    s'.Inv := by
  have hstream := h.idle hdead hbuf
  have hothers : ∀ u l, s.pc u ≠ .sending l := fun u l hu => (h.sending u l hu).1 hbuf
  unfold Sender.transmit at hs
  split at hs
  · cases hs
  · rename_i p bs ok hw
    simp only at hs
    have hpartly := (Partly.start b).writepdu hw
    rw [List.nil_append] at hpartly
    have hpre : bs <+: b.frame := by
      rcases hpartly with ⟨-, hpartly⟩ | ⟨-, rfl, -⟩
      · exact hpartly.prefix
      · exact List.nil_prefix
    have hwritten : s.stream ++ bs <+: ((s.taken ++ [b]).map Pdu.frame).flatten := by
      rw [hstream]
      exact prefix_frames hpre
    have hreturned : ∀ u i, (u, i, true) ∈ s.returns → ∃ k, i = some k ∧
        k < (s.taken ++ [b]).length ∧
        (((s.taken ++ [b]).map Pdu.frame).take (k + 1)).flatten <+: s.stream ++ bs :=
      fun u i hmem => returned_mono h
        { s with stream := s.stream ++ bs, taken := s.taken ++ [b] } rfl
        (List.prefix_append _ _) hmem
    split at hs
    · rename_i hdone
      obtain ⟨hok, hfull⟩ := hdone
      cases hs
      obtain ⟨-, hpartly⟩ | ⟨hno, -⟩ := hpartly
      · refine inv_finish hwritten (fun _ => ?_) (by simp) (fun u l _ => hothers u l) hreturned
        show s.stream ++ bs = ((s.taken ++ [b]).map Pdu.frame).flatten
        rw [hstream, hpartly.whole hfull, frames]
        simp
      · rw [hno] at hok
        cases hok
    · cases hs
      have hset : p.buf ≠ none := by
        rcases hpartly with ⟨-, hpartly⟩ | ⟨-, -, hset⟩
        · exact hpartly.buf_ne_none
        · exact hset
      have hpcs : ∀ {u l}, Function.update s.pc t (.sending s.taken.length) u = .sending l →
          u = t ∧ l = s.taken.length := by
        intro u l hu
        by_cases hut : u = t
        · rw [hut, Function.update_self] at hu
          cases hu
          exact ⟨hut, rfl⟩
        · rw [Function.update_of_ne hut] at hu
          exact absurd hu (hothers u l)
      refine ⟨hwritten, fun hno => absurd hno hset, fun _ hno => absurd hno hset,
        fun hlive _ => ?_, fun u l hu => ⟨hset, ?_⟩,
        fun u v k l hu hv => (hpcs hu).1.trans (hpcs hv).1.symm, hreturned⟩
      · rcases hpartly with ⟨-, hpartly⟩ | ⟨rfl, -⟩
        · exact ⟨s.taken, b, bs, rfl, hpartly, by rw [hstream]; rfl⟩
        · simp at hlive
      · rw [(hpcs hu).2]
        simp

/-- A thread that waits, or that leaves without a PDU, is not sending. -/
theorem Inv.setPc {s : Sender Thr} {t : Thr} {pc : SendPc} (h : s.Inv) (hpc : ∀ k, pc ≠ .sending k)
    {returns : List (Thr × Option Nat × Bool)}
    (hreturns : ∀ u i, (u, i, true) ∈ returns → (u, i, true) ∈ s.returns) :
    Inv { s with pc := Function.update s.pc t pc, returns } := by
  have hpcs : ∀ {u l}, Function.update s.pc t pc u = .sending l → s.pc u = .sending l := by
    intro u l hu
    by_cases hut : u = t
    · rw [hut, Function.update_self] at hu
      exact absurd hu (hpc l)
    · rwa [Function.update_of_ne hut] at hu
  exact ⟨h.written, h.unset, h.idle, h.writing, fun u l hu => h.sending u l (hpcs hu),
    fun u v k l hu hv => h.one u v k l (hpcs hu) (hpcs hv),
    fun u i hmem => h.returned u i (hreturns u i hmem)⟩

theorem Inv.enter {s s' : Sender Thr} {t : Thr} {b : Pdu} {r : WriteResult} (h : s.Inv)
    (hs : s.enter t b r = some s') : s'.Inv := by
  unfold Sender.enter at hs
  split at hs
  · cases hs
    exact h.setPc (fun _ hno => by cases hno) fun u i hmem =>
      (List.mem_cons.mp hmem).resolve_left nofun
  · rename_i hdead
    split at hs
    · cases hs
      exact h.setPc (fun _ hno => by cases hno) fun _ _ hmem => hmem
    · rename_i hbuf
      exact h.transmit (Bool.eq_false_iff.mpr hdead) (Option.not_isSome_iff_eq_none.mp hbuf) hs

theorem Inv.complete {s : Sender Thr} {t : Thr} {k : Nat} (h : s.Inv) (hpc : s.pc t = .sending k)
    (hdone : ¬ (s.dead = false ∧ 0 ≤ s.wpdu.solong ∧ s.wpdu.solong < s.wpdu.sz)) :
    (s.finish t k).Inv := by
  obtain ⟨hbuf, hk⟩ := h.sending t k hpc
  refine inv_finish h.written (fun hdead => h.whole hdead ?_) hk
    (fun u l hu hsending => hu (h.one u t l k hsending hpc)) h.returned
  obtain ⟨-, b, out, -, hpartly, -⟩ := h.writing hdead hbuf
  have hlow := hpartly.low
  have hhigh := hpartly.high
  have hnot : ¬ s.wpdu.solong < s.wpdu.sz := fun hlt => hdone ⟨hdead, hlow, hlt⟩
  omega

theorem Inv.step {s s' : Sender Thr} {a : SendAction Thr} (h : s.Inv) (hs : s.step a = some s') :
    s'.Inv := by
  cases a with
  | send t b r =>
    simp only [Sender.step] at hs
    split at hs
    · exact h.enter hs
    · cases hs
  | wake t r =>
    simp only [Sender.step] at hs
    split at hs
    · exact h.enter hs
    · cases hs
  | complete t =>
    simp only [Sender.step] at hs
    split at hs
    · rename_i k hpc
      split at hs
      · cases hs
      · rename_i hdone
        cases hs
        exact h.complete hpc hdone
    · cases hs
  | writeCb r =>
    simp only [Sender.step] at hs
    split at hs
    · cases hs
    · rename_i hdead
      split at hs
      · cases hs
        exact h
      · rename_i hsz
        split at hs
        · cases hs
        · rename_i hw
          cases hs
          exact h.writeCb (Bool.eq_false_iff.mpr hdead) hsz hw
  | die =>
    cases hs
    exact ⟨h.written, h.unset, nofun, nofun, h.sending, h.one, h.returned⟩

theorem frames_taken (taken : List Pdu) (b : Pdu) :
    taken.map Pdu.frame <+: (taken ++ [b]).map Pdu.frame := by
  rw [List.map_append]
  exact List.prefix_append _ _

theorem enter_extends {s s' : Sender Thr} {t : Thr} {b : Pdu} {r : WriteResult}
    (hs : s.enter t b r = some s') : s.stream <+: s'.stream ∧ s.frames <+: s'.frames := by
  simp only [enter, transmit] at hs
  split at hs
  · cases hs
    exact ⟨List.prefix_refl _, List.prefix_refl _⟩
  · split at hs
    · cases hs
      exact ⟨List.prefix_refl _, List.prefix_refl _⟩
    · split at hs
      · cases hs
      · split at hs
        · cases hs
          exact ⟨List.prefix_append _ _, frames_taken s.taken b⟩
        · cases hs
          exact ⟨List.prefix_append _ _, frames_taken s.taken b⟩

theorem step_extends {s s' : Sender Thr} {a : SendAction Thr} (hs : s.step a = some s') :
    s.stream <+: s'.stream ∧ s.frames <+: s'.frames := by
  cases a with
  | send t b r =>
    simp only [Sender.step] at hs
    split at hs
    · exact enter_extends hs
    · cases hs
  | wake t r =>
    simp only [Sender.step] at hs
    split at hs
    · exact enter_extends hs
    · cases hs
  | complete t =>
    simp only [Sender.step] at hs
    split at hs
    · split at hs
      · cases hs
      · cases hs
        exact ⟨List.prefix_refl _, List.prefix_refl _⟩
    · cases hs
  | writeCb r =>
    simp only [Sender.step] at hs
    split at hs
    · cases hs
    · split at hs
      · cases hs
        exact ⟨List.prefix_refl _, List.prefix_refl _⟩
      · split at hs
        · cases hs
        · cases hs
          exact ⟨List.prefix_append _ _, List.prefix_refl _⟩
  | die =>
    cases hs
    exact ⟨List.prefix_refl _, List.prefix_refl _⟩

end Sender

/-! ## The receiving end -/

/-- Every frame has more than its length in it, and starts with that. -/
def Framed (fs : List (List UInt8)) : Prop :=
  ∀ f ∈ fs, 4 ≤ f.length ∧ f.length ≠ 0 ∧ (ntohl (f.take 4)).toInt = f.length

/-- The buffer is empty between two frames, or holds the start of the next one. -/
inductive Aligned (next : Option (List UInt8)) : CharBuf → Prop
  | between : Aligned next .empty
  | inside {b f : List UInt8} (begun : next = some f) (low : 4 ≤ b.length)
      (high : b.length ≤ f.length) :
      Aligned next { buf := some b, sz := f.length, solong := b.length }

theorem Aligned.mono {next next' : Option (List UInt8)} {p : CharBuf} (h : Aligned next p)
    (hnext : ∀ f, next = some f → next' = some f) : Aligned next' p := by
  cases h with
  | between => exact .between
  | inside hbegun hlow hhigh => exact .inside (hnext _ hbegun) hlow hhigh

theorem Aligned.buf_eq_none {fs : List (List UInt8)} {n : Nat} {p : CharBuf}
    (h : Aligned fs[n]? p) (hfs : Framed fs) (hzero : p.sz = 0) : p.buf = none := by
  cases h with
  | between => rfl
  | inside hbegun =>
    have hne := (hfs _ (List.mem_of_getElem? hbegun)).2.1
    simp only at hzero
    omega

theorem Aligned.buf_ne_none {next : Option (List UInt8)} {p : CharBuf} (h : Aligned next p)
    (hne : p.sz ≠ 0) : p.buf ≠ none := by
  cases h with
  | between => exact absurd rfl hne
  | inside => exact Option.some_ne_none _

theorem Aligned.complete {next : Option (List UInt8)} {p : CharBuf} {b : List UInt8}
    (h : Aligned next p) (hbuf : p.buf = some b) (hdone : p.sz = p.solong) :
    ∃ f, next = some f ∧ b.length = f.length := by
  cases h with
  | between => cases hbuf
  | inside hbegun =>
    cases hbuf
    simp only at hdone
    exact ⟨_, hbegun, by omega⟩

/-- The stream up to where it has been read, and what has been read. -/
theorem take_add_of_next {stream bs : List UInt8} {n : Nat} (h : bs <+: stream.drop n) :
    stream.take (n + bs.length) = stream.take n ++ bs := by
  rw [List.take_add, ← List.prefix_iff_eq_take.mp h]

theorem readRest_eq {p p' : CharBuf} {r : ReadResult} {bs : List UInt8}
    (h : readRest p r = some (p', bs, true)) :
    bs.length ≤ p.request ∧
      p' = { p with buf := p.buf.map (· ++ bs), solong := p.solong + bs.length } := by
  have hsame : p = { p with
      buf := p.buf.map (· ++ []), solong := p.solong + ([] : List UInt8).length } := by
    simp
  cases r with
  | data ds =>
    simp only [readRest] at h
    split at h
    · cases h
    · rename_i hlen
      cases h
      exact ⟨Nat.not_lt.mp (not_or.mp hlen).2, rfl⟩
  | eof errno =>
    cases errno with
    | eagain =>
      cases h
      exact ⟨Nat.zero_le _, hsame⟩
    | other => cases h
  | failed errno =>
    cases errno with
    | eagain =>
      cases h
      exact ⟨Nat.zero_le _, hsame⟩
    | other => cases h

theorem Aligned.readRest {next : Option (List UInt8)} {p p' : CharBuf} {r : ReadResult}
    {bs : List UInt8} (h : Aligned next p) (hset : p.buf ≠ none)
    (hr : Rpc.readRest p r = some (p', bs, true)) :
    Aligned next p' ∧ p'.buf.getD [] = p.buf.getD [] ++ bs := by
  obtain ⟨hlen, rfl⟩ := readRest_eq hr
  cases h with
  | between => exact absurd rfl hset
  | @inside b f hbegun hlow hhigh =>
    have hle : b.length + bs.length ≤ f.length := by
      simp only [CharBuf.request] at hlen
      omega
    have hinside : Aligned next
        { buf := some (b ++ bs), sz := f.length, solong := (b ++ bs).length } :=
      .inside hbegun (by rw [List.length_append]; omega) (by rw [List.length_append]; omega)
    rw [List.length_append, Int.natCast_add] at hinside
    exact ⟨hinside, rfl⟩

theorem readLength_eq {p : CharBuf} {r : ReadResult} {bs : List UInt8}
    (h : readLength r = some (some p, bs)) :
    bs.length = 4 ∧ p = { buf := some bs, sz := (ntohl bs).toInt, solong := bs.length } := by
  cases r with
  | data ds =>
    simp only [readLength] at h
    split at h
    · cases h
    · split at h
      · cases h
      · rename_i hlen
        split at h
        · cases h
        · cases h
          have hfour : bs.length = 4 := not_not.mp hlen
          exact ⟨hfour, by rw [hfour]; rfl⟩
  | eof errno => cases h
  | failed errno => cases errno <;> cases h

namespace Receiver

structure Inv (r : Receiver) (stream : List UInt8) (fs : List (List UInt8)) : Prop where
  accepted : r.accepted <+: fs
  consumed : r.dead = false → r.consumed ≤ stream.length
  bytes : r.dead = false → stream.take r.consumed = r.accepted.flatten ++ r.rpdu.buf.getD []
  aligned : r.dead = false → Aligned fs[r.accepted.length]? r.rpdu

theorem inv_new : new.Inv [] [] where
  accepted := List.prefix_refl _
  consumed _ := Nat.le_refl _
  bytes _ := rfl
  aligned _ := .between

variable {r : Receiver} {stream : List UInt8} {fs : List (List UInt8)}

theorem Inv.extends {stream' : List UInt8} {fs' : List (List UInt8)} (h : r.Inv stream fs)
    (hstream : stream <+: stream') (hfs : fs <+: fs') : r.Inv stream' fs' := by
  refine ⟨h.accepted.trans hfs, fun hd => Nat.le_trans (h.consumed hd) hstream.length_le,
    fun hd => ?_, fun hd => ?_⟩
  · obtain ⟨more, rfl⟩ := hstream
    rw [List.take_append_of_le_length (h.consumed hd)]
    exact h.bytes hd
  · obtain ⟨more, rfl⟩ := hfs
    refine (h.aligned hd).mono fun f hf => ?_
    have hlt : r.accepted.length < fs.length := (List.getElem?_eq_some_iff.mp hf).1
    rw [List.getElem?_append_left hlt, hf]

theorem Inv.prefix_next (h : r.Inv stream fs) (hs : stream <+: fs.flatten) (hdead : r.dead = false)
    {bs : List UInt8} (hbs : bs <+: stream.drop r.consumed) :
    (fs.take r.accepted.length).flatten ++ (r.rpdu.buf.getD [] ++ bs) <+: fs.flatten := by
  have htake : (fs.take r.accepted.length).flatten ++ (r.rpdu.buf.getD [] ++ bs) =
      stream.take (r.consumed + bs.length) := by
    rw [take_add_of_next hbs, h.bytes hdead, List.append_assoc,
      ← List.prefix_iff_eq_take.mp h.accepted]
  rw [htake]
  exact (List.take_prefix _ _).trans hs

/-- The first read is at the start of a frame, so its bytes are the length of that. -/
theorem Inv.readLength (h : r.Inv stream fs) (hfs : Framed fs) (hs : stream <+: fs.flatten)
    (hdead : r.dead = false) (hbuf : r.rpdu.buf = none) {bs : List UInt8} {p : CharBuf}
    {first : ReadResult} (hr : Rpc.readLength first = some (some p, bs))
    (hbs : bs <+: stream.drop r.consumed) :
    Aligned fs[r.accepted.length]? p ∧ p.buf = some bs := by
  obtain ⟨hlen, rfl⟩ := readLength_eq hr
  have hpre := h.prefix_next hs hdead hbs
  rw [hbuf, Option.getD_none, List.nil_append] at hpre
  have hne : bs ≠ [] := by
    rintro rfl
    cases hlen
  obtain ⟨f, hf⟩ := exists_next_frame hpre hne
  obtain ⟨hfour, -, hlength⟩ := hfs f (List.mem_of_getElem? hf)
  have hbf := prefix_next_frame hpre hf (by omega)
  have hbytes : bs = f.take 4 := by rw [← hlen, ← List.prefix_iff_eq_take.mp hbf]
  rw [← hbytes] at hlength
  rw [hlength]
  exact ⟨.inside hf (by omega) (by omega), rfl⟩

/-- What `readpdu` adds to the buffer are the bytes that it has read. -/
theorem Inv.fill (h : r.Inv stream fs) (hfs : Framed fs) (hs : stream <+: fs.flatten)
    (hdead : r.dead = false) {first second : ReadResult} {p : CharBuf} {bs : List UInt8}
    (hr : r.fill first second = some (p, bs, true)) (hbs : bs <+: stream.drop r.consumed) :
    Aligned fs[r.accepted.length]? p ∧ p.buf.getD [] = r.rpdu.buf.getD [] ++ bs := by
  have haligned := h.aligned hdead
  unfold Receiver.fill at hr
  split at hr
  · unfold readpdu at hr
    split at hr
    · rename_i hzero
      have hbuf := haligned.buf_eq_none hfs hzero
      split at hr
      · cases hr
      · cases hr
      · rename_i q ds hfirst
        obtain ⟨⟨q', ds', ok⟩, hrest, heq⟩ := Option.map_eq_some_iff.mp hr
        cases heq
        obtain ⟨hq, hqbuf⟩ := h.readLength hfs hs hdead hbuf hfirst
          ((List.prefix_append ds ds').trans hbs)
        obtain ⟨hq', hbytes⟩ := hq.readRest (by rw [hqbuf]; exact Option.some_ne_none ds) hrest
        refine ⟨hq', ?_⟩
        rw [hbytes, hqbuf, hbuf]
        rfl
    · rename_i hnonzero
      exact haligned.readRest (haligned.buf_ne_none hnonzero) hr
  · cases hr
    exact ⟨haligned, (List.append_nil _).symm⟩

theorem Inv.fill_failed (h : r.Inv stream fs) (hfs : Framed fs) (hdead : r.dead = false)
    {first second : ReadResult} {p : CharBuf} {bs : List UInt8}
    (hr : r.fill first second = some (p, bs, false)) : p.buf = none := by
  have hrest : ∀ {q q' : CharBuf} {ds}, readRest q second = some (q', ds, false) →
      q'.buf = none := by
    intro q q' ds hq
    unfold readRest at hq
    split at hq
    · split at hq <;> cases hq
    · cases hq
    · cases hq
    · cases hq
      rfl
    · cases hq
      rfl
  unfold Receiver.fill at hr
  split at hr
  · unfold readpdu at hr
    split at hr
    · rename_i hzero
      split at hr
      · cases hr
      · cases hr
        exact (h.aligned hdead).buf_eq_none hfs hzero
      · obtain ⟨⟨q', ds', ok⟩, hq, heq⟩ := Option.map_eq_some_iff.mp hr
        cases heq
        exact hrest hq
    · exact hrest hr
  · cases hr

theorem Inv.deliver (h : r.Inv stream fs) (hs : stream <+: fs.flatten)
    (hlive : r.dead = true → r.rpdu.buf = none) (accept : Bool) :
    (r.deliver accept).Inv stream fs := by
  unfold Receiver.deliver
  split
  · rename_i b hbuf
    have hdead : r.dead = false := by
      by_contra hdead
      rw [hlive (Bool.eq_true_of_not_eq_false hdead)] at hbuf
      cases hbuf
    split
    · rename_i hdone
      obtain ⟨f, hf, hlen⟩ := (h.aligned hdead).complete hbuf hdone.1
      have hpre := h.prefix_next hs hdead List.nil_prefix
      rw [List.append_nil, hbuf, Option.getD_some] at hpre
      have hbf : b = f := (prefix_next_frame hpre hf (Nat.le_of_eq hlen)).eq_of_length hlen
      subst hbf
      have hnext : r.accepted ++ [b] = fs.take (r.accepted.length + 1) := by
        rw [List.take_add_one, hf, ← List.prefix_iff_eq_take.mp h.accepted, Option.toList_some]
      refine ⟨?_, h.consumed, fun _ => ?_, fun _ => .between⟩
      · show r.accepted ++ [b] <+: fs
        rw [hnext]
        exact List.take_prefix _ _
      · show stream.take r.consumed = (r.accepted ++ [b]).flatten ++ []
        rw [h.bytes hdead, hbuf, List.flatten_append, List.flatten_singleton, List.append_nil]
        rfl
    · exact h
  · exact h

theorem Inv.readCb (h : r.Inv stream fs) (hfs : Framed fs) (hs : stream <+: fs.flatten)
    {first second : ReadResult} {accept : Bool} {r' : Receiver} {bs : List UInt8}
    (hr : r.readCb first second accept = some (r', bs)) (hbs : bs <+: stream.drop r.consumed) :
    r'.Inv stream fs := by
  unfold Receiver.readCb at hr
  split at hr
  · cases hr
    exact h
  · rename_i hdead
    have hdead := Bool.eq_false_iff.mpr hdead
    split at hr
    · cases hr
    · rename_i p ds ok hfill
      cases hr
      cases ok with
      | true =>
        obtain ⟨haligned, hbytes⟩ := h.fill hfs hs hdead hfill hbs
        have hconsumed : r.consumed + bs.length ≤ stream.length := by
          have hlen := hbs.length_le
          rw [List.length_drop] at hlen
          have := h.consumed hdead
          omega
        have hread : Inv { r with rpdu := p, dead := !true, consumed := r.consumed + bs.length }
            stream fs := by
          refine ⟨h.accepted, fun _ => hconsumed, fun _ => ?_, fun _ => haligned⟩
          show stream.take (r.consumed + bs.length) = r.accepted.flatten ++ p.buf.getD []
          rw [take_add_of_next hbs, h.bytes hdead, hbytes, List.append_assoc]
        exact hread.deliver hs nofun accept
      | false =>
        have hread : Inv { r with rpdu := p, dead := !false, consumed := r.consumed + bs.length }
            stream fs := ⟨h.accepted, nofun, nofun, nofun⟩
        exact hread.deliver hs (fun _ => h.fill_failed hfs hdead hfill) accept

end Receiver

/-! ## The two ends together -/

namespace Link

variable {Thr : Type}

structure Inv (l : Link Thr) : Prop where
  sender : l.sender.Inv
  receiver : l.receiver.Inv l.sender.stream l.sender.frames

theorem framed_frames (s : Sender Thr) : Framed s.frames := by
  intro f hf
  obtain ⟨b, -, rfl⟩ := List.mem_map.mp hf
  have hheader : rpcHeaderSz ≤ b.frame.length := b.length_frame ▸ b.header
  have hsz : rpcHeaderSz = 24 := rfl
  exact ⟨by omega, by omega, b.ntohl_frame⟩

variable [DecidableEq Thr]

theorem Inv.step {l l' : Link Thr} {a : LinkAction Thr} (h : l.Inv) (hs : l.step a = some l') :
    l'.Inv := by
  cases a with
  | sending a =>
    obtain ⟨s, hstep, rfl⟩ := Option.map_eq_some_iff.mp hs
    obtain ⟨hstream, hframes⟩ := Sender.step_extends hstep
    exact ⟨h.sender.step hstep, h.receiver.extends hstream hframes⟩
  | readCb first second accept =>
    simp only [Link.step] at hs
    split at hs
    · cases hs
    · rename_i r bs hr
      split at hs
      · rename_i hbs
        cases hs
        exact ⟨h.sender, h.receiver.readCb (framed_frames _) h.sender.written hr hbs⟩
      · cases hs
  | closeconn =>
    cases hs
    exact ⟨h.sender, h.receiver.accepted, nofun, nofun, nofun⟩

/-- For any number of threads that send, any results of the writes and the reads, and any answers
of `got_pdu`: the buffers that were accepted are a prefix of the PDUs in the order in which they
were taken, each with its length in the first four bytes; and `send` has returned true only for a
PDU that is on the stream as a whole, after those before it. -/
theorem accepted_in_order {l : Link Thr} (h : system.Reachable l) :
    l.receiver.accepted <+: l.sender.taken.map Pdu.frame ∧
      ∀ t i, (t, i, true) ∈ l.sender.returns → ∃ k, i = some k ∧ k < l.sender.taken.length ∧
        ((l.sender.taken.take (k + 1)).map Pdu.frame).flatten <+: l.sender.stream := by
  have hinv : l.Inv := h.invariant
    (fun _ hl => hl ▸ ⟨Sender.inv_new, Receiver.inv_new⟩) fun _ _ _ hl hs => hl.step hs
  refine ⟨hinv.receiver.accepted, fun t i hmem => ?_⟩
  obtain ⟨k, hi, hk, hpre⟩ := hinv.sender.returned t i hmem
  rw [Sender.frames, ← List.map_take] at hpre
  exact ⟨k, hi, hk, hpre⟩

/-- A PDU of 24 equal bytes. -/
def plain (x : UInt8) : Pdu where
  bytes := List.replicate 24 x
  header := Nat.le_refl 24
  int := by rw [List.length_replicate]; decide

/-- The first PDU is written in two parts while a second thread waits with the next.  The receiver
reads the length, then nothing, then the rest, and `got_pdu` accepts it the second time. -/
def twoThreads : List (LinkAction Nat) :=
  [.sending (.send 0 (plain 1) (.wrote 10)), .sending (.send 1 (plain 2) .eagain),
    .readCb (.data [0, 0, 0, 24]) (.failed .eagain) true, .sending (.writeCb .eagain),
    .sending (.writeCb (.wrote 14)), .sending (.complete 0), .sending (.wake 1 (.wrote 24)),
    .readCb (.eof .other) (.data (List.replicate 20 1)) false,
    .readCb (.eof .other) (.eof .other) true, .readCb (.data [0, 0]) (.eof .other) true]

theorem accepted_in_order_twoThreads :
    ∃ l : Link Nat, system.Reachable l ∧
      l.receiver.accepted = [[0, 0, 0, 24] ++ List.replicate 20 1] ∧ l.receiver.dead = true ∧
      l.sender.returns = [(1, some 1, true), (0, some 0, true)] ∧
      l.receiver.accepted <+: l.sender.taken.map Pdu.frame := by
  have hreach : system.Reachable (system.final { sender := .new, receiver := .new } twoThreads) :=
    System.Reachable.final twoThreads (.init rfl) (by decide +kernel)
  refine ⟨_, hreach, ?_, ?_, ?_, (accepted_in_order hreach).1⟩
  all_goals decide +kernel

end Link

end Rpc
end Frangipani
