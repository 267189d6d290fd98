/-
The life of a stored reply.

`add_reply` stores the buffer of a reply in the list of its client.  The buffer is
given to `free` when the client acknowledges the call, or by `free_reply_window`
when the server goes away.

The history lists what happens to the replies of one client.  Every buffer is freed
exactly once, and no reply is handed out after that, exactly as long as a check
that frees something is one of a new call.  Any other check frees buffers that the
stored list goes on pointing to, and the next acknowledgement, or the final
`free_reply_window`, frees them again.
-/
import Mathlib.Data.List.Count
import Mathlib.Data.List.Nodup
import Frangipani.Rpc.Server
import Frangipani.Transition.System

namespace Frangipani
namespace Rpc

open Transition

inductive ReplyEvent
  | recorded (xid : UInt32) (b : Nat)
  | acked (xidRep : UInt32)
  | freed (b : Nat)
  | done (xid : UInt32) (b : Nat)
  deriving DecidableEq, Repr

namespace ReplyEvent

/-- The buffers that have been recorded. -/
def buffers (history : List ReplyEvent) : List Nat :=
  history.filterMap fun
    | .recorded _ b => some b
    | _ => none

/-- A reply to the call was recorded before an acknowledgement of it. -/
def Retired (xid : UInt32) : List ReplyEvent → Prop
  | [] => False
  | .acked xidRep :: history =>
    (xid ≤ xidRep ∧ ∃ b, .recorded xid b ∈ history) ∨ Retired xid history
  | _ :: history => Retired xid history

/-- Every reply that was handed out had been recorded for its call, and was neither
freed nor acknowledged. -/
def DonesLive : List ReplyEvent → Prop
  | [] => True
  | .done xid b :: history =>
    (.recorded xid b ∈ history ∧ .freed b ∉ history ∧ ¬ Retired xid history) ∧ DonesLive history
  | _ :: history => DonesLive history

theorem Retired.recorded {xid : UInt32} {history : List ReplyEvent} (h : Retired xid history) :
    ∃ b, .recorded xid b ∈ history := by
  induction history with
  | nil => cases h
  | cons e history ih =>
    have hlater : (∃ b, .recorded xid b ∈ history) → ∃ b, .recorded xid b ∈ e :: history :=
      fun ⟨b, hb⟩ => ⟨b, List.mem_cons_of_mem _ hb⟩
    cases e with
    | acked xidRep =>
      rcases h with ⟨-, hb⟩ | h
      · exact hlater hb
      · exact hlater (ih h)
    | recorded _ _ | freed _ | done _ _ => exact hlater (ih h)

theorem retired_freed_append {xid : UInt32} {bs : List Nat} {history : List ReplyEvent} :
    Retired xid (bs.map .freed ++ history) ↔ Retired xid history := by
  induction bs with
  | nil => exact Iff.rfl
  | cons b bs ih => exact ih

theorem donesLive_freed_append {bs : List Nat} {history : List ReplyEvent} :
    DonesLive (bs.map .freed ++ history) ↔ DonesLive history := by
  induction bs with
  | nil => exact Iff.rfl
  | cons b bs ih => exact ih

theorem mem_freed_append {bs : List Nat} {history : List ReplyEvent} {b : Nat} :
    .freed b ∈ bs.map .freed ++ history ↔ b ∈ bs ∨ .freed b ∈ history := by
  simp

theorem recorded_mem_checked {bs : List Nat} {history : List ReplyEvent} {xid xidRep : UInt32}
    {b : Nat} :
    .recorded xid b ∈ bs.map .freed ++ .acked xidRep :: history ↔ .recorded xid b ∈ history := by
  simp

theorem freed_mem_checked {bs : List Nat} {history : List ReplyEvent} {xidRep : UInt32} {b : Nat} :
    .freed b ∈ bs.map .freed ++ .acked xidRep :: history ↔ b ∈ bs ∨ .freed b ∈ history := by
  simp

theorem count_freed_append (bs : List Nat) (history : List ReplyEvent) (b : Nat) :
    (bs.map ReplyEvent.freed ++ history).count (.freed b) =
      bs.count b + history.count (.freed b) := by
  have hinj : Function.Injective ReplyEvent.freed := fun _ _ h => ReplyEvent.freed.inj h
  rw [List.count_append, List.count_map_of_injective bs _ hinj]

end ReplyEvent

open ReplyEvent

/-- The list of one client, the calls that were new and have no reply yet, and what
has happened so far, newest first. -/
structure Ledger where
  repList : List ReplyT
  due : List UInt32
  history : List ReplyEvent

inductive LedgerCall
  | check (xid xidRep : UInt32)
  | addReply (xid : UInt32) (b : Nat)
  deriving DecidableEq, Repr

namespace Ledger

def start : Ledger := { repList := [], due := [], history := [] }

def handedOut (xid : UInt32) : RpcState → List ReplyEvent
  | .done b => [.done xid b]
  | _ => []

/-- `checkduplicate_and_update`.  What is acknowledged is freed before the call is
looked up. -/
def check (s : Ledger) (xid xidRep : UInt32) : Ledger :=
  let (stat, l) := checkduplicateAndUpdate s.repList xid xidRep
  { repList := l
    due := if stat = .new then xid :: s.due else s.due
    history :=
      handedOut xid stat ++ ((freed s.repList xidRep).map .freed ++ .acked xidRep :: s.history) }

/-- `add_reply` is called once for each new call, with a buffer of its own. -/
def step (s : Ledger) : LedgerCall → Option Ledger
  | .check xid xidRep => some (s.check xid xidRep)
  | .addReply xid b =>
    if xid ∈ s.due ∧ b ∉ buffers s.history then
      (addReply xid b s.repList).map fun l =>
        { repList := l, due := s.due.erase xid, history := .recorded xid b :: s.history }
    else none

def system : System Ledger LedgerCall where
  init s := s = start
  step := step

/-- The history once `free_reply_window` has run. -/
def freeReplyWindow (s : Ledger) : List ReplyEvent :=
  (s.repList.filterMap ReplyT.buf).map .freed ++ s.history

/-- If the window is freed now, every buffer has been freed exactly once, and what
was handed out was live. -/
structure Released (s : Ledger) : Prop where
  once : ∀ xid b, .recorded xid b ∈ s.history → s.freeReplyWindow.count (.freed b) = 1
  live : DonesLive s.freeReplyWindow

/-- A check that frees a buffer is one of a new call. -/
def FreesWhenNew (s : Ledger) : LedgerCall → Prop
  | .check xid xidRep => Listed s.repList xid → freed s.repList xidRep = []
  | .addReply .. => True

instance (s : Ledger) : DecidablePred s.FreesWhenNew
  | .check xid xidRep => inferInstanceAs (Decidable (Listed s.repList xid → freed _ xidRep = []))
  | .addReply .. => isTrue trivial

/-! ## The invariant -/

/-- A buffer is in the list or has been freed once.  No call has two entries, and no
buffer is recorded for two calls. -/
structure Inv (s : Ledger) : Prop where
  xids : (s.repList.map ReplyT.xid).Nodup
  dueNodup : s.due.Nodup
  due : ∀ xid ∈ s.due, { xid := xid, buf := none } ∈ s.repList ∧ ∀ b, .recorded xid b ∉ s.history
  listed : ∀ xid b, .recorded xid b ∈ s.history → Listed s.repList xid
  sole : ∀ x y b, .recorded x b ∈ s.history → .recorded y b ∈ s.history → x = y
  freed : ∀ b, .freed b ∈ s.history → ∃ xid, .recorded xid b ∈ s.history
  entry : ∀ xid b, { xid := xid, buf := some b } ∈ s.repList →
    .recorded xid b ∈ s.history ∧ .freed b ∉ s.history ∧ ¬ Retired xid s.history
  closed : ∀ xid b, .recorded xid b ∈ s.history →
    { xid := xid, buf := some b } ∈ s.repList ∨ s.history.count (.freed b) = 1
  live : DonesLive s.history

theorem start_inv : start.Inv where
  xids := List.nodup_nil
  dueNodup := List.nodup_nil
  due := fun _ h => absurd h List.not_mem_nil
  listed := fun _ _ h => absurd h List.not_mem_nil
  sole := fun _ _ _ h => absurd h List.not_mem_nil
  freed := fun _ h => absurd h List.not_mem_nil
  entry := fun _ _ h => absurd h List.not_mem_nil
  closed := fun _ _ h => absurd h List.not_mem_nil
  live := trivial

variable {s : Ledger}

theorem Inv.entry_unique (h : s.Inv) {e f : ReplyT} {b : Nat} (he : e ∈ s.repList)
    (hf : f ∈ s.repList) (heb : e.buf = some b) (hfb : f.buf = some b) : e.xid = f.xid := by
  obtain ⟨x, _⟩ := e
  obtain ⟨y, _⟩ := f
  cases heb
  cases hfb
  exact h.sole x y b (h.entry x b he).1 (h.entry y b hf).1

theorem Inv.bufs_nodup (h : s.Inv) : (s.repList.filterMap ReplyT.buf).Nodup := by
  refine List.pairwise_filterMap.mpr ?_
  have hne : s.repList.Pairwise fun e f => e.xid ≠ f.xid := List.pairwise_map.mp h.xids
  refine hne.imp_of_mem fun {e f} he hf hxid b hb c hc hbc => ?_
  subst hbc
  exact hxid (h.entry_unique he hf hb hc)

theorem mem_bufs {l : List ReplyT} {b : Nat} :
    b ∈ l.filterMap ReplyT.buf ↔ ∃ xid, { xid := xid, buf := some b } ∈ l := by
  rw [List.mem_filterMap]
  constructor
  · rintro ⟨e, he, hb⟩
    exact ⟨e.xid, by rwa [← hb]⟩
  · rintro ⟨xid, he⟩
    exact ⟨_, he, rfl⟩

/-- A buffer in the list is freed by `free_reply_window`, and any other one was
freed before. -/
theorem Inv.released (h : s.Inv) : s.Released where
  once xid b hb := by
    rw [freeReplyWindow, count_freed_append]
    rcases h.closed xid b hb with hopen | hclosed
    · have hmem : b ∈ s.repList.filterMap ReplyT.buf := mem_bufs.mpr ⟨xid, hopen⟩
      rw [List.count_eq_one_of_mem h.bufs_nodup hmem,
        List.count_eq_zero_of_not_mem (h.entry xid b hopen).2.1]
    · have hnot : b ∉ s.repList.filterMap ReplyT.buf := by
        intro hmem
        obtain ⟨y, hy⟩ := mem_bufs.mp hmem
        have hfreed : .freed b ∈ s.history := List.count_pos_iff.mp (by omega)
        exact (h.entry y b hy).2.1 hfreed
      rw [List.count_eq_zero_of_not_mem hnot, hclosed]
  live := donesLive_freed_append.mpr h.live

/-! ## One call -/

/-- What is left in the list is not acknowledged. -/
theorem mem_drop_append {l : List ReplyT} {xid y xidRep : UInt32} {b : Nat} :
    ({ xid := y, buf := some b } : ReplyT) ∈ l.map (.drop xidRep) ++ [{ xid := xid, buf := none }] ↔
      { xid := y, buf := some b } ∈ l ∧ xidRep < y := by
  constructor
  · intro h
    rcases List.mem_append.mp h with h | h
    · obtain ⟨e, he, hdrop⟩ := List.mem_map.mp h
      obtain ⟨-, hlt⟩ := ReplyT.drop_buf (congrArg ReplyT.buf hdrop : (e.drop xidRep).buf = some b)
      rw [ReplyT.drop_of_lt hlt] at hdrop
      subst hdrop
      exact ⟨he, hlt⟩
    · cases List.mem_singleton.mp h
  · rintro ⟨h, hlt⟩
    exact List.mem_append_left _ (List.mem_map.mpr ⟨_, h, ReplyT.drop_of_lt hlt⟩)

theorem mem_drop_of_none {l : List ReplyT} {y xidRep : UInt32}
    (h : ({ xid := y, buf := none } : ReplyT) ∈ l) :
    ({ xid := y, buf := none } : ReplyT) ∈ l.map (.drop xidRep) := by
  refine List.mem_map.mpr ⟨_, h, ?_⟩
  unfold ReplyT.drop
  split_ifs <;> rfl

theorem Inv.count_freed (h : s.Inv) {xid xidRep : UInt32} {b : Nat}
    (hb : { xid := xid, buf := some b } ∈ s.repList) (hle : xid ≤ xidRep) :
    (Rpc.freed s.repList xidRep).count b = 1 := by
  have hfilter : Rpc.freed s.repList xidRep =
      (s.repList.filter fun e => e.xid ≤ xidRep).filterMap ReplyT.buf := by
    simp only [Rpc.freed, List.filterMap_filter, decide_eq_true_eq]
  have hnodup : (Rpc.freed s.repList xidRep).Nodup := by
    rw [hfilter]
    exact h.bufs_nodup.sublist (List.filter_sublist.filterMap ReplyT.buf)
  exact List.count_eq_one_of_mem hnodup (mem_freed.mpr ⟨_, hb, hle, rfl⟩)

/-- A buffer of an entry that is not acknowledged is not freed. -/
theorem Inv.not_mem_freed (h : s.Inv) {xid xidRep : UInt32} {b : Nat}
    (hb : { xid := xid, buf := some b } ∈ s.repList) (hlt : xidRep < xid) :
    b ∉ Rpc.freed s.repList xidRep := by
  intro hfreed
  obtain ⟨e, he, hle, heb⟩ := mem_freed.mp hfreed
  have hxid : e.xid = xid := h.entry_unique he hb heb rfl
  exact absurd hlt (UInt32.not_lt.mpr (hxid ▸ hle))

theorem Inv.checkNew (h : s.Inv) {xid xidRep : UInt32} (hnew : ¬ Listed s.repList xid) :
    Inv { repList := s.repList.map (.drop xidRep) ++ [{ xid := xid, buf := none }]
          due := xid :: s.due
          history := (Rpc.freed s.repList xidRep).map .freed ++ .acked xidRep :: s.history } where
  xids := by
    have hsame : (s.repList.map (.drop xidRep)).map ReplyT.xid = s.repList.map ReplyT.xid := by
      rw [List.map_map]
      exact List.map_congr_left fun e _ => e.drop_xid xidRep
    rw [List.map_append, hsame, List.map_singleton, ← List.concat_eq_append]
    refine List.Nodup.concat (fun hx => hnew ?_) h.xids
    obtain ⟨e, he, hxid⟩ := List.mem_map.mp hx
    exact ⟨e, he, hxid⟩
  dueNodup := by
    refine List.nodup_cons.mpr ⟨fun hdue => hnew ?_, h.dueNodup⟩
    exact ⟨_, (h.due xid hdue).1, rfl⟩
  due := by
    intro y hy
    rcases List.mem_cons.mp hy with rfl | hy
    · refine ⟨List.mem_append_right _ List.mem_cons_self, fun b hb => hnew ?_⟩
      exact h.listed y b (recorded_mem_checked.mp hb)
    · refine ⟨List.mem_append_left _ (mem_drop_of_none (h.due y hy).1), fun b hb => ?_⟩
      exact (h.due y hy).2 b (recorded_mem_checked.mp hb)
  listed := by
    intro y b hb
    obtain ⟨e, he, hxid⟩ := h.listed y b (recorded_mem_checked.mp hb)
    exact ⟨e.drop xidRep, List.mem_append_left _ (List.mem_map_of_mem he),
      (e.drop_xid xidRep).trans hxid⟩
  sole := by
    intro x y b hx hy
    exact h.sole x y b (recorded_mem_checked.mp hx) (recorded_mem_checked.mp hy)
  freed := by
    intro b hb
    simp only [recorded_mem_checked]
    rcases freed_mem_checked.mp hb with hb | hb
    · obtain ⟨e, he, -, heb⟩ := mem_freed.mp hb
      exact ⟨e.xid, (h.entry e.xid b (heb ▸ he)).1⟩
    · exact h.freed b hb
  entry := by
    intro y b hy
    obtain ⟨hold, hlt⟩ := mem_drop_append.mp hy
    obtain ⟨hrec, hfreed, hretired⟩ := h.entry y b hold
    rw [recorded_mem_checked, freed_mem_checked, retired_freed_append]
    refine ⟨hrec, not_or.mpr ⟨h.not_mem_freed hold hlt, hfreed⟩, ?_⟩
    rintro (⟨hle, -⟩ | hold)
    · exact absurd hlt (UInt32.not_lt.mpr hle)
    · exact hretired hold
  closed := by
    intro y b hy
    rw [recorded_mem_checked] at hy
    rw [mem_drop_append, count_freed_append, List.count_cons_of_ne (by simp)]
    rcases h.closed y b hy with hopen | hclosed
    · by_cases hlt : xidRep < y
      · exact Or.inl ⟨hopen, hlt⟩
      · refine Or.inr ?_
        rw [h.count_freed hopen (UInt32.not_lt.mp hlt),
          List.count_eq_zero_of_not_mem (h.entry y b hopen).2.1]
    · -- It was freed before, so no entry has it.
      refine Or.inr ?_
      have hfreed : .freed b ∈ s.history := List.count_pos_iff.mp (by omega)
      have hnot : b ∉ Rpc.freed s.repList xidRep := by
        intro hmem
        obtain ⟨e, he, -, heb⟩ := mem_freed.mp hmem
        exact (h.entry e.xid b (heb ▸ he)).2.1 hfreed
      rw [List.count_eq_zero_of_not_mem hnot, hclosed]
  live := donesLive_freed_append.mpr h.live

theorem Inv.event (h : s.Inv) {e : ReplyEvent} (hrec : ∀ xid b, e ≠ .recorded xid b)
    (hfreed : ∀ b, e ≠ .freed b)
    (hretired : ∀ xid b, { xid := xid, buf := some b } ∈ s.repList → ¬ Retired xid (e :: s.history))
    (hlive : DonesLive (e :: s.history)) : Inv { s with history := e :: s.history } := by
  have hr : ∀ xid b, .recorded xid b ∈ e :: s.history ↔ .recorded xid b ∈ s.history := by
    intro xid b
    rw [List.mem_cons, or_iff_right (hrec xid b).symm]
  have hf : ∀ b, .freed b ∈ e :: s.history ↔ .freed b ∈ s.history := fun b => by
    rw [List.mem_cons, or_iff_right (hfreed b).symm]
  refine ⟨h.xids, h.dueNodup, ?_, ?_, ?_, ?_, ?_, ?_, hlive⟩
  · simpa only [hr] using h.due
  · simpa only [hr] using h.listed
  · simpa only [hr] using h.sole
  · simpa only [hr, hf] using h.freed
  · intro xid b hb
    rw [hr, hf]
    exact ⟨(h.entry xid b hb).1, (h.entry xid b hb).2.1, hretired xid b hb⟩
  · intro xid b hb
    rw [List.count_cons_of_ne (hfreed b)]
    exact h.closed xid b ((hr xid b).mp hb)

theorem Inv.checkOld (h : s.Inv) {xid xidRep : UInt32} {stat : RpcState}
    (hnone : Rpc.freed s.repList xidRep = [])
    (hstat : ∀ b, stat = .done b → { xid := xid, buf := some b } ∈ s.repList) :
    Inv { s with history := handedOut xid stat ++ .acked xidRep :: s.history } := by
  -- No entry with a buffer is acknowledged, as it would be freed.
  have hretired : ∀ y b, { xid := y, buf := some b } ∈ s.repList →
      ¬ Retired y (.acked xidRep :: s.history) := by
    rintro y b hb (⟨hle, -⟩ | hold)
    · have hmem : b ∈ Rpc.freed s.repList xidRep := mem_freed.mpr ⟨_, hb, hle, rfl⟩
      rw [hnone] at hmem
      exact absurd hmem List.not_mem_nil
    · exact (h.entry y b hb).2.2 hold
  have hacked : Inv { s with history := .acked xidRep :: s.history } :=
    h.event (fun _ _ => by simp) (fun _ => by simp) hretired h.live
  cases stat with
  | done b =>
    have hb := hstat b rfl
    exact hacked.event (fun _ _ => by simp) (fun _ => by simp) hretired
      ⟨hacked.entry xid b hb, hacked.live⟩
  | new | inprogress | forgotten => exact hacked

/-! ## Storing a reply -/

/-- The entry of the call gets the buffer. -/
def fill (xid : UInt32) (b : Nat) (e : ReplyT) : ReplyT :=
  if e.xid = xid then { e with buf := some b } else e

theorem fill_xid (xid : UInt32) (b : Nat) (e : ReplyT) : (fill xid b e).xid = e.xid := by
  unfold fill
  split_ifs <;> rfl

theorem addReply_eq {xid : UInt32} {b : Nat} {l : List ReplyT} (hxids : (l.map ReplyT.xid).Nodup)
    (hmem : { xid := xid, buf := none } ∈ l) : addReply xid b l = some (l.map (fill xid b)) := by
  induction l with
  | nil => exact absurd hmem List.not_mem_nil
  | cons e l ih =>
    obtain ⟨hnot, hrest⟩ := List.nodup_cons.mp hxids
    by_cases hxid : e.xid = xid
    · -- It is the only entry of the call, so it has no reply and the others stay.
      have he : e = { xid := xid, buf := none } := by
        rcases List.mem_cons.mp hmem with he | htail
        · exact he.symm
        · exact absurd (List.mem_map.mpr ⟨_, htail, hxid.symm⟩) hnot
      have hsame : l.map (fill xid b) = l := by
        refine (List.map_congr_left fun f hf => ?_).trans (List.map_id l)
        have hne : f.xid ≠ xid := fun hf' => hnot (List.mem_map.mpr ⟨f, hf, hf'.trans hxid.symm⟩)
        exact if_neg hne
      rw [List.map_cons, hsame, he]
      simp [addReply, fill]
    · have htail : { xid := xid, buf := none } ∈ l := by
        rcases List.mem_cons.mp hmem with he | htail
        · exact absurd (congrArg ReplyT.xid he).symm hxid
        · exact htail
      rw [addReply, if_neg hxid, ih hrest htail, List.map_cons, fill, if_neg hxid]
      rfl

theorem mem_fill {l : List ReplyT} {xid y : UInt32} {b c : Nat}
    (h : ({ xid := y, buf := some c } : ReplyT) ∈ l.map (fill xid b)) :
    (y = xid ∧ c = b) ∨ (y ≠ xid ∧ { xid := y, buf := some c } ∈ l) := by
  obtain ⟨e, he, hfill⟩ := List.mem_map.mp h
  unfold fill at hfill
  split_ifs at hfill with hxid
  · cases hfill
    exact Or.inl ⟨hxid, rfl⟩
  · subst hfill
    exact Or.inr ⟨hxid, he⟩

theorem mem_fill_of_ne {l : List ReplyT} {xid y : UInt32} {b : Nat} {buf : Option Nat}
    (hne : y ≠ xid) (h : { xid := y, buf := buf } ∈ l) :
    { xid := y, buf := buf } ∈ l.map (fill xid b) :=
  List.mem_map.mpr ⟨_, h, if_neg hne⟩

theorem mem_buffers {history : List ReplyEvent} {b : Nat} :
    b ∈ buffers history ↔ ∃ xid, .recorded xid b ∈ history := by
  unfold buffers
  rw [List.mem_filterMap]
  constructor
  · rintro ⟨e, he, hb⟩
    cases e with
    | recorded xid c =>
      cases hb
      exact ⟨xid, he⟩
    | acked _ | freed _ | done _ _ => cases hb
  · rintro ⟨xid, he⟩
    exact ⟨_, he, rfl⟩

theorem Inv.addReply (h : s.Inv) {xid : UInt32} {b : Nat} (hdue : xid ∈ s.due)
    (hfresh : b ∉ buffers s.history) :
    Inv { repList := s.repList.map (fill xid b)
          due := s.due.erase xid
          history := .recorded xid b :: s.history } := by
  obtain ⟨hmem, hnone⟩ := h.due xid hdue
  have hnew : ∀ y, .recorded y b ∉ s.history := fun y hy => hfresh (mem_buffers.mpr ⟨y, hy⟩)
  have hnotFreed : .freed b ∉ s.history := fun hb => by
    obtain ⟨y, hy⟩ := h.freed b hb
    exact hnew y hy
  refine ⟨?_, h.dueNodup.erase xid, ?_, ?_, ?_, ?_, ?_, ?_, h.live⟩
  · rw [List.map_map]
    refine (List.map_congr_left fun e _ => ?_).symm ▸ h.xids
    exact fill_xid xid b e
  · intro y hy
    obtain ⟨hne, hy⟩ := (h.dueNodup.mem_erase_iff).mp hy
    refine ⟨mem_fill_of_ne hne (h.due y hy).1, fun c hc => ?_⟩
    rcases List.mem_cons.mp hc with hc | hc
    · cases hc
      exact hne rfl
    · exact (h.due y hy).2 c hc
  · intro y c hc
    rcases List.mem_cons.mp hc with hc | hc
    · cases hc
      exact ⟨_, List.mem_map_of_mem hmem, fill_xid xid b _⟩
    · obtain ⟨e, he, hxid⟩ := h.listed y c hc
      exact ⟨_, List.mem_map_of_mem he, (fill_xid xid b e).trans hxid⟩
  · intro x y c hx hy
    rcases List.mem_cons.mp hx with hx | hx
    · cases hx
      rcases List.mem_cons.mp hy with hy | hy
      · cases hy
        rfl
      · exact absurd hy (hnew y)
    · rcases List.mem_cons.mp hy with hy | hy
      · cases hy
        exact absurd hx (hnew x)
      · exact h.sole x y c hx hy
  · intro c hc
    rcases List.mem_cons.mp hc with hc | hc
    · cases hc
    · obtain ⟨y, hy⟩ := h.freed c hc
      exact ⟨y, List.mem_cons_of_mem _ hy⟩
  · intro y c hc
    have hfreed : ∀ d, .freed d ∈ .recorded xid b :: s.history ↔ .freed d ∈ s.history := by simp
    rw [hfreed]
    rcases mem_fill hc with ⟨rfl, rfl⟩ | ⟨-, hold⟩
    · refine ⟨List.mem_cons_self, hnotFreed, fun hret => ?_⟩
      -- Nothing was recorded for the call before.
      have hold : Retired y s.history := hret
      obtain ⟨d, hd⟩ := hold.recorded
      exact hnone d hd
    · exact ⟨List.mem_cons_of_mem _ (h.entry y c hold).1, (h.entry y c hold).2⟩
  · intro y c hc
    rw [List.count_cons_of_ne (by simp)]
    rcases List.mem_cons.mp hc with hc | hc
    · cases hc
      exact Or.inl (List.mem_map.mpr ⟨_, hmem, if_pos rfl⟩)
    · refine (h.closed y c hc).imp_left fun hold => mem_fill_of_ne (fun hy => ?_) hold
      exact hnone c (hy ▸ hc)

/-! ## Every sequence of calls -/

theorem Inv.step {t : Ledger} {c : LedgerCall} (h : s.Inv) (hok : s.FreesWhenNew c)
    (hs : system.step s c = some t) : t.Inv := by
  cases c with
  | check xid xidRep =>
    cases hs
    show (s.check xid xidRep).Inv
    have hcheck := checked_check s.repList xid xidRep
    unfold check
    generalize checkduplicateAndUpdate s.repList xid xidRep = r at hcheck ⊢
    cases hcheck with
    | new hnot => exact h.checkNew hnot
    | done e b he hxid hb =>
      rw [hok ⟨e, he, hxid⟩]
      refine h.checkOld (hok ⟨e, he, hxid⟩) fun c hc => ?_
      cases hc
      exact hxid ▸ hb ▸ he
    | inprogress hlisted | forgotten hlisted =>
      rw [hok hlisted]
      refine h.checkOld (hok hlisted) fun _ hc => ?_
      cases hc
  | addReply xid b =>
    simp only [system, Ledger.step] at hs
    split_ifs at hs with hcond
    rw [addReply_eq h.xids (h.due xid hcond.1).1] at hs
    cases hs
    exact h.addReply hcond.1 hcond.2

/-- A check of an old call that frees a buffer leaves it in the list, where
`free_reply_window` finds it again. -/
theorem Inv.not_released {t : Ledger} {c : LedgerCall} (h : s.Inv) (hbad : ¬ s.FreesWhenNew c)
    (hs : system.step s c = some t) : ¬ t.Released := by
  cases c with
  | addReply xid b => exact absurd trivial hbad
  | check xid xidRep =>
    obtain ⟨hlisted, hne⟩ := Classical.not_imp.mp hbad
    obtain ⟨b, hb⟩ := List.exists_mem_of_ne_nil _ hne
    obtain ⟨e, he, -, heb⟩ := mem_freed.mp hb
    have hsame : t.repList = s.repList := by
      cases hs
      have hcheck := checked_check s.repList xid xidRep
      show (s.check xid xidRep).repList = _
      unfold check
      generalize checkduplicateAndUpdate s.repList xid xidRep = r at hcheck ⊢
      cases hcheck with
      | new hnot => exact absurd hlisted hnot
      | done | inprogress | forgotten => rfl
    have hhistory : ∃ hs', t.history = hs' ++
        ((Rpc.freed s.repList xidRep).map .freed ++ .acked xidRep :: s.history) := by
      cases hs
      exact ⟨_, rfl⟩
    obtain ⟨hs', hhistory⟩ := hhistory
    intro hrel
    have hrec : .recorded e.xid b ∈ t.history := by
      rw [hhistory]
      exact List.mem_append_right _ (List.mem_append_right _
        (List.mem_cons_of_mem _ (h.entry e.xid b (heb ▸ he)).1))
    have hfreed : .freed b ∈ t.history := by
      rw [hhistory]
      exact List.mem_append_right _ (mem_freed_append.mpr (Or.inl hb))
    have hlist : b ∈ t.repList.filterMap ReplyT.buf := by
      rw [hsame]
      exact mem_bufs.mpr ⟨e.xid, heb ▸ he⟩
    have htwo := hrel.once e.xid b hrec
    rw [freeReplyWindow, count_freed_append] at htwo
    have hone := List.count_pos_iff.mpr hfreed
    have hone' := List.count_pos_iff.mpr hlist
    omega

/-- For every client and every sequence of checks and of `add_reply` calls, one for
each new call and with a fresh buffer: whenever `free_reply_window` follows, every
buffer has been freed exactly once and every reply that was handed out was recorded
for its call, not freed and not acknowledged after it was recorded, if and only if
every check that freed a buffer was one of a new call. -/
theorem released_iff (calls : List LedgerCall) :
    system.AlongRun Released start calls ↔ system.StepsMeet FreesWhenNew start calls :=
  System.alongRun_iff_stepsMeet (fun _ => Inv.released) (fun _ _ _ h hok hs => h.step hok hs)
    (fun _ _ _ h hbad hs => h.not_released hbad hs) start_inv

/-- A duplicate of call 3 acknowledges call 2, whose reply is stored.  A late
duplicate of call 2 is then answered with the freed reply. -/
def lateDuplicate : List LedgerCall :=
  [.check 2 1, .addReply 2 0, .check 3 1, .check 3 2, .check 2 1]

theorem lateDuplicate_not_released :
    (system.run start lateDuplicate).map freeReplyWindow =
      some [.freed 0, .done 2 0, .acked 1, .freed 0, .acked 2, .acked 1, .recorded 2 0, .acked 1] ∧
    ¬ system.AlongRun Released start lateDuplicate := by
  refine ⟨by decide, fun h => ?_⟩
  exact absurd ((h.final (by decide)).once 2 0 (by decide)) (by decide)

end Ledger
end Rpc
end Frangipani
