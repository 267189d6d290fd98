/-
Handles on the clients of remote nodes (`handle.cc`).

`hmap` keeps a bound `rpcc` for each name together with the number of handles on it.
A handle is a pointer to the entry.  `delete_handle` deletes the `rpcc` and the entry
when there is no handle on the name, and marks the entry otherwise; the last handle
that is done then deletes both.

Every function of the manager holds `handle_mutex` to the end, so each call is one step.
An entry is a block of the heap whose address stays with the name, and a handle that is
done reads and writes through its pointer whatever is there.  `handles`, `made` and
`deleted` keep the handles that are in use, the number of clients that were created and
the clients that were deleted.
-/
import Mathlib.Data.List.Basic
import Mathlib.Data.List.Count
import Frangipani.Data.Map
import Frangipani.Memory.Counted
import Frangipani.Memory.Heap
import Frangipani.Transition.System

namespace Frangipani
namespace Rpc

open Memory Transition

/-- `hinfo`.  Clients are numbered in the order in which they are created. -/
structure Hinfo where
  cl : Nat
  refcnt : Int
  del : Bool
  m : String
  deriving DecidableEq, Inhabited

/-- A handle that was given out: the name it is for, the entry it points to, and the client that
the entry had. -/
structure Handle where
  m : String
  h : Nat
  cl : Nat
  deriving DecidableEq

structure HandleMgr where
  hmap : Map String Nat
  heap : Heap Hinfo
  handles : List Handle
  made : Nat
  deleted : List Nat

inductive HandleAction
  | getHandle (m : String) (ret : Int) (a : Nat)
  | doneHandle (h : Handle)
  | deleteHandle (m : String)

namespace HandleMgr

def new : HandleMgr where
  hmap := .empty
  heap := { live := fun _ => false, content := fun _ => default }
  handles := []
  made := 0
  deleted := []

/-- `get_handle`.  `ret` is what `bind` returns, and `a` is where a new entry is put. -/
def getHandle (s : HandleMgr) (m : String) (ret : Int) (a : Nat) : Option Handle × HandleMgr :=
  match s.hmap.find m with
  | none =>
    if ret < 0 then (none, { s with made := s.made + 1 })
    else
      let info : Hinfo := { cl := s.made, refcnt := 1, del := false, m := m }
      (some ⟨m, a, s.made⟩,
        { s with
          hmap := s.hmap.insert m a
          heap := (s.heap.alloc a).write a info
          made := s.made + 1 })
  | some b =>
    let info := s.heap.content b
    if info.del then (none, s)
    else
      (some ⟨m, b, info.cl⟩,
        { s with heap := s.heap.write b { info with refcnt := info.refcnt + 1 } })

def deleteHandleWo (s : HandleMgr) (m : String) : HandleMgr :=
  match s.hmap.find m with
  | none => s
  | some a =>
    let info := s.heap.content a
    if info.refcnt = 0 then
      { s with
        hmap := s.hmap.erase m
        heap := s.heap.free a
        deleted := info.cl :: s.deleted }
    else { s with heap := s.heap.write a { info with del := true } }

/-- `done_handle`, through the pointer `h`. -/
def doneHandle (s : HandleMgr) (h : Nat) : HandleMgr :=
  let info := s.heap.content h
  let s := { s with heap := s.heap.write h { info with refcnt := info.refcnt - 1 } }
  if info.refcnt - 1 ≤ 0 ∧ info.del = true then s.deleteHandleWo info.m else s

/-- A new entry is not put where another block is, and a handle is done once. -/
def step (s : HandleMgr) : HandleAction → Option HandleMgr
  | .getHandle m ret a =>
    if s.heap.live a then none
    else
      let (h, s) := s.getHandle m ret a
      some { s with handles := h.toList ++ s.handles }
  | .doneHandle h =>
    if h ∈ s.handles then some ({ s with handles := s.handles.erase h }.doneHandle h.h) else none
  | .deleteHandle m => some (s.deleteHandleWo m)

def system : System HandleMgr HandleAction where
  init s := s = new
  step := step

/-- The number of handles on a name. -/
def liveOn (s : HandleMgr) (m : String) : Nat := s.handles.countP fun h => h.m = m

structure Safe (s : HandleMgr) : Prop where
  /-- An entry counts the handles on its name, and without an entry there are none. -/
  refcnt : ∀ m a, s.hmap.find m = some a → (s.heap.content a).refcnt = s.liveOn m
  entry : ∀ m, s.hmap.find m = none → s.liveOn m = 0
  /-- A handle points to a live entry, and the client it has there is not deleted. -/
  usable : ∀ h ∈ s.handles, s.hmap.find h.m = some h.h ∧ s.heap.live h.h = true ∧
    (s.heap.content h.h).cl = h.cl ∧ h.cl ∉ s.deleted
  /-- No client is deleted twice, and none that is still stored. -/
  once : s.deleted.Nodup
  stored : ∀ m a, s.hmap.find m = some a → (s.heap.content a).cl ∉ s.deleted
  /-- A marked name gives out no handle, and it has one in use as long as it has an entry. -/
  marked : ∀ m a, s.hmap.find m = some a → (s.heap.content a).del = true →
    0 < s.liveOn m ∧ ∀ ret b, (s.getHandle m ret b).1 = none

/-! ## The entries and the handles -/

/-- What an entry counts. -/
def refcntOf (s : HandleMgr) (m : String) : Int :=
  ((s.hmap.find m).map fun a => (s.heap.content a).refcnt).getD 0

/-- Everything about the entries but the marks. -/
structure Sound (s : HandleMgr) : Prop where
  balanced : Balanced (fun m => s.hmap.find m ≠ none) s.refcntOf s.liveOn
  stored : ∀ m a, s.hmap.find m = some a → s.heap.live a = true ∧ (s.heap.content a).m = m ∧
    (s.heap.content a).cl < s.made ∧ (s.heap.content a).cl ∉ s.deleted
  distinct : ∀ m m' a a', s.hmap.find m = some a → s.hmap.find m' = some a' →
    (s.heap.content a).cl = (s.heap.content a').cl → m = m'
  handles : ∀ h ∈ s.handles, s.hmap.find h.m = some h.h ∧ (s.heap.content h.h).cl = h.cl
  deleted : s.deleted.Nodup ∧ ∀ cl ∈ s.deleted, cl < s.made

/-- A marked entry other than that of `m` has a handle. -/
def MarkedInUse (s : HandleMgr) (except : String → Prop) : Prop :=
  ∀ m a, ¬ except m → s.hmap.find m = some a → (s.heap.content a).del = true → 0 < s.liveOn m

structure Inv (s : HandleMgr) : Prop where
  sound : s.Sound
  marked : s.MarkedInUse fun _ => False

theorem Sound.refcnt {s : HandleMgr} (h : s.Sound) {m : String} {a : Nat}
    (ha : s.hmap.find m = some a) : (s.heap.content a).refcnt = s.liveOn m := by
  have hcount := h.balanced.counted m (by rw [ha]; exact Option.some_ne_none a)
  rw [refcntOf, ha] at hcount
  exact hcount

theorem Inv.safe {s : HandleMgr} (h : s.Inv) : s.Safe where
  refcnt m a ha := h.sound.refcnt ha
  entry m hm := h.sound.balanced.refs_eq_zero fun hne => hne hm
  usable hd hmem := by
    obtain ⟨hfind, hcl⟩ := h.sound.handles hd hmem
    obtain ⟨hlive, -, -, hdel⟩ := h.sound.stored hd.m hd.h hfind
    exact ⟨hfind, hlive, hcl, hcl ▸ hdel⟩
  once := h.sound.deleted.1
  stored m a ha := (h.sound.stored m a ha).2.2.2
  marked m a ha hdel := by
    refine ⟨h.marked m a (fun hf => hf) ha hdel, fun ret b => ?_⟩
    simp only [getHandle, ha, hdel, if_true]

theorem new_inv : new.Inv where
  sound :=
    { balanced := ⟨fun m hm => absurd rfl hm, fun m hm => absurd hm (Nat.lt_irrefl 0)⟩
      stored := fun _ _ h => by cases h
      distinct := fun _ _ _ _ h => by cases h
      handles := fun _ h => absurd h List.not_mem_nil
      deleted := ⟨List.nodup_nil, fun _ h => absurd h List.not_mem_nil⟩ }
  marked := fun _ _ _ h => by cases h

/-! ## Writing to an entry -/

theorem Sound.name_eq {s : HandleMgr} (h : s.Sound) {m m' : String} {a : Nat}
    (hm : s.hmap.find m = some a) (hm' : s.hmap.find m' = some a) : m' = m :=
  (h.stored m' a hm').2.1.symm.trans (h.stored m a hm).2.1

/-- A count or a mark is written, and the handles change along with the count. -/
theorem Sound.write {s : HandleMgr} (h : s.Sound) {a : Nat} (info : Hinfo)
    (hcl : info.cl = (s.heap.content a).cl) (hm : info.m = (s.heap.content a).m) {hs : List Handle}
    (hhs : ∀ x ∈ hs, s.hmap.find x.m = some x.h ∧ (s.heap.content x.h).cl = x.cl)
    (hbalanced : Balanced (fun m => s.hmap.find m ≠ none)
      { s with heap := s.heap.write a info, handles := hs }.refcntOf fun m =>
        hs.countP fun h => h.m = m) :
    { s with heap := s.heap.write a info, handles := hs }.Sound := by
  have hclient : ∀ b, ((s.heap.write a info).content b).cl = (s.heap.content b).cl := by
    intro b
    by_cases hb : b = a
    · rw [hb, Heap.write_content_self, hcl]
    · rw [Heap.write_content_ne _ _ hb]
  have hname : ∀ b, ((s.heap.write a info).content b).m = (s.heap.content b).m := by
    intro b
    by_cases hb : b = a
    · rw [hb, Heap.write_content_self, hm]
    · rw [Heap.write_content_ne _ _ hb]
  refine ⟨hbalanced, fun n b hb => ?_, fun n n' b b' hb hb' hsame => ?_, fun x hx => ?_,
    h.deleted⟩
  · show s.heap.live b = true ∧ ((s.heap.write a info).content b).m = n ∧
      ((s.heap.write a info).content b).cl < s.made ∧
        ((s.heap.write a info).content b).cl ∉ s.deleted
    rw [hclient, hname]
    exact h.stored n b hb
  · have hsame : ((s.heap.write a info).content b).cl =
      ((s.heap.write a info).content b').cl := hsame
    rw [hclient, hclient] at hsame
    exact h.distinct n n' b b' hb hb' hsame
  · refine ⟨(hhs x hx).1, ?_⟩
    show ((s.heap.write a info).content x.h).cl = x.cl
    rw [hclient]
    exact (hhs x hx).2

theorem Sound.refcntOf_write {s : HandleMgr} (h : s.Sound) {m : String} {a : Nat}
    (ha : s.hmap.find m = some a) (info : Hinfo) (hs : List Handle) {n : String} (hn : n ≠ m) :
    { s with heap := s.heap.write a info, handles := hs }.refcntOf n = s.refcntOf n := by
  show ((s.hmap.find n).map fun b => ((s.heap.write a info).content b).refcnt).getD 0 = _
  rw [refcntOf]
  cases hb : s.hmap.find n with
  | none => rfl
  | some b =>
    have hne : b ≠ a := fun hba => hn (h.name_eq ha (hba ▸ hb))
    rw [Option.map_some, Option.map_some, Heap.write_content_ne _ _ hne]

theorem refcntOf_write_self {s : HandleMgr} {m : String} {a : Nat}
    (ha : s.hmap.find m = some a) (info : Hinfo) (hs : List Handle) :
    { s with heap := s.heap.write a info, handles := hs }.refcntOf m = info.refcnt := by
  show ((s.hmap.find m).map fun b => ((s.heap.write a info).content b).refcnt).getD 0 = _
  rw [ha, Option.map_some, Heap.write_content_self]
  rfl

theorem refcntOf_of_find {s : HandleMgr} {m : String} {a : Nat} (ha : s.hmap.find m = some a) :
    s.refcntOf m = (s.heap.content a).refcnt := by
  rw [refcntOf, ha]
  rfl

/-! ## The functions -/

/-- The name without its entry, and the client deleted. -/
def removed (s : HandleMgr) (m : String) (a : Nat) : HandleMgr :=
  { s with
    hmap := s.hmap.erase m
    heap := s.heap.free a
    deleted := (s.heap.content a).cl :: s.deleted }

section Removed

variable {s : HandleMgr} {m : String} {a : Nat}

theorem find_removed {n : String} {b : Nat} (hb : (s.removed m a).hmap.find n = some b) :
    n ≠ m ∧ s.hmap.find n = some b :=
  Map.find_erase_eq_some.mp hb

theorem Sound.balanced_removed (h : s.Sound) (ha : s.hmap.find m = some a)
    (hzero : (s.heap.content a).refcnt = 0) :
    Balanced (fun n => (s.removed m a).hmap.find n ≠ none) (s.removed m a).refcntOf
      (s.removed m a).liveOn := by
  have hlive : s.hmap.find m ≠ none := by rw [ha]; exact Option.some_ne_none a
  refine h.balanced.free hlive ((refcntOf_of_find ha).trans hzero) (fun n hn => ?_)
    (fun hne => ?_) fun n hn => ?_
  · show (s.hmap.erase m).find n ≠ none ↔ _
    rw [Map.find_erase_ne _ hn]
  · exact hne (Map.find_erase_self _ _)
  · show (((s.hmap.erase m).find n).map fun b => (s.heap.content b).refcnt).getD 0 = _
    rw [Map.find_erase_ne _ hn]
    rfl

theorem Sound.removed (h : s.Sound) (ha : s.hmap.find m = some a)
    (hzero : (s.heap.content a).refcnt = 0) : (s.removed m a).Sound := by
  have hrefcnt := h.refcnt ha
  obtain ⟨-, -, hmade, hundeleted⟩ := h.stored m a ha
  refine ⟨h.balanced_removed ha hzero, fun n b hb => ?_, fun n n' b b' hb hb' => ?_,
    fun x hx => ?_, ?_⟩
  · obtain ⟨hn, hb⟩ := find_removed hb
    obtain ⟨hblive, hbm, hbmade, hbdel⟩ := h.stored n b hb
    have hba : b ≠ a := fun hba => hn (h.name_eq ha (hba ▸ hb))
    refine ⟨?_, hbm, hbmade, fun hmem => ?_⟩
    · show Function.update s.heap.live a false b = true
      rw [Function.update_of_ne hba]
      exact hblive
    · rcases List.mem_cons.mp hmem with hsame | hmem
      · exact hn (h.distinct n m b a hb ha hsame)
      · exact hbdel hmem
  · exact h.distinct n n' b b' (find_removed hb).2 (find_removed hb').2
  · obtain ⟨hfind, hcl⟩ := h.handles x hx
    have hx' : x.m ≠ m := by
      intro hxm
      have hpos : 0 < s.liveOn m := List.countP_pos_iff.mpr ⟨x, hx, decide_eq_true hxm⟩
      omega
    exact ⟨(Map.find_erase_ne _ hx').trans hfind, hcl⟩
  · exact ⟨List.nodup_cons.mpr ⟨hundeleted, h.deleted.1⟩,
      List.forall_mem_cons.mpr ⟨hmade, h.deleted.2⟩⟩

theorem Sound.marked (h : s.Sound) (ha : s.hmap.find m = some a) :
    { s with heap := s.heap.write a { s.heap.content a with del := true } }.Sound := by
  refine h.write { s.heap.content a with del := true } rfl rfl h.handles ?_
  refine h.balanced.at_one (i := m) (fun _ _ => Iff.rfl)
    (fun n hn => h.refcntOf_write ha _ s.handles hn) (fun _ _ => rfl) (fun _ => ?_) fun _ => ?_
  · rw [refcntOf_write_self ha _ s.handles]
    exact h.refcnt ha
  · rw [ha]
    exact Option.some_ne_none a

end Removed

/-- `delete_handle_wo` deletes a client that no handle is on, and marks it otherwise. -/
theorem Sound.deleteHandleWo {s : HandleMgr} {m : String} (h : s.Sound)
    (hmarked : s.MarkedInUse (· = m)) : (s.deleteHandleWo m).Inv := by
  unfold HandleMgr.deleteHandleWo
  cases ha : s.hmap.find m with
  | none =>
    refine ⟨h, fun n b _ hb hdel => hmarked n b (fun hn => ?_) hb hdel⟩
    rw [hn, ha] at hb
    cases hb
  | some a =>
    have hrefcnt := h.refcnt ha
    simp only
    split
    · rename_i hzero
      refine ⟨h.removed ha hzero, fun n b _ hb => ?_⟩
      obtain ⟨hn, hb⟩ := find_removed hb
      exact hmarked n b hn hb
    · rename_i hused
      refine ⟨h.marked ha, fun n b _ hb hdel => ?_⟩
      by_cases hn : n = m
      · show 0 < s.liveOn n
        rw [hn]
        omega
      · have hba : b ≠ a := fun hba => hn (h.name_eq ha (hba ▸ hb))
        have hdel : ((s.heap.write a _).content b).del = true := hdel
        rw [Heap.write_content_ne _ _ hba] at hdel
        exact hmarked n b hn hb hdel

theorem liveOn_erase {s : HandleMgr} {h : Handle} (hmem : h ∈ s.handles) (n : String) :
    s.liveOn n = (s.handles.erase h).countP (fun x => x.m = n) + if h.m = n then 1 else 0 := by
  rw [liveOn, (List.perm_cons_erase hmem).countP_eq, List.countP_cons]
  simp only [decide_eq_true_eq]

theorem Sound.lowered {s : HandleMgr} {h : Handle} (hsound : s.Sound) (hmem : h ∈ s.handles) :
    { s with
      heap := s.heap.write h.h
        { s.heap.content h.h with refcnt := (s.heap.content h.h).refcnt - 1 }
      handles := s.handles.erase h }.Sound := by
  obtain ⟨hfind, -⟩ := hsound.handles h hmem
  have hself := liveOn_erase hmem h.m
  rw [if_pos rfl] at hself
  refine hsound.write { s.heap.content h.h with refcnt := (s.heap.content h.h).refcnt - 1 } rfl rfl
    (fun x hx => hsound.handles x (List.mem_of_mem_erase hx)) ?_
  refine hsound.balanced.drop (i := h.m) (fun n hn => hsound.refcntOf_write hfind _ _ hn) ?_
    (fun n hn => ?_) hself
  · rw [refcntOf_write_self hfind, refcntOf_of_find hfind]
  · have := liveOn_erase hmem n
    rw [if_neg (Ne.symm hn)] at this
    exact this.symm

theorem Inv.doneHandle {s : HandleMgr} {h : Handle} (hinv : s.Inv) (hmem : h ∈ s.handles) :
    ({ s with handles := s.handles.erase h }.doneHandle h.h).Inv := by
  have hsound := hinv.sound
  obtain ⟨hfind, -⟩ := hsound.handles h hmem
  have hname := (hsound.stored h.m h.h hfind).2.1
  have hrefcnt := hsound.refcnt hfind
  have hself := liveOn_erase hmem h.m
  rw [if_pos rfl] at hself
  have hlowered := hsound.lowered hmem
  unfold HandleMgr.doneHandle
  generalize s.heap.content h.h = info at hname hrefcnt hlowered
  have hmarked : ∀ n b, n ≠ h.m → s.hmap.find n = some b →
      ((s.heap.write h.h { info with refcnt := info.refcnt - 1 }).content b).del = true →
        0 < (s.handles.erase h).countP fun x => x.m = n := by
    intro n b hn hb hdel
    have hba : b ≠ h.h := fun hba => hn (hsound.name_eq hfind (hba ▸ hb))
    rw [Heap.write_content_ne _ _ hba] at hdel
    have hpos := hinv.marked n b (fun hf => hf) hb hdel
    have := liveOn_erase hmem n
    rw [if_neg (Ne.symm hn)] at this
    omega
  simp only
  split
  · have hdone := hlowered.deleteHandleWo (m := h.m) fun n b hn hb hdel => hmarked n b hn hb hdel
    rw [← hname] at hdone
    exact hdone
  · rename_i hkeep
    refine ⟨hlowered, fun n b _ hb hdel => ?_⟩
    by_cases hn : n = h.m
    · have hbh : b = h.h := by
        rw [hn] at hb
        exact Option.some.inj (hb.symm.trans hfind)
      have hdel : ((s.heap.write h.h { info with refcnt := info.refcnt - 1 }).content b).del =
        true := hdel
      rw [hbh, Heap.write_content_self] at hdel
      have hpos : ¬ info.refcnt - 1 ≤ 0 := fun hle => hkeep ⟨hle, hdel⟩
      show 0 < (s.handles.erase h).countP fun x => x.m = n
      rw [hn]
      omega
    · exact hmarked n b hn hb hdel

/-- Another client is created and not stored, because it could not be bound. -/
theorem Inv.unbound {s : HandleMgr} (hinv : s.Inv) : { s with made := s.made + 1 }.Inv where
  sound :=
    { balanced := hinv.sound.balanced
      stored := fun n b hb =>
        have ⟨hlive, hm, hmade, hdel⟩ := hinv.sound.stored n b hb
        ⟨hlive, hm, Nat.lt_succ_of_lt hmade, hdel⟩
      distinct := hinv.sound.distinct
      handles := hinv.sound.handles
      deleted := ⟨hinv.sound.deleted.1,
        fun cl hcl => Nat.lt_succ_of_lt (hinv.sound.deleted.2 cl hcl)⟩ }
  marked := hinv.marked

/-- A client that was bound, under a name that has no entry, with one handle. -/
def bound (s : HandleMgr) (m : String) (a : Nat) : HandleMgr :=
  { s with
    hmap := s.hmap.insert m a
    heap := (s.heap.alloc a).write a { cl := s.made, refcnt := 1, del := false, m := m }
    handles := ⟨m, a, s.made⟩ :: s.handles
    made := s.made + 1 }

section Bound

variable {s : HandleMgr} {m : String} {a : Nat}

theorem content_bound_self (s : HandleMgr) (m : String) (a : Nat) :
    (s.bound m a).heap.content a = { cl := s.made, refcnt := 1, del := false, m := m } :=
  Heap.write_content_self ..

theorem find_bound {n : String} {b : Nat} (hb : (s.bound m a).hmap.find n = some b) :
    n = m ∧ b = a ∨ n ≠ m ∧ s.hmap.find n = some b :=
  Map.find_insert_eq_some.mp hb

theorem Sound.content_bound (h : s.Sound) (hfree : s.heap.live a = false) {n : String} {b : Nat}
    (hb : s.hmap.find n = some b) :
    (s.bound m a).heap.content b = s.heap.content b ∧ (s.bound m a).heap.live b = true := by
  have hlive := (h.stored n b hb).1
  have hba : b ≠ a := by
    rintro rfl
    rw [hfree] at hlive
    cases hlive
  exact ⟨Heap.write_content_ne _ _ hba, Heap.alloc_live_of_live hlive⟩

theorem Sound.balanced_bound (h : s.Sound) (hnone : s.hmap.find m = none)
    (hfree : s.heap.live a = false) :
    Balanced (fun n => (s.bound m a).hmap.find n ≠ none) (s.bound m a).refcntOf
      (s.bound m a).liveOn := by
  refine h.balanced.new (i := m) (fun hne => hne hnone) (fun n hn => ?_) ?_
    (fun n hn => ?_) ?_ (fun n hn => ?_) ?_
  · show (s.hmap.insert m a).find n ≠ none ↔ _
    rw [Map.find_insert_ne _ _ hn]
  · show (s.hmap.insert m a).find m ≠ none
    rw [Map.find_insert_self]
    exact Option.some_ne_none a
  · have hfind : (s.bound m a).hmap.find n = s.hmap.find n := Map.find_insert_ne _ _ hn
    rw [refcntOf, refcntOf, hfind]
    cases hb : s.hmap.find n with
    | none => rfl
    | some b => rw [Option.map_some, Option.map_some, (h.content_bound hfree hb).1]
  · have hfind : (s.bound m a).hmap.find m = some a := Map.find_insert_self ..
    rw [refcntOf_of_find hfind, content_bound_self]
  · exact List.countP_cons_of_neg (by simpa using Ne.symm hn)
  · exact List.countP_cons_of_pos (decide_eq_true rfl)

theorem Sound.bound (h : s.Sound) (hnone : s.hmap.find m = none)
    (hfree : s.heap.live a = false) : (s.bound m a).Sound := by
  refine ⟨h.balanced_bound hnone hfree, fun n b hb => ?_, fun n n' b b' hb hb' hsame => ?_,
    fun x hx => ?_, ?_⟩
  · rcases find_bound hb with ⟨rfl, rfl⟩ | ⟨-, hb⟩
    · rw [content_bound_self]
      exact ⟨Heap.alloc_live_self .., rfl, Nat.lt_succ_self _,
        fun hmem => Nat.lt_irrefl _ (h.deleted.2 _ hmem)⟩
    · obtain ⟨hsame, hlive⟩ := h.content_bound (m := m) hfree hb
      obtain ⟨-, hm, hmade, hdel⟩ := h.stored n b hb
      rw [hsame]
      exact ⟨hlive, hm, Nat.lt_succ_of_lt hmade, hdel⟩
  · rcases find_bound hb with ⟨hn, hba⟩ | ⟨-, hold⟩ <;>
      rcases find_bound hb' with ⟨hn', hba'⟩ | ⟨-, hold'⟩
    · exact hn.trans hn'.symm
    · -- The new client is none of the stored ones.
      rw [hba, content_bound_self, (h.content_bound hfree hold').1] at hsame
      exact absurd hsame (Nat.ne_of_gt (h.stored n' b' hold').2.2.1)
    · rw [hba', content_bound_self, (h.content_bound hfree hold).1] at hsame
      exact absurd hsame (Nat.ne_of_lt (h.stored n b hold).2.2.1)
    · rw [(h.content_bound hfree hold).1, (h.content_bound hfree hold').1] at hsame
      exact h.distinct n n' b b' hold hold' hsame
  · rcases List.mem_cons.mp hx with rfl | hx
    · exact ⟨Map.find_insert_self .., congrArg Hinfo.cl (content_bound_self s m a)⟩
    · obtain ⟨hfind, hcl⟩ := h.handles x hx
      have hxm : x.m ≠ m := fun hxm => by
        rw [hxm, hnone] at hfind
        cases hfind
      refine ⟨(Map.find_insert_ne _ _ hxm).trans hfind, ?_⟩
      rw [(h.content_bound hfree hfind).1, hcl]
  · exact ⟨h.deleted.1, fun cl hcl => Nat.lt_succ_of_lt (h.deleted.2 cl hcl)⟩

theorem Inv.bound (hinv : s.Inv) (hnone : s.hmap.find m = none)
    (hfree : s.heap.live a = false) : (s.bound m a).Inv := by
  refine ⟨hinv.sound.bound hnone hfree, fun n b _ hb hdel => ?_⟩
  rcases find_bound hb with ⟨-, rfl⟩ | ⟨hn, hb⟩
  · rw [content_bound_self] at hdel
    cases hdel
  · rw [(hinv.sound.content_bound hfree hb).1] at hdel
    refine Nat.lt_of_lt_of_le (hinv.marked n b (fun hf => hf) hb hdel) ?_
    exact List.Sublist.countP_le (List.sublist_cons_self _ _)

end Bound

/-- Another handle on an entry that is not marked. -/
theorem Inv.shared {s : HandleMgr} (hinv : s.Inv) {m : String} {a : Nat}
    (ha : s.hmap.find m = some a) (hdel : (s.heap.content a).del = false) :
    { s with
      heap := s.heap.write a { s.heap.content a with refcnt := (s.heap.content a).refcnt + 1 }
      handles := ⟨m, a, (s.heap.content a).cl⟩ :: s.handles }.Inv := by
  have hsound := hinv.sound
  refine ⟨hsound.write { s.heap.content a with refcnt := (s.heap.content a).refcnt + 1 } rfl rfl
    (fun x hx => ?_) ?_, fun n b _ hb hmark => ?_⟩
  · rcases List.mem_cons.mp hx with rfl | hx
    · exact ⟨ha, rfl⟩
    · exact hsound.handles x hx
  · refine hsound.balanced.take (i := m) (by rw [ha]; exact Option.some_ne_none a)
      (fun n hn => hsound.refcntOf_write ha _ _ hn) ?_ (fun n hn => ?_) ?_
    · rw [refcntOf_write_self ha, refcntOf_of_find ha]
    · exact List.countP_cons_of_neg (by simpa using Ne.symm hn)
    · exact List.countP_cons_of_pos (decide_eq_true rfl)
  · have hmark : ((s.heap.write a { s.heap.content a with
      refcnt := (s.heap.content a).refcnt + 1 }).content b).del = true := hmark
    by_cases hba : b = a
    · rw [hba, Heap.write_content_self, hdel] at hmark
      cases hmark
    · rw [Heap.write_content_ne _ _ hba] at hmark
      refine Nat.lt_of_lt_of_le (hinv.marked n b (fun hf => hf) hb hmark) ?_
      exact List.Sublist.countP_le (List.sublist_cons_self _ _)

theorem Inv.step {s t : HandleMgr} {a : HandleAction} (hinv : s.Inv) (hs : s.step a = some t) :
    t.Inv := by
  cases a with
  | getHandle m ret a =>
    simp only [HandleMgr.step] at hs
    split at hs
    · cases hs
    · rename_i hfree
      have hfree : s.heap.live a = false := Bool.eq_false_iff.mpr hfree
      cases hs
      unfold HandleMgr.getHandle
      split
      · rename_i hnone
        split
        · exact hinv.unbound
        · exact hinv.bound hnone hfree
      · rename_i b hb
        simp only
        split
        · exact hinv
        · rename_i hdel
          exact hinv.shared hb (Bool.eq_false_iff.mpr hdel)
  | doneHandle h =>
    simp only [HandleMgr.step] at hs
    split at hs
    · rename_i hmem
      cases hs
      exact hinv.doneHandle hmem
    · cases hs
  | deleteHandle m =>
    cases hs
    exact hinv.sound.deleteHandleWo fun n b _ hb hdel => hinv.marked n b (fun hf => hf) hb hdel

theorem inv_of_reachable {s : HandleMgr} (h : system.Reachable s) : s.Inv :=
  System.Reachable.invariant (fun _ hs => hs ▸ new_inv) (fun _ _ _ hinv hs => hinv.step hs) h

/-- For any interleaving of `get_handle`, `done_handle` and `delete_handle`: in every reachable
state the counts are right, every handle leads to a client that is not deleted, no client is
deleted twice, and a marked name gives out no handle and is gone with its last one. -/
theorem handles_safe {s : HandleMgr} (h : system.Reachable s) : s.Safe :=
  (inv_of_reachable h).safe

/-- Two handles, a deletion while they are in use, and a new client under the name after both are
done. -/
def renewed : List HandleAction :=
  [.getHandle "3001" 0 7, .getHandle "3001" 0 8, .deleteHandle "3001", .getHandle "3001" 0 8,
    .doneHandle ⟨"3001", 7, 0⟩, .doneHandle ⟨"3001", 7, 0⟩, .getHandle "3001" 0 7]

theorem handles_safe_renewed :
    ∃ s, system.Reachable s ∧ s.Safe ∧ s.deleted = [0] ∧ s.handles = [⟨"3001", 7, 1⟩] := by
  have hreach : system.Reachable (system.final new renewed) :=
    System.Reachable.final renewed (.init rfl) (by decide +kernel)
  exact ⟨_, hreach, handles_safe hreach, by decide +kernel, by decide +kernel⟩

end HandleMgr
end Rpc
end Frangipani
