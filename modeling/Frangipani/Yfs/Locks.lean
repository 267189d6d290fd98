/-
The locks that an operation takes and releases.

`lock_client_cache::release` does not look who holds the lock: it marks the lock as free.
So an operation has to release what it has acquired, once, and nothing else.  All of them
do, for any answers of the extent client, but `unlink` when its first read fails.  It
jumps to the label behind which it releases the file and the directory then, and the
number of the file has not been set.

The locks that are held are a list.  A lock that was acquired twice is in it twice.
-/
import Frangipani.Yfs.Operations

namespace Frangipani
namespace Yfs

open Program

namespace Command

/-- The locks that are held after a call. -/
def held (locks : List Inum) : Command → List Inum
  | .acquire lid => lid :: locks
  | .release lid => locks.erase lid
  | _ => locks

/-- What is released is held. -/
def Allowed (locks : List Inum) : Command → Prop
  | .release lid => lid ∈ locks
  | _ => True

instance (locks : List Inum) : (c : Command) → Decidable (c.Allowed locks)
  | .release lid => inferInstanceAs (Decidable (lid ∈ locks))
  | .acquire _ | .get _ | .getattr _ | .put .. | .remove _ => isTrue trivial

/-- A call of the extent client. -/
def Extent : Command → Prop
  | .acquire _ | .release _ => False
  | _ => True

theorem Extent.locks {c : Command} (h : c.Extent) (locks : List Inum) :
    c.Allowed locks ∧ c.held locks = locks := by
  cases c with
  | acquire _ => exact absurd h id
  | release _ => exact absurd h id
  | _ => exact ⟨trivial, rfl⟩

end Command

/-- Every call of a run is allowed, and when the operation has returned nothing is held. -/
def Disciplined (returned : Prop) : List Inum → Prog.Calls Command Answer → Prop
  | locks, [] => returned → locks = []
  | locks, e :: es => e.1.Allowed locks ∧ Disciplined returned (e.1.held locks) es

/-- An `unlink` whose first read fails. -/
def Operation.Blind : Operation → Prog.Calls Command Answer → Prop
  | .unlink parent .., calls =>
    ∃ g rest, calls = ⟨.acquire parent, ()⟩ :: ⟨.get parent, g⟩ :: rest ∧ g.ret ≠ YfsClient.OK
  | _, _ => False

section

variable {returned : Prop} {locks : List Inum} {calls rest : Prog.Calls Command Answer}

theorem Disciplined.mono {returned' : Prop} (hr : returned' → returned) :
    ∀ {locks : List Inum} {calls : Prog.Calls Command Answer},
      Disciplined returned locks calls → Disciplined returned' locks calls
  | _, [], h => fun hr' => h (hr hr')
  | _, _ :: _, h => ⟨h.1, h.2.mono hr⟩

theorem disciplined_extent (h : ∀ e ∈ calls, e.1.Extent) :
    Disciplined returned locks (calls ++ rest) ↔ Disciplined returned locks rest := by
  induction calls with
  | nil => rfl
  | cons e es ih =>
    obtain ⟨he, hes⟩ := List.forall_mem_cons.mp h
    obtain ⟨hallowed, hheld⟩ := he.locks locks
    rw [List.cons_append, Disciplined, hheld, ih hes]
    exact and_iff_right hallowed

end

namespace YfsClient

theorem generateUniqueInum_extent (isFile : Bool) (draws : List Draw) :
    (generateUniqueInum isFile draws).All fun calls _ => ∀ e ∈ calls, e.1.Extent := by
  induction draws with
  | nil => exact fun e he => absurd he List.not_mem_nil
  | cons d ds ih =>
    intro g
    show Prog.All _ (if g.ret = OK then generateUniqueInum isFile ds else _)
    split
    · exact ih.mono fun calls _ h => List.forall_mem_cons.mpr ⟨trivial, h⟩
    · exact List.forall_mem_cons.mpr ⟨trivial, fun e he => absurd he List.not_mem_nil⟩

theorem disciplined_one (inum : Inum) (calls : Prog.Calls Command Answer)
    (h : ∀ e ∈ calls, e.1.Extent) :
    Disciplined True [] (⟨.acquire inum, ()⟩ :: (calls ++ [⟨.release inum, ()⟩])) := by
  refine ⟨trivial, (disciplined_extent h).mpr ⟨List.mem_singleton_self inum, fun _ => ?_⟩⟩
  exact List.erase_cons_head ..

theorem disciplined_second (inum parent : Inum) (calls : Prog.Calls Command Answer)
    (h : ∀ e ∈ calls, e.1.Extent) :
    Disciplined True [parent]
      (⟨.acquire inum, ()⟩ :: (calls ++ [⟨.release inum, ()⟩, ⟨.release parent, ()⟩])) := by
  refine ⟨trivial, (disciplined_extent h).mpr ⟨List.mem_cons_self, ?_⟩⟩
  show Disciplined True ((inum :: [parent]).erase inum) _
  rw [List.erase_cons_head]
  exact ⟨List.mem_singleton_self parent, fun _ => List.erase_cons_head ..⟩

theorem init_disciplined : init.All fun calls _ => Disciplined True [] calls := by
  intro _ g
  show Prog.All _ (if g.ret = NOENT then _ else _)
  split
  · intro ret _
    exact disciplined_one 1 [⟨.get 1, g⟩, ⟨.put 1 [], ret⟩] (by simp [Command.Extent])
  · intro _
    exact disciplined_one 1 [⟨.get 1, g⟩] (by simp [Command.Extent])

theorem getfile_disciplined (inum : Inum) :
    (getfile inum).All fun calls _ => Disciplined True [] calls := by
  intro _ a _
  exact disciplined_one inum [⟨.getattr inum, a⟩] (by simp [Command.Extent])

theorem getdir_disciplined (inum : Inum) :
    (getdir inum).All fun calls _ => Disciplined True [] calls := by
  intro _ a _
  exact disciplined_one inum [⟨.getattr inum, a⟩] (by simp [Command.Extent])

theorem ilookup_disciplined (di : Inum) (name : String) :
    (ilookup di name).All fun calls _ => Disciplined True [] calls := by
  intro _
  show Prog.All _ (if (!isdir di) = true then _ else _)
  split
  · intro _
    exact disciplined_one di [] (by simp)
  · intro g _
    exact disciplined_one di [⟨.get di, g⟩] (by simp [Command.Extent])

theorem readdir_disciplined (dir : Inum) :
    (readdir dir).All fun calls _ => Disciplined True [] calls := by
  intro _ g _
  exact disciplined_one dir [⟨.get dir, g⟩] (by simp [Command.Extent])

theorem read_disciplined (inum : Inum) (size off : UInt64) :
    (read inum size off).All fun calls _ => Disciplined True [] calls := by
  intro _ g _
  exact disciplined_one inum [⟨.get inum, g⟩] (by simp [Command.Extent])

theorem setsize_disciplined (inum : Inum) (size : UInt64) :
    (setsize inum size).All fun calls _ => Disciplined True [] calls := by
  intro _ g
  show Prog.All _ (if g.ret ≠ OK then _ else _)
  split
  · intro _
    exact disciplined_one inum [⟨.get inum, g⟩] (by simp [Command.Extent])
  · intro ret _
    exact disciplined_one inum [⟨.get inum, g⟩, ⟨.put inum _, ret⟩]
      (by simp [Command.Extent])

theorem write_disciplined (inum : Inum) (buf : Extent.Buffer) (off : UInt64) :
    (write inum buf off).All fun calls _ => Disciplined True [] calls := by
  intro _ g
  show Prog.All _ (if g.ret ≠ OK then _ else _)
  split
  · intro _
    exact disciplined_one inum [⟨.get inum, g⟩] (by simp [Command.Extent])
  · intro ret _
    exact disciplined_one inum [⟨.get inum, g⟩, ⟨.put inum _, ret⟩]
      (by simp [Command.Extent])

theorem addEntry_disciplined (parent : Inum) (buf : Extent.Buffer) (name : String)
    (entryInum : Inum) :
    (addEntry parent buf name entryInum).All fun calls _ =>
      Disciplined True [parent] calls := by
  intro _ ret
  show Prog.All _ (if ret ≠ OK then _ else _)
  split
  · intro _ _
    exact disciplined_second entryInum parent [⟨.put parent _, ret⟩]
      (by simp [Command.Extent])
  · intro ret' _ _
    exact disciplined_second entryInum parent
      [⟨.put parent _, ret⟩, ⟨.put entryInum [], ret'⟩] (by simp [Command.Extent])

theorem addEntryToFilesystem_disciplined (parent : Inum) (name : String) (isFile : Bool)
    (draws : List Draw) :
    (addEntryToFilesystem parent name isFile draws).All fun calls r =>
      Disciplined (r.isSome = true) [] calls := by
  intro _ g
  show Prog.All _ (if g.ret ≠ OK then _ else _)
  split
  · intro _
    exact ⟨trivial, trivial, List.mem_singleton_self parent, fun _ => List.erase_cons_head ..⟩
  · rw [Prog.all_bind]
    refine (generateUniqueInum_extent isFile draws).mono fun calls r hcalls => ?_
    cases r with
    | none =>
      have hend : Disciplined ((none : Option (Int × Option Inum)).isSome = true) [parent] [] :=
        fun h => by cases h
      exact ⟨trivial, trivial, (disciplined_extent hcalls).mpr hend⟩
    | some entryInum =>
      show Prog.All _ (addEntry parent g.buf name entryInum >>= _)
      rw [Prog.all_bind]
      refine (addEntry_disciplined parent g.buf name entryInum).mono fun calls' ret h => ?_
      refine ⟨trivial, trivial, (disciplined_extent hcalls).mpr ?_⟩
      rw [List.append_nil]
      exact h.mono fun _ => trivial

theorem unlink_disciplined_iff (parent : Inum) (name : String) (inumToRemove finum : Inum) :
    (unlink parent name inumToRemove finum).All fun calls _ =>
      (Disciplined True [] calls ↔
        ¬ (Operation.unlink parent name inumToRemove finum).Blind calls) := by
  intro _ g
  show Prog.All _ (if g.ret ≠ OK then _ else _)
  split
  case isTrue hfail =>
    intro _ _
    refine iff_of_false ?_ (not_not_intro ⟨g, _, rfl, hfail⟩)
    -- Only the directory is held, and a second release of it is one too many.
    rintro ⟨-, -, hfirst, hsecond, -⟩
    have hparent : inumToRemove = parent := List.mem_singleton.mp hfirst
    have hempty : parent ∈ [parent].erase inumToRemove := hsecond
    rw [hparent, List.erase_cons_head] at hempty
    exact absurd hempty List.not_mem_nil
  case isFalse hok =>
    have hblind : ∀ rest, ¬ (Operation.unlink parent name inumToRemove finum).Blind
        (⟨.acquire parent, ()⟩ :: ⟨.get parent, g⟩ :: rest) := by
      rintro rest ⟨g', rest', heq, hret⟩
      cases heq
      exact hok hret
    intro _ ret
    show Prog.All _ (if ret ≠ OK then _ else _)
    split
    · intro _ _
      exact iff_of_true ⟨trivial, trivial, disciplined_second _ parent
        [⟨.put parent _, ret⟩] (by simp [Command.Extent])⟩ (hblind _)
    · intro ret' _ _
      exact iff_of_true ⟨trivial, trivial, disciplined_second _ parent
        [⟨.put parent _, ret⟩, ⟨.remove _, ret'⟩] (by simp [Command.Extent])⟩ (hblind _)

end YfsClient

namespace Operation

/-- For every operation, all arguments and any answers of the extent client: the operation
releases exactly the locks it took if and only if it is not an `unlink` whose first read fails. -/
theorem disciplined_iff_not_blind (op : Operation) {calls : Prog.Calls Command Answer}
    {r : op.Result} (hrun : op.program.Runs calls r) :
    Disciplined (op.Returned r) [] calls ↔ ¬ op.Blind calls := by
  cases op with
  | init => exact iff_of_true (YfsClient.init_disciplined.of_runs hrun) id
  | getfile inum => exact iff_of_true ((YfsClient.getfile_disciplined inum).of_runs hrun) id
  | getdir inum => exact iff_of_true ((YfsClient.getdir_disciplined inum).of_runs hrun) id
  | ilookup di name => exact iff_of_true ((YfsClient.ilookup_disciplined di name).of_runs hrun) id
  | addEntryToFilesystem parent name isFile draws =>
    exact iff_of_true
      ((YfsClient.addEntryToFilesystem_disciplined parent name isFile draws).of_runs hrun) id
  | readdir dir => exact iff_of_true ((YfsClient.readdir_disciplined dir).of_runs hrun) id
  | setsize inum size =>
    exact iff_of_true ((YfsClient.setsize_disciplined inum size).of_runs hrun) id
  | write inum buf off =>
    exact iff_of_true ((YfsClient.write_disciplined inum buf off).of_runs hrun) id
  | read inum size off =>
    exact iff_of_true ((YfsClient.read_disciplined inum size off).of_runs hrun) id
  | unlink parent name inumToRemove finum =>
    exact (YfsClient.unlink_disciplined_iff parent name inumToRemove finum).of_runs hrun

/-- A directory with one entry. -/
def oneEntry : Extent.Buffer := Text.bytes "5 a\n".toList

/-- The calls of an `unlink` that finds the entry. -/
def unlinkCalls : Prog.Calls Command Answer :=
  [⟨.acquire 1, ()⟩, ⟨.get 1, ⟨0, oneEntry⟩⟩, ⟨.acquire 5, ()⟩, ⟨.put 1 [], 0⟩, ⟨.remove 5, 0⟩,
    ⟨.release 5, ()⟩, ⟨.release 1, ()⟩]

theorem disciplined_unlinkCalls :
    (Operation.unlink 1 "a" 9 0).program.Runs unlinkCalls (0 : Int) ∧
      Disciplined True [] unlinkCalls := by
  have htarget : unlinkTarget (Text.text oneEntry) "a" 0 = 5 := by decide +kernel
  have hempty : Text.bytes (unlinkText (Text.text oneEntry) "a") = [] := by decide +kernel
  have hrun : (Operation.unlink 1 "a" 9 0).program.Runs unlinkCalls (0 : Int) := by
    rw [unlinkCalls, ← hempty, ← htarget]
    refine Prog.Runs.call (A := Answer) (c := Command.acquire 1) () ?_
    refine Prog.Runs.call (A := Answer) (c := Command.get 1) (⟨0, oneEntry⟩ : Got) ?_
    refine Prog.Runs.call (A := Answer) (c := Command.acquire _) () ?_
    refine Prog.Runs.call (A := Answer) (c := Command.put 1 _) (0 : Int) ?_
    refine Prog.Runs.call (A := Answer) (c := Command.remove _) (0 : Int) ?_
    refine Prog.Runs.call (A := Answer) (c := Command.release _) () ?_
    refine Prog.Runs.call (A := Answer) (c := Command.release _) () (.done (0 : Int))
  refine ⟨hrun, (disciplined_iff_not_blind (Operation.unlink 1 "a" 9 0) hrun).mpr ?_⟩
  rintro ⟨g, rest, heq, hret⟩
  cases heq
  exact hret rfl

/-- The read of directory 1 fails, and lock 9 is released. -/
def blindCalls : Prog.Calls Command Answer :=
  [⟨.acquire 1, ()⟩, ⟨.get 1, ⟨2, []⟩⟩, ⟨.release 9, ()⟩, ⟨.release 1, ()⟩]

theorem blindCalls_not_disciplined :
    (Operation.unlink 1 "a" 9 0).program.Runs blindCalls (2 : Int) ∧
      ¬ Disciplined True [] blindCalls := by
  refine ⟨?_, ?_⟩
  · refine Prog.Runs.call (A := Answer) (c := Command.acquire 1) () ?_
    refine Prog.Runs.call (A := Answer) (c := Command.get 1) (⟨2, []⟩ : Got) ?_
    refine Prog.Runs.call (A := Answer) (c := Command.release 9) () ?_
    exact Prog.Runs.call (A := Answer) (c := Command.release 1) () (.done (2 : Int))
  · rintro ⟨-, -, hfirst, -⟩
    exact absurd hfirst (by decide)

end Operation
end Yfs
end Frangipani
