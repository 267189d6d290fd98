/-
Which names a directory can hold.

One client creates and unlinks entries of one directory, a name only when it is
missing and only when it is there.  The entries that are alive are kept beside the
extents, in the order of their creation.

A name may hold any character but a slash and a zero byte.  The readers of a
directory take it apart at white space, so what they find is what is alive exactly
as long as no name that is created holds any.
-/
import Frangipani.Transition.System
import Frangipani.Yfs.Directory

namespace Frangipani
namespace Yfs

open Text Transition

/-- A file name as the kernel hands it over. -/
structure PosixName where
  text : String
  nonempty : text.toList ≠ []
  noSlash : '/' ∉ text.toList
  noNul : '\x00' ∉ text.toList

inductive DirCall
  | createfile (name : PosixName) (draws : List Draw)
  | makedir (name : PosixName) (draws : List Draw)
  | unlink (name : PosixName) (finum : Inum)

/-- The extents, and the entries of the directory that are alive. -/
structure OneDir where
  ec : Extents
  live : List Dirent

namespace OneDir

/-- `createfile` or `makedir`, issued when the name is missing. -/
def create (dir : Inum) (isFile : Bool) (s : OneDir) (name : PosixName) (draws : List Draw) :
    Option OneDir :=
  if ilookup s.ec dir name.text = 0 then
    (addEntryToFilesystem s.ec dir name.text isFile draws).map fun r =>
      { ec := r.2.2
        live := if r.1 = .ok then s.live ++ [{ name := name.text, inum := r.2.1 }] else s.live }
  else none

/-- `unlink`, issued when the name is there. -/
def unlink (dir : Inum) (s : OneDir) (name : PosixName) (finum : Inum) : Option OneDir :=
  if ilookup s.ec dir name.text ≠ 0 then
    some
      { ec := (Yfs.unlink s.ec dir name.text finum).2
        live := s.live.filter fun e => e.name != name.text }
  else none

def step (dir : Inum) (s : OneDir) : DirCall → Option OneDir
  | .createfile name draws => s.create dir true name draws
  | .makedir name draws => s.create dir false name draws
  | .unlink name finum => s.unlink dir name finum

/-- A directory that is there and empty. -/
def start (ec : Extents) : OneDir := { ec := ec, live := [] }

def system (dir : Inum) : System OneDir DirCall where
  init s := s.ec.find dir = some [] ∧ s.live = []
  step := step dir

/-- `readdir` finds the entries that are alive, and `ilookup` each of them. -/
structure Represents (dir : Inum) (s : OneDir) : Prop where
  readdir : readdir s.ec dir = some s.live
  ilookup : ∀ name, ilookup s.ec dir name =
    ((s.live.find? fun e => e.name == name).map Dirent.inum).getD 0

/-- A name that is created holds no white space. -/
def NoBlanks (_ : OneDir) : DirCall → Prop
  | .createfile name _ => IsWord name.text
  | .makedir name _ => IsWord name.text
  | .unlink _ _ => True

instance (s : OneDir) : DecidablePred s.NoBlanks
  | .createfile name _ => inferInstanceAs (Decidable (IsWord name.text))
  | .makedir name _ => inferInstanceAs (Decidable (IsWord name.text))
  | .unlink _ _ => inferInstanceAs (Decidable True)

/-! ## The text holds the entries -/

structure Inv (dir : Inum) (s : OneDir) : Prop where
  text : s.ec.find dir = some (dirText s.live)
  words : ∀ e ∈ s.live, IsWord e.name
  other : ∀ e ∈ s.live, e.inum ≠ dir

variable {dir : Inum}

theorem Inv.represents {s : OneDir} (hdir : isdir dir = true) (h : s.Inv dir) :
    s.Represents dir where
  readdir := readdir_dirText h.text h.words
  ilookup := ilookup_dirText hdir h.text h.words

theorem inv_start {ec : Extents} (h : ec.find dir = some []) : (start ec).Inv dir where
  text := h
  words := fun _ he => absurd he List.not_mem_nil
  other := fun _ he => absurd he List.not_mem_nil

theorem create_eq_some {s t : OneDir} {isFile : Bool} {name : PosixName} {draws : List Draw}
    {buf : List Char} (hbuf : s.ec.find dir = some buf)
    (hs : s.create dir isFile name draws = some t) :
    ∃ inum, inum ≠ dir ∧ t.live = s.live ++ [{ name := name.text, inum := inum }] ∧
      t.ec.find dir = some (buf ++ entryText (decimal64 inum) name.text) := by
  obtain ⟨-, hadd⟩ : _ ∧ (addEntryToFilesystem s.ec dir name.text isFile draws).map _ = some t := by
    simpa only [create, Option.ite_none_right_eq_some] using hs
  rw [addEntryToFilesystem, hbuf] at hadd
  simp only [Option.map_map] at hadd
  obtain ⟨inum, hgen, rfl⟩ := Option.map_eq_some_iff.mp hadd
  have hne : inum ≠ dir := by
    rintro rfl
    rw [(generateUniqueInum_spec hgen).1] at hbuf
    cases hbuf
  refine ⟨inum, hne, rfl, ?_⟩
  show ((s.ec.insert dir _).insert inum []).find dir = _
  rw [Map.find_insert_ne _ _ hne.symm, Map.find_insert_self]

theorem Inv.create {s t : OneDir} (h : s.Inv dir) {isFile : Bool} {name : PosixName}
    {draws : List Draw} (hword : IsWord name.text) (hs : s.create dir isFile name draws = some t) :
    t.Inv dir := by
  obtain ⟨inum, hne, hlive, htext⟩ := create_eq_some h.text hs
  refine ⟨?_, ?_, ?_⟩
  · rw [htext, hlive, dirText_append]
  · rw [hlive]
    exact List.forall_mem_append.mpr ⟨h.words, List.forall_mem_singleton.mpr hword⟩
  · rw [hlive]
    exact List.forall_mem_append.mpr ⟨h.other, List.forall_mem_singleton.mpr hne⟩

/-- The entry that is looked up for `unlink` is another extent than the
directory. -/
theorem Inv.unlink {s t : OneDir} (hdir : isdir dir = true) (h : s.Inv dir) {name : PosixName}
    {finum : Inum} (hs : s.unlink dir name finum = some t) : t.Inv dir := by
  obtain ⟨hfound, rfl⟩ : ilookup s.ec dir name.text ≠ 0 ∧ _ = t := by
    simpa only [OneDir.unlink, Option.ite_none_right_eq_some, Option.some.injEq] using hs
  refine ⟨?_, fun e he => h.words e (List.mem_filter.mp he).1,
    fun e he => h.other e (List.mem_filter.mp he).1⟩
  show (Yfs.unlink s.ec dir name.text finum).2.find dir = _
  rw [unlink_dirText h.text h.words]
  cases hlast : (s.live.filter fun e => e.name == name.text).getLast? with
  | none =>
    rw [List.getLast?_eq_none_iff, List.filter_eq_nil_iff] at hlast
    have hmissing : s.live.find? (fun e => e.name == name.text) = none :=
      List.find?_eq_none.mpr hlast
    rw [ilookup_dirText hdir h.text h.words, hmissing] at hfound
    exact absurd rfl hfound
  | some e =>
    have hmem : e ∈ s.live := (List.mem_filter.mp (List.mem_of_getLast? hlast)).1
    rw [Option.map_some, Option.getD_some, Map.find_erase_ne _ (h.other e hmem).symm,
      Map.find_insert_self]

theorem Inv.step {s t : OneDir} (hdir : isdir dir = true) (h : s.Inv dir) {c : DirCall}
    (hok : s.NoBlanks c) (hs : (system dir).step s c = some t) : t.Inv dir := by
  cases c with
  | createfile name draws => exact h.create hok hs
  | makedir name draws => exact h.create hok hs
  | unlink name finum => exact h.unlink hdir hs

/-- A name with white space in it is never read back. -/
theorem Inv.not_represents_create {s t : OneDir} (h : s.Inv dir) {isFile : Bool}
    {name : PosixName} {draws : List Draw} (hblank : ¬ IsWord name.text)
    (hs : s.create dir isFile name draws = some t) : ¬ t.Represents dir := by
  obtain ⟨inum, -, hlive, -⟩ := create_eq_some h.text hs
  intro hrep
  obtain ⟨buf, -, hread⟩ := Option.map_eq_some_iff.mp hrep.readdir
  have hmem : { name := name.text, inum := inum } ∈ t.live := by
    rw [hlive]
    exact List.mem_append_right _ (List.mem_singleton.mpr rfl)
  rw [← hread] at hmem
  obtain ⟨e, he, heq⟩ := List.mem_map.mp hmem
  have hword := wordPairs_isWord _ _ e he
  rw [(Dirent.mk.inj heq).1] at hword
  exact hblank hword

theorem Inv.not_represents {s t : OneDir} (h : s.Inv dir) {c : DirCall} (hbad : ¬ s.NoBlanks c)
    (hs : (system dir).step s c = some t) : ¬ t.Represents dir := by
  cases c with
  | createfile name draws => exact h.not_represents_create hbad hs
  | makedir name draws => exact h.not_represents_create hbad hs
  | unlink name finum => exact absurd trivial hbad

/-- In every sequence of creations and unlinks on a directory that is empty at
first, `readdir` and `ilookup` find exactly the entries that are alive after each
call, if and only if no name that is created holds white space. -/
theorem represents_iff (dir : Inum) (hdir : isdir dir = true) (ec : Extents)
    (hempty : ec.find dir = some []) (calls : List DirCall) :
    (system dir).AlongRun (Represents dir) (start ec) calls ↔
      (system dir).StepsMeet NoBlanks (start ec) calls :=
  System.alongRun_iff_stepsMeet (fun _ h => h.represents hdir)
    (fun _ _ _ h hok hs => h.step hdir hok hs) (fun _ _ _ h hbad hs => h.not_represents hbad hs)
    (inv_start hempty)

/-- A file system with nothing but an empty root directory. -/
def emptyRoot : Extents := Map.empty.insert 1 []

theorem represents_emptyRoot :
    (system 1).AlongRun (Represents 1) (start emptyRoot)
      [.createfile ⟨"a", by decide, by decide, by decide⟩ [.five],
        .makedir ⟨"b", by decide, by decide, by decide⟩ [.six],
        .unlink ⟨"a", by decide, by decide, by decide⟩ 0] :=
  (represents_iff 1 (by decide) emptyRoot rfl _).mpr (by decide +kernel)

/-- A file is created whose name holds a blank. -/
def blankName : List DirCall :=
  [.createfile ⟨"a b", by decide, by decide, by decide⟩ [.five]]

theorem blankName_not_represents :
    ((system 1).run (start emptyRoot) blankName).map (fun s => (s.live, readdir s.ec 1)) =
      some ([⟨"a b", 0x80000005⟩], some [⟨"a", 0x80000005⟩]) ∧
    ((system 1).run (start emptyRoot) blankName).map (fun s => ilookup s.ec 1 "a b") = some 0 ∧
    ¬ (system 1).AlongRun (Represents 1) (start emptyRoot) blankName := by
  have hlive : ((system 1).run (start emptyRoot) blankName).map
      (fun s => (s.live, readdir s.ec 1)) =
      some ([⟨"a b", 0x80000005⟩], some [⟨"a", 0x80000005⟩]) := by decide +kernel
  refine ⟨hlive, by decide +kernel, ?_⟩
  intro h
  obtain ⟨s, hs⟩ : ∃ s, (system 1).run (start emptyRoot) blankName = some s :=
    Option.isSome_iff_exists.mp (by decide +kernel)
  rw [hs] at hlive
  obtain ⟨hentries, hread⟩ := Prod.mk.inj (Option.some.inj hlive)
  rw [(h.run hs).readdir, hentries] at hread
  exact absurd hread (by decide)

end OneDir
end Yfs
end Frangipani
