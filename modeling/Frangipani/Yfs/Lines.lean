/-
`unlink` on any directory of lines.

A line of a directory is a decimal number, which may have leading zeros, and a name.  A
name may stand on several lines.  The call takes a directory apart into words and writes
it again, so the lines with another name stay as they are only because every line is
printed as it was read.

The lines with the name are all left out, and the number on the last of them is the one
whose extent is removed.
-/
import Frangipani.Yfs.Operations

namespace Frangipani
namespace Yfs

open Extent Text Program

/-- A line of a directory: a number that fits into an inum, and a name. -/
structure Line where
  inum : String
  name : String
  digits : IStream.IsDigits inum.toList
  lt : Nat.ofDigitChars 10 inum.toList 0 < UInt64.size
  isWord : IsWord name

namespace Line

def text (l : Line) : List Char := entryText l.inum.toList l.name

def number (l : Line) : Inum := UInt64.ofNat (Nat.ofDigitChars 10 l.inum.toList 0)

def words (l : Line) : String × String := (l.inum, l.name)

theorem flatMap_text (ls : List Line) : ls.flatMap text = linesText (ls.map words) := by
  rw [linesText, List.flatMap_map]
  rfl

theorem rawEntries_text (ls : List Line) : rawEntries (ls.flatMap text) = ls.map words := by
  rw [flatMap_text, rawEntries_linesText]
  intro w hw
  obtain ⟨l, -, rfl⟩ := List.mem_map.mp hw
  refine ⟨?_, l.isWord⟩
  have hword := l.digits.isWord
  rwa [String.ofList_toList] at hword

theorem n2i_inum (l : Line) (finum : Inum) : n2i finum l.inum = l.number :=
  n2i_digits finum l.digits l.lt

end Line

theorem unlinkText_lines (ls : List Line) (name : String) :
    unlinkText (ls.flatMap Line.text) name =
      (ls.filter fun l => l.name != name).flatMap Line.text := by
  rw [Line.flatMap_text (ls.filter _), unlinkText, Line.rawEntries_text, List.filter_map]
  rfl

theorem unlinkTarget_lines {ls : List Line} {name : String} (h : ∃ l ∈ ls, l.name = name)
    (finum : Inum) : ∃ l ∈ ls, l.name = name ∧
      unlinkTarget (ls.flatMap Line.text) name finum = l.number := by
  obtain ⟨k, hk, hkname⟩ := h
  have hmem : k ∈ ls.filter fun l => l.name == name :=
    List.mem_filter.mpr ⟨hk, beq_iff_eq.mpr hkname⟩
  obtain ⟨l, hl⟩ := Option.isSome_iff_exists.mp
    (List.getLast?_isSome.mpr (List.ne_nil_of_mem hmem))
  obtain ⟨hls, hname⟩ := List.mem_filter.mp (List.mem_of_getLast? hl)
  refine ⟨l, hls, beq_iff_eq.mp hname, ?_⟩
  rw [unlinkTarget, Line.rawEntries_text, List.filter_map, List.getLast?_map]
  show n2i finum ((((ls.filter fun l => l.name == name).getLast?.map Line.words).map
    Prod.fst).getD "") = l.number
  rw [hl]
  exact l.n2i_inum finum

/-! ## The calls of `unlink` -/

/-- The extent, the contents and the answer of a `put`. -/
def putOf : (c : Command) × Answer c → Option (Inum × Buffer × Int)
  | ⟨.put eid buf, ret⟩ => some (eid, buf, ret)
  | _ => none

def removeOf : (c : Command) × Answer c → Option Inum
  | ⟨.remove eid, _⟩ => some eid
  | _ => none

/-- What the calls of `unlink` write and remove when the directory was read. -/
theorem unlink_calls (parent : Inum) (name : String) (inumToRemove finum : Inum) :
    (YfsClient.unlink parent name inumToRemove finum).All fun calls _ =>
      ∀ g : Got, ⟨.get parent, g⟩ ∈ calls → g.ret = YfsClient.OK →
        ∃ ret, calls.filterMap putOf =
            [(parent, bytes (unlinkText (text g.buf) name), ret)] ∧
          calls.filterMap removeOf =
            if ret = YfsClient.OK then [unlinkTarget (text g.buf) name finum] else [] := by
  intro _ g
  show Prog.All _ (if g.ret ≠ YfsClient.OK then _ else _)
  split
  case isTrue hfail =>
    intro _ _ g' hget hok
    obtain rfl : g' = g := by simpa using hget
    exact absurd hok hfail
  case isFalse hok =>
    intro _ ret
    show Prog.All _ (if ret ≠ YfsClient.OK then _ else _)
    split
    case isTrue hret =>
      intro _ _ g' hget _
      obtain rfl : g' = g := by simpa using hget
      exact ⟨ret, rfl, (if_neg hret).symm⟩
    case isFalse hret =>
      intro _ _ _ g' hget _
      obtain rfl : g' = g := by simpa using hget
      exact ⟨ret, rfl, (if_pos (not_not.mp hret)).symm⟩

/-- The directory that was read is a list of lines, and some have the name.  `unlink` puts
back the text of the other lines, once, and removes the extent of a number that stood with
the name if the put succeeds. -/
theorem unlink_puts_other_lines (parent : Inum) (name : String) (inumToRemove finum : Inum)
    {calls : Prog.Calls Command Answer} {ret : Int}
    (hrun : (YfsClient.unlink parent name inumToRemove finum).Runs calls ret) {g : Got}
    (hget : ⟨.get parent, g⟩ ∈ calls) (hok : g.ret = YfsClient.OK) (ls : List Line)
    (htext : text g.buf = ls.flatMap Line.text) (hname : ∃ l ∈ ls, l.name = name) :
    ∃ buf r, calls.filterMap putOf = [(parent, buf, r)] ∧
      text buf = (ls.filter fun l => l.name != name).flatMap Line.text ∧
      ∃ l ∈ ls, l.name = name ∧
        calls.filterMap removeOf = if r = YfsClient.OK then [l.number] else [] := by
  obtain ⟨r, hput, hremove⟩ := (unlink_calls parent name inumToRemove finum).of_runs hrun g hget hok
  obtain ⟨l, hl, hlname, htarget⟩ := unlinkTarget_lines hname finum
  rw [htext, htarget] at hremove
  refine ⟨_, r, hput, ?_, l, hl, hlname, hremove⟩
  rw [htext, unlinkText_lines]
  exact text_bytes_filter htext _

/-- Two lines for one name, the first with leading zeros. -/
def threeLines : List Line :=
  [⟨"007", "a", by decide, by decide, by decide⟩, ⟨"05", "b", by decide, by decide, by decide⟩,
    ⟨"9", "a", by decide, by decide, by decide⟩]

def threeLinesBuf : Buffer := bytes "007 a\n05 b\n9 a\n".toList

def threeLinesCalls : Prog.Calls Command Answer :=
  [⟨.acquire 1, ()⟩, ⟨.get 1, ⟨0, threeLinesBuf⟩⟩, ⟨.acquire 9, ()⟩,
    ⟨.put 1 (bytes "05 b\n".toList), 0⟩, ⟨.remove 9, 0⟩, ⟨.release 9, ()⟩, ⟨.release 1, ()⟩]

theorem unlink_puts_other_lines_three :
    (YfsClient.unlink 1 "a" 0 0).Runs threeLinesCalls (0 : Int) ∧
      ∃ buf r, threeLinesCalls.filterMap putOf = [(1, buf, r)] ∧
        text buf = (threeLines.filter fun l => l.name != "a").flatMap Line.text ∧
        ∃ l ∈ threeLines, l.name = "a" ∧
          threeLinesCalls.filterMap removeOf = if r = YfsClient.OK then [l.number] else [] := by
  have htarget : unlinkTarget (text threeLinesBuf) "a" 0 = 9 := by decide +kernel
  have hput : bytes (unlinkText (text threeLinesBuf) "a") = bytes "05 b\n".toList := by
    decide +kernel
  have hrun : (YfsClient.unlink 1 "a" 0 0).Runs threeLinesCalls (0 : Int) := by
    rw [threeLinesCalls, ← hput, ← htarget]
    refine Prog.Runs.call (A := Answer) (c := Command.acquire 1) () ?_
    refine Prog.Runs.call (A := Answer) (c := Command.get 1) (⟨0, threeLinesBuf⟩ : Got) ?_
    refine Prog.Runs.call (A := Answer) (c := Command.acquire _) () ?_
    refine Prog.Runs.call (A := Answer) (c := Command.put 1 _) (0 : Int) ?_
    refine Prog.Runs.call (A := Answer) (c := Command.remove _) (0 : Int) ?_
    refine Prog.Runs.call (A := Answer) (c := Command.release _) () ?_
    exact Prog.Runs.call (A := Answer) (c := Command.release _) () (.done (0 : Int))
  refine ⟨hrun, unlink_puts_other_lines 1 "a" 0 0 hrun (g := ⟨0, threeLinesBuf⟩) ?_ rfl threeLines
    (by decide +kernel) ⟨_, List.mem_cons_self, rfl⟩⟩
  exact List.mem_cons_of_mem _ List.mem_cons_self

end Yfs
end Frangipani
