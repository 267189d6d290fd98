/-
Directories of the file system.

A directory is an extent whose text has a line for each entry: the number of the
entry and its name.  Entries are appended as text.  They are read back with string
streams, as a number and a word by `ilookup` and as two words by `readdir` and
`unlink`, and `unlink` writes the directory again from what it has read.

The extents are taken as one map from numbers to texts, and each operation as one
step: the locks and the caches below it are verified on their own.  The random
draws of `generate_unique_inum` are arguments.
-/
import Frangipani.Data.Map
import Frangipani.Text.Stream

namespace Frangipani
namespace Yfs

open Text

abbrev Inum := UInt64

/-- The text of each extent. -/
abbrev Extents := Map Inum (List Char)

/-- `yfs_client::dirent`. -/
structure Dirent where
  name : String
  inum : Inum
  deriving DecidableEq, Repr

/-- `yfs_client::xxstatus`, as far as the operations here return it. -/
inductive Status
  | ok
  | noent
  deriving DecidableEq, Repr

def isfile (inum : Inum) : Bool := inum &&& 0x80000000 != 0

def isdir (inum : Inum) : Bool := !isfile inum

/-- `n2i`.  `finum` is what the variable holds before the number is read into it. -/
def n2i (finum : Inum) (n : String) : Inum := ((IStream.ofChars n.toList).getULongLong finum).1

/-! ## Numbers for new entries -/

/-- A draw of the distribution. -/
structure Draw where
  id : UInt32
  low : 1 ≤ id
  high : id ≤ 0x7FFFFFFF

def Draw.five : Draw := ⟨5, by decide, by decide⟩

def Draw.six : Draw := ⟨6, by decide, by decide⟩

/-- The number that a draw stands for. -/
def Draw.inum (d : Draw) (isFile : Bool) : Inum :=
  (if isFile then 0x80000000 ||| d.id else d.id).toUInt64

/-- `generate_unique_inum`: draw until the number is not in use. -/
def generateUniqueInum (ec : Extents) (isFile : Bool) : List Draw → Option Inum
  | [] => none
  | d :: ds =>
    if (ec.find (d.inum isFile)).isSome then generateUniqueInum ec isFile ds
    else some (d.inum isFile)

/-! ## Reading a directory -/

/-- The numbers and words that `while (ist >> file_inum >> file_name)` goes through
when `file_inum` is a number. -/
def numberPairs : Nat → IStream → List (Inum × String)
  | 0, _ => []
  | fuel + 1, s =>
    let (fileInum, s) := s.getULongLong 0
    let (fileName, s) := s.getWord ""
    if s.fail then [] else (fileInum, fileName) :: numberPairs fuel s

/-- The same loop when `file_inum` is a string. -/
def wordPairs : Nat → IStream → List (String × String)
  | 0, _ => []
  | fuel + 1, s =>
    let (fileInum, s) := s.getWord ""
    let (fileName, s) := s.getWord ""
    if s.fail then [] else (fileInum, fileName) :: wordPairs fuel s

/-- The pairs that `readdir` and `unlink` read from a text. -/
def rawEntries (buf : List Char) : List (String × String) :=
  wordPairs (buf.length + 1) (.ofChars buf)

def ilookup (ec : Extents) (di : Inum) (name : String) : Inum :=
  if !isdir di then 0
  else
    match ec.find di with
    | none => 0
    | some buf =>
      (((numberPairs (buf.length + 1) (.ofChars buf)).find? fun e => e.2 == name).map
        Prod.fst).getD 0

def readdir (ec : Extents) (dir : Inum) : Option (List Dirent) :=
  (ec.find dir).map fun buf =>
    (rawEntries buf).map fun e => { name := e.2, inum := n2i 0 e.1 }

/-! ## Changing a directory -/

def entryText (fileInum : List Char) (name : String) : List Char :=
  fileInum ++ [' '] ++ name.toList ++ ['\n']

/-- `add_entry_to_filesystem`.  The result is `none` while no draw is unused. -/
def addEntryToFilesystem (ec : Extents) (parent : Inum) (name : String) (isFile : Bool)
    (draws : List Draw) : Option (Status × Inum × Extents) :=
  match ec.find parent with
  | none => some (.noent, 0, ec)
  | some buf => (generateUniqueInum ec isFile draws).map fun entryInum =>
      (.ok, entryInum,
        (ec.insert parent (buf ++ entryText (decimal64 entryInum) name)).insert entryInum [])

def createfile (ec : Extents) (parent : Inum) (name : String) (draws : List Draw) :
    Option (Status × Inum × Extents) :=
  addEntryToFilesystem ec parent name true draws

def makedir (ec : Extents) (parent : Inum) (name : String) (draws : List Draw) :
    Option (Status × Inum × Extents) :=
  addEntryToFilesystem ec parent name false draws

/-- `unlink`.  The number of the last entry with the name is removed, or, when there
is none, whatever the uninitialised variable of `n2i` holds. -/
def unlink (ec : Extents) (parent : Inum) (name : String) (finum : Inum) : Status × Extents :=
  match ec.find parent with
  | none => (.noent, ec)
  | some buf =>
    let found := (rawEntries buf).filter fun e => e.2 == name
    let kept := (rawEntries buf).filter fun e => e.2 != name
    let inumToRemove := n2i finum ((found.getLast?.map Prod.fst).getD "")
    let ec := ec.insert parent (kept.flatMap fun e => entryText e.1.toList e.2)
    (if (ec.find inumToRemove).isSome then .ok else .noent, ec.erase inumToRemove)

/-- The number that `ilookup` finds in a text. -/
def lookupText (buf : List Char) (name : String) : Inum :=
  (((numberPairs (buf.length + 1) (.ofChars buf)).find? fun e => e.2 == name).map Prod.fst).getD 0

/-- The text that `unlink` writes back: the entries that have another name. -/
def unlinkText (buf : List Char) (name : String) : List Char :=
  ((rawEntries buf).filter fun e => e.2 != name).flatMap fun e => entryText e.1.toList e.2

/-- The number whose extent `unlink` removes. -/
def unlinkTarget (buf : List Char) (name : String) (finum : Inum) : Inum :=
  n2i finum ((((rawEntries buf).filter fun e => e.2 == name).getLast?.map Prod.fst).getD "")

/-! ## What is read back -/

theorem generateUniqueInum_spec {ec : Extents} {isFile : Bool} {draws : List Draw} {inum : Inum}
    (h : generateUniqueInum ec isFile draws = some inum) :
    ec.find inum = none ∧ ∃ d : Draw, d.inum isFile = inum := by
  induction draws with
  | nil => cases h
  | cons d ds ih =>
    rw [generateUniqueInum] at h
    split at h
    · exact ih h
    · rename_i hunused
      cases h
      exact ⟨Option.not_isSome_iff_eq_none.mp hunused, d, rfl⟩

/-- No number that is drawn is 0, which `ilookup` returns for a missing name. -/
theorem Draw.inum_ne_zero (d : Draw) (isFile : Bool) : d.inum isFile ≠ 0 := by
  intro hzero
  have hid : (if isFile then 0x80000000 ||| d.id else d.id) = 0 := by
    have hnat := congrArg UInt64.toNat hzero
    rw [Draw.inum, UInt32.toNat_toUInt64] at hnat
    exact UInt32.toNat_inj.mp hnat
  have hd : d.id = 0 := by
    cases isFile with
    | false => exact hid
    | true => exact (UInt32.or_eq_zero_iff.mp hid).2
  exact absurd (hd ▸ d.low) (by decide)

/-- The lines of pairs of words, as `unlink` writes them. -/
def linesText (ws : List (String × String)) : List Char :=
  ws.flatMap fun e => entryText e.1.toList e.2

theorem linesText_cons (e : String × String) (ws : List (String × String)) :
    linesText (e :: ws) = e.1.toList ++ ' ' :: (e.2.toList ++ '\n' :: linesText ws) := by
  simp only [linesText, entryText, List.flatMap_cons, List.append_assoc, List.cons_append,
    List.nil_append]

theorem length_le_linesText (ws : List (String × String)) :
    ws.length ≤ (linesText ws).length := by
  induction ws with
  | nil => exact Nat.le_refl 0
  | cons e ws ih =>
    rw [linesText_cons, List.length_append, List.length_cons, List.length_cons,
      List.length_append, List.length_cons]
    omega

/-- The text of a directory with the given entries. -/
def dirText (es : List Dirent) : List Char :=
  es.flatMap fun e => entryText (decimal64 e.inum) e.name

theorem dirText_eq_linesText (es : List Dirent) :
    dirText es = linesText (es.map fun e => (String.ofList (decimal64 e.inum), e.name)) := by
  simp only [dirText, linesText, List.flatMap_map, String.toList_ofList]

theorem dirText_cons (e : Dirent) (es : List Dirent) :
    dirText (e :: es) = decimal64 e.inum ++ ' ' :: (e.name.toList ++ '\n' :: dirText es) := by
  rw [dirText_eq_linesText, dirText_eq_linesText, List.map_cons, linesText_cons,
    String.toList_ofList]

theorem dirText_append (es : List Dirent) (e : Dirent) :
    dirText (es ++ [e]) = dirText es ++ entryText (decimal64 e.inum) e.name := by
  simp only [dirText, List.flatMap_append, List.flatMap_singleton]

theorem length_le_dirText (es : List Dirent) : es.length ≤ (dirText es).length := by
  have hle := length_le_linesText (es.map fun e => (String.ofList (decimal64 e.inum), e.name))
  rwa [← dirText_eq_linesText, List.length_map] at hle

theorem getWord_name {name : String} (h : IsWord name) (text : List Char) :
    (IStream.ofChars (' ' :: (name.toList ++ '\n' :: text))).getWord "" =
      (name, .ofChars ('\n' :: text)) := by
  have hword := IStream.getWord_ofChars "" [' '] name.toList '\n' text
    (List.forall_mem_singleton.mpr rfl) h.1 h.noSpace rfl
  rw [List.append_assoc, List.singleton_append, String.ofList_toList] at hword
  exact hword

/-- The loop of `ilookup` goes through the entries.  The induction carries the line
end that the entry before has left. -/
theorem numberPairs_dirText (es : List Dirent) :
    ∀ (fuel : Nat) (blanks : List Char), es.length < fuel → (∀ b ∈ blanks, isSpace b = true) →
      (∀ e ∈ es, IsWord e.name) →
      numberPairs fuel (.ofChars (blanks ++ dirText es)) = es.map fun e => (e.inum, e.name) := by
  induction es with
  | nil =>
    intro fuel blanks hfuel hblanks _
    obtain ⟨fuel, rfl⟩ := Nat.exists_eq_add_one.mpr hfuel
    have hfail := IStream.getWord_of_fail "" (IStream.getULongLong_blank 0 blanks hblanks)
    rw [dirText, List.flatMap_nil, List.append_nil, numberPairs]
    simp only [hfail, if_true, List.map_nil]
  | cons e es ih =>
    intro fuel blanks hfuel hblanks hwords
    obtain ⟨fuel, rfl⟩ := Nat.exists_eq_add_one.mpr (Nat.zero_lt_of_lt hfuel)
    have hnumber : (IStream.ofChars (blanks ++ dirText (e :: es))).getULongLong 0 =
        (e.inum, .ofChars (' ' :: (e.name.toList ++ '\n' :: dirText es))) := by
      rw [dirText_cons, ← List.append_assoc]
      exact IStream.getULongLong_ofChars 0 e.inum blanks _ hblanks (by rintro c ⟨⟩; rfl)
    have hname := getWord_name (hwords e List.mem_cons_self) (dirText es)
    have hrest := ih fuel ['\n'] (Nat.lt_of_succ_lt_succ hfuel) (List.forall_mem_singleton.mpr rfl)
      fun x hx => hwords x (List.mem_cons_of_mem _ hx)
    rw [numberPairs, hnumber]
    simp only [hname, IStream.ofChars_fail, Bool.false_eq_true, if_false, List.map_cons]
    rw [List.singleton_append] at hrest
    rw [hrest]

/-- So does the loop of `readdir` and `unlink`, on lines of any two words. -/
theorem wordPairs_linesText (ws : List (String × String)) :
    ∀ (fuel : Nat) (blanks : List Char), ws.length < fuel → (∀ b ∈ blanks, isSpace b = true) →
      (∀ e ∈ ws, IsWord e.1 ∧ IsWord e.2) →
      wordPairs fuel (.ofChars (blanks ++ linesText ws)) = ws := by
  induction ws with
  | nil =>
    intro fuel blanks hfuel hblanks _
    obtain ⟨fuel, rfl⟩ := Nat.exists_eq_add_one.mpr hfuel
    have hfail := IStream.getWord_of_fail "" (IStream.getWord_blank "" blanks hblanks)
    rw [linesText, List.flatMap_nil, List.append_nil, wordPairs]
    simp only [hfail, if_true]
  | cons e ws ih =>
    intro fuel blanks hfuel hblanks hwords
    obtain ⟨fuel, rfl⟩ := Nat.exists_eq_add_one.mpr (Nat.zero_lt_of_lt hfuel)
    obtain ⟨hfirst, hsecond⟩ := hwords e List.mem_cons_self
    have hinum := IStream.getWord_ofChars "" blanks e.1.toList ' '
      (e.2.toList ++ '\n' :: linesText ws) hblanks hfirst.1 hfirst.noSpace rfl
    rw [List.append_assoc, ← linesText_cons, String.ofList_toList] at hinum
    have hname := getWord_name hsecond (linesText ws)
    have hrest := ih fuel ['\n'] (Nat.lt_of_succ_lt_succ hfuel) (List.forall_mem_singleton.mpr rfl)
      fun x hx => hwords x (List.mem_cons_of_mem _ hx)
    rw [wordPairs, hinum]
    simp only [hname, IStream.ofChars_fail, Bool.false_eq_true, if_false]
    rw [List.singleton_append] at hrest
    rw [hrest]

theorem rawEntries_linesText {ws : List (String × String)}
    (h : ∀ e ∈ ws, IsWord e.1 ∧ IsWord e.2) : rawEntries (linesText ws) = ws :=
  wordPairs_linesText ws _ [] (Nat.lt_succ_of_le (length_le_linesText ws))
    (fun _ hb => absurd hb List.not_mem_nil) h

theorem rawEntries_dirText {es : List Dirent} (h : ∀ e ∈ es, IsWord e.name) :
    rawEntries (dirText es) = es.map fun e => (String.ofList (decimal64 e.inum), e.name) := by
  rw [dirText_eq_linesText, rawEntries_linesText]
  intro w hw
  obtain ⟨e, he, rfl⟩ := List.mem_map.mp hw
  exact ⟨IStream.decimal64_isWord e.inum, h e he⟩

theorem wordPairs_isWord (fuel : Nat) :
    ∀ (s : IStream), ∀ e ∈ wordPairs fuel s, IsWord e.2 := by
  induction fuel with
  | zero => exact fun _ _ he => absurd he List.not_mem_nil
  | succ fuel ih =>
    intro s e he
    rw [wordPairs] at he
    simp only at he
    split at he
    · exact absurd he List.not_mem_nil
    · rename_i hfail
      rcases List.mem_cons.mp he with rfl | he
      · exact IStream.getWord_isWord _ (Bool.eq_false_iff.mpr hfail)
      · exact ih _ e he

theorem n2i_digits (finum : Inum) {n : String} (h : IStream.IsDigits n.toList)
    (hlt : Nat.ofDigitChars 10 n.toList 0 < UInt64.size) :
    n2i finum n = UInt64.ofNat (Nat.ofDigitChars 10 n.toList 0) :=
  IStream.getULongLong_all finum h hlt

theorem n2i_decimal64 (finum inum : Inum) : n2i finum (String.ofList (decimal64 inum)) = inum := by
  have hnumber := IStream.getULongLong_ofChars finum inum [] []
    (fun _ hb => absurd hb List.not_mem_nil) (fun _ hc => by cases hc)
  rw [List.nil_append, List.append_nil] at hnumber
  rw [n2i, String.toList_ofList, hnumber]

/-! ## The operations on a directory of words -/

section

variable {ec : Extents} {dir : Inum} {es : List Dirent}

theorem readdir_dirText (hdir : ec.find dir = some (dirText es)) (h : ∀ e ∈ es, IsWord e.name) :
    readdir ec dir = some es := by
  rw [readdir, hdir, Option.map_some, rawEntries_dirText h, List.map_map]
  refine congrArg some ((List.map_congr_left fun e _ => ?_).trans (List.map_id es))
  show ({ name := e.name, inum := n2i 0 _ } : Dirent) = e
  rw [n2i_decimal64]

theorem lookupText_dirText (h : ∀ e ∈ es, IsWord e.name) (name : String) :
    lookupText (dirText es) name =
      ((es.find? fun e => e.name == name).map Dirent.inum).getD 0 := by
  have hpairs := numberPairs_dirText es ((dirText es).length + 1) []
    (Nat.lt_succ_of_le (length_le_dirText es)) (fun _ hb => absurd hb List.not_mem_nil) h
  rw [List.nil_append] at hpairs
  rw [lookupText, hpairs, List.find?_map, Option.map_map]
  rfl

theorem ilookup_dirText (hisdir : isdir dir = true) (hdir : ec.find dir = some (dirText es))
    (h : ∀ e ∈ es, IsWord e.name) (name : String) :
    ilookup ec dir name = ((es.find? fun e => e.name == name).map Dirent.inum).getD 0 := by
  rw [ilookup, hisdir, hdir]
  exact lookupText_dirText h name

theorem ilookup_eq_zero_iff (hisdir : isdir dir = true) (hdir : ec.find dir = some (dirText es))
    (h : ∀ e ∈ es, IsWord e.name) (hzero : ∀ e ∈ es, e.inum ≠ 0) (name : String) :
    ilookup ec dir name = 0 ↔ name ∉ es.map Dirent.name := by
  rw [ilookup_dirText hisdir hdir h]
  cases hfind : es.find? fun e => e.name == name with
  | none =>
    refine ⟨fun _ hmem => ?_, fun _ => rfl⟩
    obtain ⟨e, he, rfl⟩ := List.mem_map.mp hmem
    exact absurd (List.find?_eq_none.mp hfind e he) (by simp)
  | some e =>
    have hname : e.name = name := by simpa using List.find?_some hfind
    have hmem : e ∈ es := List.mem_of_find?_eq_some hfind
    exact ⟨fun hinum => absurd hinum (hzero e hmem),
      fun hno => absurd (List.mem_map.mpr ⟨e, hmem, hname⟩) hno⟩

theorem unlinkText_dirText (h : ∀ e ∈ es, IsWord e.name) (name : String) :
    unlinkText (dirText es) name = dirText (es.filter fun e => e.name != name) := by
  rw [unlinkText, rawEntries_dirText h, List.filter_map, List.flatMap_map]
  simp only [String.toList_ofList]
  rfl

theorem unlinkTarget_dirText (h : ∀ e ∈ es, IsWord e.name) (name : String) (finum : Inum) :
    unlinkTarget (dirText es) name finum =
      ((es.filter fun e => e.name == name).getLast?.map Dirent.inum).getD (n2i finum "") := by
  rw [unlinkTarget, rawEntries_dirText h, List.filter_map, List.getLast?_map, Option.map_map]
  show n2i finum (Option.getD (Option.map _ (es.filter fun e => e.name == name).getLast?) "") = _
  cases (es.filter fun e => e.name == name).getLast? with
  | none => rfl
  | some e => exact n2i_decimal64 finum e.inum

/-- `unlink` leaves the other entries as they are, and takes the extent of some
number away. -/
theorem unlink_dirText (hdir : ec.find dir = some (dirText es)) (h : ∀ e ∈ es, IsWord e.name)
    (name : String) (finum : Inum) :
    (unlink ec dir name finum).2 =
      (ec.insert dir (dirText (es.filter fun e => e.name != name))).erase
        (((es.filter fun e => e.name == name).getLast?.map Dirent.inum).getD (n2i finum "")) := by
  rw [← unlinkText_dirText h, ← unlinkTarget_dirText h, unlink, hdir]
  rfl

end

end Yfs
end Frangipani
