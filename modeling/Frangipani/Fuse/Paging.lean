/-
Reading a directory page by page.

The kernel asks for a number of bytes from an offset on.  `readdir` writes the whole
directory into a buffer each time and sends the part that is asked for, which may end in
the middle of an entry.  The kernel takes the entries that are complete and goes on at the
offset that stands in the last of them.  It is done when there is no complete entry.

Neither libfuse, which writes the entries, nor the kernel is part of this code.  A `Reader`
is what is assumed of the two together: an entry that libfuse has written is taken when all
of it is there, and not at all otherwise.  `Reading` is the kernel's loop.  With any such
reader it gets every entry once, in the order of the directory, if each entry fits into
what it asks for.
-/
import Mathlib.Data.List.Chain
import Frangipani.Fuse.Handlers

namespace Frangipani
namespace Fuse

open Extent Program Text Yfs

/-! ## Entries -/

/-- An entry as the kernel takes it from a reply. -/
structure Listed where
  ino : Nat
  off : Nat
  name : Buffer
  deriving DecidableEq, Repr

/-- How the kernel takes the entry at the front of a buffer, with its length.  Of an entry that
libfuse has written it gets all, as far as the numbers fit into their fields, or nothing. -/
structure Reader (lib : Libfuse) where
  read : Buffer → Option (Listed × Nat)
  size_pos : ∀ namelen, 0 < lib.direntSize namelen
  read_nil : read [] = none
  read_take : ∀ (name : List Char) (ino : Inum) (off : Nat) (rest : Buffer) (m : Nat),
    name.length < UInt32.size → off < UInt64.size →
    read ((lib.addDirent name ino off ++ rest).take m) =
      if lib.direntSize name.length ≤ m then
        some ({ ino := ino.toNat, off := off, name := bytes name }, lib.direntSize name.length)
      else none

/-- The complete entries at the front of a buffer. -/
def Reader.readFrom {lib : Libfuse} (R : Reader lib) : Nat → Buffer → List Listed
  | 0, _ => []
  | n + 1, b =>
    match R.read b with
    | none => []
    | some (e, len) => e :: R.readFrom n (b.drop len)

def Reader.readAll {lib : Libfuse} (R : Reader lib) (b : Buffer) : List Listed :=
  R.readFrom b.length b

/-! ## The buffer -/

variable {lib : Libfuse}

/-- The name as a C string. -/
def cname (e : Dirent) : List Char := e.name.toList.takeWhile (· != '\x00')

/-- The bytes of a directory whose entries begin at `base`. -/
def listingFrom (lib : Libfuse) (base : Nat) : List Dirent → Buffer
  | [] => []
  | e :: es =>
    lib.addDirent (cname e) e.inum (base + lib.direntSize (cname e).length) ++
      listingFrom lib (base + lib.direntSize (cname e).length) es

/-- What the kernel is to take from them. -/
def entriesFrom (lib : Libfuse) (base : Nat) : List Dirent → List Listed
  | [] => []
  | e :: es =>
    { ino := e.inum.toNat, off := base + lib.direntSize (cname e).length
      name := bytes (cname e) } ::
      entriesFrom lib (base + lib.direntSize (cname e).length) es

theorem foldl_dirbufAdd (es : List Dirent) (b : Buffer) :
    es.foldl (dirbufAdd lib) b = b ++ listingFrom lib b.length es := by
  induction es generalizing b with
  | nil => exact (List.append_nil b).symm
  | cons e es ih =>
    rw [List.foldl_cons, ih, dirbufAdd, listingFrom, List.length_append, lib.length_addDirent,
      List.append_assoc]
    rfl

theorem listingFrom_append (base : Nat) (es es' : List Dirent) :
    listingFrom lib base (es ++ es') =
      listingFrom lib base es ++ listingFrom lib (base + (listingFrom lib base es).length) es' := by
  induction es generalizing base with
  | nil => rfl
  | cons e es ih =>
    rw [List.cons_append, listingFrom, ih, listingFrom, List.length_append, lib.length_addDirent,
      Nat.add_assoc, List.append_assoc]

theorem length_listing_append (es es' : List Dirent) :
    (listingFrom lib 0 (es ++ es')).length = (listingFrom lib 0 es).length +
      (listingFrom lib (listingFrom lib 0 es).length es').length := by
  rw [listingFrom_append, List.length_append, Nat.zero_add]

theorem entriesFrom_append (base : Nat) (es es' : List Dirent) :
    entriesFrom lib base (es ++ es') =
      entriesFrom lib base es ++ entriesFrom lib (base + (listingFrom lib base es).length) es' := by
  induction es generalizing base with
  | nil => rfl
  | cons e es ih =>
    rw [List.cons_append, entriesFrom, ih, entriesFrom, listingFrom, List.length_append,
      lib.length_addDirent, Nat.add_assoc, List.cons_append]

theorem entriesFrom_eq_nil {base : Nat} {es : List Dirent} (h : entriesFrom lib base es = []) :
    es = [] := by
  cases es with
  | nil => rfl
  | cons _ _ => cases h

theorem getLast_off {base : Nat} {es : List Dirent} {l : List Listed}
    (hl : l = entriesFrom lib base es) {h : l ≠ []} :
    (l.getLast h).off = base + (listingFrom lib base es).length := by
  induction es generalizing base l with
  | nil => exact absurd hl h
  | cons e es ih =>
    subst hl
    rw [listingFrom, List.length_append, lib.length_addDirent, ← Nat.add_assoc]
    by_cases hes : entriesFrom lib (base + lib.direntSize (cname e).length) es = []
    · obtain rfl := entriesFrom_eq_nil hes
      rfl
    · rw [← ih rfl (h := hes)]
      exact congrArg Listed.off (List.getLast_cons hes)

/-- The part of a directory that is complete in the first `m` bytes. -/
theorem Reader.readFrom_take (R : Reader lib) {es : List Dirent}
    (hshort : ∀ e ∈ es, (cname e).length < UInt32.size) {base : Nat}
    (hlen : base + (listingFrom lib base es).length < UInt64.size) {m n : Nat}
    (hn : ((listingFrom lib base es).take m).length ≤ n) :
    ∃ es₁ es₂, es = es₁ ++ es₂ ∧
      R.readFrom n ((listingFrom lib base es).take m) = entriesFrom lib base es₁ ∧
      (es₁ = [] → ∀ e ∈ es.head?, m < lib.direntSize (cname e).length) := by
  induction es generalizing base m n with
  | nil =>
    refine ⟨[], [], rfl, ?_, fun _ e he => by cases he⟩
    cases n with
    | zero => rfl
    | succ n => rw [listingFrom, List.take_nil, Reader.readFrom, R.read_nil, entriesFrom]
  | cons e es ih =>
    have hsize := R.size_pos (cname e).length
    rw [listingFrom, List.length_append, lib.length_addDirent] at hlen
    have hoff : base + lib.direntSize (cname e).length < UInt64.size := by omega
    have hread := R.read_take (cname e) e.inum _
      (listingFrom lib (base + lib.direntSize (cname e).length) es) m
      (hshort e (List.mem_cons_self ..)) hoff
    by_cases hm : lib.direntSize (cname e).length ≤ m
    · rw [if_pos hm] at hread
      obtain ⟨k, rfl⟩ := Nat.exists_eq_add_of_le hm
      rw [listingFrom, List.length_take, List.length_append, lib.length_addDirent] at hn
      obtain ⟨n, rfl⟩ := Nat.exists_eq_succ_of_ne_zero (show n ≠ 0 by omega)
      rw [← Nat.add_assoc] at hlen
      obtain ⟨es₁, es₂, rfl, hes, -⟩ := ih (fun e he => hshort e (List.mem_cons_of_mem _ he)) hlen
        (m := k) (n := n) (by rw [List.length_take]; omega)
      refine ⟨e :: es₁, es₂, rfl, ?_, fun h => by cases h⟩
      rw [listingFrom, Reader.readFrom, hread, entriesFrom, ← hes]
      show _ :: R.readFrom n _ = _
      rw [List.drop_take, Nat.add_sub_cancel_left, List.drop_left' (lib.length_addDirent ..)]
    · rw [if_neg hm] at hread
      refine ⟨[], e :: es, rfl, ?_, fun _ e' he' => ?_⟩
      · cases n with
        | zero => rfl
        | succ n => rw [listingFrom, Reader.readFrom, hread]; rfl
      · obtain rfl : e = e' := Option.some.inj he'
        omega

/-! ## The loop -/

/-- The bytes that reach the kernel. -/
def Reply.sent : Reply → Buffer
  | .buf mem size => mem.take size.toNat
  | _ => []

/-- The answer to a request, when the directory has these entries. -/
def Page (lib : Libfuse) (ino : Inum) (size off : UInt64) (es : List Dirent) (b : Buffer) : Prop :=
  ∃ ret r, (fuseserverReaddir lib ino size off).Runs
    [⟨.yfs (.readdir ino), ((ret, es) : Int × List Dirent)⟩, ⟨.reply r, ()⟩] () ∧ r.sent = b

/-- What the kernel takes from an offset on, through the directories that its requests find.  Each
request goes on at the offset in the last entry taken. -/
inductive Reading (R : Reader lib) (ino : Inum) (size : UInt64) :
    UInt64 → List (List Dirent) → List Listed → Prop
  | done {off : UInt64} {es : List Dirent} {b : Buffer} (hpage : Page lib ino size off es b)
      (hb : R.readAll b = []) : Reading R ino size off [es] []
  | more {off : UInt64} {es : List Dirent} {b : Buffer} {views : List (List Dirent)}
      {got : List Listed} (hpage : Page lib ino size off es b) (hb : R.readAll b ≠ [])
      (hrest : Reading R ino size (.ofNat ((R.readAll b).getLast hb).off) views got) :
      Reading R ino size off (es :: views) (R.readAll b ++ got)

/-- Each entry fits into one answer, and the numbers into their fields. -/
structure Readable (lib : Libfuse) (size : UInt64) (es : List Dirent) : Prop where
  fits : ∀ e ∈ es, lib.direntSize (cname e).length ≤ size.toNat
  short : ∀ e ∈ es, (cname e).length < UInt32.size
  length : (listingFrom lib 0 es).length < UInt64.size

theorem replyBufLimited_sent {buf : Buffer} (hlen : buf.length < UInt64.size)
    (off size : UInt64) :
    ∃ r, replyBufLimited buf off size = reply r ∧
      r.sent = (buf.drop off.toNat).take size.toNat := by
  have hbuf : (UInt64.ofNat buf.length).toNat = buf.length := UInt64.toNat_ofNat_of_lt' hlen
  by_cases hoff : off < UInt64.ofNat buf.length
  · refine ⟨_, if_pos hoff, ?_⟩
    have hsub := UInt64.toNat_sub_of_le _ _ (UInt64.le_of_lt hoff)
    by_cases hsize : UInt64.ofNat buf.length - off < size
    · rw [if_pos hsize]
      have hlt := UInt64.lt_iff_toNat_lt.mp hsize
      show (buf.drop off.toNat).take (UInt64.ofNat buf.length - off).toNat = _
      rw [List.take_of_length_le (by rw [List.length_drop]; omega),
        List.take_of_length_le (by rw [List.length_drop]; omega)]
    · rw [if_neg hsize]
      rfl
  · refine ⟨_, if_neg hoff, ?_⟩
    have hle := mt UInt64.lt_iff_toNat_lt.mpr hoff
    rw [List.drop_eq_nil_of_le (by omega), List.take_nil]
    rfl

/-- A request is answered with what there is from the offset on, as far as it fits. -/
theorem page_iff {ino : Inum} {size off : UInt64} {es : List Dirent} {b : Buffer}
    (hino : isdir ino = true) (hlen : (listingFrom lib 0 es).length < UInt64.size) :
    Page lib ino size off es b ↔ b = ((listingFrom lib 0 es).drop off.toNat).take size.toNat := by
  have hbuf : es.foldl (dirbufAdd lib) [] = listingFrom lib 0 es := foldl_dirbufAdd es []
  have hrun : fuseserverReaddir lib ino size off =
      .call (.yfs (.readdir ino)) fun r =>
        replyBufLimited (r.2.foldl (dirbufAdd lib) []) off size := by
    rw [fuseserverReaddir, if_neg (by simp [hino])]
    rfl
  obtain ⟨r, hr, hsent⟩ := replyBufLimited_sent hlen off size
  rw [← hsent]
  constructor
  · rintro ⟨ret, r', h, rfl⟩
    rw [hrun] at h
    cases h with
    | call _ h =>
      replace h : (replyBufLimited (es.foldl (dirbufAdd lib) []) off size).Runs _ _ := h
      rw [hbuf, hr] at h
      cases h with
      | call _ _ => rfl
  · rintro rfl
    refine ⟨0, r, ?_, rfl⟩
    rw [hrun]
    refine .call (A := Answer) (c := .yfs (.readdir ino)) ((0, es) : Int × List Dirent) ?_
    show (replyBufLimited (es.foldl (dirbufAdd lib) []) off size).Runs _ _
    rw [hbuf, hr]
    exact .call (A := Answer) (c := .reply r) () (.done ())

instance (size : UInt64) (es : List Dirent) : Decidable (Readable lib size es) :=
  decidable_of_iff ((∀ e ∈ es, lib.direntSize (cname e).length ≤ size.toNat) ∧
      (∀ e ∈ es, (cname e).length < UInt32.size) ∧ (listingFrom lib 0 es).length < UInt64.size)
    ⟨fun h => ⟨h.1, h.2.1, h.2.2⟩, fun h => ⟨h.fits, h.short, h.length⟩⟩

/-- A request at an entry gets this entry and those after it that fit. -/
theorem Readable.page (R : Reader lib) {ino : Inum} {size : UInt64} {es₁ es₂ : List Dirent}
    (h : Readable lib size (es₁ ++ es₂)) (hino : isdir ino = true) :
    ∃ es₃ es₄, es₂ = es₃ ++ es₄ ∧ (es₃ = [] → es₂ = []) ∧
      ∃ b, R.readAll b = entriesFrom lib (listingFrom lib 0 es₁).length es₃ ∧
        ∀ b', Page lib ino size (.ofNat (listingFrom lib 0 es₁).length) (es₁ ++ es₂) b' ↔
          b' = b := by
  have hlen := h.length
  rw [length_listing_append] at hlen
  obtain ⟨es₃, es₄, heq, hread, hfirst⟩ := R.readFrom_take (m := size.toNat)
    (fun e he => h.short e (List.mem_append_right _ he)) hlen (Nat.le_refl _)
  refine ⟨es₃, es₄, heq, fun hnil => ?_, _, hread, fun b' => ?_⟩
  · cases es₂ with
    | nil => rfl
    | cons e es =>
      have hsize := hfirst hnil e rfl
      have hfits := h.fits e (List.mem_append_right _ (List.mem_cons_self ..))
      omega
  · rw [page_iff hino h.length, UInt64.toNat_ofNat_of_lt' (by omega), listingFrom_append,
      List.drop_left, Nat.zero_add]

/-! ## What it gets -/

theorem Reading.entries_eq {R : Reader lib} {ino : Inum} (hino : isdir ino = true)
    {size off : UInt64} {views : List (List Dirent)} {got : List Listed}
    (hread : Reading R ino size off views got)
    (hgrow : views.IsChain (· <+: ·)) (hviews : ∀ es ∈ views, Readable lib size es)
    {es₁ : List Dirent} (hoff : off = .ofNat (listingFrom lib 0 es₁).length)
    (hes₁ : ∀ es ∈ views.head?, es₁ <+: es) :
    ∃ es, views.getLast? = some es ∧ entriesFrom lib 0 es₁ ++ got = entriesFrom lib 0 es := by
  induction hread generalizing es₁ with
  | @done off es b hpage hb =>
    obtain ⟨es₂, rfl⟩ := hes₁ es rfl
    obtain ⟨es₃, es₄, rfl, hnil, b', hread, hb'⟩ := (hviews _ (List.mem_cons_self ..)).page R hino
    subst hoff
    obtain rfl := (hb' b).mp hpage
    rw [hb] at hread
    rw [hnil (entriesFrom_eq_nil hread.symm), List.append_nil]
    exact ⟨es₁, rfl, List.append_nil _⟩
  | @more off es b views got hpage hb hrest ih =>
    obtain ⟨es₂, rfl⟩ := hes₁ es rfl
    obtain ⟨es₃, es₄, rfl, -, b', hread, hb'⟩ := (hviews _ (List.mem_cons_self ..)).page R hino
    subst hoff
    obtain rfl := (hb' b).mp hpage
    obtain ⟨hnext, hgrow⟩ := List.isChain_cons.mp hgrow
    have hoff : ((R.readAll b).getLast hb).off = (listingFrom lib 0 (es₁ ++ es₃)).length := by
      rw [getLast_off hread, length_listing_append]
    have hpre : es₁ ++ es₃ <+: es₁ ++ (es₃ ++ es₄) :=
      (List.prefix_append_right_inj es₁).mpr (List.prefix_append es₃ es₄)
    obtain ⟨es, hlast, hes⟩ := ih hgrow (fun es hes => hviews es (List.mem_cons_of_mem _ hes))
      (congrArg UInt64.ofNat hoff) fun es hes => hpre.trans (hnext es hes)
    refine ⟨es, by rw [List.getLast?_cons, hlast]; rfl, ?_⟩
    rw [← hes, entriesFrom_append, Nat.zero_add, hread, List.append_assoc]

theorem Readable.reading (R : Reader lib) {ino : Inum} (hino : isdir ino = true) {size : UInt64}
    (es₁ es₂ : List Dirent) (h : Readable lib size (es₁ ++ es₂)) :
    ∃ n ≤ es₂.length, Reading R ino size (.ofNat (listingFrom lib 0 es₁).length)
      (List.replicate (n + 1) (es₁ ++ es₂))
      (entriesFrom lib (listingFrom lib 0 es₁).length es₂) := by
  obtain ⟨es₃, es₄, rfl, hnil, b, hread, hb⟩ := h.page R hino
  by_cases hes : es₃ = []
  · rw [hnil hes] at hb ⊢
    rw [hes] at hread
    exact ⟨0, Nat.zero_le _, .done ((hb b).mpr rfl) hread⟩
  · have hne : R.readAll b ≠ [] := hread ▸ mt entriesFrom_eq_nil hes
    rw [← List.append_assoc] at h
    have hlt : es₄.length < (es₃ ++ es₄).length := by
      have := List.length_pos_iff.mpr hes
      rw [List.length_append]
      omega
    obtain ⟨n, hn, hrest⟩ := Readable.reading R hino (es₁ ++ es₃) es₄ h
    rw [length_listing_append, List.append_assoc] at hrest
    refine ⟨n + 1, by omega, ?_⟩
    rw [List.replicate_succ, entriesFrom_append, ← hread]
    exact .more ((hb b).mpr rfl) hne (by rwa [getLast_off hread])
termination_by es₂.length

/-- A directory is read as it is at the last request, every entry once and in order, if entries
are only added meanwhile.  If it stays as it is, there is a last request. -/
theorem readdir_pages (R : Reader lib) {ino : Inum} (hino : isdir ino = true) (size : UInt64) :
    (∀ (views : List (List Dirent)) (got : List Listed), views.IsChain (· <+: ·) →
      (∀ es ∈ views, Readable lib size es) → Reading R ino size 0 views got →
      views.getLast?.map (entriesFrom lib 0) = some got) ∧
    ∀ es : List Dirent, Readable lib size es →
      ∃ n ≤ es.length, Reading R ino size 0 (List.replicate (n + 1) es) (entriesFrom lib 0 es) := by
  refine ⟨fun views got hgrow hviews hread => ?_, fun es h => ?_⟩
  · have hoff : (0 : UInt64) = .ofNat (listingFrom lib 0 []).length := rfl
    obtain ⟨es, hlast, hes⟩ :=
      hread.entries_eq hino hgrow hviews hoff fun es _ => List.nil_prefix
    rw [hlast, Option.map_some, ← hes]
    rfl
  · exact Readable.reading R hino [] es h

/-! ## The laws can be met

One format that has the laws of `Libfuse` and `Reader`.  Nothing above depends on it.  An entry is
a head of 24 bytes with the numbers and the length of the name, then the name, and zeros up to a
multiple of 8. -/

/-- The lowest `n` bytes of a number, as they stand in memory. -/
def littleEndian (n x : Nat) : Buffer := (List.range n).map fun i => UInt8.ofNat (x / 256 ^ i)

def ofLittleEndian : Buffer → Nat
  | [] => 0
  | b :: bs => b.toNat + 256 * ofLittleEndian bs

theorem littleEndian_succ (n x : Nat) :
    littleEndian (n + 1) x = UInt8.ofNat x :: littleEndian n (x / 256) := by
  rw [littleEndian, List.range_succ_eq_map, List.map_cons, List.map_map, pow_zero, Nat.div_one]
  congr 1
  refine List.map_congr_left fun i _ => ?_
  show UInt8.ofNat (x / 256 ^ (i + 1)) = UInt8.ofNat (x / 256 / 256 ^ i)
  rw [Nat.div_div_eq_div_mul, pow_succ, Nat.mul_comm]

@[simp] theorem length_littleEndian (n x : Nat) : (littleEndian n x).length = n := by
  simp [littleEndian]

theorem ofLittleEndian_littleEndian (n x : Nat) :
    ofLittleEndian (littleEndian n x) = x % 256 ^ n := by
  induction n generalizing x with
  | zero => rw [pow_zero, Nat.mod_one]; rfl
  | succ n ih =>
    rw [littleEndian_succ, ofLittleEndian, ih, Nat.pow_succ', Nat.mod_mul, UInt8.toNat_ofNat']

def paddedSize (namelen : Nat) : Nat := (24 + namelen + 7) / 8 * 8

def paddedEntry (name : List Char) (ino : Inum) (off : Nat) : Buffer :=
  let entry := littleEndian 8 ino.toNat ++ littleEndian 8 off ++ littleEndian 4 name.length ++
    littleEndian 4 0 ++ bytes name
  entry ++ List.replicate (paddedSize name.length - entry.length) 0

/-- The entry at the front of a buffer with its length, when it is complete. -/
def readPadded (b : Buffer) : Option (Listed × Nat) :=
  let namelen := ofLittleEndian ((b.drop 16).take 4)
  if 24 ≤ b.length ∧ paddedSize namelen ≤ b.length then
    some ({ ino := ofLittleEndian (b.take 8), off := ofLittleEndian ((b.drop 8).take 8)
            name := (b.drop 24).take namelen }, paddedSize namelen)
  else none

theorem paddedSize_bounds (n : Nat) : 24 + n ≤ paddedSize n ∧ paddedSize n ≤ 24 + n + 7 := by
  rw [paddedSize]
  omega

/-- The part of an entry in front of the name. -/
def paddedHead (namelen : Nat) (ino : Inum) (off : Nat) : Buffer :=
  littleEndian 8 ino.toNat ++ littleEndian 8 off ++ littleEndian 4 namelen ++ littleEndian 4 0

theorem paddedEntry_eq (name : List Char) (ino : Inum) (off : Nat) :
    paddedEntry name ino off = paddedHead name.length ino off ++ (bytes name ++
      List.replicate (paddedSize name.length - (24 + name.length)) 0) := by
  rw [paddedEntry, paddedHead]
  simp [bytes, Nat.add_comm, Nat.add_left_comm]

@[simp] theorem length_paddedHead (n : Nat) (ino : Inum) (off : Nat) :
    (paddedHead n ino off).length = 24 := by
  simp [paddedHead]

theorem length_paddedEntry (name : List Char) (ino : Inum) (off : Nat) :
    (paddedEntry name ino off).length = paddedSize name.length := by
  have := (paddedSize_bounds name.length).1
  rw [paddedEntry_eq]
  simp [bytes]
  omega

/-- An entry is read back when all of it is there, and not at all otherwise. -/
theorem readPadded_head {n off : Nat} (hn : n < UInt32.size) (hoff : off < UInt64.size)
    (ino : Inum) (body : Buffer) :
    readPadded (paddedHead n ino off ++ body) =
      if paddedSize n ≤ 24 + body.length then
        some ({ ino := ino.toNat, off := off, name := body.take n }, paddedSize n)
      else none := by
  have hino : (paddedHead n ino off ++ body).take 8 = littleEndian 8 ino.toNat := by
    simp [paddedHead]
  have hoffs : ((paddedHead n ino off ++ body).drop 8).take 8 = littleEndian 8 off := by
    simp [paddedHead]
  have hname : ((paddedHead n ino off ++ body).drop 16).take 4 = littleEndian 4 n := by
    simp [paddedHead, List.drop_append, List.take_append]
  have hbody : (paddedHead n ino off ++ body).drop 24 = body := by
    rw [List.drop_append_of_le_length (by simp), List.drop_eq_nil_of_le (by simp), List.nil_append]
  rw [readPadded, hino, hoffs, hname, hbody]
  simp only [ofLittleEndian_littleEndian]
  have hn : n % 256 ^ 4 = n := Nat.mod_eq_of_lt hn
  have hoff : off % 256 ^ 8 = off := Nat.mod_eq_of_lt hoff
  have hino : ino.toNat % 256 ^ 8 = ino.toNat := Nat.mod_eq_of_lt ino.toNat_lt
  rw [hn, hoff, hino]
  simp

theorem readPadded_take {name : List Char} {off : Nat} (hn : name.length < UInt32.size)
    (hoff : off < UInt64.size) (ino : Inum) (rest : Buffer) (m : Nat) :
    readPadded ((paddedEntry name ino off ++ rest).take m) =
      if paddedSize name.length ≤ m then
        some ({ ino := ino.toNat, off := off, name := bytes name }, paddedSize name.length)
      else none := by
  have hsize := (paddedSize_bounds name.length).1
  by_cases hm : 24 ≤ m
  · obtain ⟨k, rfl⟩ := Nat.exists_eq_add_of_le hm
    rw [paddedEntry_eq, List.append_assoc,
      show 24 + k = (paddedHead name.length ino off).length + k by simp,
      List.take_length_add_append, readPadded_head hn hoff]
    by_cases hk : paddedSize name.length ≤ 24 + k
    · have hname : name.length = (bytes name).length := by simp [bytes]
      rw [if_pos (by simp [bytes]; omega), if_pos (by simpa using hk), List.take_take,
        Nat.min_eq_left (by omega), List.append_assoc, List.take_left' hname.symm]
    · rw [if_neg (by simp [bytes]; omega), if_neg (by simpa using hk)]
  · rw [readPadded, if_neg (by simp; omega), if_neg (by omega)]

def padded : Libfuse where
  direntSize := paddedSize
  addDirent := paddedEntry
  length_addDirent := length_paddedEntry

def paddedReader : Reader padded where
  read := readPadded
  size_pos n := lt_of_lt_of_le (by omega) (paddedSize_bounds n).1
  read_nil := rfl
  read_take _ ino _ rest m hn hoff := readPadded_take hn hoff ino rest m

/-- Files with names of one letter. -/
def letters (names : List String) : List Dirent := names.map fun name => ⟨name, 0x80000005⟩

theorem page_one {es : List Dirent} (hlen : (listingFrom padded 0 es).length < UInt64.size)
    (off : UInt64) : Page padded 1 40 off es (((listingFrom padded 0 es).drop off.toNat).take 40) :=
  (page_iff (by decide) hlen).mpr rfl

/-- The second file is created after the first request. -/
theorem readdir_pages_growing :
    let views := [["a"], ["a", "b"], ["a", "b"]].map letters
    Reading paddedReader 1 40 0 views (entriesFrom padded 0 (letters ["a", "b"])) ∧
      views.getLast?.map (entriesFrom padded 0) = some (entriesFrom padded 0 (letters ["a", "b"])) ∧
      ∃ n ≤ 2, Reading paddedReader 1 40 0 (List.replicate (n + 1) (letters ["a", "b"]))
        (entriesFrom padded 0 (letters ["a", "b"])) := by
  intro views
  have hread : Reading paddedReader 1 40 0 views (entriesFrom padded 0 (letters ["a", "b"])) := by
    refine .more (page_one (by decide) 0) (by decide) ?_
    refine .more (page_one (by decide) 32) (by decide) ?_
    exact .done (page_one (by decide) 64) (by decide)
  have hpages := readdir_pages paddedReader (show isdir 1 = true by decide) 40
  exact ⟨hread, hpages.1 views _ (by decide) (by decide) hread,
    hpages.2 (letters ["a", "b"]) (by decide)⟩

-- Without "a" the others move to the front, and "b", which is there all the time, is not read.
example : Reading paddedReader 1 40 0 ([["a", "b", "c"], ["b", "c"], ["b", "c"]].map letters)
    [⟨0x80000005, 32, bytes ['a']⟩, ⟨0x80000005, 64, bytes ['c']⟩] := by
  refine .more (page_one (by decide) 0) (by decide) ?_
  refine .more (page_one (by decide) 32) (by decide) ?_
  exact .done (page_one (by decide) 64) (by decide)

end Fuse
end Frangipani
