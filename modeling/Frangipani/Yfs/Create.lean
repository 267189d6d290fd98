/-
Clients that create the same name.

Every client serves one request at a time.  A request to create looks whether the
directory is there, looks the name up, and adds the entry when the name was
missing; each of these takes the lock of the directory and releases it again.  The
check that the name is missing is not made again under the lock that protects the
insertion, so another client can have added the name in between.

A directory never holds a name twice exactly as long as, whenever an entry is
added, the name would still be looked up as missing.
-/
import Mathlib.Data.List.Nodup
import Mathlib.Logic.Function.Basic
import Frangipani.Transition.System
import Frangipani.Yfs.Directory

namespace Frangipani
namespace Yfs

open Text Transition

inductive Kind
  | create
  | mknod
  | mkdir
  | unlink
  deriving DecidableEq, Repr

/-- A request of the kernel, with a name that has no white space in it. -/
structure Request where
  kind : Kind
  parent : Inum
  name : String
  word : IsWord name

/-- What the handler of a request does next: `getdir`, `ilookup`, or the change of
the directory. -/
inductive Stage
  | getdir
  | ilookup
  | change
  deriving DecidableEq, Repr

/-- `create` and `mknod` make files, `mkdir` makes directories. -/
def Kind.isFile : Kind → Bool
  | .mkdir => false
  | _ => true

inductive ClientAction (Clt : Type)
  | request (c : Clt) (req : Request)
  | getdir (c : Clt)
  | ilookup (c : Clt)
  | add (c : Clt) (draws : List Draw)
  | unlink (c : Clt) (finum : Inum)

/-- The extents, and what each client is doing. -/
structure World (Clt : Type) where
  ec : Extents
  clients : Clt → Option (Request × Stage)

namespace World

variable {Clt : Type} [DecidableEq Clt]

def setClient (w : World Clt) (c : Clt) (st : Option (Request × Stage)) : World Clt :=
  { w with clients := Function.update w.clients c st }

/-- The handler is called.  Only `unlink` does not look at the parent first. -/
def firstStage (req : Request) : Option (Request × Stage) :=
  if req.kind = .unlink then some (req, .ilookup)
  else if isdir req.parent then some (req, .getdir)
  else none

def afterGetdir (w : World Clt) (req : Request) : Option (Request × Stage) :=
  if (w.ec.find req.parent).isSome then some (req, .ilookup) else none

/-- Creation goes on when the name is missing, `unlink` when it is there. -/
def afterIlookup (w : World Clt) (req : Request) : Option (Request × Stage) :=
  if req.kind = .unlink then
    if Yfs.ilookup w.ec req.parent req.name ≠ 0 then some (req, .change) else none
  else if Yfs.ilookup w.ec req.parent req.name = 0 then some (req, .change)
  else none

def step (w : World Clt) : ClientAction Clt → Option (World Clt)
  | .request c req => if (w.clients c).isNone then some (w.setClient c (firstStage req)) else none
  | .getdir c =>
    match w.clients c with
    | some (req, .getdir) => some (w.setClient c (w.afterGetdir req))
    | _ => none
  | .ilookup c =>
    match w.clients c with
    | some (req, .ilookup) => some (w.setClient c (w.afterIlookup req))
    | _ => none
  | .add c draws =>
    match w.clients c with
    | some (req, .change) =>
      if req.kind = .unlink then none
      else
        (addEntryToFilesystem w.ec req.parent req.name req.kind.isFile draws).map fun r =>
          { w with ec := r.2.2 }.setClient c none
    | _ => none
  | .unlink c finum =>
    match w.clients c with
    | some (req, .change) =>
      if req.kind = .unlink then
        some ({ w with ec := (Yfs.unlink w.ec req.parent req.name finum).2 }.setClient c none)
      else none
    | _ => none

/-- A file system with an empty root directory, and idle clients. -/
def start : World Clt where
  ec := Map.empty.insert 1 []
  clients := fun _ => none

def system : System (World Clt) (ClientAction Clt) where
  init w := w = start
  step := step

/-- No directory holds two entries with the same name. -/
def NoDuplicates (w : World Clt) : Prop :=
  ∀ dir buf, isdir dir = true → w.ec.find dir = some buf →
    ((rawEntries buf).map Prod.snd).Nodup

/-- When an entry is added, the name would be looked up as missing. -/
def StillMissing (w : World Clt) : ClientAction Clt → Prop
  | .add c _ => ∀ st ∈ w.clients c, Yfs.ilookup w.ec st.1.parent st.1.name = 0
  | _ => True

/-! ## The directories and their entries -/

/-- The text of a directory without duplicates. -/
structure Entries (buf : List Char) (es : List Dirent) : Prop where
  text : buf = dirText es
  words : ∀ e ∈ es, IsWord e.name
  nonzero : ∀ e ∈ es, e.inum ≠ 0
  nodup : (es.map Dirent.name).Nodup

structure Inv (w : World Clt) : Prop where
  entries : ∀ dir buf, w.ec.find dir = some buf → ∃ es, Entries buf es
  parents : ∀ c st, w.clients c = some st → st.1.kind ≠ .unlink → isdir st.1.parent = true

theorem names_dirText {es : List Dirent} (h : ∀ e ∈ es, IsWord e.name) :
    (rawEntries (dirText es)).map Prod.snd = es.map Dirent.name := by
  rw [rawEntries_dirText h, List.map_map]
  rfl

omit [DecidableEq Clt] in
theorem Inv.noDuplicates {w : World Clt} (h : w.Inv) : w.NoDuplicates := by
  intro dir buf _ hbuf
  obtain ⟨es, hes⟩ := h.entries dir buf hbuf
  rw [hes.text, names_dirText hes.words]
  exact hes.nodup

theorem entries_nil : Entries [] [] :=
  ⟨rfl, fun _ he => absurd he List.not_mem_nil, fun _ he => absurd he List.not_mem_nil,
    List.nodup_nil⟩

omit [DecidableEq Clt] in
theorem inv_start : (start : World Clt).Inv := by
  refine ⟨fun dir buf hbuf => ?_, fun c st hst => by cases hst⟩
  rcases Map.find_insert_eq_some.mp hbuf with ⟨-, rfl⟩ | ⟨-, hbuf⟩
  · exact ⟨[], entries_nil⟩
  · cases hbuf

theorem Inv.setClient {w : World Clt} (h : w.Inv) (c : Clt) {st : Option (Request × Stage)}
    (hst : ∀ r ∈ st, r.1.kind ≠ .unlink → isdir r.1.parent = true) : (w.setClient c st).Inv := by
  refine ⟨h.entries, fun d r hr => ?_⟩
  have hr' : Function.update w.clients c st d = some r := hr
  by_cases hd : d = c
  · subst hd
    rw [Function.update_self] at hr'
    exact hst r hr'
  · rw [Function.update_of_ne hd] at hr'
    exact h.parents d r hr'

theorem Inv.idle {w : World Clt} (h : w.Inv) (c : Clt) : (w.setClient c none).Inv :=
  h.setClient c fun _ hr => absurd hr (Option.not_mem_none _)

/-! ## Adding and removing an entry -/

theorem add_eq_some {ec : Extents} {parent : Inum} {name : String} {isFile : Bool}
    {draws : List Draw} {r : Status × Inum × Extents}
    (h : addEntryToFilesystem ec parent name isFile draws = some r) :
    (ec.find parent = none ∧ r.2.2 = ec) ∨
    ∃ buf inum, ec.find parent = some buf ∧ inum ≠ parent ∧ inum ≠ 0 ∧
      r.2.2 = (ec.insert parent (buf ++ entryText (decimal64 inum) name)).insert inum [] := by
  rw [addEntryToFilesystem] at h
  cases hbuf : ec.find parent with
  | none =>
    rw [hbuf] at h
    cases h
    exact Or.inl ⟨rfl, rfl⟩
  | some buf =>
    rw [hbuf] at h
    obtain ⟨inum, hgen, rfl⟩ := Option.map_eq_some_iff.mp h
    obtain ⟨hunused, d, rfl⟩ := generateUniqueInum_spec hgen
    refine Or.inr ⟨buf, _, rfl, ?_, d.inum_ne_zero isFile, rfl⟩
    rintro rfl
    rw [hunused] at hbuf
    cases hbuf

theorem Entries.append {es : List Dirent} {e : Dirent} (h : Entries (dirText es) es)
    (hword : IsWord e.name) (hzero : e.inum ≠ 0) (hnew : e.name ∉ es.map Dirent.name) :
    Entries (dirText es ++ entryText (decimal64 e.inum) e.name) (es ++ [e]) where
  text := (dirText_append es e).symm
  words := List.forall_mem_append.mpr ⟨h.words, List.forall_mem_singleton.mpr hword⟩
  nonzero := List.forall_mem_append.mpr ⟨h.nonzero, List.forall_mem_singleton.mpr hzero⟩
  nodup := by
    rw [List.map_append, List.map_singleton, ← List.concat_eq_append]
    exact List.Nodup.concat hnew h.nodup

theorem Inv.add {w : World Clt} (h : w.Inv) {c : Clt} {req : Request} {draws : List Draw}
    {r : Status × Inum × Extents} (hdir : isdir req.parent = true)
    (hmissing : Yfs.ilookup w.ec req.parent req.name = 0)
    (hadd : addEntryToFilesystem w.ec req.parent req.name req.kind.isFile draws = some r) :
    (({ w with ec := r.2.2 } : World Clt).setClient c none).Inv := by
  refine Inv.idle (w := { w with ec := r.2.2 }) ⟨fun dir buf hbuf => ?_, h.parents⟩ c
  rcases add_eq_some hadd with ⟨-, hec⟩ | ⟨old, inum, hold, hne, hzero, hec⟩
  · exact h.entries dir buf (hec ▸ hbuf)
  · have hbuf' : ((w.ec.insert req.parent _).insert inum []).find dir = some buf := hec ▸ hbuf
    rcases Map.find_insert_eq_some.mp hbuf' with ⟨rfl, rfl⟩ | ⟨-, hbuf'⟩
    · exact ⟨[], entries_nil⟩
    · rcases Map.find_insert_eq_some.mp hbuf' with ⟨rfl, rfl⟩ | ⟨-, hbuf'⟩
      · obtain ⟨es, hes⟩ := h.entries _ _ hold
        obtain rfl := hes.text
        have hnew := (ilookup_eq_zero_iff hdir hold hes.words hes.nonzero req.name).mp hmissing
        exact ⟨_, hes.append (e := { name := req.name, inum := inum }) req.word hzero hnew⟩
      · exact h.entries dir buf hbuf'

theorem Inv.unlink {w : World Clt} (h : w.Inv) (c : Clt) (req : Request) (finum : Inum) :
    (({ w with ec := (Yfs.unlink w.ec req.parent req.name finum).2 } : World Clt).setClient c
      none).Inv := by
  refine Inv.idle (w := { w with ec := (Yfs.unlink w.ec req.parent req.name finum).2 })
    ⟨fun dir buf hbuf => ?_, h.parents⟩ c
  cases hold : w.ec.find req.parent with
  | none =>
    rw [Yfs.unlink, hold] at hbuf
    exact h.entries dir buf hbuf
  | some old =>
    obtain ⟨es, hes⟩ := h.entries _ _ hold
    obtain rfl := hes.text
    rw [unlink_dirText hold hes.words] at hbuf
    rcases Map.find_insert_eq_some.mp (Map.find_erase_eq_some.mp hbuf).2 with
      ⟨rfl, rfl⟩ | ⟨-, hbuf⟩
    · refine ⟨_, rfl, fun e he => hes.words e (List.mem_filter.mp he).1,
        fun e he => hes.nonzero e (List.mem_filter.mp he).1, ?_⟩
      exact hes.nodup.sublist (List.filter_sublist.map Dirent.name)
    · exact h.entries dir buf hbuf

theorem firstStage_parent {req : Request} {st : Request × Stage} (h : st ∈ firstStage req)
    (hkind : st.1.kind ≠ .unlink) : isdir st.1.parent = true := by
  unfold firstStage at h
  split at h
  · rename_i hunlink
    cases h
    exact absurd hunlink hkind
  · split at h
    · rename_i hdir
      cases h
      exact hdir
    · cases h

omit [DecidableEq Clt] in
theorem afterGetdir_fst {w : World Clt} {req : Request} {st : Request × Stage}
    (h : st ∈ w.afterGetdir req) : st.1 = req := by
  unfold afterGetdir at h
  split at h
  · cases h
    rfl
  · cases h

omit [DecidableEq Clt] in
theorem afterIlookup_fst {w : World Clt} {req : Request} {st : Request × Stage}
    (h : st ∈ w.afterIlookup req) : st.1 = req := by
  unfold afterIlookup at h
  split at h
  · split at h
    · cases h
      rfl
    · cases h
  · split at h
    · cases h
      rfl
    · cases h

theorem step_add {w v : World Clt} {c : Clt} {draws : List Draw}
    (hs : w.step (.add c draws) = some v) :
    ∃ req r, w.clients c = some (req, .change) ∧ req.kind ≠ .unlink ∧
      addEntryToFilesystem w.ec req.parent req.name req.kind.isFile draws = some r ∧
      ({ w with ec := r.2.2 } : World Clt).setClient c none = v := by
  rw [step] at hs
  split at hs
  · rename_i req hc
    obtain ⟨hkind, hadd⟩ := Option.ite_none_left_eq_some.mp hs
    obtain ⟨r, hr, rfl⟩ := Option.map_eq_some_iff.mp hadd
    exact ⟨req, r, hc, hkind, hr, rfl⟩
  · cases hs

theorem Inv.step {w v : World Clt} {a : ClientAction Clt} (h : w.Inv) (hok : w.StillMissing a)
    (hs : system.step w a = some v) : v.Inv := by
  cases a with
  | request c req =>
    obtain ⟨-, hv⟩ := Option.ite_none_right_eq_some.mp (show _ = some v from hs)
    cases hv
    exact h.setClient c fun st hst => firstStage_parent hst
  | getdir c =>
    change w.step (.getdir c) = some v at hs
    rw [World.step] at hs
    split at hs
    · rename_i req hc
      cases hs
      exact h.setClient c fun st hst => afterGetdir_fst hst ▸ h.parents c _ hc
    · cases hs
  | ilookup c =>
    change w.step (.ilookup c) = some v at hs
    rw [World.step] at hs
    split at hs
    · rename_i req hc
      cases hs
      exact h.setClient c fun st hst => afterIlookup_fst hst ▸ h.parents c _ hc
    · cases hs
  | add c draws =>
    obtain ⟨req, r, hc, hkind, hadd, rfl⟩ := step_add hs
    exact h.add (h.parents c _ hc hkind) (hok _ hc) hadd
  | unlink c finum =>
    change w.step (.unlink c finum) = some v at hs
    rw [World.step] at hs
    split at hs
    · rename_i req hc
      obtain ⟨-, hv⟩ := Option.ite_none_right_eq_some.mp hs
      cases hv
      exact h.unlink c req finum
    · cases hs

/-- An entry that is added under a name that is there makes a duplicate. -/
theorem Inv.not_noDuplicates {w v : World Clt} {a : ClientAction Clt} (h : w.Inv)
    (hbad : ¬ w.StillMissing a) (hs : system.step w a = some v) : ¬ v.NoDuplicates := by
  cases a with
  | add c draws =>
    obtain ⟨req, r, hc, hkind, hadd, rfl⟩ := step_add hs
    have hdir := h.parents c _ hc hkind
    intro hno
    refine hbad fun st hst => ?_
    cases hc.symm.trans hst
    rcases add_eq_some hadd with ⟨hnone, -⟩ | ⟨old, inum, hold, hne, hzero, hec⟩
    · rw [Yfs.ilookup, hdir, hnone]
      rfl
    · obtain ⟨es, hes⟩ := h.entries _ _ hold
      obtain rfl := hes.text
      have hafter : r.2.2.find req.parent =
          some (dirText (es ++ [{ name := req.name, inum := inum }])) := by
        rw [hec, Map.find_insert_ne _ _ hne.symm, Map.find_insert_self, dirText_append]
      have hwords : ∀ e ∈ es ++ [{ name := req.name, inum := inum }], IsWord e.name := by
        intro e he
        rcases List.mem_append.mp he with he | he
        · exact hes.words e he
        · rw [List.mem_singleton.mp he]
          exact req.word
      have hnodup := hno req.parent _ hdir hafter
      rw [names_dirText hwords, List.map_append, List.nodup_append] at hnodup
      refine (ilookup_eq_zero_iff hdir hold hes.words hes.nonzero req.name).mpr fun hmem => ?_
      exact hnodup.2.2 req.name hmem req.name (List.mem_singleton.mpr rfl) rfl
  | request | getdir | ilookup | unlink => exact absurd trivial hbad

/-- In every run of any number of clients no directory ever holds two entries with
the same name, if and only if each name would still be looked up as missing when
its entry is added. -/
theorem noDuplicates_iff (as : List (ClientAction Clt)) :
    system.AlongRun NoDuplicates (start : World Clt) as ↔
      system.StepsMeet StillMissing (start : World Clt) as :=
  System.alongRun_iff_stepsMeet (fun _ h => h.noDuplicates) (fun _ _ _ h hok hs => h.step hok hs)
    (fun _ _ _ h hbad hs => h.not_noDuplicates hbad hs) inv_start

/-- Two clients look a name up before either has added it. -/
def twoCreates : List (ClientAction Nat) :=
  let req : Request := { kind := .create, parent := 1, name := "f", word := by decide }
  [.request 0 req, .request 1 req, .getdir 0, .getdir 1, .ilookup 0, .ilookup 1,
    .add 0 [.five], .add 1 [.six]]

theorem twoCreates_not_noDuplicates :
    (system.run start twoCreates).map (fun w => readdir w.ec 1) =
      some (some [⟨"f", 0x80000005⟩, ⟨"f", 0x80000006⟩]) ∧
    ¬ system.AlongRun NoDuplicates start twoCreates := by
  refine ⟨by decide +kernel, ?_⟩
  intro h
  obtain ⟨v, hv⟩ : ∃ v, system.run start twoCreates = some v :=
    Option.isSome_iff_exists.mp (by decide +kernel)
  have hnames : (system.run start twoCreates).map
      (fun w => (w.ec.find 1).map fun buf => (rawEntries buf).map Prod.snd) =
      some (some ["f", "f"]) := by decide +kernel
  rw [hv] at hnames
  obtain ⟨buf, hbuf, hraw⟩ := Option.map_eq_some_iff.mp (Option.some.inj hnames)
  have hnodup := h.run hv 1 buf (by decide) hbuf
  rw [hraw] at hnodup
  exact absurd hnodup (by decide)

end World
end Yfs
end Frangipani
