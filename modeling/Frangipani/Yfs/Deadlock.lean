/-
Operations that wait for one another.

An operation that makes or removes an entry has the lock of its directory when it asks for
the lock of the entry.  There is no order of the numbers in which it does so: the number of
a new directory is drawn at random.  Still no circle of operations forms.  A creation draws
a number that has no extent, and an operation that waits with the lock of a directory has
found its extent there before.  So of two creations where the first waits for the directory
of the second, the first has read the number before the second has found the directory, and
around a circle that cannot be.  `Phase` has what an operation has found and missed so far,
and the ranks are the times at which the operations have found their directories.

The argument needs that a read which fails has not failed for another reason, that entries
are made in directories, and that what is unlinked is a file.  On the caches it needs that
they answer as the store: two creations that draw each other's directories before these have
been flushed wait for one another.
-/
import Frangipani.Yfs.Mounted

namespace Frangipani
namespace Yfs

open Extent Text Program Concurrency Transition

/-! ## The order of the calls -/

/-- What is left asks for no lock. -/
def Ending {α : Type} : YfsClient.M α → Prop
  | .done _ => True
  | .call c k => c.use.wanted = none ∧ ∀ x, Ending (k x)

/-- What is left while `p` is locked.  `found` is whether its extent has been read, and
`missing` has the numbers without extents.  A second lock is one of these, or that of a file. -/
def Holding {α : Type} (reads : Got → Prop) (p : Inum) :
    Bool → List Inum → YfsClient.M α → Prop
  | _, _, .done _ => True
  | found, missing, .call c k =>
    match c, k with
    | .acquire d, k =>
      (found = true ∧ isdir p = true ∧ (isfile d = true ∨ d ∈ missing)) ∧ ∀ x, Ending (k x)
    | .release _, k => ∀ x, Ending (k x)
    | .get eid, k =>
      if eid = p then
        missing = [] ∧ ∀ g : Got, reads g → (found = true → g.ret = YfsClient.OK) →
          Holding reads p (found || decide (g.ret = YfsClient.OK)) missing (k g)
      else ∀ g : Got,
        Holding reads p found (if g.ret = YfsClient.OK then missing else eid :: missing) (k g)
    | .getattr _, k => ∀ x, Holding reads p found missing (k x)
    | .put _ _, k => ∀ x, Holding reads p found missing (k x)
    | .remove _, _ => False

theorem Ending.map {α β : Type} {p : YfsClient.M α} (h : Ending p) (f : α → β) :
    Ending (p >>= fun a => .done (f a)) := by
  induction p with
  | done a => trivial
  | call c k ih => exact ⟨h.1, fun x => ih x (h.2 x)⟩

theorem Holding.map {α β : Type} {reads : Got → Prop} {p : Inum} {prog : YfsClient.M α}
    (f : α → β) : ∀ {found : Bool} {missing : List Inum}, Holding reads p found missing prog →
      Holding reads p found missing (prog >>= fun a => .done (f a)) := by
  induction prog with
  | done a => exact fun h => h
  | call c k ih =>
    intro found missing h
    cases c with
    | acquire d => exact ⟨h.1, fun x => (h.2 x).map f⟩
    | release d => exact fun x => (h x).map f
    | get eid =>
      rw [Holding] at h
      rw [Prog.call_bind, Holding]
      by_cases heid : eid = p
      · rw [if_pos heid] at h ⊢
        exact ⟨h.1, fun g hg hret => ih g (h.2 g hg hret)⟩
      · rw [if_neg heid] at h ⊢
        exact fun g => ih g (h g)
    | getattr eid => exact fun x => ih x (h x)
    | put eid buf => exact fun x => ih x (h x)
    | remove eid => exact h

/-- The operation takes a first lock, and goes on as `Holding` says. -/
def Starting {α : Type} (reads : Got → Prop) : YfsClient.M α → Prop
  | .call (.acquire p) k => ∀ x, Holding reads p false [] (k x)
  | _ => False

theorem Starting.map {α β : Type} {reads : Got → Prop} {prog : YfsClient.M α}
    (h : Starting reads prog) (f : α → β) : Starting reads (prog >>= fun a => .done (f a)) := by
  cases prog with
  | done a => exact h
  | call c k =>
    cases c with
    | acquire p => exact fun x => (h x).map f
    | _ => exact absurd h id

/-- The entry is made or removed in a directory. -/
def Operation.InDirectory : Operation → Prop
  | .addEntryToFilesystem parent .. | .unlink parent .. => isdir parent = true
  | _ => True

instance : (op : Operation) → Decidable op.InDirectory
  | .addEntryToFilesystem parent .. | .unlink parent .. =>
    inferInstanceAs (Decidable (isdir parent = true))
  | .init | .getfile _ | .getdir _ | .ilookup .. | .readdir _ | .setsize .. | .write ..
  | .read .. => isTrue trivial

/-- The entry that `unlink` finds in the directory is a file. -/
def Operation.Reads : Operation → Got → Prop
  | .unlink _ name _ finum, g =>
    g.ret = YfsClient.OK → isfile (unlinkTarget (text g.buf) name finum) = true
  | _, _ => True

instance : (op : Operation) → (g : Got) → Decidable (op.Reads g)
  | .unlink _ _ _ _, _ => inferInstanceAs (Decidable (_ → _))
  | .init, _ | .getfile _, _ | .getdir _, _ | .ilookup .., _ | .addEntryToFilesystem .., _
  | .readdir _, _ | .setsize .., _ | .write .., _ | .read .., _ => isTrue trivial

namespace YfsClient

variable {reads : Got → Prop}

theorem holding_get {α : Type} {p : Inum} {k : Got → M α}
    (h : ∀ g : Got, reads g → Holding reads p (decide (g.ret = OK)) [] (k g)) :
    Holding reads p false [] (.call (.get p) k) := by
  rw [Holding, if_pos rfl]
  exact ⟨rfl, fun g hg _ => h g hg⟩

theorem init_starting : Starting reads init := by
  refine fun _ => holding_get fun g _ => ?_
  show Holding reads 1 _ [] (if g.ret = NOENT then _ else _)
  split
  · exact fun _ _ => trivial
  · exact fun _ => trivial

theorem getfile_starting (inum : Inum) : Starting reads (getfile inum) :=
  fun _ _ _ => trivial

theorem getdir_starting (inum : Inum) : Starting reads (getdir inum) :=
  fun _ _ _ => trivial

theorem ilookup_starting (di : Inum) (name : String) : Starting reads (ilookup di name) := by
  intro _
  show Holding reads di false [] (if (!isdir di) = true then _ else _)
  split
  · exact fun _ => trivial
  · exact holding_get fun g _ _ => trivial

theorem readdir_starting (dir : Inum) : Starting reads (readdir dir) :=
  fun _ => holding_get fun _ _ _ => trivial

theorem read_starting (inum : Inum) (size off : UInt64) : Starting reads (read inum size off) :=
  fun _ => holding_get fun _ _ _ => trivial

theorem setsize_starting (inum : Inum) (size : UInt64) : Starting reads (setsize inum size) := by
  refine fun _ => holding_get fun g _ => ?_
  show Holding reads inum _ [] (if g.ret ≠ OK then _ else _)
  split
  · exact fun _ => trivial
  · exact fun _ _ => trivial

theorem write_starting (inum : Inum) (buf : Buffer) (off : UInt64) :
    Starting reads (write inum buf off) := by
  refine fun _ => holding_get fun g _ => ?_
  show Holding reads inum _ [] (if g.ret ≠ OK then _ else _)
  split
  · exact fun _ => trivial
  · exact fun _ _ => trivial

/-- What is drawn in the end is missing.  The directory itself is not drawn, as it is found. -/
theorem generateUniqueInum_holding {α : Type} (isFile : Bool) (draws : List Draw) {p : Inum}
    {f : Option Inum → M α} (hnone : Holding reads p true [] (f none))
    (hsome : ∀ d, Holding reads p true [d] (f (some d))) :
    Holding reads p true [] (generateUniqueInum isFile draws >>= f) := by
  induction draws with
  | nil => exact hnone
  | cons d ds ih =>
    let next (g : Got) : M α :=
      (if g.ret = OK then generateUniqueInum isFile ds else pure (some (d.inum isFile))) >>= f
    have hnext : ∀ g : Got, g.ret = OK → Holding reads p true [] (next g) := by
      intro g hret
      show Holding reads p true [] ((if g.ret = OK then _ else _) >>= f)
      rw [if_pos hret]
      exact ih
    show Holding reads p true [] (.call (.get (d.inum isFile)) next)
    rw [Holding]
    split
    · exact ⟨rfl, fun g _ hret => hnext g (hret rfl)⟩
    · intro g
      by_cases hret : g.ret = OK
      · rw [if_pos hret]
        exact hnext g hret
      · show Holding reads p true _ ((if g.ret = OK then _ else _) >>= f)
        rw [if_neg hret, if_neg hret]
        exact hsome _

theorem addEntry_holding (parent : Inum) (hdir : isdir parent = true) (buf : Buffer) (name : String)
    (entryInum : Inum) :
    Holding reads parent true [entryInum] (addEntry parent buf name entryInum) := by
  refine ⟨⟨rfl, hdir, .inr (List.mem_singleton_self entryInum)⟩, fun _ => ⟨rfl, fun ret => ?_⟩⟩
  show Ending (if ret ≠ OK then _ else _)
  split
  · exact ⟨rfl, fun _ => ⟨rfl, fun _ => trivial⟩⟩
  · exact ⟨rfl, fun _ => ⟨rfl, fun _ => ⟨rfl, fun _ => trivial⟩⟩⟩

theorem addEntryToFilesystem_starting (parent : Inum) (hdir : isdir parent = true) (name : String)
    (isFile : Bool) (draws : List Draw) :
    Starting reads (addEntryToFilesystem parent name isFile draws) := by
  refine fun _ => holding_get fun g _ => ?_
  show Holding reads parent _ [] (if g.ret ≠ OK then _ else _)
  split
  · exact fun _ => trivial
  · rename_i hret
    rw [decide_eq_true (not_not.mp hret)]
    refine generateUniqueInum_holding isFile draws trivial fun d => ?_
    exact (addEntry_holding parent hdir g.buf name d).map _

theorem unlink_starting (parent : Inum) (hdir : isdir parent = true) (name : String)
    (inumToRemove finum : Inum) :
    Starting (Operation.unlink parent name inumToRemove finum).Reads
      (unlink parent name inumToRemove finum) := by
  refine fun _ => holding_get fun g hreads => ?_
  show Holding _ parent _ [] (if g.ret ≠ OK then _ else _)
  split
  · exact fun _ => ⟨rfl, fun _ => trivial⟩
  · rename_i hret
    have hok := not_not.mp hret
    refine ⟨⟨decide_eq_true hok, hdir, .inl (hreads hok)⟩, fun _ => ⟨rfl, fun ret => ?_⟩⟩
    show Ending (if ret ≠ OK then _ else _)
    split
    · exact ⟨rfl, fun _ => ⟨rfl, fun _ => trivial⟩⟩
    · exact ⟨rfl, fun _ => ⟨rfl, fun _ => ⟨rfl, fun _ => trivial⟩⟩⟩

end YfsClient

theorem Operation.starting (op : Operation) (h : op.InDirectory) :
    Starting op.Reads (operations.program op) := by
  have hprogram : Starting op.Reads op.program := by
    cases op with
    | init => exact YfsClient.init_starting
    | getfile inum => exact YfsClient.getfile_starting inum
    | getdir inum => exact YfsClient.getdir_starting inum
    | ilookup di name => exact YfsClient.ilookup_starting di name
    | addEntryToFilesystem parent name isFile draws =>
      exact YfsClient.addEntryToFilesystem_starting parent h name isFile draws
    | readdir dir => exact YfsClient.readdir_starting dir
    | setsize inum size => exact YfsClient.setsize_starting inum size
    | write inum buf off => exact YfsClient.write_starting inum buf off
    | read inum size off => exact YfsClient.read_starting inum size off
    | unlink parent name inumToRemove finum =>
      exact YfsClient.unlink_starting parent h name inumToRemove finum
  exact hprogram.map _

/-! ## Phases -/

/-- Where an operation is.  The numbers are those of `Holding`. -/
inductive Phase
  | starting
  | holding (p : Inum) (found : Bool) (missing : List Inum)
  | ending

namespace Phase

variable {T : Type}

def Matches (s : Working T) (τ : OperationTask) : Phase → Prop
  | .starting => τ.locks = [] ∧ Starting τ.op.Reads τ.rest
  | .holding p found missing => τ.locks = [p] ∧ Holding τ.op.Reads p found missing τ.rest ∧
      (found = true → s.store p ≠ none)
  | .ending => Ending τ.rest

def found : Phase → Option Inum
  | .holding p true _ => some p
  | _ => none

def missing : Phase → List Inum
  | .holding _ _ missing => missing
  | _ => []

theorem Matches.congr {s s' : Working T} {τ : OperationTask} {a : Phase} (h : a.Matches s τ)
    (hstore : ∀ l ∈ τ.locks, s'.store l = s.store l) : a.Matches s' τ := by
  cases a with
  | starting => exact h
  | ending => exact h
  | holding p found missing =>
    obtain ⟨hlocks, hholding, hfound⟩ := h
    refine ⟨hlocks, hholding, fun hf => ?_⟩
    rw [hstore p (by rw [hlocks]; exact List.mem_singleton_self p)]
    exact hfound hf

end Phase

variable {T : Type} [DecidableEq T]

/-- The ranks order the operations: one that has missed a directory comes before one that has
found it. -/
structure Ordered (s : Working T) (phase : T → Phase) (rank : T → Nat) : Prop where
  idle : ∀ t, s.task t = none → phase t = .ending
  tasks : ∀ t, ∀ τ ∈ s.task t, (phase t).Matches s τ
  before : ∀ t u, ∀ p ∈ (phase u).found, p ∈ (phase t).missing → rank t < rank u

namespace Ordered

variable {s s' : Working T} {phase : T → Phase} {rank : T → Nat}

omit [DecidableEq T] in
theorem store_found (h : Ordered s phase rank) {t : T} {p : Inum} (hp : p ∈ (phase t).found) :
    s.store p ≠ none := by
  cases hτ : s.task t with
  | none =>
    rw [h.idle t hτ] at hp
    cases hp
  | some τ =>
    have hmatches := h.tasks t τ hτ
    cases hphase : phase t with
    | starting =>
      rw [hphase] at hp
      cases hp
    | ending =>
      rw [hphase] at hp
      cases hp
    | holding q found missing =>
      rw [hphase] at hp hmatches
      cases found with
      | false => cases hp
      | true =>
        cases hp
        exact hmatches.2.2 rfl

section Matching

variable {t : T} {τ : OperationTask} {c : Command} {k : Answer c → YfsClient.M Outcome}
variable (h : Ordered s phase rank) (hτ : s.task t = some τ) (hrest : τ.rest = .call c k)

include h hτ hrest

omit [DecidableEq T] in
theorem starting (hphase : phase t = .starting) :
    τ.locks = [] ∧ Starting τ.op.Reads (.call c k) := by
  have hmatches := h.tasks t τ hτ
  rw [hphase] at hmatches
  exact hrest ▸ hmatches

omit [DecidableEq T] in
theorem holding {p : Inum} {found : Bool} {missing : List Inum}
    (hphase : phase t = .holding p found missing) :
    τ.locks = [p] ∧ Holding τ.op.Reads p found missing (.call c k) ∧
      (found = true → s.store p ≠ none) := by
  have hmatches := h.tasks t τ hτ
  rw [hphase] at hmatches
  exact hrest ▸ hmatches

omit [DecidableEq T] in
theorem ending (hphase : phase t = .ending) : c.use.wanted = none ∧ ∀ x, Ending (k x) := by
  have hmatches : (phase t).Matches s τ := h.tasks t τ hτ
  rw [hphase, Phase.Matches, hrest] at hmatches
  exact hmatches

end Matching

theorem update (h : Ordered s phase rank) {t : T} {x : Option OperationTask} {a : Phase}
    {rank' : T → Nat} (htask : s'.task = Function.update s.task t x)
    (hkeep : ∀ u, u ≠ t → ∀ σ ∈ s.task u, ∀ l ∈ σ.locks, s'.store l = s.store l)
    (hnone : x = none → a = .ending) (hsome : ∀ τ ∈ x, a.Matches s' τ)
    (hbefore : ∀ u v, ∀ p ∈ (Function.update phase t a v).found,
      p ∈ (Function.update phase t a u).missing → rank' u < rank' v) :
    Ordered s' (Function.update phase t a) rank' where
  idle u hu := by
    rw [htask] at hu
    by_cases hut : u = t
    · subst hut
      rw [Function.update_self] at hu ⊢
      exact hnone hu
    · rw [Function.update_of_ne hut] at hu ⊢
      exact h.idle u hu
  tasks u τ hτ := by
    rw [htask] at hτ
    by_cases hut : u = t
    · subst hut
      rw [Function.update_self] at hτ ⊢
      exact hsome τ hτ
    · rw [Function.update_of_ne hut] at hτ ⊢
      exact (h.tasks u τ hτ).congr (hkeep u hut τ hτ)
  before := hbefore

theorem before_of_subset (h : Ordered s phase rank) {t : T} {a : Phase}
    (hfound : ∀ p ∈ a.found, p ∈ (phase t).found)
    (hmissing : ∀ p ∈ a.missing, p ∈ (phase t).missing) (u v : T) (p : Inum)
    (hp : p ∈ (Function.update phase t a v).found)
    (hq : p ∈ (Function.update phase t a u).missing) : rank u < rank v := by
  refine h.before u v p ?_ ?_
  · by_cases hv : v = t
    · subst hv
      rw [Function.update_self] at hp
      exact hfound p hp
    · rwa [Function.update_of_ne hv] at hp
  · by_cases hu : u = t
    · subst hu
      rw [Function.update_self] at hq
      exact hmissing p hq
    · rwa [Function.update_of_ne hu] at hq

theorem before_of_none (h : Ordered s phase rank) {t : T} {a : Phase} (hfound : a.found = none)
    (hmissing : a.missing = []) (u v : T) (p : Inum) (hp : p ∈ (Function.update phase t a v).found)
    (hq : p ∈ (Function.update phase t a u).missing) : rank u < rank v := by
  refine h.before_of_subset (fun q hq => ?_) (fun q hq => ?_) u v p hp hq
  · rw [hfound] at hq
    cases hq
  · rw [hmissing] at hq
    exact absurd hq List.not_mem_nil

omit [DecidableEq T] in
theorem exists_forall_rank_lt [Fintype T] (rank : T → Nat) : ∃ n, ∀ t, rank t < n := by
  obtain ⟨n, hn⟩ := (Finset.univ.image rank).exists_nat_subset_range
  exact ⟨n, fun t => Finset.mem_range.mp (hn (Finset.mem_image_of_mem rank (Finset.mem_univ t)))⟩

/-- An operation that finds its directory, and has missed nothing, comes after all others. -/
theorem before_of_found (h : Ordered s phase rank) {n : Nat} (hn : ∀ t, rank t < n) {t : T}
    {p : Inum} (u v : T) (q : Inum)
    (hq : q ∈ (Function.update phase t (.holding p true []) v).found)
    (hmissing : q ∈ (Function.update phase t (.holding p true []) u).missing) :
    Function.update rank t n u < Function.update rank t n v := by
  by_cases hu : u = t
  · subst hu
    rw [Function.update_self] at hmissing
    exact absurd hmissing List.not_mem_nil
  · rw [Function.update_of_ne hu] at hmissing ⊢
    by_cases hv : v = t
    · subst hv
      rw [Function.update_self]
      exact hn u
    · rw [Function.update_of_ne hv] at hq ⊢
      exact h.before u v q hq hmissing

/-- A number without an extent is no directory that an operation has found. -/
theorem before_of_missing (h : Ordered s phase rank) {t : T} {p eid : Inum} {found : Bool}
    {missing : List Inum} (hphase : phase t = .holding p found missing)
    (hstore : s.store eid = none) (u v : T) (q : Inum)
    (hq : q ∈ (Function.update phase t (.holding p found (eid :: missing)) v).found)
    (hmissing : q ∈ (Function.update phase t (.holding p found (eid :: missing)) u).missing) :
    rank u < rank v := by
  have hfound : q ∈ (phase v).found := by
    by_cases hv : v = t
    · subst hv
      rw [Function.update_self] at hq
      rw [hphase]
      cases found <;> exact hq
    · rwa [Function.update_of_ne hv] at hq
  refine h.before u v q hfound ?_
  by_cases hu : u = t
  · subst hu
    rw [Function.update_self] at hmissing
    rw [hphase]
    refine (List.mem_cons.mp hmissing).resolve_left ?_
    rintro rfl
    exact h.store_found hfound hstore
  · rwa [Function.update_of_ne hu] at hmissing

end Ordered

/-! ## The steps -/

/-- A read that fails has found no extent, and an `unlink` reads the entry of a file. -/
def CalmCall (s : Working T) (τ : OperationTask) (i : CallInput) :
    YfsClient.M Outcome → Prop
  | .call (.get eid) _ =>
    i.failed = none ∧ τ.op.Reads ((Command.get eid).onContents i (s.store eid)).1
  | _ => True

/-- Operations work in directories and release what they have. -/
def Calm (s : Working T) : ThreadStep CallInput Operation T → Prop
  | .start _ op => op.InDirectory
  | .go t i => ∀ τ ∈ s.task t, operations.OwnRest τ τ.rest ∧ CalmCall s τ i τ.rest
  | .finish t => ∀ τ ∈ s.task t, operations.OwnRest τ τ.rest

instance (s : Working T) (τ : OperationTask) (i : CallInput) :
    (p : YfsClient.M Outcome) → Decidable (CalmCall s τ i p)
  | .call (.get _) _ => inferInstanceAs (Decidable (_ ∧ _))
  | .done _ | .call (.acquire _) _ | .call (.release _) _ | .call (.getattr _) _
  | .call (.put ..) _ | .call (.remove _) _ => isTrue trivial

instance (s : Working T) : (a : ThreadStep CallInput Operation T) → Decidable (Calm s a)
  | .start _ op => inferInstanceAs (Decidable op.InDirectory)
  | .go t i => inferInstanceAs (Decidable
      (∀ τ ∈ s.task t, operations.OwnRest τ τ.rest ∧ CalmCall s τ i τ.rest))
  | .finish t => inferInstanceAs (Decidable (∀ τ ∈ s.task t, operations.OwnRest τ τ.rest))

omit [DecidableEq T] in
theorem Calm.own {s : Working T} {a : ThreadStep CallInput Operation T} (h : Calm s a) :
    operations.Own s a := by
  cases a with
  | start t op => trivial
  | go t i => exact fun τ hτ => (h τ hτ).1
  | finish t => exact h

theorem get_ret_iff (eid : Inum) {i : CallInput} (hi : i.failed = none) (v : Option Buffer) :
    ((Command.get eid).onContents i v).1.ret = YfsClient.OK ↔ v ≠ none := by
  cases v with
  | none => simp [Command.onContents, hi]
  | some buf => simp [Command.onContents, hi]

namespace Ordered

variable {s s' : Working T} {phase : T → Phase} {rank : T → Nat}

theorem toEnding (h : Ordered s phase rank) {t : T} {τ : OperationTask}
    (htask : s'.task = Function.update s.task t (some τ))
    (hkeep : ∀ u, u ≠ t → ∀ σ ∈ s.task u, ∀ l ∈ σ.locks, s'.store l = s.store l)
    (hending : Ending τ.rest) : Ordered s' (Function.update phase t .ending) rank := by
  refine h.update htask hkeep (fun _ => rfl) (fun σ hσ => ?_) (h.before_of_none rfl rfl)
  cases hσ
  exact hending

theorem acquire (h : Ordered s phase rank) {t : T} {τ : OperationTask} (hτ : s.task t = some τ)
    {l : Inum} {k : Unit → YfsClient.M Outcome} (hrest : τ.rest = .call (.acquire l) k)
    (hs : Locking.acquire s t τ l (k ()) = some s') : ∃ phase, Ordered s' phase rank := by
  obtain ⟨_, rfl⟩ := Locking.acquire_eq_some hs
  cases hphase : phase t with
  | starting =>
    obtain ⟨hlocks, hstarting⟩ := h.starting hτ hrest hphase
    refine ⟨_, h.update (a := .holding l false []) rfl (fun _ _ _ _ _ _ => rfl)
      (fun heq => by cases heq) (fun σ hσ => ?_) (h.before_of_none rfl rfl)⟩
    cases hσ
    refine ⟨?_, hstarting (), fun hf => by cases hf⟩
    show l :: τ.locks = [l]
    rw [hlocks]
  | holding p found missing =>
    obtain ⟨_, hholding, _⟩ := h.holding hτ hrest hphase
    exact ⟨_, h.toEnding rfl (fun _ _ _ _ _ _ => rfl) (hholding.2 ())⟩
  | ending => exact absurd (h.ending hτ hrest hphase).1 (fun heq => by cases heq)

theorem release (h : Ordered s phase rank) {t : T} {τ : OperationTask} (hτ : s.task t = some τ)
    {l : Inum} {k : Unit → YfsClient.M Outcome} (hrest : τ.rest = .call (.release l) k) :
    ∃ phase, Ordered (Locking.release s t τ l (k ())) phase rank := by
  cases hphase : phase t with
  | starting => exact absurd (h.starting hτ hrest hphase).2 id
  | holding p found missing =>
    obtain ⟨_, hholding, _⟩ := h.holding hτ hrest hphase
    exact ⟨_, h.toEnding rfl (fun _ _ _ _ _ _ => rfl) (hholding ())⟩
  | ending =>
    obtain ⟨_, hending⟩ := h.ending hτ hrest hphase
    exact ⟨_, h.toEnding rfl (fun _ _ _ _ _ _ => rfl) (hending ())⟩

theorem stays (h : Ordered s phase rank) {t : T} {τ : OperationTask} {a : Phase}
    (htask : s'.task = Function.update s.task t (some τ))
    (hkeep : ∀ u, u ≠ t → ∀ σ ∈ s.task u, ∀ l ∈ σ.locks, s'.store l = s.store l)
    (hphase : phase t = a) (hmatches : a.Matches s' τ) :
    Ordered s' (Function.update phase t a) rank := by
  refine h.update htask hkeep (fun heq => by cases heq) (fun σ hσ => ?_) (h.before_of_subset ?_ ?_)
  · cases hσ
    exact hmatches
  · exact fun _ hp => hphase ▸ hp
  · exact fun _ hp => hphase ▸ hp

theorem access_store_ne_none {t : T} {τ : OperationTask} {c : Command}
    {k : Answer c → YfsClient.M Outcome} {l p : Inum} {i : CallInput}
    (hc : ∀ i v, v ≠ none → (c.onContents i v).2 ≠ none) (hp : s.store p ≠ none) :
    (operations.access s t τ l c i k).store p ≠ none := by
  show Function.update s.store l (c.onContents i (s.store l)).2 p ≠ none
  by_cases hpl : p = l
  · subst hpl
    rw [Function.update_self]
    exact hc _ _ hp
  · rwa [Function.update_of_ne hpl]

theorem access_holding [Fintype T] (h : Ordered s phase rank) {t : T} {τ : OperationTask}
    (hτ : s.task t = some τ) {c : Command} {k : Answer c → YfsClient.M Outcome} {l : Inum}
    {i : CallInput} (hrest : τ.rest = .call c k) (huse : c.use = .access l)
    (hkeep : ∀ u, u ≠ t → ∀ σ ∈ s.task u, ∀ l' ∈ σ.locks,
      (operations.access s t τ l c i k).store l' = s.store l')
    (hcalm : CalmCall s τ i τ.rest) {p : Inum} {found : Bool} {missing : List Inum}
    (hphase : phase t = .holding p found missing) :
    ∃ phase rank, Ordered (operations.access s t τ l c i k) phase rank := by
  obtain ⟨hlocks, hholding, hfound⟩ := h.holding hτ hrest hphase
  rw [hrest] at hcalm
  -- The phase stays when the extent of the directory stays.
  have hsame : ∀ x : Answer c,
      (operations.access s t τ l c i k).task =
        Function.update s.task t (some (τ.got l c i x (k x))) →
      (∀ i v, v ≠ none → (c.onContents i v).2 ≠ none) →
      Holding τ.op.Reads p found missing (k x) →
      ∃ phase rank, Ordered (operations.access s t τ l c i k) phase rank := by
    intro x htask hc hk
    refine ⟨_, rank, h.stays htask hkeep hphase ⟨hlocks, hk, fun hf => ?_⟩⟩
    exact access_store_ne_none hc (hfound hf)
  cases c with
  | acquire d => cases huse
  | release d => cases huse
  | remove eid => exact absurd hholding id
  | getattr eid => exact hsame _ rfl (fun _ _ hv => hv) (hholding _)
  | put eid buf =>
    refine hsame _ rfl (fun i v hv => ?_) (hholding _)
    rw [Command.onContents]
    split
    · exact hv
    · exact fun heq => by cases heq
  | get eid =>
    cases huse
    obtain ⟨hfailed, hreads⟩ := hcalm
    have hret := get_ret_iff l hfailed (s.store l)
    rw [Holding] at hholding
    by_cases hlp : l = p
    · subst hlp
      rw [if_pos rfl] at hholding
      obtain ⟨rfl, hk⟩ := hholding
      replace hk := hk _ hreads fun hf => hret.mpr (hfound hf)
      by_cases hok : ((Command.get l).onContents i (s.store l)).1.ret = YfsClient.OK
      · rw [decide_eq_true hok, Bool.or_true] at hk
        obtain ⟨n, hn⟩ := exists_forall_rank_lt rank
        refine ⟨_, _, h.update (a := .holding l true []) rfl hkeep (fun heq => by cases heq)
          (fun σ hσ => ?_) (h.before_of_found hn)⟩
        cases hσ
        exact ⟨hlocks, hk, fun _ => access_store_ne_none (fun _ _ hv => hv) (hret.mp hok)⟩
      · rw [decide_eq_false hok, Bool.or_false] at hk
        exact hsame _ rfl (fun _ _ hv => hv) hk
    · rw [if_neg hlp] at hholding
      replace hholding := hholding ((Command.get l).onContents i (s.store l)).1
      split at hholding
      · exact hsame _ rfl (fun _ _ hv => hv) hholding
      · rename_i hok
        have hnone : s.store l = none := not_not.mp fun hne => hok (hret.mpr hne)
        refine ⟨_, _, h.update (a := .holding p found (l :: missing)) rfl hkeep
          (fun heq => by cases heq) (fun σ hσ => ?_) (h.before_of_missing hphase hnone)⟩
        cases hσ
        exact ⟨hlocks, hholding, fun hf => access_store_ne_none (fun _ _ hv => hv) (hfound hf)⟩

theorem access [Fintype T] (h : Ordered s phase rank) {t : T} {τ : OperationTask}
    (hτ : s.task t = some τ) {c : Command} {k : Answer c → YfsClient.M Outcome} {l : Inum}
    {i : CallInput} (hrest : τ.rest = .call c k) (huse : c.use = .access l)
    (hkeep : ∀ u, u ≠ t → ∀ σ ∈ s.task u, ∀ l' ∈ σ.locks,
      (operations.access s t τ l c i k).store l' = s.store l')
    (hcalm : CalmCall s τ i τ.rest) :
    ∃ phase rank, Ordered (operations.access s t τ l c i k) phase rank := by
  cases hphase : phase t with
  | starting =>
    obtain ⟨_, hstarting⟩ := h.starting hτ hrest hphase
    cases c with
    | acquire d => cases huse
    | _ => exact absurd hstarting id
  | holding p found missing => exact h.access_holding hτ hrest huse hkeep hcalm hphase
  | ending => exact ⟨_, rank, h.toEnding rfl hkeep ((h.ending hτ hrest hphase).2 _)⟩

end Ordered

/-- The invariant of calm runs. -/
structure Circleless (s : Working T) : Prop where
  owned : Locking.Owned s
  phased : operations.Phased s
  ordered : ∃ phase rank, Ordered s phase rank

theorem Circleless.step [Fintype T] {s s' : Working T} (h : Circleless s)
    {a : ThreadStep CallInput Operation T} (hok : Calm s a) (hs : operations.step s a = some s') :
    Circleless s' := by
  obtain ⟨howned, hphased, phase, rank, hordered⟩ := h
  refine ⟨howned.step hok.own hs, hphased.step operations_twoPhase hs, ?_⟩
  cases a with
  | start t op =>
    obtain ⟨_, rfl⟩ := Locking.start_eq_some hs
    refine ⟨_, rank, hordered.update (a := .starting) rfl (fun _ _ _ _ _ _ => rfl)
      (fun heq => by cases heq) (fun σ hσ => ?_) (hordered.before_of_none rfl rfl)⟩
    cases hσ
    exact ⟨rfl, op.starting hok⟩
  | go t i =>
    obtain ⟨τ, hτ, hs⟩ := Option.bind_eq_some_iff.mp hs
    obtain ⟨_, hcalm⟩ := hok τ hτ
    obtain ⟨c, k, l, hrest, ⟨huse, hs⟩ | ⟨huse, rfl⟩ | ⟨huse, rfl⟩⟩ := Locking.call_cases hs
    · cases c with
      | acquire d =>
        cases huse
        obtain ⟨phase', h'⟩ := hordered.acquire hτ hrest hs
        exact ⟨phase', rank, h'⟩
      | _ => cases huse
    · cases c with
      | release d =>
        cases huse
        obtain ⟨phase', h'⟩ := hordered.release hτ hrest
        exact ⟨phase', rank, h'⟩
      | _ => cases huse
    · refine hordered.access hτ hrest huse (fun u hut σ hσ l' hl' => ?_) hcalm
      exact (hphased t τ hτ).access_store hrest huse s t i (howned.not_mem_of_ne hτ hσ hut hl')
  | finish t =>
    obtain ⟨τ, hτ, hs⟩ := Option.bind_eq_some_iff.mp hs
    obtain ⟨a, _, rfl⟩ := Locking.finish_eq_some hs
    exact ⟨_, rank, hordered.update (a := .ending) rfl (fun _ _ _ _ _ _ => rfl) (fun _ => rfl)
      (fun σ hσ => by cases hσ) (hordered.before_of_none rfl rfl)⟩

omit [DecidableEq T] in
theorem Circleless.of_fresh {s : Working T} (h : Locking.Fresh s) : Circleless s := by
  refine ⟨.of_fresh h, .of_fresh h, fun _ => .ending, fun _ => 0, fun _ _ => rfl, ?_, ?_⟩
  · intro t τ hτ
    rw [h.2.1 t] at hτ
    cases hτ
  · intro t u p hp
    cases hp

omit [DecidableEq T] in
theorem Ordered.wants {s : Working T} {phase : T → Phase} {rank : T → Nat}
    (h : Ordered s phase rank) {t : T} {τ : OperationTask} (hτ : s.task t = some τ)
    (hlocks : τ.locks ≠ []) {l : Inum} (hwanted : operations.wanted τ.rest = some l) :
    ∃ p missing, phase t = .holding p true missing ∧ τ.locks = [p] ∧ isdir p = true ∧
      (isfile l = true ∨ l ∈ missing) := by
  cases hrest : τ.rest with
  | done a =>
    rw [hrest] at hwanted
    cases hwanted
  | call c k =>
    rw [hrest] at hwanted
    replace hwanted : c.use.wanted = some l := hwanted
    cases hphase : phase t with
    | starting => exact absurd (h.starting hτ hrest hphase).1 hlocks
    | ending =>
      rw [(h.ending hτ hrest hphase).1] at hwanted
      cases hwanted
    | holding p found missing =>
      obtain ⟨hp, hholding, _⟩ := h.holding hτ hrest hphase
      cases c with
      | acquire d =>
        cases hwanted
        obtain ⟨⟨rfl, hdir, hl⟩, _⟩ := hholding
        exact ⟨p, missing, rfl, hp, hdir, hl⟩
      | _ => cases hwanted

omit [DecidableEq T] in
theorem Circleless.eq_empty {s : Working T} (h : Circleless s) {D : Finset T}
    (hD : operations.Deadlocked s D) : D = ∅ := by
  obtain ⟨howned, _, phase, rank, hordered⟩ := h
  refine howned.eq_empty_of_deadlocked rank (fun t u τ hτ σ hσ l hlocks hwanted hl hwaits => ?_) hD
  obtain ⟨l', hwanted'⟩ := Option.isSome_iff_exists.mp hwaits
  obtain ⟨_, missing, hphase, _, _, hmissing⟩ := hordered.wants hτ hlocks hwanted
  obtain ⟨p, _, hphase', hp, hdir, _⟩ := hordered.wants hσ (List.ne_nil_of_mem hl) hwanted'
  rw [hp] at hl
  obtain rfl := List.mem_singleton.mp hl
  refine hordered.before t u l (by rw [hphase']; rfl) ?_
  rw [hphase]
  refine hmissing.resolve_left fun hfile => ?_
  rw [isdir, hfile] at hdir
  cases hdir

/-! ## On the caches -/

/-- A lock that no operation has is handed back when another client asks for it. -/
theorem caches_yields : (caches (T := T)).Yields := by
  intro w t lid
  show (w.takeLock t lid).isSome = true ∨
    ∃ w' ∈ w.handBack lid, (w'.takeLock t lid).isSome = true
  cases hheld : w.holder lid with
  | none =>
    left
    rw [Shared.takeLock_of_free hheld]
    rfl
  | some d =>
    right
    refine ⟨_, Option.map_eq_some_iff.mpr ⟨d, hheld, rfl⟩, ?_⟩
    rw [Shared.takeLock_of_free (Function.update_self ..)]
    rfl

namespace Mounted

/-- The caches answer as the store does, and the operations on the store are calm. -/
def Calm (s : Mounted T) (a : MountedStep T) : Prop :=
  Careful s a ∧ ∀ b ∈ caches.label operations s a, Yfs.Calm (caches.viewed s) b

instance (s : Mounted T) (a : MountedStep T) : Decidable (Calm s a) :=
  inferInstanceAs (Decidable (_ ∧ _))

/-- No operations wait for one another, and one of those under way can go on. -/
structure Live (s : Mounted T) : Prop where
  circleless : ∀ D, operations.Deadlocked (caches.viewed s) D → D = ∅
  goes : (∃ t, (s.task t).isSome = true) →
    ∃ t, (s.task t).isSome = true ∧ caches.Goes operations s t

theorem Live.of_circleless [Fintype T] {s : Mounted T} (h : Circleless (caches.viewed s)) :
    Live s := by
  refine ⟨fun D => h.eq_empty, fun hwork => ?_⟩
  obtain ⟨t, τ, hτ, hfree⟩ :=
    h.owned.exists_of_not_deadlocked (M := operations) (fun D => h.eq_empty) hwork
  refine ⟨t, ?_, Backing.goes_of_free caches_yields hτ hfree⟩
  rw [show s.task t = some τ from hτ]
  rfl

/-- On every calm run the operations under way go on, with locks that stay with the clients. -/
theorem cached_operations_live [Fintype T] {s : Mounted T}
    (hfresh : Locking.Fresh (caches.viewed s)) (hmem : s.mem.Consistent) (as : List (MountedStep T))
    (hok : (caches.system operations).StepsMeet Calm s as) :
    (caches.system operations).AlongRun Live s as := by
  refine (hok.alongRun (P := fun s' => Coherent s' ∧ Circleless (caches.viewed s'))
    (fun s₁ a s₂ h hok hs => ?_) ⟨.of_fresh hfresh hmem, .of_fresh hfresh⟩).mono
      fun s' h => .of_circleless h.2
  obtain ⟨hcoherent, hcircleless⟩ := h
  obtain ⟨hcareful, hcalm⟩ := hok
  have hserves := hcoherent.serves hcircleless.owned hcircleless.phased hcareful
  exact ⟨hcoherent.step hcircleless.owned hcircleless.phased hcareful hs,
    Backing.keeps_of_refines (fun _ _ _ h hok hs => h.step hok hs) hcircleless hcalm hserves hs⟩

section

/-- Two directories with no entries that the server does not have yet, each in the cache of a
client with its lock. -/
def twoDirectories : Mounted Bool where
  mem :=
    { clients := fun t => (ExtentClient.new.put (if t then 6 else 5) [] 0 0 0).2
      server := .new
      holder := fun lid => if lid = 5 then some false else if lid = 6 then some true else none
      clock := fun _ => 0 }
  owner _ := none
  task _ := none
  order := []
  returned := []

theorem twoDirectories_consistent : twoDirectories.mem.Consistent where
  tidy _ := ExtentClient.new_tidy.entered ..
  owned t eid h := by
    obtain ⟨buf, hbuf⟩ := Option.isSome_iff_exists.mp h
    obtain ⟨rfl, -⟩ | ⟨-, hnew⟩ := Map.find_insert_eq_some.mp hbuf
    · cases t <;> rfl
    · cases hnew
  pending _ _ h := absurd h List.not_mem_nil
  sized _ := ExtentServer.new_sized.put rfl
  served := ExtentServer.new_sized

/-- Each client makes a directory in its own one.  Then the second asks for the directory of the
first. -/
def makingDirectories : List (MountedStep Bool) :=
  [.start false (.addEntryToFilesystem 5 "a" false [⟨7, by decide, by decide⟩]),
    .start true (.addEntryToFilesystem 6 "b" false [⟨8, by decide, by decide⟩]),
    .go false, .go true, .go false, .go true, .go false, .go true, .go false, .go true, .go false,
    .go true, .go true, .go true, .go true, .finish true,
    .start true (.addEntryToFilesystem 5 "b" false [⟨4, by decide, by decide⟩]),
    .go false, .go false, .go false, .settle 5, .go true, .go true]

theorem cached_operations_live_makingDirectories :
    ((caches.system operations).run twoDirectories makingDirectories).isSome = true ∧
      (caches.system operations).AlongRun Live twoDirectories makingDirectories :=
  ⟨by decide +kernel,
    cached_operations_live ⟨fun _ => rfl, fun _ => rfl, rfl, rfl⟩ twoDirectories_consistent
      makingDirectories (by decide +kernel)⟩

/-- Each client draws the directory of the other, which the server does not have. -/
def crossing : List (MountedStep Bool) :=
  [.start false (.addEntryToFilesystem 5 "a" false [.six]),
    .start true (.addEntryToFilesystem 6 "b" false [.five]),
    .go false, .go true, .go false, .go true, .go false, .go true]

/- Without `Careful` the two wait for one another, and neither lock can be handed back. -/
example : (((caches.system operations).run twoDirectories crossing).any fun s =>
    [.go false, .go true, .finish false, .finish true, .settle 5, .settle 6].all fun a =>
      (caches.step operations s a).isNone) = true := by
  decide +kernel

end

end Mounted

end Yfs
end Frangipani
