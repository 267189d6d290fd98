/-
How often a handler replies.

The kernel waits for one reply to each request.  Every handler gives exactly one before it
returns, whatever the operations of `yfs_client` answer, but `mkdir`: for a name that is
there it gives none, and when `makedir` fails it gives two.
-/
import Frangipani.Fuse.Handlers

namespace Frangipani
namespace Fuse

open Program Yfs YfsClient

def Command.isReply : Command → Bool
  | .reply _ => true
  | .yfs _ => false

/-- The number of replies of a run. -/
def replies (calls : Prog.Calls Command Answer) : Nat := calls.countP fun e => e.1.isReply

/-- The handler has not returned, or it has replied exactly once. -/
def RepliesOnce (returned : Bool) (calls : Prog.Calls Command Answer) : Prop :=
  returned = true → replies calls = 1

/-- A `mkdir` that has found the name, or whose `makedir` has failed. -/
def Handler.Astray : Handler → Prog.Calls Command Answer → Prop
  | .mkdir parent name draws _, calls =>
    (∃ inum : Inum, inum ≠ 0 ∧ ⟨.yfs (.ilookup parent name), inum⟩ ∈ calls) ∨
      ∃ (ret : Int) (newInum : Option Inum), ret ≠ OK ∧
        ⟨.yfs (.addEntryToFilesystem parent name false draws), some (ret, newInum)⟩ ∈ calls
  | _, _ => False

/-! ## Programs with a fixed number of replies -/

/-- The program replies `n` times. -/
def Replies {α : Type} (n : Nat) (p : M α) : Prop := p.All fun calls _ => replies calls = n

section

variable {α β : Type} {m n : Nat}

theorem replies_append (calls calls' : Prog.Calls Command Answer) :
    replies (calls ++ calls') = replies calls + replies calls' := List.countP_append ..

theorem replies_cons_yfs (op : Operation) (x : op.Result) (calls : Prog.Calls Command Answer) :
    replies (⟨.yfs op, x⟩ :: calls) = replies calls :=
  List.countP_cons_of_neg (by simp [Command.isReply])

theorem replies_cons_reply (r : Reply) (x : Unit) (calls : Prog.Calls Command Answer) :
    replies (⟨.reply r, x⟩ :: calls) = replies calls + 1 :=
  List.countP_cons_of_pos rfl

theorem replies_pure (a : α) : Replies 0 (pure a : M α) := rfl

theorem replies_reply (r : Reply) : Replies 1 (reply r) := fun _ => rfl

theorem Replies.bind {p : M α} {f : α → M β} (hp : Replies m p) (hf : ∀ a, Replies n (f a)) :
    Replies (m + n) (p >>= f) := by
  refine (Prog.all_bind p f).mpr (hp.mono fun calls a hcalls => ?_)
  refine (hf a).mono fun calls' b hcalls' => ?_
  rw [replies_append, hcalls, hcalls']

theorem Replies.yfs {op : Operation} {f : op.Result → M β} (hf : ∀ a, Replies n (f a)) :
    Replies n (yfs op >>= f) := by
  intro x
  refine (hf x).mono fun calls b hcalls => ?_
  exact (replies_cons_yfs op x calls).trans hcalls

theorem Replies.ite {c : Prop} [Decidable c] {p q : M α} (hp : Replies n p) (hq : Replies n q) :
    Replies n (if c then p else q) := by
  split
  · exact hp
  · exact hq

theorem Replies.returning {p : M Unit} (hp : Replies 1 p) :
    (returning p).All fun calls returned => RepliesOnce returned calls := by
  have hall : Replies 1 (Fuse.returning p) := hp.bind fun _ => replies_pure true
  exact hall.mono fun calls _ hcalls _ => hcalls

end

theorem getattr_replies (inum : Inum) : Replies 0 (getattr inum) := by
  unfold getattr
  refine .ite (.yfs fun r => ?_) (.yfs fun r => ?_)
  · exact .ite (replies_pure _) (replies_pure _)
  · exact .ite (replies_pure _) (replies_pure _)

theorem createhelper_replies (parent : Inum) (name : String) (draws : List Draw) (u : Unset) :
    Replies 0 (fuseserverCreatehelper parent name draws u) := by
  unfold fuseserverCreatehelper
  refine .ite (replies_pure _) (.yfs fun din => .ite (replies_pure _) (.yfs fun inum => .ite ?_ ?_))
  · refine .yfs fun r => ?_
    cases r with
    | none => exact replies_pure _
    | some r =>
      exact .ite (replies_pure _) ((getattr_replies _).bind fun r => replies_pure _)
  · exact (getattr_replies _).bind fun r => replies_pure _

/-! ## The handlers -/

theorem getattr_repliesOnce (ino : Inum) : Replies 1 (fuseserverGetattr ino) :=
  (getattr_replies ino).bind fun _ => .ite (replies_reply _) (replies_reply _)

theorem setattr_repliesOnce (ino : Inum) (stSize : UInt64) (toSet : UInt32) :
    Replies 1 (fuseserverSetattr ino stSize toSet) := by
  unfold fuseserverSetattr
  refine .ite (.yfs fun ret => .ite (replies_reply _) ?_) (replies_reply _)
  exact (getattr_replies ino).bind fun _ => .ite (replies_reply _) (replies_reply _)

theorem lookup_repliesOnce (parent : Inum) (name : String) :
    Replies 1 (fuseserverLookup parent name) := by
  refine .yfs fun inum => .ite ?_ (replies_reply _)
  exact (getattr_replies inum).bind fun _ => .ite (replies_reply _) (replies_reply _)

theorem readdir_repliesOnce (lib : Libfuse) (ino : Inum) (size off : UInt64) :
    Replies 1 (fuseserverReaddir lib ino size off) := by
  unfold fuseserverReaddir
  exact .ite (replies_reply _) (.yfs fun _ => .ite (replies_reply _) (replies_reply _))

theorem unlink_repliesOnce (parent : Inum) (name : String) (u : Unset) :
    Replies 1 (fuseserverUnlink parent name u) := by
  refine .yfs fun inum => .ite (.yfs fun ret => ?_) (replies_reply _)
  exact .ite (replies_reply _) (replies_reply _)

theorem repliesOnce_of_helper {p : M (Option (Int × EntryParam))} (hp : Replies 0 p)
    {f : Option (Int × EntryParam) → M Bool} (hnone : f none = pure false)
    (hsome : ∀ r, Replies 1 (f (some r))) :
    (p >>= f).All fun calls returned => RepliesOnce returned calls := by
  refine (Prog.all_bind p f).mpr (hp.mono fun calls r hcalls => ?_)
  cases r with
  | none =>
    rw [hnone]
    intro h
    cases h
  | some r =>
    refine (hsome r).mono fun calls' _ hcalls' _ => ?_
    rw [replies_append, hcalls, hcalls']

theorem create_repliesOnce (parent : Inum) (name : String) (draws : List Draw) (u : Unset) :
    (fuseserverCreate parent name draws u).All fun calls returned =>
      RepliesOnce returned calls := by
  refine repliesOnce_of_helper (createhelper_replies parent name draws u) rfl fun r => ?_
  exact .ite ((replies_reply _).bind fun _ => replies_pure _)
    ((replies_reply _).bind fun _ => replies_pure _)

theorem mknod_repliesOnce (parent : Inum) (name : String) (draws : List Draw) (u : Unset) :
    (fuseserverMknod parent name draws u).All fun calls returned => RepliesOnce returned calls := by
  refine repliesOnce_of_helper (createhelper_replies parent name draws u) rfl fun r => ?_
  exact .ite ((replies_reply _).bind fun _ => replies_pure _)
    ((replies_reply _).bind fun _ => replies_pure _)

/-! ## `mkdir` -/

/-- A call after which `mkdir` is not astray. -/
def Harmless (parent : Inum) (name : String) (draws : List Draw)
    (e : (c : Command) × Answer c) : Prop :=
  (∀ inum : Inum, e = ⟨.yfs (.ilookup parent name), inum⟩ → inum = 0) ∧
    ∀ (ret : Int) (newInum : Option Inum),
      e = ⟨.yfs (.addEntryToFilesystem parent name false draws), some (ret, newInum)⟩ → ret = OK

section

variable {parent : Inum} {name : String} {draws : List Draw} {u : Unset}

theorem not_astray {calls : Prog.Calls Command Answer}
    (h : ∀ e ∈ calls, Harmless parent name draws e) :
    ¬ (Handler.mkdir parent name draws u).Astray calls := by
  rintro (⟨inum, hne, hmem⟩ | ⟨ret, newInum, hne, hmem⟩)
  · exact hne ((h _ hmem).1 inum rfl)
  · exact hne ((h _ hmem).2 ret newInum rfl)

theorem harmless_other {e : (c : Command) × Answer c} (hlookup : e.1 ≠ .yfs (.ilookup parent name))
    (hadd : e.1 ≠ .yfs (.addEntryToFilesystem parent name false draws)) :
    Harmless parent name draws e :=
  ⟨fun _ h => absurd (congrArg Sigma.fst h) hlookup,
    fun _ _ h => absurd (congrArg Sigma.fst h) hadd⟩

theorem harmless_missing :
    Harmless parent name draws ⟨.yfs (.ilookup parent name), (0 : Inum)⟩ :=
  ⟨fun _ h => (by cases h; rfl), fun _ _ h => (by cases h)⟩

theorem harmless_made (newInum : Option Inum) :
    Harmless parent name draws
      ⟨.yfs (.addEntryToFilesystem parent name false draws), some (OK, newInum)⟩ :=
  ⟨fun _ h => (by cases h), fun _ _ h => (by cases h; rfl)⟩

theorem harmless_unfinished :
    Harmless parent name draws ⟨.yfs (.addEntryToFilesystem parent name false draws), none⟩ :=
  ⟨fun _ h => (by cases h), fun _ _ h => (by cases h)⟩

theorem getattr_harmless (parent : Inum) (name : String) (draws : List Draw) (inum : Inum) :
    (getattr inum).All fun calls _ => ∀ e ∈ calls, Harmless parent name draws e := by
  unfold getattr
  split
  · intro r
    have hall : ∀ e ∈ [(⟨.yfs (.getfile inum), r⟩ : (c : Command) × Answer c)],
        Harmless parent name draws e :=
      List.forall_mem_singleton.mpr (harmless_other nofun nofun)
    show Prog.All _ (if r.1 ≠ OK then _ else _)
    split
    · exact hall
    · exact hall
  · intro r
    have hall : ∀ e ∈ [(⟨.yfs (.getdir inum), r⟩ : (c : Command) × Answer c)],
        Harmless parent name draws e :=
      List.forall_mem_singleton.mpr (harmless_other nofun nofun)
    show Prog.All _ (if r.1 ≠ OK then _ else _)
    split
    · exact hall
    · exact hall

theorem mkdirReply_all (parent : Inum) (name : String) (draws : List Draw) (newInum : Inum) :
    (mkdirReply newInum).All fun calls _ =>
      replies calls = 1 ∧ ∀ e ∈ calls, Harmless parent name draws e := by
  refine Prog.All.and ((getattr_replies newInum).bind fun _ =>
    .ite (replies_reply _) (replies_reply _)) ?_
  refine (Prog.all_bind _ _).mpr ((getattr_harmless parent name draws newInum).mono ?_)
  intro calls r hcalls
  have hall : ∀ reply : Reply, ∀ e ∈ calls ++ [(⟨.reply reply, ()⟩ : (c : Command) × Answer c)],
      Harmless parent name draws e := fun reply =>
    List.forall_mem_append.mpr
      ⟨hcalls, List.forall_mem_singleton.mpr (harmless_other nofun nofun)⟩
  split
  · exact fun _ => hall _
  · exact fun _ => hall _

theorem mkdir_repliesOnce_iff :
    (fuseserverMkdir parent name draws u).All fun calls returned =>
      (RepliesOnce returned calls ↔ ¬ (Handler.mkdir parent name draws u).Astray calls) := by
  unfold fuseserverMkdir
  split
  · intro _
    exact iff_of_true (fun _ => rfl)
      (not_astray (List.forall_mem_singleton.mpr (harmless_other nofun nofun)))
  intro din
  have hdin : Harmless parent name draws ⟨.yfs (.getdir parent), din⟩ := harmless_other nofun nofun
  show Prog.All _ (if din.1 ≠ OK then _ else _)
  split
  · intro _
    exact iff_of_true (fun _ => rfl) (not_astray (List.forall_mem_cons.mpr
      ⟨hdin, List.forall_mem_singleton.mpr (harmless_other nofun nofun)⟩))
  intro inum
  show Prog.All _ (if inum = 0 then _ else _)
  split
  case isFalse hfound =>
    refine iff_of_false (fun h => ?_) (not_not_intro ?_)
    · have hnone : (0 : Nat) = 1 := h rfl
      cases hnone
    · exact .inl ⟨inum, hfound, List.mem_cons_of_mem _ List.mem_cons_self⟩
  case isTrue hmissing =>
    subst hmissing
    intro r
    cases r with
    | none =>
      refine iff_of_true (fun h => by cases h) (not_astray ?_)
      exact List.forall_mem_cons.mpr ⟨hdin, List.forall_mem_cons.mpr
        ⟨harmless_missing, List.forall_mem_singleton.mpr harmless_unfinished⟩⟩
    | some r =>
      obtain ⟨ret, newInum⟩ := r
      show Prog.All _ (if ret ≠ OK then _ else _)
      split
      case isTrue hfail =>
        -- One reply for the failure, and one more at the end.
        intro _
        show Prog.All _ (mkdirReply _ >>= _)
        rw [Prog.all_bind]
        refine (mkdirReply_all parent name draws _).mono fun calls r hcalls => ?_
        refine iff_of_false (fun h => ?_) (not_not_intro (.inr ⟨ret, newInum, hfail, ?_⟩))
        · have htwo := h rfl
          rw [replies_cons_yfs, replies_cons_yfs, replies_cons_yfs, replies_cons_reply,
            List.append_nil, hcalls.1] at htwo
          cases htwo
        · exact List.mem_cons_of_mem _ (List.mem_cons_of_mem _ List.mem_cons_self)
      case isFalse hok =>
        obtain rfl : ret = OK := not_not.mp hok
        show Prog.All _ (mkdirReply _ >>= _)
        rw [Prog.all_bind]
        refine (mkdirReply_all parent name draws _).mono fun calls r hcalls => ?_
        refine iff_of_true (fun _ => ?_) (not_astray ?_)
        · rw [replies_cons_yfs, replies_cons_yfs, replies_cons_yfs, List.append_nil, hcalls.1]
        · rw [List.append_nil]
          exact List.forall_mem_cons.mpr ⟨hdin, List.forall_mem_cons.mpr ⟨harmless_missing,
            List.forall_mem_cons.mpr ⟨harmless_made newInum, hcalls.2⟩⟩⟩

end

/-- For every registered handler, all arguments and any answers of the operations: the handler
replies exactly once before it returns if and only if it is not a `mkdir` that has found the name
or whose `makedir` has failed. -/
theorem Handler.repliesOnce_iff_not_astray (h : Handler) {calls : Prog.Calls Command Answer}
    {returned : Bool} (hrun : h.program.Runs calls returned) :
    RepliesOnce returned calls ↔ ¬ h.Astray calls := by
  cases h with
  | getattr ino => exact iff_of_true ((getattr_repliesOnce ino).returning.of_runs hrun) id
  | setattr ino stSize toSet =>
    exact iff_of_true ((setattr_repliesOnce ino stSize toSet).returning.of_runs hrun) id
  | lookup parent name =>
    exact iff_of_true ((lookup_repliesOnce parent name).returning.of_runs hrun) id
  | create parent name draws u =>
    exact iff_of_true ((create_repliesOnce parent name draws u).of_runs hrun) id
  | mknod parent name draws u =>
    exact iff_of_true ((mknod_repliesOnce parent name draws u).of_runs hrun) id
  | «open» ino =>
    have honce : Replies 1 (fuseserverOpen ino) :=
      .yfs fun _ => .ite (replies_reply _) (replies_reply _)
    exact iff_of_true (honce.returning.of_runs hrun) id
  | read ino size off =>
    have honce : Replies 1 (fuseserverRead ino size off) :=
      .yfs fun _ => .ite (replies_reply _) (replies_reply _)
    exact iff_of_true (honce.returning.of_runs hrun) id
  | write ino buf off =>
    have honce : Replies 1 (fuseserverWrite ino buf off) :=
      .yfs fun _ => .ite (replies_reply _) (replies_reply _)
    exact iff_of_true (honce.returning.of_runs hrun) id
  | readdir lib ino size off =>
    exact iff_of_true ((readdir_repliesOnce lib ino size off).returning.of_runs hrun) id
  | mkdir parent name draws u => exact mkdir_repliesOnce_iff.of_runs hrun
  | unlink parent name u =>
    exact iff_of_true ((unlink_repliesOnce parent name u).returning.of_runs hrun) id
  | statfs => exact iff_of_true ((replies_reply (.statfs 255 512)).returning.of_runs hrun) id

/-- Nothing is set. -/
def Unset.zero : Unset := ⟨⟨0, ⟨0, 0, 0, 0, 0, 0, 0⟩, 0, 0⟩, 0, 0, 0⟩

/-- The handler of a request to make directory `d` in the root, with the draw of number 5. -/
def makeD : Handler := .mkdir 1 "d" [.five] .zero

/-- The calls until the name is known to be missing, and `makedir` has returned. -/
def madeCalls (ret : Int) : Prog.Calls Command Answer :=
  [⟨.yfs (.getdir 1), ((0 : Int), some ⟨0, 0, 0⟩)⟩, ⟨.yfs (.ilookup 1 "d"), (0 : Inum)⟩,
    ⟨.yfs (.addEntryToFilesystem 1 "d" false [.five]), some (ret, some (5 : Inum))⟩]

/-- The entry of the new directory. -/
def entryD : EntryParam := ⟨5, ⟨5, dirMode, 2, 0, 0, 0, 0⟩, 0, 0⟩

def endCalls : Prog.Calls Command Answer :=
  [⟨.yfs (.getdir 5), ((0 : Int), some ⟨0, 0, 0⟩)⟩, ⟨.reply (.entry entryD), ()⟩]

theorem endCalls_runs : (mkdirReply 5).Runs endCalls () := by
  refine Prog.Runs.call (A := Answer) (c := .yfs (.getdir 5)) ((0 : Int), some ⟨0, 0, 0⟩) ?_
  exact Prog.Runs.call (A := Answer) (c := .reply (.entry entryD)) () (.done ())

theorem repliesOnce_makeD :
    makeD.program.Runs (madeCalls 0 ++ endCalls) true ∧
      RepliesOnce true (madeCalls 0 ++ endCalls) := by
  have hrun : makeD.program.Runs (madeCalls 0 ++ endCalls) true := by
    refine Prog.Runs.call (A := Answer) (c := .yfs (.getdir 1)) ((0 : Int), some ⟨0, 0, 0⟩) ?_
    refine Prog.Runs.call (A := Answer) (c := .yfs (.ilookup 1 "d")) (0 : Inum) ?_
    refine Prog.Runs.call (A := Answer) (c := .yfs (.addEntryToFilesystem 1 "d" false [.five]))
      (some ((0 : Int), some (5 : Inum))) ?_
    exact endCalls_runs.bind (.done true)
  refine ⟨hrun, (Handler.repliesOnce_iff_not_astray makeD hrun).mpr ?_⟩
  simp [Handler.Astray, makeD, madeCalls, endCalls]

/-- A name that is there gets no reply, and a `makedir` that fails gets two. -/
theorem mkdir_not_repliesOnce :
    (makeD.program.Runs [⟨.yfs (.getdir 1), ((0 : Int), some ⟨0, 0, 0⟩)⟩,
        ⟨.yfs (.ilookup 1 "d"), (5 : Inum)⟩] true ∧
      replies [⟨.yfs (.getdir 1), ((0 : Int), some ⟨0, 0, 0⟩)⟩,
        ⟨.yfs (.ilookup 1 "d"), (5 : Inum)⟩] = 0) ∧
    makeD.program.Runs (madeCalls 1 ++ ⟨.reply (.err ENOENT), ()⟩ :: endCalls) true ∧
      replies (madeCalls 1 ++ ⟨.reply (.err ENOENT), ()⟩ :: endCalls) = 2 := by
  refine ⟨⟨?_, rfl⟩, ?_, rfl⟩
  · refine Prog.Runs.call (A := Answer) (c := .yfs (.getdir 1)) ((0 : Int), some ⟨0, 0, 0⟩) ?_
    exact Prog.Runs.call (A := Answer) (c := .yfs (.ilookup 1 "d")) (5 : Inum) (.done true)
  · refine Prog.Runs.call (A := Answer) (c := .yfs (.getdir 1)) ((0 : Int), some ⟨0, 0, 0⟩) ?_
    refine Prog.Runs.call (A := Answer) (c := .yfs (.ilookup 1 "d")) (0 : Inum) ?_
    refine Prog.Runs.call (A := Answer) (c := .yfs (.addEntryToFilesystem 1 "d" false [.five]))
      (some ((1 : Int), some (5 : Inum))) ?_
    refine Prog.Runs.call (A := Answer) (c := .reply (.err ENOENT)) () ?_
    exact endCalls_runs.bind (.done true)

end Fuse
end Frangipani
