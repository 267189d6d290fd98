/-
One caching client against a plain map.

A session is a client with sole access to a server.  `view` is the map its
caller is meant to see: the cached buffer, nothing for an id whose removal has
not reached the server yet, and the server's buffer otherwise.  Every call keeps
`view` in step with the plain map, with two exceptions.  `remove` consults only
the cache, so it answers `NOENT` for an id that only the server has, and `get`
of an id whose removal is pending fetches the server's old copy back.
`AsPlain` excludes these two calls, and `refinesPlainMap_iff` says that nothing
else goes wrong.
-/
import Frangipani.Extent.Client

namespace Frangipani
namespace Extent

inductive Call
  | get (eid : ExtentId) (now : UInt32)
  | put (eid : ExtentId) (buf : Buffer) (mtime ctime atime : UInt32)
  | remove (eid : ExtentId)
  | flush (eid : ExtentId)

def Call.eid : Call → ExtentId
  | .get eid _ | .put eid _ _ _ _ | .remove eid | .flush eid => eid

/-- `flush` returns nothing, and its reply is `OK` on both sides. -/
def plainExec (m : Map ExtentId Buffer) : Call → Reply × Map ExtentId Buffer
  | .get eid _ =>
    match m.find eid with
    | some buf => ((.ok, some buf), m)
    | none => ((.noent, none), m)
  | .put eid buf _ _ _ => ((.ok, none), m.insert eid buf)
  | .remove eid =>
    match m.find eid with
    | some _ => ((.ok, none), m.erase eid)
    | none => ((.noent, none), m)
  | .flush _ => ((.ok, none), m)

def plainRun (m : Map ExtentId Buffer) : List Call → List Reply × Map ExtentId Buffer
  | [] => ([], m)
  | call :: calls =>
    let (reply, m) := plainExec m call
    let (replies, m) := plainRun m calls
    (reply :: replies, m)

structure Session where
  client : ExtentClient
  server : ExtentServer

namespace Session

/-- A new client on a server with any contents. -/
def start (server : ExtentServer) : Session := { client := .new, server }

def exec (s : Session) : Call → Reply × Session
  | .get eid now =>
    let (reply, client, server) := s.client.get s.server eid now
    (reply, { client, server })
  | .put eid buf mtime ctime atime =>
    let (status, client) := s.client.put eid buf mtime ctime atime
    ((status, none), { s with client })
  | .remove eid =>
    let (status, client) := s.client.remove eid
    ((status, none), { s with client })
  | .flush eid =>
    let (client, server) := s.client.flush s.server eid
    ((.ok, none), { client, server })

def run (s : Session) : List Call → List Reply × Session
  | [] => ([], s)
  | call :: calls =>
    let (reply, s) := s.exec call
    let (replies, s) := s.run calls
    (reply :: replies, s)

def flushAll (s : Session) (ids : List ExtentId) : Session :=
  ids.foldl (fun s eid => (s.exec (.flush eid)).2) s

def Cached (s : Session) (eid : ExtentId) : Prop := s.client.extents.find eid ≠ none

def OnServer (s : Session) (eid : ExtentId) : Prop := s.server.extents.find eid ≠ none

/-- The removal of `eid` has been promised to the caller and not passed on. -/
def RemovalPending (s : Session) (eid : ExtentId) : Prop := eid ∈ s.client.removedExtents

/-- The calls the client answers as a plain map does. -/
def AsPlain (s : Session) : Call → Prop
  | .get eid _ => ¬ (s.RemovalPending eid ∧ s.OnServer eid)
  | .remove eid => s.Cached eid ∨ s.RemovalPending eid ∨ ¬ s.OnServer eid
  | .put .. | .flush _ => True

def AllAsPlain (s : Session) : List Call → Prop
  | [] => True
  | call :: calls => s.AsPlain call ∧ (s.exec call).2.AllAsPlain calls

/-- What the caller is meant to see. -/
def view (s : Session) : Map ExtentId Buffer := fun eid =>
  match s.client.extents.find eid with
  | some buf => some buf
  | none => if eid ∈ s.client.removedExtents then none else s.server.extents.find eid

/-- Cached ids are exactly the modified ones, an id pending removal is not
cached, and both are listed once. -/
structure Coherent (s : Session) : Prop where
  modified_nodup : s.client.modifiedExtents.Nodup
  cached_iff : ∀ eid, eid ∈ s.client.modifiedExtents ↔ s.client.extents.find eid ≠ none
  pending_uncached : ∀ eid ∈ s.client.removedExtents, s.client.extents.find eid = none
  pending_nodup : s.client.removedExtents.Nodup

/-- Nothing of `eid` is held back from the server. -/
def Settled (s : Session) (eid : ExtentId) : Prop :=
  s.client.extents.find eid = none ∧
    (eid ∈ s.client.removedExtents → s.server.extents.find eid = none)

theorem coherent_start (server : ExtentServer) : (start server).Coherent where
  modified_nodup := List.nodup_nil
  cached_iff := fun _ => by simp [start, ExtentClient.new, ExtentServer.new]
  pending_uncached := fun _ h => by simp [start, ExtentClient.new] at h
  pending_nodup := List.nodup_nil

theorem view_find (s : Session) (eid : ExtentId) :
    s.view.find eid =
      match s.client.extents.find eid with
      | some buf => some buf
      | none => if eid ∈ s.client.removedExtents then none else s.server.extents.find eid := rfl

theorem view_start (server : ExtentServer) : (start server).view = server.extents := by
  apply Map.ext
  intro eid
  rw [view_find]
  simp [start, ExtentClient.new, ExtentServer.new]

theorem settled_start (server : ExtentServer) (eid : ExtentId) : (start server).Settled eid :=
  ⟨rfl, fun h => by simp [start, ExtentClient.new] at h⟩

theorem view_of_settled {s : Session} {eid : ExtentId} (h : s.Settled eid) :
    s.view.find eid = s.server.extents.find eid := by
  rw [view_find, h.1]
  by_cases hp : eid ∈ s.client.removedExtents
  · simp [hp, h.2 hp]
  · simp [hp]

theorem eq_of_client_server {s t : Session} (hclient : t.client = s.client)
    (hserver : t.server = s.server) : t = s := by
  cases t
  cases s
  cases hclient
  cases hserver
  rfl

/-! ## One call -/

theorem view_find_of_cached {s : Session} {eid : ExtentId} {buf : Buffer}
    (h : s.client.extents.find eid = some buf) : s.view.find eid = some buf := by
  rw [view_find, h]

theorem view_find_of_uncached {s : Session} {eid : ExtentId}
    (h : s.client.extents.find eid = none) :
    s.view.find eid =
      if eid ∈ s.client.removedExtents then none else s.server.extents.find eid := by
  rw [view_find, h]

/-- Two sessions that agree on an id's cached buffer, its pending removal and
its buffer on the server show the same at that id. -/
theorem view_congr {s t : Session} {eid : ExtentId}
    (hc : t.client.extents.find eid = s.client.extents.find eid)
    (hr : eid ∈ t.client.removedExtents ↔ eid ∈ s.client.removedExtents)
    (hs : t.server.extents.find eid = s.server.extents.find eid) :
    t.view.find eid = s.view.find eid := by
  simp only [view_find, hc, hr, hs]

theorem Coherent.mem_erase_pending {s : Session} (h : s.Coherent) {eid id : ExtentId} :
    id ∈ s.client.removedExtents.erase eid ↔ id ≠ eid ∧ id ∈ s.client.removedExtents :=
  h.pending_nodup.mem_erase_iff

/-- Entering `buf` under `eid` in the cache, as a put and a fetch do. -/
theorem Coherent.entered {s : Session} (h : s.Coherent) (eid : ExtentId) (buf : Buffer)
    {t : Session} (hext : t.client.extents = s.client.extents.insert eid buf)
    (hmod : t.client.modifiedExtents = ExtentClient.enqueue s.client.modifiedExtents eid)
    (hrem : t.client.removedExtents = s.client.removedExtents.erase eid)
    (hsrv : t.server.extents = s.server.extents) :
    t.Coherent ∧ t.view = s.view.insert eid buf := by
  constructor
  · constructor
    · rw [hmod]
      exact ExtentClient.enqueue_nodup h.modified_nodup eid
    · intro id
      rw [hmod, hext, ExtentClient.mem_enqueue, h.cached_iff, Map.find_insert]
      by_cases hid : id = eid <;> simp [hid]
    · intro id hid
      rw [hrem, h.mem_erase_pending] at hid
      rw [hext, Map.find_insert_ne _ _ hid.1]
      exact h.pending_uncached id hid.2
    · rw [hrem]
      exact h.pending_nodup.erase eid
  · apply Map.ext
    intro id
    by_cases hid : id = eid
    · subst hid
      rw [view_find, hext]
      simp
    · rw [Map.find_insert_ne _ _ hid]
      apply view_congr
      · rw [hext, Map.find_insert_ne _ _ hid]
      · rw [hrem, h.mem_erase_pending]
        exact and_iff_right hid
      · rw [hsrv]

/-- The session after a call, and the reply of that call, are the plain map's. -/
def Matches (s : Session) (call : Call) : Prop :=
  (s.exec call).1 = (plainExec s.view call).1 ∧
    (s.exec call).2.view = (plainExec s.view call).2 ∧ (s.exec call).2.Coherent

theorem matches_put {s : Session} (h : s.Coherent) (eid : ExtentId) (buf : Buffer)
    (mtime ctime atime : UInt32) : s.Matches (.put eid buf mtime ctime atime) := by
  have hput := h.entered eid buf (t := (s.exec (.put eid buf mtime ctime atime)).2)
    rfl rfl rfl rfl
  exact ⟨rfl, hput.2, hput.1⟩

theorem matches_get {s : Session} (h : s.Coherent) {eid : ExtentId} (now : UInt32)
    (hok : s.AsPlain (.get eid now)) : s.Matches (.get eid now) := by
  cases hc : s.client.extents.find eid with
  | some buf =>
    have hget := ExtentClient.get_cached s.server hc now
    have hview := view_find_of_cached hc
    have hext : (s.client.toExtentServer.get eid now).2.extents = s.client.extents :=
      ExtentServer.get_extents ..
    refine ⟨?_, ?_, ?_⟩
    · simp [exec, hget, plainExec, hview]
    · simp only [exec, hget, plainExec, hview]
      apply Map.ext
      intro id
      exact view_congr (by simp [ExtentClient.withLocal]) Iff.rfl rfl
    · simp only [exec, hget]
      exact ⟨h.modified_nodup,
        fun id => by simpa [ExtentClient.withLocal, hext] using h.cached_iff id,
        fun id hid => by simpa [ExtentClient.withLocal, hext] using h.pending_uncached id hid,
        h.pending_nodup⟩
  | none =>
    have hview := view_find_of_uncached hc
    cases hs : s.server.extents.find eid with
    | none =>
      have hget := ExtentClient.get_missing hc hs now
      rw [hs, ite_self] at hview
      simp [Matches, exec, hget, plainExec, hview, h]
    | some buf =>
      obtain ⟨attr, hget⟩ := ExtentClient.get_fetched hc hs now
      have hnot : eid ∉ s.client.removedExtents := fun hp =>
        hok ⟨hp, by simp [OnServer, hs]⟩
      rw [if_neg hnot, hs] at hview
      have hcached := h.entered eid buf (t := (s.exec (.get eid now)).2)
        (by simp only [exec, hget]; rfl) (by simp only [exec, hget]; rfl)
        (by simp only [exec, hget]; rfl) (by simp [exec, hget])
      refine ⟨?_, ?_, hcached.1⟩
      · simp [exec, hget, plainExec, hview]
      · rw [hcached.2]
        simp only [plainExec, hview]
        apply Map.ext
        intro id
        by_cases hid : id = eid
        · simp [hid, hview]
        · simp [hid]

theorem matches_remove {s : Session} (h : s.Coherent) {eid : ExtentId}
    (hok : s.AsPlain (.remove eid)) : s.Matches (.remove eid) := by
  cases hc : s.client.extents.find eid with
  | some buf =>
    obtain ⟨hst, hext, hmod, hrem⟩ := ExtentClient.remove_cached hc
    have hview := view_find_of_cached hc
    have hnot : eid ∉ s.client.removedExtents := fun hp => by
      rw [h.pending_uncached eid hp] at hc
      cases hc
    refine ⟨?_, ?_, ?_⟩
    · simp [exec, hst, plainExec, hview]
    · simp only [plainExec, hview]
      apply Map.ext
      intro id
      by_cases hid : id = eid
      · subst hid
        rw [Map.find_erase_self, view_find_of_uncached (by simp [exec, hext])]
        simp [exec, hrem]
      · rw [Map.find_erase_ne _ hid]
        exact view_congr (by simp [exec, hext, hid]) (by simp [exec, hrem, hid]) rfl
    · constructor
      · simpa [exec, hmod] using h.modified_nodup.erase eid
      · intro id
        simp only [exec, hmod, hext, h.modified_nodup.mem_erase_iff, h.cached_iff, Map.find_erase]
        by_cases hid : id = eid <;> simp [hid]
      · intro id hid
        simp only [exec, hrem, hext, List.mem_append, List.mem_singleton, Map.find_erase] at hid ⊢
        by_cases hide : id = eid
        · simp [hide]
        · simp only [hide, if_false, or_false] at hid ⊢
          exact h.pending_uncached id hid
      · simp only [exec, hrem]
        rw [← List.concat_eq_append]
        exact List.Nodup.concat hnot h.pending_nodup
  | none =>
    have hrem := ExtentClient.remove_uncached hc
    have hview : s.view.find eid = none := by
      rw [view_find_of_uncached hc]
      rcases hok with hcached | hp | hs
      · exact absurd hc hcached
      · exact if_pos hp
      · rw [not_not.mp hs, ite_self]
    simp [Matches, exec, hrem, plainExec, hview, h]

theorem flushModified_keeps {s t : Session} (h : s.Coherent) {eid : ExtentId}
    (hcl : t.client = (s.client.flushModified s.server eid).1)
    (hsv : t.server = (s.client.flushModified s.server eid).2) :
    t.Coherent ∧ t.view = s.view ∧ t.client.extents.find eid = none ∧
      ∀ id, id ≠ eid → s.Settled id → t.Settled id := by
  by_cases hm : eid ∈ s.client.modifiedExtents
  · obtain ⟨buf, hbuf⟩ := Option.ne_none_iff_exists'.mp ((h.cached_iff eid).mp hm)
    obtain ⟨hext, hmod, hrem, hsrv⟩ :=
      ExtentClient.flushModified_of_mem s.server hm hbuf
    rw [← hcl] at hext hmod hrem
    rw [← hsv] at hsrv
    have hnot : eid ∉ s.client.removedExtents := fun hp => by
      rw [h.pending_uncached eid hp] at hbuf
      cases hbuf
    refine ⟨⟨?_, ?_, ?_, ?_⟩, ?_, ?_, ?_⟩
    · rw [hmod]
      exact h.modified_nodup.filter _
    · intro id
      rw [hmod, hext, List.mem_filter, h.cached_iff, Map.find_erase]
      by_cases hid : id = eid <;> simp [hid]
    · intro id hid
      rw [hrem] at hid
      rw [hext, Map.find_erase]
      split
      · rfl
      · exact h.pending_uncached id hid
    · rw [hrem]
      exact h.pending_nodup
    · apply Map.ext
      intro id
      by_cases hid : id = eid
      · subst hid
        rw [view_find_of_cached hbuf, view_find_of_uncached (by simp [hext])]
        simp [hrem, hnot, hsrv]
      · exact view_congr (by simp [hext, hid]) (by simp [hrem]) (by simp [hsrv, hid])
    · simp [hext]
    · intro id hid hset
      exact ⟨by simpa [hext, hid] using hset.1, fun hp => by
        simpa [hsrv, hid] using hset.2 (by simpa [hrem] using hp)⟩
  · rw [ExtentClient.flushModified_of_not_mem hm] at hcl hsv
    have hc : s.client.extents.find eid = none :=
      not_not.mp fun hc => hm ((h.cached_iff eid).mpr hc)
    obtain rfl := eq_of_client_server hcl hsv
    exact ⟨h, rfl, hc, fun _ _ hset => hset⟩

theorem flushRemoved_keeps {s t : Session} (h : s.Coherent) {eid : ExtentId}
    (hc : s.client.extents.find eid = none)
    (hcl : t.client = (s.client.flushRemoved s.server eid).1)
    (hsv : t.server = (s.client.flushRemoved s.server eid).2) :
    t.Coherent ∧ t.view = s.view ∧ t.Settled eid ∧
      ∀ id, id ≠ eid → s.Settled id → t.Settled id := by
  by_cases hp : eid ∈ s.client.removedExtents
  · cases hs : s.server.extents.find eid with
    | none =>
      rw [ExtentClient.flushRemoved_of_missing hs] at hcl hsv
      obtain rfl := eq_of_client_server hcl hsv
      exact ⟨h, rfl, ⟨hc, fun _ => hs⟩, fun _ _ hset => hset⟩
    | some buf =>
      obtain ⟨hclient, hsrv⟩ := ExtentClient.flushRemoved_of_mem hp hs
      rw [← hcl] at hclient
      rw [← hsv] at hsrv
      refine ⟨⟨?_, ?_, ?_, ?_⟩, ?_, ⟨?_, ?_⟩, ?_⟩
      · rw [hclient]
        exact h.modified_nodup
      · rw [hclient]
        exact h.cached_iff
      · rw [hclient]
        exact fun id hid => h.pending_uncached id (List.mem_filter.mp hid).1
      · rw [hclient]
        exact h.pending_nodup.filter _
      · apply Map.ext
        intro id
        by_cases hid : id = eid
        · subst hid
          rw [view_find_of_uncached hc, view_find_of_uncached (by simpa [hclient] using hc)]
          simp [hp, hsrv]
        · exact view_congr (by rw [hclient]) (by simp [hclient, hid]) (by simp [hsrv, hid])
      · simpa [hclient] using hc
      · simp [hsrv]
      · intro id hid hset
        exact ⟨by simpa [hclient] using hset.1, fun hpend => by
          simpa [hsrv, hid] using hset.2 (by simpa [hclient, hid] using hpend)⟩
  · rw [ExtentClient.flushRemoved_of_not_mem hp] at hcl hsv
    obtain rfl := eq_of_client_server hcl hsv
    exact ⟨h, rfl, ⟨hc, fun hp' => absurd hp' hp⟩, fun _ _ hset => hset⟩

theorem flush_keeps {s : Session} (h : s.Coherent) (eid : ExtentId) :
    (s.exec (.flush eid)).2.Coherent ∧ (s.exec (.flush eid)).2.view = s.view ∧
      (s.exec (.flush eid)).2.Settled eid ∧
      ∀ id, id ≠ eid → s.Settled id → (s.exec (.flush eid)).2.Settled id := by
  let m : Session :=
    { client := (s.client.flushModified s.server eid).1
      server := (s.client.flushModified s.server eid).2 }
  obtain ⟨hco, hview, hc, hset⟩ := flushModified_keeps (t := m) h rfl rfl
  obtain ⟨hco', hview', hself, hset'⟩ :=
    flushRemoved_keeps (t := (s.exec (.flush eid)).2) hco hc rfl rfl
  exact ⟨hco', hview'.trans hview, hself, fun id hid hs => hset' id hid (hset id hid hs)⟩

theorem matches_of_asPlain {s : Session} (h : s.Coherent) {call : Call} (hok : s.AsPlain call) :
    s.Matches call := by
  cases call with
  | get eid now => exact matches_get h now hok
  | put eid buf mtime ctime atime => exact matches_put h eid buf mtime ctime atime
  | remove eid => exact matches_remove h hok
  | flush eid =>
    obtain ⟨hco, hview, -, -⟩ := flush_keeps h eid
    exact ⟨rfl, hview, hco⟩

/-- The two excluded calls are answered differently from a plain map. -/
theorem reply_ne_of_not_asPlain {s : Session} (h : s.Coherent) {call : Call}
    (hbad : ¬ s.AsPlain call) : (s.exec call).1 ≠ (plainExec s.view call).1 := by
  cases call with
  | get eid now =>
    obtain ⟨hp, hs⟩ := not_not.mp hbad
    obtain ⟨buf, hbuf⟩ := Option.ne_none_iff_exists'.mp hs
    have hc := h.pending_uncached eid hp
    obtain ⟨attr, hget⟩ := ExtentClient.get_fetched hc hbuf now
    have hview : s.view.find eid = none := by
      rw [view_find_of_uncached hc]
      exact if_pos hp
    simp [exec, hget, plainExec, hview]
  | remove eid =>
    simp only [AsPlain, not_or, not_not] at hbad
    obtain ⟨hc, hp, hs⟩ := hbad
    have hc : s.client.extents.find eid = none := not_not.mp hc
    obtain ⟨buf, hbuf⟩ := Option.ne_none_iff_exists'.mp hs
    have hview : s.view.find eid = some buf := by
      rw [view_find_of_uncached hc, hbuf]
      exact if_neg hp
    simp [exec, ExtentClient.remove_uncached hc, plainExec, hview]
  | put eid buf mtime ctime atime => exact absurd trivial hbad
  | flush eid => exact absurd trivial hbad

theorem exec_settled {s : Session} (h : s.Coherent) {call : Call} {id : ExtentId}
    (hid : id ≠ call.eid) (hset : s.Settled id) : (s.exec call).2.Settled id := by
  cases call with
  | get eid now =>
    replace hid : id ≠ eid := hid
    cases hc : s.client.extents.find eid with
    | some buf =>
      simp only [exec, ExtentClient.get_cached s.server hc now]
      exact ⟨by simpa [ExtentClient.withLocal] using hset.1, hset.2⟩
    | none =>
      cases hs : s.server.extents.find eid with
      | none => simpa only [exec, ExtentClient.get_missing hc hs now] using hset
      | some buf =>
        obtain ⟨attr, hget⟩ := ExtentClient.get_fetched hc hs now
        simp only [exec, hget]
        refine ⟨?_, fun hp => ?_⟩
        · exact (Map.find_insert_ne _ _ hid).trans hset.1
        · simpa using hset.2 (List.mem_of_mem_erase hp)
  | put eid buf mtime ctime atime =>
    replace hid : id ≠ eid := hid
    refine ⟨?_, fun hp => hset.2 (List.mem_of_mem_erase hp)⟩
    exact (Map.find_insert_ne _ _ hid).trans hset.1
  | remove eid =>
    replace hid : id ≠ eid := hid
    cases hc : s.client.extents.find eid with
    | some buf =>
      obtain ⟨-, hext, -, hrem⟩ := ExtentClient.remove_cached hc
      refine ⟨?_, fun hp => hset.2 ?_⟩
      · simpa [exec, hext, hid] using hset.1
      · simpa [exec, hrem, hid] using hp
    | none => simpa only [exec, ExtentClient.remove_uncached hc] using hset
  | flush eid => exact (flush_keeps h eid).2.2.2 id hid hset

/-! ## Whole runs -/

theorem run_replies_iff (calls : List Call) : ∀ {s : Session}, s.Coherent →
    ((s.run calls).1 = (plainRun s.view calls).1 ↔ s.AllAsPlain calls) := by
  induction calls with
  | nil => exact fun _ => ⟨fun _ => trivial, fun _ => rfl⟩
  | cons call calls ih =>
    intro s h
    constructor
    · intro heq
      simp only [run, plainRun, List.cons.injEq] at heq
      have hok : s.AsPlain call := not_not.mp fun hbad => reply_ne_of_not_asPlain h hbad heq.1
      obtain ⟨-, hview, hco⟩ := matches_of_asPlain h hok
      rw [← hview] at heq
      exact ⟨hok, (ih hco).mp heq.2⟩
    · rintro ⟨hok, hrest⟩
      obtain ⟨hreply, hview, hco⟩ := matches_of_asPlain h hok
      simp only [run, plainRun, List.cons.injEq]
      rw [← hview]
      exact ⟨hreply, (ih hco).mpr hrest⟩

theorem run_keeps {calls : List Call} : ∀ {s : Session}, s.Coherent → s.AllAsPlain calls →
    (s.run calls).2.Coherent ∧ (s.run calls).2.view = (plainRun s.view calls).2 ∧
      ∀ id, (∀ call ∈ calls, call.eid ≠ id) → s.Settled id → (s.run calls).2.Settled id := by
  induction calls with
  | nil => exact fun h _ => ⟨h, rfl, fun _ _ hset => hset⟩
  | cons call calls ih =>
    rintro s h ⟨hok, hrest⟩
    obtain ⟨-, hview, hco⟩ := matches_of_asPlain h hok
    obtain ⟨hco', hview', hset'⟩ := ih hco hrest
    refine ⟨hco', ?_, fun id hids hset => ?_⟩
    · simp only [run, plainRun]
      rw [hview', hview]
    · have hid : id ≠ call.eid := (hids call List.mem_cons_self).symm
      exact hset' id (fun c hc => hids c (List.mem_cons_of_mem call hc)) (exec_settled h hid hset)

theorem flushAll_keeps (ids : List ExtentId) : ∀ {s : Session}, s.Coherent →
    (s.flushAll ids).view = s.view ∧
      ∀ id, id ∈ ids ∨ s.Settled id → (s.flushAll ids).Settled id := by
  induction ids with
  | nil => exact fun _ => ⟨rfl, fun id h => h.resolve_left List.not_mem_nil⟩
  | cons eid ids ih =>
    intro s h
    obtain ⟨hco, hview, hself, hset⟩ := flush_keeps h eid
    obtain ⟨hview', hset'⟩ := ih hco
    refine ⟨hview'.trans hview, fun id hid => hset' id ?_⟩
    by_cases he : id = eid
    · exact Or.inr (he ▸ hself)
    · rcases hid with hid | hid
      · exact Or.inl ((List.mem_cons.mp hid).resolve_left he)
      · exact Or.inr (hset id he hid)

/-- Every reply is the plain map's, and once `flush` has been called on every
id used, in any order, the server holds the plain map. -/
def RefinesPlainMap (server : ExtentServer) (calls : List Call) : Prop :=
  ((start server).run calls).1 = (plainRun server.extents calls).1 ∧
    ∀ ids : List ExtentId, (∀ call ∈ calls, call.eid ∈ ids) →
      (((start server).run calls).2.flushAll ids).server.extents =
        (plainRun server.extents calls).2

theorem refinesPlainMap_iff (server : ExtentServer) (calls : List Call) :
    RefinesPlainMap server calls ↔ (start server).AllAsPlain calls := by
  have hstart := coherent_start server
  have hreplies := run_replies_iff calls hstart
  rw [view_start] at hreplies
  refine ⟨fun h => hreplies.mp h.1, fun hok => ⟨hreplies.mpr hok, fun ids hids => ?_⟩⟩
  obtain ⟨hco, hview, hset⟩ := run_keeps hstart hok
  obtain ⟨hview', hset'⟩ := flushAll_keeps ids hco
  apply Map.ext
  intro id
  have hsettled : (((start server).run calls).2.flushAll ids).Settled id := by
    apply hset'
    by_cases hid : id ∈ ids
    · exact Or.inl hid
    · exact Or.inr (hset id (fun c hc he => hid (he ▸ hids c hc)) (settled_start server id))
  rw [← view_of_settled hsettled, hview', hview, view_start]

/-- Reading a stored extent, removing it and reading it again returns the old
buffer: the removal is pending and the second read fetches the server's copy. -/
theorem get_after_remove_not_refinesPlainMap :
    ¬ RefinesPlainMap (ExtentServer.new.put 7 [1] default).2
      [.get 7 0, .remove 7, .get 7 0] := by
  rintro ⟨hreplies, -⟩
  revert hreplies
  decide

end Session
end Extent
end Frangipani
