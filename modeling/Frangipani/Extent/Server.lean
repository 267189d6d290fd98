/-
The extent server: two maps keyed by extent id, one for contents and one for
attributes.

`put` enters an id in both maps and `remove` deletes it from both, so the maps
always have the same keys.  The structure carries that fact.  `extent_client`
derives from `extent_server` and uses its operations on a local pair of maps.
-/
import Frangipani.Data.Map

namespace Frangipani
namespace Extent

/-- `extent_protocol::xxstatus`. -/
inductive Status
  | ok
  | rpcerr
  | noent
  | ioerr
  | fbig
  deriving DecidableEq, Repr

/-- `extent_protocol::extentid_t`. -/
abbrev ExtentId := UInt64

/-- The bytes of a `std::string`. -/
abbrev Buffer := List UInt8

/-- `extent_protocol::attr`. -/
structure Attr where
  atime : UInt32
  mtime : UInt32
  ctime : UInt32
  size : UInt32
  deriving DecidableEq, Repr, Inhabited

/-- What a read hands back: its status, and the buffer when it was filled. -/
abbrev Reply := Status × Option Buffer

@[ext] structure ExtentServer where
  extents : Map ExtentId Buffer
  extentAttrs : Map ExtentId Attr
  sameKeys : ∀ id, (extents.find id).isSome = (extentAttrs.find id).isSome

namespace ExtentServer

def new : ExtentServer := { extents := .empty, extentAttrs := .empty, sameKeys := fun _ => rfl }

def put (s : ExtentServer) (id : ExtentId) (buf : Buffer) (attr : Attr) : Status × ExtentServer :=
  (.ok,
    { extents := s.extents.insert id buf
      extentAttrs := s.extentAttrs.insert id attr
      sameKeys := fun k => by
        by_cases h : k = id
        · simp [h]
        · simpa [h] using s.sameKeys k })

/-- A read refreshes the access time with `now`, the value of `time(0)`. -/
def get (s : ExtentServer) (id : ExtentId) (now : UInt32) : Reply × ExtentServer :=
  match s.extents.find id, h : s.extentAttrs.find id with
  | some buf, some attr =>
    ((.ok, some buf),
      { s with
        extentAttrs := s.extentAttrs.insert id { attr with atime := now }
        sameKeys := fun k => by
          by_cases hk : k = id
          · simpa [hk, h] using s.sameKeys id
          · simpa [hk] using s.sameKeys k })
  | _, _ => ((.noent, none), s)

def getattr (s : ExtentServer) (id : ExtentId) : Status × Option Attr :=
  match s.extentAttrs.find id with
  | some attr => (.ok, some attr)
  | none => (.noent, none)

def remove (s : ExtentServer) (id : ExtentId) : Status × ExtentServer :=
  match s.extents.find id with
  | some _ =>
    (.ok,
      { extents := s.extents.erase id
        extentAttrs := s.extentAttrs.erase id
        sameKeys := fun k => by
          by_cases h : k = id
          · simp [h]
          · simpa [h] using s.sameKeys k })
  | none => (.noent, s)

theorem extentAttrs_find_of_extents_find {s : ExtentServer} {id : ExtentId} {buf : Buffer}
    (h : s.extents.find id = some buf) : ∃ attr, s.extentAttrs.find id = some attr := by
  have hkeys := s.sameKeys id
  rw [h] at hkeys
  exact Option.isSome_iff_exists.mp hkeys.symm

theorem get_eq_of_find {s : ExtentServer} {id : ExtentId} {buf : Buffer}
    (h : s.extents.find id = some buf) (now : UInt32) :
    (s.get id now).1 = (.ok, some buf) := by
  obtain ⟨attr, hattr⟩ := extentAttrs_find_of_extents_find h
  unfold get
  split
  · next b a hb _ =>
    rw [h] at hb
    cases hb
    rfl
  · next hno => exact absurd hattr (hno buf attr h)

theorem get_eq_of_not_find {s : ExtentServer} {id : ExtentId}
    (h : s.extents.find id = none) (now : UInt32) : s.get id now = ((.noent, none), s) := by
  unfold get
  split
  · next b a hb _ => rw [h] at hb; cases hb
  · rfl

@[simp] theorem get_extents (s : ExtentServer) (id : ExtentId) (now : UInt32) :
    (s.get id now).2.extents = s.extents := by
  unfold get
  split <;> rfl

theorem getattr_eq_of_find {s : ExtentServer} {id : ExtentId} {buf : Buffer}
    (h : s.extents.find id = some buf) : ∃ attr, s.getattr id = (.ok, some attr) := by
  obtain ⟨attr, hattr⟩ := extentAttrs_find_of_extents_find h
  exact ⟨attr, by simp [getattr, hattr]⟩

theorem remove_of_find {s : ExtentServer} {id : ExtentId} {buf : Buffer}
    (h : s.extents.find id = some buf) :
    (s.remove id).1 = .ok ∧ (s.remove id).2.extents = s.extents.erase id := by
  unfold remove
  split
  · exact ⟨rfl, rfl⟩
  · next hno => rw [h] at hno; cases hno

theorem remove_of_not_find {s : ExtentServer} {id : ExtentId}
    (h : s.extents.find id = none) : s.remove id = (.noent, s) := by
  unfold remove
  split
  · next hb => rw [h] at hb; cases hb
  · rfl

end ExtentServer
end Extent
end Frangipani
