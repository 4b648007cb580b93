import PackageMigration.Archive.Spool
/-
  Where converted payloads wait until their archive is written.

  * `BufferMode`: in memory or in a spool.
  * `Stash`: `put` and `get?`.
-/
namespace PackageMigration

/-- Where converted payloads wait. -/
inductive BufferMode where
  | inMemory
  | spooled
  deriving DecidableEq, Repr

/-- The mode used when none is chosen. -/
def BufferMode.default : BufferMode := .spooled

instance : Inhabited BufferMode := ⟨.default⟩

/-- A payload put away. -/
inductive Held where
  | inMemory (payload : Bytes)
  | spooled (slot : Spool.Slot)
  deriving DecidableEq, Repr

/-- The place for payloads, with a spool if they go there. -/
structure Stash where
  spool : Option Spool
  deriving DecidableEq, Repr

namespace Stash

def empty : BufferMode → Stash
  | .inMemory => ⟨none⟩
  | .spooled => ⟨some .empty⟩

def put (s : Stash) (payload : Bytes) : Held × Stash :=
  match s.spool with
  | none => (.inMemory payload, s)
  | some spool =>
    let (slot, spool) := spool.push payload
    (.spooled slot, ⟨some spool⟩)

/-- A payload put away before. -/
def get? (s : Stash) : Held → Option (Bytes × Stash)
  | .inMemory payload => some (payload, s)
  | .spooled slot =>
    match s.spool with
    | none => none
    | some spool => (spool.read? slot).map fun (payload, spool) => (payload, ⟨some spool⟩)

end Stash

end PackageMigration
