import PackageMigration.Bytes
/-
  Spools: files that payloads are put away in, one behind the other.

  * `ByteFile`: a file with a position, which `seek`, `write` and `read?` move.
  * `Spool`: `push` puts a payload away, `read?` gets it back from its slot.
-/
namespace PackageMigration

/-- A file and the position at which it is read and written next. -/
structure ByteFile where
  content : Array UInt8
  position : Nat
  deriving DecidableEq, Repr

namespace ByteFile

def empty : ByteFile := ⟨#[], 0⟩

def seek (f : ByteFile) (position : Nat) : ByteFile := { f with position }

/-- The bytes take the place of what stands at the position. Behind the end the file is filled up with
zeros first. -/
def write (f : ByteFile) (s : Bytes) : ByteFile :=
  let ⟨content, position⟩ := f
  let gap := Array.replicate (position - content.size) 0
  let behind := content.extract (position + s.length)
  ⟨content.shrink position ++ gap ++ s ++ behind, position + s.length⟩

theorem toList_write (f : ByteFile) (s : Bytes) :
    (f.write s).content.toList =
      f.content.toList.take f.position ++ List.replicate (f.position - f.content.size) 0 ++ s ++
        f.content.toList.drop (f.position + s.length) := by
  simp [write, List.take_of_length_le]

/-- The next `n` bytes, if the file has so many. -/
def read? (f : ByteFile) (n : Nat) : Option (Bytes × ByteFile) :=
  let s := f.content.extract f.position (f.position + n)
  if s.size = n then some (s.toList, { f with position := f.position + n }) else none

end ByteFile

/-- A file of payloads, and where the next one goes. -/
structure Spool where
  file : ByteFile
  size : Nat
  deriving DecidableEq, Repr

/-- Where a payload is put away. -/
structure Spool.Slot where
  offset : Nat
  length : Nat
  deriving DecidableEq, Repr

namespace Spool

def empty : Spool := ⟨.empty, 0⟩

def isEmpty (s : Spool) : Bool := s.size == 0

/-- Put a payload away behind all others. -/
def push (s : Spool) (payload : Bytes) : Slot × Spool :=
  (⟨s.size, payload.length⟩,
    ⟨(s.file.seek s.size).write payload, s.size + payload.length⟩)

/-- The payload in a slot, if the spool has it. -/
def read? (s : Spool) (slot : Slot) : Option (Bytes × Spool) :=
  ((s.file.seek slot.offset).read? slot.length).map fun (payload, file) => (payload, { s with file })

end Spool

end PackageMigration
