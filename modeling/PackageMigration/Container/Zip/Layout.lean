import PackageMigration.Bytes.Number
import PackageMigration.Container.Basic
/-
  The records of ZIP containers. The content of each entry stands behind a local record; a directory
  of central records tells where; an end record tells where the directory is.

  * `Packed`: an entry as its records describe it.
  * `Packed.localRecord`, `Packed.centralRecord`, `endRecord`: the records written out.
  * `field`: a number in a record; `hasLength`: whether there are enough bytes for one.
-/
namespace PackageMigration.Container.Zip

/-- How every signature starts. -/
def signatureStart : Bytes := [0x50, 0x4B]

/-- The size of a signature. -/
def signatureSize : Nat := 4

/-- How a local record starts. -/
def localSignature : Bytes := [0x50, 0x4B, 0x03, 0x04]

/-- How a central record starts. -/
def centralSignature : Bytes := [0x50, 0x4B, 0x01, 0x02]

/-- How the end record starts. -/
def endSignature : Bytes := [0x50, 0x4B, 0x05, 0x06]

/-- How the large end record starts, which has room for large numbers. -/
def largeEndSignature : Bytes := [0x50, 0x4B, 0x06, 0x06]

/-- How the locator of the large end record starts. -/
def locatorSignature : Bytes := [0x50, 0x4B, 0x06, 0x07]

/-- The size of a local record without its name. -/
def localSize : Nat := 30

/-- The size of a central record without its name. -/
def centralSize : Nat := 46

/-- The size of the end record without its comment. -/
def endSize : Nat := 22

/-- The size of the large end record without what may be added to it. -/
def largeEndSize : Nat := 56

/-- The size of the locator. -/
def locatorSize : Nat := 20

/-- The count that stands where the real one is in the large end record. -/
def largeCount : Nat := 0xFFFF

/-- The size or offset that stands where the real one is in a large end record or an extra field. -/
def largeNumber : Nat := 0xFFFFFFFF

/-- The number in the `width` bytes of a record from `offset` on. -/
def field (record : Bytes) (offset width : Nat) : Nat :=
  Bytes.ofLittleEndian ((record.drop offset).take width)

/-- The bytes have at least this length. -/
def hasLength : Nat → Bytes → Bool
  | 0, _ => true
  | _ + 1, [] => false
  | n + 1, _ :: s => hasLength n s

theorem hasLength_iff {n : Nat} {s : Bytes} : hasLength n s ↔ n ≤ s.length := by
  induction n generalizing s with
  | zero => simp [hasLength]
  | succ n ih => cases s <;> simp [hasLength, ih]

/-- The code of a method. -/
def methodCode : Method → Nat
  | .stored => 0
  | .deflated => 8

/-- The code in place of a method that stands in an extra field about the encryption. -/
def sealedMethodCode : Nat := 99

def methodOfCode? : Nat → Option Method
  | 0 => some .stored
  | 8 => some .deflated
  | _ => none

/-- The flag of an encrypted entry. -/
def encryptedFlag : Nat := 0

/-- The flag of a name in UTF-8. -/
def utf8Flag : Nat := 11

/-- The code of the system whose file attributes are DOS attributes. -/
def dosSystem : Nat := 0

/-- The code of the system whose file attributes are a mode, in the upper half. -/
def unixSystem : Nat := 3

/-- An entry as its records describe it. -/
structure Packed where
  /-- The system that the attributes are meant for. -/
  system : Nat
  flags : Nat
  method : Nat
  checksum : Nat
  compressedSize : Nat
  size : Nat
  attributes : Nat
  /-- Where its local record starts. -/
  offset : Nat
  name : Bytes
  deriving DecidableEq, Repr

namespace Packed

/-- What local and central records have in common: version, flags, method, time, checksum, sizes, and
the sizes of the name and of an extra field. -/
def sharedFields (p : Packed) : Bytes :=
  Bytes.littleEndian 2 20 ++ Bytes.littleEndian 2 p.flags ++ Bytes.littleEndian 2 p.method ++
    Bytes.littleEndian 2 0 ++ Bytes.littleEndian 2 0x21 ++ Bytes.littleEndian 4 p.checksum ++
    Bytes.littleEndian 4 p.compressedSize ++ Bytes.littleEndian 4 p.size ++
    Bytes.littleEndian 2 p.name.length ++ Bytes.littleEndian 2 0

def localRecord (p : Packed) : Bytes := localSignature ++ p.sharedFields ++ p.name

/-- The shared fields stand behind the system; comment, disk and attributes follow them. -/
def centralRecord (p : Packed) : Bytes :=
  centralSignature ++ Bytes.littleEndian 2 (p.system * 256 + 20) ++ p.sharedFields ++
    Bytes.littleEndian 2 0 ++ Bytes.littleEndian 2 0 ++ Bytes.littleEndian 2 0 ++
    Bytes.littleEndian 4 p.attributes ++ Bytes.littleEndian 4 p.offset ++ p.name

end Packed

/-- The end record of a directory with `count` records. -/
def endRecord (count size offset : Nat) : Bytes :=
  endSignature ++ Bytes.littleEndian 2 0 ++ Bytes.littleEndian 2 0 ++ Bytes.littleEndian 2 count ++
    Bytes.littleEndian 2 count ++ Bytes.littleEndian 4 size ++ Bytes.littleEndian 4 offset ++
    Bytes.littleEndian 2 0

end PackageMigration.Container.Zip
