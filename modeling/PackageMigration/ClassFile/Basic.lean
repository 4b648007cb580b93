import PackageMigration.Bytes.Number
/-
  Class files split into header, constant pool and the rest. Only the pool is taken apart: what
  follows addresses its slots by index, and can be carried over as long as slots keep their places.

  * `Slot`, `ClassFile`: the parts.
  * `ClassFile.bytes`: a class file written out.
  * `ClassFile.mapUtf8`: with other text constants.
  * `ClassFile.write?`, `ClassFile.replacing?`: written out while it is asked for other texts.
  * `looksLikeClass`: how a class file starts.
-/
namespace PackageMigration

/-- What is read next in a class file. -/
inductive ClassFile.Part where
  | magic
  | version
  | poolCount
  | constantTag
  | utf8Length
  | utf8Bytes
  | constantBody
  | classHeader
  deriving DecidableEq, Repr

namespace ClassFile.Part

def name : Part → String
  | magic => "magic"
  | version => "version"
  | poolCount => "constant pool count"
  | constantTag => "constant tag"
  | utf8Length => "utf8 length"
  | utf8Bytes => "utf8 bytes"
  | constantBody => "constant body"
  | classHeader => "class header"

end ClassFile.Part

/-- What can be wrong with a class file. -/
inductive ClassFile.Error where
  /-- It starts with another number. -/
  | badMagic (magic : Nat)
  /-- It ends while this part is read, which starts at the offset. -/
  | truncated (part : ClassFile.Part) (offset : Nat)
  /-- The constant pool has not even slot 0. -/
  | emptyPool
  /-- The constant at this slot has a tag that no constant has. -/
  | unknownTag (tag : UInt8) (index : Nat)
  /-- The text constant at this slot would be longer than its length field can say. -/
  | utf8TooLong (index length : Nat)
  deriving DecidableEq, Repr

/-- The number in eight small hexadecimal digits. -/
def hexWord (n : Nat) : String :=
  String.ofList (((Nat.toDigits 16 n).reverse ++ List.replicate 8 '0').take 8).reverse

namespace ClassFile.Error

def message : Error → String
  | badMagic magic => "bad magic number 0x" ++ hexWord magic
  | truncated part offset => s!"truncated while reading {part.name} at offset {offset}"
  | emptyPool => "constant pool count is zero"
  | unknownTag tag index => s!"unknown constant pool tag {tag.toNat} at index {index}"
  | utf8TooLong index length =>
    s!"constant pool entry {index} would be {length} bytes, over the 65535 byte limit"

end ClassFile.Error

/-- A slot of the constant pool. -/
inductive Slot where
  /-- Slot 0 and the second slot of a wide constant: it has no bytes. -/
  | unusable
  /-- A text constant, without its length. -/
  | utf8 (payload : Bytes)
  /-- Any other constant, as its tag and a body of the tag's size. -/
  | other (tag : UInt8) (body : Bytes)
  deriving DecidableEq, Repr

namespace Slot

/-- The tag of a text constant. -/
abbrev utf8Tag : UInt8 := 1

/-- The size of the body behind a tag other than that of a text constant. -/
def bodySize? (tag : UInt8) : Option Nat :=
  match tag.toNat with
  | 7 | 8 | 16 | 19 | 20 => some 2
  | 15 => some 3
  | 3 | 4 | 9 | 10 | 11 | 12 | 17 | 18 => some 4
  | 5 | 6 => some 8
  | _ => none

/-- A long or double constant, which takes two slots. -/
def isWide : Slot → Bool
  | other tag _ => tag == 5 || tag == 6
  | _ => false

def bytes : Slot → Bytes
  | unusable => []
  | utf8 payload => utf8Tag :: Bytes.bigEndian 2 payload.length ++ payload
  | other tag body => tag :: body

/-- The text that a slot holds. -/
def text? : Slot → Option Bytes
  | utf8 payload => some payload
  | _ => none

/-- The slot with another text, if it holds text and there is another. -/
def replace (f : Bytes → Option Bytes) : Slot → Slot
  | utf8 payload => utf8 ((f payload).getD payload)
  | s => s

/-- The length of a text that no length field can say. -/
def tooLong? : Slot → Option Nat
  | utf8 payload => if payload.length ≤ 0xFFFF then none else some payload.length
  | _ => none

/-- The slot as it is written at an index: with the text that `f` has for it, if it holds text. -/
def write? {m : Type → Type} [Monad m] (f : Nat → Bytes → m (Option Bytes)) (index : Nat) :
    Slot → ExceptT ClassFile.Error m Slot
  | utf8 payload => do
    let new ← f index payload
    let text := new.getD payload
    if text.length ≤ 0xFFFF then return utf8 text
    else throw (.utf8TooLong index text.length)
  | s => return s

end Slot

/-- A class file. The pool starts with slot 0, so slots are found at their index. -/
structure ClassFile where
  /-- Magic number and version. -/
  header : Bytes
  pool : List Slot
  /-- Everything behind the pool. -/
  remainder : Bytes
  deriving DecidableEq, Repr

namespace ClassFile

/-- The class file written out: wherever a slot has bytes, they stand in the order of the slots. -/
def bytes (c : ClassFile) : Bytes :=
  c.header ++ Bytes.bigEndian 2 c.pool.length ++ c.pool.flatMap Slot.bytes ++ c.remainder

/-- The text constants, by index. -/
def texts (c : ClassFile) : List (Nat × Bytes) :=
  c.pool.zipIdx.filterMap fun (s, i) => s.text?.map (i, ·)

/-- The class file with the text constants for which `f` has another text replaced by it. -/
def mapUtf8 (c : ClassFile) (f : Nat → Bytes → Option Bytes) : ClassFile :=
  { c with pool := c.pool.zipIdx.map fun (s, i) => s.replace (f i) }

/-- The first text that is too long, by index and length. -/
def firstTooLong? (c : ClassFile) : Option (Nat × Nat) :=
  c.pool.zipIdx.findSome? fun (s, i) => s.tooLong?.map (i, ·)

section Writing

variable {m : Type → Type} [Monad m]

/-- The slots from an index on as they are written. `f` is asked about one text constant after the
other, until the text of one is too long. -/
def writePool? (f : Nat → Bytes → m (Option Bytes)) : Nat → List Slot → ExceptT Error m (List Slot)
  | _, [] => return []
  | index, s :: ss => do
    let s ← s.write? f index
    let ss ← writePool? f (index + 1) ss
    return s :: ss

/-- The bytes of the class file, with the texts that `f` has for its text constants. -/
def write? (c : ClassFile) (f : Nat → Bytes → m (Option Bytes)) : ExceptT Error m Bytes := do
  let pool ← writePool? f 0 c.pool
  return { c with pool }.bytes

end Writing

/-- The bytes of the class file with the texts that `f` replaces; none may become too long. -/
def replacing? (c : ClassFile) (f : Nat → Bytes → Option Bytes) : Except Error Bytes :=
  Id.run (c.write? fun index payload => (pure (f index payload) : Id (Option Bytes))).run

end ClassFile

/-- The number that every class file starts with. -/
def classMagic : Nat := 0xCAFEBABE

/-- The bytes start like a class file, with a major version that has ever been in use: other formats
share the number. -/
def looksLikeClass (s : Bytes) : Bool :=
  let head := s.take 8
  head.length == 8 && Bytes.ofBigEndian (head.take 4) == classMagic &&
    45 ≤ Bytes.ofBigEndian (head.drop 6)

end PackageMigration
