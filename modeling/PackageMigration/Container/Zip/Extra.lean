import PackageMigration.Container.Checksum
import PackageMigration.Container.Zip.Layout
import PackageMigration.Text.Utf8
/-
  The extra fields of central records. A field has a kind, a size and a body, and what it tells takes
  the place of what the record tells. A field that the end of the extra data cuts off ends them; a field
  that contradicts itself or the record makes the record unsound.

  * `Description`: an entry as its record and the extra fields describe it.
  * `Reading`: what reading a field comes to.
  * `Description.withField`: one field; `Description.withExtra?`: all of them.
-/
namespace PackageMigration.Container.Zip

/-- An entry as its central record and the extra fields describe it. -/
structure Description where
  packed : Packed
  /-- The name in UTF-8. -/
  name : Bytes
  /-- The comment in UTF-8. -/
  comment : Bytes
  /-- A field tells how the entry is encrypted. -/
  isSealed : Bool
  deriving DecidableEq, Repr

/-- What reading a field comes to. -/
inductive Reading where
  /-- These bytes follow the field. -/
  | read (d : Description) (rest : Bytes)
  /-- The field is cut off. -/
  | cutOff (d : Description)
  | unsound

/-- The next number of a width, and the bytes behind it. -/
def number? (width : Nat) (s : Bytes) : Option (Nat × Bytes) :=
  if hasLength width s then some (field s 0 width, s.drop width) else none

namespace Description

/-- Go on behind the next `count` bytes. -/
def skip (d : Description) (count : Nat) (s : Bytes) : Reading :=
  if hasLength count s then .read d (s.drop count) else .cutOff d

/-! ## Large numbers -/

/-- From this size on a field of large numbers has all three. -/
def allLargeNumbers : Nat := 24

/-- The number that takes the place of `n`, if one does: in a field with all numbers, or where `n` calls
for it. The bytes it takes and the bytes behind it follow. -/
def largeFor? (all : Bool) (n : Nat) (s : Bytes) : Option (Nat × Nat × Bytes) :=
  if all || n = largeNumber then (number? 8 s).map fun (n, s) => (n, 8, s) else some (n, 0, s)

/-- The field of large numbers: size, compressed size and offset, as far as they are called for. -/
def withLargeNumbers (d : Description) (size : Nat) (s : Bytes) : Reading :=
  let all := decide (allLargeNumbers ≤ size)
  match largeFor? all d.packed.size s with
  | none => .cutOff d
  | some (n, first, s) =>
    let d := { d with packed.size := n }
    match largeFor? all d.packed.compressedSize s with
    | none => .cutOff d
    | some (n, second, s) =>
      let d := { d with packed.compressedSize := n }
      match largeFor? all d.packed.offset s with
      | none => .cutOff d
      | some (n, third, s) =>
        let d := { d with packed.offset := n }
        let used := first + second + third
        if used ≤ size then d.skip (size - used) s else .unsound

/-! ## Times -/

/-- The field of times in units of 100 ns: four unused bytes, then one list of three times. -/
def withFineTimes (d : Description) (size : Nat) (s : Bytes) : Reading :=
  if size ≠ 32 then .unsound
  else
    match number? 2 (s.drop 4), number? 2 (s.drop 6) with
    | none, _ => .cutOff d
    | some (tag, _), listSize =>
      if tag ≠ 1 then .unsound
      else
        match listSize with
        | none => .cutOff d
        | some (listSize, s) => if listSize = 24 then d.skip 24 s else .unsound

/-- How many of the three times of a field the flags announce. -/
def countTimes (flags : Nat) : Nat :=
  (flags.testBit 0).toNat + (flags.testBit 1).toNat + (flags.testBit 2).toNat

/-- The field of times in seconds: flags for three times, and times. A central record may have the first
one only, whatever the flags announce. -/
def withTimes (d : Description) (size : Nat) (s : Bytes) : Reading :=
  match number? 1 s with
  | none => .cutOff d
  | some (flags, s) =>
    let count := if size = 5 then 1 else countTimes flags
    if flags < 8 ∧ size = 1 + 4 * count then d.skip (4 * count) s else .unsound

/-! ## Encryption -/

/-- The field about encryption: its version, its vendor, the strength, and the method of the content. -/
def withSeal (d : Description) (size : Nat) (s : Bytes) : Reading :=
  if size ≠ 7 then .unsound
  else if !hasLength 7 s then .cutOff d
  else
    let version := field s 0 2
    let strength := field s 4 1
    if field s 2 2 = 0x4541 ∧ (version = 1 ∨ version = 2) ∧ 1 ≤ strength ∧ strength ≤ 3 then
      .read { d with packed.method := field s 5 2, isSealed := true } (s.drop 7)
    else .unsound

/-! ## Text in UTF-8 -/

/-- A field with text in UTF-8, behind its version and the checksum of the text whose place it takes. -/
def withText (d : Description) (replaced : Bytes) (put : Bytes → Description) (size : Nat)
    (s : Bytes) : Reading :=
  match number? 4 (s.drop 1) with
  | none => .cutOff d
  | some (checksum, s) =>
    if size < 5 then .unsound
    else if !hasLength (size - 5) s then .cutOff d
    else
      let text := s.take (size - 5)
      if crc32 replaced = checksum ∧ Bytes.isText text then .read (put text) (s.drop (size - 5))
      else .unsound

/-- The field with the name. It takes the place of the name as the record has it. -/
def withName (d : Description) (size : Nat) (s : Bytes) : Reading :=
  d.withText d.packed.name (fun name => { d with packed.name := name, name }) size s

/-- The field with the comment. It takes the place of the comment in UTF-8. -/
def withComment (d : Description) (size : Nat) (s : Bytes) : Reading :=
  d.withText d.comment (fun comment => { d with comment }) size s

/-! ## All fields -/

/-- The field of a kind and size whose body is at the start of the bytes. -/
def withField (d : Description) (kind size : Nat) (s : Bytes) : Reading :=
  match kind with
  | 0x0001 => d.withLargeNumbers size s
  | 0x000A => d.withFineTimes size s
  | 0x5455 => d.withTimes size s
  | 0x6375 => d.withComment size s
  | 0x7075 => d.withName size s
  | 0x9901 => d.withSeal size s
  | _ => d.skip size s

/-- The description with at most `fuel` more fields. -/
def withFields? (d : Description) : Nat → Bytes → Option Description
  | 0, _ => some d
  | fuel + 1, s =>
    match number? 2 s, number? 2 (s.drop 2) with
    | some (kind, _), some (size, s) =>
      match d.withField kind size s with
      | .read d s => d.withFields? fuel s
      | .cutOff d => some d
      | .unsound => none
    | _, _ => some d

/-- The description with what the extra fields tell. Every field takes a byte at least. -/
def withExtra? (d : Description) (extra : Bytes) : Option Description :=
  d.withFields? extra.length extra

end Description

end PackageMigration.Container.Zip
