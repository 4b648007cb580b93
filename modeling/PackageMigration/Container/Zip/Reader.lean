import PackageMigration.Container.Deflate
import PackageMigration.Container.Zip.Directory
import PackageMigration.Container.Zip.Extra
import PackageMigration.Text.CodePage437
/-
  Reading ZIP containers.

  * `central?`: a central record with its extra fields.
  * `descriptions?`: all central records of a directory.
  * `item`: the entry of a description.
  * `read?`: the entries of a container.
-/
namespace PackageMigration.Container.Zip

/-! ## Central records -/

/-- Text of a record in UTF-8. -/
def recordText (isUtf8 : Bool) (s : Bytes) : Bytes :=
  bytes (if isUtf8 then Text.ofBytes s else Text.ofCodePage437 s)

/-- The encryption is told of if the method says so. -/
def Description.isSound (d : Description) : Bool :=
  d.isSealed || d.packed.method != sealedMethodCode

/-- The central record that the bytes start with, and the bytes behind it. -/
def central? (s : Bytes) : Option (Description × Bytes) :=
  let name := field s 28 2
  let extra := field s 30 2
  let size := centralSize + name + extra + field s 32 2
  if centralSignature.isPrefixOf s && hasLength size s then
    let flags := field s 8 2
    let packed : Packed :=
      { system := field s 5 1
        flags
        method := field s 10 2
        checksum := field s 16 4
        compressedSize := field s 20 4
        size := field s 24 4
        attributes := field s 38 4
        offset := field s 42 4
        name := (s.drop centralSize).take name }
    let texts := (s.take size).drop (centralSize + name)
    let isUtf8 := flags.testBit utf8Flag
    let d : Description :=
      ⟨packed, recordText isUtf8 packed.name, recordText isUtf8 (texts.drop extra), false⟩
    match d.withExtra? (texts.take extra) with
    | none => none
    | some d => if d.isSound then some (d, s.drop size) else none
  else none

/-- The next `left` central records, behind the ones found, which come last first. Their local records
stand before the directory. The offsets found are the real ones. -/
def descriptionsFrom? (dir : Directory) :
    Nat → List Description → Bytes → Option (List Description)
  | 0, found, _ => some found.reverse
  | left + 1, found, s =>
    match central? s with
    | none => none
    | some (d, s) =>
      let offset := d.packed.offset + dir.shift
      if offset < dir.place.offset then
        descriptionsFrom? dir left ({ d with packed.offset := offset } :: found) s
      else none

/-- The central records of a directory. -/
def descriptions? (dir : Directory) : Option (List Description) :=
  descriptionsFrom? dir dir.count [] dir.place.bytes

/-! ## Entries -/

/-- The mode of an entry, if its attributes tell one. -/
def mode? (p : Packed) : Option Nat :=
  if p.attributes = 0 then none
  else if p.system = unixSystem then some (p.attributes / 65536)
  else if p.system = dosSystem then
    let mode := if p.attributes.testBit 4 then 0o40775 else 0o100664
    some (if p.attributes.testBit 0 then mode &&& 0o555 else mode)
  else none

/-- What stands behind the local record at an offset. -/
def behindLocal? (marks : Landmarks) (offset : Nat) : Option Bytes :=
  match marks.locals.find? (·.offset == offset) with
  | none => none
  | some p =>
    let s := p.bytes
    if hasLength localSize s then some (s.drop (localSize + field s 26 2 + field s 28 2)) else none

/-- The content that compressed bytes stand for. -/
def decompress? : Method → Bytes → Option Bytes
  | .stored, s => some s
  | .deflated, s => inflate? s

/-- The entry of a description. -/
def item (marks : Landmarks) (d : Description) : Item :=
  let p := d.packed
  match methodOfCode? p.method, behindLocal? marks p.offset with
  | some method, some s =>
    if p.flags.testBit encryptedFlag || d.isSealed then .unsupported
    else
      match decompress? method (s.take p.compressedSize) with
      | none => .damaged d.name
      | some content =>
        if crc32 content = p.checksum then .entry ⟨d.name, method, mode? p, content⟩
        else .damaged d.name
  | _, _ => .unsupported

/-- Of the descriptions of one name the last one counts, in the place of the first. -/
def lastOfEach (found : List Description) : List Description :=
  let names := (found.map Description.name).eraseDups
  let lastFirst := found.reverse
  names.filterMap fun name => lastFirst.find? fun d => d.name == name

/-- The central records that the end record at a place leads to. -/
def descriptionsAt? (marks : Landmarks) (p : Place) : Option (List Description) := do
  let e ← endRecord? marks p
  let dir ← e.directory? marks
  descriptions? dir

/-- The entries of a container with these landmarks, by the last end record that leads to a sound
directory. -/
def items? (marks : Landmarks) : Option (List Item) :=
  (marks.ends.findSome? (descriptionsAt? marks)).map fun found =>
    (lastOfEach found).map (item marks)

/-- The entries of a container. -/
def read? (data : Bytes) : Option (List Item) := items? (landmarks data)

end PackageMigration.Container.Zip
