import PackageMigration.Container.Zip.Layout
/-
  Where the directory of a ZIP container is. The end record is searched from the end, so anything may
  stand behind it; the directory is searched from where it should be, so anything may stand before the
  container. Where numbers do not fit the end record, its locator tells of a large end record.

  * `Landmarks`, `landmarks`: where records may start.
  * `EndRecord`, `endRecord?`: an end record that bytes may hold.
  * `LargeEndRecord`, `largeEndRecord?`: the large end record that a locator tells of.
  * `Directory`, `EndRecord.directory?`: where the directory is.
-/
namespace PackageMigration.Container.Zip

/-! ## Landmarks -/

/-- A place in bytes, and the bytes from there on. -/
structure Place where
  offset : Nat
  bytes : Bytes
  deriving DecidableEq, Repr

/-- The places from `offset` on where a signature may start, behind the ones found, the last one
first. -/
def placesFrom (offset : Nat) (found : List Place) : Bytes → List Place
  | [] => found
  | b :: s =>
    placesFrom (offset + 1)
      (if signatureStart.isPrefixOf (b :: s) then ⟨offset, b :: s⟩ :: found else found) s

namespace Place

/-- The place has this signature. -/
def isMarked (p : Place) (signature : Bytes) : Bool := signature.isPrefixOf p.bytes

/-- The signature at the place ends before an offset. -/
def isBefore (p : Place) (offset : Nat) : Bool := p.offset + signatureSize ≤ offset

end Place

/-- The size of a container, and where signatures stand in it. -/
structure Landmarks where
  size : Nat
  /-- Where end records may start, the last one first. -/
  ends : List Place
  /-- Where large end records may start, in order. -/
  largeEnds : List Place
  /-- Where locators may start, in order. -/
  locators : List Place
  /-- Where central records may start, in order. -/
  centrals : List Place
  /-- Where local records may start, in order. -/
  locals : List Place

/-- Where signatures stand in the bytes of a container. -/
def landmarks (data : Bytes) : Landmarks :=
  let places := placesFrom 0 [] data
  let marked (signature : Bytes) : List Place := places.filter (·.isMarked signature)
  { size := data.length
    ends := marked endSignature
    largeEnds := (marked largeEndSignature).reverse
    locators := (marked locatorSignature).reverse
    centrals := (marked centralSignature).reverse
    locals := (marked localSignature).reverse }

/-- The place of a directory that starts at an offset. Where no central record starts there is nothing
to read. -/
def Landmarks.directoryAt (marks : Landmarks) (offset : Nat) : Place :=
  (marks.centrals.find? (·.offset == offset)).getD ⟨offset, []⟩

/-! ## End records -/

/-- What an end record tells. -/
structure EndRecord where
  /-- Where the record stands. -/
  place : Place
  disk : Nat
  directoryDisk : Nat
  /-- The number of entries on this disk. -/
  count : Nat
  total : Nat
  /-- Where the directory starts, counted from the start of the container. -/
  directory : Nat
  deriving DecidableEq, Repr

/-- The end record at a place, if it is there with its comment. -/
def endRecord? (marks : Landmarks) (p : Place) : Option EndRecord :=
  let s := p.bytes
  if p.offset + endSize + field s 20 2 ≤ marks.size then
    some ⟨p, field s 4 2, field s 6 2, field s 8 2, field s 10 2, field s 16 4⟩
  else none

/-! ## Large end records -/

/-- What the locator of a large end record tells. -/
structure Locator where
  /-- Where the locator stands. -/
  place : Nat
  directoryDisk : Nat
  /-- Where the large end record stands, counted from the start of the container. -/
  record : Nat
  disks : Nat
  deriving DecidableEq, Repr

/-- The locator right before an end record. -/
def locator? (marks : Landmarks) (e : EndRecord) : Option Locator :=
  (marks.locators.find? fun p => p.offset + locatorSize == e.place.offset).map fun p =>
    ⟨p.offset, field p.bytes 4 4, field p.bytes 8 8, field p.bytes 16 4⟩

/-- What a large end record tells. -/
structure LargeEndRecord where
  /-- Where the record stands. -/
  place : Nat
  /-- The version of the program that wrote the container. -/
  version : Nat
  /-- The version of programs that can read it. -/
  neededVersion : Nat
  disk : Nat
  directoryDisk : Nat
  /-- The number of entries on this disk. -/
  count : Nat
  total : Nat
  /-- Where the directory starts, counted from the start of the container. -/
  directory : Nat
  deriving DecidableEq, Repr

/-- The large end record at a place, if it reaches up to its locator, agrees with it, and stands behind
a directory of its entries. -/
def largeEndRecordAt? (l : Locator) (p : Place) : Option LargeEndRecord :=
  let s := p.bytes
  let size := field s 4 8 + 12
  if p.offset + size = l.place ∧ largeEndSize ≤ size ∧ hasLength largeEndSize s then
    let r : LargeEndRecord :=
      ⟨p.offset, field s 12 2, field s 14 2, field s 16 4, field s 20 4, field s 24 8, field s 32 8,
        field s 48 8⟩
    if r.directoryDisk = l.directoryDisk ∧ r.total * centralSize + r.directory ≤ p.offset then some r
    else none
  else none

/-- The first large end record from where the locator tells on. -/
def largeEndRecord? (marks : Landmarks) (l : Locator) : Option LargeEndRecord :=
  if l.record < l.place ∧ l.disks ≤ 1 then
    let places := marks.largeEnds.dropWhile fun p => p.offset < l.record
    (places.takeWhile (·.isBefore l.place)).findSome? (largeEndRecordAt? l)
  else none

/-! ## Directories -/

/-- Where the directory of a container is. -/
structure Directory where
  /-- Where it really starts. -/
  place : Place
  /-- What stands before the container: how far everything is from where it should be. -/
  shift : Nat
  count : Nat
  deriving DecidableEq, Repr

/-- The directory that a large end record tells of. All has to be on one disk and readable. -/
def LargeEndRecord.directory? (marks : Landmarks) (l : Locator) (r : LargeEndRecord) :
    Option Directory :=
  if r.count ≤ r.total ∧ r.neededVersion ≤ r.version ∧ r.disk = r.directoryDisk then
    let shift := r.place - l.record
    some ⟨marks.directoryAt (r.directory + shift), shift, r.total⟩
  else none

namespace EndRecord

/-- Numbers do not fit the record: the real ones are in a large end record. -/
def isLarge (e : EndRecord) : Bool := e.total == largeCount || e.directory == largeNumber

/-- Where the directory starts. It is taken to start at the first central record from where it should
be, and not before the end record in a container without entries. -/
def directoryPlace? (marks : Landmarks) (e : EndRecord) : Option Place :=
  if e.total = 0 then some (marks.directoryAt (max e.directory e.place.offset))
  else
    (marks.centrals.find? fun p => e.directory ≤ p.offset).filter (·.isBefore e.place.offset)

/-- The directory that an end record tells of by itself. All has to be on one disk. -/
def ownDirectory? (marks : Landmarks) (e : EndRecord) : Option Directory :=
  match e.directoryPlace? marks with
  | none => none
  | some p =>
    if e.disk = e.directoryDisk then some ⟨p, p.offset - e.directory, e.count⟩ else none

/-- The directory that an end record tells of. -/
def directory? (marks : Landmarks) (e : EndRecord) : Option Directory :=
  match if e.isLarge then locator? marks e else none with
  | none => e.ownDirectory? marks
  | some l => (largeEndRecord? marks l).bind (·.directory? marks l)

end EndRecord

end PackageMigration.Container.Zip
