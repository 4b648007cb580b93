import PackageMigration.Bytes
/-
  Manifests of archives: a main section about the archive, then sections about single entries.

  * `Manifest.Attribute`, `Manifest.Section`, `Manifest`.
  * `Section.value?`: attribute names do not differ in the case of ASCII letters.
  * `Manifest.entry?`: the section about an entry; entry names do differ in case.
-/
namespace PackageMigration

/-- A name and its value. -/
structure Manifest.Attribute where
  name : Bytes
  value : Bytes
  deriving DecidableEq, Repr

/-- Attributes in the order of the file. -/
abbrev Manifest.Section := List Manifest.Attribute

/-- A manifest. Each entry section has an attribute when it was read from a file. -/
structure Manifest where
  main : Manifest.Section
  entries : List Manifest.Section
  deriving DecidableEq, Repr

namespace Manifest

/-- The name of the attribute that holds the name of the entry a section is about. -/
def nameAttribute : Bytes := bytes "Name"

def versionAttribute : Bytes := bytes "Implementation-Version"

namespace Attribute

/-- The attribute has this name, up to case. -/
def isNamed (a : Attribute) (name : Bytes) : Bool := Bytes.sameIgnoringCase a.name name

/-- The attribute holds the name of an entry. -/
def isName (a : Attribute) : Bool := a.isNamed nameAttribute

/-- The attribute holds a digest: its name ends in `-Digest`, up to case. -/
def isDigest (a : Attribute) : Bool := (bytes "-digest").isSuffixOf (Bytes.lower a.name)

end Attribute

namespace Section

/-- The value of the first attribute of a name. -/
def value? (s : Section) (name : Bytes) : Option Bytes :=
  (s.find? fun a => a.isNamed name).map Attribute.value

/-- The entry that a section is about. -/
def name? (s : Section) : Option Bytes := s.value? nameAttribute

/-- The section with another value in the first attribute of a name. -/
def update (name : Bytes) (f : Bytes → Bytes) : Section → Section
  | [] => []
  | a :: s =>
    if a.isNamed name then { a with value := f a.value } :: s else a :: update name f s

def withoutDigests (s : Section) : Section := s.filter fun a => !a.isDigest

/-- Nothing is said about the entry but its name. -/
def isNameOnly (s : Section) : Bool := s.all Attribute.isName

end Section

/-- All sections, the main one first. -/
def sections (m : Manifest) : List Section := m.main :: m.entries

def implementationVersion? (m : Manifest) : Option Bytes := m.main.value? versionAttribute

/-- The first section about an entry. -/
def entry? (m : Manifest) (name : Bytes) : Option Section :=
  m.entries.find? fun s => s.name? == some name

/-- The manifest with other attribute values. -/
def mapAttributes (m : Manifest) (f : Attribute → Attribute) : Manifest :=
  ⟨m.main.map f, m.entries.map (List.map f)⟩

end Manifest

end PackageMigration
