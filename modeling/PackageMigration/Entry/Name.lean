import PackageMigration.Mapping.Text
/-
  What the name of an archive entry says about it. The same rules hold for the files of a tree, by
  their paths from its root.

  * `EntryName.isDirectory`, `isClass`, `isManifest`, `isSignature`, `isService`, `isArchive`, `isText`.
  * `EntryName.classRoot`: the part of a name below which names follow packages.
  * `Table.renameEntry?`: the name of an entry that moves.
-/
namespace PackageMigration

namespace EntryName

/-- The name of an archive's manifest. -/
def manifest : Bytes := bytes "META-INF/MANIFEST.MF"

/-- The directory of an archive's own files. -/
def metaDirectory : Bytes := bytes "META-INF/"

/-- The directory of service registrations. -/
def servicesDirectory : Bytes := bytes "META-INF/services/"

/-- The directory of classes for single versions of the platform. -/
def versionsDirectory : Bytes := bytes "META-INF/versions/"

def isDirectory (name : Bytes) : Bool := name.getLast? == some Byte.slash

def isClass (name : Bytes) : Bool := (bytes ".class").isSuffixOf name

def isManifest (name : Bytes) : Bool := Bytes.sameIgnoringCase name manifest

def isService (name : Bytes) : Bool := servicesDirectory.isPrefixOf name

/-- The file name has one of these extensions, up to case, and something in front of it. -/
def hasExtension (extensions : List String) (name : Bytes) : Bool :=
  match Bytes.cutLast? Byte.dot (Bytes.lastPart Byte.slash name) with
  | none => false
  | some (stem, extension) =>
    stem != [] && extensions.any fun e => Bytes.sameIgnoringCase extension (bytes e)

/-- The extensions of archives. -/
def archiveExtensions : List String := ["jar", "war", "ear", "rar", "zip"]

/-- The extensions of text that can mention packages. -/
def textExtensions : List String :=
  ["java", "jsp", "jspf", "jspx", "tag", "tagf", "tagx", "tld", "txt", "xml", "xsd", "json",
    "properties", "groovy", "kt", "scala", "html", "htm", "xhtml", "conf", "yaml", "yml"]

/-- The extensions of signatures and of their keys. -/
def signatureExtensions : List String := ["SF", "RSA", "DSA", "EC"]

def isArchive (name : Bytes) : Bool := hasExtension archiveExtensions name

def isText (name : Bytes) : Bool := hasExtension textExtensions name

/-- A signature or its key, directly in the directory of the archive's own files, up to case. -/
def isSignature (name : Bytes) : Bool :=
  match Bytes.afterIgnoringCase? metaDirectory name with
  | none => false
  | some file =>
    Byte.slash ∉ file && (((Bytes.afterIgnoringCase? (bytes "SIG-") file).any (· != [])) ||
      hasExtension signatureExtensions file)

/-- An archive with these entries is signed. -/
def anySignature (names : List Bytes) : Bool := names.any isSignature

/-- The directories below which names follow packages. -/
def classRoots : List Bytes :=
  [servicesDirectory, bytes "WEB-INF/classes/", bytes "BOOT-INF/classes/"]

/-- The directory of the classes for one version of the platform, if the name lies in it. -/
def versionRoot? (name : Bytes) : Option Bytes :=
  match (Bytes.after? versionsDirectory name).bind (Bytes.cutFirst? Byte.slash) with
  | none => none
  | some (version, _) =>
    if version ≠ [] ∧ version.all Byte.isDigit then
      some (versionsDirectory ++ version ++ [Byte.slash])
    else none

/-- The class root that a name lies in. It is empty for a name outside of all others. -/
def classRoot (name : Bytes) : Bytes :=
  match classRoots.find? fun root => root.isPrefixOf name with
  | some root => root
  | none => (versionRoot? name).getD []

end EntryName

/-- The name of an entry that moves with the packages it names. The class root stays. -/
def Table.renameEntry? (t : Table) (name : Bytes) : Option Bytes :=
  let root := EntryName.classRoot name
  (t.convertText? (name.drop root.length)).map (root ++ ·)

end PackageMigration
