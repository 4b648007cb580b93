import PackageMigration.Manifest.Basic
import PackageMigration.Manifest.Line
/-
  Writing manifests.

  * `Attribute.line`: an attribute as one line.
  * `Attribute.bytes`: the line folded, each piece with its end.
  * `Manifest.bytes`: a manifest, each section with the blank line behind it.
-/
namespace PackageMigration.Manifest

/-- The end of a line. -/
def lineEnd : Bytes := [Byte.cr, Byte.lf]

/-- An attribute as one line, without its end. -/
def Attribute.line (a : Attribute) : Bytes := a.name ++ [Byte.colon, Byte.space] ++ a.value

/-- The lines of the pieces of a folded line. -/
def foldedBytes : List Bytes → Bytes
  | [] => []
  | p :: ps => p ++ lineEnd ++ ps.flatMap fun q => Byte.space :: q ++ lineEnd

def Attribute.bytes (a : Attribute) : Bytes := foldedBytes (fold a.line)

def Section.bytes (s : Section) : Bytes := s.flatMap Attribute.bytes ++ lineEnd

/-- The manifest written out. -/
def bytes (m : Manifest) : Bytes := m.sections.flatMap Section.bytes

end PackageMigration.Manifest
