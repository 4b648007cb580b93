import PackageMigration.Manifest.Basic
import PackageMigration.Mapping.Text
/-
  Bringing a manifest in line with the entries of a migrated archive.

  * `Manifest.convertValues?`: mapped names in values replaced.
  * `Manifest.stamp?`: the version marked as migrated, once.
  * `Repair`, `Manifest.repair`: digests and names of entries that changed.
-/
namespace PackageMigration.Manifest

/-- The value with its mapped names replaced, if it holds any. The name of an entry stays: it follows
the entry, see `repair`. -/
def Attribute.convertValue? (t : Table) (a : Attribute) : Option Bytes :=
  if a.isName then none else t.convertText? a.value

/-- The attribute after the replacement, if there is one. -/
def Attribute.converted (t : Table) (a : Attribute) : Attribute :=
  { a with value := (a.convertValue? t).getD a.value }

/-- The manifest with the mapped names in its values replaced, or none if they hold none. -/
def convertValues? (t : Table) (m : Manifest) : Option Manifest :=
  if m.sections.any fun s => s.any fun a => (a.convertValue? t).isSome then
    some (m.mapAttributes (Attribute.converted t))
  else none

/-- What stands between the version of an archive and the version of the program that migrated it. -/
def marker : Bytes := PackageMigration.bytes "-migrated-"

/-- The manifest with the archive's version marked as migrated, or none if it has no version or the
version is marked already. -/
def stamp? (version : Bytes) (m : Manifest) : Option Manifest :=
  match m.implementationVersion? with
  | none => none
  | some v =>
    if Bytes.occursIn marker v then none
    else some { m with main := m.main.update versionAttribute fun v => v ++ marker ++ version }

/-- What became of the entries of an archive. -/
structure Repair where
  /-- The content of the entry was converted. -/
  changed : Bytes → Bool
  /-- The new name of an entry that got one. -/
  renamed : Bytes → Option Bytes
  /-- The signatures of the archive are given up, so no digest has a use. -/
  signed : Bool

/-- The section about an entry: digests of the old content go, and it follows a renamed entry. A
section about no entry stays. -/
def Section.repair (r : Repair) (s : Section) : Section :=
  match s.name? with
  | none => s
  | some name =>
    let kept := if r.signed || r.changed name then s.withoutDigests else s
    match r.renamed name with
    | none => kept
    | some new => kept.update nameAttribute fun _ => new

/-- The manifest of the migrated archive. Sections that are left with nothing but a name go. -/
def repair (r : Repair) (version : Bytes) (m : Manifest) : Manifest :=
  let m := (m.stamp? version).getD m
  { main := if r.signed then m.main.withoutDigests else m.main
    entries := (m.entries.map (Section.repair r)).filter fun s => !s.isNameOnly }

end PackageMigration.Manifest
