import PackageMigration.Bytes
/-
  Containers: archives as lists of entries, apart from how they are written.

  * `Container.Entry`: a name and its content; `Container.Item`: an entry as it was found.
  * `Container.Format`: a way to write containers.
  * `Container.Format.Faithful`: what is written reads back.
-/
namespace PackageMigration.Container

/-- How the content of an entry is written. -/
inductive Method where
  | stored
  | deflated
  deriving DecidableEq, Repr

/-- An entry of a container. -/
structure Entry where
  /-- The name in UTF-8. A directory's name ends in a slash. -/
  name : Bytes
  method : Method
  /-- File type and permissions, if the container gives them. -/
  mode : Option Nat
  data : Bytes
  deriving DecidableEq, Repr

/-- An entry as it is found in a container. -/
inductive Item where
  | entry (e : Entry)
  /-- The content of the entry of this name is damaged. -/
  | damaged (name : Bytes)
  /-- The entry is encrypted, compressed in another way, or not where it should be. -/
  | unsupported
  deriving DecidableEq, Repr

/-- A format of containers. -/
structure Format where
  /-- The entries in their order, if the bytes are a container. -/
  read? : Bytes → Option (List Item)
  write : List Entry → Bytes

/-- Lists of entries that the format can hold are read back as they were written. -/
def Format.Faithful (format : Format) (Holds : List Entry → Prop) : Prop :=
  ∀ entries, Holds entries → format.read? (format.write entries) = some (entries.map .entry)

theorem Format.Faithful.mono {format : Format} {Holds Holds' : List Entry → Prop}
    (hf : format.Faithful Holds) (h : ∀ entries, Holds' entries → Holds entries) :
    format.Faithful Holds' :=
  fun entries hentries => hf entries (h entries hentries)

end PackageMigration.Container
