import PackageMigration.Manifest.Basic
import PackageMigration.Manifest.Line
import PackageMigration.Text.Utf8
/-
  Reading manifests.

  * `Manifest.Error`: what can be wrong with a manifest.
  * `Attribute.ofLine?`: an attribute from its line.
  * `Unfolded`, `unfold`: the lines that belong to one attribute.
  * `Section.ofBlock?`: a section from its lines.
  * `Manifest.parse?`: a manifest from its bytes.
-/
namespace PackageMigration

/-- What can be wrong with a manifest. Lines count from 1. -/
inductive Manifest.Error where
  | notUtf8
  /-- The line is neither an attribute nor the continuation of one. -/
  | malformedLine (line : Nat)
  /-- The line continues an attribute, but begins a section. -/
  | orphanContinuation (line : Nat)
  deriving DecidableEq, Repr

namespace Manifest

def Error.message : Error → String
  | notUtf8 => "manifest is not valid UTF-8"
  | malformedLine n => s!"line {n} is not a `name: value` attribute"
  | orphanContinuation n => s!"continuation on line {n} has no attribute to continue"

/-- The attribute of a line: its name, which is not empty and has no space, a colon and the value. One
space behind the colon does not count. -/
def Attribute.ofLine? (line : Bytes) : Option Attribute :=
  match Bytes.cutFirst? Byte.colon line with
  | none => none
  | some (name, value) =>
    if name = [] ∨ Byte.space ∈ name then none
    else some ⟨name, (Bytes.after? [Byte.space] value).getD value⟩

/-- A line with its number. -/
abbrev NumberedLine := Bytes × Nat

/-- What a line adds to the one before it, if it begins with a space. -/
def continuation? (line : NumberedLine) : Option Bytes := Bytes.after? [Byte.space] line.1

/-- The line that begins an attribute, and what the lines behind add to it. -/
structure Unfolded where
  line : NumberedLine
  added : List Bytes
  deriving DecidableEq, Repr

namespace Unfolded

/-- The attribute of its lines. -/
def attribute? (u : Unfolded) : Except Error Attribute :=
  match Attribute.ofLine? u.line.1 with
  | none => .error (.malformedLine u.line.2)
  | some a => .ok { a with value := a.value ++ u.added.flatten }

end Unfolded

/-- One more line in front of others, of which the first ones may continue it. -/
def consLine (line : NumberedLine) : List Bytes × List Unfolded → List Bytes × List Unfolded
  | (added, us) =>
    match continuation? line with
    | some more => (more :: added, us)
    | none => ([], ⟨line, added⟩ :: us)

/-- The lines of a block by attribute, behind what the first ones would add to an attribute before. -/
def unfold (block : List NumberedLine) : List Bytes × List Unfolded := block.foldr consLine ([], [])

/-- The section of a block of lines, none of which is blank. -/
def Section.ofBlock? : List NumberedLine → Except Error Section
  | [] => .ok []
  | first :: rest =>
    if (continuation? first).isSome then .error (.orphanContinuation first.2)
    else (unfold (first :: rest)).2.mapM Unfolded.attribute?

/-- The blocks of lines between blank lines. -/
def blocks (s : Bytes) : List (List NumberedLine) :=
  splitWhere (fun l => l.1.isEmpty) ((lines s).zipIdx 1)

/-- The manifest that bytes hold. The block that the first line begins is the main section, which is
empty if that line is blank. -/
def parse? (data : Bytes) : Except Error Manifest :=
  if Bytes.isText data then do
    match ← (blocks data).mapM Section.ofBlock? with
    | [] => return ⟨[], []⟩
    | main :: entries => return ⟨main, entries.filter fun s => !s.isEmpty⟩
  else .error .notUtf8

end Manifest

end PackageMigration
