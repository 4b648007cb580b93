import PackageMigration.ClassFile.Parser
import PackageMigration.Mapping.Text
/-
  Replacing mapped names in the text constants of a class file.

  * `ClassFile.holdsName`: some text constant holds a mapped name.
  * `Table.convertClass?`: the class file with its mapped names replaced, if it holds any.
-/
namespace PackageMigration

/-- Some text constant holds a mapped name. -/
def ClassFile.holdsName (c : ClassFile) (t : Table) : Bool :=
  c.pool.any fun s => (s.text?.bind t.convert?).isSome

/-- The class file with its mapped names replaced, or none if it holds no mapped name. -/
def Table.convertClass? (t : Table) (data : Bytes) : Except ClassFile.Error (Option Bytes) := do
  let c ← ClassFile.parse? data
  let out ← c.replacing? fun _ => t.convert?
  return if c.holdsName t then some out else none

end PackageMigration
