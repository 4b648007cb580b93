import PackageMigration.Container.Zip.Reader
import PackageMigration.Container.Zip.Writer
/-
  The ZIP format of containers.

  * `Container.zip`: the format.
-/
namespace PackageMigration.Container

/-- ZIP containers. -/
def zip : Format := ⟨Zip.read?, Zip.write⟩

end PackageMigration.Container
