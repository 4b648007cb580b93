import PackageMigration.Container.Checksum
import PackageMigration.Container.Deflate
import PackageMigration.Container.Zip.Layout
/-
  Writing ZIP containers.

  * `compress`: content in a method.
  * `write`: the container of some entries.
-/
namespace PackageMigration.Container.Zip

/-- The content as a method writes it. -/
def compress : Method → Bytes → Bytes
  | .stored, data => data
  | .deflated, data => deflate data

/-- The description of an entry whose local record starts at `offset`, with its compressed content. -/
def pack (offset : Nat) (e : Entry) : Packed × Bytes :=
  let compressed := compress e.method e.data
  ({ system := unixSystem
     flags := if e.name.all (· < 0x80) then 0 else 1 <<< utf8Flag
     method := methodCode e.method
     checksum := crc32 e.data
     compressedSize := compressed.length
     size := e.data.length
     attributes := e.mode.getD 0 * 65536
     offset
     name := e.name }, compressed)

/-- The descriptions of entries from `offset` on, with their compressed contents. -/
def packAll : Nat → List Entry → List (Packed × Bytes)
  | _, [] => []
  | offset, e :: es =>
    let p := pack offset e
    p :: packAll (offset + p.1.localRecord.length + p.2.length) es

/-- The container of some entries. -/
def write (entries : List Entry) : Bytes :=
  let packed := packAll 0 entries
  let contents := packed.flatMap fun (p, compressed) => p.localRecord ++ compressed
  let directory := packed.flatMap fun (p, _) => p.centralRecord
  contents ++ directory ++ endRecord entries.length directory.length contents.length

end PackageMigration.Container.Zip
