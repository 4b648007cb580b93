import PackageMigration.Bytes
/-
  The checksum of the entries of a container, CRC-32.

  * `crc32`: the checksum of data.
-/
namespace PackageMigration

namespace Crc32

/-- The divisor of the checksum, its bits in reverse. -/
def divisor : UInt32 := 0xEDB88320

/-- The remainder after one more bit. -/
def shift (r : UInt32) : UInt32 := if r &&& 1 = 1 then (r >>> 1) ^^^ divisor else r >>> 1

/-- The remainder of a byte by itself. -/
def ofByte (n : Nat) : UInt32 := (List.range 8).foldl (fun r _ => shift r) n.toUInt32

/-- The remainders of the bytes. -/
def table : Array UInt32 := ((List.range 256).map ofByte).toArray

/-- The remainder after one more byte. -/
def step (r : UInt32) (b : UInt8) : UInt32 :=
  (r >>> 8) ^^^ table.getD ((r ^^^ b.toUInt32) &&& 0xFF).toNat 0

end Crc32

/-- The checksum of data. -/
def crc32 (data : Bytes) : Nat := ((data.foldl Crc32.step 0xFFFFFFFF) ^^^ 0xFFFFFFFF).toNat

end PackageMigration
